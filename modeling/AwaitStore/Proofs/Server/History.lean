import AwaitStore.Proofs.Server.Connections
import AwaitStore.Proofs.Transitions
import Mathlib.Data.List.Induction

namespace AwaitStore.Server.Service

open Wire (Message)

variable {δ σ : Type}

abbrev Moment (δ σ : Type) := Service δ σ × Step

/-- A message that was taken from a stream, and the server before that. -/
structure Receipt (δ σ : Type) where
  before : Service δ σ
  connection : Nat
  message : Message

def receipt? (m : Moment δ σ) : Option (Receipt δ σ) :=
  (m.1.taken? m.2).map fun (i, message) => ⟨m.1, i, message⟩

def receipts (moments : List (Moment δ σ)) : List (Receipt δ σ) := moments.filterMap receipt?

def received (i : Nat) (moments : List (Moment δ σ)) : List (Receipt δ σ) :=
  (receipts moments).filter fun r => r.connection == i

theorem mem_receipts {r : Receipt δ σ} {moments : List (Moment δ σ)} :
    r ∈ receipts moments ↔ ∃ a, (r.before, a) ∈ moments ∧ r.before.taken? a = some (r.connection, r.message) := by
  rw [receipts, List.mem_filterMap]
  constructor
  · rintro ⟨⟨s, a⟩, hm, hr⟩
    obtain ⟨⟨i, m⟩, ht, rfl⟩ := Option.map_eq_some_iff.mp hr
    exact ⟨a, hm, ht⟩
  · rintro ⟨a, hm, ht⟩
    exact ⟨(r.before, a), hm, by rw [receipt?, ht]; rfl⟩

theorem mem_received {i : Nat} {r : Receipt δ σ} {moments : List (Moment δ σ)} :
    r ∈ received i moments ↔ r ∈ receipts moments ∧ r.connection = i := by
  rw [received, List.mem_filter, beq_iff_eq]

def ended? : Moment δ σ → Option (Job × Outcome)
  | (s, .reply job) =>
      match s.tasks.find? fun t => t.job == job with
      | some ⟨_, _, _, _, .answered outcome⟩ => some (job, outcome)
      | _ => none
  | _ => none

def ended (moments : List (Moment δ σ)) : List (Job × Outcome) := moments.filterMap ended?

section Snoc

variable {moments : List (Moment δ σ)} {s : Service δ σ} {a : Step} {i j : Nat} {m : Message}

theorem receipts_snoc_none (h : s.taken? a = none) : receipts (moments ++ [(s, a)]) = receipts moments := by
  simp [receipts, receipt?, h]

theorem receipts_snoc_some (h : s.taken? a = some (i, m)) :
    receipts (moments ++ [(s, a)]) = receipts moments ++ [⟨s, i, m⟩] := by
  simp [receipts, receipt?, h]

theorem received_snoc_none (h : s.taken? a = none) : received i (moments ++ [(s, a)]) = received i moments := by
  rw [received, receipts_snoc_none h, received]

theorem received_snoc_self (h : s.taken? a = some (i, m)) :
    received i (moments ++ [(s, a)]) = received i moments ++ [⟨s, i, m⟩] := by
  simp [received, receipts_snoc_some h]

theorem received_snoc_of_ne (h : s.taken? a = some (j, m)) (hj : j ≠ i) :
    received i (moments ++ [(s, a)]) = received i moments := by
  simp [received, receipts_snoc_some h, hj]

theorem ended_snoc_none (h : ∀ job, a ≠ .reply job) : ended (moments ++ [(s, a)]) = ended moments := by
  have he : ended? (s, a) = none := by
    cases a with
    | reply job => exact absurd rfl (h job)
    | _ => rfl
  simp [ended, he]

theorem ended_snoc_reply {task : Task} {outcome : Outcome}
    (h : s.tasks.find? (fun t => t.job == task.job) = some task) (ha : task.stage = .answered outcome) :
    ended (moments ++ [(s, .reply task.job)]) = ended moments ++ [(task.job, outcome)] := by
  obtain ⟨job, i, id, op, stage⟩ := task
  cases ha
  simp [ended, ended?, h]

end Snoc

section Run

variable [DecidableEq δ] [Database σ] (digest : Nat → String → δ)

def remember (s : Service δ σ) (a : Step) : Option (Service δ σ × Option (Moment δ σ)) :=
  (s.step digest a).map fun t => (t, some (s, a))

abbrev run (s : Service δ σ) (steps : List Step) : Option (Service δ σ × List (Moment δ σ)) :=
  runSteps (remember digest) s steps

def Happened (moments : List (Moment δ σ)) (s : Service δ σ) (a : Step) (u : Service δ σ) : Prop :=
  (s, a) ∈ moments ∧ s.step digest a = some u

variable {digest} {maxFrame slots : Nat} {store : σ}

theorem run_snoc {s t : Service δ σ} {steps : List Step} {a : Step} {moments : List (Moment δ σ)} :
    s.run digest (steps ++ [a]) = some (t, moments) ↔
      ∃ u early, s.run digest steps = some (u, early) ∧ u.step digest a = some t ∧
        moments = early ++ [(u, a)] := by
  simp only [run, runSteps_snoc, remember, Option.map_eq_some_iff]
  constructor
  · rintro ⟨u, early, last, hr, ⟨v, hv, he⟩, rfl⟩
    cases he
    exact ⟨u, early, hr, hv, rfl⟩
  · rintro ⟨u, early, hr, hv, rfl⟩
    exact ⟨u, early, some (u, a), hr, ⟨t, hv, rfl⟩, rfl⟩

theorem Connected.change {v w : View δ σ} {a : Step} {k : Option (Nat × Message)} (h : Connected v)
    (hs : Change digest v k a w) : Connected w := by
  have hstand (i : Nat) (x : Standing) : Connected (v.stand i x) := by
    intro task htask
    by_cases hi : task.connection = i
    · exact ⟨x, by simp [View.stand, hi]⟩
    · simpa [View.stand, hi] using h task htask
  cases hs with
  | arrived | hungUp | ignored | loggedInTwice | wrongPassword | unauthenticated | shutOut | joined | released
  | unheld | worked | wrote | strained | shutDown => exact h
  | connected | strangerLeft | userLeft | admitted | refused | applied | entered | turnedAway | gaveUp | abandoned =>
      exact hstand _ _
  | dispatched before =>
      intro task htask
      rcases List.mem_append.mp htask with htask | htask
      · exact h task htask
      · cases List.mem_singleton.mp htask
        exact ⟨_, before⟩
  | asked =>
      intro task htask
      obtain ⟨old, hold, rfl⟩ := List.mem_map.mp htask
      obtain ⟨stage, he⟩ := old.learn_eq _ _
      rw [he]
      exact h old hold
  | replied => exact fun task htask => h task (List.mem_filter.mp htask).1

theorem connected_run {t : Service δ σ} {steps : List Step} {moments : List (Moment δ σ)}
    (h : (new maxFrame slots store).run digest steps = some (t, moments)) : Connected t.view := by
  induction steps using List.reverseRecOn generalizing t moments with
  | nil =>
      cases h
      intro task htask
      cases htask
  | append_singleton steps a ih =>
      obtain ⟨u, early, hr, hs, -⟩ := run_snoc.mp h
      exact (ih hr).change (change_of_step (ih hr) hs)

/-- What holds of a new server and is kept by every step holds after every run. -/
theorem run_induction {P : List (Moment δ σ) → View δ σ → Prop} (hnew : P [] (new maxFrame slots store).view)
    (hstep : ∀ steps moments s a k v, (new maxFrame slots store).run digest steps = some (s, moments) →
      P moments s.view → s.taken? a = k → Change digest s.view k a v → P (moments ++ [(s, a)]) v)
    {t : Service δ σ} {steps : List Step} {moments : List (Moment δ σ)}
    (h : (new maxFrame slots store).run digest steps = some (t, moments)) : P moments t.view := by
  induction steps using List.reverseRecOn generalizing t moments with
  | nil =>
      cases h
      exact hnew
  | append_singleton steps a ih =>
      obtain ⟨u, early, hr, hs, rfl⟩ := run_snoc.mp h
      exact hstep steps early u a _ t.view hr (ih hr) rfl (change_of_step (connected_run hr) hs)

theorem run_of_mem {s t : Service δ σ} {steps : List Step} {a : Step} {moments : List (Moment δ σ)}
    (h : (new maxFrame slots store).run digest steps = some (t, moments)) (hm : (s, a) ∈ moments) :
    ∃ steps early late u, (new maxFrame slots store).run digest steps = some (s, early) ∧
      s.step digest a = some u ∧ moments = early ++ (s, a) :: late := by
  induction steps using List.reverseRecOn generalizing t moments with
  | nil =>
      cases h
      cases hm
  | append_singleton steps b ih =>
      obtain ⟨u, early, hr, hs, rfl⟩ := run_snoc.mp h
      rcases List.mem_append.mp hm with hm | hm
      · obtain ⟨steps, front, late, v, hf, hv, rfl⟩ := ih hr hm
        exact ⟨steps, front, late ++ [(u, b)], v, hf, hv, by simp⟩
      · cases List.mem_singleton.mp hm
        exact ⟨steps, early, [], t, hr, hs, rfl⟩

theorem change_of_happened {t s u : Service δ σ} {steps : List Step} {a : Step} {moments : List (Moment δ σ)}
    (h : (new maxFrame slots store).run digest steps = some (t, moments)) (hs : Happened digest moments s a u) :
    Change digest s.view (s.taken? a) a u.view := by
  obtain ⟨_, _, _, _, hr, -, -⟩ := run_of_mem h hs.1
  exact change_of_step (connected_run hr) hs.2

end Run

end AwaitStore.Server.Service
