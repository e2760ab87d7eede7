import AwaitStore.Proofs.Store.Bookkeeping

namespace AwaitStore.Store

/-- Records in which nobody is notified who is not summoned. `Apart` says that callers of different groups
sleep on different conditions. -/
class Calling (σ : Type) [Triggers σ] extends Bookkeeping σ where
  Apart : σ → Prop
  apart_empty : Apart Triggers.empty
  apart_register {s : σ} (h : Apart s) (key : Key) : Apart (Triggers.register key s).2
  apart_summon {s : σ} (h : Apart s) (keys : List Key) : Apart (Triggers.summon keys s).1
  apart_acknowledge {s : σ} (h : Apart s) (ticket : Triggers.Ticket σ) :
    Apart (Triggers.acknowledge ticket s).2.2
  apart_unregister {s : σ} (h : Apart s) (key : Key) (ticket : Triggers.Ticket σ) :
    Apart (Triggers.unregister key ticket s)
  owes_of_condition {live : List (Key × Triggers.Ticket σ)} {s : σ} (h : Agrees live s) (ha : Apart s)
    (hp : Triggers.pending s = false) (keys : List Key) :
    ∀ w ∈ live, Triggers.condition w.2 ∈ (Triggers.summon keys s).2 → Owes w.2 (Triggers.summon keys s).1
  acknowledge_iff {front back : List (Key × Triggers.Ticket σ)} {key : Key} {ticket : Triggers.Ticket σ}
    {s : σ} (h : Agrees (front ++ (key, ticket) :: back) s) :
    (Triggers.acknowledge ticket s).1 = true ↔ Owes ticket s ∧ ∀ w ∈ front ++ back, ¬ Owes w.2 s

namespace SingleLock

open Bookkeeping Calling

/-- The calls that have been notified since they last fell asleep. -/
def due {σ : Type} [Triggers σ] (s : SingleLock σ) : List Nat := (s.asleep.filter Sleeper.notified).map Sleeper.call

section Due

variable {σ : Type} [Triggers σ] {s t : SingleLock σ}

theorem mem_due {call : Nat} : call ∈ s.due ↔ ∃ w ∈ s.asleep, w.notified ∧ w.call = call := by
  simp [due, and_assoc]

theorem due_start (call : Nat) (wish : Wish) : (s.start call wish).1.due = s.due := by
  rw [start_eq]
  split
  · rfl
  · simp [due, List.filter_append]

theorem mem_due_wake (hn : s.sleeping.Nodup) {call : Nat} {r : Option Woken}
    (h : s.wake call = some (t, r)) (other : Nat) : other ∈ t.due ↔ other ∈ s.due ∧ other ≠ call := by
  obtain ⟨front, w, back, he, rfl, hw⟩ := exists_sleeper hn (mem_sleeping_of_wake h)
  have hne : ∀ v ∈ front ++ back, v.call ≠ w.call := fun v hv hc => hw (hc ▸ List.mem_map_of_mem hv)
  have hsplit : other ∈ s.due ∧ other ≠ w.call ↔ ∃ v ∈ front ++ back, v.notified ∧ v.call = other := by
    rw [mem_due, he]
    constructor
    · rintro ⟨⟨v, hv, hnot, rfl⟩, ho⟩
      rcases List.mem_cons.mp (List.perm_middle.mem_iff.mp hv) with rfl | hv
      · exact absurd rfl ho
      · exact ⟨v, hv, hnot, rfl⟩
    · rintro ⟨v, hv, hnot, rfl⟩
      exact ⟨⟨v, List.perm_middle.mem_iff.mpr (List.mem_cons_of_mem w hv), hnot, rfl⟩, hne v hv⟩
  rw [wake_eq he hw] at h
  rw [hsplit, mem_due]
  split at h
  · cases h
    rfl
  · cases h
    constructor
    · rintro ⟨v, hv, hnot, rfl⟩
      rcases List.mem_cons.mp (List.perm_middle.mem_iff.mp hv) with rfl | hv
      · cases hnot
      · exact ⟨v, hv, hnot, rfl⟩
    · rintro ⟨v, hv, hnot, rfl⟩
      exact ⟨v, List.perm_middle.mem_iff.mpr (List.mem_cons_of_mem _ hv), hnot, rfl⟩

end Due

variable {σ : Type} [Triggers σ] [Calling σ] {s t : SingleLock σ}

structure Exact (s : SingleLock σ) : Prop extends Sound s where
  apart : Apart s.triggers
  owes_of_notified : ∀ w ∈ s.asleep, w.notified → Owes w.ticket s.triggers

theorem exact_empty : Exact (empty : SingleLock σ) := ⟨sound_empty, apart_empty, by simp [empty]⟩

theorem Exact.owes_iff (h : s.Exact) {w : Sleeper (Triggers.Ticket σ)} (hw : w ∈ s.asleep) :
    Owes w.ticket s.triggers ↔ w.notified :=
  ⟨h.notified_of_owes w hw, h.owes_of_notified w hw⟩

theorem Exact.start (h : s.Exact) {call : Nat} {wish : Wish} (ha : s.Admits (.getWhen call wish)) :
    (s.start call wish).1.Exact := by
  have hsame := h.owes_start ha
  refine ⟨h.toSound.start ha, ?_, ?_⟩
  · rw [start_eq]
    split
    · exact apart_unregister (apart_register h.apart _) _ _
    · exact apart_register h.apart _
  · intro w hw hnot
    by_cases hold : w ∈ s.asleep
    · exact (hsame w hold).mpr (h.owes_of_notified w hold hnot)
    · rw [start_eq] at hw
      split at hw
      · exact absurd hw hold
      · rcases List.mem_append.mp hw with hw | hw
        · exact absurd hw hold
        · cases List.mem_singleton.mp hw
          cases hnot

theorem Exact.write (h : s.Exact) {entries : List (Key × Value)} (hw : s.write entries = some t) : t.Exact := by
  have ht := h.toSound.write hw
  obtain ⟨hp, rfl⟩ := write_eq_some hw
  refine ⟨ht, apart_summon h.apart _, ?_⟩
  intro v hv hnot
  obtain ⟨w, hw, rfl⟩ := List.mem_map.mp hv
  rw [notify_ticket]
  -- Nobody was notified before, as nobody owed an acknowledgement.
  have hquiet : ¬ w.notified := fun hn => (h.not_holds hp w hw).1 (h.owes_of_notified w hw hn)
  unfold notify at hnot
  split at hnot
  next hc =>
    exact owes_of_condition h.agrees h.apart hp _ _ (List.mem_map_of_mem hw) (List.contains_iff_mem.mp hc)
  · exact absurd hnot hquiet

theorem Exact.wake (h : s.Exact) {call : Nat} {r : Option Woken} (hw : s.wake call = some (t, r)) : t.Exact := by
  refine ⟨h.toSound.wake hw, ?_, ?_⟩
  · obtain ⟨w, -, -, rfl | rfl⟩ := wake_eq_some hw
    · exact apart_unregister (apart_acknowledge h.apart _) _ _
    · exact apart_acknowledge h.apart _
  · obtain ⟨front, w, back, he, rfl, hn⟩ := exists_sleeper h.calls_nodup (mem_sleeping_of_wake hw)
    obtain ⟨hsame, hown⟩ := h.owes_wake he hn hw
    intro v hv hnot
    rcases hown v hv with hold | ⟨-, hquiet⟩
    · have hmem : v ∈ s.asleep := he ▸ List.perm_middle.mem_iff.mpr (List.mem_cons_of_mem w hold)
      exact (hsame v hold).mpr (h.owes_of_notified v hmem hnot)
    · rw [hquiet] at hnot
      cases hnot

theorem Exact.step (h : s.Exact) {a : Step} (ha : s.Admits a) {r : Option Woken} (hs : s.step a = some (t, r)) :
    t.Exact := by
  cases a with
  | getWhen call wish =>
      have ht := h.start ha
      rwa [step_getWhen hs] at ht
  | write entries => exact h.write (step_write hs).1
  | wake call => exact h.wake hs

theorem Exact.run (h : s.Exact) {steps : List Step} (ha : s.Admitted steps) {ended : List Woken}
    (hr : s.run steps = some (t, ended)) : t.Exact := by
  induction steps generalizing s ended with
  | nil =>
      cases hr
      exact h
  | cons a rest ih =>
      obtain ⟨u, first, more, hs, hrest, rfl⟩ := run_cons.mp hr
      exact ih (h.step ha.1 hs) (ha.2 u first hs) hrest

theorem Exact.pending_iff (h : s.Exact) : Triggers.pending s.triggers = true ↔ ∃ call, call ∈ s.due := by
  rw [Bookkeeping.pending_iff h.agrees]
  constructor
  · rintro ⟨_, hl, ho⟩
    obtain ⟨w, hw, rfl⟩ := List.mem_map.mp hl
    exact ⟨w.call, mem_due.mpr ⟨w, hw, (h.owes_iff hw).mp ho, rfl⟩⟩
  · rintro ⟨call, hc⟩
    obtain ⟨w, hw, hn, -⟩ := mem_due.mp hc
    exact ⟨registration w, List.mem_map_of_mem hw, (h.owes_iff hw).mpr hn⟩

theorem Exact.acknowledge_iff (h : s.Exact) {w : Sleeper (Triggers.Ticket σ)} (hw : w ∈ s.asleep) :
    (Triggers.acknowledge w.ticket s.triggers).1 = true ↔ ∀ call, call ∈ s.due ↔ call = w.call := by
  obtain ⟨front, v, back, he, hc, hn⟩ := exists_sleeper h.calls_nodup (List.mem_map_of_mem hw)
  obtain rfl : v = w := List.inj_on_of_nodup_map h.calls_nodup (he ▸ by simp) hw hc
  have hagrees : Agrees (front.map registration ++ registration v :: back.map registration) s.triggers := by
    simpa [live, he] using h.agrees
  have hmem (u) (hu : u ∈ front ++ back) : u ∈ s.asleep :=
    he ▸ List.perm_middle.mem_iff.mpr (List.mem_cons_of_mem v hu)
  rw [Calling.acknowledge_iff hagrees, h.owes_iff hw, ← List.map_append]
  constructor
  · rintro ⟨hnot, hothers⟩ call
    rw [mem_due]
    constructor
    · rintro ⟨u, hu, hu', rfl⟩
      rw [he] at hu
      rcases List.mem_cons.mp (List.perm_middle.mem_iff.mp hu) with rfl | hu
      · rfl
      · exact absurd ((h.owes_iff (hmem u hu)).mpr hu') (hothers _ (List.mem_map_of_mem hu))
    · rintro rfl
      exact ⟨v, hw, hnot, rfl⟩
  · intro hdue
    constructor
    · obtain ⟨u, hu, hnot, hcall⟩ := mem_due.mp ((hdue v.call).mpr rfl)
      rwa [List.inj_on_of_nodup_map h.calls_nodup hu hw hcall] at hnot
    · intro _ hl ho
      obtain ⟨u, hu, rfl⟩ := List.mem_map.mp hl
      have hcall := (hdue u.call).mp (mem_due.mpr ⟨u, hmem u hu, (h.owes_iff (hmem u hu)).mp ho, rfl⟩)
      exact hn (hcall ▸ List.mem_map_of_mem hu)

/-- Until the next write a call is due for as long as it has not woken up, and no other call becomes due. -/
theorem Exact.mem_due_run (h : s.Exact) {steps : List Step} (ha : s.Admitted steps)
    (hw : ∀ entries, .write entries ∉ steps) {ended : List Woken} (hr : s.run steps = some (t, ended))
    (call : Nat) : call ∈ t.due ↔ call ∈ s.due ∧ .wake call ∉ steps := by
  induction steps generalizing s ended with
  | nil =>
      cases hr
      simp
  | cons a rest ih =>
      obtain ⟨u, first, more, hs, hrest, rfl⟩ := run_cons.mp hr
      have hu := ih (h.step ha.1 hs) (ha.2 u first hs)
        (fun entries he => hw entries (List.mem_cons_of_mem a he)) hrest
      rw [hu]
      cases a with
      | getWhen other wish =>
          have hdue : u.due = s.due := by
            have hstart := due_start (s := s) other wish
            rwa [step_getWhen hs] at hstart
          simp [hdue]
      | write entries => exact absurd List.mem_cons_self (hw entries)
      | wake other =>
          rw [mem_due_wake h.calls_nodup hs, List.mem_cons, not_or, and_assoc]
          simp

end SingleLock

end AwaitStore.Store
