import AwaitStore.Proofs.Transitions
import AwaitStore.Server.Sessions
import Mathlib.Data.List.Nodup

namespace AwaitStore.Server.Sessions

abbrev run (s : Sessions) (steps : List Step) : Option (Sessions × List Verdict) := runSteps step s steps

theorem take?_eq_some {n : Nat} {l rest : List Login} {login : Login} (h : take? n l = some (login, rest)) :
    ∃ front back, l = front ++ login :: back ∧ rest = front ++ back ∧ login.request = n := by
  induction l generalizing rest with
  | nil => cases h
  | cons first l ih =>
      simp only [take?] at h
      split at h
      next hn =>
        cases h
        exact ⟨[], l, rfl, rfl, hn⟩
      next hn =>
        obtain ⟨⟨found, others⟩, ht, he⟩ := Option.map_eq_some_iff.mp h
        cases he
        obtain ⟨front, back, rfl, rfl, hn⟩ := ih ht
        exact ⟨first :: front, back, rfl, rfl, hn⟩

theorem take?_append_cons {front back : List Login} {login : Login}
    (h : login.request ∉ front.map Login.request) :
    take? login.request (front ++ login :: back) = some (login, front ++ back) := by
  induction front with
  | nil => simp [take?]
  | cons first front ih =>
      rw [List.map_cons, List.mem_cons, not_or] at h
      rw [List.cons_append, take?, if_neg (Ne.symm h.1), ih h.2]
      rfl

theorem exists_take? {l : List Login} {login : Login} (h : login ∈ l) :
    ∃ found rest, take? login.request l = some (found, rest) := by
  induction l with
  | nil => cases h
  | cons first l ih =>
      simp only [take?]
      split
      · exact ⟨_, _, rfl⟩
      next hne =>
        rcases List.mem_cons.mp h with rfl | h
        · exact absurd rfl hne
        · obtain ⟨found, rest, ht⟩ := ih h
          exact ⟨found, first :: rest, by rw [ht]; rfl⟩

theorem ask_eq (login : Login) (s : Sessions) :
    s.ask login =
      if login.user ∈ s.active then (s, some ⟨login, false⟩)
      else ({ s with arriving := s.arriving ++ [login] }, none) := by
  simp only [ask, Std.ExtTreeSet.contains_iff_mem]

theorem join_eq_some {s t : Sessions} {n : Nat} (h : s.join n = some t) :
    ∃ front login back, s.arriving = front ++ login :: back ∧ login.request = n ∧
      t = if s.free = 0 then { s with arriving := front ++ back, waiting := s.waiting ++ [login] }
        else { s with free := s.free - 1, arriving := front ++ back, called := s.called ++ [login] } := by
  obtain ⟨⟨login, _⟩, ht, rfl⟩ := Option.map_eq_some_iff.mp h
  obtain ⟨front, back, he, rfl, hn⟩ := take?_eq_some ht
  exact ⟨front, login, back, he, hn, rfl⟩

theorem enter_eq_some {s t : Sessions} {n : Nat} {verdict : Verdict} (h : s.enter n = some (t, verdict)) :
    ∃ front login back, s.called = front ++ login :: back ∧ login.request = n ∧
      if login.user ∈ s.active then
        t = { s with called := front ++ back, leaving := s.leaving ++ [login] } ∧ verdict = ⟨login, false⟩
      else
        t = { s with
            called := front ++ back
            active := s.active.insert login.user
            opened := s.opened ++ [login] } ∧ verdict = ⟨login, true⟩ := by
  obtain ⟨⟨login, _⟩, ht, he⟩ := Option.map_eq_some_iff.mp h
  obtain ⟨front, back, hc, rfl, hn⟩ := take?_eq_some ht
  refine ⟨front, login, back, hc, hn, ?_⟩
  simp only [Std.ExtTreeSet.contains_iff_mem] at he
  split at he
  next hu =>
    cases he
    rw [if_pos hu]
    exact ⟨rfl, rfl⟩
  next hu =>
    cases he
    rw [if_neg hu]
    exact ⟨rfl, rfl⟩

theorem finish_eq_some {s t : Sessions} {n : Nat} (h : s.finish n = some t) :
    ∃ front login back, s.opened = front ++ login :: back ∧ login.request = n ∧
      t = { s with
        opened := front ++ back
        active := s.active.erase login.user
        leaving := s.leaving ++ [login] } := by
  obtain ⟨⟨login, _⟩, ht, rfl⟩ := Option.map_eq_some_iff.mp h
  obtain ⟨front, back, he, rfl, hn⟩ := take?_eq_some ht
  exact ⟨front, login, back, he, hn, rfl⟩

theorem release_eq_some {s t : Sessions} {n : Nat} (h : s.release n = some t) :
    ∃ front login back, s.leaving = front ++ login :: back ∧ login.request = n ∧
      t = { s with leaving := front ++ back }.giveBack := by
  obtain ⟨⟨login, _⟩, ht, rfl⟩ := Option.map_eq_some_iff.mp h
  obtain ⟨front, back, he, rfl, hn⟩ := take?_eq_some ht
  exact ⟨front, login, back, he, hn, rfl⟩

theorem abandon_eq_some {s t : Sessions} {n : Nat} (h : s.abandon n = some t) :
    (∃ front login back, s.waiting = front ++ login :: back ∧ login.request = n ∧
        t = { s with waiting := front ++ back }) ∨
      ∃ front login back, s.called = front ++ login :: back ∧ login.request = n ∧
        t = { s with called := front ++ back }.giveBack := by
  simp only [abandon] at h
  split at h
  next login rest ht =>
    cases h
    obtain ⟨front, back, he, rfl, hn⟩ := take?_eq_some ht
    exact .inl ⟨front, login, back, he, hn, rfl⟩
  next =>
    obtain ⟨⟨login, _⟩, ht, rfl⟩ := Option.map_eq_some_iff.mp h
    obtain ⟨front, back, he, rfl, hn⟩ := take?_eq_some ht
    exact .inr ⟨front, login, back, he, hn, rfl⟩

theorem step_eq_some {s t : Sessions} {a : Step} {verdict : Option Verdict} (h : s.step a = some (t, verdict)) :
    match a with
    | .ask login => s.ask login = (t, verdict)
    | .join n => s.join n = some t ∧ verdict = none
    | .enter n => ∃ v, s.enter n = some (t, v) ∧ verdict = some v
    | .finish n => s.finish n = some t ∧ verdict = none
    | .release n => s.release n = some t ∧ verdict = none
    | .abandon n => s.abandon n = some t ∧ verdict = none := by
  cases a with
  | ask login => exact Option.some.inj h
  | enter n =>
      obtain ⟨⟨u, v⟩, hu, he⟩ := Option.map_eq_some_iff.mp h
      cases he
      exact ⟨v, hu, rfl⟩
  | join n | finish n | release n | abandon n =>
      obtain ⟨u, hu, he⟩ := Option.map_eq_some_iff.mp h
      cases he
      exact ⟨hu, rfl⟩

/-- All slots, free or in somebody's hands. -/
def slots (s : Sessions) : Nat := s.opened.length + s.called.length + s.leaving.length + s.free

theorem giveBack_cases (s : Sessions) :
    (s.waiting = [] ∧ s.giveBack = { s with free := s.free + 1 }) ∨
      ∃ login rest, s.waiting = login :: rest ∧
        s.giveBack = { s with waiting := rest, called := s.called ++ [login] } := by
  unfold giveBack
  split
  next hw => exact .inl ⟨hw, rfl⟩
  next login rest hw => exact .inr ⟨login, rest, hw, rfl⟩

theorem slots_giveBack (s : Sessions) : s.giveBack.slots = s.slots + 1 := by
  rcases giveBack_cases s with ⟨-, he⟩ | ⟨login, rest, -, he⟩
  · rw [he]
    rfl
  · rw [he]
    simp only [slots, List.length_append, List.length_singleton]
    omega

theorem slots_step {s t : Sessions} {a : Step} {verdict : Option Verdict} (h : s.step a = some (t, verdict)) :
    t.slots = s.slots := by
  have hstep := step_eq_some h
  cases a with
  | ask login =>
      simp only [ask_eq] at hstep
      split at hstep <;> cases hstep <;> rfl
  | join n =>
      obtain ⟨front, login, back, ha, -, rfl⟩ := join_eq_some hstep.1
      split
      · rfl
      next hfree =>
        simp only [slots, List.length_append, List.length_singleton]
        omega
  | enter n =>
      obtain ⟨v, hv, -⟩ := hstep
      obtain ⟨front, login, back, hc, -, hcase⟩ := enter_eq_some hv
      split at hcase
      all_goals
        obtain ⟨rfl, -⟩ := hcase
        simp only [slots, hc, List.length_append, List.length_cons, List.length_nil]
        omega
  | finish n =>
      obtain ⟨front, login, back, ho, -, rfl⟩ := finish_eq_some hstep.1
      simp only [slots, ho, List.length_append, List.length_cons, List.length_nil]
      omega
  | release n =>
      obtain ⟨front, login, back, hl, -, rfl⟩ := release_eq_some hstep.1
      rw [slots_giveBack]
      simp only [slots, hl, List.length_append, List.length_cons]
      omega
  | abandon n =>
      rcases abandon_eq_some hstep.1 with ⟨front, login, back, -, -, rfl⟩ | ⟨front, login, back, hc, -, rfl⟩
      · rfl
      · rw [slots_giveBack]
        simp only [slots, hc, List.length_append, List.length_cons]
        omega

structure Sound (s : Sessions) : Prop where
  users_nodup : (s.opened.map Login.user).Nodup
  mem_active : ∀ user, user ∈ s.active ↔ user ∈ s.opened.map Login.user
  no_idle_slot : s.waiting = [] ∨ s.free = 0

theorem sound_new (slots : Nat) : Sound (new slots) where
  users_nodup := List.nodup_nil
  mem_active := by simp [new]
  no_idle_slot := .inl rfl

theorem Sound.giveBack {s : Sessions} (h : s.Sound) : s.giveBack.Sound := by
  rcases giveBack_cases s with ⟨hw, he⟩ | ⟨login, rest, hw, he⟩
  · rw [he]
    exact ⟨h.users_nodup, h.mem_active, .inl hw⟩
  · rw [he]
    refine ⟨h.users_nodup, h.mem_active, .inr ?_⟩
    simpa [hw] using h.no_idle_slot

theorem Sound.join {s t : Sessions} (h : s.Sound) {n : Nat} (hj : s.join n = some t) : t.Sound := by
  obtain ⟨front, login, back, -, -, rfl⟩ := join_eq_some hj
  split
  next hfree => exact ⟨h.users_nodup, h.mem_active, .inr hfree⟩
  next hfree => exact ⟨h.users_nodup, h.mem_active, .inl (h.no_idle_slot.resolve_right hfree)⟩

theorem Sound.enter {s t : Sessions} (h : s.Sound) {n : Nat} {verdict : Verdict}
    (he : s.enter n = some (t, verdict)) : t.Sound := by
  obtain ⟨front, login, back, -, -, hcase⟩ := enter_eq_some he
  split at hcase
  next hu =>
    obtain ⟨rfl, -⟩ := hcase
    exact ⟨h.users_nodup, h.mem_active, h.no_idle_slot⟩
  next hu =>
    obtain ⟨rfl, -⟩ := hcase
    refine ⟨?_, ?_, h.no_idle_slot⟩
    · rw [List.map_append]
      refine h.users_nodup.append (List.nodup_singleton _) ?_
      simpa [h.mem_active] using hu
    · intro user
      rw [Std.ExtTreeSet.mem_insert, Std.LawfulEqCmp.compare_eq_iff_eq, h.mem_active, List.map_append,
        List.mem_append, List.map_singleton, List.mem_singleton, or_comm, eq_comm]

theorem Sound.finish {s t : Sessions} (h : s.Sound) {n : Nat} (hf : s.finish n = some t) : t.Sound := by
  obtain ⟨front, login, back, ho, -, rfl⟩ := finish_eq_some hf
  have hn := h.users_nodup
  rw [ho, List.map_append, List.map_cons, List.nodup_middle, List.nodup_cons, ← List.map_append] at hn
  refine ⟨hn.2, ?_, h.no_idle_slot⟩
  intro user
  rw [Std.ExtTreeSet.mem_erase, Ne, Std.LawfulEqCmp.compare_eq_iff_eq, h.mem_active, ho]
  have hmiddle : user ∈ (front ++ login :: back).map Login.user ↔
      user = login.user ∨ user ∈ (front ++ back).map Login.user := by
    rw [List.map_append, List.map_cons, List.perm_middle.mem_iff, List.mem_cons, List.map_append]
  rw [hmiddle]
  constructor
  · rintro ⟨hne, he | hu⟩
    · exact absurd he.symm hne
    · exact hu
  · intro hu
    exact ⟨fun he => hn.1 (he ▸ hu), .inr hu⟩

theorem Sound.step {s t : Sessions} (h : s.Sound) {a : Step} {verdict : Option Verdict}
    (hs : s.step a = some (t, verdict)) : t.Sound := by
  have hstep := step_eq_some hs
  cases a with
  | ask login =>
      simp only [ask_eq] at hstep
      split at hstep <;> cases hstep
      · exact h
      · exact ⟨h.users_nodup, h.mem_active, h.no_idle_slot⟩
  | join n => exact h.join hstep.1
  | enter n =>
      obtain ⟨v, hv, -⟩ := hstep
      exact h.enter hv
  | finish n => exact h.finish hstep.1
  | release n =>
      obtain ⟨front, login, back, -, -, rfl⟩ := release_eq_some hstep.1
      exact Sound.giveBack ⟨h.users_nodup, h.mem_active, h.no_idle_slot⟩
  | abandon n =>
      rcases abandon_eq_some hstep.1 with ⟨front, login, back, hw, -, rfl⟩ | ⟨front, login, back, -, -, rfl⟩
      · refine ⟨h.users_nodup, h.mem_active, .inr ?_⟩
        simpa [hw] using h.no_idle_slot
      · exact Sound.giveBack ⟨h.users_nodup, h.mem_active, h.no_idle_slot⟩

theorem Sound.run {s t : Sessions} (h : s.Sound) {steps : List Step} {verdicts : List Verdict}
    (hr : s.run steps = some (t, verdicts)) : t.Sound ∧ t.slots = s.slots := by
  induction steps generalizing s verdicts with
  | nil =>
      cases hr
      exact ⟨h, rfl⟩
  | cons a rest ih =>
      obtain ⟨u, first, more, hs, hrest, -⟩ := runSteps_cons.mp hr
      obtain ⟨ht, he⟩ := ih (h.step hs) hrest
      exact ⟨ht, he.trans (slots_step hs)⟩

end AwaitStore.Server.Sessions
