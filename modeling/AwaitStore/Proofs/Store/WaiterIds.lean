import AwaitStore.Proofs.Store.PerKeyRecords
import Mathlib.Data.List.Induction

namespace AwaitStore.Store.SingleLock

open PerKeyConditions

/-- While a caller sleeps, fewer than 2 ^ 64 conditional reads start. -/
def IdsLast (steps : List Step) : Prop :=
  ∀ front call wish middle back, steps = front ++ .getWhen call wish :: (middle ++ back) →
    ∀ (s : SingleLock PerKeyConditions) ended,
      empty.run (front ++ .getWhen call wish :: middle) = some (s, ended) → call ∈ s.sleeping →
        (calls middle).length < UInt64.size

theorem idsLast_of_length {steps : List Step} (h : (calls steps).length < UInt64.size) : IdsLast steps := by
  rintro front call wish middle back rfl s ended - -
  simp only [calls_append, calls, List.length_append, List.length_cons] at h
  omega

theorem nextId_step {s t : SingleLock PerKeyConditions} {a : Step} {r : Option Woken}
    (h : s.step a = some (t, r)) :
    t.triggers.nextId = s.triggers.nextId + UInt64.ofNat (calls [a]).length := by
  cases a with
  | getWhen call wish =>
      have he := step_getWhen h
      rw [start_eq] at he
      split at he
      · cases he
        exact (unregister_nextId _ _ _).trans (register_nextId _ _)
      · cases he
        exact register_nextId _ _
  | write entries =>
      obtain ⟨-, rfl⟩ := write_eq_some (step_write h).1
      exact (summon_nextId _ _).trans (UInt64.add_zero _).symm
  | wake call =>
      obtain ⟨w, -, -, rfl | rfl⟩ := wake_eq_some h
      · exact (unregister_nextId _ _ _).trans (UInt64.add_zero _).symm
      · exact (UInt64.add_zero _).symm

theorem ticket_step {s t : SingleLock PerKeyConditions} {a : Step} {r : Option Woken}
    (h : s.step a = some (t, r)) {v : Sleeper Ticket} (hv : v ∈ t.asleep) :
    (∃ w ∈ s.asleep, w.call = v.call ∧ w.ticket.id = v.ticket.id) ∨
      ∃ wish, a = .getWhen v.call wish ∧ v.ticket.id = s.triggers.nextId := by
  cases a with
  | getWhen call wish =>
      have he := step_getWhen h
      rw [start_eq] at he
      split at he
      · cases he
        exact .inl ⟨v, hv, rfl, rfl⟩
      · cases he
        rcases List.mem_append.mp hv with hv | hv
        · exact .inl ⟨v, hv, rfl, rfl⟩
        · cases List.mem_singleton.mp hv
          exact .inr ⟨wish, rfl, by simp [Triggers.register, register_ticket]⟩
  | write entries =>
      obtain ⟨-, rfl⟩ := write_eq_some (step_write h).1
      obtain ⟨w, hw, rfl⟩ := List.mem_map.mp hv
      exact .inl ⟨w, hw, by simp, by simp⟩
  | wake call =>
      left
      obtain ⟨w, hw, hc, rfl | rfl⟩ := wake_eq_some h
      · exact ⟨v, List.mem_of_mem_filter hv, rfl, rfl⟩
      · obtain ⟨u, hu, rfl⟩ := List.mem_map.mp hv
        by_cases he : u.call = call
        · rw [if_pos (by simpa using he)]
          exact ⟨w, hw, hc.trans he.symm, rfl⟩
        · rw [if_neg (by simpa using he)]
          exact ⟨u, hu, rfl, rfl⟩

theorem nextId_run {s : SingleLock PerKeyConditions} {steps : List Step} {ended : List Woken}
    (h : empty.run steps = some (s, ended)) : s.triggers.nextId = UInt64.ofNat (calls steps).length := by
  induction steps using List.reverseRecOn generalizing s ended with
  | nil =>
      cases h
      rfl
  | append_singleton steps a ih =>
      obtain ⟨t, early, last, hr, hs, -⟩ := run_snoc.mp h
      rw [nextId_step hs, ih hr, calls_append, List.length_append, UInt64.ofNat_add]

/-- The id of a caller is the number of the conditional reads that started before its own. -/
theorem ticket_run {s : SingleLock PerKeyConditions} {steps : List Step} {ended : List Woken}
    (h : empty.run steps = some (s, ended)) {v : Sleeper Ticket} (hv : v ∈ s.asleep) :
    ∃ front wish back, steps = front ++ .getWhen v.call wish :: back ∧
      v.ticket.id = UInt64.ofNat (calls front).length := by
  induction steps using List.reverseRecOn generalizing s ended v with
  | nil =>
      cases h
      cases hv
  | append_singleton steps a ih =>
      obtain ⟨t, early, last, hr, hs, -⟩ := run_snoc.mp h
      rcases ticket_step hs hv with ⟨w, hw, hc, hid⟩ | ⟨wish, rfl, hid⟩
      · obtain ⟨front, wish, back, rfl, he⟩ := ih hr hw
        exact ⟨front, wish, back ++ [a], by simp [hc], hid ▸ he⟩
      · exact ⟨steps, wish, [], rfl, hid.trans (nextId_run hr)⟩

theorem ofNat_ne_ofNat {m n : Nat} (hlt : m < n) (hn : n < m + UInt64.size) :
    UInt64.ofNat m ≠ UInt64.ofNat n := by
  intro h
  have h' := congrArg UInt64.toNat h
  simp only [UInt64.toNat_ofNat'] at h'
  unfold UInt64.size at hn
  omega

theorem IdsLast.room {steps : List Step} (h : IdsLast steps) {front back : List Step} {call : Nat}
    {wish : Wish} (he : steps = front ++ .getWhen call wish :: back) {s : SingleLock PerKeyConditions}
    {ended : List Woken} (hr : empty.run front = some (s, ended)) : Room s.live s.triggers := by
  intro w hw
  obtain ⟨v, hv, rfl⟩ := List.mem_map.mp hw
  obtain ⟨first, wish', between, rfl, hid⟩ := ticket_run hr hv
  -- The caller still sleeps after this start, so the start counts among those that it sleeps through.
  have hsleep : v.call ∈ (s.start call wish).1.sleeping := by
    rw [start_eq]
    split
    · exact List.mem_map_of_mem hv
    · exact List.mem_map_of_mem (List.mem_append_left _ hv)
  have hrun : empty.run ((first ++ .getWhen v.call wish' :: between) ++ [.getWhen call wish]) =
      some ((s.start call wish).1, ended ++ (s.start call wish).2.toList) :=
    run_snoc.mpr ⟨s, ended, _, hr, rfl, rfl⟩
  rw [List.append_assoc, List.cons_append] at hrun
  have hlt := h first v.call wish' (between ++ [.getWhen call wish]) back (by simp [he]) _ _ hrun hsleep
  simp only [calls_append, calls, List.length_append, List.length_singleton] at hlt
  change v.ticket.id ≠ s.triggers.nextId
  rw [hid, nextId_run hr, calls_append, List.length_append]
  exact ofNat_ne_ofNat (by simp [calls]) (by simp only [calls, List.length_cons]; omega)

end AwaitStore.Store.SingleLock
