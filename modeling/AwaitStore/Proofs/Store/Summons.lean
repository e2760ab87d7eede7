import AwaitStore.Proofs.Store.Notice
import AwaitStore.Proofs.Store.PerKeyRecords
import AwaitStore.Proofs.Store.SharedRecords

namespace AwaitStore.Store

namespace SharedCondition

theorem outdated_middle (front back : List (Key × Ticket)) (key : Key) (ticket : Ticket) (s : SharedCondition) :
    outdated (front ++ (key, ticket) :: back) s =
      outdated (front ++ back) s + if ticket.seen = s.generation then 0 else 1 := by
  simp only [outdated, List.countP_append, List.countP_cons, bne_iff_ne]
  split <;> simp_all
  omega

theorem acknowledge_iff {front back : List (Key × Ticket)} {key : Key} {ticket : Ticket} {s : SharedCondition}
    (h : Agrees (front ++ (key, ticket) :: back) s) :
    (acknowledge ticket s).1 = true ↔ Owes ticket s ∧ ∀ w ∈ front ++ back, ¬ Owes w.2 s := by
  have hu := h.unsignaled_eq
  rw [outdated_middle] at hu
  by_cases he : ticket.seen = s.generation
  · simp [acknowledge, he]
  · rw [if_neg he] at hu
    have hlast : (acknowledge ticket s).1 = true ↔ outdated (front ++ back) s = 0 := by
      simp [acknowledge, he, hu]
    rw [hlast, outdated, List.countP_eq_zero]
    simp [he]

instance : Calling SharedCondition where
  Apart _ := True
  apart_empty := trivial
  apart_register _ _ := trivial
  apart_summon _ _ := trivial
  apart_acknowledge _ _ := trivial
  apart_unregister _ _ _ := trivial
  owes_of_condition h _ hp keys w hw _ := owes_summon h hp keys w hw
  acknowledge_iff := acknowledge_iff

end SharedCondition

namespace PerKeyConditions

/-- Conditions that have not been made yet are not in use, and no two groups share one. -/
structure Apart (s : PerKeyConditions) : Prop where
  made : ∀ (key : Key) (group : Group), s.groups[key]? = some group → group.changed < s.conditions
  unshared : ∀ (key other : Key) (group group' : Group), s.groups[key]? = some group →
    s.groups[other]? = some group' → group.changed = group'.changed → key = other

theorem register_conditions (key : Key) (s : PerKeyConditions) :
    (register key s).2.conditions = if (s.groups[key]?).isSome then s.conditions else s.conditions + 1 := by
  unfold register
  cases s.groups[key]? <;> rfl

theorem summon_conditions (keys : List Key) (s : PerKeyConditions) :
    (summon keys s).1.conditions = s.conditions := by
  induction keys generalizing s with
  | nil => rfl
  | cons key keys ih =>
      simp only [summon, ih]
      unfold summonOne
      cases s.groups[key]? <;> rfl

theorem unregister_conditions (key : Key) (ticket : Ticket) (s : PerKeyConditions) :
    (unregister key ticket s).conditions = s.conditions := by
  unfold unregister
  cases s.groups[key]? <;> rfl

theorem changed_unregister {key other : Key} {ticket : Ticket} {s : PerKeyConditions} {group : Group}
    (h : (unregister key ticket s).groups[other]? = some group) :
    ∃ group', s.groups[other]? = some group' ∧ group'.changed = group.changed := by
  cases hg : s.groups[key]? with
  | none =>
      have he : unregister key ticket s = s := by simp [unregister, hg]
      exact ⟨group, he ▸ h, rfl⟩
  | some own =>
      rw [getElem?_unregister hg] at h
      split at h
      next he =>
        split at h
        · cases h
        · cases h
          exact ⟨own, he ▸ hg, rfl⟩
      next => exact ⟨group, h, rfl⟩

theorem Apart.register {s : PerKeyConditions} (h : s.Apart) (key : Key) :
    (PerKeyConditions.register key s).2.Apart := by
  cases hg : s.groups[key]? with
  | some own =>
      have hchanged : (groupFor key s).changed = own.changed := by rw [groupFor_eq hg]
      have hold (other : Key) (group : Group)
          (ho : (PerKeyConditions.register key s).2.groups[other]? = some group) :
          ∃ group', s.groups[other]? = some group' ∧ group'.changed = group.changed := by
        rw [getElem?_register] at ho
        split at ho
        next he =>
          cases ho
          exact ⟨own, he ▸ hg, hchanged.symm⟩
        next => exact ⟨group, ho, rfl⟩
      constructor
      · intro other group ho
        obtain ⟨group', hg', hc⟩ := hold other group ho
        rw [register_conditions, hg, ← hc]
        exact h.made other group' hg'
      · intro first second group group' h₁ h₂ he
        obtain ⟨g₁, hg₁, hc₁⟩ := hold first group h₁
        obtain ⟨g₂, hg₂, hc₂⟩ := hold second group' h₂
        exact h.unshared first second g₁ g₂ hg₁ hg₂ (by rw [hc₁, hc₂, he])
  | none =>
      have hchanged : (groupFor key s).changed = s.conditions := by simp [groupFor, hg]
      have hnew (other : Key) (group : Group)
          (ho : (PerKeyConditions.register key s).2.groups[other]? = some group) :
          key = other ∧ group.changed = s.conditions ∨
            s.groups[other]? = some group ∧ group.changed < s.conditions := by
        rw [getElem?_register] at ho
        split at ho
        next he =>
          cases ho
          exact .inl ⟨he, hchanged⟩
        next => exact .inr ⟨ho, h.made other group ho⟩
      constructor
      · intro other group ho
        rw [register_conditions, hg]
        rcases hnew other group ho with ⟨-, hc⟩ | ⟨-, hc⟩
        · exact hc ▸ Nat.lt_succ_self _
        · exact Nat.lt_succ_of_lt hc
      · intro first second group group' h₁ h₂ he
        rcases hnew first group h₁ with ⟨hk₁, hc₁⟩ | ⟨hg₁, hc₁⟩
        · rcases hnew second group' h₂ with ⟨hk₂, -⟩ | ⟨-, hc₂⟩
          · exact hk₁.symm.trans hk₂
          · rw [← he, hc₁] at hc₂
            exact absurd hc₂ (Nat.lt_irrefl _)
        · rcases hnew second group' h₂ with ⟨-, hc₂⟩ | ⟨hg₂, -⟩
          · rw [he, hc₂] at hc₁
            exact absurd hc₁ (Nat.lt_irrefl _)
          · exact h.unshared first second group group' hg₁ hg₂ he

theorem Apart.summon {s : PerKeyConditions} (h : s.Apart) (keys : List Key) :
    (PerKeyConditions.summon keys s).1.Apart := by
  constructor
  · rw [summon_groups, summon_conditions]
    exact h.made
  · rw [summon_groups]
    exact h.unshared

theorem Apart.unregister {s : PerKeyConditions} (h : s.Apart) (key : Key) (ticket : Ticket) :
    (PerKeyConditions.unregister key ticket s).Apart := by
  constructor
  · intro other group ho
    obtain ⟨group', hg, hc⟩ := changed_unregister ho
    rw [unregister_conditions, ← hc]
    exact h.made other group' hg
  · intro first second group group' h₁ h₂ he
    obtain ⟨g₁, hg₁, hc₁⟩ := changed_unregister h₁
    obtain ⟨g₂, hg₂, hc₂⟩ := changed_unregister h₂
    exact h.unshared first second g₁ g₂ hg₁ hg₂ (by rw [hc₁, hc₂, he])

theorem owes_of_condition {live : List (Key × Ticket)} {s : PerKeyConditions} (h : Agrees live s)
    (ha : s.Apart) (keys : List Key) :
    ∀ w ∈ live, w.2.changed ∈ (summon keys s).2 → Owes w.2 (summon keys s).1 := by
  intro w hw hc
  obtain ⟨key, hk, group, hg, hchanged⟩ := (mem_conditions_summon keys s w.2.changed).mp hc
  obtain ⟨own, hown, -, hchanged'⟩ := h.grouped w hw
  obtain rfl := ha.unshared key w.1 group own hg hown (hchanged.trans hchanged'.symm)
  exact owes_summon h keys w hw hk

theorem acknowledge_iff {front back : List (Key × Ticket)} {key : Key} {ticket : Ticket} {s : PerKeyConditions}
    (h : Agrees (front ++ (key, ticket) :: back) s) :
    (acknowledge ticket s).1 = true ↔ Owes ticket s ∧ ∀ w ∈ front ++ back, ¬ Owes w.2 s := by
  have hanswer : (acknowledge ticket s).1 = true ↔
      ticket.id ∈ s.unsignaled ∧ s.unsignaled.erase ticket.id = ∅ := by
    simp [acknowledge]
  rw [hanswer, Std.ExtTreeSet.eq_empty_iff_forall_not_mem]
  refine and_congr_right fun _ => ?_
  constructor
  · intro hnone w hw ho
    have hne : ticket.id ≠ w.2.id := Ne.symm (h.id_ne w hw)
    exact hnone w.2.id (Std.ExtTreeSet.mem_erase.mpr ⟨by simpa using hne, ho⟩)
  · intro hothers id hid
    obtain ⟨hne, hid⟩ := Std.ExtTreeSet.mem_erase.mp hid
    obtain ⟨w, hw, rfl⟩ := h.unsignaled id hid
    rcases List.mem_cons.mp (List.perm_middle.mem_iff.mp hw) with rfl | hw
    · simp at hne
    · exact hothers w hw hid

instance : Calling PerKeyConditions where
  Apart := Apart
  apart_empty := ⟨by simp [Triggers.empty], by simp [Triggers.empty]⟩
  apart_register h key := h.register key
  apart_summon h keys := h.summon keys
  apart_acknowledge h _ := ⟨h.made, h.unshared⟩
  apart_unregister h key ticket := h.unregister key ticket
  owes_of_condition h ha _ := owes_of_condition h ha
  acknowledge_iff := acknowledge_iff

end PerKeyConditions

end AwaitStore.Store
