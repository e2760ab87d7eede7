import AwaitStore.Proofs.Store.FirstMatch
import AwaitStore.Proofs.Store.Summons

namespace AwaitStore.Store.SingleLock

open Bookkeeping Calling

/-- The counts of a shared condition are those of the callers that sleep. -/
structure Tallied (s : SingleLock SharedCondition) : Prop where
  waiting_eq : s.triggers.waiting = s.asleep.length
  unsignaled_eq :
    s.triggers.unsignaled = s.asleep.countP (fun w => w.ticket.seen != s.triggers.generation)
  behind_iff : ∀ w ∈ s.asleep, w.ticket.seen ≠ s.triggers.generation ↔ w.notified
  idle : s.asleep = [] → s.triggers.waiting = 0 ∧ s.triggers.unsignaled = 0

/-- Every caller that sleeps is in the group of its key and in no other, and there is nobody else in them. -/
structure Filed (s : SingleLock PerKeyConditions) : Prop where
  group_iff : ∀ w ∈ s.asleep, ∀ key,
    (∃ group, s.triggers.groups[key]? = some group ∧ w.ticket.id ∈ group.waiters) ↔ key = w.wish.keyCond
  changed_eq : ∀ w ∈ s.asleep, ∀ group, s.triggers.groups[w.wish.keyCond]? = some group →
    group.changed = w.ticket.changed
  nonempty : ∀ (key : Key) (group : Group), s.triggers.groups[key]? = some group → ∃ id, id ∈ group.waiters
  unsignaled : ∀ id ∈ s.triggers.unsignaled, ∃ w ∈ s.asleep, w.ticket.id = id
  owed_iff : ∀ w ∈ s.asleep, w.ticket.id ∈ s.triggers.unsignaled ↔ w.notified
  idle : s.asleep = [] → s.triggers.groups = ∅ ∧ s.triggers.unsignaled = ∅

/-- For whom a write has to wait in `s`, and in the store `t` that these further steps lead to. -/
structure Answerable {σ : Type} [Triggers σ] (s : SingleLock σ) (after : List Step) (t : SingleLock σ) :
    Prop where
  pending_iff : Triggers.pending s.triggers = true ↔ ∃ call, call ∈ s.due
  /-- True is the answer for the only one that is due, and for no other caller. -/
  acknowledge_iff : ∀ w ∈ s.asleep,
    (Triggers.acknowledge w.ticket s.triggers).1 = true ↔ ∀ call, call ∈ s.due ↔ call = w.call
  /-- Until the next write it takes one wake-up of each call that is due, and no other. -/
  released : (∀ entries, .write entries ∉ after) →
    (Triggers.pending t.triggers = true ↔ ∃ call ∈ s.due, .wake call ∉ after)

theorem Exact.answerable {σ : Type} [Triggers σ] [Calling σ] {s t : SingleLock σ} (h : s.Exact)
    {after : List Step} (ha : s.Admitted after) {ended : List Woken} (hr : s.run after = some (t, ended)) :
    Answerable s after t where
  pending_iff := h.pending_iff
  acknowledge_iff _ hw := h.acknowledge_iff hw
  released hw := by
    rw [(h.run ha hr).pending_iff]
    simp only [h.mem_due_run ha hw hr]

theorem Exact.tallied {s : SingleLock SharedCondition} (h : s.Exact) : s.Tallied := by
  obtain ⟨hwaiting, hunsignaled⟩ : SharedCondition.Agrees s.live s.triggers := h.agrees
  have hcount : s.triggers.waiting = s.asleep.length := by rw [hwaiting, live, List.length_map]
  have hbehind : s.triggers.unsignaled =
      s.asleep.countP (fun w => w.ticket.seen != s.triggers.generation) := by
    rw [hunsignaled, SharedCondition.outdated, live, List.countP_map]
    rfl
  refine ⟨hcount, hbehind, fun w hw => h.owes_iff hw, fun hnone => ?_⟩
  rw [hcount, hbehind, hnone]
  exact ⟨rfl, rfl⟩

theorem Exact.filed {s : SingleLock PerKeyConditions} (h : s.Exact) : s.Filed := by
  have hagrees : PerKeyConditions.Agrees s.live s.triggers := h.agrees
  have hlive {w : Sleeper PerKeyConditions.Ticket} (hw : w ∈ s.asleep) : registration w ∈ s.live :=
    List.mem_map_of_mem hw
  have hunsignaled : ∀ id ∈ s.triggers.unsignaled, ∃ w ∈ s.asleep, w.ticket.id = id := by
    intro id hid
    obtain ⟨_, hl, rfl⟩ := hagrees.unsignaled id hid
    obtain ⟨w, hw, rfl⟩ := List.mem_map.mp hl
    exact ⟨w, hw, rfl⟩
  refine ⟨?_, ?_, hagrees.nonempty, hunsignaled, fun w hw => h.owes_iff hw, ?_⟩
  · intro w hw key
    constructor
    · rintro ⟨group, hg, hid⟩
      obtain ⟨v, hv, hk, he⟩ := hagrees.members key group hg _ hid
      obtain rfl := hagrees.eq_of_id hv (hlive hw) he
      exact hk.symm
    · rintro rfl
      obtain ⟨group, hg, hid, -⟩ := hagrees.grouped _ (hlive hw)
      exact ⟨group, hg, hid⟩
  · intro w hw group hg
    obtain ⟨own, hown, -, hc⟩ := hagrees.grouped _ (hlive hw)
    obtain rfl : own = group := Option.some.inj (hown.symm.trans hg)
    exact hc
  · intro hnone
    constructor
    · apply Std.ExtTreeMap.ext_getElem?
      intro key
      cases hg : s.triggers.groups[key]? with
      | none => simp
      | some group =>
          obtain ⟨id, hid⟩ := hagrees.nonempty key group hg
          obtain ⟨w, hw, -⟩ := hagrees.members key group hg id hid
          simp [live, hnone] at hw
    · refine Std.ExtTreeSet.eq_empty_iff_forall_not_mem.mpr fun id hid => ?_
      obtain ⟨w, hw, -⟩ := hunsignaled id hid
      simp [hnone] at hw

/-- Whatever is started, written and woken up, the records agree with the callers that sleep, also when the
numbers of the writes come around again, and a write waits for nobody who has not been notified. -/
theorem records_agree_of_run (before after : List Step) (hn : (calls (before ++ after)).Nodup) :
    (∀ (s t : SingleLock SharedCondition) (early late : List Woken), empty.run before = some (s, early) →
        s.run after = some (t, late) → s.Tallied ∧ Answerable s after t) ∧
      ((calls (before ++ after)).length < UInt64.size →
        ∀ (s t : SingleLock PerKeyConditions) (early late : List Woken), empty.run before = some (s, early) →
          s.run after = some (t, late) → s.Filed ∧ Answerable s after t) := by
  constructor
  · intro s t early late hb hr
    have ha : (empty : SingleLock SharedCondition).Admitted (before ++ after) :=
      admitted_of_nodup (by simp [sleeping, empty]) hn fun _ _ _ _ _ _ _ _ => trivial
    have hs : s.Exact := exact_empty.run ha.left hb
    exact ⟨hs.tallied, hs.answerable (ha.right hb) hr⟩
  · intro hfew s t early late hb hr
    have ha : (empty : SingleLock PerKeyConditions).Admitted (before ++ after) :=
      admitted_of_nodup (by simp [sleeping, empty]) hn fun _ _ _ _ he _ _ hrun =>
        (idsLast_of_length hfew).room he hrun
    have hs : s.Exact := exact_empty.run ha.left hb
    exact ⟨hs.filed, hs.answerable (ha.right hb) hr⟩

/-- Of three callers two await the key that is written. One of them wakes up for the first time without having
been called, and twice after the write; a fourth caller comes before the other one wakes up. -/
theorem records_agree_of_run_two_due :
    ∃ (s t : SingleLock PerKeyConditions) (early late : List Woken),
      empty.run [.getWhen 1 ⟨"x", "a", [1]⟩, .getWhen 2 ⟨"x", "b", [1]⟩, .getWhen 3 ⟨"x", "a", [2]⟩, .wake 1,
          .write [("a", [2])]] = some (s, early) ∧
        s.run [.wake 1, .getWhen 4 ⟨"x", "c", [1]⟩, .wake 1, .wake 2] = some (t, late) ∧
        s.due = [1, 3] ∧ Triggers.pending t.triggers = true ∧ s.Filed ∧
        Answerable s [.wake 1, .getWhen 4 ⟨"x", "c", [1]⟩, .wake 1, .wake 2] t :=
  ⟨_, _, _, _, rfl, rfl, rfl, rfl,
    (records_agree_of_run
      [.getWhen 1 ⟨"x", "a", [1]⟩, .getWhen 2 ⟨"x", "b", [1]⟩, .getWhen 3 ⟨"x", "a", [2]⟩, .wake 1,
        .write [("a", [2])]] _ (by decide)).2 (by decide) _ _ _ _ rfl rfl⟩

end AwaitStore.Store.SingleLock
