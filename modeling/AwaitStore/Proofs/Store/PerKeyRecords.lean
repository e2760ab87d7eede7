import AwaitStore.Proofs.Store.Bookkeeping
import AwaitStore.Store.PerKeyConditions

namespace AwaitStore.Store.PerKeyConditions

def Owes (ticket : Ticket) (s : PerKeyConditions) : Prop := ticket.id ∈ s.unsignaled

structure Agrees (live : List (Key × Ticket)) (s : PerKeyConditions) : Prop where
  ids_nodup : (live.map fun w => w.2.id).Nodup
  grouped : ∀ w ∈ live, ∃ group : Group, s.groups[w.1]? = some group ∧ w.2.id ∈ group.waiters ∧
    group.changed = w.2.changed
  members : ∀ (key : Key) (group : Group), s.groups[key]? = some group →
    ∀ id ∈ group.waiters, ∃ w ∈ live, w.1 = key ∧ w.2.id = id
  nonempty : ∀ (key : Key) (group : Group), s.groups[key]? = some group → ∃ id, id ∈ group.waiters
  unsignaled : ∀ id ∈ s.unsignaled, ∃ w ∈ live, w.2.id = id

def Room (live : List (Key × Ticket)) (s : PerKeyConditions) : Prop := ∀ w ∈ live, w.2.id ≠ s.nextId

def groupFor (key : Key) (s : PerKeyConditions) : Group := (s.groups[key]?).getD ⟨s.conditions, ∅⟩

theorem register_ticket (key : Key) (s : PerKeyConditions) :
    (register key s).1 = ⟨s.nextId, (groupFor key s).changed⟩ := by
  unfold register groupFor
  cases s.groups[key]? <;> rfl

theorem register_groups (key : Key) (s : PerKeyConditions) :
    (register key s).2.groups =
      s.groups.insert key
        ⟨(groupFor key s).changed, (groupFor key s).waiters.insert s.nextId⟩ := by
  unfold register groupFor
  cases s.groups[key]? <;> rfl

theorem register_unsignaled (key : Key) (s : PerKeyConditions) :
    (register key s).2.unsignaled = s.unsignaled := by
  unfold register
  cases s.groups[key]? <;> rfl

theorem register_nextId (key : Key) (s : PerKeyConditions) : (register key s).2.nextId = s.nextId + 1 := by
  unfold register
  cases s.groups[key]? <;> rfl

theorem summon_groups (keys : List Key) (s : PerKeyConditions) : (summon keys s).1.groups = s.groups := by
  induction keys generalizing s with
  | nil => rfl
  | cons key keys ih =>
      simp only [summon, ih]
      unfold summonOne
      cases s.groups[key]? <;> rfl

theorem summon_nextId (keys : List Key) (s : PerKeyConditions) : (summon keys s).1.nextId = s.nextId := by
  induction keys generalizing s with
  | nil => rfl
  | cons key keys ih =>
      simp only [summon, ih]
      unfold summonOne
      cases s.groups[key]? <;> rfl

theorem mem_summonOne (key : Key) (s : PerKeyConditions) (id : WaiterId) :
    id ∈ (summonOne s key).1.unsignaled ↔
      id ∈ s.unsignaled ∨ ∃ group, s.groups[key]? = some group ∧ id ∈ group.waiters := by
  unfold summonOne
  cases hg : s.groups[key]? with
  | none => simp
  | some group => simp [Std.ExtTreeSet.mem_insertMany_list]

theorem mem_summon (keys : List Key) (s : PerKeyConditions) (id : WaiterId) :
    id ∈ (summon keys s).1.unsignaled ↔
      id ∈ s.unsignaled ∨ ∃ key ∈ keys, ∃ group, s.groups[key]? = some group ∧ id ∈ group.waiters := by
  induction keys generalizing s with
  | nil => simp [summon]
  | cons key keys ih =>
      have hg : (summonOne s key).1.groups = s.groups := summon_groups [key] s
      simp only [summon, ih, hg, mem_summonOne, List.mem_cons, exists_eq_or_imp, or_assoc]

theorem mem_conditions_summon (keys : List Key) (s : PerKeyConditions) (c : Condition) :
    c ∈ (summon keys s).2 ↔ ∃ key ∈ keys, ∃ group, s.groups[key]? = some group ∧ group.changed = c := by
  induction keys generalizing s with
  | nil => simp [summon]
  | cons key keys ih =>
      have hg : (summonOne s key).1.groups = s.groups := summon_groups [key] s
      have hc : c ∈ (summonOne s key).2 ↔ ∃ group, s.groups[key]? = some group ∧ group.changed = c := by
        unfold summonOne
        cases s.groups[key]? <;> simp [eq_comm]
      simp only [summon, List.mem_append, ih, hg, hc, List.mem_cons, exists_eq_or_imp]

theorem pending_iff {live : List (Key × Ticket)} {s : PerKeyConditions} (h : Agrees live s) :
    Triggers.pending s = true ↔ ∃ w ∈ live, Owes w.2 s := by
  change (!s.unsignaled.isEmpty) = true ↔ _
  rw [Bool.not_eq_true', Std.ExtTreeSet.isEmpty_eq_false_iff]
  constructor
  · intro hne
    obtain ⟨id, hid⟩ : ∃ id, id ∈ s.unsignaled := by
      by_contra hall
      push Not at hall
      exact hne (Std.ExtTreeSet.eq_empty_iff_forall_not_mem.mpr hall)
    obtain ⟨w, hw, rfl⟩ := h.unsignaled id hid
    exact ⟨w, hw, hid⟩
  · rintro ⟨w, -, ho⟩ he
    simp [Owes, he] at ho

theorem groupFor_eq {key : Key} {s : PerKeyConditions} {group : Group}
    (h : s.groups[key]? = some group) : groupFor key s = group := by
  simp [groupFor, h]

theorem mem_groupFor {key : Key} {s : PerKeyConditions} {id : WaiterId}
    (h : id ∈ (groupFor key s).waiters) : ∃ group, s.groups[key]? = some group ∧ id ∈ group.waiters := by
  cases hg : s.groups[key]? with
  | none => simp [groupFor, hg] at h
  | some group => exact ⟨group, rfl, groupFor_eq hg ▸ h⟩

theorem getElem?_register (key other : Key) (s : PerKeyConditions) :
    (register key s).2.groups[other]? =
      if key = other then some ⟨(groupFor key s).changed, (groupFor key s).waiters.insert s.nextId⟩
      else s.groups[other]? := by
  simp [register_groups, Std.ExtTreeMap.getElem?_insert]

theorem agrees_register {live : List (Key × Ticket)} {s : PerKeyConditions} (h : Agrees live s)
    (hr : Room live s) (key : Key) :
    Agrees (live ++ [(key, (register key s).1)]) (register key s).2 where
  ids_nodup := by
    rw [List.map_append, register_ticket]
    refine h.ids_nodup.append (List.nodup_singleton _) ?_
    simpa [Room] using hr
  grouped := by
    intro w hw
    rw [getElem?_register]
    rcases List.mem_append.mp hw with hw | hw
    · obtain ⟨group, hg, hid, hc⟩ := h.grouped w hw
      by_cases he : key = w.1
      · subst he
        rw [if_pos rfl, groupFor_eq hg]
        exact ⟨_, rfl, by simp [hid], hc⟩
      · rw [if_neg he]
        exact ⟨group, hg, hid, hc⟩
    · cases List.mem_singleton.mp hw
      rw [if_pos rfl, register_ticket]
      exact ⟨_, rfl, by simp, rfl⟩
  members := by
    intro other group hg id hid
    rw [getElem?_register] at hg
    split at hg
    next he =>
      cases hg
      subst he
      rcases Std.ExtTreeSet.mem_insert.mp hid with hid | hid
      · refine ⟨_, List.mem_append_right _ (List.mem_singleton_self _), rfl, ?_⟩
        rw [register_ticket]
        simpa using hid
      · obtain ⟨group, hg, hid⟩ := mem_groupFor hid
        obtain ⟨w, hw, hk⟩ := h.members key group hg id hid
        exact ⟨w, List.mem_append_left _ hw, hk⟩
    next =>
      obtain ⟨w, hw, hk⟩ := h.members other group hg id hid
      exact ⟨w, List.mem_append_left _ hw, hk⟩
  nonempty := by
    intro other group hg
    rw [getElem?_register] at hg
    split at hg
    · cases hg
      exact ⟨s.nextId, by simp⟩
    · exact h.nonempty other group hg
  unsignaled := by
    intro id hid
    rw [register_unsignaled] at hid
    obtain ⟨w, hw, he⟩ := h.unsignaled id hid
    exact ⟨w, List.mem_append_left _ hw, he⟩

theorem owes_register {live : List (Key × Ticket)} {s : PerKeyConditions} (h : Agrees live s)
    (hr : Room live s) (key : Key) :
    ¬ Owes (register key s).1 (register key s).2 ∧
      ∀ w ∈ live, Owes w.2 (register key s).2 ↔ Owes w.2 s := by
  unfold Owes
  rw [register_unsignaled, register_ticket]
  refine ⟨fun ho => ?_, fun _ _ => Iff.rfl⟩
  obtain ⟨w, hw, he⟩ := h.unsignaled _ ho
  exact hr w hw he

theorem agrees_summon {live : List (Key × Ticket)} {s : PerKeyConditions} (h : Agrees live s)
    (keys : List Key) : Agrees live (summon keys s).1 where
  ids_nodup := h.ids_nodup
  grouped := by
    rw [summon_groups]
    exact h.grouped
  members := by
    rw [summon_groups]
    exact h.members
  nonempty := by
    rw [summon_groups]
    exact h.nonempty
  unsignaled := by
    intro id hid
    rcases (mem_summon keys s id).mp hid with hid | ⟨key, -, group, hg, hid⟩
    · exact h.unsignaled id hid
    · obtain ⟨w, hw, -, he⟩ := h.members key group hg id hid
      exact ⟨w, hw, he⟩

theorem owes_summon {live : List (Key × Ticket)} {s : PerKeyConditions} (h : Agrees live s)
    (keys : List Key) : ∀ w ∈ live, w.1 ∈ keys → Owes w.2 (summon keys s).1 := by
  intro w hw hk
  obtain ⟨group, hg, hid, -⟩ := h.grouped w hw
  exact (mem_summon keys s w.2.id).mpr (.inr ⟨w.1, hk, group, hg, hid⟩)

theorem Agrees.eq_of_id {live : List (Key × Ticket)} {s : PerKeyConditions} (h : Agrees live s)
    {v w : Key × Ticket} (hv : v ∈ live) (hw : w ∈ live) (he : v.2.id = w.2.id) : v = w :=
  List.inj_on_of_nodup_map h.ids_nodup hv hw he

theorem notified_summon {live : List (Key × Ticket)} {s : PerKeyConditions} (h : Agrees live s)
    (hp : Triggers.pending s = false) (keys : List Key) :
    ∀ w ∈ live, Owes w.2 (summon keys s).1 → w.2.changed ∈ (summon keys s).2 := by
  intro w hw ho
  rcases (mem_summon keys s w.2.id).mp ho with ho | ⟨key, hk, group, hg, hid⟩
  · have := (pending_iff h).mpr ⟨w, hw, ho⟩
    simp [hp] at this
  · obtain ⟨v, hv, rfl, he⟩ := h.members key group hg _ hid
    obtain rfl := h.eq_of_id hv hw he
    obtain ⟨group', hg', -, hc⟩ := h.grouped v hv
    rw [hg] at hg'
    cases hg'
    exact (mem_conditions_summon keys s v.2.changed).mpr ⟨v.1, hk, group, hg, hc⟩

theorem Agrees.id_ne {front back : List (Key × Ticket)} {key : Key} {ticket : Ticket}
    {s : PerKeyConditions} (h : Agrees (front ++ (key, ticket) :: back) s) :
    ∀ w ∈ front ++ back, w.2.id ≠ ticket.id := by
  intro w hw he
  have hn := h.ids_nodup
  rw [List.map_append, List.map_cons, List.nodup_middle, List.nodup_cons, ← List.map_append] at hn
  exact hn.1 (List.mem_map.mpr ⟨w, hw, he⟩)

theorem agrees_acknowledge {live : List (Key × Ticket)} {ticket : Ticket} {s : PerKeyConditions}
    (h : Agrees live s) : Agrees live (acknowledge ticket s).2.2 where
  ids_nodup := h.ids_nodup
  grouped := h.grouped
  members := h.members
  nonempty := h.nonempty
  unsignaled := fun id hid => h.unsignaled id (Std.ExtTreeSet.mem_erase.mp hid).2

theorem owes_acknowledge {front back : List (Key × Ticket)} {key : Key} {ticket : Ticket}
    {s : PerKeyConditions} (h : Agrees (front ++ (key, ticket) :: back) s) :
    ¬ Owes ticket (acknowledge ticket s).2.2 ∧
      ∀ w ∈ front ++ back, Owes w.2 (acknowledge ticket s).2.2 ↔ Owes w.2 s := by
  refine ⟨by simp [Owes, acknowledge], fun w hw => ?_⟩
  have hne := h.id_ne w hw
  simp [Owes, acknowledge, Ne.symm hne]

theorem getElem?_unregister {key : Key} {ticket : Ticket} {s : PerKeyConditions} {group : Group}
    (hg : s.groups[key]? = some group) (other : Key) :
    (unregister key ticket s).groups[other]? =
      if key = other then
        if (group.waiters.erase ticket.id).isEmpty then none
        else some ⟨group.changed, group.waiters.erase ticket.id⟩
      else s.groups[other]? := by
  simp only [unregister, hg]
  split
  · simp [Std.ExtTreeMap.getElem?_erase]
  · simp [Std.ExtTreeMap.getElem?_insert]

theorem unregister_unsignaled (key : Key) (ticket : Ticket) (s : PerKeyConditions) :
    (unregister key ticket s).unsignaled = s.unsignaled := by
  unfold unregister
  cases s.groups[key]? <;> rfl

theorem unregister_nextId (key : Key) (ticket : Ticket) (s : PerKeyConditions) :
    (unregister key ticket s).nextId = s.nextId := by
  unfold unregister
  cases s.groups[key]? <;> rfl

theorem agrees_unregister {front back : List (Key × Ticket)} {key : Key} {ticket : Ticket}
    {s : PerKeyConditions} (h : Agrees (front ++ (key, ticket) :: back) s) (ho : ¬ Owes ticket s) :
    Agrees (front ++ back) (unregister key ticket s) := by
  have hmem (w) (hw : w ∈ front ++ back) : w ∈ front ++ (key, ticket) :: back :=
    List.perm_middle.mem_iff.mpr (List.mem_cons_of_mem _ hw)
  have hother (w) (hw : w ∈ front ++ (key, ticket) :: back) (hne : w.2.id ≠ ticket.id) : w ∈ front ++ back := by
    rcases List.mem_cons.mp (List.perm_middle.mem_iff.mp hw) with rfl | hw
    · exact absurd rfl hne
    · exact hw
  obtain ⟨group, hg, hid, hc⟩ := h.grouped (key, ticket) (by simp)
  refine ⟨?_, ?_, ?_, ?_, ?_⟩
  · have hn := h.ids_nodup
    rw [List.map_append, List.map_cons, List.nodup_middle, List.nodup_cons, ← List.map_append] at hn
    exact hn.2
  · intro w hw
    obtain ⟨group', hg', hid', hc'⟩ := h.grouped w (hmem w hw)
    have hne := h.id_ne w hw
    rw [getElem?_unregister hg]
    by_cases he : key = w.1
    · subst he
      rw [hg] at hg'
      cases hg'
      have hkeep : w.2.id ∈ group.waiters.erase ticket.id := by simp [hid', Ne.symm hne]
      rw [if_pos rfl, if_neg (by simpa using Std.ExtTreeSet.ne_empty_of_mem hkeep)]
      exact ⟨_, rfl, hkeep, hc'⟩
    · rw [if_neg he]
      exact ⟨group', hg', hid', hc'⟩
  · intro other group' hg' id hid'
    rw [getElem?_unregister hg] at hg'
    split at hg'
    next he =>
      split at hg'
      · cases hg'
      · cases hg'
        subst he
        obtain ⟨hne, hid'⟩ := Std.ExtTreeSet.mem_erase.mp hid'
        obtain ⟨w, hw, hk, rfl⟩ := h.members key group hg id hid'
        exact ⟨w, hother w hw (fun hsame => hne (by simp [hsame])), hk, rfl⟩
    next he =>
      obtain ⟨w, hw, hk, rfl⟩ := h.members other group' hg' id hid'
      refine ⟨w, hother w hw fun hsame => he ?_, hk, rfl⟩
      rw [← hk, h.eq_of_id hw (by simp : (key, ticket) ∈ _) hsame]
  · intro other group' hg'
    rw [getElem?_unregister hg] at hg'
    split at hg'
    · split at hg'
      · cases hg'
      next hne =>
        cases hg'
        by_contra hall
        push Not at hall
        exact hne (by simpa using Std.ExtTreeSet.eq_empty_iff_forall_not_mem.mpr hall)
    · exact h.nonempty other group' hg'
  · intro id hid'
    rw [unregister_unsignaled] at hid'
    obtain ⟨w, hw, rfl⟩ := h.unsignaled id hid'
    exact ⟨w, hother w hw (fun hsame => ho (show ticket.id ∈ s.unsignaled from hsame ▸ hid')), rfl⟩

instance : Bookkeeping PerKeyConditions where
  Owes := Owes
  Agrees := Agrees
  Room := Room
  agrees_empty := ⟨List.nodup_nil, by simp, by simp [Triggers.empty], by simp [Triggers.empty], by simp [Triggers.empty]⟩
  pending_iff := pending_iff
  agrees_register := agrees_register
  owes_register := owes_register
  agrees_summon h _ := agrees_summon h
  owes_summon h _ := owes_summon h
  notified_summon := notified_summon
  agrees_acknowledge := agrees_acknowledge
  owes_acknowledge := owes_acknowledge
  agrees_unregister := agrees_unregister
  owes_unregister _ _ _ _ := by simp [Owes, Triggers.unregister, unregister_unsignaled]

end AwaitStore.Store.PerKeyConditions
