import AwaitStore.Proofs.Store.Equivalence
import AwaitStore.Proofs.Store.Returns
import AwaitStore.Proofs.Store.Shards

namespace AwaitStore.Store

variable {call : Nat} {op : Operation}

namespace SingleLock

theorem Numbered.room {requests : List (Nat × Operation)} {s : SingleLock PerKeyConditions}
    (h : Numbered requests s) (hlt : conditionals requests < UInt64.size) : Bookkeeping.Room s.live s.triggers := by
  intro w hw
  obtain ⟨v, hv, rfl⟩ := List.mem_map.mp hw
  obtain ⟨front, wish, back, rfl, hid⟩ := h.id_eq v hv
  have hone : conditionals ((v.call, .getWhen wish) :: back) = conditionals back + 1 := by
    simp [conditionals, Operation.isConditional]
  rw [conditionals_append, hone] at hlt
  change v.ticket.id ≠ s.triggers.nextId
  rw [hid, h.nextId_eq, conditionals_append, hone]
  exact ofNat_ne_ofNat (by omega) (by omega)

section Perform

variable {σ : Type} [Triggers σ] {s : SingleLock σ}

theorem outcome_ok : ∀ r ∈ (s.perform call op).2, ∃ answer, r.outcome = .ok answer := by
  have hreturned (woken : List Woken) : ∀ r ∈ returned woken, ∃ answer, r.outcome = .ok answer := by
    intro r hr
    obtain ⟨-, value, he⟩ := mem_returned hr
    exact ⟨_, he⟩
  have happlied (entries : List (Key × Value)) :
      ∀ r ∈ (perform.applied call s entries).2, ∃ answer, r.outcome = .ok answer := by
    rcases s.applied_cases call entries with he | ⟨t, woken, he, -⟩
    · rw [he]
      exact nofun
    · rw [he]
      exact List.forall_mem_cons.mpr ⟨⟨_, rfl⟩, hreturned woken⟩
  cases op with
  | put key value | multiPut pairs => exact happlied _
  | get key | multiGet keys => exact List.forall_mem_singleton.mpr ⟨_, rfl⟩
  | getWhen wish => exact hreturned _

theorem own_of_not_pending (hp : Triggers.pending s.triggers = false) (hop : op.isConditional = false) :
    ∃ answer others, (s.perform call op).2 = ⟨call, .ok answer⟩ :: others := by
  have happlied (entries : List (Key × Value)) :
      ∃ answer others, (perform.applied call s entries).2 = ⟨call, .ok answer⟩ :: others := by
    have hw : ∃ u, s.write entries = some u := by simp [write, hp]
    obtain ⟨u, hw⟩ := hw
    exact ⟨_, _, congrArg Prod.snd (applied_of_write hw call)⟩
  cases op with
  | put key value | multiPut pairs => exact happlied _
  | get key | multiGet keys => exact ⟨_, [], rfl⟩
  | getWhen wish => cases hop

theorem filled_of_atomic {t : SingleLock σ} {pairs : Table}
    (h : t.atomic = ((empty : SingleLock σ).atomic.perform call (.multiPut pairs)).1) :
    t.contents = pairs ∧ t.asleep.map Sleeper.call = [] := by
  have hall : Table.putAll ∅ pairs.toList = pairs := Table.ofPairs_of_perm (.refl _)
  constructor
  · exact (congrArg AtomicStore.contents h).trans hall
  · rw [← sleeping, ← atomic_waiting, h]
    rfl

variable [Calling σ]

/-- Nobody has been summoned who still has to wake up. -/
structure Quiet (s : SingleLock σ) : Prop extends Exact s where
  due_eq : s.due = []

theorem quiet_empty : (empty : SingleLock σ).Quiet := ⟨exact_empty, rfl⟩

theorem Quiet.not_pending (h : s.Quiet) : Triggers.pending s.triggers = false :=
  h.toExact.not_pending h.due_eq

theorem Quiet.turn {t : SingleLock σ} (h : s.Quiet) {a : Turn} (ha : s.Allows a.call a.operation)
    {seen : Option Observation} (ht : s.turn a = some (t, seen)) :
    t.Quiet ∧ t.atomic = (s.atomic.perform a.call a.operation).1 := by
  obtain ⟨hexact, hdue, hatomic, -⟩ := h.toExact.turn h.due_eq ha ht
  exact ⟨⟨hexact, hdue⟩, hatomic⟩

theorem Quiet.turn_perform (h : s.Quiet) (ha : s.Allows call op) :
    ∃ wakes seen, s.turn ⟨call, op, .ascending, wakes⟩ = some ((s.perform call op).1, seen) := by
  obtain ⟨wakes, ht⟩ := h.toExact.turn_perform h.due_eq ha
  exact ⟨wakes, _, ht⟩

theorem Quiet.turn_applied (h : s.Quiet) (order : Wire.Listing) (call : Nat) (pairs : Table) :
    ∃ wakes seen, s.turn ⟨call, .multiPut pairs, order, wakes⟩ =
      some ((perform.applied call s (order.pairs pairs)).1, seen) := by
  obtain ⟨u, hw⟩ : ∃ u, s.write (order.pairs pairs) = some u := by simp [write, h.not_pending]
  have hu : u.Exact := h.write hw
  have hi : s.issue order call (.multiPut pairs) = some (u, [⟨call, .ok .stored⟩]) := by simp [issue, hw]
  rw [applied_of_write hw]
  exact ⟨u.due, _, turn_of_issue hi hu.settle.1 hu.settle.2⟩

end Perform

end SingleLock

namespace Backend

open SingleLock

variable {b : Backend} {reads : Nat} {kind : Kind}

def Quiet (reads : Nat) : Backend → Prop
  | simple s => s.Quiet
  | multiCondition s => s.Quiet ∧ ∃ requests, Numbered requests s ∧ conditionals requests ≤ reads
  | sharded _ _ => True

theorem kind_perform (b : Backend) (call : Nat) (op : Operation) : (b.perform call op).1.kind = b.kind := by
  cases b <;> rfl

theorem kind_fill (b : Backend) (order : Wire.Listing) (pairs : Table) : (b.fill order pairs).kind = b.kind := by
  cases b <;> rfl

theorem build_cases (h : kind.build = .ok b) :
    kind = .simple ∧ b = simple .empty ∨ kind = .multiCondition ∧ b = multiCondition .empty ∨
      ∃ (n : Nat) (n_pos : 0 < n), kind = .sharded n ∧ b = sharded n (.empty n_pos) := by
  unfold Kind.build at h
  split at h
  · cases h
    exact .inl ⟨rfl, rfl⟩
  · cases h
    exact .inr (.inl ⟨rfl, rfl⟩)
  · cases h
  next n =>
    split at h
    · cases h
    · cases h
      exact .inr (.inr ⟨n + 1, Nat.succ_pos n, rfl, rfl⟩)

theorem kind_build (h : kind.build = .ok b) : b.kind = kind := by
  obtain ⟨rfl, rfl⟩ | ⟨rfl, rfl⟩ | ⟨n, hn, rfl, rfl⟩ := build_cases h <;> rfl

theorem kind_of_noShards (h : kind.build = .error .noShards) : kind = .sharded 0 := by
  unfold Kind.build at h
  split at h
  · cases h
  · cases h
  · rfl
  · split at h <;> cases h

def readsOf (op : Operation) : Nat := if op.isConditional then 1 else 0

theorem allows_of_shared {s : SingleLock SharedCondition}
    (hnew : op.isConditional = true → call ∉ (simple s).asleep ∧ reads < UInt64.size) : s.Allows call op := by
  rintro wish rfl
  exact ⟨(hnew rfl).1, trivial⟩

theorem allows_of_numbered {s : SingleLock PerKeyConditions} {requests : List (Nat × Operation)}
    (hnumbered : Numbered requests s) (hle : conditionals requests ≤ reads)
    (hnew : op.isConditional = true → call ∉ (multiCondition s).asleep ∧ reads < UInt64.size) : s.Allows call op := by
  rintro wish rfl
  obtain ⟨hcall, hreads⟩ := hnew rfl
  exact ⟨hcall, hnumbered.room (Nat.lt_of_le_of_lt hle hreads)⟩

theorem Quiet.perform (h : b.Quiet reads) (hnew : op.isConditional = true → call ∉ b.asleep)
    (hr : reads < UInt64.size) : (b.perform call op).1.Quiet (reads + readsOf op) := by
  cases b with
  | simple s =>
      have ha : s.Allows call op := allows_of_shared fun hc => ⟨hnew hc, hr⟩
      have hs : s.Quiet := h
      obtain ⟨wakes, seen, ht⟩ := hs.turn_perform ha
      exact (hs.turn ha ht).1
  | multiCondition s =>
      obtain ⟨hs, requests, hnumbered, hle⟩ := h
      have ha : s.Allows call op := allows_of_numbered hnumbered hle fun hc => ⟨hnew hc, hr⟩
      obtain ⟨wakes, seen, ht⟩ := hs.turn_perform ha
      refine ⟨(hs.turn ha ht).1, _, hnumbered.turn ht, ?_⟩
      rw [conditionals_append]
      refine Nat.add_le_add hle ?_
      simp only [conditionals, Turn.request, List.countP_singleton, readsOf, Nat.le_refl]
  | sharded n s => trivial

theorem Quiet.own (h : b.Quiet reads) (call : Nat) (hop : op.isConditional = false) :
    ∃ answer others, (b.perform call op).2 = ⟨call, .ok answer⟩ :: others := by
  cases b with
  | simple s =>
      have hs : s.Quiet := h
      exact own_of_not_pending hs.not_pending hop
  | multiCondition s => exact own_of_not_pending h.1.not_pending hop
  | sharded n s =>
      cases op with
      | put key value | multiPut pairs | get key | multiGet keys => exact ⟨_, [], rfl⟩
      | getWhen wish => cases hop

theorem outcome_ok (hop : op.isConditional = true → b.kind.supportsGetWhen = true) :
    ∀ r ∈ (b.perform call op).2, ∃ answer, r.outcome = .ok answer := by
  cases b with
  | simple s | multiCondition s => exact s.outcome_ok
  | sharded n s =>
      cases op with
      | put key value | multiPut pairs | get key | multiGet keys => exact List.forall_mem_singleton.mpr ⟨_, rfl⟩
      | getWhen wish => cases hop rfl

theorem Quiet.nodup_asleep (h : b.Quiet reads) : b.asleep.Nodup := by
  cases b with
  | simple s =>
      have hs : s.Quiet := h
      exact hs.calls_nodup
  | multiCondition s => exact h.1.calls_nodup
  | sharded n s => exact List.nodup_nil

theorem Quiet.of_mem_asleep (h : b.Quiet reads) (hcall : call ∉ b.asleep) {sleeper : Nat}
    (hs : sleeper ∈ (b.perform call op).1.asleep) : sleeper ∉ (b.perform call op).2.map Return.call ∧
      (sleeper ∈ b.asleep ∨ sleeper = call ∧ op.isConditional = true) := by
  have hnodup : (call :: b.asleep).Nodup := List.nodup_cons.mpr ⟨hcall, h.nodup_asleep⟩
  obtain ⟨some, hperm, hsublist⟩ := Backend.orderly.once call op b
  have honce := hperm.nodup_iff.mp (hsublist.nodup hnodup)
  exact ⟨fun hr => List.disjoint_of_nodup_append honce hr hs, Backend.orderly.conditional call op b sleeper hs⟩

section Fill

variable (order : Wire.Listing) (pairs : Table)

/-- At rest, with these pairs in it and no others, and with nobody who waits. -/
structure Filled (pairs : Table) (b : Backend) : Prop where
  quiet : b.Quiet 0
  contents : b.contents = pairs
  size : b.size = pairs.size
  asleep : b.asleep = []
  get : ∀ call key, (b.perform call (.get key)).2 = [⟨call, .ok (.value pairs[key]?)⟩]

theorem filled_of_locked {σ : Type} [Triggers σ] {t : SingleLock σ} {kept : SingleLock σ → Backend}
    (hperform : ∀ call op, ((kept t).perform call op).2 = (t.perform call op).2) (hquiet : (kept t).Quiet 0)
    (hcontents : (kept t).contents = t.contents) (hsize : (kept t).size = t.contents.size)
    (hasleep : (kept t).asleep = t.asleep.map Sleeper.call)
    (h : t.contents = pairs ∧ t.asleep.map Sleeper.call = []) : (kept t).Filled pairs where
  quiet := hquiet
  contents := hcontents.trans h.1
  size := hsize.trans (congrArg Std.ExtTreeMap.size h.1)
  asleep := hasleep.trans h.2
  get call key := by
    rw [hperform, ← h.1]
    rfl

theorem filled_build (h : kind.build = .ok b) : (b.fill order pairs).Filled pairs := by
  obtain ⟨rfl, rfl⟩ | ⟨rfl, rfl⟩ | ⟨n, n_pos, rfl, rfl⟩ := build_cases h
  · obtain ⟨wakes, seen, ht⟩ := (quiet_empty (σ := SharedCondition)).turn_applied order 0 pairs
    obtain ⟨hquiet, hatomic⟩ := quiet_empty.turn (by rintro wish ⟨⟩) ht
    exact filled_of_locked pairs (fun _ _ => rfl) hquiet rfl rfl rfl (filled_of_atomic hatomic)
  · obtain ⟨wakes, seen, ht⟩ := (quiet_empty (σ := PerKeyConditions)).turn_applied order 0 pairs
    obtain ⟨hquiet, hatomic⟩ := quiet_empty.turn (by rintro wish ⟨⟩) ht
    have hnumbered : Numbered [] (empty : SingleLock PerKeyConditions) := ⟨rfl, by simp [empty]⟩
    exact filled_of_locked pairs (fun _ _ => rfl) ⟨hquiet, _, hnumbered.turn ht, Nat.le_refl 0⟩ rfl rfl rfl
      (filled_of_atomic hatomic)
  · have hall : Table.putAll ∅ pairs.toList = pairs := Table.ofPairs_of_perm (.refl _)
    have hempty : (Sharded.empty n_pos).Holds SipHash.ofKey ∅ := Sharded.holds_empty n_pos
    have hholds := hempty.multiPut (order.pairs pairs)
    rw [Table.putAll_of_perm _ (order.pairs_perm pairs), hall] at hholds
    refine ⟨trivial, hholds.snapshot, hholds.size, rfl, fun call key => ?_⟩
    rw [← hholds.get key]
    rfl

end Fill

end Backend

end AwaitStore.Store
