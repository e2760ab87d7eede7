import AwaitStore.Proofs.Bench.Tally
import AwaitStore.Proofs.Store.Release

namespace AwaitStore.Bench

section Firsts

def First (slot : Nat → Option (Key × Value)) (i : Nat) (key : Key) (value : Value) : Prop :=
  slot i = some (key, value) ∧ ∀ j < i, ∀ other, slot j ≠ some (key, other)

variable {slot : Nat → Option (Key × Value)} {i : Nat} {key : Key} {value own : Value}

theorem exists_first_iff_eq (h : slot 0 = some (key, own)) : (∃ i, First slot i key value) ↔ own = value := by
  constructor
  · rintro ⟨i, hi, hbefore⟩
    cases i with
    | zero => exact congrArg Prod.snd (Option.some.inj (h.symm.trans hi))
    | succ i => exact absurd h (hbefore 0 (Nat.succ_pos i) own)
  · rintro rfl
    exact ⟨0, h, nofun⟩

theorem exists_first_iff_later (h : ∀ other, slot 0 ≠ some (key, other)) :
    (∃ i, First slot i key value) ↔ ∃ i, First (fun i => slot (i + 1)) i key value := by
  constructor
  · rintro ⟨i, hi, hbefore⟩
    cases i with
    | zero => exact absurd hi (h value)
    | succ i => exact ⟨i, hi, fun j hj => hbefore (j + 1) (Nat.succ_lt_succ hj)⟩
  · rintro ⟨i, hi, hbefore⟩
    refine ⟨i + 1, hi, fun j hj => ?_⟩
    cases j with
    | zero => exact h
    | succ j => exact hbefore j (Nat.lt_of_succ_lt_succ hj)

theorem exists_first (h : slot i = some (key, value)) : ∃ j ≤ i, ∃ other, First slot j key other := by
  induction i using Nat.strongRecOn generalizing value with
  | ind i ih =>
      by_cases hearlier : ∃ j < i, ∃ other, slot j = some (key, other)
      · obtain ⟨j, hj, other, hother⟩ := hearlier
        obtain ⟨k, hk, hfirst⟩ := ih j hj hother
        exact ⟨k, hk.trans hj.le, hfirst⟩
      · exact ⟨i, Nat.le_refl i, value, h, fun j hj other hother => hearlier ⟨j, hj, other, hother⟩⟩

end Firsts

namespace Run

/-- An awaited key gets the value of the first slot that awaits it, and no other key gets one. -/
theorem getElem?_unlockEntries {α : Type} {slot : α → Option (Key × Value)} {xs : List α} {key : Key} {value : Value} :
    (unlockEntries (xs.filterMap slot))[key]? = some value ↔ ∃ i, First (fun i => xs[i]?.bind slot) i key value := by
  induction xs with
  | nil =>
      refine iff_of_false (by simp [unlockEntries]) ?_
      rintro ⟨i, hi, -⟩
      cases hi
  | cons x xs ih =>
      have hlater (h : ∀ other, slot x ≠ some (key, other)) :
          (∃ i, First (fun i => (x :: xs)[i]?.bind slot) i key value) ↔ ∃ i, First (fun i => xs[i]?.bind slot) i key value :=
        exists_first_iff_later h
      cases hx : slot x with
      | none =>
          rw [List.filterMap_cons_none hx]
          exact ih.trans (hlater fun other => by rw [hx]; nofun).symm
      | some entry =>
          obtain ⟨k, own⟩ := entry
          rw [List.filterMap_cons_some hx, unlockEntries, Std.ExtTreeMap.getElem?_insert]
          simp only [Std.LawfulEqCmp.compare_eq_iff_eq]
          split
          next hk =>
            subst hk
            exact Option.some_inj.trans (exists_first_iff_eq hx).symm
          next hk =>
            -- The first worker awaits another key, so it has no say about this one.
            refine ih.trans (hlater fun other hother => hk ?_).symm
            rw [hx] at hother
            exact congrArg Prod.fst (Option.some.inj hother)

variable {ρ : Type} {r t : Run ρ} {i reads : Nat} {returns : List Return}

def slotOf (r : Run ρ) (i : Nat) : Option (Key × Value) := r.workers[i]?.bind fun w => w.phase.slot?

def slots (r : Run ρ) : List (Key × Value) := r.workers.filterMap fun w => w.phase.slot?

theorem slotOf_length (r : Run ρ) : r.slotOf r.workers.length = none := by
  rw [slotOf, List.getElem?_eq_none (Nat.le_refl _)]
  rfl

theorem mem_slots {c : Key × Value} : c ∈ r.slots ↔ ∃ i, r.slotOf i = some c := by
  constructor
  · intro hc
    obtain ⟨w, hw, hslot⟩ := List.mem_filterMap.mp hc
    obtain ⟨i, hi⟩ := List.mem_iff_getElem?.mp hw
    exact ⟨i, Option.bind_eq_some_iff.mpr ⟨w, hi, hslot⟩⟩
  · rintro ⟨i, hi⟩
    obtain ⟨w, hw, hslot⟩ := Option.bind_eq_some_iff.mp hi
    exact List.mem_filterMap.mpr ⟨w, List.mem_of_getElem? hw, hslot⟩

theorem slotOf_set {old new : Worker ρ} (hworker : r.workers[i]? = some old) (hset : t.workers = r.workers.set i new)
    (j : Nat) : t.slotOf j = if j = i then new.phase.slot? else r.slotOf j := by
  rw [slotOf, hset, getElem?_set_of_getElem? hworker]
  simp only [eq_comm (a := i)]
  split
  next => rfl
  next => rfl

theorem slotOf_record (action : Action) (nanos : UInt64) (j : Nat) :
    (r.record i action nanos).slotOf j = r.slotOf j := by
  rw [slotOf, slotOf, record, List.getElem?_modify]
  cases r.workers[j]? with
  | none => rfl
  | some w => by_cases hj : i = j <;> simp [hj]

theorem slot_wake (answer : Answer) (w : Worker ρ) : (w.wake (.ok answer)).phase.slot? = none := by
  obtain ⟨source, phase, results⟩ := w
  cases phase <;> rfl

theorem slotOf_wakeAll (hok : ∀ x ∈ returns, ∃ answer, x.outcome = .ok answer) (r : Run ρ) (i : Nat) :
    (r.wakeAll returns).slotOf i = if i ∈ returns.map Return.call then none else r.slotOf i := by
  induction returns generalizing r with
  | nil => rfl
  | cons x returns ih =>
      obtain ⟨⟨answer, hx⟩, hrest⟩ := List.forall_mem_cons.mp hok
      have hone : ({ r with workers := r.workers.modify x.call (Worker.wake x.outcome) } : Run ρ).slotOf i =
          if i = x.call then none else r.slotOf i := by
        rw [slotOf, List.getElem?_modify, hx]
        split
        next he =>
          rw [if_pos he.symm]
          cases r.workers[i]? with
          | none => rfl
          | some w => exact slot_wake answer w
        next hne =>
          rw [if_neg (Ne.symm hne)]
          cases hw : r.workers[i]? <;> simp [slotOf, hw]
      rw [wakeAll_cons, ih hrest, hone, List.map_cons]
      simp only [List.mem_cons]
      split
      next hmem => rw [if_pos (.inr hmem)]
      next hnot =>
        split
        next he => rw [if_pos (.inl he)]
        next hne => rw [if_neg (not_or.mpr ⟨hne, hnot⟩)]

theorem mem_others {j : Nat} : j ∈ (returns.filter fun x => x.call != i).map Return.call ↔
    j ∈ returns.map Return.call ∧ j ≠ i := by
  simp only [List.mem_map, List.mem_filter, bne_iff_ne]
  constructor
  · rintro ⟨x, ⟨hx, hne⟩, rfl⟩
    exact ⟨⟨x, hx, rfl⟩, hne⟩
  · rintro ⟨⟨x, hx, rfl⟩, hne⟩
    exact ⟨x, ⟨hx, hne⟩, rfl⟩

theorem awaited_eq_some_iff {op : Operation} {c : Key × Value} :
    awaited op = some c ↔ ∃ wish, op = .getWhen wish ∧ (wish.keyCond, wish.valueCond) = c := by
  cases op <;> simp [awaited]

/-- The store is at rest, and those who sleep in it are the workers with a condition in their slots. -/
structure Parked (reads : Nat) (r : Run ρ) : Prop where
  supported : r.store.kind.supportsGetWhen = true
  quiet : r.store.Quiet reads
  slotted : ∀ i c, r.slotOf i = some c ↔
    ∃ wish, (i, wish) ∈ r.store.atomic.waiting ∧ (wish.keyCond, wish.valueCond) = c

namespace Parked

variable (h : r.Parked reads)

include h

theorem nodup_waiting : (r.store.atomic.waiting.map Prod.fst).Nodup := by
  rw [r.store.asleep_atomic]
  exact h.quiet.nodup_asleep

theorem notMem_waiting (hslot : r.slotOf i = none) (wish : Wish) : (i, wish) ∉ r.store.atomic.waiting := by
  intro hw
  have hsome := (h.slotted i _).mpr ⟨wish, hw, rfl⟩
  rw [hslot] at hsome
  cases hsome

theorem notMem_asleep (hslot : r.slotOf i = none) : i ∉ r.store.asleep := by
  rw [← r.store.asleep_atomic]
  intro hi
  obtain ⟨⟨_, wish⟩, hw, rfl⟩ := List.mem_map.mp hi
  exact h.notMem_waiting hslot wish hw

theorem turned {a : Store.Turn} {store : Store.Backend} (hfree : r.slotOf a.call = none)
    (hroom : a.operation.isConditional = true → reads < UInt64.size)
    (ht : Store.Backend.Turned a r.store returns store) (hstore : t.store = store)
    (hslots : ∀ i, t.slotOf i = if i ∈ returns.map Return.call then none
      else if i = a.call then awaited a.operation else r.slotOf i) :
    t.Parked (reads + Store.Backend.readsOf a.operation) := by
  have hcall : a.call ∉ r.store.asleep := h.notMem_asleep hfree
  obtain ⟨hquiet, hatomic, hreturns⟩ := h.quiet.turned (fun hc => ⟨hcall, hroom hc⟩) ht
  subst hstore
  refine ⟨ht.kind_eq ▸ h.supported, hquiet, fun i c => ?_⟩
  have hwaiting (wish : Wish) : (i, wish) ∈ t.store.atomic.waiting ↔
      ((i, wish) ∈ r.store.atomic.waiting ∨ i = a.call ∧ a.operation = .getWhen wish) ∧ i ∉ returns.map Return.call := by
    rw [hatomic, (hreturns.map _).mem_iff]
    refine Store.AtomicStore.mem_waiting_perform_iff h.nodup_waiting ?_
    rwa [r.store.asleep_atomic]
  simp only [hwaiting, hslots]
  by_cases hreturned : i ∈ returns.map Return.call
  · simp [hreturned]
  · rw [if_neg hreturned]
    simp only [hreturned, not_false_eq_true, and_true]
    split
    next he =>
      subst he
      rw [awaited_eq_some_iff]
      simp only [h.notMem_waiting hfree, false_or, true_and]
    next hne =>
      rw [h.slotted]
      simp [hne]

theorem of_slots (hstore : t.store = r.store) (hslots : ∀ i, t.slotOf i = r.slotOf i) : t.Parked reads := by
  refine ⟨hstore ▸ h.supported, hstore ▸ h.quiet, fun i c => ?_⟩
  rw [hslots, hstore]
  exact h.slotted i c

theorem claim {w : Workload} (hc : r.claim w i = some t) : t.Parked reads := by
  obtain ⟨source, results, hworker⟩ := working_of_claim hc
  rw [Run.claim, hworker] at hc
  have hold : r.slotOf i = none := by
    rw [slotOf, hworker]
    rfl
  cases hc
  refine h.of_slots rfl fun j => (slotOf_set hworker rfl j).trans ?_
  split
  next he =>
    rw [he, hold]
    split <;> rfl
  next => rfl

theorem operate [Source ρ] {b : Benchmark} {tries : Nat} {keys : Array Key} {values : Array Value}
    {ended : Option Action} {action : Action} (haction : r.action? b i = some action)
    (hroom : action = .getWhen → reads < UInt64.size) (ho : r.operate tries b keys values i = some (ended, t)) :
    t.Parked (reads + if action = .getWhen then 1 else 0) := by
  obtain ⟨w, left, drawn, op, phase, rest, hworker, hphase, hdrawn, hconditional, -, -, -, hslot, rfl⟩ :=
    operate_cases h.quiet (fun _ => h.supported) ho
  obtain rfl : action = drawn := Option.some.inj (haction.symm.trans hdrawn)
  have hfree : r.slotOf i = none := by
    rw [slotOf, hworker, Option.bind_some, hphase, Phase.slot?]
  have hreads : op.isConditional = true → reads < UInt64.size := by
    rw [hconditional, decide_eq_true_eq]
    exact hroom
  have hok : ∀ x ∈ (r.store.perform i op).2, ∃ answer, x.outcome = .ok answer :=
    Store.Backend.outcome_ok fun _ => h.supported
  obtain ⟨wakes, ht⟩ := h.quiet.turned_perform h.supported fun hc => ⟨h.notMem_asleep hfree, hreads hc⟩
  rw [← readsOf_eq hconditional]
  refine h.turned hfree hreads ht (wakeAll_store _) fun j => ?_
  rw [slotOf_wakeAll fun x hx => hok x (List.mem_of_mem_filter hx), slotOf_set hworker rfl, hslot]
  -- The call itself is not among those that are woken; its slot is what its phase says.
  simp only [mem_others]
  by_cases hj : j = i
  · simp [hj]
  · simp [hj]

theorem written {entries : Table} {order : Wire.Listing} {wakes : List Nat} {store : Store.Backend}
    (ht : Store.Backend.Turned ⟨r.workers.length, .multiPut entries, order, wakes⟩ r.store returns store) :
    ({ r with store }.wakeAll returns).Parked reads ∧
      ∀ j, ({ r with store }.wakeAll returns).slotOf j = if j ∈ returns.map Return.call then none else r.slotOf j := by
  have hplain : ¬ (Operation.multiPut entries).isConditional = true := nofun
  obtain ⟨-, -, hreturns⟩ := h.quiet.turned (fun hc => absurd hc hplain) ht
  have hok : ∀ x ∈ returns, ∃ answer, x.outcome = .ok answer := fun x hx =>
    r.store.atomic.outcome_ok _ _ x (hreturns.mem_iff.mp hx)
  have hslots := slotOf_wakeAll hok { r with store }
  refine ⟨h.turned r.slotOf_length (fun hc => absurd hc hplain) ht (wakeAll_store _) fun j => ?_, hslots⟩
  rw [hslots]
  split
  next => rfl
  next =>
    split
    next he => exact he ▸ r.slotOf_length
    next => rfl

theorem exists_written (entries : Table) : ∃ wakes, Store.Backend.Turned
    ⟨r.workers.length, .multiPut entries, .ascending, wakes⟩ r.store
      (r.store.perform r.workers.length (.multiPut entries)).2 (r.store.perform r.workers.length (.multiPut entries)).1 :=
  h.quiet.turned_perform h.supported nofun

theorem write (entries : Table) : (r.write entries).Parked reads := by
  obtain ⟨wakes, ht⟩ := h.exists_written entries
  exact (h.written ht).1

end Parked

def sleepers (store : Store.Backend) (wishes : List Wish) : Run Unit :=
  ⟨0, wishes.map fun wish => ⟨(), .asleep 0 wish.keyCond wish.valueCond, .empty⟩, store.awaitAll wishes⟩

theorem parked_sleepers {store : Store.Backend} {pairs : Table} {wishes : List Wish} (h : store.Filled pairs)
    (hkind : store.kind.supportsGetWhen = true) (hunmet : ∀ wish ∈ wishes, ¬ wish.holds pairs = true)
    (hle : wishes.length ≤ UInt64.size) :
    (sleepers store wishes).Parked wishes.length ∧ (sleepers store wishes).store.asleep = List.range wishes.length := by
  obtain ⟨hsame, hquiet, hatomic⟩ := h.awaitAll hkind hunmet hle
  refine ⟨⟨hsame ▸ hkind, hquiet, fun i c => ?_⟩, ?_⟩
  · have hslot : (sleepers store wishes).slotOf i = wishes[i]?.map fun wish => (wish.keyCond, wish.valueCond) := by
      rw [slotOf, sleepers, List.getElem?_map]
      cases wishes[i]? <;> rfl
    rw [hslot, sleepers, hatomic, Option.map_eq_some_iff]
    simp only [Store.Backend.mem_swap_zipIdx]
  · rw [← Store.Backend.asleep_atomic, sleepers, hatomic, Store.Backend.numbers_zipIdx]

end Run

namespace Ledger

variable {ρ : Type} {b : Benchmark} {keys : Array Key} {values : Array Value} {l m : Ledger ρ}

theorem parked_start {store : Store.Backend} {sources : List ρ} {pairs : Table}
    (hkind : store.kind.supportsGetWhen = true) (hfilled : store.Filled pairs) : (start store sources).run.Parked 0 := by
  refine ⟨hkind, hfilled.quiet, fun i c => iff_of_false ?_ ?_⟩
  · have hnone : (start store sources).run.slotOf i = none := by
      rw [Run.slotOf, start, Run.start, List.getElem?_map]
      cases sources[i]? <;> rfl
    rw [hnone]
    exact nofun
  · rintro ⟨wish, hwish, -⟩
    have hi : i ∈ store.atomic.waiting.map Prod.fst := List.mem_map_of_mem (f := Prod.fst) hwish
    rw [store.asleep_atomic, hfilled.asleep] at hi
    cases hi

variable [Source ρ]

theorem count_drawn_le (a : Action) {move : Move} (hs : l.step b keys values move = some m) :
    l.drawn.count a ≤ m.drawn.count a := by
  cases move with
  | claim i =>
      obtain ⟨r, -, hm⟩ := Option.bind_eq_some_iff.mp hs
      cases hm
      exact Nat.le_refl _
  | operate i tries nanos =>
      obtain ⟨action, -, hs⟩ := Option.bind_eq_some_iff.mp hs
      obtain ⟨⟨ended, u⟩, -, hm⟩ := Option.bind_eq_some_iff.mp hs
      cases hm
      exact (List.sublist_append_left l.drawn [action]).count_le a
  | write entries =>
      cases hs
      exact Nat.le_refl _

theorem parked_step (h : l.run.Parked (l.drawn.count .getWhen)) {move : Move}
    (hs : l.step b keys values move = some m) (hle : m.drawn.count .getWhen ≤ UInt64.size) :
    m.run.Parked (m.drawn.count .getWhen) := by
  cases move with
  | claim i =>
      obtain ⟨r, hr, hm⟩ := Option.bind_eq_some_iff.mp hs
      cases hm
      exact h.claim hr
  | operate i tries nanos =>
      obtain ⟨action, haction, hs⟩ := Option.bind_eq_some_iff.mp hs
      obtain ⟨⟨ended, u⟩, ho, hm⟩ := Option.bind_eq_some_iff.mp hs
      cases hm
      have hcount : (l.drawn ++ [action]).count .getWhen =
          l.drawn.count .getWhen + if action = .getWhen then 1 else 0 := by
        rw [List.count_append, List.count_singleton]
        simp
      simp only [hcount] at hle ⊢
      have hu := h.operate haction (fun he => by rw [if_pos he] at hle; exact hle) ho
      cases ended with
      | none => exact hu
      | some a => exact hu.of_slots rfl (Run.slotOf_record a nanos)
  | write entries =>
      cases hs
      exact h.write entries

/-- Between any two moves of a run on a populated store, a slot is filled just as long as its worker sleeps. -/
theorem parked_of_populate {arrangement : Arrangement} {tries : Nat} {source rest : ρ} {p : Populated}
    (hkind : b.population.kind.supportsGetWhen = true)
    (hp : (b.population.populate arrangement tries).run source = some (.ok p, rest)) {sources : List ρ}
    {moves : List Move} (hm : (start p.store sources).after b p.keys p.values moves = some m)
    (hle : m.drawn.count .getWhen ≤ UInt64.size) : m.run.Parked (m.drawn.count .getWhen) := by
  obtain ⟨hstore, pairs, hfilled⟩ := Population.filled_of_populate hp
  induction moves using List.reverseRecOn generalizing m with
  | nil =>
      cases hm
      exact parked_start (hstore ▸ hkind) hfilled
  | append_singleton moves move ih =>
      obtain ⟨k, hk, hstep⟩ := after_snoc.mp hm
      exact parked_step (ih hk ((count_drawn_le .getWhen hstep).trans hle)) hstep hle

end Ledger

end AwaitStore.Bench
