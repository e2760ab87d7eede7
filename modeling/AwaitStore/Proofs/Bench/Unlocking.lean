import AwaitStore.Proofs.Bench.Conditions

namespace AwaitStore

namespace Store.AtomicStore

variable {s : AtomicStore}

def written (pairs : Table) (s : AtomicStore) : AtomicStore := { s with contents := s.contents.putAll pairs.toList }

theorem length_ripe_add_length_rest (s : AtomicStore) : s.ripe.length + s.rest.waiting.length = s.waiting.length := by
  rw [ripe, List.length_map, rest]
  exact (List.length_eq_length_filter_add _).symm

theorem length_le_length_ripe {keys : List Key} (hn : keys.Nodup)
    (hawaited : ∀ key ∈ keys, ∃ w ∈ s.waiting, w.2.keyCond = key ∧ w.2.holds s.contents = true) :
    keys.length ≤ s.ripe.length := by
  have hsub : keys ⊆ (s.waiting.filter fun w => w.2.holds s.contents).map fun w => w.2.keyCond := by
    intro key hkey
    obtain ⟨w, hw, rfl, hh⟩ := hawaited key hkey
    exact List.mem_map_of_mem (f := fun w : Nat × Wish => w.2.keyCond) (List.mem_filter.mpr ⟨hw, hh⟩)
  -- A call awaits one key only, so none of them stands for two.
  refine (hn.subperm hsub).length_le.trans_eq ?_
  rw [ripe, List.length_map, List.length_map]

end Store.AtomicStore

namespace Bench.Run

variable {ρ : Type} {r t : Run ρ} {order : Wire.Listing} {returns : List Return} {i reads n : Nat}

/-- A round of unlocking, if there is a condition in some slot. Whatever the order in which the entries are gone through
and in which callers wake up, those who return clear their slots. -/
inductive Round (r : Run ρ) (order : Wire.Listing) (returns : List Return) : Run ρ → Prop where
  | written {wakes : List Nat} {store : Store.Backend} (hslots : r.slots ≠ [])
      (h : Store.Backend.Turned ⟨r.workers.length, .multiPut (unlockEntries r.slots), order, wakes⟩ r.store returns
        store) :
      Round r order returns ({ r with store }.wakeAll returns)

/-- So many rounds, in which nobody sets a new condition. -/
inductive Rounds : Nat → Run ρ → Run ρ → Prop where
  | none {r : Run ρ} : Rounds 0 r r
  | more {n : Nat} {r s t : Run ρ} {order : Wire.Listing} {returns : List Return} (h : r.Round order returns s)
      (rest : Rounds n s t) : Rounds (n + 1) r t

/-- What a round does. Each awaited key is written once, with the value of the first slot that awaits it. The worker of
that slot returns, and reads its key in the table that the round leaves. -/
structure Frees (r : Run ρ) (order : Wire.Listing) (returns : List Return) (t : Run ρ) : Prop where
  awaited : ∀ key, key ∈ unlockEntries r.slots ↔ ∃ i value, r.slotOf i = some (key, value)
  once : ((order.pairs (unlockEntries r.slots)).map Prod.fst).Nodup
  first : ∀ key value, (key, value) ∈ order.pairs (unlockEntries r.slots) ↔ ∃ i, First r.slotOf i key value
  contents : t.store.contents = r.store.contents.putAll (order.pairs (unlockEntries r.slots))
  stored : ⟨r.workers.length, .ok .stored⟩ ∈ returns
  returned : ∀ i key value, First r.slotOf i key value → ∃ wish, (i, wish) ∈ r.store.atomic.waiting ∧
    wish.keyCond = key ∧ wish.valueCond = value ∧ ⟨i, .ok (.value t.store.contents[wish.key]?)⟩ ∈ returns
  slots : ∀ i, t.slotOf i = if i ∈ returns.map Return.call then none else r.slotOf i
  fewer : t.store.asleep.length + (unlockEntries r.slots).size ≤ r.store.asleep.length

theorem getElem?_unlockEntries_slots {key : Key} {value : Value} :
    (unlockEntries r.slots)[key]? = some value ↔ ∃ i, First r.slotOf i key value :=
  getElem?_unlockEntries

theorem mem_unlockEntries {key : Key} : key ∈ unlockEntries r.slots ↔ ∃ i value, r.slotOf i = some (key, value) := by
  rw [Std.ExtTreeMap.mem_iff_isSome_getElem?, Option.isSome_iff_exists]
  simp only [getElem?_unlockEntries_slots]
  constructor
  · rintro ⟨value, i, hi, -⟩
    exact ⟨i, value, hi⟩
  · rintro ⟨i, value, hi⟩
    obtain ⟨j, -, other, hfirst⟩ := exists_first hi
    exact ⟨other, j, hfirst⟩

theorem size_unlockEntries_pos (h : r.slots ≠ []) : 0 < (unlockEntries r.slots).size := by
  obtain ⟨⟨key, value⟩, hc⟩ := List.exists_mem_of_ne_nil _ h
  obtain ⟨i, hi⟩ := mem_slots.mp hc
  have hmem := (mem_unlockEntries (r := r)).mpr ⟨i, value, hi⟩
  refine Nat.pos_of_ne_zero fun hzero => ?_
  rw [Std.ExtTreeMap.eq_empty_iff_size_eq_zero.mpr hzero] at hmem
  exact Std.ExtTreeMap.not_mem_empty hmem

section Rounds

variable (h : r.Parked reads)

include h

theorem Parked.ripens {key : Key} {value : Value} (hfirst : First r.slotOf i key value) :
    ∃ wish, (i, wish) ∈ r.store.atomic.waiting ∧ wish.keyCond = key ∧ wish.valueCond = value ∧
      wish.holds (r.store.atomic.written (unlockEntries r.slots)).contents = true := by
  obtain ⟨wish, hwish, he⟩ := (h.slotted _ _).mp hfirst.1
  obtain ⟨hkey, hvalue⟩ := Prod.mk.inj he
  have hwritten := getElem?_unlockEntries_slots.mpr ⟨i, hfirst⟩
  refine ⟨wish, hwish, hkey, hvalue, ?_⟩
  rw [Wish.holds, Store.AtomicStore.written, Table.getElem?_putAll_toList, hkey, hvalue, hwritten]
  exact beq_self_eq_true _

theorem Parked.size_le_length_ripe :
    (unlockEntries r.slots).size ≤ (r.store.atomic.written (unlockEntries r.slots)).ripe.length := by
  have hn : ((unlockEntries r.slots).toList.map Prod.fst).Nodup :=
    List.pairwise_map.mpr (Table.distinct_keys (unlockEntries r.slots))
  rw [← Std.ExtTreeMap.length_toList, ← List.length_map]
  refine Store.AtomicStore.length_le_length_ripe hn fun key hkey => ?_
  obtain ⟨⟨_, value⟩, hentry, rfl⟩ := List.mem_map.mp hkey
  rw [Std.ExtTreeMap.mem_toList_iff_getElem?_eq_some, getElem?_unlockEntries_slots] at hentry
  obtain ⟨i, hfirst⟩ := hentry
  obtain ⟨wish, hwish, hkeyCond, -, hh⟩ := h.ripens hfirst
  exact ⟨(i, wish), hwish, hkeyCond, hh⟩

theorem Parked.round (hr : r.Round order returns t) : t.Parked reads ∧ r.Frees order returns t := by
  cases hr with
  | @written wakes store hslots ht =>
      obtain ⟨hparked, hcleared⟩ := h.written ht
      obtain ⟨-, hatomic, hreturns⟩ := h.quiet.turned (a := ⟨_, .multiPut _, order, wakes⟩) nofun ht
      have hrest : store.atomic = (r.store.atomic.written (unlockEntries r.slots)).rest := hatomic
      have hripe : returns.Perm (⟨r.workers.length, .ok .stored⟩ ::
        (r.store.atomic.written (unlockEntries r.slots)).ripe) := hreturns
      have hcontents : store.contents = (r.store.atomic.written (unlockEntries r.slots)).contents := by
        rw [← store.contents_atomic, hrest]
        rfl
      have hperm := order.pairs_perm (unlockEntries r.slots)
      refine ⟨hparked, fun key => mem_unlockEntries, ?_, fun key value => ?_, ?_, ?_, fun i key value hfirst => ?_,
        hcleared, ?_⟩
      · exact (hperm.map Prod.fst).nodup_iff.mpr (List.pairwise_map.mpr (Table.distinct_keys _))
      · rw [hperm.mem_iff, Std.ExtTreeMap.mem_toList_iff_getElem?_eq_some, getElem?_unlockEntries_slots]
      · rw [wakeAll_store, Table.putAll_of_perm _ hperm, ← r.store.contents_atomic]
        exact hcontents
      · exact hripe.mem_iff.mpr List.mem_cons_self
      · obtain ⟨wish, hwish, hkey, hvalue, hh⟩ := h.ripens hfirst
        refine ⟨wish, hwish, hkey, hvalue, hripe.mem_iff.mpr (List.mem_cons_of_mem _ ?_)⟩
        rw [wakeAll_store]
        exact Store.AtomicStore.mem_ripe.mpr ⟨i, wish, hwish, hh, hcontents ▸ rfl⟩
      · -- Who slept has returned or sleeps on.
        have hsplit := (r.store.atomic.written (unlockEntries r.slots)).length_ripe_add_length_rest
        rw [← hrest] at hsplit
        rw [wakeAll_store, ← store.asleep_atomic, ← r.store.asleep_atomic, List.length_map, List.length_map]
        exact (Nat.add_le_add_left h.size_le_length_ripe _).trans_eq ((Nat.add_comm _ _).trans hsplit)

/-- As long as somebody sleeps there can be another round, and unlocking is one. -/
theorem Parked.round_unlock (hsome : r.store.asleep ≠ []) :
    r.Round .ascending (r.store.perform r.workers.length (.multiPut (unlockEntries r.slots))).2 r.unlock := by
  obtain ⟨wakes, ht⟩ := h.exists_written (unlockEntries r.slots)
  refine .written (fun hnone => ?_) ht
  obtain ⟨i, hi⟩ := List.exists_mem_of_ne_nil _ hsome
  rw [← r.store.asleep_atomic] at hi
  obtain ⟨⟨_, wish⟩, hwish, rfl⟩ := List.mem_map.mp hi
  have hslot := mem_slots.mpr ⟨_, (h.slotted _ _).mpr ⟨wish, hwish, rfl⟩⟩
  rw [hnone] at hslot
  cases hslot

omit h in
theorem Round.length_asleep_lt (hr : r.Round order returns t) (hf : r.Frees order returns t) :
    t.store.asleep.length + 1 ≤ r.store.asleep.length := by
  cases hr with
  | written hslots ht => exact (Nat.add_le_add_left (size_unlockEntries_pos hslots) _).trans hf.fewer

theorem Parked.rounds (hr : Rounds n r t) : t.Parked reads ∧ t.store.asleep.length + n ≤ r.store.asleep.length := by
  induction hr with
  | none => exact ⟨h, Nat.le_refl _⟩
  | more hround _ ih =>
      obtain ⟨hparked, hfrees⟩ := h.round hround
      obtain ⟨ht, hle⟩ := ih hparked
      have hlt := hround.length_asleep_lt hfrees
      exact ⟨ht, by omega⟩

end Rounds

theorem Parked.exists_rounds (h : r.Parked reads) :
    ∃ n ≤ r.store.asleep.length, Rounds n r (unlock^[n] r) ∧ (unlock^[n] r).store.asleep = [] := by
  induction hk : r.store.asleep.length using Nat.strongRecOn generalizing r with
  | ind k ih =>
      by_cases hnone : r.store.asleep = []
      · exact ⟨0, Nat.zero_le k, .none, hnone⟩
      · have hround := h.round_unlock hnone
        obtain ⟨hparked, hfrees⟩ := h.round hround
        have hlt := hround.length_asleep_lt hfrees
        obtain ⟨n, hn, hrounds, hempty⟩ := ih _ (hk ▸ hlt) hparked rfl
        refine ⟨n + 1, by omega, .more hround ?_, ?_⟩
        · rwa [Function.iterate_succ_apply]
        · rwa [Function.iterate_succ_apply]

/-- Conflicting conditions do not keep anyone asleep. Whatever the workers of a parked run wait for, each round of
unlocking frees one for every awaited key, there is another round as long as anyone sleeps, and there are no more rounds
than there were sleepers. -/
theorem unlocking_frees_all (h : r.Parked reads) :
    (∀ n t, Rounds n r t → t.Parked reads ∧ t.store.asleep.length + n ≤ r.store.asleep.length ∧
        (t.store.asleep ≠ [] → ∃ order returns u, t.Round order returns u) ∧
        ∀ order returns u, t.Round order returns u → t.Frees order returns u) ∧
      ∃ n ≤ r.store.asleep.length, Rounds n r (unlock^[n] r) ∧ (unlock^[n] r).store.asleep = [] := by
  refine ⟨fun n t hr => ?_, h.exists_rounds⟩
  obtain ⟨ht, hle⟩ := h.rounds hr
  exact ⟨ht, hle, fun hsome => ⟨_, _, _, ht.round_unlock hsome⟩, fun order returns u hround => (ht.round hround).2⟩

/-- Two workers await different values of a key that the third one reads while it awaits another key. -/
theorem unlocking_frees_all_rivals :
    ∃ r : Run Unit, r.slots = [("a", [1]), ("a", [2]), ("b", [3])] ∧ r.store.asleep = [0, 1, 2] ∧ r.Parked 3 ∧
      ∃ n ≤ 3, Rounds n r (unlock^[n] r) ∧ (unlock^[n] r).store.asleep = [] := by
  have hfilled := Store.Backend.filled_build .ascending (Table.ofPairs [("a", [0])])
    (rfl : Store.Kind.multiCondition.build = .ok _)
  have hunmet : ∀ wish ∈ ([⟨"b", "a", [1]⟩, ⟨"b", "a", [2]⟩, ⟨"a", "b", [3]⟩] : List Wish),
      ¬ wish.holds (Table.ofPairs [("a", [0])]) = true := by decide
  obtain ⟨hparked, hasleep⟩ := parked_sleepers hfilled rfl hunmet (by decide)
  obtain ⟨n, hn, hrounds, hempty⟩ := (unlocking_frees_all hparked).2
  rw [hasleep] at hn
  exact ⟨_, rfl, hasleep, hparked, n, hn, hrounds, hempty⟩

end Bench.Run

end AwaitStore
