import AwaitStore.Proofs.Store.Shards
import AwaitStore.Store.ShardLocks

namespace AwaitStore.Store

variable {n : Nat} {hash : Key → UInt64} {n_pos : 0 < n}

namespace Sharded

theorem ext_shard {s t : Sharded n} (h : ∀ i, s.shard i = t.shard i) : s = t := by
  obtain ⟨shards, _⟩ := s
  obtain ⟨shards', _⟩ := t
  obtain rfl : shards = shards' := Vector.ext fun i hi => h ⟨i, hi⟩
  rfl

theorem update_id (s : Sharded n) (i : Fin n) : (s.update i fun t => t) = s := by
  apply ext_shard
  intro j
  rw [shard_update]
  split
  next hij => rw [hij]
  next => rfl

theorem update_update (s : Sharded n) (i : Fin n) (f g : Table → Table) :
    (s.update i f).update i g = s.update i fun t => g (f t) := by
  apply ext_shard
  intro j
  by_cases hij : i = j <;> simp [shard_update, hij]

end Sharded

def Visit.shard : Visit n → Fin n
  | store shard _ _ | look shard _ | copy shard | count shard => shard

theorem ShardCall.shard_mem_shards {request : ShardCall} {v : Visit n} (hv : v ∈ request.visits hash n_pos) :
    v.shard ∈ request.shards hash n_pos := by
  cases request with
  | put key value | get key =>
      rw [List.mem_singleton.mp hv]
      exact List.mem_singleton_self _
  | multiPut entries | multiGet keys =>
      obtain ⟨g, hg, hv⟩ := List.mem_flatMap.mp hv
      obtain ⟨item, -, rfl⟩ := List.mem_map.mp hv
      exact List.mem_map.mpr ⟨g, hg, rfl⟩
  | snapshot | size => exact List.mem_finRange _

theorem Sharded.ne_nil_of_mem_group {α : Type} {keyOf : α → Key} {items : List α} {i : Fin n} {g : List α}
    (h : (group hash n_pos keyOf items)[i]? = some g) : g ≠ [] := by
  induction items using List.reverseRecOn generalizing g with
  | nil => simp [group] at h
  | append_singleton front last ih =>
      rw [group, List.foldl_concat, ← group, Std.ExtTreeMap.getElem?_alter] at h
      split at h
      · cases h
        exact List.append_ne_nil_of_right_ne_nil _ (List.cons_ne_nil _ _)
      · exact ih h

theorem ShardCall.shards_eq_nil {request : ShardCall} (h : request.visits hash n_pos = []) :
    request.shards hash n_pos = [] := by
  cases request with
  | put key value | get key => cases h
  | multiPut entries | multiGet keys =>
      rw [ShardCall.visits, List.flatMap_eq_nil_iff] at h
      rw [ShardCall.shards, List.map_eq_nil_iff, List.eq_nil_iff_forall_not_mem]
      intro g hg
      have hsome := Std.ExtTreeMap.mem_toList_iff_getElem?_eq_some.mp hg
      exact Sharded.ne_nil_of_mem_group hsome (List.map_eq_nil_iff.mp (h g hg))
  | snapshot | size => exact List.map_eq_nil_iff.mp h

namespace LockedShards

section Locality

variable {s t : Sharded n} {seen : Seen} {v : Visit n}

theorem shard_makeVisit_of_ne {i : Fin n} (h : v.shard ≠ i) : (makeVisit v s seen).1.shard i = s.shard i := by
  cases v with
  | store shard key value => exact (Sharded.shard_update s shard i _).trans (if_neg h)
  | look shard key =>
      rw [makeVisit]
      split <;> rfl
  | copy shard | count shard => rfl

theorem makeVisit_congr (h : s.shard v.shard = t.shard v.shard) (seen : Seen) :
    (makeVisit v s seen).2 = (makeVisit v t seen).2 ∧
      (makeVisit v s seen).1.shard v.shard = (makeVisit v t seen).1.shard v.shard := by
  cases v with
  | store shard key value =>
      simp only [Visit.shard] at h
      simp [makeVisit, Visit.shard, Sharded.shard_update, h]
  | look shard key =>
      simp only [Visit.shard] at h
      simp only [makeVisit, Visit.shard, h]
      split <;> exact ⟨rfl, h⟩
  | copy shard | count shard =>
      simp only [Visit.shard] at h
      simp [makeVisit, Visit.shard, h]

theorem fst_makeVisit_of_reading {request : ShardCall} (hmode : request.mode = .reading)
    (hv : v ∈ request.visits hash n_pos) : (makeVisit v s seen).1 = s := by
  cases v with
  | store shard key value =>
      cases request with
      | put | multiPut => cases hmode
      | get | multiGet | snapshot | size => simp [ShardCall.visits] at hv
  | look shard key =>
      rw [makeVisit]
      split <;> rfl
  | copy shard | count shard => rfl

end Locality

def makeVisits (visits : List (Visit n)) (p : Sharded n × Seen) : Sharded n × Seen :=
  visits.foldl (fun p v => makeVisit v p.1 p.2) p

theorem makeVisits_append (first second : List (Visit n)) (p : Sharded n × Seen) :
    makeVisits (first ++ second) p = makeVisits second (makeVisits first p) := List.foldl_append

theorem makeVisits_cons (v : Visit n) (rest : List (Visit n)) (p : Sharded n × Seen) :
    makeVisits (v :: rest) p = makeVisits rest (makeVisit v p.1 p.2) := rfl

theorem shard_makeVisits_of_ne {visits : List (Visit n)} {i : Fin n} (h : ∀ v ∈ visits, v.shard ≠ i)
    (p : Sharded n × Seen) : (makeVisits visits p).1.shard i = p.1.shard i := by
  induction visits generalizing p with
  | nil => rfl
  | cons v rest ih =>
      rw [makeVisits_cons, ih fun w hw => h w (List.mem_cons_of_mem _ hw)]
      exact shard_makeVisit_of_ne (h v List.mem_cons_self)

theorem fst_makeVisits_of_reading {request : ShardCall} (hmode : request.mode = .reading) {visits : List (Visit n)}
    (hv : ∀ v ∈ visits, v ∈ request.visits hash n_pos) (p : Sharded n × Seen) : (makeVisits visits p).1 = p.1 := by
  induction visits generalizing p with
  | nil => rfl
  | cons v rest ih =>
      rw [makeVisits_cons, ih fun w hw => hv w (List.mem_cons_of_mem _ hw)]
      exact fst_makeVisit_of_reading hmode (hv v List.mem_cons_self)

def Alike (shards : List (Fin n)) (p q : Sharded n × Seen) : Prop :=
  p.2 = q.2 ∧ ∀ i ∈ shards, p.1.shard i = q.1.shard i

theorem Alike.trans {shards : List (Fin n)} {p q r : Sharded n × Seen} (h : Alike shards p q) (h' : Alike shards q r) :
    Alike shards p r :=
  ⟨h.1.trans h'.1, fun i hi => (h.2 i hi).trans (h'.2 i hi)⟩

theorem Alike.makeVisit {shards : List (Fin n)} {p q : Sharded n × Seen} (h : Alike shards p q) {v : Visit n}
    (hv : v.shard ∈ shards) : Alike shards (makeVisit v p.1 p.2) (makeVisit v q.1 q.2) := by
  obtain ⟨hseen, hshard⟩ := makeVisit_congr (h.2 v.shard hv) p.2
  rw [← h.1]
  refine ⟨hseen, fun i hi => ?_⟩
  by_cases hvi : v.shard = i
  · rw [← hvi, hshard]
  · rw [shard_makeVisit_of_ne hvi, shard_makeVisit_of_ne hvi, h.2 i hi]

theorem Alike.makeVisits {shards : List (Fin n)} {p q : Sharded n × Seen} (h : Alike shards p q)
    {visits : List (Visit n)} (hv : ∀ v ∈ visits, v.shard ∈ shards) :
    Alike shards (makeVisits visits p) (makeVisits visits q) := by
  induction visits generalizing p q with
  | nil => exact h
  | cons v rest ih =>
      exact ih (h.makeVisit (hv v List.mem_cons_self)) fun w hw => hv w (List.mem_cons_of_mem _ hw)

end LockedShards

open LockedShards

section Whole

variable (hash)

def ShardCall.alone (s : Sharded n) : ShardCall → Sharded n × ShardAnswer
  | put key value => (s.put hash key value, .stored)
  | get key => (s, .value (s.get hash key))
  | multiPut entries => (s.multiPut hash entries, .stored)
  | multiGet keys => (s, .table (s.multiGet hash keys))
  | snapshot => (s, .table s.snapshot)
  | size => (s, .size s.size)

end Whole

theorem putAll_collect_cons (found table : Table) (key : Key) (keys : List Key) :
    (found.putAll (table.collect [key]).toList).putAll (table.collect keys).toList =
      found.putAll (table.collect (key :: keys)).toList := by
  apply Std.ExtTreeMap.ext_getElem?
  intro k
  simp only [Table.getElem?_putAll_toList, Table.getElem?_collect, List.mem_cons, List.not_mem_nil, or_false]
  by_cases hkey : k = key
  · rw [if_pos hkey, if_pos (Or.inl hkey)]
    by_cases hmem : k ∈ keys
    · rw [if_pos hmem]
      cases table[k]? <;> rfl
    · rw [if_neg hmem, Option.none_or]
  · simp [hkey]

theorem putAll_empty (found : Table) : found.putAll (∅ : Table).toList = found := by
  apply Std.ExtTreeMap.ext_getElem?
  intro k
  rw [Table.getElem?_putAll_toList, Std.ExtTreeMap.getElem?_empty, Option.none_or]

theorem makeVisits_store (i : Fin n) (entries : List (Key × Value)) (s : Sharded n) (seen : Seen) :
    makeVisits (entries.map fun e => .store i e.1 e.2) (s, seen) = (s.update i fun t => t.putAll entries, seen) := by
  induction entries generalizing s with
  | nil => exact congrArg (·, seen) (s.update_id i).symm
  | cons e rest ih =>
      rw [List.map_cons, makeVisits_cons]
      exact (ih _).trans (congrArg (·, seen) (s.update_update i _ _))

theorem makeVisits_store_groups (groups : List (Fin n × List (Key × Value))) (s : Sharded n) (seen : Seen) :
    makeVisits (groups.flatMap fun g => g.2.map fun e => .store g.1 e.1 e.2) (s, seen) =
      (groups.foldl (fun s g => s.update g.1 fun t => t.putAll g.2) s, seen) := by
  induction groups generalizing s with
  | nil => rfl
  | cons g rest ih => rw [List.flatMap_cons, makeVisits_append, makeVisits_store, ih, List.foldl_cons]

theorem makeVisit_look (i : Fin n) (key : Key) (s : Sharded n) (found : Table) (counted : Nat) :
    makeVisit (.look i key) s ⟨found, counted⟩ =
      (s, ⟨found.putAll ((s.shard i).collect [key]).toList, counted⟩) := by
  cases hkey : (s.shard i)[key]? with
  | none =>
      have hnone : (s.shard i).collect [key] = ∅ := by simp [Table.collect, hkey]
      simp [makeVisit, hkey, hnone, putAll_empty]
  | some value =>
      have hone : (s.shard i).collect [key] = (∅ : Table).insert key value := by simp [Table.collect, hkey]
      have hput : found.putAll ((∅ : Table).insert key value).toList = found.insert key value := by
        apply Std.ExtTreeMap.ext_getElem?
        intro k
        rw [Table.getElem?_putAll_toList, Std.ExtTreeMap.getElem?_insert, Std.ExtTreeMap.getElem?_insert]
        split <;> simp
      simp [makeVisit, hkey, hone, hput]

theorem makeVisits_look (i : Fin n) (keys : List Key) (s : Sharded n) (found : Table) (counted : Nat) :
    makeVisits (keys.map (.look i)) (s, ⟨found, counted⟩) =
      (s, ⟨found.putAll ((s.shard i).collect keys).toList, counted⟩) := by
  induction keys generalizing found with
  | nil => exact congrArg (fun t => (s, Seen.mk t counted)) (putAll_empty found).symm
  | cons key rest ih => rw [List.map_cons, makeVisits_cons, makeVisit_look, ih, putAll_collect_cons]

theorem makeVisits_look_groups (groups : List (Fin n × List Key)) (s : Sharded n) (found : Table) (counted : Nat) :
    makeVisits (groups.flatMap fun g => g.2.map (.look g.1)) (s, ⟨found, counted⟩) =
      (s, ⟨groups.foldl (fun found g => found.putAll ((s.shard g.1).collect g.2).toList) found, counted⟩) := by
  induction groups generalizing found with
  | nil => rfl
  | cons g rest ih => rw [List.flatMap_cons, makeVisits_append, makeVisits_look, ih, List.foldl_cons]

theorem makeVisits_copy (shards : List (Fin n)) (s : Sharded n) (found : Table) (counted : Nat) :
    makeVisits (shards.map .copy) (s, ⟨found, counted⟩) =
      (s, ⟨shards.foldl (fun all i => all.putAll (s.shard i).toList) found, counted⟩) := by
  induction shards generalizing found with
  | nil => rfl
  | cons i rest ih => exact ih _

theorem makeVisits_count (shards : List (Fin n)) (s : Sharded n) (found : Table) (counted : Nat) :
    makeVisits (shards.map .count) (s, ⟨found, counted⟩) =
      (s, ⟨found, shards.foldl (fun counted i => counted + (s.shard i).size) counted⟩) := by
  induction shards generalizing counted with
  | nil => rfl
  | cons i rest ih => exact ih _

/-- With nothing in between, the visits of a call are the call. -/
theorem makeVisits_visits (request : ShardCall) (s : Sharded n) :
    (makeVisits (request.visits hash s.n_pos) (s, ⟨∅, 0⟩)).1 = (request.alone hash s).1 ∧
      request.answer (makeVisits (request.visits hash s.n_pos) (s, ⟨∅, 0⟩)).2 = (request.alone hash s).2 := by
  cases request with
  | put key value => exact ⟨rfl, rfl⟩
  | get key =>
      simp only [ShardCall.visits, ShardCall.alone, ShardCall.answer, makeVisits, List.foldl_cons, List.foldl_nil, makeVisit, Sharded.get]
      cases (s.shard (Sharded.shardOf hash s.n_pos key))[key]? <;> simp
  | multiPut entries =>
      rw [ShardCall.visits, makeVisits_store_groups, ShardCall.alone, Sharded.multiPut, Sharded.guarded_eq]
      exact ⟨rfl, rfl⟩
  | multiGet keys =>
      rw [ShardCall.visits, makeVisits_look_groups, ShardCall.alone, Sharded.multiGet, Sharded.guarded_eq]
      exact ⟨rfl, rfl⟩
  | snapshot =>
      rw [ShardCall.visits, makeVisits_copy, ShardCall.alone, Sharded.snapshot, Sharded.shards_toList, List.foldl_map]
      exact ⟨rfl, rfl⟩
  | size =>
      rw [ShardCall.visits, makeVisits_count, ShardCall.alone, Sharded.size, Sharded.shards_toList, List.foldl_map]
      exact ⟨rfl, rfl⟩

end AwaitStore.Store
