import AwaitStore.Proofs.Wire.Collections
import AwaitStore.Store.Sharded
import Mathlib.Data.List.FinRange
import Mathlib.Data.List.Nodup

namespace AwaitStore.Store.Sharded

variable {n : Nat} {hash : Key → UInt64}

theorem shard_update (s : Sharded n) (i j : Fin n) (f : Table → Table) :
    (s.update i f).shard j = if i = j then f (s.shard i) else s.shard j := by
  change (s.shards.set i.val _ i.isLt)[j.val] = if i = j then _ else s.shards[j.val]
  simp [Vector.getElem_set, Fin.ext_iff]

theorem guarded_eq {α : Type} (groups : Std.ExtTreeMap (Fin n) (List α)) : guarded groups = groups.toList := by
  simp only [guarded, List.zip_map', Prod.mk.eta, List.map_id']

section Group

variable {α : Type} {n_pos : 0 < n} {keyOf : α → Key}

theorem getD_group (items : List α) (i : Fin n) :
    ((group hash n_pos keyOf items)[i]?).getD [] =
      items.filter fun item => shardOf hash n_pos (keyOf item) = i := by
  induction items using List.reverseRecOn with
  | nil => simp [group]
  | append_singleton front last ih =>
      -- Only the group of the last item changes, at its end.
      rw [group, List.foldl_concat, ← group, Std.ExtTreeMap.getElem?_alter, List.filter_append, ← ih]
      by_cases hi : shardOf hash n_pos (keyOf last) = i
      · simp [hi]
      · simp [hi, Std.LawfulEqCmp.compare_eq_iff_eq]

theorem distinct_toList (groups : Std.ExtTreeMap (Fin n) (List α)) :
    groups.toList.Pairwise fun a b => a.1 ≠ b.1 := by
  refine Std.ExtTreeMap.distinct_keys_toList.imp fun h he => h ?_
  rw [he]
  exact Std.ReflCmp.compare_self

theorem lookup_toList (groups : Std.ExtTreeMap (Fin n) (List α)) (i : Fin n) :
    groups.toList.lookup i = groups[i]? := by
  ext group
  rw [Table.lookup_eq_some_iff_mem (distinct_toList groups), Std.ExtTreeMap.mem_toList_iff_getElem?_eq_some]

theorem eq_filter_of_mem_group {items : List α} {g : Fin n × List α}
    (hg : g ∈ (group hash n_pos keyOf items).toList) :
    g.2 = items.filter fun item => shardOf hash n_pos (keyOf item) = g.1 := by
  have hlook := Std.ExtTreeMap.mem_toList_iff_getElem?_eq_some.mp hg
  rw [← getD_group, hlook, Option.getD_some]

theorem mem_flatMap_group (items : List α) (item : α) :
    item ∈ (group hash n_pos keyOf items).toList.flatMap Prod.snd ↔ item ∈ items := by
  rw [List.mem_flatMap]
  constructor
  · rintro ⟨g, hg, hitem⟩
    rw [eq_filter_of_mem_group hg] at hitem
    exact (List.mem_filter.mp hitem).1
  · intro hitem
    have hmem : item ∈ ((group hash n_pos keyOf items)[shardOf hash n_pos (keyOf item)]?).getD [] := by
      rw [getD_group]
      exact List.mem_filter.mpr ⟨hitem, by simp⟩
    cases hg : (group hash n_pos keyOf items)[shardOf hash n_pos (keyOf item)]? with
    | none => simp [hg] at hmem
    | some g => exact ⟨(_, g), Std.ExtTreeMap.mem_toList_iff_getElem?_eq_some.mpr hg, by simpa [hg] using hmem⟩

end Group

/-- The one table that the shards hold together: each key is in its shard, and in no other. -/
def Holds (hash : Key → UInt64) (s : Sharded n) (table : Table) : Prop :=
  ∀ i key, (s.shard i)[key]? = if shardOf hash s.n_pos key = i then table[key]? else none

theorem holds_empty (n_pos : 0 < n) : Holds hash (empty n_pos) ∅ := by
  intro i key
  change (Vector.replicate n (∅ : Table))[i.val][key]? = _
  simp

theorem Holds.get {s : Sharded n} {table : Table} (h : s.Holds hash table) (key : Key) :
    s.get hash key = table[key]? := by
  rw [Sharded.get, h, if_pos rfl]

theorem lookup_filter (entries : List (Key × Value)) (p : Key → Bool) (key : Key) :
    (entries.filter fun e => p e.1).lookup key = if p key then entries.lookup key else none := by
  induction entries with
  | nil => simp
  | cons entry rest ih =>
      obtain ⟨k, v⟩ := entry
      by_cases hk : key = k
      · subst hk
        by_cases hp : p key
        · simp [hp]
        · simp [hp, ih]
      · by_cases hp : p k
        · simp [hp, List.lookup_cons, beq_false_of_ne hk, ih]
        · simp [hp, List.lookup_cons, beq_false_of_ne hk, ih]

theorem shard_foldl_update {groups : List (Fin n × List (Key × Value))}
    (hd : groups.Pairwise fun a b => a.1 ≠ b.1) (s : Sharded n) (i : Fin n) :
    (groups.foldl (fun s g => s.update g.1 fun t => t.putAll g.2) s).shard i =
      (s.shard i).putAll ((groups.lookup i).getD []) := by
  induction groups generalizing s with
  | nil => rfl
  | cons g rest ih =>
      obtain ⟨hfirst, hrest⟩ := List.pairwise_cons.mp hd
      obtain ⟨j, entries⟩ := g
      rw [List.foldl_cons, ih hrest, shard_update]
      by_cases hj : j = i
      · subst hj
        have hnone : rest.lookup j = none :=
          List.lookup_eq_none_iff.mpr fun b hb => by simpa using hfirst b hb
        simp [hnone, Table.putAll]
      · simp [hj, List.lookup_cons, beq_false_of_ne (Ne.symm hj)]

theorem shard_multiPut (s : Sharded n) (entries : List (Key × Value)) (i : Fin n) :
    (s.multiPut hash entries).shard i =
      (s.shard i).putAll (entries.filter fun e => shardOf hash s.n_pos e.1 = i) := by
  rw [multiPut, guarded_eq, shard_foldl_update (distinct_toList _), lookup_toList, getD_group]

theorem Holds.putAll {s t : Sharded n} {table : Table} (h : s.Holds hash table) {entries : List (Key × Value)}
    (ht : ∀ i, t.shard i = (s.shard i).putAll (entries.filter fun e => shardOf hash s.n_pos e.1 = i)) :
    t.Holds hash (table.putAll entries) := by
  intro i key
  rw [ht, Table.getElem?_putAll, Table.getElem?_putAll, ← List.filter_reverse,
    lookup_filter entries.reverse (fun k => decide (shardOf hash s.n_pos k = i)), h i key]
  by_cases hi : shardOf hash s.n_pos key = i
  · simp [hi]
  · simp [hi]

theorem Holds.put {s : Sharded n} {table : Table} (h : s.Holds hash table) (key : Key) (value : Value) :
    (s.put hash key value).Holds hash (table.insert key value) := by
  have hput (i : Fin n) : (s.put hash key value).shard i =
      (s.shard i).putAll ([(key, value)].filter fun e => shardOf hash s.n_pos e.1 = i) := by
    rw [Sharded.put, shard_update]
    by_cases hi : shardOf hash s.n_pos key = i
    · subst hi
      simp [Table.putAll]
    · simp [hi, Table.putAll]
  exact h.putAll hput

theorem Holds.multiPut {s : Sharded n} {table : Table} (h : s.Holds hash table)
    (entries : List (Key × Value)) : (s.multiPut hash entries).Holds hash (table.putAll entries) :=
  h.putAll (shard_multiPut s entries)

theorem foldl_collect {s : Sharded n} {table : Table} {groups : List (Fin n × List Key)}
    (hg : ∀ g ∈ groups, (s.shard g.1).collect g.2 = table.collect g.2) (front : List Key) :
    groups.foldl (fun found g => found.putAll ((s.shard g.1).collect g.2).toList) (table.collect front) =
      table.collect (front ++ groups.flatMap Prod.snd) := by
  induction groups generalizing front with
  | nil => simp
  | cons g rest ih =>
      rw [List.foldl_cons, hg g List.mem_cons_self, Table.putAll_collect,
        ih fun g hg' => hg g (List.mem_cons_of_mem _ hg')]
      simp

theorem Holds.multiGet {s : Sharded n} {table : Table} (h : s.Holds hash table) (keys : List Key) :
    s.multiGet hash keys = table.collect keys := by
  -- All keys of a group have their entries in its shard.
  have hpiece : ∀ g ∈ (group hash s.n_pos id keys).toList, (s.shard g.1).collect g.2 = table.collect g.2 := by
    intro g hg
    apply Std.ExtTreeMap.ext_getElem?
    intro key
    rw [Table.getElem?_collect, Table.getElem?_collect, h]
    split
    next hk =>
      rw [eq_filter_of_mem_group hg] at hk
      have hshard : shardOf hash s.n_pos key = g.1 := by simpa using (List.mem_filter.mp hk).2
      rw [if_pos hshard]
    next => rfl
  rw [Sharded.multiGet, guarded_eq]
  refine (foldl_collect hpiece []).trans (table.collect_congr fun key => ?_)
  exact mem_flatMap_group keys key

theorem Holds.getElem?_merge {s : Sharded n} {table : Table} (h : s.Holds hash table) (shards : List (Fin n))
    (all : Table) (key : Key) :
    (shards.foldl (fun all i => all.putAll (s.shard i).toList) all)[key]? =
      if shardOf hash s.n_pos key ∈ shards then table[key]?.or all[key]? else all[key]? := by
  induction shards generalizing all with
  | nil => simp
  | cons i rest ih =>
      rw [List.foldl_cons, ih, Table.getElem?_putAll_toList, h i key]
      by_cases hi : shardOf hash s.n_pos key = i
      · cases table[key]? <;> simp [hi]
      · simp [hi]

theorem shards_toList (s : Sharded n) : s.shards.toList = (List.finRange n).map s.shard := by
  apply List.ext_getElem
  · simp
  · intro i h h'
    simp [shard]
    rfl

theorem Holds.snapshot {s : Sharded n} {table : Table} (h : s.Holds hash table) : s.snapshot = table := by
  apply Std.ExtTreeMap.ext_getElem?
  intro key
  rw [Sharded.snapshot, shards_toList, List.foldl_map, h.getElem?_merge]
  simp

theorem Holds.size {s : Sharded n} {table : Table} (h : s.Holds hash table) : s.size = table.size := by
  have hperm : ((List.finRange n).flatMap fun i => (s.shard i).toList).Perm table.toList := by
    rw [List.perm_ext_iff_of_nodup ?_ (Table.nodup_toList table)]
    · rintro ⟨key, value⟩
      simp only [List.mem_flatMap, Std.ExtTreeMap.mem_toList_iff_getElem?_eq_some, h _ key]
      simp
    · rw [List.nodup_flatMap]
      refine ⟨fun i _ => Table.nodup_toList _, (List.nodup_finRange n).imp ?_⟩
      -- An entry of two shards would have a key that belongs to both.
      rintro i j hij ⟨key, value⟩ hi hj
      rw [Std.ExtTreeMap.mem_toList_iff_getElem?_eq_some, h] at hi hj
      split at hi
      next hi' =>
        rw [if_neg (hi' ▸ hij)] at hj
        cases hj
      · cases hi
  have hsize : s.size = ((List.finRange n).map fun i => (s.shard i).toList.length).sum := by
    simp only [Sharded.size, shards_toList, List.sum_eq_foldl, List.foldl_map, Std.ExtTreeMap.length_toList]
  rw [hsize, ← List.length_flatMap, hperm.length_eq, Std.ExtTreeMap.length_toList]

end AwaitStore.Store.Sharded
