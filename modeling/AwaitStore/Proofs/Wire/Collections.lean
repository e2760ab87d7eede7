import AwaitStore.Wire.Listing
import Mathlib.Data.List.Induction
import Mathlib.Data.List.Perm.Subperm

namespace AwaitStore

namespace Table

theorem getElem?_putAll (table : Table) (entries : List (Key × Value)) (key : Key) :
    (putAll table entries)[key]? = (entries.reverse.lookup key).or table[key]? := by
  induction entries generalizing table with
  | nil => rfl
  | cons entry rest ih =>
      obtain ⟨k, v⟩ := entry
      have hrest := ih (table.insert k v)
      simp only [putAll, List.foldl_cons] at hrest ⊢
      rw [hrest, List.reverse_cons, List.lookup_append, Option.or_assoc]
      congr 1
      rw [Std.ExtTreeMap.getElem?_insert, List.lookup_cons, List.lookup_nil]
      by_cases hkey : key = k
      · simp [hkey]
      · simp [beq_false_of_ne hkey, Ne.symm hkey, Std.LawfulEqCmp.compare_eq_iff_eq]

theorem ofPairs_eq_iff {entries : List (Key × Value)} {table : Table} :
    ofPairs entries = table ↔ ∀ key, table[key]? = entries.reverse.lookup key := by
  have hlook : ∀ key, (ofPairs entries)[key]? = entries.reverse.lookup key := by
    intro key
    rw [ofPairs, getElem?_putAll, Std.ExtTreeMap.getElem?_empty, Option.or_none]
  constructor
  · rintro rfl
    exact hlook
  · intro h
    apply Std.ExtTreeMap.ext_getElem?
    intro key
    rw [hlook, h]

theorem mem_of_mem_toList_ofPairs {entries : List (Key × Value)} {entry : Key × Value}
    (h : entry ∈ (ofPairs entries).toList) : entry ∈ entries := by
  rw [Std.ExtTreeMap.mem_toList_iff_getElem?_eq_some, ofPairs_eq_iff.mp rfl entry.1,
    List.lookup_eq_some_iff] at h
  obtain ⟨before, after, hsplit, -⟩ := h
  rw [← List.mem_reverse, hsplit]
  exact List.mem_append_right _ List.mem_cons_self

theorem distinct_keys (table : Table) : table.toList.Pairwise fun a b => a.1 ≠ b.1 := by
  refine Std.ExtTreeMap.distinct_keys_toList.imp fun h he => h ?_
  rw [he]
  exact Std.ReflCmp.compare_self

theorem nodup_toList (table : Table) : table.toList.Nodup :=
  (distinct_keys table).imp fun h he => h (congrArg Prod.fst he)

theorem lookup_eq_some_iff_mem {α β : Type} [BEq α] [LawfulBEq α] {entries : List (α × β)}
    (h : entries.Pairwise fun a b => a.1 ≠ b.1) {key : α} {value : β} :
    entries.lookup key = some value ↔ (key, value) ∈ entries := by
  induction entries with
  | nil => simp
  | cons entry rest ih =>
      obtain ⟨hentry, hrest⟩ := List.pairwise_cons.mp h
      obtain ⟨k, v⟩ := entry
      rw [List.lookup_cons, List.mem_cons]
      by_cases hk : key = k
      · subst hk
        have hnot : (key, value) ∉ rest := fun hmem => hentry _ hmem rfl
        simp [hnot, eq_comm]
      · rw [beq_false_of_ne hk]
        simp [hk, ih hrest]

theorem ofPairs_of_perm {table : Table} {entries : List (Key × Value)} (h : entries.Perm table.toList) :
    ofPairs entries = table := by
  have hperm := (List.reverse_perm entries).trans h
  have hdistinct : entries.reverse.Pairwise fun a b => a.1 ≠ b.1 :=
    (hperm.pairwise_iff fun hab => Ne.symm hab).mpr (distinct_keys table)
  rw [ofPairs_eq_iff]
  intro key
  ext value
  rw [lookup_eq_some_iff_mem hdistinct, hperm.mem_iff, Std.ExtTreeMap.mem_toList_iff_getElem?_eq_some]

theorem putAll_of_perm (table : Table) {pairs : Table} {entries : List (Key × Value)}
    (h : entries.Perm pairs.toList) : table.putAll entries = table.putAll pairs.toList := by
  apply Std.ExtTreeMap.ext_getElem?
  intro key
  rw [getElem?_putAll, getElem?_putAll, ← ofPairs_eq_iff.mp (ofPairs_of_perm h),
    ← ofPairs_eq_iff.mp (ofPairs_of_perm (.refl pairs.toList))]

theorem getElem?_collect (table : Table) (keys : List Key) (key : Key) :
    (collect table keys)[key]? = if key ∈ keys then table[key]? else none := by
  induction keys using List.reverseRecOn with
  | nil => simp [collect]
  | append_singleton front last ih =>
      simp only [collect, List.foldl_concat] at ih ⊢
      by_cases hk : key = last
      · subst hk
        cases hv : table[key]? <;> simp [ih, hv]
      · cases table[last]? <;>
          simp [ih, hk, Ne.symm hk, Std.ExtTreeMap.getElem?_insert, Std.LawfulEqCmp.compare_eq_iff_eq]

theorem collect_congr (table : Table) {first second : List Key} (h : ∀ key, key ∈ first ↔ key ∈ second) :
    table.collect first = table.collect second := by
  apply Std.ExtTreeMap.ext_getElem?
  intro key
  simp only [getElem?_collect, h]

theorem collect_of_perm (table : Table) {keys : List Key} {set : KeySet} (h : keys.Perm set.toList) :
    table.collect keys = table.collect set.toList :=
  table.collect_congr fun _ => h.mem_iff

theorem getElem?_putAll_toList (table entries : Table) (key : Key) :
    (table.putAll entries.toList)[key]? = entries[key]?.or table[key]? := by
  rw [getElem?_putAll, ← ofPairs_eq_iff.mp (ofPairs_of_perm (.refl entries.toList))]

theorem putAll_collect (table : Table) (first second : List Key) :
    (table.collect first).putAll (table.collect second).toList = table.collect (first ++ second) := by
  apply Std.ExtTreeMap.ext_getElem?
  intro key
  simp only [getElem?_putAll_toList, getElem?_collect, List.mem_append]
  by_cases hf : key ∈ first
  · by_cases hs : key ∈ second <;> simp [hf, hs]
  · by_cases hs : key ∈ second <;> simp [hf, hs]

theorem subperm_toList_ofPairs (entries : List (Key × Value)) :
    (ofPairs entries).toList.Subperm entries :=
  (nodup_toList _).subperm fun _ => mem_of_mem_toList_ofPairs

end Table

namespace KeySet

theorem mem_foldl_insert (set : KeySet) (entries : List Key) (key : Key) :
    key ∈ entries.foldl (fun s k => s.insert k) set ↔ key ∈ entries ∨ key ∈ set := by
  induction entries generalizing set with
  | nil => simp
  | cons entry rest ih =>
      rw [List.foldl_cons, ih, Std.ExtTreeSet.mem_insert, Std.LawfulEqCmp.compare_eq_iff_eq, List.mem_cons]
      tauto

theorem ofKeys_eq_iff {entries : List Key} {set : KeySet} :
    ofKeys entries = set ↔ ∀ key, key ∈ set ↔ key ∈ entries := by
  have hmem : ∀ key, key ∈ ofKeys entries ↔ key ∈ entries := by
    intro key
    rw [ofKeys, mem_foldl_insert]
    simp
  constructor
  · rintro rfl
    exact hmem
  · intro h
    apply Std.ExtTreeSet.ext_mem
    intro key
    rw [hmem, h]

theorem nodup_toList (set : KeySet) : set.toList.Nodup := by
  refine Std.ExtTreeSet.distinct_toList.imp fun h he => h ?_
  rw [he]
  exact Std.ReflCmp.compare_self

theorem ofKeys_of_perm {set : KeySet} {entries : List Key} (h : entries.Perm set.toList) :
    ofKeys entries = set := by
  rw [ofKeys_eq_iff]
  intro key
  rw [h.mem_iff, Std.ExtTreeSet.mem_toList]

theorem subperm_toList_ofKeys (entries : List Key) : (ofKeys entries).toList.Subperm entries := by
  refine (nodup_toList _).subperm fun key hkey => ?_
  rw [← ofKeys_eq_iff.mp rfl key]
  exact Std.ExtTreeSet.mem_toList.mp hkey

end KeySet

end AwaitStore
