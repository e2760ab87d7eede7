import AwaitStore.Proofs.Bench.Fitting
import AwaitStore.Proofs.Store.Quiet

namespace AwaitStore

namespace Table

section Distinct

variable {entries : List (Key × Value)} (h : (entries.map Prod.fst).Nodup)

include h

theorem getElem?_ofPairs {key : Key} {value : Value} :
    (ofPairs entries)[key]? = some value ↔ (key, value) ∈ entries := by
  have hdistinct : entries.reverse.Pairwise fun a b => a.1 ≠ b.1 :=
    List.pairwise_reverse.mpr ((List.pairwise_map.mp h).imp Ne.symm)
  rw [ofPairs_eq_iff.mp rfl, lookup_eq_some_iff_mem hdistinct, List.mem_reverse]

theorem mem_ofPairs {key : Key} : key ∈ ofPairs entries ↔ key ∈ entries.map Prod.fst := by
  rw [Std.ExtTreeMap.mem_iff_isSome_getElem?, Option.isSome_iff_exists]
  simp only [getElem?_ofPairs h]
  constructor
  · rintro ⟨value, hmem⟩
    exact List.mem_map_of_mem hmem
  · intro hmem
    obtain ⟨⟨_, value⟩, hentry, rfl⟩ := List.mem_map.mp hmem
    exact ⟨value, hentry⟩

theorem size_ofPairs : (ofPairs entries).size = entries.length := by
  rw [← Std.ExtTreeMap.length_toList]
  refine ((List.perm_ext_iff_of_nodup (nodup_toList _) h.of_map).mpr fun ⟨key, value⟩ => ?_).length_eq
  rw [Std.ExtTreeMap.mem_toList_iff_getElem?_eq_some, getElem?_ofPairs h]

end Distinct

end Table

namespace Bench

variable {ρ : Type} [Source ρ] {p : Population} {tries : Nat} {source rest : ρ}

namespace Draw

theorem place_lt {count n : Nat} (hcount : 0 < count) (h : (place tries count).run source = some (n, rest)) :
    n < count := by
  obtain ⟨w, between, hw, h⟩ := bind_eq_some_iff.mp h
  obtain ⟨rfl, -⟩ := pure_eq_some_iff.mp h
  obtain ⟨v, hv⟩ := exists_of_accepted hw
  by_cases hrange : count.toUInt64 = 0
  · have hzero := (scaled_eq_some_iff.mp hv).2
    rw [hrange] at hzero
    simp at hzero
    omega
  · have hlt := UInt64.lt_iff_toNat_lt.mp (lt_of_scaled hv hrange)
    have hle : count.toUInt64.toNat ≤ count := Nat.mod_le _ _
    omega

def places (tries count : Nat) : Nat → Draw ρ (List Nat)
  | 0 => pure []
  | n + 1 => do
      let first ← place tries count
      let rest ← places tries count n
      pure (first :: rest)

end Draw

namespace Population

theorem assign_of_places {values : Array Value} {keys : List Key} {places : List Nat} (hvalues : 0 < values.size)
    (h : (Draw.places tries values.size keys.length).run source = some (places, rest)) :
    ∃ pairs, (assign tries values keys).run source = some (pairs, rest) ∧ pairs.map Prod.fst = keys ∧
      ∀ entry ∈ pairs, entry.2 ∈ values := by
  induction keys generalizing source places with
  | nil =>
      obtain ⟨-, rfl⟩ := Draw.pure_eq_some_iff.mp h
      exact ⟨[], rfl, rfl, nofun⟩
  | cons key keys ih =>
      obtain ⟨first, between, hfirst, h⟩ := Draw.bind_eq_some_iff.mp h
      obtain ⟨later, last, hlater, h⟩ := Draw.bind_eq_some_iff.mp h
      obtain ⟨rfl, rfl⟩ := Draw.pure_eq_some_iff.mp h
      obtain ⟨pairs, hpairs, hkeys, hall⟩ := ih hlater
      obtain ⟨value, hvalue⟩ : ∃ value, values[first]? = some value :=
        ⟨_, Array.getElem?_eq_getElem (Draw.place_lt hvalues hfirst)⟩
      refine ⟨(key, value) :: pairs, Draw.bind_eq_some_iff.mpr ⟨first, between, hfirst, ?_⟩, ?_, ?_⟩
      · rw [hvalue]
        exact Draw.bind_eq_some_iff.mpr ⟨pairs, rest, hpairs, rfl⟩
      · rw [List.map_cons, hkeys]
      · exact List.forall_mem_cons.mpr ⟨Array.mem_of_getElem? hvalue, hall⟩

/-- All that is drawn for a population: its keys, its values, and a place among the values for each key. -/
def generation (tries : Nat) (p : Population) : Draw ρ (Std.ExtTreeSet Key × Std.ExtTreeSet Value × List Nat) := do
  let keys ← Draw.different (Draw.text tries p.keyLength) p.keys tries ∅
  let values ← Draw.different (Draw.bytes p.valueLength) p.values tries ∅
  let places ← Draw.places tries p.values p.keys
  pure (keys, values, places)

/-- What a population promises of its keys and values, and of a store that is filled with them. -/
structure Delivers (p : Population) (db : Populated) : Prop where
  keys_size : db.keys.size = p.keys
  keys_nodup : db.keys.toList.Nodup
  keys_text : ∀ key ∈ db.keys, key.length = p.keyLength ∧ ∀ c ∈ key.toList, c.isAlphanum = true
  values_size : db.values.size = p.values
  values_nodup : db.values.toList.Nodup
  values_length : ∀ value ∈ db.values, value.length = p.valueLength
  kind : db.store.kind = p.kind
  stored : ∀ key, key ∈ db.store.contents ↔ key ∈ db.keys
  stored_value : ∀ (key : Key) (value : Value), db.store.contents[key]? = some value → value ∈ db.values
  size : db.store.size = p.keys
  get : ∀ call, ∀ key ∈ db.keys, ∃ value ∈ db.values,
    (db.store.perform call (.get key)).2 = [⟨call, .ok (.value (some value))⟩]

section Generated

variable {keys : Std.ExtTreeSet Key} {values : Std.ExtTreeSet Value} {places : List Nat}

/-- What generation has found when it ends: as many different keys and values as were wanted, of the right kind. -/
structure Found (p : Population) (keys : Std.ExtTreeSet Key) (values : Std.ExtTreeSet Value) : Prop where
  keys_size : keys.size = p.keys
  keys_text : ∀ key ∈ keys, key ∈ Draw.texts p.keyLength
  values_size : values.size = p.values
  values_length : ∀ value ∈ values, value ∈ Draw.byteStrings p.valueLength

theorem found_of_generation (hkeys : 1 ≤ p.keys)
    (h : (p.generation tries).run source = some ((keys, values, places), rest)) : Found p keys values := by
  obtain ⟨keys, second, hk, h⟩ := Draw.bind_eq_some_iff.mp h
  obtain ⟨values, third, hv, h⟩ := Draw.bind_eq_some_iff.mp h
  obtain ⟨places, last, -, h⟩ := Draw.bind_eq_some_iff.mp h
  obtain ⟨he, -⟩ := Draw.pure_eq_some_iff.mp h
  cases he
  have ht : 0 < tries := by
    obtain ⟨hle, -⟩ | ⟨-, left, -, -, rfl, -⟩ := Draw.different_cases hk
    · exact absurd (Nat.le_trans hkeys hle) (by simp)
    · exact Nat.succ_pos left
  obtain ⟨hsize, hall⟩ := (Draw.from_text ht).of_different (Nat.zero_le _) (by simp) hk
  obtain ⟨hsize', hall'⟩ := Draw.from_bytes.of_different (Nat.zero_le _) (by simp) hv
  exact ⟨hsize, hall, hsize', hall'⟩

theorem contents_of_generation (arrangement : Arrangement) (hvalues : 1 ≤ p.values) (hfound : Found p keys values)
    (h : (p.generation tries).run source = some ((keys, values, places), rest)) :
    ∃ pairs, (p.contents arrangement tries).run source =
        some ((arrangement.keys keys, (arrangement.values values).toArray, pairs), rest) ∧
      pairs.map Prod.fst = arrangement.keys keys ∧ ∀ entry ∈ pairs, entry.2 ∈ arrangement.values values := by
  obtain ⟨keys, second, hk, h⟩ := Draw.bind_eq_some_iff.mp h
  obtain ⟨values, third, hv, h⟩ := Draw.bind_eq_some_iff.mp h
  obtain ⟨places, last, hp, h⟩ := Draw.bind_eq_some_iff.mp h
  obtain ⟨he, rfl⟩ := Draw.pure_eq_some_iff.mp h
  cases he
  have hlength : (arrangement.keys keys).length = p.keys := by
    rw [(arrangement.keys_perm keys).length_eq, Std.ExtTreeSet.length_toList, hfound.keys_size]
  have hsize : (arrangement.values values).toArray.size = p.values := by
    rw [List.size_toArray, (arrangement.values_perm values).length_eq, Std.ExtTreeSet.length_toList, hfound.values_size]
  rw [← hlength, ← hsize] at hp
  obtain ⟨pairs, hpairs, hmap, hall⟩ := assign_of_places (hsize ▸ hvalues) hp
  refine ⟨pairs, ?_, hmap, fun entry hentry => List.mem_toArray.mp (hall entry hentry)⟩
  exact Draw.bind_eq_some_iff.mpr ⟨keys, second, hk, Draw.bind_eq_some_iff.mpr
    ⟨values, third, hv, Draw.bind_eq_some_iff.mpr ⟨pairs, _, hpairs, rfl⟩⟩⟩

theorem delivers_of_filled (arrangement : Arrangement) {pairs : List (Key × Value)} {store : Store.Backend}
    (hfound : Found p keys values) (hmap : pairs.map Prod.fst = arrangement.keys keys)
    (hall : ∀ entry ∈ pairs, entry.2 ∈ arrangement.values values) (hkind : store.kind = p.kind)
    (hstore : store.Filled (Table.ofPairs pairs)) :
    p.Delivers ⟨(arrangement.keys keys).toArray, (arrangement.values values).toArray, store⟩ := by
  have hkeys := arrangement.keys_perm keys
  have hvalues := arrangement.values_perm values
  have hnodup : (arrangement.keys keys).Nodup := hkeys.nodup_iff.mpr (Draw.nodup_toList keys)
  have hdistinct : (pairs.map Prod.fst).Nodup := hmap ▸ hnodup
  have hlength : (arrangement.keys keys).length = p.keys := by
    rw [hkeys.length_eq, Std.ExtTreeSet.length_toList, hfound.keys_size]
  have hcontents (key : Key) (value : Value) : store.contents[key]? = some value ↔ (key, value) ∈ pairs := by
    rw [hstore.contents, Table.getElem?_ofPairs hdistinct]
  have hvalue {key : Key} {value : Value} (h : (key, value) ∈ pairs) : value ∈ (arrangement.values values).toArray :=
    List.mem_toArray.mpr (hall _ h)
  refine ⟨hlength, hnodup, fun key hkey => ?_, ?_, hvalues.nodup_iff.mpr (Draw.nodup_toList values),
    fun value hvalue => ?_, hkind, fun key => ?_, fun key value h => hvalue ((hcontents key value).mp h), ?_,
    fun call key hkey => ?_⟩
  · rw [List.mem_toArray, hkeys.mem_iff, Std.ExtTreeSet.mem_toList] at hkey
    exact hfound.keys_text key hkey
  · rw [List.size_toArray, hvalues.length_eq, Std.ExtTreeSet.length_toList, hfound.values_size]
  · rw [List.mem_toArray, hvalues.mem_iff, Std.ExtTreeSet.mem_toList] at hvalue
    exact hfound.values_length value hvalue
  · rw [hstore.contents, Table.mem_ofPairs hdistinct, hmap, List.mem_toArray]
  · rw [hstore.size, Table.size_ofPairs hdistinct, ← hlength, ← hmap, List.length_map]
  · rw [List.mem_toArray, ← hmap] at hkey
    obtain ⟨⟨_, value⟩, hentry, rfl⟩ := List.mem_map.mp hkey
    refine ⟨value, hvalue hentry, ?_⟩
    rw [hstore.get, (Table.getElem?_ofPairs hdistinct).mpr hentry]

end Generated

/-- Whatever the source and the order of the sets, a population that passes the test delivers what it promises once its
draws have ended. Only memory can stand in the way: for the keys or values, or for the shards. -/
theorem populate_delivers (arrangement : Arrangement) {drawn : Std.ExtTreeSet Key × Std.ExtTreeSet Value × List Nat}
    (hp : p.check = .ok p) (hshards : p.kind ≠ .sharded 0) (h : (p.generation tries).run source = some (drawn, rest)) :
    (∀ fault, p.room = .error fault →
        (p.populate arrangement tries).run source = some (.error (.tooLarge fault), source)) ∧
      (∀ fault, p.room = .ok () → p.kind.build = .error (.tooLarge fault) →
        (p.populate arrangement tries).run source = some (.error (.tooLarge fault), rest)) ∧
      (p.room = .ok () → (∀ fault, p.kind.build ≠ .error (.tooLarge fault)) →
        ∃ db, (p.populate arrangement tries).run source = some (.ok db, rest) ∧ p.Delivers db) := by
  obtain ⟨hkeys, hvalues⟩ := one_le_of_check hp
  obtain ⟨keys, values, places⟩ := drawn
  have hfound := found_of_generation hkeys h
  obtain ⟨pairs, hcontents, hmap, hall⟩ := contents_of_generation arrangement hvalues hfound h
  have hbuilt (built : Except Store.BuildError Store.Backend) (hroom : p.room = .ok ()) (hbuild : p.kind.build = built) :
      (p.populate arrangement tries).run source = some (built.map fun store =>
        ⟨(arrangement.keys keys).toArray, (arrangement.values values).toArray,
          store.fill arrangement.toListing (Table.ofPairs pairs)⟩, rest) := by
    rw [populate, hroom]
    refine Draw.bind_eq_some_iff.mpr ⟨_, rest, hcontents, ?_⟩
    rw [hbuild]
    cases built <;> rfl
  refine ⟨fun fault hroom => ?_, fun fault hroom hbuild => hbuilt _ hroom hbuild, fun hroom hshards' => ?_⟩
  · rw [populate, hroom]
    rfl
  · cases hbuild : p.kind.build with
    | error e =>
        cases e with
        | noShards => exact absurd (Store.Backend.kind_of_noShards hbuild) hshards
        | tooLarge fault => exact absurd hbuild (hshards' fault)
    | ok store =>
        refine ⟨_, hbuilt _ hroom hbuild, delivers_of_filled arrangement hfound hmap hall ?_ ?_⟩
        · rw [Store.Backend.kind_fill, Store.Backend.kind_build hbuild]
        · exact Store.Backend.filled_build _ _ hbuild

theorem filled_of_populate {arrangement : Arrangement} {db : Populated}
    (h : (p.populate arrangement tries).run source = some (.ok db, rest)) :
    db.store.kind = p.kind ∧ ∃ pairs, db.store.Filled pairs := by
  unfold populate at h
  split at h
  · obtain ⟨he, -⟩ := Draw.pure_eq_some_iff.mp h
    cases he
  · obtain ⟨⟨keys, values, pairs⟩, between, -, h⟩ := Draw.bind_eq_some_iff.mp h
    obtain ⟨he, -⟩ := Draw.pure_eq_some_iff.mp h
    split at he
    · cases he
    next store hbuild =>
      cases he
      exact ⟨(Store.Backend.kind_fill ..).trans (Store.Backend.kind_build hbuild), _,
        Store.Backend.filled_build _ _ hbuild⟩

/-- Two keys and one value, where the first key is drawn twice. -/
theorem populate_delivers_repeated_key :
    ∃ db, ((⟨.sharded 2, 2, 1, 1, 1⟩ : Population).populate .ascending 3).run
        (Recorded.ofWords [0, 0, 0x4000000, 7, 0, 5]) = some (.ok db, Recorded.ofWords []) ∧
      Delivers ⟨.sharded 2, 2, 1, 1, 1⟩ db := by
  have hgeneration : ((⟨.sharded 2, 2, 1, 1, 1⟩ : Population).generation 3).run
      (Recorded.ofWords [0, 0, 0x4000000, 7, 0, 5]) =
      some ((((∅ : Std.ExtTreeSet Key).insert "A").insert "B", (∅ : Std.ExtTreeSet Value).insert [7], [0, 0]),
        Recorded.ofWords []) := by rfl
  obtain ⟨-, -, hdelivers⟩ := populate_delivers .ascending (by decide) (by decide) hgeneration
  exact hdelivers (by decide +kernel) nofun

end Population

end Bench

end AwaitStore
