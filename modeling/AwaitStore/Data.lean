import Std.Data.ExtTreeMap
import Std.Data.ExtTreeSet

namespace AwaitStore

abbrev Bytes := List UInt8

abbrev Key := String

abbrev Value := Bytes

/-- A finite map whose equality is equality of look-ups. It lists its entries by ascending key; keys
compare by code point, which is also the order of their UTF-8 bytes. -/
abbrev Table := Std.ExtTreeMap Key Value

abbrev KeySet := Std.ExtTreeSet Key

namespace Table

instance decidableEq : DecidableEq Table := inferInstance

/-- Entries are stored one after another, so the last value of a repeated key stays. -/
def putAll (table : Table) (pairs : List (Key × Value)) : Table :=
  pairs.foldl (fun t p => t.insert p.1 p.2) table

def ofPairs (pairs : List (Key × Value)) : Table := putAll ∅ pairs

def collect (table : Table) (keys : List Key) : Table :=
  keys.foldl
    (fun found key =>
      match table[key]? with
      | some value => found.insert key value
      | none => found)
    ∅

theorem getElem?_putAll_of_notMem (table : Table) (pairs : List (Key × Value)) (key : Key)
    (h : ∀ p ∈ pairs, p.1 ≠ key) : (putAll table pairs)[key]? = table[key]? := by
  induction pairs generalizing table with
  | nil => rfl
  | cons p rest ih =>
      have hp : p.1 ≠ key := h p (by simp)
      have hrest := ih (table.insert p.1 p.2) (fun q hq => h q (by simp [hq]))
      simp only [putAll, List.foldl_cons] at hrest ⊢
      rw [hrest, Std.ExtTreeMap.getElem?_insert]
      simp [Std.LawfulEqCmp.compare_eq_iff_eq, hp]

end Table

namespace KeySet

def ofKeys (keys : List Key) : KeySet := keys.foldl (fun s k => s.insert k) ∅

end KeySet

end AwaitStore
