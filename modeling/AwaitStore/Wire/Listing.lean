import AwaitStore.Text.Utf8

namespace AwaitStore.Wire

/-- A choice of order for each collection. A body may list its entries in any order, so what is said of
written bodies is said for every listing. -/
structure Listing where
  pairs : Table → List (Key × Value)
  keys : KeySet → List Key
  pairs_perm : ∀ table, (pairs table).Perm table.toList
  keys_perm : ∀ set, (keys set).Perm set.toList

namespace Listing

def ascending : Listing where
  pairs := fun table => table.toList
  keys := fun set => set.toList
  pairs_perm := fun _ => .refl _
  keys_perm := fun _ => .refl _

/-- The order of the entries as byte strings: a shorter key comes first, since its length is written in
front of it, and keys of one length are ascending. -/
def precedes (a b : Key) : Bool :=
  a.utf8ByteSize < b.utf8ByteSize || (a.utf8ByteSize == b.utf8ByteSize && a ≤ b)

def canonical : Listing where
  pairs := fun table => table.toList.mergeSort (fun p q => precedes p.1 q.1)
  keys := fun set => set.toList.mergeSort precedes
  pairs_perm := fun _ => List.mergeSort_perm _ _
  keys_perm := fun _ => List.mergeSort_perm _ _

end Listing

end AwaitStore.Wire
