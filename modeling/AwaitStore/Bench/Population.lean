import AwaitStore.Bench.Draw
import AwaitStore.Bench.Fault
import AwaitStore.Store.Backend

namespace AwaitStore.Bench

/-- Different texts of letters and digits of one length as keys, and different byte strings of one
length as values. Each key has one of the values. -/
structure Population where
  kind : Store.Kind
  keys : Nat
  values : Nat
  keyLength : Nat
  valueLength : Nat
  deriving DecidableEq, Repr

def largestWord : Nat := UInt64.size - 1

/-- Whether `capacity * alphabet ^ length` is at least `count`, in words that stay at the largest one,
and without looking further once it is. -/
def fits (alphabet count capacity : Nat) : Nat → Bool
  | 0 => capacity ≥ count
  | length + 1 =>
      let capacity := min (capacity * alphabet) largestWord
      capacity ≥ count || fits alphabet count capacity length

namespace Population

def check (p : Population) : Except Unusable Population :=
  if p.keys = 0 ∨ p.values = 0 then .error .nothingStored
  else if !fits Draw.letters.length p.keys 1 p.keyLength then .error (.fewKeys p.keys p.keyLength)
  else if !fits 256 p.values 1 p.valueLength then .error (.fewValues p.values p.valueLength)
  else .ok p

def display (p : Population) : String :=
  s!"DatabasePopulator(kind = {p.kind.display}, n_keys = {p.keys}, n_values = {p.values}, " ++
    s!"key_length = {p.keyLength}, value_length = {p.valueLength})"

end Population

structure Populated where
  keys : Array Key
  values : Array Value
  store : Store.Backend

namespace Populated

def debug (p : Populated) : String :=
  s!"PopulatedDatabase \x7b valid_keys: {p.keys.size}, valid_values: {p.values.size}, .. \x7d"

end Populated

/-- The order in which the sets of drawn keys and values are gone through, and the pairs made of them. -/
structure Arrangement extends Wire.Listing where
  values : Std.ExtTreeSet Value → List Value
  values_perm : ∀ set, (values set).Perm set.toList

def Arrangement.ascending : Arrangement where
  toListing := .ascending
  values := fun set => set.toList
  values_perm := fun _ => .refl _

namespace Population

variable {ρ : Type} [Source ρ]

def assign (tries : Nat) (values : Array Value) : List Key → Draw ρ (List (Key × Value))
  | [] => pure []
  | key :: keys => do
      let place ← Draw.place tries values.size
      match values[place]? with
      | none => failure
      | some value =>
          let rest ← assign tries values keys
          pure ((key, value) :: rest)

def contents (arrangement : Arrangement) (tries : Nat) (p : Population) :
    Draw ρ (List Key × Array Value × List (Key × Value)) := do
  let keys ← Draw.different (Draw.text tries p.keyLength) p.keys tries ∅
  let values ← Draw.different (Draw.bytes p.valueLength) p.values tries ∅
  let keys := arrangement.keys keys
  let values := (arrangement.values values).toArray
  let pairs ← assign tries values keys
  pure (keys, values, pairs)

/-- The room for all keys and for one of them, and then for the values, is asked for before any is drawn. -/
def room (p : Population) : Except CapacityFault Unit := do
  Capacity.table Capacity.handleWidth p.keys
  Capacity.sequence 1 p.keyLength
  Capacity.table Capacity.handleWidth p.values
  Capacity.sequence 1 p.valueLength

def populate (arrangement : Arrangement) (tries : Nat) (p : Population) :
    Draw ρ (Except Store.BuildError Populated) :=
  match p.room with
  | .error fault => pure (.error (.tooLarge fault))
  | .ok () => do
      let (keys, values, pairs) ← p.contents arrangement tries
      pure <| match p.kind.build with
        | .error e => .error e
        | .ok store => .ok ⟨keys.toArray, values, store.fill arrangement.toListing (Table.ofPairs pairs)⟩

end Population

end AwaitStore.Bench
