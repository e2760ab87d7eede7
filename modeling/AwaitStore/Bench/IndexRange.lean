import AwaitStore.Bench.Draw

namespace AwaitStore.Bench

/-- An index may lie outside the list that it is used for, on either side, and is then moved to the
list's nearest end. -/
structure IndexRange where
  low : Int64
  high : Int64
  low_le_high : low ≤ high

def clampIndex (index : Int64) (length : Nat) : Nat := min index.toInt.toNat (length - 1)

namespace IndexRange

def ofBounds (a b : Int64) : IndexRange :=
  if h : a ≤ b then ⟨a, b, h⟩ else ⟨b, a, (Int64.le_total a b).resolve_left h⟩

def reachable (r : IndexRange) (length : Nat) : Nat := clampIndex r.high length - clampIndex r.low length + 1

/-- How many numbers there are in the range; zero stands for all. -/
def size (r : IndexRange) : UInt64 := r.high.toUInt64 - r.low.toUInt64 + 1

def ofWord? (r : IndexRange) (w : UInt64) : Option Int64 :=
  if r.size = 0 then some w.toInt64
  else (Draw.scaled r.size (Draw.exactZone r.size) w).map fun n => r.low + n.toInt64

def draw {ρ : Type} [Source ρ] (tries : Nat) (r : IndexRange) : Draw ρ Int64 :=
  Draw.accepted r.ofWord? tries

def draws {ρ : Type} [Source ρ] (tries : Nat) (r : IndexRange) : Nat → Draw ρ (List Int64)
  | 0 => pure []
  | n + 1 => do
      let first ← r.draw tries
      let rest ← draws tries r n
      pure (first :: rest)

end IndexRange

def pick {ρ α : Type} [Source ρ] (tries : Nat) (items : Array α) (range : IndexRange) : Draw ρ α := do
  let index ← range.draw tries
  match items[clampIndex index items.size]? with
  | some item => pure item
  | none => failure

end AwaitStore.Bench
