import AwaitStore.Decimal.Binary64

namespace AwaitStore.Decimal

structure Scientific where
  digits : Nat
  exponent : Int
  deriving DecidableEq, Repr

/-- The real numbers that read as the double `value`: the ends belong to them iff the mantissa of
`value` is even. All three are given as multiples of `1 / den`. -/
structure Interval where
  low : Nat
  value : Nat
  high : Nat
  den : Nat
  closed : Bool

/-- Half of the way to either neighbour. The one below is nearer where the mantissa is the least of its
exponent. -/
def Interval.around (mantissa : Nat) (exponent : Int) : Interval :=
  let unit := Fraction.ofScaled 1 exponent
  let below := if mantissa = hiddenBit ∧ exponent > -1074 then 1 else 2
  { low := (4 * mantissa - below) * unit.num
    value := 4 * mantissa * unit.num
    high := (4 * mantissa + 2) * unit.num
    den := 4 * unit.den
    closed := mantissa % 2 == 0 }

def Interval.contains (i : Interval) (step scale n : Nat) : Bool :=
  let x := n * step * i.den
  if i.closed then decide (i.low * scale ≤ x ∧ x ≤ i.high * scale)
  else decide (i.low * scale < x ∧ x < i.high * scale)

/-- The multiple of `10 ^ exponent` that is nearest to the value, among those of its two neighbours
that lie in the interval. One that is as near above as below is taken. -/
def Interval.onGrid? (i : Interval) (exponent : Int) : Option Nat :=
  let step := Nat.pow 10 exponent.toNat
  let scale := Nat.pow 10 (-exponent).toNat
  let below := i.value * scale / (i.den * step)
  let rest := i.value * scale % (i.den * step)
  match i.contains step scale below, i.contains step scale (below + 1) with
  | true, true => some (if 2 * rest < i.den * step then below else below + 1)
  | true, false => some below
  | false, true => some (below + 1)
  | false, false => none

def Interval.leading (i : Interval) : Int :=
  let whole := i.value / i.den
  if whole > 0 then (Nat.repr whole).length - 1
  else
    let reciprocal := (i.den - 1) / i.value
    Int.negOfNat (Nat.repr reciprocal).length

/-- Grids from coarse to fine; 17 digits always tell doubles apart. -/
def Interval.shortest (i : Interval) : Scientific :=
  let exponents := (List.range 18).map fun (n : Nat) => i.leading - n
  (exponents.findSome? fun e => (i.onGrid? e).map (⟨·, e⟩)).getD ⟨0, 0⟩

def zeros (n : Nat) : String := String.ofList (List.replicate n '0')

def Scientific.positional (x : Scientific) : String :=
  let digits := (Nat.repr x.digits).toList
  if x.exponent ≥ 0 then String.ofList digits ++ zeros x.exponent.toNat
  else
    let places := x.exponent.natAbs
    let padded := List.replicate (places + 1 - digits.length) '0' ++ digits
    let (whole, rest) := padded.splitAt (padded.length - places)
    String.ofList (whole ++ '.' :: rest)

def Scientific.reduced (x : Scientific) : Nat → Scientific
  | 0 => x
  | fuel + 1 =>
      if x.digits ≠ 0 ∧ x.digits % 10 = 0 then
        Scientific.reduced ⟨x.digits / 10, x.exponent + 1⟩ fuel
      else x

def sign (negative : Bool) : String := if negative then "-" else ""

def shortest (x : Float) : String :=
  match Binary64.ofFloat x with
  | .nan => "NaN"
  | .infinite negative => sign negative ++ "inf"
  | .finite negative 0 _ => sign negative ++ "0"
  | .finite negative mantissa exponent =>
      sign negative ++ ((Interval.around mantissa exponent).shortest.reduced 18).positional

end AwaitStore.Decimal
