namespace AwaitStore.Decimal

/-- A finite double is `mantissa * 2 ^ exponent` with a sign; `exponent` is at least -1074. -/
inductive Binary64 where
  | nan
  | infinite (negative : Bool)
  | finite (negative : Bool) (mantissa : Nat) (exponent : Int)
  deriving DecidableEq, Repr

def hiddenBit : Nat := 0x10000000000000

def Binary64.ofFloat (x : Float) : Binary64 :=
  let bits : Nat := x.toBits.toNat
  let negative := bits / (2048 * hiddenBit) == 1
  let scale : Nat := bits / hiddenBit % 2048
  let fraction : Nat := bits % hiddenBit
  if scale = 2047 then if fraction = 0 then .infinite negative else .nan
  else if scale = 0 then .finite negative fraction (-1074)
  else .finite negative (hiddenBit + fraction) ((scale : Int) - 1075)

structure Fraction where
  num : Nat
  den : Nat
  deriving DecidableEq, Repr

def Fraction.ofScaled (mantissa : Nat) (exponent : Int) : Fraction :=
  if exponent < 0 then ⟨mantissa, Nat.pow 2 exponent.natAbs⟩
  else ⟨mantissa * Nat.pow 2 exponent.natAbs, 1⟩

def Fraction.round (x : Fraction) : Nat :=
  let low := x.num / x.den
  let rest := x.num % x.den
  if 2 * rest < x.den then low
  else if x.den < 2 * rest then low + 1
  else low + low % 2

/-- The nearest double. The carry of a mantissa that rounds up to the next power of two ends in the
exponent's field. -/
def nearest (n : Nat) : Float :=
  if n < 2 * hiddenBit then n.toUInt64.toFloat
  else
    let shift := n.log2 - 52
    let mantissa := Fraction.round ⟨n, Nat.pow 2 shift⟩
    let bits := (shift + 1074) * hiddenBit + mantissa
    Float.ofBits (min bits (2047 * hiddenBit)).toUInt64

end AwaitStore.Decimal
