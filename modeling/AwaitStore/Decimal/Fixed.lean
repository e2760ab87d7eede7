import AwaitStore.Decimal.Shortest

namespace AwaitStore.Decimal

def Fraction.places (places : Nat) (x : Fraction) : String :=
  (Scientific.mk (Fraction.round ⟨x.num * Nat.pow 10 places, x.den⟩) (-places)).positional

/-- The exact value is rounded, half to even, and the sign is kept where nothing else is left of the
number. -/
def fixed (places : Nat) (x : Float) : String :=
  match Binary64.ofFloat x with
  | .nan => "NaN"
  | .infinite negative => sign negative ++ "inf"
  | .finite negative mantissa exponent =>
      sign negative ++ (Fraction.ofScaled mantissa exponent).places places

end AwaitStore.Decimal
