import AwaitStore.Text.Blank

namespace AwaitStore.Config

open Text (Chars isDigit digitsUpTo? hexDigit?)

inductive Address where
  | v4 (a b c d : UInt8)
  | v6 (groups : List UInt16)
  deriving DecidableEq, Repr

namespace Address

def octet? (cs : Chars) : Option (UInt8 × Chars) :=
  let ds := cs.takeWhile isDigit
  if ds.isEmpty || (ds.length > 1 && ds.head? == some '0') then none
  else (digitsUpTo? 255 ds).map fun n => (UInt8.ofNat n, cs.dropWhile isDigit)

def dot? : Chars → Option Chars
  | '.' :: cs => some cs
  | _ => none

def colon? : Chars → Option Chars
  | ':' :: cs => some cs
  | _ => none

def v4? (cs : Chars) : Option ((UInt8 × UInt8 × UInt8 × UInt8) × Chars) := do
  let (a, cs) ← octet? cs
  let (b, cs) ← octet? (← dot? cs)
  let (c, cs) ← octet? (← dot? cs)
  let (d, cs) ← octet? (← dot? cs)
  return ((a, b, c, d), cs)

def hexValue (cs : Chars) : Nat := cs.foldl (fun n c => n * 16 + (hexDigit? c).getD 0) 0

def group? (cs : Chars) : Option (UInt16 × Chars) :=
  let ds := cs.takeWhile (fun c => (hexDigit? c).isSome)
  if ds.isEmpty || ds.length > 4 then none
  else some (UInt16.ofNat (hexValue ds), cs.drop ds.length)

def separator? (first : Bool) (cs : Chars) : Option Chars := if first then some cs else colon? cs

def pairUp (a b : UInt8) : UInt16 := UInt16.ofNat (a.toNat * 256 + b.toNat)

/-- At most `limit` groups; the flag tells whether they end with an address of four decimal numbers,
which counts for two groups. Reading stops where no further group follows. -/
def groups (first : Bool) : Nat → Chars → List UInt16 × Bool × Chars
  | 0, cs => ([], false, cs)
  | limit + 1, cs =>
      let embedded := if limit = 0 then none else (separator? first cs).bind v4?
      match embedded with
      | some ((a, b, c, d), cs) => ([pairUp a b, pairUp c d], true, cs)
      | none =>
          match (separator? first cs).bind group? with
          | none => ([], false, cs)
          | some (g, cs) =>
              let (gs, embedded, cs) := groups false limit cs
              (g :: gs, embedded, cs)

def v6? (cs : Chars) : Option (List UInt16 × Chars) := do
  let (head, embedded, cs) := groups true 8 cs
  if head.length = 8 then return (head, cs)
  if embedded then none
  let (tail, _, cs) := groups true (7 - head.length) (← colon? (← colon? cs))
  return (head ++ List.replicate (8 - head.length - tail.length) 0 ++ tail, cs)

def parse? (text : String) : Option Address :=
  match v4? text.toList with
  | some ((a, b, c, d), rest) => if rest.isEmpty then some (v4 a b c d) else none
  | none =>
      match v6? text.toList with
      | some (gs, rest) => if rest.isEmpty then some (v6 gs) else none
      | none => none

def v4Text (a b c d : UInt8) : String := s!"{a.toNat}.{b.toNat}.{c.toNat}.{d.toNat}"

def groupText (g : UInt16) : String := String.ofList (Nat.toDigits 16 g.toNat)

def groupsText (gs : List UInt16) : String := String.intercalate ":" (gs.map groupText)

def zeros (gs : List UInt16) : Nat := (gs.takeWhile (· == 0)).length

def longestZeros : Nat → List UInt16 → Nat × Nat
  | _, [] => (0, 0)
  | i, g :: gs =>
      let here := zeros (g :: gs)
      let (place, length) := longestZeros (i + 1) gs
      if here ≥ length then (i, here) else (place, length)

/-- A run of two or more zero groups is left out, and an address that stands for one of four decimal
numbers shows them. -/
def v6Text (gs : List UInt16) : String :=
  match gs with
  | [0, 0, 0, 0, 0, 0xffff, g, h] =>
      s!"::ffff:{v4Text (g >>> 8).toUInt8 g.toUInt8 (h >>> 8).toUInt8 h.toUInt8}"
  | _ =>
      let (place, length) := longestZeros 0 gs
      if length > 1 then s!"{groupsText (gs.take place)}::{groupsText (gs.drop (place + length))}"
      else groupsText gs

def display : Address → String
  | v4 a b c d => v4Text a b c d
  | v6 gs => v6Text gs

end Address

end AwaitStore.Config
