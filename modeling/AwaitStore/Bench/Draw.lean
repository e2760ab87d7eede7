import Std.Data.ExtTreeSet

namespace AwaitStore.Bench

class Source (ρ : Type) where
  next : ρ → UInt64 × ρ

/-- A counter that grows by a fixed odd step, its bits mixed. -/
structure SplitMix where
  state : UInt64

def SplitMix.mix (z : UInt64) : UInt64 :=
  let z := (z ^^^ (z >>> 30)) * 0xbf58476d1ce4e5b9
  let z := (z ^^^ (z >>> 27)) * 0x94d049bb133111eb
  z ^^^ (z >>> 31)

def SplitMix.next (s : SplitMix) : UInt64 × SplitMix :=
  let state := s.state + 0x9e3779b97f4a7c15
  (mix state, ⟨state⟩)

instance : Source SplitMix := ⟨SplitMix.next⟩

/-- The words of a list, and those of a mixed counter once they are used up. -/
structure Recorded where
  words : List UInt64
  rest : SplitMix

def Recorded.next (r : Recorded) : UInt64 × Recorded :=
  match r.words with
  | word :: words => (word, { r with words })
  | [] => let (word, rest) := r.rest.next; (word, { r with rest })

def Recorded.ofWords (words : List UInt64) : Recorded := ⟨words, ⟨0⟩⟩

instance : Source Recorded := ⟨Recorded.next⟩

/-- What is drawn is computed from the words of a source. A draw that may refuse words tries a given
number of them and fails after that. -/
abbrev Draw (ρ : Type) := StateT ρ Option

namespace Draw

variable {ρ α : Type} [Source ρ]

def word : Draw ρ UInt64 := fun source => some (Source.next source)

/-- A double from the upper 53 bits of a word, at least 0 and below 1. -/
def unit : Draw ρ Float := do
  let w ← word
  pure ((w >>> 11).toFloat / 9007199254740992)

def accepted (accept : UInt64 → Option α) : Nat → Draw ρ α
  | 0 => failure
  | tries + 1 => do
      match accept (← word) with
      | some a => pure a
      | none => accepted accept tries

/-- The upper word of `w * range`, unless the lower one is above `zone`. It is below `range`, and each
number is hit by equally many words when `zone + 1` is a multiple of `range`. -/
def scaled (range zone : UInt64) (w : UInt64) : Option UInt64 :=
  let product := w.toNat * range.toNat
  if product % UInt64.size ≤ zone.toNat then some (product / UInt64.size).toUInt64 else none

def exactZone (range : UInt64) : UInt64 := 0xffffffffffffffff - (0xffffffffffffffff - range + 1) % range

/-- A zone that is cheaper to find: the range, shifted until its first bit is set. -/
def shiftedZone (range : UInt64) : UInt64 := (range <<< (63 - range.toNat.log2).toUInt64) - 1

def place (tries count : Nat) : Draw ρ Nat := do
  let range := count.toUInt64
  let n ← accepted (scaled range (shiftedZone range)) tries
  pure n.toNat

def letters : List Char := "ABCDEFGHIJKLMNOPQRSTUVWXYZabcdefghijklmnopqrstuvwxyz0123456789".toList

def letter? (w : UInt64) : Option Char := letters[(w.toUInt32 >>> 26).toNat]?

def characters (tries : Nat) : Nat → Draw ρ (List Char)
  | 0 => pure []
  | n + 1 => do
      let c ← accepted letter? tries
      let rest ← characters tries n
      pure (c :: rest)

def text (tries length : Nat) : Draw ρ String := do
  let cs ← characters tries length
  pure (String.ofList cs)

def littleEndian (w : UInt64) : List UInt8 := (List.range 8).map fun i => (w >>> (8 * i).toUInt64).toUInt8

/-- Eight bytes from each word, of which the last word may give fewer. -/
def bytes : Nat → Draw ρ (List UInt8)
  | n + 8 => do
      let w ← word
      let rest ← bytes n
      pure (littleEndian w ++ rest)
  | 0 => pure []
  | n => do
      let w ← word
      pure ((littleEndian w).take n)

def different [Ord α] [Std.TransOrd α] (item : Draw ρ α) (count : Nat) :
    Nat → Std.ExtTreeSet α → Draw ρ (Std.ExtTreeSet α)
  | tries, found =>
      if found.size ≥ count then pure found
      else
        match tries with
        | 0 => failure
        | tries + 1 => do
            let a ← item
            different item count tries (found.insert a)

end Draw

end AwaitStore.Bench
