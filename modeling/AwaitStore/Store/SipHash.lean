import AwaitStore.Text.Utf8

namespace AwaitStore.Store.SipHash

structure State where
  v0 : UInt64
  v1 : UInt64
  v2 : UInt64
  v3 : UInt64
  deriving DecidableEq, Repr

/-- The four words of "somepseudorandomlygeneratedbytes", which the zero key leaves as they are. -/
def State.initial : State :=
  ⟨0x736f6d6570736575, 0x646f72616e646f6d, 0x6c7967656e657261, 0x7465646279746573⟩

def rotateLeft (x r : UInt64) : UInt64 := (x <<< r) ||| (x >>> (64 - r))

def State.round (s : State) : State :=
  let v0 := s.v0 + s.v1
  let v1 := rotateLeft s.v1 13 ^^^ v0
  let v0 := rotateLeft v0 32
  let v2 := s.v2 + s.v3
  let v3 := rotateLeft s.v3 16 ^^^ v2
  let v0 := v0 + v3
  let v3 := rotateLeft v3 21 ^^^ v0
  let v2 := v2 + v1
  let v1 := rotateLeft v1 17 ^^^ v2
  let v2 := rotateLeft v2 32
  ⟨v0, v1, v2, v3⟩

def State.absorb (s : State) (word : UInt64) : State :=
  let s := { s with v3 := s.v3 ^^^ word }.round
  { s with v0 := s.v0 ^^^ word }

def State.finish (s : State) : UInt64 :=
  let s := { s with v2 := s.v2 ^^^ 0xff }.round.round.round
  s.v0 ^^^ s.v1 ^^^ s.v2 ^^^ s.v3

def littleEndian (bytes : Bytes) : UInt64 := bytes.foldr (fun b word => word <<< 8 ||| b.toUInt64) 0

/-- Full words first; the last word holds the bytes left over and, at its top, the length. -/
def absorbAll (length : UInt64) (s : State) : Bytes → State
  | b0 :: b1 :: b2 :: b3 :: b4 :: b5 :: b6 :: b7 :: rest =>
      absorbAll length (s.absorb (littleEndian [b0, b1, b2, b3, b4, b5, b6, b7])) rest
  | rest => s.absorb (littleEndian rest ||| length <<< 56)

def hash (bytes : Bytes) : UInt64 :=
  (absorbAll (UInt64.ofNat bytes.length) State.initial bytes).finish

/-- One round per word and three at the end. The byte 255, which no text holds, ends the key. -/
def ofKey (key : Key) : UInt64 := hash (Text.utf8 key ++ [0xff])

end AwaitStore.Store.SipHash
