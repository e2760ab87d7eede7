import AwaitStore.Wire.FrameReader

namespace AwaitStore.Wire

/-- A stream that may still grow. As long as it has not ended, a frame can be read only when all of it
is there, or enough to refuse it. -/
structure Incoming where
  bytes : Bytes
  ended : Bool
  deriving DecidableEq, Repr

namespace Incoming

def empty : Incoming := ⟨[], false⟩

def arrive (more : Bytes) (s : Incoming) : Incoming := { s with bytes := s.bytes ++ more }

def finish (s : Incoming) : Incoming := { s with ended := true }

def isOver (s : Incoming) : Bool := s.ended && s.bytes.isEmpty

def isReady (limit : Nat) (s : Incoming) : Bool :=
  s.ended ||
    match s.bytes with
    | b₃ :: b₂ :: b₁ :: b₀ :: stream =>
        let length := (ofWord32 b₃ b₂ b₁ b₀).toNat
        match checkLength length limit with
        | .error _ => true
        | .ok () => length ≤ stream.length
    | _ => false

/-- The next message, `none` inside if the stream ends between two frames. -/
def readMessage (limit : Nat) (s : Incoming) : Except WireError (Option Message) × Incoming :=
  let (result, reader) := (FrameReader.ofPieces limit [s.bytes]).readMessage
  (result, { s with bytes := reader.unread })

end Incoming

end AwaitStore.Wire
