import AwaitStore.Wire.Decode
import AwaitStore.Wire.Encode

namespace AwaitStore.Wire

def headerLength : Nat := 4

def maxFrameLength : Nat := 4294967295

def defaultMaxFrame : Nat := 16777216

def frame (listing : Listing) (m : Message) : Except WireError Bytes :=
  match m.encode listing with
  | .error e => .error e
  | .ok body =>
      if body.length ≤ maxFrameLength then .ok (word32 (UInt32.ofNat body.length) ++ body)
      else .error (.frameTooLarge body.length maxFrameLength)

def checkLength (length limit : Nat) : Except WireError Unit :=
  if length = 0 then .error .emptyFrame
  else if length > limit then .error (.frameTooLarge length limit)
  else .ok ()

/-- A header that is refused uses up its own bytes only; a stream that ends too early is used up. -/
def readFrame (limit : Nat) : Bytes → Except WireError Message × Bytes
  | b₃ :: b₂ :: b₁ :: b₀ :: stream =>
      let length := (ofWord32 b₃ b₂ b₁ b₀).toNat
      match checkLength length limit with
      | .error e => (.error e, stream)
      | .ok () =>
          let (body, rest) := stream.splitAt length
          if body.length = length then (decode body, rest) else (.error .endOfStream, [])
  | _ => (.error .endOfStream, [])

/-- Frames written one after another. A message that cannot be encoded leaves nothing behind. -/
def writeFrames (listing : Listing) : List Message → Bytes × List WireError
  | [] => ([], [])
  | m :: rest =>
      let (written, errors) := writeFrames listing rest
      match frame listing m with
      | .ok f => (f ++ written, errors)
      | .error e => (written, e :: errors)

end AwaitStore.Wire
