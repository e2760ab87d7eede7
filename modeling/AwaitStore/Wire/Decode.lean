import AwaitStore.Wire.Fault
import AwaitStore.Wire.Word

namespace AwaitStore.Wire

/-- What is left of a payload, and how much of it has been read. -/
structure Cursor where
  rest : Bytes
  offset : Nat

abbrev Read := StateT Cursor (Except BodyFault)

namespace Read

def fail {α : Type} (fault : BodyFault) : Read α := fun _ => .error fault

def take (n : Nat) : Read Bytes := fun c =>
  let (front, rest) := c.rest.splitAt n
  if front.length = n then .ok (front, ⟨rest, c.offset + n⟩)
  else .error (.truncated c.offset)

def int32 : Read Int32 := do
  match ← take 4 with
  | [b₃, b₂, b₁, b₀] => return (ofWord32 b₃ b₂ b₁ b₀).toInt32
  | _ => return 0

def length (field : Field) (n : Int32) : Read Nat :=
  if n < 0 then fail (.invalid field (.negativeLength n)) else pure n.toInt.toNat

def text (field : Field) : Read String := do
  match ← take 2 with
  | [b₁, b₀] =>
      match Text.ofUtf8 (← take (ofWord16 b₁ b₀).toNat) with
      | .ok s => return s
      | .error fault => fail (.invalid field (.utf8 fault))
  | _ => return ""

def bytes (field : Field) : Read Bytes := do
  take (← length field (← int32))

def optionalBytes (field : Field) : Read (Option Bytes) := do
  let n ← int32
  if n = -1 then return none
  return some (← take (← length field n))

/-- The number of entries of a collection. One that the bytes left cannot hold, at `least` bytes an
entry, is refused before any entry is read. -/
def count (field : Field) (least : Nat) : Read Nat := do
  let n ← length field (← int32)
  let c ← get
  if n > c.rest.length / least then fail (.truncated c.offset)
  return n

/-- The last value of a repeated key stays. -/
def entries : Nat → Table → Read Table
  | 0, table => pure table
  | n + 1, table => do
      let key ← text .key
      let value ← bytes .value
      entries n (table.insert key value)

def members : Nat → KeySet → Read KeySet
  | 0, set => pure set
  | n + 1, set => do
      let key ← text .key
      members n (set.insert key)

def pairs : Read Table := do entries (← count .pairs 6) ∅

def keys : Read KeySet := do members (← count .keys 2) ∅

def status : Read AuthStatus := do
  let code ← int32
  match AuthStatus.ofCode? code with
  | some status => return status
  | none => fail (.invalid .status (.unknownCode code))

def done : Read Unit := fun c =>
  if c.rest.isEmpty then .ok ((), c) else .error (.trailing c.rest.length)

end Read

open Read in
def Kind.read : Kind → Read Message
  | .putRequest => return .putRequest (← int32) (← text .key) (← bytes .value)
  | .getRequest => return .getRequest (← int32) (← text .key)
  | .multiPutRequest => return .multiPutRequest (← int32) (← pairs)
  | .multiGetRequest => return .multiGetRequest (← int32) (← keys)
  | .getWhenRequest =>
      return .getWhenRequest (← int32) (← text .key) (← text .keyCond) (← bytes .valueCond)
  | .putResponse => return .putResponse (← int32)
  | .getResponse => return .getResponse (← int32) (← optionalBytes .value)
  | .multiGetResponse => return .multiGetResponse (← int32) (← pairs)
  | .authRequest => return .authRequest (← text .username) (← text .password)
  | .authResponse => return .authResponse (← status)
  | .errorResponse => return .errorResponse (← int32) (← text .message)

def Kind.readWhole (kind : Kind) : Read Message := do
  let m ← kind.read
  Read.done
  return m

def decode : Bytes → Except WireError Message
  | [] => .error .emptyFrame
  | tag :: payload =>
      match Kind.ofTag? tag with
      | none => .error (.unknownTag tag)
      | some kind =>
          match kind.readWhole ⟨payload, 0⟩ with
          | .ok (m, _) => .ok m
          | .error fault => .error (.body kind fault)

end AwaitStore.Wire
