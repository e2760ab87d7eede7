import AwaitStore.Text.Utf8
import AwaitStore.Wire.Message

namespace AwaitStore.Wire

inductive Field where
  | pairs
  | keys
  | key
  | value
  | keyCond
  | valueCond
  | username
  | password
  | status
  | message
  deriving DecidableEq, Repr

def Field.name : Field → String
  | pairs => "pairs"
  | keys => "keys"
  | key => "key"
  | value => "value"
  | keyCond => "key_cond"
  | valueCond => "value_cond"
  | username => "username"
  | password => "password"
  | status => "status"
  | message => "message"

def maxTextLength : Nat := 65535

def maxCount : Nat := 2147483647

inductive FieldFault where
  | textTooLong (length : Nat)
  | countTooLarge (count : Nat)
  | negativeLength (length : Int32)
  | unknownCode (code : Int32)
  | utf8 (fault : Text.Utf8Fault)
  deriving DecidableEq, Repr

def FieldFault.message : FieldFault → String
  | textTooLong length => s!"{length} bytes exceeds {maxTextLength}"
  | countTooLarge count => s!"{count} exceeds i32"
  | negativeLength length => s!"negative length {length.toInt}"
  | unknownCode code => s!"unknown code {code.toInt}"
  | utf8 fault => fault.message

/-- A fault inside a body; `offset` counts from the first byte after the tag. -/
inductive BodyFault where
  | truncated (offset : Nat)
  | trailing (count : Nat)
  | invalid (field : Field) (fault : FieldFault)
  deriving DecidableEq, Repr

inductive WireError where
  | endOfStream
  | streamFailed
  | frameTooLarge (length limit : Nat)
  | emptyFrame
  | unknownTag (tag : UInt8)
  | body (kind : Kind) (fault : BodyFault)
  deriving DecidableEq, Repr

def WireError.message : WireError → String
  | endOfStream | streamFailed => "I/O error"
  | frameTooLarge length limit => s!"frame of {length} bytes exceeds limit of {limit} bytes"
  | emptyFrame => "empty frame"
  | unknownTag tag => s!"unknown message tag: {tag.toNat}"
  | body kind (.truncated offset) => s!"truncated {kind.name} at offset {offset}"
  | body kind (.trailing count) => s!"{count} trailing bytes after {kind.name}"
  | body kind (.invalid field fault) => s!"invalid {field.name} in {kind.name}: {fault.message}"

end AwaitStore.Wire
