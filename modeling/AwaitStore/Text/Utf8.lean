import AwaitStore.Data

namespace AwaitStore.Text

def utf8 (text : String) : Bytes := text.toUTF8.data.toList

theorem length_utf8 (text : String) : (utf8 text).length = text.utf8ByteSize := by
  rfl

/-- Where bytes stop being UTF-8: a sequence that no further byte can mend, with the number of bytes
to skip over, or a character cut short by the end of the bytes. -/
inductive Utf8Fault where
  | invalid (length index : Nat)
  | incomplete (index : Nat)
  deriving DecidableEq, Repr

def Utf8Fault.message : Utf8Fault → String
  | .invalid length index => s!"invalid utf-8 sequence of {length} bytes from index {index}"
  | .incomplete index => s!"incomplete utf-8 byte sequence from index {index}"

/-- What the first byte of a character asks for: the number of bytes that follow it and the range of
the first of those. The ranges leave out overlong forms, surrogates and all above U+10FFFF. -/
structure Lead where
  owed : Nat
  low : UInt8
  high : UInt8
  deriving DecidableEq, Repr

def Lead.ofByte? (b : UInt8) : Option Lead :=
  if b < 0x80 then some ⟨0, 0x80, 0xBF⟩
  else if b < 0xC2 then none
  else if b < 0xE0 then some ⟨1, 0x80, 0xBF⟩
  else if b = 0xE0 then some ⟨2, 0xA0, 0xBF⟩
  else if b = 0xED then some ⟨2, 0x80, 0x9F⟩
  else if b < 0xF0 then some ⟨2, 0x80, 0xBF⟩
  else if b = 0xF0 then some ⟨3, 0x90, 0xBF⟩
  else if b < 0xF4 then some ⟨3, 0x80, 0xBF⟩
  else if b = 0xF4 then some ⟨3, 0x80, 0x8F⟩
  else none

/-- The first fault of bytes that are not UTF-8, read from a place where a character starts at `start`,
`seen` of its bytes have been read and `lead` states what is to come. -/
def faultFrom (start seen : Nat) (lead : Lead) : Bytes → Utf8Fault
  | [] => .incomplete start
  | b :: rest =>
      if lead.owed = 0 then
        match Lead.ofByte? b with
        | some next => faultFrom (start + seen) 1 next rest
        | none => .invalid 1 (start + seen)
      else if lead.low ≤ b ∧ b ≤ lead.high then
        faultFrom start (seen + 1) ⟨lead.owed - 1, 0x80, 0xBF⟩ rest
      else .invalid seen start

def fault (bytes : Bytes) : Utf8Fault := faultFrom 0 0 ⟨0, 0x80, 0xBF⟩ bytes

def ofUtf8 (bytes : Bytes) : Except Utf8Fault String :=
  match String.fromUTF8? ⟨bytes.toArray⟩ with
  | some text => .ok text
  | none => .error (fault bytes)

end AwaitStore.Text
