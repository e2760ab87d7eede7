import AwaitStore.Wire.Fault
import AwaitStore.Wire.Listing
import AwaitStore.Wire.Word

namespace AwaitStore.Wire

namespace Encode

def int32 (n : Int32) : Bytes := word32 n.toUInt32

def count (field : Field) (n : Nat) : Except BodyFault Bytes :=
  if n ≤ maxCount then .ok (word32 (UInt32.ofNat n))
  else .error (.invalid field (.countTooLarge n))

def text (field : Field) (s : String) : Except BodyFault Bytes :=
  if s.utf8ByteSize ≤ maxTextLength then
    .ok (word16 (UInt16.ofNat s.utf8ByteSize) ++ Text.utf8 s)
  else .error (.invalid field (.textTooLong s.utf8ByteSize))

def bytes (field : Field) (value : Bytes) : Except BodyFault Bytes := do
  return (← count field value.length) ++ value

def optionalBytes (field : Field) : Option Bytes → Except BodyFault Bytes
  | some value => bytes field value
  | none => .ok (int32 (-1))

def pair (entry : Key × Value) : Except BodyFault Bytes := do
  return (← text .key entry.1) ++ (← bytes .value entry.2)

def pairs (entries : List (Key × Value)) : Except BodyFault Bytes := do
  return (← count .pairs entries.length) ++ (← entries.mapM pair).flatten

def keys (entries : List Key) : Except BodyFault Bytes := do
  return (← count .keys entries.length) ++ (← entries.mapM (text .key)).flatten

end Encode

namespace Message

open Encode

def fields (listing : Listing) : Message → Except BodyFault Bytes
  | putRequest id key value => return int32 id ++ (← text .key key) ++ (← bytes .value value)
  | getRequest id key => return int32 id ++ (← text .key key)
  | multiPutRequest id pairs => return int32 id ++ (← Encode.pairs (listing.pairs pairs))
  | multiGetRequest id keys => return int32 id ++ (← Encode.keys (listing.keys keys))
  | getWhenRequest id key keyCond valueCond =>
      return int32 id ++ (← text .key key) ++ (← text .keyCond keyCond) ++ (← bytes .valueCond valueCond)
  | putResponse id => return int32 id
  | getResponse id value => return int32 id ++ (← optionalBytes .value value)
  | multiGetResponse id pairs => return int32 id ++ (← Encode.pairs (listing.pairs pairs))
  | authRequest username password => return (← text .username username) ++ (← text .password password)
  | authResponse status => return int32 status.code
  | errorResponse id message => return int32 id ++ (← text .message message)

/-- The tag, then the fields in order. Integers are big-endian, a string has a 16-bit length in front of
it, a byte string and a collection a 32-bit one, and an absent value is the length -1. -/
def encode (listing : Listing) (m : Message) : Except WireError Bytes :=
  match m.fields listing with
  | .ok payload => .ok (m.kind.tag :: payload)
  | .error fault => .error (.body m.kind fault)

end Message

end AwaitStore.Wire
