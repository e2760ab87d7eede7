namespace AwaitStore

inductive CapacityFault where
  | sequence
  | table
  deriving DecidableEq, Repr

def CapacityFault.message : CapacityFault → String
  | sequence => "capacity overflow"
  | table => "Hash table capacity overflow"

namespace Capacity

/-- No block of memory may have more bytes than a signed word can count. -/
def maxBytes : Nat := 9223372036854775807

def holdsSequence (width count : Nat) : Bool := width * count ≤ maxBytes

/-- The places of a table are a power of two, and at most seven eighths of them are used. -/
def places (count : Nat) : Nat := (8 * count / 7).nextPowerOfTwo

/-- A table keeps one byte for each place beside the entry, and 16 more at the end; its block starts at a
multiple of 16. -/
def holdsTable (width count : Nat) : Bool := (width + 1) * places count + 16 ≤ maxBytes - 15

def sequence (width count : Nat) : Except CapacityFault Unit :=
  if holdsSequence width count then .ok () else .error .sequence

def table (width count : Nat) : Except CapacityFault Unit :=
  if holdsTable width count then .ok () else .error .table

def handleWidth : Nat := 24

end Capacity

end AwaitStore
