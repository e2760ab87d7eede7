import AwaitStore.Data
import AwaitStore.Text.Blank

namespace AwaitStore.Shell.Literal

open Text

def signed (b : UInt8) : Int := b.toInt8.toInt

def ofSigned? (n : Int) : Option UInt8 := if -128 ≤ n ∧ n ≤ 127 then some (Int8.ofInt n).toUInt8 else none

def byte? : Chars → Option UInt8
  | '-' :: cs => (number? 128 cs).bind fun n => ofSigned? (-n)
  | '+' :: cs => (number? 127 cs).bind fun n => ofSigned? n
  | cs => (number? 127 cs).bind fun n => ofSigned? n

def bytes (value : Value) : String := "[" ++ String.intercalate ", " (value.map fun b => toString (signed b)) ++ "]"

def render : Option Value → String
  | some value => bytes value
  | none => "null"

end AwaitStore.Shell.Literal
