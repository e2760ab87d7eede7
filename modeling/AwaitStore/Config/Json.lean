import AwaitStore.Text.Blank

namespace AwaitStore.Config

open Text (Chars isDigit digitsUpTo? hexDigit?)

def maxWord : Nat := UInt64.size - 1

/-- A number is kept if it is natural, fits in a word and is written without sign, fraction and
exponent; of any other number only the kind is kept. -/
inductive Json where
  | null
  | bool (b : Bool)
  | natural (n : Nat)
  | otherNumber
  | string (s : String)
  | array (items : List Json)
  /-- The fields in the order they are written; names may repeat. -/
  | object (fields : List (String × Json))

namespace Json

def isBlank (c : Char) : Bool := c == ' ' || c == '\t' || c == '\n' || c == '\r'

def skipBlanks (cs : Chars) : Chars := cs.dropWhile isBlank

def unit? (a b c d : Char) : Option Nat := do
  return (((← hexDigit? a) * 16 + (← hexDigit? b)) * 16 + (← hexDigit? c)) * 16 + (← hexDigit? d)

def isHighSurrogate (n : Nat) : Bool := 0xD800 ≤ n && n < 0xDC00

def isLowSurrogate (n : Nat) : Bool := 0xDC00 ≤ n && n < 0xE000

def escape? : Chars → Option (Char × Chars)
  | '"' :: cs => some ('"', cs)
  | '\\' :: cs => some ('\\', cs)
  | '/' :: cs => some ('/', cs)
  | 'b' :: cs => some ('\x08', cs)
  | 'f' :: cs => some ('\x0c', cs)
  | 'n' :: cs => some ('\n', cs)
  | 'r' :: cs => some ('\r', cs)
  | 't' :: cs => some ('\t', cs)
  | 'u' :: a :: b :: c :: d :: cs => do
      let n ← unit? a b c d
      if isLowSurrogate n then none
      else if isHighSurrogate n then
        match cs with
        | '\\' :: 'u' :: a :: b :: c :: d :: cs =>
            let m ← unit? a b c d
            if isLowSurrogate m then some (Char.ofNat (0x10000 + (n - 0xD800) * 0x400 + (m - 0xDC00)), cs)
            else none
        | _ => none
      else some (Char.ofNat n, cs)
  | _ => none

def stringRest? : Nat → Chars → Chars → Option (String × Chars)
  | 0, _, _ => none
  | fuel + 1, done, cs =>
      match cs with
      | [] => none
      | '"' :: cs => some (String.ofList done.reverse, cs)
      | '\\' :: cs => do
          let (c, cs) ← escape? cs
          stringRest? fuel (c :: done) cs
      | c :: cs => if c.toNat < 0x20 then none else stringRest? fuel (c :: done) cs

def string? (limit : Nat) : Chars → Option (String × Chars)
  | '"' :: cs => stringRest? limit [] cs
  | _ => none

def digits? (cs : Chars) : Option (Chars × Chars) :=
  if (cs.takeWhile isDigit).isEmpty then none else some (cs.takeWhile isDigit, cs.dropWhile isDigit)

def integer? : Chars → Option (Option Nat × Chars)
  | '0' :: cs => some (some 0, cs)
  | cs => (digits? cs).map fun (ds, cs) => (digitsUpTo? maxWord ds, cs)

def fraction? : Chars → Option (Bool × Chars)
  | '.' :: cs => (digits? cs).map fun (_, cs) => (true, cs)
  | cs => some (false, cs)

def exponent? : Chars → Option (Bool × Chars)
  | c :: cs =>
      if c = 'e' ∨ c = 'E' then
        let cs := match cs with
          | '+' :: cs => cs
          | '-' :: cs => cs
          | cs => cs
        (digits? cs).map fun (_, cs) => (true, cs)
      else some (false, c :: cs)
  | [] => some (false, [])

def number? (cs : Chars) : Option (Json × Chars) := do
  let (negative, cs) := match cs with
    | '-' :: cs => (true, cs)
    | cs => (false, cs)
  let (n, cs) ← integer? cs
  let (fraction, cs) ← fraction? cs
  let (exponent, cs) ← exponent? cs
  return (if negative || fraction || exponent then otherNumber else n.elim otherNumber natural, cs)

def word? (word : String) (j : Json) (cs : Chars) : Option (Json × Chars) :=
  if word.toList.isPrefixOf cs then some (j, cs.drop word.length) else none

def items? {α : Type} (item : Chars → Option (α × Chars)) (close : Char) :
    Nat → List α → Chars → Option (List α × Chars)
  | 0, _, _ => none
  | fuel + 1, done, cs => do
      let (a, cs) ← item (skipBlanks cs)
      match skipBlanks cs with
      | [] => none
      | c :: cs =>
          if c = close then some ((a :: done).reverse, cs)
          else if c = ',' then items? item close fuel (a :: done) cs
          else none

def list? {α : Type} (limit : Nat) (item : Chars → Option (α × Chars)) (close : Char) (cs : Chars) :
    Option (List α × Chars) :=
  match skipBlanks cs with
  | [] => none
  | c :: rest => if c = close then some ([], rest) else items? item close limit [] (c :: rest)

def field? (limit : Nat) (value : Chars → Option (Json × Chars)) (cs : Chars) :
    Option ((String × Json) × Chars) := do
  let (name, cs) ← string? limit cs
  match skipBlanks cs with
  | ':' :: cs => do
      let (j, cs) ← value (skipBlanks cs)
      return ((name, j), cs)
  | _ => none

/-- A value that nests less than `depth` arrays and objects. No string and no list in it is longer than
`limit`. -/
def value? (limit : Nat) : Nat → Chars → Option (Json × Chars)
  | 0, _ => none
  | depth + 1, cs =>
      match cs with
      | '[' :: cs => do
          let (items, cs) ← list? limit (value? limit depth) ']' cs
          return (array items, cs)
      | '\x7b' :: cs => do
          let (fields, cs) ← list? limit (field? limit (value? limit depth)) '\x7d' cs
          return (object fields, cs)
      | '"' :: _ => (string? limit cs).map fun (s, cs) => (string s, cs)
      | 'n' :: _ => word? "null" null cs
      | 't' :: _ => word? "true" (bool true) cs
      | 'f' :: _ => word? "false" (bool false) cs
      | _ => number? cs

def maxDepth : Nat := 128

def parse? (text : String) : Option Json := do
  let cs := text.toList
  let (j, rest) ← value? cs.length maxDepth (skipBlanks cs)
  if (skipBlanks rest).isEmpty then return j else none

/-- The fields of a record. An object holds each known field at most once and no other; an array holds
them in order and may leave out the last ones. -/
def record? (names : List String) : Json → Option (List (String × Json))
  | array items => if items.length ≤ names.length then some (names.zip items) else none
  | object fields =>
      if fields.all (fun f => names.contains f.1 && (fields.filter (fun g => g.1 == f.1)).length == 1) then
        some fields
      else none
  | _ => none

def get? {α : Type} (fields : List (String × Json)) (name : String) (default : α)
    (read : Json → Option α) : Option α :=
  match fields.lookup name with
  | none => some default
  | some j => read j

def natural? (max : Nat) : Json → Option Nat
  | natural n => if n ≤ max then some n else none
  | _ => none

def text? : Json → Option String
  | string s => some s
  | _ => none

def optionalText? : Json → Option (Option String)
  | null => some none
  | string s => some (some s)
  | _ => none

end Json

end AwaitStore.Config
