import AwaitStore.Operation
import AwaitStore.Shell.Literal

namespace AwaitStore.Shell

open Text

inductive Verb where
  | put
  | get
  | multiPut
  | multiGet
  | getWhen
  deriving DecidableEq, Repr

namespace Verb

def name : Verb → String
  | put => "PUT"
  | get => "GET"
  | multiPut => "MULTIPUT"
  | multiGet => "MULTIGET"
  | getWhen => "GETWHEN"

def all : List Verb := [put, get, multiPut, multiGet, getWhen]

/-- Names are read in any case of ASCII letters. -/
def ofWord? (word : Chars) : Option Verb :=
  all.find? fun verb => verb.name.toList = word.map Char.toUpper

end Verb

inductive Role where
  | key
  | conditionalKey
  deriving DecidableEq, Repr

def Role.name : Role → String
  | key => "key"
  | conditionalKey => "conditional key"

inductive CommandError where
  | unknownCommand
  | wrongArgumentCount (verb : Verb)
  | nonAlphanumericKey (verb : Verb) (role : Role) (key : String)
  | invalidArray (verb : Verb) (array : String)
  | invalidByte (verb : Verb) (element : String)
  deriving DecidableEq, Repr

def CommandError.message : CommandError → String
  | unknownCommand => "Unknown command"
  | wrongArgumentCount verb => s!"Wrong number of {verb.name} arguments"
  | nonAlphanumericKey verb role key => s!"Non-alphanumeric {verb.name} {role.name}: {key}"
  | invalidArray verb array => s!"Invalid array in {verb.name} command: {array}"
  | invalidByte verb element => s!"Invalid byte in array in {verb.name} command: {element}"

/-- A line is a command name and its arguments, and a final `&` sends the command to the background:

    PUT key [1, 2, 3]
    GET key
    MULTIPUT key1 [1] key2 [-1, 2]
    MULTIGET key1 key2
    GETWHEN key keyCond [1]
-/
structure Command where
  operation : Operation
  background : Bool
  deriving DecidableEq

def isKeyChar (c : Char) : Bool :=
  ('a' ≤ c && c ≤ 'z') || ('A' ≤ c && c ≤ 'Z') || ('0' ≤ c && c ≤ '9')

namespace Command

def key (verb : Verb) (role : Role) (word : Chars) : Except CommandError Key :=
  if word ≠ [] ∧ word.all isKeyChar then .ok (String.ofList word)
  else .error (.nonAlphanumericKey verb role (String.ofList word))

def inside? : Chars → Option Chars
  | '[' :: rest => if rest.getLast? = some ']' then some rest.dropLast else none
  | _ => none

def element (verb : Verb) (part : Chars) : Except CommandError UInt8 :=
  let part := trim part
  match Literal.byte? part with
  | some b => .ok b
  | none => .error (.invalidByte verb (String.ofList part))

def value (verb : Verb) (array : Chars) : Except CommandError Value :=
  match inside? array with
  | none => .error (.invalidArray verb (String.ofList array))
  | some inner => if (trim inner).isEmpty then .ok [] else (fields ',' inner).mapM (element verb)

def put (arguments : Chars) : Except CommandError Operation := do
  let (word, array) := splitWord arguments
  if array.isEmpty then .error (.wrongArgumentCount .put)
  return .put (← key .put .key word) (← value .put array)

def get (arguments : Chars) : Except CommandError Operation := do
  let (word, rest) := splitWord arguments
  if word.isEmpty || !rest.isEmpty then .error (.wrongArgumentCount .get)
  return .get (← key .get .key word)

/-- Keys and arrays in turn. An array ends with its first closing bracket, and the next key may follow
at once. -/
def pairs (arguments : Chars) (found : Table) : Except CommandError Table :=
  if arguments.isEmpty then .ok found
  else
    let parts := splitWord arguments
    if parts.2.isEmpty then .error (.wrongArgumentCount .multiPut)
    else
      match key .multiPut .key parts.1 with
      | .error e => .error e
      | .ok k =>
          match _ : cutAfter ']' parts.2 with
          | none => .error (.wrongArgumentCount .multiPut)
          | some (array, rest) =>
              match value .multiPut (trim array) with
              | .error e => .error e
              | .ok v => pairs (trimStart rest) (found.insert k v)
termination_by arguments.length
decreasing_by
  have h : cutAfter ']' (splitWord arguments).2 = some (array, rest) := by assumption
  have hlen : array.length + rest.length = (splitWord arguments).2.length := by
    rw [← List.length_append, cutAfter_append h]
  have hpos : 0 < array.length := List.length_pos_iff.mpr (cutAfter_ne_nil h)
  have := length_splitWord_snd_le arguments
  have := length_trimStart_le rest
  omega

def multiPut (arguments : Chars) : Except CommandError Operation := do
  let found ← pairs (trim arguments) ∅
  if found.isEmpty then .error (.wrongArgumentCount .multiPut)
  return .multiPut found

def multiGet (arguments : Chars) : Except CommandError Operation := do
  let keys ← (words arguments).mapM (key .multiGet .key)
  if keys.isEmpty then .error (.wrongArgumentCount .multiGet)
  return .multiGet (KeySet.ofKeys keys)

def getWhen (arguments : Chars) : Except CommandError Operation := do
  let (word, rest) := splitWord arguments
  let (condition, array) := splitWord rest
  if condition.isEmpty || array.isEmpty then .error (.wrongArgumentCount .getWhen)
  return .getWhen ⟨← key .getWhen .key word, ← key .getWhen .conditionalKey condition, ← value .getWhen array⟩

def operationOf (verb : Verb) (arguments : Chars) : Except CommandError Operation :=
  match verb with
  | .put => put arguments
  | .get => get arguments
  | .multiPut => multiPut arguments
  | .multiGet => multiGet arguments
  | .getWhen => getWhen arguments

def splitBackground (line : Chars) : Chars × Bool :=
  if line.getLast? = some '&' then (trimEnd line.dropLast, true) else (line, false)

def parseChars (line : Chars) : Except CommandError Command := do
  let (line, background) := splitBackground (trim line)
  let (word, arguments) := splitWord line
  match Verb.ofWord? word with
  | none => .error .unknownCommand
  | some verb => return ⟨← operationOf verb arguments, background⟩

def parse (line : String) : Except CommandError Command := parseChars line.toList

end Command

end AwaitStore.Shell
