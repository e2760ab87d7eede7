import AwaitStore.Shell.Command
import Mathlib

namespace AwaitStore

open Shell in
def Operation.verb : Operation → Verb
  | .put .. => .put
  | .get .. => .get
  | .multiPut .. => .multiPut
  | .multiGet .. => .multiGet
  | .getWhen .. => .getWhen

namespace Shell.Grammar

open Text

def blanks : Language Char := {cs | ∀ c ∈ cs, isBlank c}

def gap : Language Char := {cs | cs ≠ [] ∧ ∀ c ∈ cs, isBlank c}

def listed {α : Type} (separator : Language Char) (item : α → Language Char) : List α → Language Char
  | [] => 1
  | first :: rest => item first * (rest.map fun a => separator * item a).prod

def name (verb : Verb) : Language Char :=
  {cs | List.Forall₂ (fun c letter => c = letter ∨ c = letter.toLower) cs verb.name.toList}

def key (k : Key) : Language Char := {cs | cs = k.toList ∧ cs ≠ [] ∧ ∀ c ∈ cs, c.isAlphanum}

/-- Leading zeros do not count. -/
def digits (n : Nat) : Language Char := {cs | cs ≠ [] ∧ (∀ c ∈ cs, c.isDigit) ∧ Nat.ofDigitChars 10 cs 0 = n}

def number (n : Int) : Language Char :=
  {cs | ∃ k : Nat, ∃ ds ∈ digits k, n = k ∧ (cs = ds ∨ cs = '+' :: ds) ∨ n = -k ∧ cs = '-' :: ds}

def element (b : UInt8) : Language Char :=
  {cs | ∃ n : Int, -128 ≤ n ∧ n ≤ 127 ∧ (b.toNat : Int) = n % 256 ∧ cs ∈ blanks * number n * blanks}

def items : Value → Language Char
  | [] => blanks
  | b :: rest => listed {[',']} element (b :: rest)

def array (v : Value) : Language Char := {['[']} * items v * {[']']}

def group (entry : Key × Value) : Language Char := key entry.1 * gap * array entry.2

/-- Of a key that is put more than once the last value counts. -/
def arguments : Operation → Language Char
  | .put k v => key k * gap * array v
  | .get k => key k
  | .multiPut table =>
      {cs | ∃ entries : List (Key × Value), entries ≠ [] ∧
        (∀ k, table[k]? = entries.reverse.lookup k) ∧ cs ∈ listed blanks group entries}
  | .multiGet set =>
      {cs | ∃ entries : List Key, entries ≠ [] ∧ (∀ k, k ∈ set ↔ k ∈ entries) ∧ cs ∈ listed gap key entries}
  | .getWhen wish => key wish.key * gap * key wish.keyCond * gap * array wish.valueCond

def operation (op : Operation) : Language Char := name op.verb * gap * arguments op

def ampersand (background : Bool) : Language Char := if background then blanks * {['&']} else 1

def line (c : Command) : Language Char := blanks * operation c.operation * ampersand c.background * blanks

end Shell.Grammar

end AwaitStore
