import AwaitStore.Text.Blank

namespace AwaitStore.CommandLine

/-- What an option does to the settings `α`; `none` if it may not stand there, or not with this value. -/
inductive Effect (α : Type) where
  | flag (set : α → Option α)
  | value (set : String → α → Option α)
  | version
  | help

structure Switch (α : Type) where
  short : Option Char
  long : String
  /-- What the help shows behind the name: the name of a value, or dots where the option adds up. -/
  operand : String
  about : String
  effect : Effect α

structure Grammar (α : Type) where
  program : String
  options : List (Switch α)
  wordName : String
  wordAbout : String
  word : String → α → Option α

inductive Ended where
  | usage
  | version
  | help
  deriving DecidableEq, Repr

variable {α : Type}

def orUsage : Option α → Except Ended α
  | some a => .ok a
  | none => .error .usage

def isValue (word : String) : Bool := word = "-" || !word.startsWith "-"

inductive Taken (α : Type) where
  | settings (a : α)
  | needsValue (set : String → α → Option α) (a : α)

def takeOption (effect : Effect α) (attached : Option String) (a : α) : Except Ended (Taken α) :=
  match effect, attached with
  | .version, none => .error .version
  | .help, none => .error .help
  | .flag set, none => (orUsage (set a)).map .settings
  | .value set, some v => (orUsage (set v a)).map .settings
  | .value set, none => .ok (.needsValue set a)
  | .version, some _ | .help, some _ | .flag _, some _ => .error .usage

/-- One dash: letters of options, the rest of the word being the value of the first that takes one. -/
def takeShort (g : Grammar α) : List Char → α → Except Ended (Taken α)
  | [], a => .ok (.settings a)
  | c :: rest, a =>
      match g.options.find? fun o => o.short == some c with
      | none => .error .usage
      | some ⟨_, _, _, _, .value set⟩ =>
          let attached := match rest with
            | [] => none
            | '=' :: v => some (String.ofList v)
            | v => some (String.ofList v)
          takeOption (.value set) attached a
      | some ⟨_, _, _, _, effect⟩ =>
          match takeOption effect none a with
          | .ok (.settings a) => takeShort g rest a
          | other => other

def takeLong (g : Grammar α) (word : List Char) (a : α) : Except Ended (Taken α) :=
  let name := String.ofList (word.takeWhile (· != '='))
  let attached := match word.dropWhile (· != '=') with
    | [] => none
    | _ :: v => some (String.ofList v)
  match g.options.find? fun o => o.long == name with
  | none => .error .usage
  | some o => takeOption o.effect attached a

/-- From left to right up to the first fault. Options stand before, between or behind the other words;
after two dashes there are none. -/
def words (g : Grammar α) : List String → α → Except Ended α
  | [], a => .ok a
  | w :: rest, a =>
      match g.word w a with
      | none => .error .usage
      | some a => words g rest a

def takeWord (g : Grammar α) (w : String) (a : α) : Except Ended (Taken α) :=
  match w.toList with
  | '-' :: '-' :: name => takeLong g name a
  | '-' :: c :: rest => takeShort g (c :: rest) a
  | _ => (orUsage (g.word w a)).map .settings

def parse (g : Grammar α) : List String → α → Except Ended α
  | [], a => .ok a
  | w :: rest, a =>
      if w = "--" then words g rest a
      else
        match takeWord g w a, rest with
        | .error e, _ => .error e
        | .ok (.settings a), rest => parse g rest a
        | .ok (.needsValue _ _), [] => .error .usage
        | .ok (.needsValue set a), v :: rest =>
            if !isValue v then .error .usage
            else
              match set v a with
              | none => .error .usage
              | some a => parse g rest a

def once (old : Option α) (new : α) : Option (Option α) := if old.isNone then some (some new) else none

def number? (max : Nat) (word : String) : Option Nat :=
  match word.toList with
  | '+' :: digits => Text.number? max digits
  | digits => Text.number? max digits

/-- A port may also be written as a negative zero. -/
def port? (word : String) : Option Nat :=
  match word.toList with
  | '-' :: digits =>
      if !digits.isEmpty && digits.all (· == '0') then some 0 else none
  | _ => number? 65535 word

def path? (word : String) : Option String := if word.isEmpty then none else some word

structure Verbosity where
  verbose : Nat := 0
  quiet : Bool := false
  deriving DecidableEq, Repr

def Verbosity.more (v : Verbosity) : Verbosity := { v with verbose := v.verbose + 1 }

def Verbosity.silence (v : Verbosity) : Option Verbosity :=
  if v.quiet then none else some { v with quiet := true }

def commonOptions (get : α → Verbosity) (set : Verbosity → α → α) : List (Switch α) :=
  [ ⟨some 'v', "verbose", "...",
      "Increase logging verbosity (-v for info, -vv for debug, -vvv for trace)",
      .flag fun a => some (set (get a).more a)⟩,
    ⟨some 'q', "quiet", "", "Decrease logging verbosity (only show errors)",
      .flag fun a => (get a).silence.map (set · a)⟩,
    ⟨some 'h', "help", "", "Print help", .help⟩,
    ⟨some 'V', "version", "", "Print version", .version⟩ ]

end AwaitStore.CommandLine
