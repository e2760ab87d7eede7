import AwaitStore.CommandLine.Options

namespace AwaitStore.CommandLine

def about : String :=
  "Concurrent in-memory key-value database with a binary TCP protocol, an interactive client and a " ++
    "benchmark suite"

variable {α : Type}

def Switch.names (s : Switch α) : String :=
  let letter := match s.short with
    | some c => s!"-{c}, "
    | none => "    "
  s!"{letter}--{s.long}{s.operand}"

def lineWidth : Nat := 100

namespace Grammar

def widest (g : Grammar α) : Nat := g.options.foldl (fun w s => max w s.names.length) 0

/-- The texts stand on lines of their own where the names take more than two fifths of a line and some
text does not fit beside them. -/
def isSpread (g : Grammar α) : Bool :=
  let taken := g.widest + 4
  5 * taken > 2 * lineWidth && g.options.any fun s => s.about.length > lineWidth - taken

def optionLine (g : Grammar α) (s : Switch α) : String :=
  if g.isSpread then s!"  {s.names}\n          {s.about}"
  else "  " ++ s.names.pushn ' ' (g.widest - s.names.length) ++ s!"  {s.about}"

def help (g : Grammar α) : String :=
  s!"{about}\n\nUsage: {g.program} [OPTIONS] {g.wordName}\n\n" ++
    s!"Arguments:\n  {g.wordName}  {g.wordAbout}\n\n" ++
    "Options:\n" ++ String.intercalate "\n" (g.options.map g.optionLine) ++ "\n"

end Grammar

structure Exit where
  code : Nat
  out : String
  err : String
  deriving DecidableEq, Repr

namespace Exit

def success (out : String) : Exit := ⟨0, out, ""⟩

def failure (err : String) : Exit := ⟨1, "", err⟩

def abort (message : String) : Exit := ⟨101, "", message ++ "\n"⟩

def usage : Exit := ⟨2, "", ""⟩

def ofEnded (g : Grammar α) : Ended → Exit
  | .usage => usage
  | .version => success s!"{g.program} 0.1.0\n"
  | .help => success g.help

end Exit

end AwaitStore.CommandLine
