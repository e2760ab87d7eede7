import AwaitStore.Shell.Report

namespace AwaitStore.Shell

/-- The two outputs. `failing n` says that the n-th write to the output fails; it is lost then. -/
structure Console where
  prompt : String
  failing : Nat → Bool
  attempts : Nat
  out : List String
  err : List String

namespace Console

def new (prompt : String) (failing : Nat → Bool) : Console := ⟨prompt, failing, 0, [], []⟩

def write (line : String) (c : Console) : Console :=
  let out := if c.failing c.attempts then c.out else c.out ++ [s!"{line}\n{c.prompt}"]
  { c with attempts := c.attempts + 1, out }

def writeError (line : String) (c : Console) : Console :=
  { c with err := c.err ++ [s!"{line}\n{c.prompt}"] }

def report (op : Operation) (outcome : Outcome) (c : Console) : Console :=
  match outcome with
  | .ok answer => c.write (completedText op answer)
  | .error e => c.writeError e.message

end Console

/-- `running` are the commands that have been started and have not completed. -/
structure Runner (σ : Type) where
  database : σ
  started : Nat
  running : List (Nat × Operation)
  console : Console

namespace Runner

variable {σ : Type} [Database σ]

omit [Database σ] in
def new (database : σ) (console : Console) : Runner σ := ⟨database, 0, [], console⟩

omit [Database σ] in
def complete (r : Runner σ) (ret : Return) : Runner σ :=
  match r.running.lookup ret.call with
  | none => r
  | some op =>
      { r with
        running := r.running.filter (fun c => c.1 != ret.call)
        console := r.console.report op ret.outcome }

def run (command : Command) (r : Runner σ) : Runner σ :=
  let call := r.started
  let (database, returns) := Database.perform call command.operation r.database
  let console := if command.background then r.console.write backgroundedText else r.console
  let r := ⟨database, call + 1, r.running ++ [(call, command.operation)], console⟩
  returns.foldl complete r

/-- A command in the background has a thread of its own. Where the host cannot spawn one the command is not
carried out, and that is all that is reported. -/
def start (spawns : Bool) (command : Command) (r : Runner σ) : Runner σ :=
  if command.background && !spawns then
    { r with console := r.console.writeError StoreError.connectionFailed.message }
  else r.run command

def read (spawns : Bool) (line : String) (r : Runner σ) : Except CommandError Command × Runner σ :=
  match Command.parse line with
  | .error e => (.error e, r)
  | .ok command => (.ok command, r.start spawns command)

def runLine (line : String) (r : Runner σ) : Except CommandError Command × Runner σ := r.read true line

end Runner

end AwaitStore.Shell
