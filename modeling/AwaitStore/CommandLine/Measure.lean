import AwaitStore.Bench.Suite
import AwaitStore.CommandLine.Host

namespace AwaitStore.CommandLine

structure MeasureOptions where
  outputDir : Option String := none
  operations : Option Nat := none
  threads : List Nat := []
  verbosity : Verbosity := {}
  deriving DecidableEq, Repr

namespace MeasureOptions

def grammar : Grammar MeasureOptions where
  program := "kvdb-tester"
  options :=
    [ ⟨some 'n', "operations", " <OPERATIONS>", "Operations per run (applies to every operation mix)",
        .value fun v a => do
        return { a with operations := ← once a.operations (← number? Config.maxWord v) }⟩,
      ⟨some 't', "threads", " <THREADS>", "Worker thread counts to run, comma separated",
        .value fun v a => do
        let counts ← (v.splitOn ",").mapM (number? Config.maxWord)
        return { a with threads := a.threads ++ counts }⟩ ]
      ++ commonOptions MeasureOptions.verbosity fun verbosity a => { a with verbosity }
  wordName := "<OUTPUT_DIR>"
  wordAbout := "Directory the CSV reports are written to"
  word v a := do return { a with outputDir := ← once a.outputDir (← path? v) }

/-- One number of operations holds for all mixes. -/
def settings (o : MeasureOptions) : Bench.Settings :=
  let standard := Bench.Settings.standard
  { standard with
    operations := o.operations.getD standard.operations
    getWhenOperations := o.operations.getD standard.getWhenOperations
    workerCounts := if o.threads.isEmpty then standard.workerCounts else o.threads }

end MeasureOptions

def measurement (arguments : List String) : Except Exit Bench.Suite :=
  match parse MeasureOptions.grammar arguments {} with
  | .error e => .error (Exit.ofEnded MeasureOptions.grammar e)
  | .ok o =>
      match o.outputDir with
      | none => .error .usage
      | some outputDir => .ok ⟨outputDir, o.settings⟩

def stopped : Bench.Stop → Exit
  | .fault f => .failure (f.message ++ "\n")
  | .unbuildable e => .abort e.message
  | .exhausted => .failure "the random source gave no usable words\n"

def measured (reports : List Bench.Report) (stop : Option Bench.Stop) : Exit :=
  let exported := String.join (reports.map fun r => s!"Exported {r.path}\n")
  match stop with
  | none => .success exported
  | some stop => { stopped stop with out := exported }

end AwaitStore.CommandLine
