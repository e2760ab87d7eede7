import AwaitStore.Bench.Run
import AwaitStore.Decimal.Shortest
import Std.Data.ExtTreeSet

namespace AwaitStore.Bench

structure NamedMix where
  name : String
  weight : Action → Float

def NamedMix.ofList (name : String) (put get multiPut multiGet getWhen : Float) : NamedMix :=
  ⟨name, fun
    | .put => put
    | .get => get
    | .multiPut => multiPut
    | .multiGet => multiGet
    | .getWhen => getWhen⟩

structure Settings where
  workerCounts : List Nat
  operations : Nat
  getWhenOperations : Nat
  blockSize : Nat
  keys : Nat
  values : Nat
  keyLength : Nat
  valueLength : Nat
  shards : Nat
  deriving DecidableEq, Repr

def Settings.standard : Settings where
  workerCounts := [1, 2, 4, 8, 16]
  operations := 8388608
  getWhenOperations := 1048576
  blockSize := 4096
  keys := 128
  values := 128
  keyLength := 8
  valueLength := 8
  shards := 64

structure Suite where
  outputDir : String
  settings : Settings
  deriving DecidableEq, Repr

structure Report where
  path : String
  rows : List (List String)
  deriving DecidableEq, Repr

def Report.lines (r : Report) : List String := r.rows.map (String.intercalate ",")

structure Outlet where
  ready : Bool
  accepts : String → Bool

def Outlet.write (outlet : Outlet) (reports : List Report) : List Report × Option Stop :=
  let written := reports.takeWhile fun r => outlet.accepts r.path
  (written, if written.length = reports.length then none else some (.fault .report))

structure Cell where
  workers : Nat
  mixName : String
  mix : Mix Float
  kind : Store.Kind

/-- The total time of one benchmark, in seconds. -/
structure Timing where
  mixName : String
  workers : Nat
  storeName : String
  seconds : Float

structure Progress where
  reports : List Report
  times : List Timing

def seconds (nanos : Nat) : Float :=
  Decimal.nearest (nanos / 1000000000) + Decimal.nearest (nanos % 1000000000) / 1000000000

def Results.rows (r : Results) : List (List String) :=
  let cell (x : Option Float) := (x.map Decimal.shortest).getD ""
  ["OPERATION", "AVG", "STDEV"] ::
    Action.timed.map fun a => [a.name, cell (r.samples a).average?, cell (r.samples a).deviation?]

/-- The directory is not changed by a name without a directory of its own. -/
def inDirectory (directory name : String) : String :=
  if directory.isEmpty ∨ directory.endsWith "/" then directory ++ name else directory ++ "/" ++ name

def fileStem (name : String) : String := name.map fun c => if c = ' ' then '_' else c

namespace Suite

def mixes : List NamedMix :=
  [ .ofList "Mostly reads" 0.05 0.70 0 0.25 0,
    .ofList "Balanced" 0.25 0.25 0.25 0.25 0,
    .ofList "Balanced with getWhen" 0.25 0.20 0.25 0.25 0.05 ]

def kinds (s : Suite) : List Store.Kind := [.simple, .multiCondition, .sharded s.settings.shards]

def display (s : Suite) : String := s!"TestSuite(output_dir = {s.outputDir})"

/-- A store without conditional reads is left out where the mix draws them. -/
def row (s : Suite) (workers : Nat) (name : String) (mix : Mix Float) : List Cell :=
  (s.kinds.filter fun kind => !mix.usesGetWhen || kind.supportsGetWhen).map fun kind =>
    ⟨workers, name, mix, kind⟩

def accepted : Except Fault (List (String × Mix Float)) :=
  mixes.mapM fun m =>
    match Mix.ofWeights m.weight with
    | .error sum => .error (.weights sum)
    | .ok mix => .ok (m.name, mix)

def grid (s : Suite) (mixes : List (String × Mix Float)) : List Cell :=
  s.settings.workerCounts.flatMap fun workers => mixes.flatMap fun m => s.row workers m.1 m.2

def lastIndex (length : Nat) : Int64 := (min (length - 1) 9223372036854775807).toInt64

def benchmark (s : Suite) (c : Cell) : Except Fault Benchmark := do
  let population ← Except.mapError Fault.unusable <| Population.check
    ⟨c.kind, s.settings.keys, s.settings.values, s.settings.keyLength, s.settings.valueLength⟩
  Except.mapError Fault.unusable <| Benchmark.ofParts population c.mix
    { workers := c.workers
      operations := if c.mix.usesGetWhen then s.settings.getWhenOperations else s.settings.operations
      blockSize := s.settings.blockSize
      keys := .ofBounds 0 (lastIndex s.settings.keys)
      values := .ofBounds 0 (lastIndex s.settings.values)
      multiCount := .ofBounds 2 4 }

def resultsPath (s : Suite) (c : Cell) : String :=
  let unit := if c.workers > 1 then "threads" else "thread"
  inDirectory s.outputDir s!"{c.kind.name}_{fileStem c.mixName}_{c.workers}_{unit}.csv"

def report (s : Suite) (c : Cell) (results : Results) : Report := ⟨s.resultsPath c, results.rows⟩

def record (s : Suite) (c : Cell) (results : Results) (p : Progress) : Progress where
  reports := p.reports ++ [s.report c results]
  times := p.times ++ results.time.toList.map fun nanos =>
    ⟨c.mixName, c.workers, c.kind.name, seconds nanos⟩

/-- One row per number of workers, by number; one column per kind of store that was measured. -/
def timeRows (s : Suite) (times : List Timing) : List (List String) :=
  let names := (s.kinds.map (·.name)).filter fun name => times.any fun t => t.storeName == name
  let counts := (Std.ExtTreeSet.ofList (times.map (·.workers)) compare).toList
  let cell (workers : Nat) (name : String) :=
    match times.reverse.find? fun t => t.workers == workers && t.storeName == name with
    | some t => Decimal.shortest t.seconds
    | none => ""
  ("THREADS" :: names) :: counts.map fun workers => toString workers :: names.map (cell workers)

def timeReports (s : Suite) (mixes : List (String × Mix Float)) (times : List Timing) : List Report :=
  mixes.filterMap fun m =>
    match times.filter fun t => t.mixName == m.1 with
    | [] => none
    | own => some ⟨inDirectory s.outputDir (fileStem m.1 ++ ".csv"), s.timeRows own⟩

/-- The benchmarks of the grid one after another; the first that fails, or cannot be reported, ends them. -/
def runCells (s : Suite) (outlet : Outlet) (measure : Benchmark → Except Stop Results) :
    List Cell → Progress → Progress × Option Stop
  | [], p => (p, none)
  | c :: cells, p =>
      match s.benchmark c with
      | .error fault => (p, some (.fault fault))
      | .ok b =>
          match measure b with
          | .error stop => (p, some stop)
          | .ok results =>
              if outlet.accepts (s.resultsPath c) then
                runCells s outlet measure cells (s.record c results p)
              else (p, some (.fault .report))

def run (s : Suite) (outlet : Outlet) (measure : Benchmark → Except Stop Results) :
    List Report × Option Stop :=
  if !outlet.ready then ([], some (.fault (.unwritable s.outputDir)))
  else
    match accepted with
    | .error fault => ([], some (.fault fault))
    | .ok mixes =>
        match s.runCells outlet measure (s.grid mixes) ⟨[], []⟩ with
        | (p, some stop) => (p.reports, some stop)
        | (p, none) =>
            let (tables, stop) := outlet.write (s.timeReports mixes p.times)
            (p.reports ++ tables, stop)

end Suite

end AwaitStore.Bench
