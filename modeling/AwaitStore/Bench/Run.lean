import AwaitStore.Bench.Benchmark
import AwaitStore.Bench.Blocks
import AwaitStore.Bench.Results

namespace AwaitStore.Bench

inductive Phase where
  | working (left : Nat)
  /-- In a conditional read, with this many operations left after it. -/
  | asleep (left : Nat) (key : Key) (value : Value)
  | done
  | failed (error : StoreError)
  deriving DecidableEq, Repr

structure Worker (ρ : Type) where
  source : ρ
  phase : Phase
  results : Results

/-- Workers claim blocks of operations and carry them out one by one. One may fall asleep in a
conditional read, and then its condition stands in its slot. When nothing else can move, an unlocking
round writes the conditions of all slots at once. Each of these is a step of its own, and any worker may
take the next one. -/
structure Run (ρ : Type) where
  issued : UInt64
  workers : List (Worker ρ)
  store : Store.Backend

def Phase.slot? : Phase → Option (Key × Value)
  | asleep _ key value => some (key, value)
  | working _ | done | failed _ => none

namespace Benchmark

variable {ρ : Type} [Source ρ] (tries : Nat) (b : Benchmark) (keys : Array Key) (values : Array Value)

def drawKeys : Draw ρ KeySet := do
  let index ← b.workload.multiCount.draw tries
  Draw.different (pick tries keys b.workload.keys) (clampIndex index keys.size) tries ∅

def drawPairs : List Key → Draw ρ (List (Key × Value))
  | [] => pure []
  | key :: rest => do
      let value ← pick tries values b.workload.values
      let pairs ← drawPairs rest
      pure ((key, value) :: pairs)

def drawOperation : Action → Draw ρ Operation
  | .put => do
      let key ← pick tries keys b.workload.keys
      let value ← pick tries values b.workload.values
      pure (.put key value)
  | .get => do
      let key ← pick tries keys b.workload.keys
      pure (.get key)
  | .multiPut => do
      let chosen ← b.drawKeys tries keys
      let pairs ← b.drawPairs tries values chosen.toList
      pure (.multiPut (Table.ofPairs pairs))
  | .multiGet => do
      let chosen ← b.drawKeys tries keys
      pure (.multiGet chosen)
  | .getWhen => do
      let key ← pick tries keys b.workload.keys
      let keyCond ← pick tries keys b.workload.keys
      let valueCond ← pick tries values b.workload.values
      pure (.getWhen ⟨key, keyCond, valueCond⟩)

end Benchmark

namespace Worker

variable {ρ : Type}

def wake (outcome : Outcome) (w : Worker ρ) : Worker ρ :=
  match outcome, w.phase with
  | .ok _, .asleep left _ _ => { w with phase := .working left }
  | .error e, _ => { w with phase := .failed e }
  | .ok _, _ => w

end Worker

namespace Run

variable {ρ : Type}

def start (store : Store.Backend) (sources : List ρ) : Run ρ :=
  ⟨0, sources.map fun source => ⟨source, .working 0, .empty⟩, store⟩

def wakeAll (returns : List Return) (r : Run ρ) : Run ρ :=
  returns.foldl (fun r x => { r with workers := r.workers.modify x.call (Worker.wake x.outcome) }) r

def claim (workload : Workload) (i : Nat) (r : Run ρ) : Option (Run ρ) :=
  match r.workers[i]? with
  | some ⟨source, .working 0, results⟩ =>
      let phase := match Block.at? workload.blockSize workload.operations r.issued with
        | some block => Phase.working block.size
        | none => .done
      some
        { r with
          issued := r.issued + workload.blockSize.toUInt64
          workers := r.workers.set i ⟨source, phase, results⟩ }
  | _ => none

def operate [Source ρ] (tries : Nat) (b : Benchmark) (keys : Array Key) (values : Array Value) (i : Nat)
    (r : Run ρ) : Option (Option Action × Run ρ) :=
  match r.workers[i]? with
  | some ⟨source, .working (left + 1), results⟩ => do
      let (action, source) ← b.mix.draw.run source
      let (op, source) ← (b.drawOperation tries keys values action).run source
      let (store, returns) := r.store.perform i op
      let own := returns.find? (fun x => x.call == i)
      let phase := match own, op with
        | some ⟨_, .error e⟩, _ => Phase.failed e
        | some ⟨_, .ok _⟩, _ => .working left
        | none, .getWhen wish => .asleep left wish.keyCond wish.valueCond
        | none, _ => .working left
      let r := { r with store, workers := r.workers.set i ⟨source, phase, results⟩ }
      some (own.map fun _ => action, r.wakeAll (returns.filter fun x => x.call != i))
  | _ => none

def record (i : Nat) (action : Action) (nanos : UInt64) (r : Run ρ) : Run ρ :=
  { r with workers := r.workers.modify i fun w => { w with results := w.results.add action nanos } }

/-- The first slot that awaits a key decides which value it gets. -/
def unlockEntries : List (Key × Value) → Table
  | [] => ∅
  | (key, value) :: rest => (unlockEntries rest).insert key value

def unlock (r : Run ρ) : Run ρ :=
  let entries := unlockEntries (r.workers.filterMap fun w => w.phase.slot?)
  let (store, returns) := r.store.perform r.workers.length (.multiPut entries)
  { r with store }.wakeAll returns

def merged (r : Run ρ) : Except StoreError Results :=
  r.workers.foldlM
    (fun total w =>
      match w.phase with
      | .failed e => .error e
      | _ => .ok (total.merge w.results))
    Results.empty

def isWorking (w : Worker ρ) : Bool :=
  match w.phase with
  | .working _ => true
  | _ => false

def ended (r : Run ρ) : Bool := r.workers.all fun w => !isWorking w && w.phase.slot?.isNone

/-- The next move of a run whose workers take turns only when they have to: a step of the first worker
that can go on, else an unlocking round. -/
def advance [Source ρ] (tries : Nat) (latency : UInt64) (b : Benchmark) (keys : Array Key)
    (values : Array Value) (r : Run ρ) : Option (Run ρ) :=
  match r.workers.findIdx? isWorking with
  | none => some r.unlock
  | some i =>
      match r.claim b.workload i with
      | some r => some r
      | none => do
          let (action, r) ← r.operate tries b keys values i
          some (action.elim r fun action => r.record i action latency)

def finish [Source ρ] (tries : Nat) (latency : Nat → UInt64) (b : Benchmark) (keys : Array Key)
    (values : Array Value) : Nat → Run ρ → Option (Run ρ)
  | 0, _ => none
  | fuel + 1, r =>
      if r.ended then some r
      else do
        let r ← r.advance tries (latency fuel) b keys values
        finish tries latency b keys values fuel r

end Run

structure Surroundings (ρ : Type) where
  source : ρ
  workerSource : Nat → ρ
  tries : Nat
  /-- How long the measured operations take, in nanoseconds. -/
  latency : Nat → UInt64
  elapsed : Nat

inductive Stop where
  | fault (fault : Fault)
  | unbuildable (error : Store.BuildError)
  /-- The draws needed more words than were to be tried. -/
  | exhausted

namespace Benchmark

variable {ρ : Type} [Source ρ]

/-- Enough steps for a run that ends. While the counter goes round once, every count that stops a worker
comes up if it ever does, so no worker claims more often than that; a claim leads to at most all
operations, each with an unlocking round. -/
def steps (b : Benchmark) : Nat :=
  b.workload.workers * UInt64.size * (2 * b.workload.operations + 1) + 1

/-- The total time is noted only when no conditional reads are drawn, as unlocking paces those runs. -/
def noteTime (elapsed : Nat) (b : Benchmark) (results : Results) : Results :=
  if b.mix.usesGetWhen then results else { results with time := some elapsed }

/-- The sources of all workers come from a word each, and these are drawn before the first worker starts. -/
def room (b : Benchmark) : Except CapacityFault Unit := Capacity.sequence 8 b.workload.workers

def report (elapsed : Nat) (b : Benchmark) : Option (Run ρ) → Except Stop Results
  | none => .error .exhausted
  | some r =>
      match r.merged with
      | .error e => .error (.fault (.store e))
      | .ok results => .ok (b.noteTime elapsed results)

def work (around : Surroundings ρ) (p : Populated) (b : Benchmark) : Except Stop Results :=
  let workers := (List.range b.workload.workers).map around.workerSource
  b.report around.elapsed
    ((Run.start p.store workers).finish around.tries around.latency b p.keys p.values b.steps)

def run (around : Surroundings ρ) (b : Benchmark) : Except Stop Results :=
  match (b.population.populate .ascending around.tries).run around.source with
  | none => .error .exhausted
  | some (.error e, _) => .error (.unbuildable e)
  | some (.ok p, _) =>
      match b.room with
      | .error fault => .error (.unbuildable (.tooLarge fault))
      | .ok () => b.work around p

end Benchmark

end AwaitStore.Bench
