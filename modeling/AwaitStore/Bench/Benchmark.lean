import AwaitStore.Bench.IndexRange
import AwaitStore.Bench.Mix
import AwaitStore.Bench.Population

namespace AwaitStore.Bench

structure Workload where
  workers : Nat
  operations : Nat
  blockSize : Nat
  keys : IndexRange
  values : IndexRange
  multiCount : IndexRange

structure Benchmark where
  population : Population
  mix : Mix Float
  workload : Workload

def Workload.largestCount (w : Workload) (keys : Nat) : Nat := clampIndex w.multiCount.high keys

def Workload.unusable? {α : Type} [Weight α] (p : Population) (mix : Mix α) (w : Workload) :
    Option Unusable :=
  let largest := w.largestCount p.keys
  let reachable := w.keys.reachable p.keys
  if w.workers = 0 ∨ w.blockSize = 0 then some .noWork
  else if mix.usesMultiKey ∧ largest > reachable then some (.narrowKeys largest reachable)
  else if mix.usesGetWhen ∧ ¬p.kind.supportsGetWhen then some (.noGetWhen p.kind)
  else none

namespace Benchmark

def ofParts (population : Population) (mix : Mix Float) (workload : Workload) :
    Except Unusable Benchmark :=
  match workload.unusable? population mix with
  | some cause => .error cause
  | none => .ok ⟨population, mix, workload⟩

def display (b : Benchmark) : String :=
  s!"Benchmark({b.population.display}, {b.mix.display}, {b.workload.workers} threads, " ++
    s!"{b.workload.operations} operations)"

end Benchmark

end AwaitStore.Bench
