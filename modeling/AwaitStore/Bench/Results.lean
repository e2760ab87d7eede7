import AwaitStore.Bench.Action
import AwaitStore.Decimal.Binary64
import AwaitStore.Decimal.Fixed

namespace AwaitStore.Bench

/-- Latencies, kept as sums from which the mean and the standard deviation follow. The sums and the
count wrap. -/
structure Samples where
  sum : BitVec 128
  sumSquares : BitVec 128
  count : UInt64
  deriving DecidableEq, Repr

namespace Samples

def none : Samples := ⟨0, 0, 0⟩

def add (nanos : UInt64) (s : Samples) : Samples :=
  let nanos := BitVec.ofNat 128 nanos.toNat
  ⟨s.sum + nanos, s.sumSquares + nanos * nanos, s.count + 1⟩

def merge (s other : Samples) : Samples :=
  ⟨s.sum + other.sum, s.sumSquares + other.sumSquares, s.count + other.count⟩

def average? (s : Samples) : Option Float :=
  if s.count = 0 then .none else some (Decimal.nearest s.sum.toNat / Decimal.nearest s.count.toNat)

/-- Of the whole population. Rounding can push a variance of zero below zero. -/
def deviation? (s : Samples) : Option Float :=
  if s.count = 0 then .none
  else
    let n := Decimal.nearest s.count.toNat
    let average := Decimal.nearest s.sum.toNat / n
    let variance := Decimal.nearest s.sumSquares.toNat / n - average * average
    some (if variance > 0 then variance.sqrt else 0)

def display (s : Samples) : String :=
  match s.average?, s.deviation? with
  | some average, some deviation =>
      s!"avg = {Decimal.fixed 1 average} ns, stdev = {Decimal.fixed 1 deviation} ns"
  | _, _ => "no samples"

end Samples

structure Results where
  put : Samples
  get : Samples
  multiPut : Samples
  multiGet : Samples
  /-- How long the whole run took, in nanoseconds. -/
  time : Option Nat
  deriving DecidableEq, Repr

namespace Results

def empty : Results := ⟨.none, .none, .none, .none, none⟩

def samples (r : Results) : Action → Samples
  | .put => r.put
  | .get => r.get
  | .multiPut => r.multiPut
  | .multiGet => r.multiGet
  | .getWhen => .none

def add (action : Action) (nanos : UInt64) (r : Results) : Results :=
  match action with
  | .put => { r with put := r.put.add nanos }
  | .get => { r with get := r.get.add nanos }
  | .multiPut => { r with multiPut := r.multiPut.add nanos }
  | .multiGet => { r with multiGet := r.multiGet.add nanos }
  | .getWhen => r

def merge (r other : Results) : Results :=
  { r with
    put := r.put.merge other.put
    get := r.get.merge other.get
    multiPut := r.multiPut.merge other.multiPut
    multiGet := r.multiGet.merge other.multiGet }

def display (r : Results) : String :=
  let parts := Action.timed.map fun a => s!"{a.name}: {(r.samples a).display}"
  "TestResults(" ++ String.intercalate "; " parts ++ ")"

end Results

end AwaitStore.Bench
