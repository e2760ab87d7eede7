import AwaitStore.Decimal.Shortest
import AwaitStore.Operation
import AwaitStore.Store.Kind

namespace AwaitStore.Bench

inductive Unusable where
  | nothingStored
  | fewKeys (wanted length : Nat)
  | fewValues (wanted length : Nat)
  | noWork
  /-- A call could need more keys than the key range reaches, and would look for them for ever. -/
  | narrowKeys (needed reachable : Nat)
  | noGetWhen (kind : Store.Kind)
  deriving DecidableEq, Repr

def Unusable.message : Unusable → String
  | nothingStored => "at least one key and one value are required"
  | fewKeys wanted length => s!"{wanted} distinct keys do not fit in {length} characters"
  | fewValues wanted length => s!"{wanted} distinct values do not fit in {length} bytes"
  | noWork => "a benchmark needs at least one thread and a non-zero block size"
  | narrowKeys needed reachable =>
      s!"multi-key operations need up to {needed} distinct keys but the key range only reaches {reachable}"
  | noGetWhen kind => s!"{kind.display} does not support get_when"

inductive Fault where
  | weights (sum : Float)
  | unusable (cause : Unusable)
  | store (error : StoreError)
  | workerStopped
  | unwritable (path : String)
  | report

def Fault.message : Fault → String
  | weights sum => s!"operation probabilities add up to {Decimal.shortest sum}, not 1"
  | unusable cause => s!"invalid benchmark parameters: {cause.message}"
  | store _ => "database operation failed"
  | workerStopped => "benchmark worker panicked"
  | unwritable path => s!"failed to write {path}"
  | report => "failed to write CSV report"

end AwaitStore.Bench
