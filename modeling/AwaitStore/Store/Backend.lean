import AwaitStore.Capacity
import AwaitStore.Store.Kind
import AwaitStore.Store.PerKeyConditions
import AwaitStore.Store.Sharded
import AwaitStore.Store.SharedCondition
import AwaitStore.Store.SingleLock
import AwaitStore.Store.SipHash
import AwaitStore.Wire.Listing

namespace AwaitStore.Store

inductive Backend where
  | simple (store : SingleLock SharedCondition)
  | multiCondition (store : SingleLock PerKeyConditions)
  | sharded (n : Nat) (store : Sharded n)

inductive BuildError where
  | noShards
  | tooLarge (fault : CapacityFault)
  deriving DecidableEq, Repr

def BuildError.message : BuildError → String
  | noShards => "a sharded backend needs at least one shard"
  | tooLarge fault => fault.message

def shardWidth : Nat := 64

def Kind.build : Kind → Except BuildError Backend
  | simple => .ok (.simple SingleLock.empty)
  | multiCondition => .ok (.multiCondition SingleLock.empty)
  | sharded 0 => .error .noShards
  | sharded (n + 1) =>
      match Capacity.sequence shardWidth (n + 1) with
      | .error fault => .error (.tooLarge fault)
      | .ok () => .ok (.sharded (n + 1) (Sharded.empty (Nat.succ_pos n)))

namespace SingleLock

variable {σ : Type} [Triggers σ]

def returned (woken : List Woken) : List Return := woken.map fun w => ⟨w.call, .ok (.value w.value)⟩

/-- A write that may not be applied yet leaves the store as it is; at rest there is none. -/
def perform (call : Nat) (op : Operation) (s : SingleLock σ) : SingleLock σ × List Return :=
  match op with
  | .put key value => applied [(key, value)]
  | .multiPut pairs => applied pairs.toList
  | .get key => (s, [⟨call, .ok (.value s.contents[key]?)⟩])
  | .multiGet keys => (s, [⟨call, .ok (.values (s.contents.collect keys.toList))⟩])
  | .getWhen wish =>
      let (s, woken) := s.start call wish
      (s, returned woken.toList)
where
  applied (entries : List (Key × Value)) : SingleLock σ × List Return :=
    match s.write entries with
    | none => (s, [])
    | some s =>
        let (s, woken) := s.settle
        (s, ⟨call, .ok .stored⟩ :: returned woken)

end SingleLock

namespace Sharded

variable {n : Nat} (hash : Key → UInt64)

def perform (call : Nat) (op : Operation) (s : Sharded n) : Sharded n × List Return :=
  match op with
  | .put key value => (s.put hash key value, [⟨call, .ok .stored⟩])
  | .get key => (s, [⟨call, .ok (.value (s.get hash key))⟩])
  | .multiPut pairs => (s.multiPut hash pairs.toList, [⟨call, .ok .stored⟩])
  | .multiGet keys => (s, [⟨call, .ok (.values (s.multiGet hash keys.toList))⟩])
  | .getWhen _ => (s, [⟨call, .error (.unsupported (Kind.sharded n).name "get_when")⟩])

end Sharded

namespace Backend

/-- Starts a call and runs the store until it is at rest. The calls that end in between, the new one or
sleeping ones, are listed. -/
def perform (call : Nat) (op : Operation) : Backend → Backend × List Return
  | simple s => let (s, returns) := s.perform call op; (simple s, returns)
  | multiCondition s => let (s, returns) := s.perform call op; (multiCondition s, returns)
  | sharded n s => let (s, returns) := s.perform SipHash.ofKey call op; (sharded n s, returns)

instance : Database Backend := ⟨perform⟩

def fill (order : Wire.Listing) (pairs : Table) : Backend → Backend
  | simple s => simple (SingleLock.perform.applied 0 s (order.pairs pairs)).1
  | multiCondition s => multiCondition (SingleLock.perform.applied 0 s (order.pairs pairs)).1
  | sharded n s => sharded n (s.multiPut SipHash.ofKey (order.pairs pairs))

def kind : Backend → Kind
  | simple _ => .simple
  | multiCondition _ => .multiCondition
  | sharded n _ => .sharded n

def contents : Backend → Table
  | simple s => s.contents
  | multiCondition s => s.contents
  | sharded _ s => s.snapshot

def size : Backend → Nat
  | simple s => s.contents.size
  | multiCondition s => s.contents.size
  | sharded _ s => s.size

def asleep : Backend → List Nat
  | simple s => s.asleep.map Sleeper.call
  | multiCondition s => s.asleep.map Sleeper.call
  | sharded .. => []

def display (b : Backend) : String :=
  match b with
  | sharded n _ => s!"{b.kind.name}({n} shards, {b.size} keys)"
  | _ => s!"{b.kind.name}({b.size} keys)"

end Backend

end AwaitStore.Store
