import AwaitStore.Store.Sharded

namespace AwaitStore.Store

inductive ShardCall where
  | put (key : Key) (value : Value)
  | get (key : Key)
  | multiPut (entries : List (Key × Value))
  | multiGet (keys : List Key)
  | snapshot
  | size

inductive LockMode where
  | reading
  | writing
  deriving DecidableEq, Repr

inductive Visit (n : Nat) where
  | store (shard : Fin n) (key : Key) (value : Value)
  | look (shard : Fin n) (key : Key)
  | copy (shard : Fin n)
  | count (shard : Fin n)

namespace ShardCall

def mode : ShardCall → LockMode
  | put .. | multiPut _ => .writing
  | get _ | multiGet _ | snapshot | size => .reading

variable {n : Nat} (hash : Key → UInt64) (n_pos : 0 < n)

def shards : ShardCall → List (Fin n)
  | put key _ | get key => [Sharded.shardOf hash n_pos key]
  | multiPut entries => ((Sharded.group hash n_pos Prod.fst entries).toList.map Prod.fst)
  | multiGet keys => ((Sharded.group hash n_pos id keys).toList.map Prod.fst)
  | snapshot | size => List.finRange n

def visits : ShardCall → List (Visit n)
  | put key value => [.store (Sharded.shardOf hash n_pos key) key value]
  | get key => [.look (Sharded.shardOf hash n_pos key) key]
  | multiPut entries =>
      (Sharded.group hash n_pos Prod.fst entries).toList.flatMap fun g => g.2.map fun e => .store g.1 e.1 e.2
  | multiGet keys => (Sharded.group hash n_pos id keys).toList.flatMap fun g => g.2.map fun key => .look g.1 key
  | snapshot => (List.finRange n).map .copy
  | size => (List.finRange n).map .count

end ShardCall

structure Seen where
  found : Table
  counted : Nat

inductive ShardAnswer where
  | stored
  | value (value : Option Value)
  | table (table : Table)
  | size (size : Nat)
  deriving DecidableEq

def ShardCall.answer (seen : Seen) : ShardCall → ShardAnswer
  | put .. | multiPut _ => .stored
  | get key => .value seen.found[key]?
  | multiGet _ | snapshot => .table seen.found
  | size => .size seen.counted

structure Caller (n : Nat) where
  number : Nat
  request : ShardCall
  wanted : List (Fin n)
  held : List (Fin n)
  ahead : List (Visit n)
  seen : Seen

def Caller.ended {n : Nat} (c : Caller n) : Bool := c.wanted.isEmpty && c.held.isEmpty && c.ahead.isEmpty

/-- Each shard has a lock that one writer or any number of readers hold. A call takes the locks of its
shards one after another and keeps them while it visits its keys, one at a time; it gives them back one
by one at the end. Any call may take the next step. -/
structure LockedShards (n : Nat) where
  store : Sharded n
  callers : List (Caller n)

inductive LockStep where
  | call (number : Nat) (request : ShardCall)
  | take (number : Nat)
  | visit (number : Nat)
  | release (number : Nat)

namespace LockedShards

variable {n : Nat}

def find? (number : Nat) (s : LockedShards n) : Option (Caller n) :=
  s.callers.find? fun c => c.number == number

def replace (c : Caller n) (s : LockedShards n) : LockedShards n :=
  { s with callers := s.callers.map fun d => if d.number == c.number then c else d }

/-- Whether another caller stands in the way of this lock: one that holds it, unless both only read. -/
def isTaken (mode : LockMode) (shard : Fin n) (c : Caller n) (s : LockedShards n) : Bool :=
  s.callers.any fun d =>
    d.number != c.number && d.held.contains shard && (mode == .writing || d.request.mode == .writing)

def isAwaited (shard : Fin n) (c : Caller n) (s : LockedShards n) : Bool :=
  s.callers.any fun d =>
    d.number != c.number && d.wanted.head? == some shard && d.request.mode == .writing

/-- Takes the next lock. Where `writersFirst` holds, a reader also waits for a writer that waits. -/
def take (writersFirst : Bool) (number : Nat) (s : LockedShards n) : Option (LockedShards n) :=
  match s.find? number with
  | none => none
  | some c =>
      match c.wanted with
      | [] => none
      | shard :: wanted =>
          if s.isTaken c.request.mode shard c then none
          else if writersFirst && c.request.mode == .reading && s.isAwaited shard c then none
          else some (s.replace { c with wanted, held := c.held ++ [shard] })

def makeVisit (v : Visit n) (store : Sharded n) (seen : Seen) : Sharded n × Seen :=
  match v with
  | .store shard key value => (store.update shard fun t => t.insert key value, seen)
  | .look shard key =>
      match (store.shard shard)[key]? with
      | some value => (store, { seen with found := seen.found.insert key value })
      | none => (store, seen)
  | .copy shard => (store, { seen with found := seen.found.putAll (store.shard shard).toList })
  | .count shard => (store, { seen with counted := seen.counted + (store.shard shard).size })

def visit (number : Nat) (s : LockedShards n) : Option (LockedShards n) :=
  match s.find? number with
  | none => none
  | some c =>
      match c.wanted, c.ahead with
      | [], v :: ahead =>
          let (store, seen) := makeVisit v s.store c.seen
          some ({ s with store }.replace { c with ahead, seen })
      | _, _ => none

def release (number : Nat) (s : LockedShards n) : Option (LockedShards n) :=
  match s.find? number with
  | none => none
  | some c =>
      match c.wanted, c.ahead, c.held with
      | [], [], _ :: held => some (s.replace { c with held })
      | _, _, _ => none

variable (hash : Key → UInt64)

def empty (n_pos : 0 < n) : LockedShards n := ⟨Sharded.empty n_pos, []⟩

def call (number : Nat) (request : ShardCall) (s : LockedShards n) : LockedShards n :=
  { s with
    callers := s.callers ++
      [⟨number, request, request.shards hash s.store.n_pos, [], request.visits hash s.store.n_pos, ⟨∅, 0⟩⟩] }

def step (writersFirst : Bool) (s : LockedShards n) : LockStep → Option (LockedShards n)
  | .call number request => if (s.find? number).isSome then none else some (s.call hash number request)
  | .take number => s.take writersFirst number
  | .visit number => s.visit number
  | .release number => s.release number

def answer? (number : Nat) (s : LockedShards n) : Option ShardAnswer :=
  match s.find? number with
  | some c => if c.ended then some (c.request.answer c.seen) else none
  | none => none

end LockedShards

end AwaitStore.Store
