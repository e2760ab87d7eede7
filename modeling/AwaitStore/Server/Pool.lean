namespace AwaitStore.Server

abbrev Job := Nat

/-- Workers that grow in number on demand. A job may block its worker for any length of time, so a job
that finds every worker in use gets a new one. Workers that idle while less than half of the pool is
busy are retired, half of the pool at a time. A step holds the pool's lock once. -/
structure Pool where
  queue : List Job
  running : List Job
  ended : List Job
  /-- Workers that are not to be retired. -/
  threads : Nat
  /-- Jobs that are queued or running. -/
  busy : Nat
  /-- Retirements that no worker has picked up yet. -/
  retiring : Nat
  awake : Nat
  asleep : Nat
  shutdown : Bool
  deriving DecidableEq, Repr

inductive PoolError where
  | shutDown
  | unspawned (reason : String)
  deriving DecidableEq, Repr

def PoolError.message : PoolError → String
  | shutDown => "thread pool is shut down"
  | unspawned reason => reason

namespace Pool

def empty : Pool := ⟨[], [], [], 0, 0, 0, 0, 0, false⟩

def notifyOne (p : Pool) : Pool :=
  if p.asleep = 0 then p else { p with asleep := p.asleep - 1, awake := p.awake + 1 }

def notifyAll (p : Pool) : Pool := { p with asleep := 0, awake := p.awake + p.asleep }

def grow (p : Pool) : Pool :=
  if p.busy ≥ p.threads then { p with threads := p.threads + 1, awake := p.awake + 1 } else p

def enqueue (job : Job) (p : Pool) : Pool :=
  { p with queue := p.queue ++ [job], busy := p.busy + 1 }.notifyOne

/-- Why no job is accepted. `strain` is what the host says if it has no thread to spare. -/
def refusal? (strain : Option String) (p : Pool) : Option PoolError :=
  if p.shutdown then some .shutDown
  else
    match strain with
    | some reason => if p.threads + p.retiring = 0 then some (.unspawned reason) else none
    | none => none

/-- Without a thread to spare the job waits for one of the workers that there are. -/
def submit (job : Job) (p : Pool) (strain : Option String := none) : Except PoolError Pool :=
  match p.refusal? strain with
  | some e => .error e
  | none => .ok ((if strain.isNone then p.grow else p).enqueue job)

def look (p : Pool) : Pool :=
  match p.queue with
  | job :: rest => { p with queue := rest, running := p.running ++ [job], awake := p.awake - 1 }
  | [] =>
      if p.retiring > 0 then { p with retiring := p.retiring - 1, awake := p.awake - 1 }
      else if p.shutdown then { p with threads := p.threads - 1, awake := p.awake - 1 }
      else { p with awake := p.awake - 1, asleep := p.asleep + 1 }

/-- A job ends, normally or by a panic, and its worker looks for the next one. -/
def finish (job : Job) (p : Pool) : Pool :=
  { p with
    running := p.running.erase job
    ended := p.ended ++ [job]
    busy := p.busy - 1
    awake := p.awake + 1 }

def shrinkIfNeeded (due : Bool) (p : Pool) : Pool :=
  let half := p.threads / 2
  if due && p.busy < half then
    { p with threads := p.threads - half, retiring := p.retiring + half }.notifyAll
  else p

inductive Step where
  | submit (job : Job)
  | look
  | finish (job : Job)
  /-- A worker wakes up without cause, or because it was called. -/
  | wake
  /-- A worker has slept for the shrink interval; `due` tells whether the last shrink is as long ago. -/
  | timeout (due : Bool)
  | shutdown

def step (p : Pool) : Step → Option Pool
  | .submit job => (p.submit job).toOption
  | .look => if p.awake = 0 then none else some p.look
  | .finish job => if p.running.contains job then some (p.finish job) else none
  | .wake => if p.asleep = 0 then none else some { p with asleep := p.asleep - 1, awake := p.awake + 1 }
  | .timeout due =>
      if p.asleep = 0 then none
      else some ({ p with asleep := p.asleep - 1, awake := p.awake + 1 }.shrinkIfNeeded due)
  | .shutdown => some { p with shutdown := true }.notifyAll

def live (p : Pool) : Nat := p.awake + p.asleep + p.running.length

def settle (p : Pool) : Pool := Nat.repeat look p.awake p

def shrinkFor : Nat → Pool → Pool
  | 0, p => p
  | fuel + 1, p =>
      match p.step (.timeout true) with
      | some q => if q.threads < p.threads then shrinkFor fuel q.settle else p
      | none => p

def shrinkAll (p : Pool) : Pool := shrinkFor p.threads p

def display (p : Pool) : String := s!"ThreadPool(threads={p.threads})"

def debug (p : Pool) : String :=
  s!"ThreadPool \x7b threads: {p.threads}, busy: {p.busy}, queued: {p.queue.length} \x7d"

end Pool

end AwaitStore.Server
