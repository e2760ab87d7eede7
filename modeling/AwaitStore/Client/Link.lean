import AwaitStore.Request
import AwaitStore.Wire.Incoming

namespace AwaitStore.Client

open Wire (AuthStatus Incoming Listing Message RequestId)

inductive Condition where
  | reply (index : Nat)
  | login
  deriving DecidableEq, Repr

inductive Request where
  | perform (op : Operation)
  | logIn (username password : String)
  deriving DecidableEq

inductive Result where
  | outcome (outcome : Outcome)
  | status (status : AuthStatus)
  | failed (error : StoreError)

/-- How far a call has come. An id is needed only for an operation. -/
inductive Phase where
  | start
  | numbered (id : RequestId)
  | awake (id : Option RequestId)
  | asleep (id : Option RequestId)
  | returned (result : Result)

structure Call where
  number : Nat
  request : Request
  phase : Phase

/-- The client's side of a connection, which any number of callers share. Each request gets an id, and
its caller sleeps until the reply with that id is there. Callers are spread over a number of conditions
by their ids; whoever stores a reply calls the sleepers of its condition afterwards. A step holds the
lock once, sends one request, or calls the sleepers of one condition. -/
structure Link where
  conditions : Nat
  nextId : RequestId
  replies : List (RequestId × Message)
  loginReply : Option AuthStatus
  loggedIn : Bool
  broken : Bool
  calls : List Call
  /-- Conditions whose sleepers are still to be called. -/
  notices : List Condition
  sent : List Message
  incoming : Incoming
  reading : Bool

def firstId : RequestId := 1

def idAfter (id : RequestId) : RequestId := if id = Int32.maxValue then firstId else id + 1

/-- Negative ids are never handed out and share the first condition. -/
def Link.conditionOf (l : Link) (id : RequestId) : Condition := .reply (id.toInt.toNat % l.conditions)

inductive Step where
  | call (number : Nat) (request : Request)
  | number (call : Nat)
  | send (call : Nat) (written : Bool)
  | look (call : Nat)
  | wake (call : Nat)
  | arrive (bytes : Bytes)
  | hangUp
  | read
  | notify (condition : Condition)

namespace Link

def connect (reachable : Bool) (conditions : Nat) : Except StoreError Link :=
  if conditions = 0 ∨ !reachable then .error .connectionFailed
  else .ok ⟨conditions, firstId, [], none, false, false, [], [], [], .empty, true⟩

def find? (number : Nat) (l : Link) : Option Call := l.calls.find? fun c => c.number == number

def setPhase (number : Nat) (phase : Phase) (l : Link) : Link :=
  { l with calls := l.calls.map fun c => if c.number == number then { c with phase } else c }

def lose (l : Link) : Link :=
  { l with
    broken := true
    notices := l.notices ++ (List.range l.conditions).map .reply ++ [.login] }

def loginInFlight (l : Link) : Bool :=
  l.calls.any fun c =>
    match c.request, c.phase with
    | .logIn .., .awake _ | .logIn .., .asleep _ => true
    | _, _ => false

def giveNumber (number : Nat) (l : Link) : Option Link :=
  match l.find? number with
  | some ⟨_, .perform _, .start⟩ =>
      some <|
        if l.broken then l.setPhase number (.returned (.failed .connectionBroken))
        else { l with nextId := idAfter l.nextId }.setPhase number (.numbered l.nextId)
  | _ => none

def outgoing? (number : Nat) (l : Link) : Option (Message × Option RequestId) :=
  match l.find? number with
  | some ⟨_, .perform op, .numbered id⟩ => some (op.request id, some id)
  | some ⟨_, .logIn username password, .start⟩ =>
      if l.loginInFlight then none else some (.authRequest username password, none)
  | _ => none

/-- A request that cannot be encoded is not sent and harms nobody else; a write that fails breaks the
connection. -/
def send (listing : Listing) (number : Nat) (written : Bool) (l : Link) : Option Link :=
  match l.outgoing? number with
  | none => none
  | some (message, id) =>
      some <| match Wire.frame listing message with
        | .error e => l.setPhase number (.returned (.failed (.wire e)))
        | .ok _ =>
            if written then { l with sent := l.sent ++ [message] }.setPhase number (.awake id)
            else l.lose.setPhase number (.returned (.failed .connectionFailed))

def lookLogin (number : Nat) (l : Link) : Link :=
  match l.loginReply with
  | some status =>
      { l with loginReply := none, loggedIn := l.loggedIn || status.isSuccess }.setPhase number
        (.returned (.status status))
  | none =>
      if l.broken then l.setPhase number (.returned (.failed .connectionBroken))
      else l.setPhase number (.asleep none)

def lookReply (number : Nat) (op : Operation) (id : RequestId) (l : Link) : Link :=
  match l.replies.lookup id with
  | some reply =>
      { l with replies := l.replies.filter fun r => r.1 != id }.setPhase number
        (.returned (.outcome (op.outcome reply)))
  | none =>
      if l.broken then l.setPhase number (.returned (.failed .connectionBroken))
      else l.setPhase number (.asleep (some id))

def look (number : Nat) (l : Link) : Option Link :=
  match l.find? number with
  | some ⟨_, .perform op, .awake (some id)⟩ => some (l.lookReply number op id)
  | some ⟨_, .logIn .., .awake none⟩ => some (l.lookLogin number)
  | _ => none

def wake (number : Nat) (l : Link) : Option Link :=
  match l.find? number with
  | some ⟨_, _, .asleep id⟩ => some (l.setPhase number (.awake id))
  | _ => none

/-- A later reply with the same id replaces one that was not taken. -/
def store (message : Message) (l : Link) : Link :=
  match message with
  | .authResponse status =>
      { l with loginReply := some status, notices := l.notices ++ [.login] }
  | message =>
      match message.requestId? with
      | some id =>
          { l with
            replies := (id, message) :: l.replies.filter fun r => r.1 != id
            notices := l.notices ++ [l.conditionOf id] }
      | none => l

def read (l : Link) : Option Link :=
  if !l.reading ∨ !l.incoming.isReady Wire.defaultMaxFrame then none
  else
    let (result, incoming) := l.incoming.readMessage Wire.defaultMaxFrame
    some <| match result with
      | .ok (some message) => { l with incoming }.store message
      | .ok none | .error _ => { l with incoming, reading := false }.lose

def sleepsOn (condition : Condition) (l : Link) (c : Call) : Bool :=
  match c.phase with
  | .asleep (some id) => decide (l.conditionOf id = condition)
  | .asleep none => decide (condition = .login)
  | _ => false

def wakeSleepers (condition : Condition) (l : Link) : Link :=
  { l with
    calls := l.calls.map fun c =>
      if l.sleepsOn condition c then
        match c.phase with
        | .asleep id => { c with phase := .awake id }
        | _ => c
      else c }

def notify (condition : Condition) (l : Link) : Option Link :=
  if condition ∈ l.notices then
    some ({ l with notices := l.notices.erase condition }.wakeSleepers condition)
  else none

def step (listing : Listing) (l : Link) : Step → Option Link
  | .call number request => some { l with calls := l.calls ++ [⟨number, request, .start⟩] }
  | .number call => l.giveNumber call
  | .send call written => l.send listing call written
  | .look call => l.look call
  | .wake call => l.wake call
  | .arrive bytes => some { l with incoming := l.incoming.arrive bytes }
  | .hangUp => some { l with incoming := l.incoming.finish }
  | .read => l.read
  | .notify condition => l.notify condition

/-- The moves that the client could make next without anything from outside, every write succeeding. Of
the notices there is only the first: calling its sleepers is always possible. -/
def moves (l : Link) : List Step :=
  let calls := l.calls.map Call.number
  let notice := (l.notices.take 1).map .notify
  calls.map .number ++ calls.map (.send · true) ++ calls.map .look ++ notice ++ [.read]

def settleFor (listing : Listing) : Nat → Link → Link
  | 0, l => l
  | fuel + 1, l =>
      match l.moves.findSome? (l.step listing) with
      | none => l
      | some l => settleFor listing fuel l

/-- Enough moves to come to rest: each message and each notice wakes no caller more than once. -/
def work (l : Link) : Nat :=
  (l.incoming.bytes.length + l.notices.length + l.conditions + 5) * (2 * l.calls.length + 4)

def settle (listing : Listing) (l : Link) : Link := l.settleFor listing l.work

def result? (number : Nat) (l : Link) : Option Result :=
  match l.find? number with
  | some ⟨_, _, .returned result⟩ => some result
  | _ => none

def display (peer : String) : String := s!"DatabaseClient({peer})"

def debug (peer : String) (l : Link) : String :=
  s!"DatabaseClient \x7b peer: {peer}, conditions: {l.conditions}, .. \x7d"

end Link

end AwaitStore.Client
