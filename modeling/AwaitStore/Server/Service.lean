import AwaitStore.Request
import AwaitStore.Server.Outlet
import AwaitStore.Server.Pool
import AwaitStore.Server.Sessions
import AwaitStore.Server.Users
import AwaitStore.Store.Backend
import AwaitStore.Wire.Incoming

namespace AwaitStore.Server

open Wire (AuthStatus Incoming Message RequestId)

def authenticationRequired : String := "authentication required"

def shuttingDown : String := "server is shutting down"

inductive Reaction where
  | logIn (username password : String)
  | answer (reply : Message)
  | run (id : RequestId) (op : Operation)
  | ignore
  deriving DecidableEq

def react (loggedIn : Bool) : Message → Reaction
  | .authRequest username password =>
      if loggedIn then .answer (.authResponse .existingLogin) else .logIn username password
  | message =>
      match Operation.ofRequest? message with
      | none => .ignore
      | some (id, op) =>
          if loggedIn then .run id op else .answer (.errorResponse id authenticationRequired)

inductive Standing where
  | stranger
  /-- About to ask for a session, with the status that a successful login will report. -/
  | admitted (login : Login) (status : AuthStatus)
  | inLine (login : Login) (status : AuthStatus)
  | loggedIn (login : Login)
  | left
  deriving DecidableEq, Repr

namespace Standing

def isLoggedIn : Standing → Bool
  | loggedIn _ => true
  | stranger | admitted .. | inLine .. | left => false

/-- A connection reads its next message only when its login, if there is one, is over. -/
def isReading : Standing → Bool
  | stranger | loggedIn _ => true
  | admitted .. | inLine .. | left => false

end Standing

structure Connection where
  incoming : Incoming
  standing : Standing
  outlet : Outlet

namespace Connection

def new : Connection := ⟨.empty, .stranger, .new⟩

def outbox (c : Connection) : List Message := c.outlet.outbox

def send (message : Message) (c : Connection) : Connection := { c with outlet := c.outlet.send message }

def stand (standing : Standing) (c : Connection) : Connection := { c with standing }

def conclude (verdict : Sessions.Verdict) (status : AuthStatus) (c : Connection) : Connection :=
  if verdict.granted then (c.stand (.loggedIn verdict.login)).send (.authResponse status)
  else (c.stand .stranger).send (.authResponse .existingLogin)

end Connection

inductive Stage where
  | accepted
  | asked
  | answered (outcome : Outcome)

structure Task where
  job : Job
  connection : Nat
  id : RequestId
  operation : Operation
  stage : Stage

namespace Task

def note (t : Task) (ret : Return) : Task :=
  match t.stage with
  | .asked => if t.job = ret.call then { t with stage := .answered ret.outcome } else t
  | .accepted | .answered _ => t

def learn (job : Job) (returns : List Return) (t : Task) : Task :=
  returns.foldl note (if t.job = job then { t with stage := .asked } else t)

end Task

/-- A server with all its connections. Each of them reads its messages one after another; a login may
have to wait for a free session, and the connection reads on only after that. Requests of a connection
with an open session become jobs of the pool, and their replies go to its outbox in the order in which
the jobs end. Its writer empties the outbox until a write fails. -/
structure Service (δ : Type) (σ : Type := Store.Backend) where
  maxFrame : Nat
  users : Users δ
  sessions : Sessions
  logins : Nat
  pool : Pool
  /-- What the host says if it has no thread to spare. -/
  strain : Option String
  store : σ
  tasks : List Task
  accepted : Nat
  connections : List Connection

inductive Step where
  | connect
  | arrive (connection : Nat) (bytes : Bytes)
  | hangUp (connection : Nat)
  | read (connection : Nat)
  | apply (connection : Nat)
  | sessions (step : Sessions.Step)
  | abandon (connection : Nat)
  | pool (step : Pool.Step)
  | ask (job : Job)
  | reply (job : Job)
  | writer (connection : Nat) (step : Outlet.Step)
  | strain (reason : Option String)
  | shutdown

namespace Service

section Moves

variable {δ σ : Type}

def new (maxFrame slots : Nat) (store : σ) : Service δ σ :=
  ⟨maxFrame, .empty, .new slots, 0, .empty, none, store, [], 0, []⟩

def update (i : Nat) (f : Connection → Connection) (s : Service δ σ) : Service δ σ :=
  { s with connections := s.connections.modify i f }

def holder? (login : Login) (s : Service δ σ) : Option (Nat × AuthStatus) :=
  s.connections.zipIdx.findSome? fun (c, i) =>
    match c.standing with
    | .inLine own status => if own = login then some (i, status) else none
    | _ => none

def concludeLogin (verdict : Sessions.Verdict) (s : Service δ σ) : Service δ σ :=
  match s.holder? verdict.login with
  | none => s
  | some (i, status) => s.update i (Connection.conclude verdict status)

def dispatch (i : Nat) (id : RequestId) (op : Operation) (s : Service δ σ) : Service δ σ :=
  match s.pool.submit s.accepted s.strain with
  | .error _ => s.update i (Connection.send (.errorResponse id shuttingDown))
  | .ok pool =>
      { s with
        pool
        accepted := s.accepted + 1
        tasks := s.tasks ++ [⟨s.accepted, i, id, op, .accepted⟩] }

def leave (i : Nat) (s : Service δ σ) : Service δ σ :=
  let sessions := match (s.connections[i]?).map Connection.standing with
    | some (.loggedIn login) => (s.sessions.finish login.request).getD s.sessions
    | _ => s.sessions
  { s with sessions }.update i (Connection.stand .left)

def apply (i : Nat) (s : Service δ σ) : Option (Service δ σ) :=
  match (s.connections[i]?).map Connection.standing with
  | some (.admitted login status) =>
      let (sessions, verdict) := s.sessions.ask login
      let s := { s with sessions }
      some <| match verdict with
        | some verdict => s.update i (Connection.conclude verdict status)
        | none => s.update i (Connection.stand (.inLine login status))
  | _ => none

/-- The sessions ask and end with their connections, and do all else of their own accord. -/
def moveSessions (a : Sessions.Step) (s : Service δ σ) : Option (Service δ σ) :=
  match a with
  | .ask _ | .finish _ | .abandon _ => none
  | .join _ | .enter _ | .release _ =>
      (s.sessions.step a).map fun (sessions, verdict) =>
        let s := { s with sessions }
        match verdict with
        | none => s
        | some verdict => s.concludeLogin verdict

def abandon (i : Nat) (s : Service δ σ) : Option (Service δ σ) :=
  match s.connections[i]? with
  | none => none
  | some c =>
      if !c.incoming.isOver then none
      else
        match c.standing with
        | .admitted .. => some (s.update i (Connection.stand .left))
        | .inLine login _ =>
            (s.sessions.abandon login.request).map fun sessions =>
              { s with sessions }.update i (Connection.stand .left)
        | .stranger | .loggedIn _ | .left => none

def movePool (a : Pool.Step) (s : Service δ σ) : Option (Service δ σ) :=
  match a with
  | .submit _ | .finish _ | .shutdown => none
  | .look | .wake | .timeout _ => (s.pool.step a).map fun pool => { s with pool }

def reply (job : Job) (s : Service δ σ) : Option (Service δ σ) :=
  match s.tasks.find? fun t => t.job == job with
  | some ⟨_, i, id, _, .answered outcome⟩ =>
      (s.pool.step (.finish job)).map fun pool =>
        { s with pool, tasks := s.tasks.filter fun t => t.job != job }.update i
          (Connection.send (outcome.reply id))
  | _ => none

def moveWriter (i : Nat) (a : Outlet.Step) (s : Service δ σ) : Option (Service δ σ) :=
  match s.connections[i]? with
  | none => none
  | some c => (c.outlet.step a).map fun outlet => s.update i fun c => { c with outlet }

/-- Whether the server has closed a connection: it has no writer any more, or it reads no more and owes no reply. -/
def isClosed (i : Nat) (s : Service δ σ) : Bool :=
  match s.connections[i]? with
  | none => true
  | some c => !c.outlet.isWriting || (c.standing == .left && s.tasks.all fun t => t.connection != i)

def activeSessions (s : Service δ σ) : Nat := s.sessions.active.size

/-- The name is the one under which the store was asked for. -/
def display (storeName : String) : String := s!"DatabaseServer(backend={storeName})"

end Moves

section Steps

variable {δ σ : Type} [DecidableEq δ] [Database σ] (digest : Nat → String → δ)

omit [Database σ] in
def logIn (i : Nat) (username password : String) (s : Service δ σ) : Service δ σ :=
  let (status, users) := s.users.authenticate digest username password
  let s := { s with users }
  if !status.isSuccess then s.update i (Connection.send (.authResponse status))
  else
    { s with logins := s.logins + 1 }.update i (Connection.stand (.admitted ⟨s.logins, username⟩ status))

omit [Database σ] in
def handle (i : Nat) (loggedIn : Bool) (message : Message) (s : Service δ σ) : Service δ σ :=
  match react loggedIn message with
  | .ignore => s
  | .answer reply => s.update i (Connection.send reply)
  | .logIn username password => s.logIn digest i username password
  | .run id op => s.dispatch i id op

omit [Database σ] in
def read (i : Nat) (s : Service δ σ) : Option (Service δ σ) :=
  match s.connections[i]? with
  | none => none
  | some c =>
      if !c.standing.isReading ∨ !c.incoming.isReady s.maxFrame then none
      else
        let (result, incoming) := c.incoming.readMessage s.maxFrame
        let s := s.update i fun c => { c with incoming }
        some <| match result with
          | .error _ | .ok none => s.leave i
          | .ok (some message) => s.handle digest i c.standing.isLoggedIn message

omit [DecidableEq δ] in
/-- A worker asks the store; that can also bring other jobs their outcomes. -/
def ask (job : Job) (s : Service δ σ) : Option (Service δ σ) :=
  match s.tasks.find? fun t => t.job == job with
  | some ⟨_, _, _, op, .accepted⟩ =>
      if s.pool.running.contains job then
        let (store, returns) := Database.perform job op s.store
        some { s with store, tasks := s.tasks.map (Task.learn job returns) }
      else none
  | _ => none

def step (s : Service δ σ) : Step → Option (Service δ σ)
  | .connect => some { s with connections := s.connections ++ [.new] }
  | .arrive i bytes => some (s.update i fun c => { c with incoming := c.incoming.arrive bytes })
  | .hangUp i => some (s.update i fun c => { c with incoming := c.incoming.finish })
  | .read i => s.read digest i
  | .apply i => s.apply i
  | .sessions a => s.moveSessions a
  | .abandon i => s.abandon i
  | .pool a => s.movePool a
  | .ask job => s.ask job
  | .reply job => s.reply job
  | .writer i a => s.moveWriter i a
  | .strain reason => some { s with strain := reason }
  | .shutdown => (s.pool.step .shutdown).map fun pool => { s with pool }

omit [DecidableEq δ] [Database σ] in
def moves (s : Service δ σ) : List Step :=
  let places := List.range s.connections.length
  let jobs := s.tasks.map Task.job
  jobs.map .ask ++ jobs.map .reply ++ [.pool .look] ++
    s.sessions.arriving.map (fun login => .sessions (.join login.request)) ++
    s.sessions.called.map (fun login => .sessions (.enter login.request)) ++
    s.sessions.leaving.map (fun login => .sessions (.release login.request)) ++
    places.map .apply ++ places.map .abandon ++ places.map .read ++ places.map (.writer · .write)

def settleFor : Nat → Service δ σ → Service δ σ
  | 0, s => s
  | fuel + 1, s =>
      match s.moves.findSome? (s.step digest) with
      | none => s
      | some s => settleFor fuel s

omit [DecidableEq δ] [Database σ] in
/-- Enough moves to come to rest: a message takes at least five bytes, and leads to at most five more
moves; a login in line, a worker and an outbox have some to make without one. -/
def work (s : Service δ σ) : Nat :=
  let unread := s.connections.foldl (fun n c => n + c.incoming.bytes.length + c.outlet.queued.length + 3) 0
  5 * (unread + s.tasks.length + s.pool.awake + s.sessions.underway + s.sessions.leaving.length + 1)

def settle (s : Service δ σ) : Service δ σ := s.settleFor digest s.work

end Steps

end Service

end AwaitStore.Server
