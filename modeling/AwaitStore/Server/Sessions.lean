import Std.Data.ExtTreeSet

namespace AwaitStore.Server

structure Login where
  request : Nat
  user : String
  deriving DecidableEq, Repr

/-- A bounded number of users can be logged in at once, each of them once. A login looks at the names,
gets a slot or a place in the line for slots, and looks at the names again when it has its slot. A
session that ends gives up its name before its slot. A step looks once at the names or at the line. -/
structure Sessions where
  free : Nat
  active : Std.ExtTreeSet String
  opened : List Login
  /-- Logins whose user had no session when they came, and that have not asked for a slot yet. -/
  arriving : List Login
  waiting : List Login
  /-- Logins that hold a slot and have not looked at the names again. -/
  called : List Login
  /-- Logins that are over and still hold their slot. -/
  leaving : List Login
  deriving DecidableEq, Repr

namespace Sessions

def new (slots : Nat) : Sessions := ⟨slots, ∅, [], [], [], [], []⟩

/-- The most slots that can be counted: the counter has a word less three bits. -/
def maxSlots : Nat := 2305843009213693951

structure SlotFault where
  slots : Nat
  deriving DecidableEq, Repr

def SlotFault.message (_ : SlotFault) : String :=
  s!"a semaphore may not have more than MAX_PERMITS permits ({maxSlots})"

def ofSlots (slots : Nat) : Except SlotFault Sessions :=
  if slots ≤ maxSlots then .ok (.new slots) else .error ⟨slots⟩

structure Verdict where
  login : Login
  granted : Bool
  deriving DecidableEq, Repr

def take? (n : Nat) : List Login → Option (Login × List Login)
  | [] => none
  | login :: rest =>
      if login.request = n then some (login, rest)
      else (take? n rest).map fun (found, rest) => (found, login :: rest)

def ask (login : Login) (s : Sessions) : Sessions × Option Verdict :=
  if s.active.contains login.user then (s, some ⟨login, false⟩)
  else ({ s with arriving := s.arriving ++ [login] }, none)

def join (n : Nat) (s : Sessions) : Option Sessions :=
  (take? n s.arriving).map fun (login, arriving) =>
    if s.free = 0 then { s with arriving, waiting := s.waiting ++ [login] }
    else { s with free := s.free - 1, arriving, called := s.called ++ [login] }

/-- The user may have logged in elsewhere while the request was waiting; its slot is passed on then. -/
def enter (n : Nat) (s : Sessions) : Option (Sessions × Verdict) :=
  (take? n s.called).map fun (login, called) =>
    if s.active.contains login.user then ({ s with called, leaving := s.leaving ++ [login] }, ⟨login, false⟩)
    else
      ({ s with called, active := s.active.insert login.user, opened := s.opened ++ [login] }, ⟨login, true⟩)

def giveBack (s : Sessions) : Sessions :=
  match s.waiting with
  | [] => { s with free := s.free + 1 }
  | login :: rest => { s with waiting := rest, called := s.called ++ [login] }

def release (n : Nat) (s : Sessions) : Option Sessions :=
  (take? n s.leaving).map fun (_, leaving) => { s with leaving }.giveBack

def finish (n : Nat) (s : Sessions) : Option Sessions :=
  (take? n s.opened).map fun (login, opened) =>
    { s with opened, active := s.active.erase login.user, leaving := s.leaving ++ [login] }

def abandon (n : Nat) (s : Sessions) : Option Sessions :=
  match take? n s.waiting with
  | some (_, waiting) => some { s with waiting }
  | none => (take? n s.called).map fun (_, called) => { s with called }.giveBack

inductive Step where
  | ask (login : Login)
  | join (n : Nat)
  | enter (n : Nat)
  | finish (n : Nat)
  | release (n : Nat)
  | abandon (n : Nat)
  deriving DecidableEq, Repr

def step (s : Sessions) : Step → Option (Sessions × Option Verdict)
  | .ask login => some (s.ask login)
  | .join n => (s.join n).map fun s => (s, none)
  | .enter n => (s.enter n).map fun (s, verdict) => (s, some verdict)
  | .finish n => (s.finish n).map fun s => (s, none)
  | .release n => (s.release n).map fun s => (s, none)
  | .abandon n => (s.abandon n).map fun s => (s, none)

def request (login : Login) (s : Sessions) : Sessions × Option Verdict :=
  match s.ask login with
  | (s, none) => ((s.join login.request).getD s, none)
  | refused => refused

def grant (s : Sessions) : Option (Sessions × Verdict) :=
  match s.called with
  | [] => none
  | login :: _ => (s.enter login.request).map fun (s, verdict) => ((s.release login.request).getD s, verdict)

def close (n : Nat) (s : Sessions) : Sessions :=
  match s.finish n with
  | some s => (s.release n).getD s
  | none => (s.abandon n).getD s

def underway (s : Sessions) : Nat := s.waiting.length + s.called.length

def grantAll : Nat → Sessions → Sessions × List Verdict
  | 0, s => (s, [])
  | fuel + 1, s =>
      match s.grant with
      | none => (s, [])
      | some (s, verdict) =>
          let (s, more) := grantAll fuel s
          (s, verdict :: more)

def settle (s : Sessions) : Sessions × List Verdict := grantAll s.underway s

def login (l : Login) (s : Sessions) : Sessions × List Verdict :=
  let (s, verdict) := s.request l
  let (s, more) := s.settle
  (s, verdict.toList ++ more)

def leave (n : Nat) (s : Sessions) : Sessions × List Verdict := (s.close n).settle

end Sessions

end AwaitStore.Server
