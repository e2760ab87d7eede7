import AwaitStore.Client.Remote
import AwaitStore.Server.Sessions
import AwaitStore.Server.Users
import AwaitStore.Shell.Runner

namespace AwaitStore.Client

open Wire (AuthStatus)

def statusMessage : AuthStatus → String
  | .success => "Authentication success"
  | .newUser => "Authentication success (new user registered)"
  | .wrongCredentials => "Wrong credentials"
  | .existingLogin => "That user is already logged in"

def prompt : String := "> "

def linesOf (input : String) : List String :=
  let trim (line : String) := String.ofList ((line.toList.reverse.dropWhile (· == '\r')).reverse)
  match (input.splitOn "\n").reverse with
  | last :: rest => (rest.reverse ++ if last.isEmpty then [] else [last]).map trim
  | [] => []

/-- A server that can be logged in to and asked. `logIn` is `none` where the login has to wait for a
session that nobody gives back. -/
structure Account (σ : Type) where
  users : Server.Users String
  sessions : Server.Sessions
  logins : Nat
  database : σ

namespace Account

variable {σ : Type} (digest : Nat → String → String)

def new (slots : Nat) (database : σ) : Account σ := ⟨.empty, .new slots, 0, database⟩

def logIn (username password : String) (a : Account σ) : Option (AuthStatus × Account σ) :=
  let (status, users) := a.users.authenticate digest username password
  if !status.isSuccess then some (status, { a with users })
  else
    let (sessions, verdicts) := a.sessions.login ⟨a.logins, username⟩
    let a := { a with users, sessions, logins := a.logins + 1 }
    match verdicts with
    | [] => none
    | v :: _ => some (if v.granted then status else .existingLogin, a)

def logOut (a : Account σ) : Account σ := { a with sessions := (a.sessions.leave (a.logins - 1)).1 }

end Account

structure Transcript where
  out : String
  err : String
  deriving DecidableEq, Repr

variable {σ : Type} [Database σ] (digest : Nat → String → String)

def commandLines : List String → Shell.Runner σ → Shell.Runner σ
  | [], r => r
  | line :: rest, r =>
      match r.runLine line with
      | (.ok _, r) => commandLines rest r
      | (.error e, r) => commandLines rest { r with console := r.console.writeError e.message }

def commands (lines : List String) (a : Account σ) : Transcript :=
  let r := commandLines lines (.new a.database (.new prompt fun _ => false))
  ⟨prompt ++ String.join r.console.out, String.join r.console.err⟩

def dialogue : List String → Account σ → Transcript
  | [], _ => ⟨"Username: ", ""⟩
  | [_], _ => ⟨"Username: Password: ", ""⟩
  | username :: password :: rest, a =>
      match a.logIn digest username password with
      | none => ⟨"Username: Password: ", ""⟩
      | some (status, a) =>
          let said := s!"Username: Password: {statusMessage status}\n"
          let more := if status.isSuccess then commands rest a else dialogue rest a
          ⟨said ++ more.out, more.err⟩

end AwaitStore.Client
