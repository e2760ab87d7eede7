import AwaitStore.Wire.Message

namespace AwaitStore.Server

open Wire (AuthStatus)

structure Credentials (δ : Type) where
  salt : Nat
  digest : δ
  deriving DecidableEq

/-- Whoever logs in under a new name is registered; after that the name belongs to the password. Of a
password only a digest is kept: `digest n` is the one under the n-th salt. -/
structure Users (δ : Type) where
  known : Std.ExtTreeMap String (Credentials δ)
  salts : Nat

namespace Users

variable {δ : Type} [DecidableEq δ] (digest : Nat → String → δ)

omit [DecidableEq δ] in
def empty : Users δ := ⟨∅, 0⟩

def authenticate (username password : String) (users : Users δ) : AuthStatus × Users δ :=
  match users.known[username]? with
  | some credentials =>
      if digest credentials.salt password = credentials.digest then (.success, users)
      else (.wrongCredentials, users)
  | none =>
      (.newUser,
        ⟨users.known.insert username ⟨users.salts, digest users.salts password⟩, users.salts + 1⟩)

end Users

end AwaitStore.Server
