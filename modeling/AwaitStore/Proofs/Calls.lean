import AwaitStore.Operation
import Mathlib.Data.List.Perm.Subperm

namespace AwaitStore

def Operation.isConditional : Operation → Bool
  | .getWhen _ => true
  | .put .. | .get _ | .multiPut _ | .multiGet _ => false

def Operation.Suits : Operation → Outcome → Prop
  | .put .., .ok .stored | .multiPut _, .ok .stored => True
  | .get _, .ok (.value _) | .getWhen _, .ok (.value _) => True
  | .multiGet _, .ok (.values _) => True
  | _, .error _ => True
  | _, .ok _ => False

namespace Database

variable {σ : Type} [Database σ]

def consult (s : σ) (asks : List (Nat × Operation)) : σ × List Return :=
  asks.foldl
    (fun (s, returns) (call, op) =>
      let (s, more) := perform call op s
      (s, returns ++ more))
    (s, [])

theorem consult_snoc (s : σ) (asks : List (Nat × Operation)) (call : Nat) (op : Operation) :
    consult s (asks ++ [(call, op)]) =
      ((perform call op (consult s asks).1).1,
        (consult s asks).2 ++ (perform call op (consult s asks).1).2) := by
  simp [consult, List.foldl_append]

/-- Of the calls that sleep and the new one, each returns once, sleeps on, or is lost. -/
structure Orderly (asleep : σ → List Nat) : Prop where
  once : ∀ call op s,
    ((perform call op s).2.map Return.call ++ asleep (perform call op s).1).Subperm (call :: asleep s)
  suits : ∀ call op s, ∀ r ∈ (perform call op s).2,
    r.call = call ∧ op.Suits r.outcome ∨ r.call ∈ asleep s ∧ ∃ value, r.outcome = .ok (.value value)
  conditional : ∀ call op s, ∀ n ∈ asleep (perform call op s).1, n ∈ asleep s ∨ n = call ∧ op.isConditional = true

end Database

end AwaitStore
