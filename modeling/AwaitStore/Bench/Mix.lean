import AwaitStore.Bench.Action
import AwaitStore.Bench.Draw
import AwaitStore.Decimal.Fixed

namespace AwaitStore.Bench

/-- Numbers that weights are kept in: doubles when run, exact ones where a law is stated. -/
class Weight (α : Type) extends Add α, Sub α, LT α where
  zero : α
  finite : α → Bool
  nearOne : α → Bool
  decidableLT : DecidableLT α

instance Weight.lessDecidable {α : Type} [Weight α] : DecidableLT α := Weight.decidableLT

instance : Weight Float where
  zero := 0
  finite := Float.isFinite
  nearOne x := !((1 - x).abs > 0.001)
  decidableLT := inferInstance

instance : Weight Rat where
  zero := 0
  finite _ := true
  nearOne x := decide (1 - 1 / 1000 ≤ x ∧ x ≤ 1 + 1 / 1000)
  decidableLT := inferInstance

/-- For each action the total weight up to and including it, so a draw is a few comparisons. -/
structure Mix (α : Type) where
  upTo : Action → α

namespace Mix

variable {α : Type} [Weight α]

/-- Weights are added from left to right, as rounding may depend on the order. -/
def cumulative (weight : Action → α) : Action → α
  | .put => weight .put
  | .get => weight .put + weight .get
  | .multiPut => weight .put + weight .get + weight .multiPut
  | .multiGet => weight .put + weight .get + weight .multiPut + weight .multiGet
  | .getWhen => weight .put + weight .get + weight .multiPut + weight .multiGet + weight .getWhen

/-- Fails with the sum of the weights, which has to be near one. No weight may be negative. -/
def ofWeights (weight : Action → α) : Except α (Mix α) :=
  let sum := cumulative weight .getWhen
  if Action.all.any (fun a => decide (weight a < Weight.zero) || !Weight.finite (weight a))
      || !Weight.nearOne sum then .error sum
  else .ok ⟨cumulative weight⟩

def weight (m : Mix α) : Action → α
  | .put => m.upTo .put
  | .get => m.upTo .get - m.upTo .put
  | .multiPut => m.upTo .multiPut - m.upTo .get
  | .multiGet => m.upTo .multiGet - m.upTo .multiPut
  | .getWhen => m.upTo .getWhen - m.upTo .multiGet

def draws (m : Mix α) (a : Action) : Bool := decide (Weight.zero < m.weight a)

def usesGetWhen (m : Mix α) : Bool := m.draws .getWhen

def usesMultiKey (m : Mix α) : Bool := m.draws .multiPut || m.draws .multiGet

def last (m : Mix α) : Action := (Action.all.reverse.find? m.draws).getD .get

/-- The action of a number from 0 to 1. Where rounding leaves a gap at the upper end, it belongs to the
last action with a weight. -/
def actionAt (m : Mix α) (x : α) : Action := (Action.timed.find? fun a => x < m.upTo a).getD m.last

def draw {ρ : Type} [Source ρ] (m : Mix Float) : Draw ρ Action := do
  let x ← Draw.unit
  pure (m.actionAt x)

def display (m : Mix Float) : String :=
  let share (a : Action) := Decimal.fixed 3 (m.weight a)
  s!"OperationDistribution(put = {share .put}, get = {share .get}, multi_put = {share .multiPut}, " ++
    s!"multi_get = {share .multiGet}, get_when = {share .getWhen})"

end Mix

end AwaitStore.Bench
