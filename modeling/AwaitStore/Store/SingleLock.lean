import AwaitStore.Operation
import AwaitStore.Store.Triggers

namespace AwaitStore.Store

structure Sleeper (τ : Type) where
  call : Nat
  wish : Wish
  ticket : τ
  notified : Bool

/-- A step holds the lock once: a conditional read starts, a write is applied, a sleeping caller wakes
up. Any sleeping caller may wake at any time; `notified` records that it has been called since it last
slept. -/
structure SingleLock (σ : Type) [Triggers σ] where
  contents : Table
  triggers : σ
  asleep : List (Sleeper (Triggers.Ticket σ))

namespace SingleLock

variable {σ : Type} [Triggers σ]

def empty : SingleLock σ := ⟨∅, Triggers.empty, []⟩

inductive Step where
  | getWhen (call : Nat) (wish : Wish)
  | write (entries : List (Key × Value))
  | wake (call : Nat)

structure Woken where
  call : Nat
  value : Option Value
  deriving DecidableEq, Repr

/-- Registers, then looks: the caller returns at once if its condition holds, else it sleeps. -/
def start (call : Nat) (wish : Wish) (s : SingleLock σ) : SingleLock σ × Option Woken :=
  let (ticket, triggers) := Triggers.register wish.keyCond s.triggers
  if wish.holds s.contents then
    ({ s with triggers := Triggers.unregister wish.keyCond ticket triggers },
      some ⟨call, s.contents[wish.key]?⟩)
  else ({ s with triggers, asleep := s.asleep ++ [⟨call, wish, ticket, false⟩] }, none)

def notify (conditions : List Condition) (w : Sleeper (Triggers.Ticket σ)) :
    Sleeper (Triggers.Ticket σ) :=
  if conditions.contains (Triggers.condition w.ticket) then { w with notified := true } else w

/-- Waits for the callers summoned by the write before, so it is no step while one is pending. -/
def write (entries : List (Key × Value)) (s : SingleLock σ) : Option (SingleLock σ) :=
  if Triggers.pending s.triggers then none
  else
    let (triggers, conditions) := Triggers.summon (entries.map Prod.fst) s.triggers
    some ⟨s.contents.putAll entries, triggers, s.asleep.map (notify conditions)⟩

def wake (call : Nat) (s : SingleLock σ) : Option (SingleLock σ × Option Woken) :=
  match s.asleep.find? (fun w => w.call == call) with
  | none => none
  | some w =>
      let (_, ticket, triggers) := Triggers.acknowledge w.ticket s.triggers
      if w.wish.holds s.contents then
        some
          (⟨s.contents, Triggers.unregister w.wish.keyCond ticket triggers,
              s.asleep.filter (fun v => v.call != call)⟩,
            some ⟨call, s.contents[w.wish.key]?⟩)
      else
        some
          (⟨s.contents, triggers,
              s.asleep.map (fun v => if v.call == call then { v with ticket, notified := false } else v)⟩,
            none)

def step (s : SingleLock σ) : Step → Option (SingleLock σ × Option Woken)
  | .getWhen call wish => some (s.start call wish)
  | .write entries => (s.write entries).map fun s => (s, none)
  | .wake call => s.wake call

def wakeAll : List Nat → SingleLock σ → SingleLock σ × List Woken
  | [], s => (s, [])
  | call :: calls, s =>
      match s.wake call with
      | none => wakeAll calls s
      | some (s, woken) =>
          let (s, more) := wakeAll calls s
          (s, woken.toList ++ more)

def settle (s : SingleLock σ) : SingleLock σ × List Woken :=
  wakeAll ((s.asleep.filter Sleeper.notified).map Sleeper.call) s

end SingleLock

end AwaitStore.Store
