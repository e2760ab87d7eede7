import AwaitStore.Store.Triggers

namespace AwaitStore.Store

/-- Writes are numbered; a caller that wakes up and finds a newer number than the one it saw last has
been summoned by that write, and a spurious wake-up finds the same number. -/
structure SharedCondition where
  generation : UInt64
  waiting : Nat
  unsignaled : Nat
  deriving DecidableEq, Repr

namespace SharedCondition

structure Ticket where
  seen : UInt64
  deriving DecidableEq, Repr

def changed : Condition := 0

/-- Without callers a write gets no number, so all tickets agree before each summons. -/
def summon (_ : List Key) (s : SharedCondition) : SharedCondition × List Condition :=
  if s.waiting > 0 then
    ({ s with generation := s.generation + 1, unsignaled := s.waiting }, [changed])
  else (s, [])

def register (_ : Key) (s : SharedCondition) : Ticket × SharedCondition :=
  (⟨s.generation⟩, { s with waiting := s.waiting + 1 })

def acknowledge (ticket : Ticket) (s : SharedCondition) : Bool × Ticket × SharedCondition :=
  if ticket.seen = s.generation then (false, ticket, s)
  else
    let unsignaled := s.unsignaled - 1
    (unsignaled == 0, ⟨s.generation⟩, { s with unsignaled })

def unregister (_ : Key) (_ : Ticket) (s : SharedCondition) : SharedCondition :=
  { s with waiting := s.waiting - 1 }

end SharedCondition

instance : Triggers SharedCondition where
  Ticket := SharedCondition.Ticket
  empty := ⟨0, 0, 0⟩
  pending := fun s => decide (s.unsignaled > 0)
  summon := SharedCondition.summon
  register := SharedCondition.register
  condition := fun _ => SharedCondition.changed
  acknowledge := SharedCondition.acknowledge
  unregister := SharedCondition.unregister

end AwaitStore.Store
