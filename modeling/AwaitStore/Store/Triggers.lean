import AwaitStore.Data

namespace AwaitStore.Store

abbrev Condition := Nat

/-- Records of the callers that wait in a conditional read, under one lock with the table. After a write
every caller that the write may concern is summoned, and no further write is let in until each of them
has acknowledged. -/
class Triggers (σ : Type) where
  /-- What a caller keeps from its registration to its return. -/
  Ticket : Type
  empty : σ
  /-- Whether some caller still has to acknowledge the last write. -/
  pending : σ → Bool
  /-- Marks the callers concerned by a write of these keys, and names the conditions to be notified. -/
  summon : List Key → σ → σ × List Condition
  register : Key → σ → Ticket × σ
  condition : Ticket → Condition
  /-- Notes that a caller has woken up. The answer is true for the last of the summoned callers. -/
  acknowledge : Ticket → σ → Bool × Ticket × σ
  unregister : Key → Ticket → σ → σ

end AwaitStore.Store
