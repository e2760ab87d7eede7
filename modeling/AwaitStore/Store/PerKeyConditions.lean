import AwaitStore.Store.Triggers

namespace AwaitStore.Store

abbrev WaiterId := UInt64

abbrev WaiterSet := Std.ExtTreeSet WaiterId

structure Group where
  changed : Condition
  waiters : WaiterSet

/-- The callers that await one key form a group; a write summons the groups of the written keys and no
other. -/
structure PerKeyConditions where
  nextId : WaiterId
  conditions : Nat
  groups : Std.ExtTreeMap Key Group
  unsignaled : WaiterSet

namespace PerKeyConditions

structure Ticket where
  id : WaiterId
  changed : Condition
  deriving DecidableEq, Repr

def summonOne (s : PerKeyConditions) (key : Key) : PerKeyConditions × List Condition :=
  match s.groups[key]? with
  | some group =>
      ({ s with unsignaled := s.unsignaled.insertMany group.waiters.toList }, [group.changed])
  | none => (s, [])

def summon : List Key → PerKeyConditions → PerKeyConditions × List Condition
  | [], s => (s, [])
  | key :: keys, s =>
      let (s, first) := summonOne s key
      let (s, others) := summon keys s
      (s, first ++ others)

def register (key : Key) (s : PerKeyConditions) : Ticket × PerKeyConditions :=
  let id := s.nextId
  match s.groups[key]? with
  | some group =>
      (⟨id, group.changed⟩,
        { s with
          nextId := id + 1
          groups := s.groups.insert key { group with waiters := group.waiters.insert id } })
  | none =>
      let changed := s.conditions
      (⟨id, changed⟩,
        { s with
          nextId := id + 1
          conditions := changed + 1
          groups := s.groups.insert key ⟨changed, (∅ : WaiterSet).insert id⟩ })

def acknowledge (ticket : Ticket) (s : PerKeyConditions) : Bool × Ticket × PerKeyConditions :=
  let unsignaled := s.unsignaled.erase ticket.id
  (s.unsignaled.contains ticket.id && unsignaled.isEmpty, ticket, { s with unsignaled })

def unregister (key : Key) (ticket : Ticket) (s : PerKeyConditions) : PerKeyConditions :=
  match s.groups[key]? with
  | some group =>
      let waiters := group.waiters.erase ticket.id
      { s with
        groups :=
          if waiters.isEmpty then s.groups.erase key
          else s.groups.insert key { group with waiters } }
  | none => s

end PerKeyConditions

instance : Triggers PerKeyConditions where
  Ticket := PerKeyConditions.Ticket
  empty := ⟨0, 0, ∅, ∅⟩
  pending := fun s => !s.unsignaled.isEmpty
  summon := PerKeyConditions.summon
  register := PerKeyConditions.register
  condition := PerKeyConditions.Ticket.changed
  acknowledge := PerKeyConditions.acknowledge
  unregister := PerKeyConditions.unregister

end AwaitStore.Store
