namespace AwaitStore.Store

inductive Kind where
  | simple
  | multiCondition
  | sharded (shards : Nat)
  deriving DecidableEq, Repr

namespace Kind

def name : Kind → String
  | simple => "SimpleHashMapBackend"
  | multiCondition => "MultiConditionHashMapBackend"
  | sharded _ => "ShardedHashMapBackend"

def supportsGetWhen : Kind → Bool
  | simple | multiCondition => true
  | sharded _ => false

def display : Kind → String
  | sharded shards => s!"{(sharded shards).name}({shards})"
  | kind => kind.name

/-- Names are told apart without regard to the case of ASCII letters. Only a sharded store uses the
number of shards, and it needs at least one. -/
def ofName? (name : String) (shards : Nat) : Option Kind :=
  let name := String.ofList (name.toList.map Char.toLower)
  if name = "simple" ∨ name = "simplehashmapbackend" then some simple
  else if name = "multi_condition" ∨ name = "multicondition" ∨ name = "multiconditionhashmapbackend" then
    some multiCondition
  else if (name = "sharded" ∨ name = "shardedhashmapbackend") ∧ shards > 0 then some (sharded shards)
  else none

end Kind

end AwaitStore.Store
