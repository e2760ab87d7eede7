import AwaitStore.Operation

namespace AwaitStore.Store

/-- A table split by the hash of the key. An operation on several keys visits each shard it needs once,
in ascending order, so that calls which hold several locks take them in one common order. -/
structure Sharded (n : Nat) where
  shards : Vector Table n
  n_pos : 0 < n

namespace Sharded

variable {n : Nat} (hash : Key → UInt64)

def empty (n_pos : 0 < n) : Sharded n := ⟨Vector.replicate n ∅, n_pos⟩

def shardOf (n_pos : 0 < n) (key : Key) : Fin n := ⟨(hash key).toNat % n, Nat.mod_lt _ n_pos⟩

/-- Items by the shard of their key, the shards ascending and the items of one shard in the order they
came in. -/
def group {α : Type} (n_pos : 0 < n) (keyOf : α → Key) (items : List α) :
    Std.ExtTreeMap (Fin n) (List α) :=
  items.foldl
    (fun groups item => groups.alter (shardOf hash n_pos (keyOf item)) (fun g => some (g.getD [] ++ [item])))
    ∅

def shard (s : Sharded n) (i : Fin n) : Table := s.shards.get i

def update (s : Sharded n) (i : Fin n) (f : Table → Table) : Sharded n :=
  { s with shards := s.shards.set i.val (f (s.shard i)) i.isLt }

def put (s : Sharded n) (key : Key) (value : Value) : Sharded n :=
  s.update (shardOf hash s.n_pos key) (fun t => t.insert key value)

def get (s : Sharded n) (key : Key) : Option Value := (s.shard (shardOf hash s.n_pos key))[key]?

/-- The shards of all groups are locked before the first group is visited. Each lock is then met with a group
again, one after the other. -/
def guarded {α : Type} (groups : Std.ExtTreeMap (Fin n) (List α)) : List (Fin n × List α) :=
  (groups.toList.map Prod.fst).zip (groups.toList.map Prod.snd)

def multiPut (s : Sharded n) (entries : List (Key × Value)) : Sharded n :=
  (guarded (group hash s.n_pos Prod.fst entries)).foldl (fun s g => s.update g.1 (fun t => t.putAll g.2)) s

def multiGet (s : Sharded n) (keys : List Key) : Table :=
  (guarded (group hash s.n_pos id keys)).foldl
    (fun found g => found.putAll ((s.shard g.1).collect g.2).toList) ∅

def snapshot (s : Sharded n) : Table :=
  s.shards.toList.foldl (fun all shard => all.putAll shard.toList) ∅

def size (s : Sharded n) : Nat := s.shards.toList.foldl (fun n shard => n + shard.size) 0

end Sharded

end AwaitStore.Store
