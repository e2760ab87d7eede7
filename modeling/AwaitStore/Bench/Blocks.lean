namespace AwaitStore.Bench

structure Block where
  first : Nat
  size : Nat
  deriving DecidableEq, Repr

def Block.at? (blockSize operations : Nat) (issued : UInt64) : Option Block :=
  if issued.toNat < operations then some ⟨issued.toNat, min blockSize (operations - issued.toNat)⟩
  else none

/-- One counter tells how many operations have been handed out. A worker, in whatever order, adds a
block to it, takes the operations from the old count on, and stops when they are used up. The counter is
a word, and workers go on adding to it after the end. -/
structure Claims where
  issued : UInt64
  running : List Nat
  /-- The blocks taken so far, the newest first. -/
  taken : List Block
  deriving DecidableEq, Repr

namespace Claims

def start (workers : Nat) : Claims := ⟨0, List.range workers, []⟩

def claim (blockSize operations worker : Nat) (c : Claims) : Option Claims :=
  if worker ∈ c.running then
    let issued := c.issued + blockSize.toUInt64
    match Block.at? blockSize operations c.issued with
    | some block => some { c with issued, taken := block :: c.taken }
    | none => some { c with issued, running := c.running.erase worker }
  else none

end Claims

end AwaitStore.Bench
