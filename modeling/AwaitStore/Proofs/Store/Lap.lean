import AwaitStore.Proofs.Store.Run
import AwaitStore.Store.PerKeyConditions

namespace AwaitStore.Store.SingleLock

open PerKeyConditions

section Reads

variable {σ : Type} [Triggers σ] {after : Nat → SingleLock σ} {wish : Wish}

def Passes (after : Nat → SingleLock σ) (wish : Wish) : Prop :=
  ∀ n call, ∃ value, (after n).start call wish = (after (n + 1), some ⟨call, value⟩)

theorem Passes.succ (h : Passes after wish) : Passes (fun n => after (n + 1)) wish := fun n => h (n + 1)

def reads (first n : Nat) (wish : Wish) : List Step := (List.range' first n).map fun call => .getWhen call wish

theorem calls_reads (first n : Nat) (wish : Wish) : calls (reads first n wish) = List.range' first n := by
  induction n generalizing first with
  | zero => rfl
  | succ n ih => exact congrArg (first :: ·) (ih (first + 1))

theorem run_reads (h : Passes after wish) (first n : Nat) :
    ∃ ended, (after 0).run (reads first n wish) = some (after n, ended) := by
  induction n generalizing first after with
  | zero => exact ⟨[], rfl⟩
  | succ n ih =>
      obtain ⟨value, hs⟩ := h 0 first
      obtain ⟨ended, hr⟩ := ih h.succ (first + 1)
      exact ⟨_, run_cons.mpr ⟨after 1, _, _, congrArg some hs, hr, rfl⟩⟩

end Reads

/-- The store after `n` conditional reads that have left nothing behind but the ids which they were given. -/
def lapped (s : SingleLock PerKeyConditions) (n : Nat) : SingleLock PerKeyConditions :=
  { s with triggers := { s.triggers with
      nextId := s.triggers.nextId + .ofNat n
      conditions := s.triggers.conditions + n } }

theorem lapped_zero (s : SingleLock PerKeyConditions) : s.lapped 0 = s := by
  simp [lapped]

theorem passes_lapped {s : SingleLock PerKeyConditions} {wish : Wish} (hh : wish.holds s.contents = true)
    (hg : s.triggers.groups[wish.keyCond]? = none) : Passes s.lapped wish := by
  intro n call
  -- Nobody else waits for the key, so the group that is made for the reader is gone when it returns.
  have hgroups (group : Group) :
      (s.triggers.groups.insert wish.keyCond group).erase wish.keyCond = s.triggers.groups := by
    refine Std.ExtTreeMap.ext_getElem? fun key => ?_
    rw [Std.ExtTreeMap.getElem?_erase, Std.ExtTreeMap.getElem?_insert]
    by_cases hk : wish.keyCond = key
    · simp [← hk, hg]
    · simp [hk]
  have halone (id : WaiterId) : (((∅ : WaiterSet).insert id).erase id).isEmpty = true := by
    simp [Std.ExtTreeSet.isEmpty_iff, Std.ExtTreeSet.eq_empty_iff_forall_not_mem]
  have hnext : s.triggers.nextId + .ofNat n + 1 = s.triggers.nextId + .ofNat (n + 1) := by
    rw [UInt64.ofNat_add, UInt64.add_assoc]
    rfl
  refine ⟨s.contents[wish.key]?, ?_⟩
  rw [start_eq, if_pos (show wish.holds (s.lapped n).contents = true from hh)]
  simp only [lapped, Triggers.register, Triggers.unregister, register, unregister, hg,
    Std.ExtTreeMap.getElem?_insert_self, halone, hgroups, hnext, if_true, Nat.add_assoc]

def lap : Nat := UInt64.size - 1

/-- The call that comes after them and gets the first id again. -/
def namesake : Nat := lap + 2

theorem range_lap (n : Nat) : List.range (n + 5) = 0 :: 1 :: (List.range' 2 n ++ [n + 2, n + 3, n + 4]) := by
  have hlast := List.range'_append_1 (s := 2) (m := n) (n := 3)
  rw [Nat.add_comm n 5, List.range_eq_range', Nat.add_assoc 2 3 n, Nat.add_comm 3 n,
    ← List.range'_append_1 (s := 0) (m := 2), Nat.zero_add, ← hlast, Nat.add_comm 2 n]
  rfl

def lone : SingleLock PerKeyConditions :=
  ⟨(∅ : Table).insert "b" [1], ⟨1, 1, (∅ : Std.ExtTreeMap Key Group).insert "a" ⟨0, (∅ : WaiterSet).insert 0⟩, ∅⟩,
    [⟨1, ⟨"x", "a", [1]⟩, ⟨0, 0⟩, false⟩]⟩

end AwaitStore.Store.SingleLock
