import AwaitStore.Proofs.Store.Equivalence
import AwaitStore.Proofs.Store.Shards

namespace AwaitStore.Store

def tableHistory (table : Table) : List (Nat × Operation) → List Observation
  | [] => []
  | (call, op) :: rest =>
      match op.onTable table with
      | none => []
      | some (after, answer) => ⟨[⟨call, .ok answer⟩], after, after.size, []⟩ :: tableHistory after rest

theorem exists_onTable {op : Operation} (h : op.isConditional = false) (table : Table) :
    ∃ after answer, op.onTable table = some (after, answer) := by
  cases op with
  | getWhen wish => cases h
  | put key value | get key | multiPut pairs | multiGet keys => exact ⟨_, _, rfl⟩

theorem AtomicStore.history_eq {requests : List (Nat × Operation)}
    (hr : ∀ r ∈ requests, r.2.isConditional = false) (table : Table) :
    AtomicStore.history ⟨table, []⟩ requests = tableHistory table requests := by
  induction requests generalizing table with
  | nil => rfl
  | cons r rest ih =>
      obtain ⟨call, op⟩ := r
      have hrest := ih fun r hr' => hr r (List.mem_cons_of_mem _ hr')
      cases op with
      | getWhen wish => cases hr _ List.mem_cons_self
      | put key value | get key | multiPut pairs | multiGet keys => exact congrArg _ (hrest _)

theorem eq_tableHistory {requests : List (Nat × Operation)} {table : Table} {seen : List Observation}
    (h : List.Forall₂ Observation.Alike seen (tableHistory table requests)) :
    seen = tableHistory table requests := by
  induction requests generalizing table seen with
  | nil =>
      cases h
      rfl
  | cons r rest ih =>
      obtain ⟨call, op⟩ := r
      rw [tableHistory] at h ⊢
      cases ho : op.onTable table with
      | none =>
          rw [ho] at h
          cases h
          rfl
      | some p =>
          obtain ⟨after, answer⟩ := p
          rw [ho] at h
          cases h with
          | cons ha hrest => rw [ih hrest, ha.eq_of_singleton rfl]

namespace Sharded

variable {n : Nat} (hash : Key → UInt64)

def serve (order : Wire.Listing) (op : Operation) (s : Sharded n) : Sharded n × Outcome :=
  match op with
  | .put key value => (s.put hash key value, .ok .stored)
  | .get key => (s, .ok (.value (s.get hash key)))
  | .multiPut pairs => (s.multiPut hash (order.pairs pairs), .ok .stored)
  | .multiGet keys => (s, .ok (.values (s.multiGet hash (order.keys keys))))
  | .getWhen _ => (s, .error (.unsupported (Kind.sharded n).name "get_when"))

theorem perform_eq_serve (call : Nat) (op : Operation) (s : Sharded n) :
    s.perform hash call op = ((s.serve hash .ascending op).1, [⟨call, (s.serve hash .ascending op).2⟩]) := by
  cases op <;> rfl

def run (s : Sharded n) (calls : List (Wire.Listing × Nat × Operation)) : Sharded n :=
  calls.foldl (fun s c => (s.serve hash c.1 c.2.2).1) s

def history (s : Sharded n) : List (Wire.Listing × Nat × Operation) → List Observation
  | [] => []
  | (order, call, op) :: rest =>
      let (t, outcome) := s.serve hash order op
      ⟨[⟨call, outcome⟩], t.snapshot, t.size, []⟩ :: history t rest

variable {hash}

theorem Holds.serve {s : Sharded n} {table after : Table} (h : s.Holds hash table) {op : Operation} {answer : Answer}
    (hc : op.isConditional = false) (ho : op.onTable table = some (after, answer)) (order : Wire.Listing) :
    (s.serve hash order op).1.Holds hash after ∧ (s.serve hash order op).2 = .ok answer := by
  cases op with
  | put key value =>
      cases ho
      exact ⟨h.put key value, rfl⟩
  | get key =>
      cases ho
      exact ⟨h, by rw [Sharded.serve, h.get]⟩
  | multiPut pairs =>
      cases ho
      have hput := h.multiPut (order.pairs pairs)
      rw [Table.putAll_of_perm table (order.pairs_perm pairs)] at hput
      exact ⟨hput, rfl⟩
  | multiGet keys =>
      cases ho
      exact ⟨h, by rw [Sharded.serve, h.multiGet, Table.collect_of_perm table (order.keys_perm keys)]⟩
  | getWhen wish => cases hc

theorem Holds.history {s : Sharded n} {table : Table} (h : s.Holds hash table)
    {calls : List (Wire.Listing × Nat × Operation)} (hc : ∀ c ∈ calls, c.2.2.isConditional = false) :
    s.history hash calls = tableHistory table (calls.map Prod.snd) ∧
      ∃ after, (s.run hash calls).Holds hash after := by
  induction calls generalizing s table with
  | nil => exact ⟨rfl, table, h⟩
  | cons c rest ih =>
      obtain ⟨order, call, op⟩ := c
      have hop : op.isConditional = false := hc _ List.mem_cons_self
      obtain ⟨after, answer, ho⟩ := exists_onTable hop table
      obtain ⟨hafter, hanswer⟩ := h.serve hop ho order
      obtain ⟨hrest, hrun⟩ := ih hafter fun c hc' => hc c (List.mem_cons_of_mem _ hc')
      refine ⟨?_, hrun⟩
      rw [Sharded.history, List.map_cons, tableHistory, ho]
      simp only [hrest, hanswer, hafter.snapshot, hafter.size]

/-- Whatever is called of a sharded table, none of it a conditional read, it answers as one table does. At all times
each key is in the shard that its hash gives and in no other, and the shards together are that table. A single-lock
store with one condition for all callers shows the same. -/
theorem history_eq_tableHistory (n_pos : 0 < n) (calls : List (Wire.Listing × Nat × Operation))
    (hc : ∀ c ∈ calls, c.2.2.isConditional = false) :
    history hash (empty n_pos) calls = tableHistory ∅ (calls.map Prod.snd) ∧
      Holds hash (run hash (empty n_pos) calls) (run hash (empty n_pos) calls).snapshot ∧
      (∃ seen, SingleLock.Shows SharedCondition (calls.map Prod.snd) seen) ∧
      ∀ seen, SingleLock.Shows SharedCondition (calls.map Prod.snd) seen →
        seen = history hash (empty n_pos) calls := by
  have hr : ∀ r ∈ calls.map Prod.snd, r.2.isConditional = false := by
    intro r hr
    obtain ⟨c, hmem, rfl⟩ := List.mem_map.mp hr
    exact hc c hmem
  obtain ⟨hhistory, after, hafter⟩ := (holds_empty n_pos).history hc
  have hshared := SingleLock.provides_unconditional hr
  refine ⟨hhistory, hafter.snapshot.symm ▸ hafter, hshared.exists_shows, fun seen hs => ?_⟩
  have hseen := hshared.alike hs
  rw [AtomicStore.empty, AtomicStore.history_eq hr] at hseen
  rw [hhistory]
  exact eq_tableHistory hseen

/-- Two keys share a shard and a third has one for itself. The collections are gone through backwards. -/
theorem history_eq_tableHistory_backwards :
    let backwards : Wire.Listing :=
      ⟨fun t => t.toList.reverse, fun s => s.toList.reverse, fun _ => List.reverse_perm _, fun _ => List.reverse_perm _⟩
    let hash : Key → UInt64 := fun key => if key = "c" then 6 else 9
    let calls : List (Wire.Listing × Nat × Operation) :=
      [(backwards, 1, .multiPut (Table.ofPairs [("a", [1]), ("b", [2]), ("c", [3])])), (backwards, 2, .put "b" [4]),
        (backwards, 3, .multiGet (KeySet.ofKeys ["c", "d", "b"])), (backwards, 4, .get "d")]
    (∀ c ∈ calls, c.2.2.isConditional = false) ∧
      (run hash (empty (show 0 < 4 by decide)) calls).shards.toList.map Std.ExtTreeMap.toList =
        [[], [("a", [1]), ("b", [4])], [("c", [3])], []] ∧
      history hash (empty (show 0 < 4 by decide)) calls = tableHistory ∅ (calls.map Prod.snd) := by
  refine ⟨by decide, rfl, ?_⟩
  exact (history_eq_tableHistory (by decide) _ (by decide)).1

end Sharded

end AwaitStore.Store
