import AwaitStore.Proofs.Store.Visits

namespace AwaitStore.Store

variable {n : Nat} {hash : Key → UInt64} {n_pos : 0 < n}

def inTurn {σ : Type} (perform : σ → ShardCall → σ × ShardAnswer) (s : σ) :
    List (Nat × ShardCall) → σ × List (Nat × ShardAnswer)
  | [] => (s, [])
  | (number, request) :: rest =>
      let (t, answer) := perform s request
      let (last, answers) := inTurn perform t rest
      (last, (number, answer) :: answers)

theorem inTurn_concat {σ : Type} {perform : σ → ShardCall → σ × ShardAnswer} (s : σ) (order : List (Nat × ShardCall))
    (number : Nat) (request : ShardCall) :
    inTurn perform s (order ++ [(number, request)]) =
      ((perform (inTurn perform s order).1 request).1,
        (inTurn perform s order).2 ++ [(number, (perform (inTurn perform s order).1 request).2)]) := by
  induction order generalizing s with
  | nil => rfl
  | cons e rest ih => simp only [List.cons_append, inTurn, ih]

theorem mem_inTurn {σ : Type} {perform : σ → ShardCall → σ × ShardAnswer} {start : σ}
    {order : List (Nat × ShardCall)} {number : Nat} {answer : ShardAnswer}
    (h : (number, answer) ∈ (inTurn perform start order).2) :
    ∃ before request after, order = before ++ (number, request) :: after ∧
      answer = (perform (inTurn perform start before).1 request).2 := by
  induction order using List.reverseRecOn with
  | nil => cases h
  | append_singleton front last ih =>
      rw [inTurn_concat] at h
      rcases List.mem_append.mp h with h | h
      · obtain ⟨before, request, after, rfl, hanswer⟩ := ih h
        exact ⟨before, request, after ++ [last], by rw [List.append_assoc, List.cons_append], hanswer⟩
      · cases List.mem_singleton.mp h
        exact ⟨front, last.2, [], rfl, rfl⟩

def ShardCall.onTable (table : Table) : ShardCall → Table × ShardAnswer
  | put key value => (table.insert key value, .stored)
  | get key => (table, .value table[key]?)
  | multiPut entries => (table.putAll entries, .stored)
  | multiGet keys => (table, .table (table.collect keys))
  | snapshot => (table, .table table)
  | size => (table, .size table.size)

theorem Sharded.Holds.alone {s : Sharded n} {table : Table} (h : s.Holds hash table) (request : ShardCall) :
    (request.alone hash s).1.Holds hash (request.onTable table).1 ∧
      (request.alone hash s).2 = (request.onTable table).2 := by
  cases request with
  | put key value => exact ⟨h.put key value, rfl⟩
  | get key => exact ⟨h, congrArg ShardAnswer.value (h.get key)⟩
  | multiPut entries => exact ⟨h.multiPut entries, rfl⟩
  | multiGet keys => exact ⟨h, congrArg ShardAnswer.table (h.multiGet keys)⟩
  | snapshot => exact ⟨h, congrArg ShardAnswer.table h.snapshot⟩
  | size => exact ⟨h, congrArg ShardAnswer.size h.size⟩

theorem Sharded.Holds.inTurn {s : Sharded n} {table : Table} (h : s.Holds hash table)
    (order : List (Nat × ShardCall)) :
    (inTurn (ShardCall.alone hash) s order).1.Holds hash (inTurn ShardCall.onTable table order).1 ∧
      (inTurn (ShardCall.alone hash) s order).2 = (inTurn ShardCall.onTable table order).2 := by
  induction order generalizing s table with
  | nil => exact ⟨h, rfl⟩
  | cons e rest ih =>
      obtain ⟨hafter, hanswer⟩ := h.alone e.2
      obtain ⟨hlast, hanswers⟩ := ih hafter
      exact ⟨hlast, by simp only [Store.inTurn, hanswer, hanswers]⟩

end AwaitStore.Store
