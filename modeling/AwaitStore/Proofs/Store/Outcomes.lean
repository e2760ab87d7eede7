import AwaitStore.Proofs.Store.OneTable
import AwaitStore.Proofs.Store.Release

namespace AwaitStore

namespace Operation

def leaves (op : Operation) (table : Table) : Table := ((op.onTable table).map Prod.fst).getD table

theorem leaves_of_onTable {op : Operation} {table after : Table} {answer : Answer}
    (h : op.onTable table = some (after, answer)) : op.leaves table = after := by
  rw [leaves, h]
  rfl

theorem leaves_getWhen (wish : Wish) (table : Table) : (getWhen wish).leaves table = table := by
  by_cases hh : wish.holds table
  · simp [leaves, onTable, hh]
  · simp [leaves, onTable, hh]

end Operation

namespace Store

namespace Kind

variable (kind : Kind) (table : Table) (op : Operation)

/-- What an operation comes to on a store of this kind that holds this table, `none` where it has to wait. -/
def outcome? : Option Outcome :=
  if op.isConditional && !kind.supportsGetWhen then some (.error (.unsupported kind.name "get_when"))
  else (op.onTable table).map fun p => .ok p.2

/-- What it comes to as soon as it need not wait, if these operations come later. -/
def eventually? (later : List Operation) : Option Outcome :=
  (later.scanl (fun t next => next.leaves t) table).findSome? fun t => kind.outcome? t op

def return? (request : Nat × Operation) : Option Return :=
  (kind.outcome? table request.2).map fun outcome => ⟨request.1, outcome⟩

def finally? (later : List Operation) (request : Nat × Operation) : Option Return :=
  (kind.eventually? table request.2 later).map fun outcome => ⟨request.1, outcome⟩

theorem eventually?_nil : kind.eventually? table op [] = kind.outcome? table op := by
  simp [eventually?]

theorem eventually?_cons (next : Operation) (later : List Operation) :
    kind.eventually? table op (next :: later) =
      (kind.outcome? table op).or (kind.eventually? (next.leaves table) op later) := by
  rw [eventually?, List.scanl_cons, List.findSome?_cons]
  cases kind.outcome? table op <;> rfl

variable {kind table op}

theorem outcome?_getWhen (hkind : kind.supportsGetWhen = true) (wish : Wish) :
    kind.outcome? table (.getWhen wish) =
      if wish.holds table then some (.ok (.value table[wish.key]?)) else none := by
  rw [outcome?, hkind, Bool.not_true, Bool.and_false, if_neg Bool.false_ne_true, Operation.onTable]
  split <;> rfl

theorem return?_getWhen (hkind : kind.supportsGetWhen = true) (call : Nat) (wish : Wish) :
    kind.return? table (call, .getWhen wish) =
      if wish.holds table then some ⟨call, .ok (.value table[wish.key]?)⟩ else none := by
  refine (congrArg (Option.map _) (outcome?_getWhen hkind wish)).trans ?_
  split <;> rfl

theorem outcome?_of_onTable {after : Table} {answer : Answer} (hop : op.isConditional = false)
    (h : op.onTable table = some (after, answer)) : kind.outcome? table op = some (.ok answer) := by
  rw [outcome?, hop, Bool.false_and, if_neg Bool.false_ne_true, h]
  rfl

theorem outcome?_leaves : kind.outcome? (op.leaves table) op = kind.outcome? table op := by
  cases op with
  | put key value | multiPut pairs | get key | multiGet keys => rfl
  | getWhen wish => rw [Operation.leaves_getWhen]

theorem eventually?_of_some {outcome : Outcome} (h : kind.outcome? table op = some outcome) (later : List Operation) :
    kind.eventually? table op later = some outcome := by
  cases later with
  | nil => rw [eventually?_nil, h]
  | cons next later => rw [eventually?_cons, h, Option.some_or]

theorem eventually?_of_none (h : kind.outcome? table op = none) (next : Operation) (later : List Operation) :
    kind.eventually? table op (next :: later) = kind.eventually? (next.leaves table) op later := by
  rw [eventually?_cons, h, Option.none_or]

section Waiting

variable (kind table) (pending : List (Nat × Operation)) (later : List Operation)

theorem map_call_return? : (pending.filterMap (kind.return? table)).map Return.call =
    (pending.filter fun w => (kind.outcome? table w.2).isSome).map Prod.fst := by
  rw [List.map_filterMap, ← List.filterMap_eq_map, List.filterMap_filter]
  refine List.filterMap_congr fun w _ => ?_
  rw [return?]
  cases kind.outcome? table w.2 <;> rfl

theorem map_call_sublist :
    ((pending.filterMap (kind.return? table)).map Return.call).Sublist (pending.map Prod.fst) := by
  rw [map_call_return?]
  exact List.filter_sublist.map Prod.fst

variable {kind table pending} in
theorem mem_map_call_iff (hn : (pending.map Prod.fst).Nodup) {w : Nat × Operation} (hw : w ∈ pending) :
    w.1 ∈ (pending.filterMap (kind.return? table)).map Return.call ↔ (kind.outcome? table w.2).isSome = true := by
  rw [map_call_return?]
  constructor
  · intro h
    obtain ⟨other, ho, hcall⟩ := List.mem_map.mp h
    obtain ⟨hmem, hsome⟩ := List.mem_filter.mp ho
    exact List.inj_on_of_nodup_map hn hmem hw hcall ▸ hsome
  · exact fun h => List.mem_map_of_mem (List.mem_filter.mpr ⟨hw, h⟩)

/-- Those return who need not wait, and then those of the others who need not wait later. -/
theorem finally?_perm : (pending.filterMap (kind.finally? table later)).Perm
    (pending.filterMap (kind.return? table) ++
      (pending.filter fun w => (kind.outcome? table w.2).isNone).filterMap (kind.finally? table later)) := by
  induction pending with
  | nil => exact .refl _
  | cons w pending ih =>
      cases ho : kind.outcome? table w.2 with
      | some outcome =>
          have hreturn : kind.return? table w = some ⟨w.1, outcome⟩ := congrArg (Option.map _) ho
          have hfinally : kind.finally? table later w = some ⟨w.1, outcome⟩ :=
            congrArg (Option.map _) (eventually?_of_some ho later)
          rw [List.filterMap_cons_some hreturn, List.filterMap_cons_some hfinally, List.filter_cons, ho]
          exact ih.cons _
      | none =>
          have hreturn : kind.return? table w = none := congrArg (Option.map _) ho
          rw [List.filterMap_cons_none hreturn, List.filter_cons, ho, Option.isNone_none, if_pos rfl]
          cases hfinally : kind.finally? table later w with
          | some ret =>
              rw [List.filterMap_cons_some hfinally, List.filterMap_cons_some hfinally]
              exact (ih.cons ret).trans List.perm_middle.symm
          | none =>
              rw [List.filterMap_cons_none hfinally, List.filterMap_cons_none hfinally]
              exact ih

theorem filter_isNone_outcome? :
    (pending.filter fun w => (kind.outcome? table w.2).isNone).filter
        (fun w => (kind.eventually? table w.2 later).isNone) =
      pending.filter fun w => (kind.eventually? table w.2 later).isNone := by
  rw [List.filter_filter]
  refine List.filter_congr fun w _ => ?_
  cases ho : kind.outcome? table w.2 with
  | some outcome => rw [eventually?_of_some ho]; rfl
  | none => exact Bool.and_true _

end Waiting

end Kind

namespace AtomicStore

variable {kind : Kind}

def calls (s : AtomicStore) : List (Nat × Operation) := s.waiting.map fun w => (w.1, .getWhen w.2)

theorem ripe_eq (hkind : kind.supportsGetWhen = true) (s : AtomicStore) :
    s.ripe = s.calls.filterMap (kind.return? s.contents) := by
  rw [ripe, calls, List.filterMap_map, ← List.filterMap_eq_map, List.filterMap_filter]
  refine List.filterMap_congr fun w _ => ?_
  exact (Kind.return?_getWhen hkind w.1 w.2).symm

theorem calls_rest (hkind : kind.supportsGetWhen = true) (s : AtomicStore) :
    s.rest.calls = s.calls.filter fun w => (kind.outcome? s.contents w.2).isNone := by
  rw [calls, calls, rest, List.filter_map]
  refine congrArg (List.map _) (List.filter_congr fun w _ => ?_)
  rw [Function.comp_apply, Kind.outcome?_getWhen hkind]
  cases w.2.holds s.contents <;> rfl

theorem perform_of_onTable {s : AtomicStore} {op : Operation} {after : Table} {answer : Answer}
    (hop : op.isConditional = false) (ho : op.onTable s.contents = some (after, answer)) (call : Nat) :
    s.perform call op = perform.settle [⟨call, .ok answer⟩] ⟨after, s.waiting⟩ := by
  cases op with
  | put key value | multiPut pairs | get key | multiGet keys =>
      cases ho
      rfl
  | getWhen wish => cases hop

theorem perform_eq (hkind : kind.supportsGetWhen = true) (s : AtomicStore) (call : Nat) (op : Operation) :
    (s.perform call op).1.contents = op.leaves s.contents ∧
      (s.perform call op).1.calls =
        (s.calls ++ [(call, op)]).filter (fun w => (kind.outcome? (op.leaves s.contents) w.2).isNone) ∧
      (s.perform call op).2.Perm ((s.calls ++ [(call, op)]).filterMap (kind.return? (op.leaves s.contents))) := by
  cases hop : op.isConditional with
  | false =>
      obtain ⟨after, answer, ho⟩ := exists_onTable hop s.contents
      have hown : kind.outcome? after op = some (.ok answer) := by
        rw [← Operation.leaves_of_onTable ho, Kind.outcome?_leaves, Kind.outcome?_of_onTable hop ho]
      have hreturn : kind.return? after (call, op) = some ⟨call, .ok answer⟩ := congrArg (Option.map _) hown
      rw [perform_of_onTable hop ho, Operation.leaves_of_onTable ho]
      refine ⟨rfl, ?_, ?_⟩
      · rw [List.filter_append, List.filter_singleton, hown, Option.isNone_some, cond_false, List.append_nil]
        exact calls_rest hkind ⟨after, s.waiting⟩
      · -- It returns before the others.
        rw [List.filterMap_append, List.filterMap_cons_some hreturn]
        refine List.Perm.trans ?_ List.perm_append_comm
        exact .of_eq (congrArg (_ :: ·) (ripe_eq hkind ⟨after, s.waiting⟩))
  | true =>
      cases op with
      | getWhen wish =>
          have hcalls : (AtomicStore.mk s.contents (s.waiting ++ [(call, wish)])).calls =
              s.calls ++ [(call, .getWhen wish)] := List.map_append
          rw [Operation.leaves_getWhen, ← hcalls]
          exact ⟨rfl, calls_rest hkind ⟨s.contents, s.waiting ++ [(call, wish)]⟩,
            .of_eq (ripe_eq hkind ⟨s.contents, s.waiting ++ [(call, wish)]⟩)⟩
      | put key value | multiPut pairs | get key | multiGet keys => cases hop

end AtomicStore

namespace Backend

variable {a : Turn} {b c : Backend} {requests whole back : List (Nat × Operation)} {returns : List Return}

def calls (b : Backend) : List (Nat × Operation) := b.atomic.calls

theorem numbers_calls (b : Backend) : b.calls.map Prod.fst = b.asleep := by
  rw [← b.asleep_atomic, calls, AtomicStore.calls, List.map_map]
  rfl

/-- What one call may lead to, in whatever order its collections are gone through and those who sleep wake up. -/
inductive Served (a : Turn) : Backend → List Return → Backend → Prop where
  | locked {b c : Backend} {returns : List Return} (h : Turned a b returns c) : Served a b returns c
  | sharded {n : Nat} (s : Sharded n) :
      Served a (.sharded n s) [⟨a.call, (s.serve SipHash.ofKey a.order a.operation).2⟩]
        (.sharded n (s.serve SipHash.ofKey a.order a.operation).1)

inductive After (requests : List (Nat × Operation)) : Backend → Prop where
  | simple {s : SingleLock SharedCondition} (h : SingleLock.Course (fun _ _ => True) requests s) :
      After requests (.simple s)
  | multiCondition {s : SingleLock PerKeyConditions} (h : SingleLock.Course SingleLock.Numbered requests s) :
      After requests (.multiCondition s)
  | sharded {n : Nat} {s : Sharded n} (h : s.Holds SipHash.ofKey s.snapshot) : After requests (.sharded n s)

structure Answers (a : Turn) (b : Backend) (returns : List Return) (c : Backend) : Prop where
  kind_eq : c.kind = b.kind
  contents_eq : c.contents = a.operation.leaves b.contents
  calls_eq : c.calls = (b.calls ++ [a.request]).filter fun w => (b.kind.outcome? c.contents w.2).isNone
  returns_perm : returns.Perm ((b.calls ++ [a.request]).filterMap (b.kind.return? c.contents))

theorem Answers.mem_returns (h : Answers a b returns c) {outcome : Outcome}
    (ho : b.kind.outcome? b.contents a.operation = some outcome) : ⟨a.call, outcome⟩ ∈ returns := by
  rw [← Kind.outcome?_leaves, ← h.contents_eq] at ho
  refine h.returns_perm.mem_iff.mpr (List.mem_filterMap.mpr ⟨a.request, List.mem_append_right _ ?_, ?_⟩)
  · exact List.mem_singleton_self _
  · exact congrArg (Option.map _) ho

theorem answers_of_atomic (hkind : b.kind.supportsGetWhen = true) (hsame : c.kind = b.kind)
    (hatomic : c.atomic = (b.atomic.perform a.call a.operation).1)
    (hreturns : returns.Perm (b.atomic.perform a.call a.operation).2) : Answers a b returns c := by
  obtain ⟨hcontents, hcalls, hperm⟩ := b.atomic.perform_eq hkind a.call a.operation
  rw [← hatomic] at hcontents hcalls
  rw [← hcontents] at hcalls hperm
  rw [contents_atomic] at hcontents hcalls hperm
  exact ⟨hsame, hcontents.trans (congrArg _ b.contents_atomic), hcalls, hreturns.trans hperm⟩

theorem answers_of_serve {n : Nat} {s : Sharded n} (h : s.Holds SipHash.ofKey s.snapshot) (a : Turn) :
    (s.serve SipHash.ofKey a.order a.operation).1.Holds SipHash.ofKey
        (s.serve SipHash.ofKey a.order a.operation).1.snapshot ∧
      Answers a (.sharded n s) [⟨a.call, (s.serve SipHash.ofKey a.order a.operation).2⟩]
        (.sharded n (s.serve SipHash.ofKey a.order a.operation).1) := by
  obtain ⟨call, op, order, wakes⟩ := a
  -- Nobody sleeps, and the call returns at once.
  have hone (t : Sharded n) (outcome : Outcome) (ht : t.snapshot = op.leaves s.snapshot)
      (ho : (Kind.sharded n).outcome? t.snapshot op = some outcome) :
      Answers ⟨call, op, order, wakes⟩ (.sharded n s) [⟨call, outcome⟩] (.sharded n t) := by
    refine ⟨rfl, ht, ?_, ?_⟩
    · change [] = [(call, op)].filter _
      change ((Backend.sharded n s).kind.outcome? (Backend.sharded n t).contents op) = _ at ho
      rw [List.filter_singleton, ho]
      rfl
    · change [_].Perm ([(call, op)].filterMap _)
      rw [List.filterMap_cons_some (b := ⟨call, outcome⟩) (congrArg (Option.map _) ho)]
      exact .refl _
  cases hop : op.isConditional with
  | false =>
      obtain ⟨after, answer, ho⟩ := exists_onTable hop s.snapshot
      obtain ⟨hafter, hanswer⟩ := h.serve hop ho order
      have hleaves := (Operation.leaves_of_onTable ho).symm
      rw [hanswer]
      refine ⟨hafter.snapshot.symm ▸ hafter, hone _ _ (hafter.snapshot.trans hleaves) ?_⟩
      rw [hafter.snapshot, hleaves, Kind.outcome?_leaves, Kind.outcome?_of_onTable hop ho]
  | true =>
      cases op with
      | getWhen wish => exact ⟨h, hone s _ (Operation.leaves_getWhen wish _).symm rfl⟩
      | put key value | multiPut pairs | get key | multiGet keys => cases hop

section Served

variable (he : whole = requests ++ a.request :: back)

include he

theorem answers_of_turn {σ : Type} [Triggers σ] [Calling σ] {s t : SingleLock σ} {seen : Observation}
    {Known : List (Nat × Operation) → SingleLock σ → Prop} (h : SingleLock.Course Known requests s)
    (hp : SingleLock.Provides Known whole) (ht : s.turn a = some (t, some seen)) (hb : b.atomic = s.atomic)
    (hc : c.atomic = t.atomic) (hkind : b.kind.supportsGetWhen = true) (hsame : c.kind = b.kind) :
    SingleLock.Course Known (requests ++ [a.request]) t ∧ Answers a b seen.returns c := by
  obtain ⟨hcourse, o, hseen, halike⟩ := h.turn hp he ht
  cases hseen
  refine ⟨hcourse, answers_of_atomic hkind hsame ?_ ?_⟩
  · rw [hc, hb, hcourse.atomic_eq, h.atomic_eq, AtomicStore.run_snoc]
    rfl
  · rw [hb, h.atomic_eq]
    exact halike.returns

theorem After.served (h : b.After requests) (hn : (whole.map Prod.fst).Nodup)
    (hl : b.kind = .multiCondition → NoneLapped whole) (hs : Served a b returns c) :
    c.After (requests ++ [a.request]) ∧ Answers a b returns c := by
  cases hs with
  | locked ht =>
      cases ht with
      | simple ht =>
          cases h with
          | simple h =>
              obtain ⟨hcourse, hanswers⟩ := answers_of_turn (b := .simple _) (c := .simple _) he h
                (SingleLock.provides_shared hn) ht rfl rfl rfl rfl
              exact ⟨.simple hcourse, hanswers⟩
      | multiCondition ht =>
          cases h with
          | multiCondition h =>
              obtain ⟨hcourse, hanswers⟩ := answers_of_turn (b := .multiCondition _) (c := .multiCondition _) he h
                (SingleLock.provides_perKey hn (hl rfl)) ht rfl rfl rfl rfl
              exact ⟨.multiCondition hcourse, hanswers⟩
  | sharded s =>
      cases h with
      | sharded h =>
          obtain ⟨hholds, hanswers⟩ := answers_of_serve h a
          exact ⟨.sharded hholds, hanswers⟩

end Served

theorem After.served_perform {call : Nat} {op : Operation} (he : whole = requests ++ (call, op) :: back)
    (hn : (whole.map Prod.fst).Nodup) (h : b.After requests) (hl : b.kind = .multiCondition → NoneLapped whole) :
    ∃ wakes, Served ⟨call, op, .ascending, wakes⟩ b (b.perform call op).2 (b.perform call op).1 := by
  cases h with
  | simple h =>
      obtain ⟨wakes, ht⟩ := h.exact.turn_perform h.due_eq (h.allows (SingleLock.provides_shared hn) he)
      exact ⟨wakes, .locked (.simple ht)⟩
  | multiCondition h =>
      obtain ⟨wakes, ht⟩ := h.exact.turn_perform h.due_eq (h.allows (SingleLock.provides_perKey hn (hl rfl)) he)
      exact ⟨wakes, .locked (.multiCondition ht)⟩
  | @sharded n s h =>
      have hs : Served ⟨call, op, .ascending, []⟩ (.sharded n s) _ _ := .sharded s
      refine ⟨[], ?_⟩
      rw [Backend.perform, Sharded.perform_eq_serve]
      exact hs

theorem after_build {kind : Kind} (h : kind.build = .ok b) :
    b.After [] ∧ b.contents = ∅ ∧ b.calls = [] := by
  obtain ⟨rfl, rfl⟩ | ⟨rfl, rfl⟩ | ⟨n, n_pos, rfl, rfl⟩ := build_cases h
  · exact ⟨.simple ⟨SingleLock.exact_empty, rfl, rfl, trivial⟩, rfl, rfl⟩
  · exact ⟨.multiCondition ⟨SingleLock.exact_empty, rfl, rfl, rfl, by simp [SingleLock.empty]⟩, rfl, rfl⟩
  · have hempty : (Sharded.empty n_pos).Holds SipHash.ofKey ∅ := Sharded.holds_empty n_pos
    exact ⟨.sharded (hempty.snapshot.symm ▸ hempty), hempty.snapshot, rfl⟩

end Backend

end Store

end AwaitStore
