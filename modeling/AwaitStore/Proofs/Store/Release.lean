import AwaitStore.Proofs.Store.Quiet
import Mathlib.Data.List.ProdSigma

namespace AwaitStore.Store

namespace AtomicStore

variable {s : AtomicStore} {call i : Nat} {op : Operation} {wish : Wish}

theorem mem_ripe {x : Return} : x ∈ s.ripe ↔
    ∃ i wish, (i, wish) ∈ s.waiting ∧ wish.holds s.contents = true ∧ x = ⟨i, .ok (.value s.contents[wish.key]?)⟩ := by
  simp only [ripe, List.mem_map, List.mem_filter, Prod.exists, and_assoc, eq_comm]

theorem outcome_ok (s : AtomicStore) (call : Nat) (op : Operation) :
    ∀ x ∈ (s.perform call op).2, ∃ answer, x.outcome = .ok answer := by
  have hsettle (own : List Return) (hown : ∀ x ∈ own, ∃ answer, x.outcome = .ok answer) (t : AtomicStore) :
      ∀ x ∈ own ++ t.ripe, ∃ answer, x.outcome = .ok answer := by
    refine List.forall_mem_append.mpr ⟨hown, fun x hx => ?_⟩
    obtain ⟨i, wish, -, -, rfl⟩ := mem_ripe.mp hx
    exact ⟨_, rfl⟩
  cases op with
  | put key value | multiPut pairs | get key | multiGet keys =>
      exact hsettle _ (List.forall_mem_singleton.mpr ⟨_, rfl⟩) _
  | getWhen wish => exact hsettle [] nofun _

theorem eq_of_mem_waiting (hn : (s.waiting.map Prod.fst).Nodup) {other : Wish} (h : (i, wish) ∈ s.waiting)
    (h' : (i, other) ∈ s.waiting) : wish = other :=
  congrArg Prod.snd (List.inj_on_of_nodup_map hn h h' rfl)

theorem mem_rest_iff {own : List Return} (hn : (s.waiting.map Prod.fst).Nodup)
    (hown : ∀ x ∈ own, x.call ∉ s.waiting.map Prod.fst) :
    (i, wish) ∈ s.rest.waiting ↔ (i, wish) ∈ s.waiting ∧ i ∉ (own ++ s.ripe).map Return.call := by
  rw [rest, List.mem_filter, List.map_append, List.mem_append, not_or]
  refine and_congr_right fun hw => ?_
  have hnotOwn : i ∉ own.map Return.call := by
    intro hi
    obtain ⟨x, hx, rfl⟩ := List.mem_map.mp hi
    exact hown x hx (List.mem_map_of_mem (f := Prod.fst) hw)
  rw [and_iff_right hnotOwn, Bool.not_eq_true', ← Bool.not_eq_true, not_iff_not]
  constructor
  · intro hh
    exact List.mem_map_of_mem (f := Return.call) (mem_ripe.mpr ⟨i, wish, hw, hh, rfl⟩)
  · intro hi
    obtain ⟨x, hx, rfl⟩ := List.mem_map.mp hi
    obtain ⟨j, other, hother, hh, rfl⟩ := mem_ripe.mp hx
    exact eq_of_mem_waiting hn hw hother ▸ hh

theorem mem_waiting_perform_iff (hn : (s.waiting.map Prod.fst).Nodup) (hcall : call ∉ s.waiting.map Prod.fst) :
    (i, wish) ∈ (s.perform call op).1.waiting ↔
      ((i, wish) ∈ s.waiting ∨ i = call ∧ op = .getWhen wish) ∧ i ∉ (s.perform call op).2.map Return.call := by
  have hown (outcome : Outcome) (contents : Table) : ∀ x ∈ [(⟨call, outcome⟩ : Return)],
      x.call ∉ (AtomicStore.mk contents s.waiting).waiting.map Prod.fst := List.forall_mem_singleton.mpr hcall
  cases op with
  | put key value | multiPut pairs | get key | multiGet keys =>
      simp only [reduceCtorEq, and_false, or_false]
      exact mem_rest_iff (s := ⟨_, s.waiting⟩) hn (hown _ _)
  | getWhen other =>
      have hn' : ((s.waiting ++ [(call, other)]).map Prod.fst).Nodup := by
        rw [List.map_append, List.nodup_append_comm]
        exact List.nodup_cons.mpr ⟨hcall, hn⟩
      have hnone : ∀ x ∈ ([] : List Return), x.call ∉ (s.waiting ++ [(call, other)]).map Prod.fst := nofun
      refine (mem_rest_iff (s := ⟨s.contents, s.waiting ++ [(call, other)]⟩) hn' hnone).trans ?_
      rw [List.mem_append, List.mem_singleton, Prod.mk.injEq, Operation.getWhen.injEq, eq_comm (a := other)]
      rfl

end AtomicStore

namespace Backend

variable {a : Turn} {b c : Backend} {reads : Nat} {returns : List Return}

def atomic : Backend → AtomicStore
  | simple s => s.atomic
  | multiCondition s => s.atomic
  | sharded _ s => ⟨s.snapshot, []⟩

theorem contents_atomic (b : Backend) : b.atomic.contents = b.contents := by cases b <;> rfl

theorem asleep_atomic (b : Backend) : b.atomic.waiting.map Prod.fst = b.asleep := by
  cases b with
  | simple s | multiCondition s => exact s.atomic_waiting
  | sharded n s => rfl

inductive Turned (a : Turn) : Backend → List Return → Backend → Prop where
  | simple {s t : SingleLock SharedCondition} {seen : Observation} (h : s.turn a = some (t, some seen)) :
      Turned a (simple s) seen.returns (simple t)
  | multiCondition {s t : SingleLock PerKeyConditions} {seen : Observation} (h : s.turn a = some (t, some seen)) :
      Turned a (multiCondition s) seen.returns (multiCondition t)

theorem Turned.kind_eq (h : Turned a b returns c) : c.kind = b.kind := by
  cases h <;> rfl

/-- A store at rest is at rest after a turn, and has done what happens at once. -/
theorem Quiet.turned (h : b.Quiet reads)
    (hnew : a.operation.isConditional = true → a.call ∉ b.asleep ∧ reads < UInt64.size) (ht : Turned a b returns c) :
    c.Quiet (reads + readsOf a.operation) ∧ c.atomic = (b.atomic.perform a.call a.operation).1 ∧
      returns.Perm (b.atomic.perform a.call a.operation).2 := by
  cases ht with
  | @simple s t seen ht =>
      have hs : s.Quiet := h
      obtain ⟨hexact, hdue, hatomic, o, hseen, halike⟩ := hs.toExact.turn hs.due_eq (allows_of_shared hnew) ht
      cases hseen
      exact ⟨⟨hexact, hdue⟩, hatomic, halike.returns⟩
  | @multiCondition s t seen ht =>
      obtain ⟨hs, requests, hnumbered, hle⟩ := h
      have ha := allows_of_numbered hnumbered hle hnew
      obtain ⟨hexact, hdue, hatomic, o, hseen, halike⟩ := hs.toExact.turn hs.due_eq ha ht
      cases hseen
      refine ⟨⟨⟨hexact, hdue⟩, _, hnumbered.turn ht, ?_⟩, hatomic, halike.returns⟩
      rw [SingleLock.conditionals_append]
      refine Nat.add_le_add hle ?_
      simp only [conditionals, Turn.request, List.countP_singleton, readsOf, Nat.le_refl]

theorem Quiet.turned_perform {call : Nat} {op : Operation} (h : b.Quiet reads)
    (hkind : b.kind.supportsGetWhen = true) (hnew : op.isConditional = true → call ∉ b.asleep ∧ reads < UInt64.size) :
    ∃ wakes, Turned ⟨call, op, .ascending, wakes⟩ b (b.perform call op).2 (b.perform call op).1 := by
  cases b with
  | simple s =>
      have hs : s.Quiet := h
      obtain ⟨wakes, ht⟩ := hs.toExact.turn_perform hs.due_eq (allows_of_shared hnew)
      exact ⟨wakes, .simple ht⟩
  | multiCondition s =>
      obtain ⟨hs, requests, hnumbered, hle⟩ := h
      obtain ⟨wakes, ht⟩ := hs.toExact.turn_perform hs.due_eq (allows_of_numbered hnumbered hle hnew)
      exact ⟨wakes, .multiCondition ht⟩
  | sharded n s => cases hkind

section Awaiting

variable {pairs : Table} {wishes : List Wish}

def awaitAll (b : Backend) (wishes : List Wish) : Backend :=
  wishes.zipIdx.foldl (fun b w => (b.perform w.2 (.getWhen w.1)).1) b

theorem numbers_zipIdx : (wishes.zipIdx.map Prod.swap).map Prod.fst = List.range wishes.length := by
  rw [List.map_map, List.range_eq_range']
  exact List.zipIdx_map_snd 0 wishes

theorem mem_swap_zipIdx {i : Nat} {wish : Wish} : (i, wish) ∈ wishes.zipIdx.map Prod.swap ↔ wishes[i]? = some wish :=
  (List.mem_map_swap wish i wishes.zipIdx).trans List.mk_mem_zipIdx_iff_getElem?

theorem Filled.awaitAll (h : b.Filled pairs) (hkind : b.kind.supportsGetWhen = true)
    (hunmet : ∀ wish ∈ wishes, ¬ wish.holds pairs = true) (hle : wishes.length ≤ UInt64.size) :
    (b.awaitAll wishes).kind = b.kind ∧ (b.awaitAll wishes).Quiet wishes.length ∧
      (b.awaitAll wishes).atomic = ⟨pairs, wishes.zipIdx.map Prod.swap⟩ := by
  induction wishes using List.reverseRecOn with
  | nil =>
      refine ⟨rfl, h.quiet, ?_⟩
      have hnobody : b.atomic.waiting = [] := List.map_eq_nil_iff.mp (b.asleep_atomic.trans h.asleep)
      exact congrArg₂ AtomicStore.mk (b.contents_atomic.trans h.contents) hnobody
  | append_singleton wishes wish ih =>
      obtain ⟨hfront, hlast⟩ := List.forall_mem_append.mp hunmet
      rw [List.length_append, List.length_singleton] at hle ⊢
      obtain ⟨hsame, hquiet, hatomic⟩ := ih hfront (Nat.le_of_succ_le hle)
      have hstep : b.awaitAll (wishes ++ [wish]) = ((b.awaitAll wishes).perform wishes.length (.getWhen wish)).1 := by
        rw [Backend.awaitAll, List.zipIdx_append, List.foldl_append, Nat.zero_add]
        rfl
      have hnew : wishes.length ∉ (b.awaitAll wishes).asleep := by
        rw [← asleep_atomic, hatomic, numbers_zipIdx]
        exact List.not_mem_range_self
      have hroom : (Operation.getWhen wish).isConditional = true →
          wishes.length ∉ (b.awaitAll wishes).asleep ∧ wishes.length < UInt64.size := fun _ => ⟨hnew, hle⟩
      obtain ⟨wakes, ht⟩ := hquiet.turned_perform (hsame ▸ hkind) hroom
      obtain ⟨hquiet', hatomic', -⟩ := hquiet.turned hroom ht
      have hrest : (b.awaitAll wishes).atomic.AtRest := by
        rw [hatomic]
        rintro ⟨i, other⟩ hother
        exact hfront other (List.mem_of_getElem? (mem_swap_zipIdx.mp hother))
      rw [hstep]
      refine ⟨(kind_perform ..).trans hsame, hquiet', ?_⟩
      rw [hatomic', hrest.perform_getWhen, hatomic, if_neg (hlast wish List.mem_cons_self), List.zipIdx_append,
        List.map_append, Nat.zero_add]
      rfl

end Awaiting

end Backend

end AwaitStore.Store
