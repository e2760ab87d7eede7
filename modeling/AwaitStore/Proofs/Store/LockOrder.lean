import AwaitStore.Proofs.Store.LockSteps
import Mathlib.Data.Finset.Max
import Mathlib.Data.List.FinRange
import Mathlib.Algebra.GroupWithZero.Nat

namespace AwaitStore.Store

variable {n : Nat} {hash : Key → UInt64} {n_pos : 0 < n}

namespace ShardCall

theorem ascending_group {α : Type} (groups : Std.ExtTreeMap (Fin n) (List α)) :
    (groups.toList.map Prod.fst).Pairwise (· < ·) := by
  rw [List.pairwise_map]
  exact Std.ExtTreeMap.ordered_keys_toList.imp fun h => compare_lt_iff_lt.mp h

theorem ascending_shards (request : ShardCall) : (request.shards hash n_pos).Pairwise (· < ·) := by
  cases request with
  | put key value | get key => exact List.pairwise_singleton _ _
  | multiPut entries | multiGet keys => exact ascending_group _
  | snapshot | size => exact List.pairwise_lt_finRange n

end ShardCall

namespace LockedShards

variable {s t : LockedShards n}

theorem InOrder.ascending {c : Caller n} (h : InOrder hash n_pos c) : (c.held ++ c.wanted).Pairwise (· < ·) :=
  c.request.ascending_shards.sublist h.suffix.sublist

/-- A lock that is waited for comes after all that are held. -/
theorem InOrder.lt_of_wanted {c : Caller n} (h : InOrder hash n_pos c) {i j : Fin n} (hi : i ∈ c.held)
    (hj : c.wanted.head? = some j) : i < j :=
  (List.pairwise_append.mp h.ascending).2.2 i hi j (List.mem_of_head? hj)

def ownSteps (c : Caller n) : List LockStep := [.take c.number, .visit c.number, .release c.number]

def CanGoOn (hash : Key → UInt64) (writersFirst : Bool) (s : LockedShards n) (c : Caller n) : Prop :=
  ∃ a ∈ ownSteps c, (s.step hash writersFirst a).isSome

def leftToDo (c : Caller n) : Nat := 2 * c.wanted.length + c.ahead.length + c.held.length

def work (s : LockedShards n) : Nat := (s.callers.map leftToDo).sum

theorem leftToDo_eq_zero {c : Caller n} : leftToDo c = 0 ↔ c.ended = true := by
  rw [ended_iff, leftToDo]
  simp only [← List.length_eq_zero_iff]
  omega

theorem work_eq_zero : work s = 0 ↔ ∀ c ∈ s.callers, c.ended = true := by
  simp [work, List.sum_eq_zero_iff_forall_eq_nat, leftToDo_eq_zero]

theorem exists_greatest_awaited (h : ∃ c ∈ s.callers, c.wanted ≠ []) :
    ∃ c ∈ s.callers, ∃ i, c.wanted.head? = some i ∧ ∀ d ∈ s.callers, ∀ j, d.wanted.head? = some j → j ≤ i := by
  obtain ⟨c, hc, hwanted⟩ := h
  obtain ⟨i, hi⟩ := Option.ne_none_iff_exists'.mp (mt List.head?_eq_none_iff.mp hwanted)
  have hheads : ∀ {i}, i ∈ (s.callers.filterMap fun c => c.wanted.head?).toFinset ↔
      ∃ c ∈ s.callers, c.wanted.head? = some i := by simp
  obtain ⟨m, hm, hmax⟩ := Finset.exists_max_image _ id ⟨i, hheads.mpr ⟨c, hc, hi⟩⟩
  obtain ⟨d, hd, hdm⟩ := hheads.mp hm
  exact ⟨d, hd, m, hdm, fun e he j hj => hmax j (hheads.mpr ⟨e, he, hj⟩)⟩

/-- Of the calls that wait for one lock some call is next, even if readers stand back: a writer, or else anyone. -/
theorem exists_next {i : Fin n} (h : ∃ c ∈ s.callers, c.wanted.head? = some i) :
    ∃ c ∈ s.callers, c.wanted.head? = some i ∧
      (c.request.mode = .writing ∨ ∀ d ∈ s.callers, d.wanted.head? = some i → d.request.mode = .reading) := by
  by_cases hwriter : ∃ w ∈ s.callers, w.wanted.head? = some i ∧ w.request.mode = .writing
  · obtain ⟨w, hw, hi, hmode⟩ := hwriter
    exact ⟨w, hw, hi, .inl hmode⟩
  · obtain ⟨c, hc, hi⟩ := h
    refine ⟨c, hc, hi, .inr fun d hd hdi => ?_⟩
    cases hmode : d.request.mode with
    | reading => rfl
    | writing => exact absurd ⟨d, hd, hdi, hmode⟩ hwriter

namespace Disciplined

theorem canGoOn_of_unlocked (h : Disciplined hash n_pos s) {c : Caller n} (hc : c ∈ s.callers)
    (hopen : c.ended = false) (hw : c.wanted = []) (writersFirst : Bool) : CanGoOn hash writersFirst s c := by
  have hfind := h.find?_eq hc
  cases hv : c.ahead with
  | cons v ahead =>
      refine ⟨.visit c.number, by simp [ownSteps], ?_⟩
      simp [step, visit, hfind, hw, hv]
  | nil =>
      cases hh : c.held with
      | cons i held =>
          refine ⟨.release c.number, by simp [ownSteps], ?_⟩
          simp [step, release, hfind, hw, hv, hh]
      | nil => simp [Caller.ended, hw, hv, hh] at hopen

theorem canGoOn_of_free (h : Disciplined hash n_pos s) {c : Caller n} (hc : c ∈ s.callers) {i : Fin n}
    (hi : c.wanted.head? = some i) (hfree : ∀ d ∈ s.callers, i ∉ d.held)
    (hturn : c.request.mode = .writing ∨ ∀ d ∈ s.callers, d.wanted.head? = some i → d.request.mode = .reading)
    (writersFirst : Bool) : CanGoOn hash writersFirst s c := by
  have hfind := h.find?_eq hc
  obtain ⟨wanted, hw⟩ := List.head?_eq_some_iff.mp hi
  have hnot : s.isTaken c.request.mode i c = false :=
    isTaken_eq_false.mpr fun d hd _ hheld => absurd hheld (hfree d hd)
  have hwait : (c.request.mode == .reading && s.isAwaited i c) = false := by
    rcases hturn with hwriting | hnone
    · simp [hwriting]
    · have hawaited : s.isAwaited i c = false := by
        simp only [isAwaited, List.any_eq_false, Bool.and_eq_true, beq_iff_eq, not_and, and_imp]
        intro d hd _ hhead
        simp [hnone d hd hhead]
      rw [hawaited, Bool.and_false]
  refine ⟨.take c.number, by simp [ownSteps], ?_⟩
  simp [step, take, hfind, hw, hnot, Bool.and_assoc, hwait]

theorem exists_canGoOn (h : Disciplined hash n_pos s) (hopen : ∃ c ∈ s.callers, c.ended = false)
    (writersFirst : Bool) : ∃ c ∈ s.callers, c.ended = false ∧ CanGoOn hash writersFirst s c := by
  by_cases hunlocked : ∃ c ∈ s.callers, c.ended = false ∧ c.wanted = []
  · obtain ⟨c, hc, hopen, hw⟩ := hunlocked
    exact ⟨c, hc, hopen, h.canGoOn_of_unlocked hc hopen hw writersFirst⟩
  · -- Every open call waits. Who holds a lock waits for a greater one, so nobody holds the greatest.
    have hwaits : ∀ c ∈ s.callers, c.ended = false → c.wanted ≠ [] :=
      fun c hc hopen hw => hunlocked ⟨c, hc, hopen, hw⟩
    obtain ⟨c₀, hc₀, hopen₀⟩ := hopen
    obtain ⟨c₁, hc₁, i, hi, hmax⟩ := exists_greatest_awaited ⟨c₀, hc₀, hwaits c₀ hc₀ hopen₀⟩
    have hfree : ∀ d ∈ s.callers, i ∉ d.held := by
      intro d hd hheld
      have hopen : d.ended = false := by simp [Caller.ended, List.ne_nil_of_mem hheld]
      obtain ⟨j, hj⟩ := Option.ne_none_iff_exists'.mp (mt List.head?_eq_none_iff.mp (hwaits d hd hopen))
      exact ((h.in_order d hd).lt_of_wanted hheld hj).not_ge (hmax d hd j hj)
    obtain ⟨c, hc, hi, hturn⟩ := exists_next ⟨c₁, hc₁, hi⟩
    have hopen : c.ended = false := by
      obtain ⟨wanted, hw⟩ := List.head?_eq_some_iff.mp hi
      simp [Caller.ended, hw]
    exact ⟨c, hc, hopen, h.canGoOn_of_free hc hi hfree hturn writersFirst⟩

theorem work_replace (h : Disciplined hash n_pos s) {c c' : Caller n} (hc : c ∈ s.callers)
    (hn : c.number = c'.number) (hless : leftToDo c' + 1 = leftToDo c) : work (s.replace c') + 1 = work s := by
  obtain ⟨front, back, hsplit, hreplace⟩ := h.exists_split hc
  rw [work, work, hreplace c' hn, hsplit]
  simp only [List.map_append, List.map_cons, List.sum_append, List.sum_cons]
  omega

theorem work_of_own (h : Disciplined hash n_pos s) {c : Caller n} {a : LockStep} (ha : a ∈ ownSteps c)
    (hstep : Change hash s a t) : work t + 1 = work s := by
  cases hstep with
  | called fresh => simp [ownSteps] at ha
  | taken mem next free =>
      refine h.work_replace mem rfl ?_
      simp only [leftToDo, next, List.length_append, List.length_cons, List.length_nil]
      omega
  | visited mem locked next =>
      refine (h.withStore _).work_replace mem rfl ?_
      simp only [leftToDo, next, List.length_cons]
      omega
  | released mem locked done next =>
      refine h.work_replace mem rfl ?_
      simp only [leftToDo, next, List.length_cons]
      omega

theorem exists_run_to_end (h : Disciplined hash n_pos s) (writersFirst : Bool) :
    ∃ (steps : List LockStep) (t : LockedShards n), s.run hash (steps.map (Prod.mk writersFirst)) = some t ∧
      (∀ number request, .call number request ∉ steps) ∧ steps.length = work s ∧ ∀ c ∈ t.callers, c.ended = true := by
  induction hk : work s generalizing s with
  | zero => exact ⟨[], s, rfl, fun _ _ => List.not_mem_nil, rfl, work_eq_zero.mp hk⟩
  | succ k ih =>
      have hopen : ∃ c ∈ s.callers, c.ended = false := by
        by_contra hnone
        have hzero := work_eq_zero.mpr fun c hc => Bool.eq_true_of_not_eq_false fun hend => hnone ⟨c, hc, hend⟩
        omega
      obtain ⟨c, hc, -, a, ha, hstep⟩ := h.exists_canGoOn hopen writersFirst
      obtain ⟨u, hu⟩ := Option.isSome_iff_exists.mp hstep
      have hchange := change_of_step hu
      obtain ⟨steps, t, hrun, hnew, hlength, hended⟩ :=
        ih (h.change hchange) (Nat.succ.inj ((h.work_of_own ha hchange).trans hk))
      refine ⟨a :: steps, t, run_cons.mpr ⟨u, hu, hrun⟩, ?_, congrArg Nat.succ hlength, hended⟩
      intro number request hmem
      rcases List.mem_cons.mp hmem with rfl | hmem
      · simp [ownSteps] at ha
      · exact hnew number request hmem

end Disciplined

/-- However many calls there are and whatever steps they have taken: as long as one has not ended, one of them can go
on, also if readers stand back for writers that wait. So they can all be brought to their end. No call waits for a lock
that it holds. -/
theorem never_deadlocked {steps : List (Bool × LockStep)} (h : (LockedShards.empty n_pos).run hash steps = some s) :
    (∀ writersFirst, (∃ c ∈ s.callers, c.ended = false) →
      ∃ c ∈ s.callers, c.ended = false ∧ CanGoOn hash writersFirst s c) ∧
    (∀ writersFirst, ∃ (more : List LockStep) (t : LockedShards n),
      s.run hash (more.map (Prod.mk writersFirst)) = some t ∧
      (∀ number request, .call number request ∉ more) ∧ more.length = work s ∧ ∀ c ∈ t.callers, c.ended = true) ∧
    ∀ c ∈ s.callers, ∀ i, c.wanted.head? = some i → i ∉ c.held := by
  have hs := Disciplined.empty.run h
  refine ⟨fun writersFirst hopen => hs.exists_canGoOn hopen writersFirst, hs.exists_run_to_end, ?_⟩
  intro c hc i hi hheld
  exact lt_irrefl i ((hs.in_order c hc).lt_of_wanted hheld hi)

/-- The first call waits for the second and the third for the first. The fourth, a reader, waits only if readers stand
back. -/
theorem never_deadlocked_waiting :
    let hash : Key → UInt64 := fun key => if key = "a" then 4 else 7
    let steps : List (Bool × LockStep) :=
      [(false, .call 1 (.multiPut [("b", [1]), ("a", [1])])), (false, .call 2 (.get "b")), (true, .take 1),
        (false, .take 2), (false, .call 3 .snapshot), (false, .call 4 (.multiGet ["b", "c", "b"]))]
    ∃ s, (LockedShards.empty (show 0 < 2 by decide)).run hash steps = some s ∧
      s.callers.map (fun c => (c.held, c.wanted)) = [([0], [1]), ([1], []), ([], [0, 1]), ([], [1])] ∧
      (s.step hash false (.take 1)).isSome = false ∧ (s.step hash false (.take 3)).isSome = false ∧
      (s.step hash true (.take 4)).isSome = false ∧ (s.step hash false (.take 4)).isSome = true ∧
      ∃ c ∈ s.callers, c.ended = false ∧ CanGoOn hash true s c := by
  refine ⟨_, (Option.some_get rfl).symm, rfl, rfl, rfl, rfl, rfl, ?_⟩
  apply (never_deadlocked (Option.some_get rfl).symm).1
  exact ⟨_, List.mem_cons_self, rfl⟩

end LockedShards

end AwaitStore.Store
