import AwaitStore.Proofs.Store.AtomicStore
import AwaitStore.Proofs.Store.FirstMatch
import AwaitStore.Proofs.Store.Notice
import AwaitStore.Proofs.Wire.Collections
import AwaitStore.Store.Backend

namespace AwaitStore.Store

/-- A call, the order in which its collections are gone through, and the calls that wake up after it. -/
structure Turn where
  call : Nat
  operation : Operation
  order : Wire.Listing
  wakes : List Nat

def Turn.request (a : Turn) : Nat × Operation := (a.call, a.operation)

namespace SingleLock

section Turns

variable {σ : Type} [Triggers σ]

/-- What a call does before it returns or falls asleep. A write that has to wait is not issued. -/
def issue (order : Wire.Listing) (call : Nat) (op : Operation) (s : SingleLock σ) :
    Option (SingleLock σ × List Return) :=
  match op with
  | .put key value => (s.write [(key, value)]).map fun t => (t, [⟨call, .ok .stored⟩])
  | .multiPut pairs => (s.write (order.pairs pairs)).map fun t => (t, [⟨call, .ok .stored⟩])
  | .get key => some (s, [⟨call, .ok (.value s.contents[key]?)⟩])
  | .multiGet keys => some (s, [⟨call, .ok (.values (s.contents.collect (order.keys keys)))⟩])
  | .getWhen wish => some ((s.start call wish).1, returned (s.start call wish).2.toList)

def observe (returns : List Return) (s : SingleLock σ) : Observation :=
  ⟨returns, s.contents, s.contents.size, s.sleeping⟩

/-- The call and the wake-ups after it, until each caller has returned or sleeps without being due. -/
def turn (s : SingleLock σ) (a : Turn) : Option (SingleLock σ × Option Observation) :=
  match s.issue a.order a.call a.operation with
  | none => none
  | some (u, own) =>
      match u.run (a.wakes.map .wake) with
      | none => none
      | some (t, woken) =>
          if t.due = [] then some (t, some (t.observe (own ++ returned woken))) else none

theorem turn_eq_some {s t : SingleLock σ} {a : Turn} {seen : Option Observation}
    (h : s.turn a = some (t, seen)) :
    ∃ u own woken, s.issue a.order a.call a.operation = some (u, own) ∧
      u.run (a.wakes.map .wake) = some (t, woken) ∧ t.due = [] ∧
        seen = some (t.observe (own ++ returned woken)) := by
  simp only [turn] at h
  split at h
  · cases h
  next u own hi =>
    split at h
    · cases h
    next v woken hr =>
      split at h
      next hd =>
        cases h
        exact ⟨u, own, woken, hi, hr, hd, rfl⟩
      · cases h

theorem issue_cases {s u : SingleLock σ} {order : Wire.Listing} {call : Nat} {op : Operation}
    {own : List Return} (h : s.issue order call op = some (u, own)) :
    (op.isConditional = false ∧ u = s) ∨
      (op.isConditional = false ∧ ∃ entries, s.write entries = some u) ∨
        ∃ wish, op = .getWhen wish ∧ u = (s.start call wish).1 := by
  cases op with
  | put key value =>
      obtain ⟨t, hw, he⟩ := Option.map_eq_some_iff.mp h
      cases he
      exact .inr (.inl ⟨rfl, _, hw⟩)
  | multiPut pairs =>
      obtain ⟨t, hw, he⟩ := Option.map_eq_some_iff.mp h
      cases he
      exact .inr (.inl ⟨rfl, _, hw⟩)
  | get key | multiGet keys =>
      cases h
      exact .inl ⟨rfl, rfl⟩
  | getWhen wish =>
      cases h
      exact .inr (.inr ⟨wish, rfl, rfl⟩)

theorem turn_of_issue {s t u : SingleLock σ} {a : Turn} {own : List Return} {woken : List Woken}
    (hi : s.issue a.order a.call a.operation = some (u, own))
    (hr : u.run (a.wakes.map .wake) = some (t, woken)) (hd : t.due = []) :
    s.turn a = some (t, some (t.observe (own ++ returned woken))) := by
  simp only [turn, hi, hr, hd, if_true]

theorem exists_wake {s : SingleLock σ} {call : Nat} (hc : call ∈ s.sleeping) :
    ∃ t r, s.wake call = some (t, r) := by
  obtain ⟨w, hw, rfl⟩ := List.mem_map.mp hc
  cases hf : s.asleep.find? (fun v => v.call == w.call) with
  | none =>
      have hne := List.find?_eq_none.mp hf w hw
      simp at hne
  | some v =>
      simp only [wake, hf]
      split <;> exact ⟨_, _, rfl⟩

theorem mem_sleeping_wake {s t : SingleLock σ} {call : Nat} {r : Option Woken}
    (h : s.wake call = some (t, r)) {other : Nat} (ho : other ∈ s.sleeping) (hne : other ≠ call) :
    other ∈ t.sleeping := by
  obtain ⟨v, hv, rfl⟩ := List.mem_map.mp ho
  obtain ⟨w, -, -, rfl | rfl⟩ := wake_eq_some h
  · exact List.mem_map_of_mem (List.mem_filter.mpr ⟨hv, by simpa using hne⟩)
  · exact List.mem_map.mpr ⟨v, List.mem_map.mpr ⟨v, hv, if_neg (by simpa using hne)⟩, rfl⟩

theorem applied_of_write {s u : SingleLock σ} {entries : List (Key × Value)} (h : s.write entries = some u)
    (call : Nat) :
    perform.applied call s entries = (u.settle.1, ⟨call, .ok .stored⟩ :: returned u.settle.2) := by
  simp only [perform.applied, h]

theorem run_wakeAll {s : SingleLock σ} {calls : List Nat} (hn : calls.Nodup)
    (hs : ∀ call ∈ calls, call ∈ s.sleeping) : s.run (calls.map .wake) = some (s.wakeAll calls) := by
  induction calls generalizing s with
  | nil => rfl
  | cons call calls ih =>
      obtain ⟨hfirst, hn⟩ := List.nodup_cons.mp hn
      obtain ⟨t, r, hw⟩ := exists_wake (hs call List.mem_cons_self)
      have hrest := ih (s := t) hn fun other ho =>
        mem_sleeping_wake hw (hs other (List.mem_cons_of_mem call ho)) fun he => hfirst (he ▸ ho)
      have hall : s.wakeAll (call :: calls) =
          ((t.wakeAll calls).1, r.toList ++ (t.wakeAll calls).2) := by
        simp only [wakeAll, hw]
      rw [hall]
      exact run_cons.mpr ⟨t, r, _, hw, hrest, rfl⟩

def atomic (s : SingleLock σ) : AtomicStore := ⟨s.contents, s.asleep.map fun w => (w.call, w.wish)⟩

theorem atomic_waiting (s : SingleLock σ) : s.atomic.waiting.map Prod.fst = s.sleeping := by
  simp [atomic, sleeping, Function.comp_def]

theorem atomic_write {s t : SingleLock σ} {entries : List (Key × Value)} (h : s.write entries = some t) :
    t.atomic = ⟨s.contents.putAll entries, s.atomic.waiting⟩ := by
  obtain ⟨-, rfl⟩ := write_eq_some h
  simp [atomic, Function.comp_def]

theorem atomic_wake {s t : SingleLock σ} (hn : s.sleeping.Nodup) {call : Nat} {r : Option Woken}
    (h : s.wake call = some (t, r)) :
    t.atomic.rest = s.atomic.rest ∧ s.atomic.ripe.Perm (returned r.toList ++ t.atomic.ripe) := by
  obtain ⟨front, w, back, he, rfl, hw⟩ := exists_sleeper hn (mem_sleeping_of_wake h)
  rw [wake_eq he hw] at h
  split at h
  next hh =>
    cases h
    constructor
    · simp [atomic, AtomicStore.rest, he, hh]
    · simp only [atomic, AtomicStore.ripe, he, List.map_append, List.map_cons, List.filter_append,
        List.filter_cons, hh, if_true]
      exact List.perm_middle
  next =>
    cases h
    simp [atomic, AtomicStore.rest, AtomicStore.ripe, he, returned]

/-- With the reads that its table lets return, a call leads where it leads at once. -/
theorem atomic_issue {s u : SingleLock σ} (hs : s.atomic.AtRest) {order : Wire.Listing} {call : Nat} {op : Operation}
    {own : List Return} (hi : s.issue order call op = some (u, own)) :
    s.atomic.perform call op = (u.atomic.rest, own ++ u.atomic.ripe) := by
  cases op with
  | put key value =>
      obtain ⟨t, hw, he⟩ := Option.map_eq_some_iff.mp hi
      cases he
      rw [atomic_write hw]
      rfl
  | multiPut pairs =>
      obtain ⟨t, hw, he⟩ := Option.map_eq_some_iff.mp hi
      cases he
      rw [atomic_write hw, Table.putAll_of_perm s.contents (order.pairs_perm pairs)]
      rfl
  | get key =>
      cases hi
      rfl
  | multiGet keys =>
      cases hi
      rw [Table.collect_of_perm s.contents (order.keys_perm keys)]
      rfl
  | getWhen wish =>
      cases hi
      rw [hs.perform_getWhen, start_eq]
      by_cases hh : wish.holds s.contents
      · rw [if_pos hh, if_pos (c := wish.holds s.atomic.contents) hh]
        change _ = (s.atomic.rest, [_] ++ s.atomic.ripe)
        rw [hs.rest_eq, hs.ripe_eq]
        rfl
      · -- It waits, like all the others, for a table that is not there.
        rw [if_neg hh, if_neg (c := wish.holds s.atomic.contents) hh]
        have hsleep : (AtomicStore.mk s.contents (s.atomic.waiting ++ [(call, wish)])).AtRest := by
          intro w hw
          rcases List.mem_append.mp hw with hw | hw
          · exact hs w hw
          · cases List.mem_singleton.mp hw
            exact hh
        have hu (ticket : Triggers.Ticket σ) (triggers : σ) :
            atomic ⟨s.contents, triggers, s.asleep ++ [⟨call, wish, ticket, false⟩]⟩ =
              ⟨s.contents, s.atomic.waiting ++ [(call, wish)]⟩ := by
          simp [atomic]
        rw [hu, hsleep.rest_eq, hsleep.ripe_eq]
        rfl

theorem returned_append (first second : List Woken) :
    returned (first ++ second) = returned first ++ returned second :=
  List.map_append

end Turns

section Refinement

open Bookkeeping

variable {σ : Type} [Triggers σ] [Calling σ] {s t u : SingleLock σ}

theorem Exact.not_pending (h : s.Exact) (hd : s.due = []) : Triggers.pending s.triggers = false := by
  rw [← Bool.not_eq_true, h.pending_iff]
  rintro ⟨call, hc⟩
  simp [hd] at hc

theorem Exact.atRest (h : s.Exact) (hd : s.due = []) : s.atomic.AtRest := by
  intro _ hw
  obtain ⟨w, hmem, rfl⟩ := List.mem_map.mp hw
  exact (h.not_holds (h.not_pending hd) w hmem).2

def Allows (s : SingleLock σ) (call : Nat) (op : Operation) : Prop :=
  ∀ wish, op = .getWhen wish → s.Admits (.getWhen call wish)

theorem Exact.issue (h : s.Exact) {order : Wire.Listing} {call : Nat} {op : Operation}
    (ha : s.Allows call op) {own : List Return} (hi : s.issue order call op = some (u, own)) : u.Exact := by
  rcases issue_cases hi with ⟨-, rfl⟩ | ⟨-, entries, hw⟩ | ⟨wish, rfl, rfl⟩
  · exact h
  · exact h.write hw
  · exact h.start (ha wish rfl)

theorem Exact.atomic_wakes (h : s.Exact) {wakes : List Nat} {woken : List Woken}
    (hr : s.run (wakes.map .wake) = some (t, woken)) :
    t.Exact ∧ t.atomic.rest = s.atomic.rest ∧
      s.atomic.ripe.Perm (returned woken ++ t.atomic.ripe) := by
  induction wakes generalizing s woken with
  | nil =>
      cases hr
      exact ⟨h, rfl, .refl _⟩
  | cons call wakes ih =>
      obtain ⟨u, first, more, hs, hrest, rfl⟩ := run_cons.mp hr
      obtain ⟨hsame, htaken⟩ := atomic_wake h.calls_nodup hs
      obtain ⟨ht, hsame', htaken'⟩ := ih (h.wake hs) hrest
      refine ⟨ht, hsame'.trans hsame, htaken.trans ?_⟩
      rw [returned_append, List.append_assoc]
      exact htaken'.append_left _

theorem Exact.turn (h : s.Exact) (hd : s.due = []) {a : Turn} (ha : s.Allows a.call a.operation)
    {seen : Option Observation} (ht : s.turn a = some (t, seen)) :
    t.Exact ∧ t.due = [] ∧ t.atomic = (s.atomic.perform a.call a.operation).1 ∧
      ∃ o, seen = some o ∧ o.Alike (s.atomic.observe a.call a.operation) := by
  obtain ⟨u, own, woken, hi, hr, hrest, rfl⟩ := turn_eq_some ht
  obtain ⟨hexact, hsame, htaken⟩ := (h.issue ha hi).atomic_wakes hr
  -- At rest nothing is ripe, so the wake-ups have taken out all that was.
  have hquiet := hexact.atRest hrest
  rw [hquiet.rest_eq] at hsame
  rw [hquiet.ripe_eq, List.append_nil] at htaken
  have hperform := atomic_issue (h.atRest hd) hi
  have hatomic : t.atomic = (s.atomic.perform a.call a.operation).1 := by rw [hperform, hsame]
  refine ⟨hexact, hrest, hatomic, _, rfl, ?_⟩
  constructor
  · change (own ++ returned woken).Perm (s.atomic.perform a.call a.operation).2
    rw [hperform]
    exact htaken.symm.append_left own
  · exact congrArg AtomicStore.contents hatomic
  · exact congrArg (fun s => s.contents.size) hatomic
  · change t.sleeping = (s.atomic.perform a.call a.operation).1.waiting.map Prod.fst
    rw [← hatomic, atomic_waiting]

theorem Exact.settle (h : s.Exact) :
    s.run (s.due.map .wake) = some (s.settle.1, s.settle.2) ∧ s.settle.1.due = [] := by
  have hsleep : s.due.Sublist s.sleeping := (List.filter_sublist).map Sleeper.call
  have hr : s.run (s.due.map .wake) = some s.settle :=
    run_wakeAll (hsleep.nodup h.calls_nodup) fun call hc => hsleep.mem hc
  have ha (calls : List Nat) (t : SingleLock σ) : t.Admitted (calls.map .wake) := by
    induction calls generalizing t with
    | nil => trivial
    | cons call calls ih => exact ⟨trivial, fun u _ _ => ih u⟩
  refine ⟨hr, List.eq_nil_iff_forall_not_mem.mpr fun call hc => ?_⟩
  obtain ⟨hdue, hnot⟩ := (h.mem_due_run (ha _ _) (by simp) hr call).mp hc
  exact hnot (List.mem_map_of_mem hdue)

theorem Exact.turn_perform (h : s.Exact) (hd : s.due = []) {call : Nat} {op : Operation}
    (ha : s.Allows call op) :
    ∃ wakes, s.turn ⟨call, op, .ascending, wakes⟩ =
      some ((s.perform call op).1, some ((s.perform call op).1.observe (s.perform call op).2)) := by
  have hwrite (entries : List (Key × Value)) : ∃ u, s.write entries = some u ∧ u.Exact := by
    have hw : ∃ u, s.write entries = some u := by simp [SingleLock.write, h.not_pending hd]
    exact hw.imp fun u hu => ⟨hu, h.write hu⟩
  cases op with
  | put key value =>
      obtain ⟨u, hw, hu⟩ := hwrite [(key, value)]
      have hi : s.issue .ascending call (.put key value) = some (u, [⟨call, .ok .stored⟩]) := by
        simp [SingleLock.issue, hw]
      refine ⟨u.due, (turn_of_issue hi hu.settle.1 hu.settle.2).trans ?_⟩
      rw [perform, applied_of_write hw]
      rfl
  | multiPut pairs =>
      obtain ⟨u, hw, hu⟩ := hwrite pairs.toList
      have hi : s.issue .ascending call (.multiPut pairs) = some (u, [⟨call, .ok .stored⟩]) := by
        simp [SingleLock.issue, Wire.Listing.ascending, hw]
      refine ⟨u.due, (turn_of_issue hi hu.settle.1 hu.settle.2).trans ?_⟩
      rw [perform, applied_of_write hw]
      rfl
  | get key | multiGet keys => exact ⟨[], (turn_of_issue rfl rfl hd).trans rfl⟩
  | getWhen wish =>
      refine ⟨[], (turn_of_issue rfl rfl ?_).trans ?_⟩
      · rw [due_start, hd]
      · simp [perform, returned]

end Refinement

end SingleLock

end AwaitStore.Store
