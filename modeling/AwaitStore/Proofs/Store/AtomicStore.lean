import AwaitStore.Proofs.Calls
import Mathlib.Data.List.Induction

namespace AwaitStore

namespace Store

/-- A table, and the conditional reads that wait for it to change, in the order in which they came. -/
structure AtomicStore where
  contents : Table
  waiting : List (Nat × Wish)

/-- What can be seen of a store when it comes to rest, with all that has been returned since the call before. -/
structure Observation where
  returns : List Return
  contents : Table
  size : Nat
  asleep : List Nat

/-- The returns may come in any order, each with the number of its call. -/
structure Observation.Alike (a b : Observation) : Prop where
  returns : a.returns.Perm b.returns
  contents : a.contents = b.contents
  size : a.size = b.size
  asleep : a.asleep = b.asleep

namespace Observation

theorem Alike.symm {a b : Observation} (h : a.Alike b) : b.Alike a :=
  ⟨h.returns.symm, h.contents.symm, h.size.symm, h.asleep.symm⟩

theorem Alike.trans {a b c : Observation} (h : a.Alike b) (h' : b.Alike c) : a.Alike c :=
  ⟨h.returns.trans h'.returns, h.contents.trans h'.contents, h.size.trans h'.size, h.asleep.trans h'.asleep⟩

theorem Alike.eq_of_singleton {a b : Observation} (h : a.Alike b) {r : Return} (hr : b.returns = [r]) : a = b := by
  obtain ⟨returns, contents, size, asleep⟩ := a
  obtain ⟨hreturns, rfl, rfl, rfl⟩ := h
  rw [hr] at hreturns
  obtain rfl : returns = [r] := List.perm_singleton.mp hreturns
  rw [← hr]

theorem forall₂_alike_of_common {first second common : List Observation}
    (h : List.Forall₂ Alike first common) (h' : List.Forall₂ Alike second common) :
    List.Forall₂ Alike first second := by
  induction h generalizing second with
  | nil =>
      cases h'
      exact .nil
  | cons ha _ ih =>
      cases h' with
      | cons hb hrest => exact .cons (ha.trans hb.symm) (ih hrest)

end Observation

namespace AtomicStore

def empty : AtomicStore := ⟨∅, []⟩

def ripe (s : AtomicStore) : List Return :=
  (s.waiting.filter fun w => w.2.holds s.contents).map fun w => ⟨w.1, .ok (.value s.contents[w.2.key]?)⟩

def rest (s : AtomicStore) : AtomicStore :=
  { s with waiting := s.waiting.filter fun w => !w.2.holds s.contents }

def perform (call : Nat) (op : Operation) (s : AtomicStore) : AtomicStore × List Return :=
  match op with
  | .put key value => settle [⟨call, .ok .stored⟩] ⟨s.contents.insert key value, s.waiting⟩
  | .multiPut pairs => settle [⟨call, .ok .stored⟩] ⟨s.contents.putAll pairs.toList, s.waiting⟩
  | .get key => settle [⟨call, .ok (.value s.contents[key]?)⟩] s
  | .multiGet keys => settle [⟨call, .ok (.values (s.contents.collect keys.toList))⟩] s
  | .getWhen wish => settle [] ⟨s.contents, s.waiting ++ [(call, wish)]⟩
where
  settle (own : List Return) (s : AtomicStore) : AtomicStore × List Return := (s.rest, own ++ s.ripe)

def observe (call : Nat) (op : Operation) (s : AtomicStore) : Observation :=
  let (t, returns) := s.perform call op
  ⟨returns, t.contents, t.contents.size, t.waiting.map Prod.fst⟩

def run (s : AtomicStore) (requests : List (Nat × Operation)) : AtomicStore :=
  requests.foldl (fun s r => (s.perform r.1 r.2).1) s

def history (s : AtomicStore) : List (Nat × Operation) → List Observation
  | [] => []
  | r :: rest => s.observe r.1 r.2 :: history (s.perform r.1 r.2).1 rest

theorem run_snoc (s : AtomicStore) (requests : List (Nat × Operation)) (r : Nat × Operation) :
    s.run (requests ++ [r]) = ((s.run requests).perform r.1 r.2).1 := by
  simp [run]

def AtRest (s : AtomicStore) : Prop := ∀ w ∈ s.waiting, ¬ w.2.holds s.contents

theorem AtRest.ripe_eq {s : AtomicStore} (h : s.AtRest) : s.ripe = [] := by
  rw [ripe, List.filter_eq_nil_iff.mpr h, List.map_nil]

theorem AtRest.rest_eq {s : AtomicStore} (h : s.AtRest) : s.rest = s := by
  have hall : s.waiting.filter (fun w => !w.2.holds s.contents) = s.waiting :=
    List.filter_eq_self.mpr fun w hw => by simpa using h w hw
  simp [rest, hall]

theorem AtRest.perform_getWhen {s : AtomicStore} (h : s.AtRest) (call : Nat) (wish : Wish) :
    s.perform call (.getWhen wish) =
      if wish.holds s.contents then (s, [⟨call, .ok (.value s.contents[wish.key]?)⟩])
      else (⟨s.contents, s.waiting ++ [(call, wish)]⟩, []) := by
  have hripe : s.waiting.filter (fun w => w.2.holds s.contents) = [] := List.filter_eq_nil_iff.mpr h
  have hrest : s.waiting.filter (fun w => !w.2.holds s.contents) = s.waiting :=
    congrArg AtomicStore.waiting h.rest_eq
  split
  next hh => simp [perform, perform.settle, rest, ripe, hripe, hrest, hh]
  next hh => simp [perform, perform.settle, rest, ripe, hripe, hrest, hh]

theorem mem_waiting_perform {s : AtomicStore} {call : Nat} {op : Operation} {w : Nat × Wish}
    (h : w ∈ (s.perform call op).1.waiting) : w ∈ s.waiting ∨ w.1 = call := by
  cases op with
  | getWhen wish =>
      rcases List.mem_append.mp (List.mem_filter.mp h).1 with hw | hw
      · exact .inl hw
      · exact .inr (congrArg Prod.fst (List.mem_singleton.mp hw))
  | put key value | get key | multiPut pairs | multiGet keys => exact .inl (List.mem_filter.mp h).1

theorem mem_of_mem_waiting_run {requests : List (Nat × Operation)} {call : Nat}
    (h : call ∈ (empty.run requests).waiting.map Prod.fst) : call ∈ requests.map Prod.fst := by
  obtain ⟨w, hw, rfl⟩ := List.mem_map.mp h
  clear h
  induction requests using List.reverseRecOn with
  | nil => cases hw
  | append_singleton requests r ih =>
      rw [run_snoc] at hw
      rw [List.map_append, List.mem_append]
      rcases mem_waiting_perform hw with hw | hw
      · exact .inl (ih hw)
      · exact .inr (by simp [hw])

end AtomicStore

end Store

end AwaitStore
