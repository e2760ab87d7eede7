import AwaitStore.Proofs.Calls
import AwaitStore.Proofs.Store.Run
import AwaitStore.Store.Backend

namespace AwaitStore.Store

namespace SingleLock

variable {σ : Type} [Triggers σ] {s t : SingleLock σ}

theorem subperm_wake {call : Nat} {r : Option Woken} (h : s.wake call = some (t, r)) :
    (r.toList.map Woken.call ++ t.sleeping).Subperm s.sleeping := by
  simp only [wake] at h
  split at h
  · cases h
  next w hw =>
    have hmem := List.mem_of_find?_eq_some hw
    obtain rfl : w.call = call := by simpa using List.find?_some hw
    split at h
    · cases h
      apply List.cons_subperm_of_not_mem_of_mem
      · simp [sleeping]
      · exact List.mem_map_of_mem hmem
      · exact (List.filter_sublist.map Sleeper.call).subperm
    · cases h
      suffices hcalls : sleeping ⟨_, _, _⟩ = s.sleeping from hcalls ▸ .refl _
      rw [sleeping, List.map_map]
      exact List.map_congr_left fun v _ => by simp only [Function.comp_apply]; split <;> rfl

theorem subperm_wakeAll (calls : List Nat) (s : SingleLock σ) :
    ((s.wakeAll calls).2.map Woken.call ++ (s.wakeAll calls).1.sleeping).Subperm s.sleeping := by
  induction calls generalizing s with
  | nil => exact .refl _
  | cons call calls ih =>
      simp only [wakeAll]
      split
      · exact ih s
      next t r hw =>
        rw [List.map_append, List.append_assoc]
        exact ((List.subperm_append_left _).mpr (ih t)).trans (subperm_wake hw)

theorem mem_returned {woken : List Woken} {r : Return} (h : r ∈ returned woken) :
    r.call ∈ woken.map Woken.call ∧ ∃ value, r.outcome = .ok (.value value) := by
  obtain ⟨w, hw, rfl⟩ := List.mem_map.mp h
  exact ⟨List.mem_map_of_mem hw, w.value, rfl⟩

theorem map_call_returned (woken : List Woken) : (returned woken).map Return.call = woken.map Woken.call := by
  simp [returned, Function.comp_def]

theorem applied_cases (s : SingleLock σ) (call : Nat) (entries : List (Key × Value)) :
    perform.applied call s entries = (s, []) ∨
      ∃ t woken, perform.applied call s entries = (t, ⟨call, .ok .stored⟩ :: returned woken) ∧
        (woken.map Woken.call ++ t.sleeping).Subperm s.sleeping := by
  cases hw : s.write entries with
  | none => exact .inl (by simp only [perform.applied, hw])
  | some u =>
      right
      refine ⟨u.settle.1, u.settle.2, by simp only [perform.applied, hw], ?_⟩
      rw [← sleeping_write hw]
      exact subperm_wakeAll _ u

theorem start_cases (s : SingleLock σ) (call : Nat) (wish : Wish) :
    (∃ t value, s.start call wish = (t, some ⟨call, value⟩) ∧ t.sleeping = s.sleeping) ∨
      ∃ t, s.start call wish = (t, none) ∧ t.sleeping = s.sleeping ++ [call] := by
  rw [start_eq]
  split
  · exact .inl ⟨_, _, rfl, rfl⟩
  · exact .inr ⟨_, rfl, by simp [sleeping]⟩

end SingleLock

inductive Effect (call : Nat) (op : Operation) (before : List Nat) : List Nat → List Return → Prop where
  | nothing : Effect call op before before []
  | own {outcome : Outcome} (suits : op.Suits outcome) : Effect call op before before [⟨call, outcome⟩]
  | wait (conditional : op.isConditional = true) : Effect call op before (before ++ [call]) []
  | write {woken : List SingleLock.Woken} {after : List Nat} (suits : op.Suits (.ok .stored))
      (once : (woken.map SingleLock.Woken.call ++ after).Subperm before) :
      Effect call op before after (⟨call, .ok .stored⟩ :: SingleLock.returned woken)

section Effect

variable {call : Nat} {op : Operation} {before after : List Nat} {returns : List Return}

theorem Effect.once (h : Effect call op before after returns) :
    (returns.map Return.call ++ after).Subperm (call :: before) := by
  cases h with
  | nothing => exact (List.sublist_cons_self call before).subperm
  | own suits => exact .refl _
  | wait conditional => exact (List.perm_append_singleton call before).subperm
  | write suits once =>
      rw [List.map_cons, SingleLock.map_call_returned]
      exact (List.subperm_cons call).mpr once

theorem Effect.suits (h : Effect call op before after returns) :
    ∀ r ∈ returns, r.call = call ∧ op.Suits r.outcome ∨
      r.call ∈ before ∧ ∃ value, r.outcome = .ok (.value value) := by
  intro r hr
  cases h with
  | nothing | wait conditional => cases hr
  | own suits =>
      obtain rfl := List.mem_singleton.mp hr
      exact .inl ⟨rfl, suits⟩
  | write suits once =>
      rcases List.mem_cons.mp hr with rfl | hr
      · exact .inl ⟨rfl, suits⟩
      · obtain ⟨hcall, hvalue⟩ := SingleLock.mem_returned hr
        exact .inr ⟨once.subset (List.mem_append_left _ hcall), hvalue⟩

theorem Effect.conditional (h : Effect call op before after returns) :
    ∀ n ∈ after, n ∈ before ∨ n = call ∧ op.isConditional = true := by
  intro n hn
  cases h with
  | nothing | own suits => exact .inl hn
  | wait conditional =>
      rcases List.mem_append.mp hn with hn | hn
      · exact .inl hn
      · exact .inr ⟨List.mem_singleton.mp hn, conditional⟩
  | write suits once => exact .inl (once.subset (List.mem_append_right _ hn))

end Effect

theorem SingleLock.effect_perform {σ : Type} [Triggers σ] (call : Nat) (op : Operation) (s : SingleLock σ) :
    Effect call op s.sleeping (s.perform call op).1.sleeping (s.perform call op).2 := by
  have hwrite (entries : List (Key × Value)) (suits : op.Suits (.ok .stored)) :
      Effect call op s.sleeping (perform.applied call s entries).1.sleeping
        (perform.applied call s entries).2 := by
    rcases s.applied_cases call entries with he | ⟨t, woken, he, once⟩
    · rw [he]
      exact .nothing
    · rw [he]
      exact .write suits once
  cases op with
  | put key value | multiPut pairs => exact hwrite _ trivial
  | get key | multiGet keys => exact .own trivial
  | getWhen wish =>
      simp only [perform]
      rcases s.start_cases call wish with ⟨t, value, he, hs⟩ | ⟨t, he, hs⟩
      · rw [he, hs]
        exact .own trivial
      · rw [he, hs]
        exact .wait rfl

theorem Sharded.effect_perform {n : Nat} (hash : Key → UInt64) (call : Nat) (op : Operation) (s : Sharded n) :
    Effect call op [] [] (s.perform hash call op).2 := by
  cases op <;> exact .own trivial

theorem Backend.effect_perform (call : Nat) (op : Operation) (b : Backend) :
    Effect call op b.asleep (b.perform call op).1.asleep (b.perform call op).2 := by
  cases b with
  | simple s | multiCondition s => exact s.effect_perform call op
  | sharded n s => exact s.effect_perform SipHash.ofKey call op

theorem Backend.orderly : Database.Orderly Backend.asleep where
  once call op b := (b.effect_perform call op).once
  suits call op b := (b.effect_perform call op).suits
  conditional call op b := (b.effect_perform call op).conditional

end AwaitStore.Store
