import AwaitStore.Proofs.Store.Run

namespace AwaitStore.Store

/-- Records that agree with the callers that are registered. `Owes` says that a caller has been summoned
and has not acknowledged, `Agrees` that the records fit the registered keys and tickets, and `Room` that
a further caller would get a ticket that can be told from theirs. -/
class Bookkeeping (σ : Type) [Triggers σ] where
  Owes : Triggers.Ticket σ → σ → Prop
  Agrees : List (Key × Triggers.Ticket σ) → σ → Prop
  Room : List (Key × Triggers.Ticket σ) → σ → Prop
  agrees_empty : Agrees [] Triggers.empty
  pending_iff {live : List (Key × Triggers.Ticket σ)} {s : σ} (h : Agrees live s) :
    Triggers.pending s = true ↔ ∃ w ∈ live, Owes w.2 s
  agrees_register {live : List (Key × Triggers.Ticket σ)} {s : σ} (h : Agrees live s) (hr : Room live s)
    (key : Key) :
    Agrees (live ++ [(key, (Triggers.register key s).1)]) (Triggers.register key s).2
  owes_register {live : List (Key × Triggers.Ticket σ)} {s : σ} (h : Agrees live s) (hr : Room live s)
    (key : Key) :
    ¬ Owes (Triggers.register key s).1 (Triggers.register key s).2 ∧
      ∀ w ∈ live, Owes w.2 (Triggers.register key s).2 ↔ Owes w.2 s
  agrees_summon {live : List (Key × Triggers.Ticket σ)} {s : σ} (h : Agrees live s)
    (hp : Triggers.pending s = false) (keys : List Key) : Agrees live (Triggers.summon keys s).1
  /-- A write summons at least the callers that await one of the written keys. -/
  owes_summon {live : List (Key × Triggers.Ticket σ)} {s : σ} (h : Agrees live s)
    (hp : Triggers.pending s = false) (keys : List Key) :
    ∀ w ∈ live, w.1 ∈ keys → Owes w.2 (Triggers.summon keys s).1
  notified_summon {live : List (Key × Triggers.Ticket σ)} {s : σ} (h : Agrees live s)
    (hp : Triggers.pending s = false) (keys : List Key) :
    ∀ w ∈ live, Owes w.2 (Triggers.summon keys s).1 →
      Triggers.condition w.2 ∈ (Triggers.summon keys s).2
  agrees_acknowledge {front back : List (Key × Triggers.Ticket σ)} {key : Key}
    {ticket : Triggers.Ticket σ} {s : σ} (h : Agrees (front ++ (key, ticket) :: back) s) :
    Agrees (front ++ (key, (Triggers.acknowledge ticket s).2.1) :: back)
      (Triggers.acknowledge ticket s).2.2
  owes_acknowledge {front back : List (Key × Triggers.Ticket σ)} {key : Key}
    {ticket : Triggers.Ticket σ} {s : σ} (h : Agrees (front ++ (key, ticket) :: back) s) :
    ¬ Owes (Triggers.acknowledge ticket s).2.1 (Triggers.acknowledge ticket s).2.2 ∧
      ∀ w ∈ front ++ back, Owes w.2 (Triggers.acknowledge ticket s).2.2 ↔ Owes w.2 s
  agrees_unregister {front back : List (Key × Triggers.Ticket σ)} {key : Key}
    {ticket : Triggers.Ticket σ} {s : σ} (h : Agrees (front ++ (key, ticket) :: back) s)
    (ho : ¬ Owes ticket s) : Agrees (front ++ back) (Triggers.unregister key ticket s)
  owes_unregister {front back : List (Key × Triggers.Ticket σ)} {key : Key}
    {ticket : Triggers.Ticket σ} {s : σ} (h : Agrees (front ++ (key, ticket) :: back) s)
    (ho : ¬ Owes ticket s) :
    ∀ w ∈ front ++ back, Owes w.2 (Triggers.unregister key ticket s) ↔ Owes w.2 s

namespace SingleLock

open Bookkeeping

variable {σ : Type} [Triggers σ] [Bookkeeping σ]

structure Sound (s : SingleLock σ) : Prop where
  calls_nodup : s.sleeping.Nodup
  agrees : Agrees s.live s.triggers
  owes_of_holds : ∀ w ∈ s.asleep, w.wish.holds s.contents → Owes w.ticket s.triggers
  notified_of_owes : ∀ w ∈ s.asleep, Owes w.ticket s.triggers → w.notified

def Admits (s : SingleLock σ) : Step → Prop
  | .getWhen call _ => call ∉ s.sleeping ∧ Room s.live s.triggers
  | .write _ | .wake _ => True

/-- Every step of the run from here on is admitted when its turn comes. -/
def Admitted (s : SingleLock σ) : List Step → Prop
  | [] => True
  | a :: rest => s.Admits a ∧ ∀ t r, s.step a = some (t, r) → t.Admitted rest

theorem sound_empty : Sound (empty : SingleLock σ) where
  calls_nodup := List.nodup_nil
  agrees := agrees_empty
  owes_of_holds := by simp [empty]
  notified_of_owes := by simp [empty]

theorem Sound.owes_start {s : SingleLock σ} (h : s.Sound) {call : Nat} {wish : Wish}
    (ha : s.Admits (.getWhen call wish)) :
    ∀ w ∈ s.asleep, Owes w.ticket (s.start call wish).1.triggers ↔ Owes w.ticket s.triggers := by
  obtain ⟨-, hroom⟩ := ha
  obtain ⟨hnew, hold⟩ := owes_register h.agrees hroom wish.keyCond
  have hreg := agrees_register h.agrees hroom wish.keyCond
  intro w hw
  have hlive : registration w ∈ s.live := List.mem_map_of_mem hw
  rw [start_eq]
  split
  · have hun := owes_unregister hreg hnew
    rw [List.append_nil] at hun
    exact (hun _ hlive).trans (hold _ hlive)
  · exact hold _ hlive

theorem Sound.start {s : SingleLock σ} (h : s.Sound) {call : Nat} {wish : Wish}
    (ha : s.Admits (.getWhen call wish)) : (s.start call wish).1.Sound := by
  have hsame := h.owes_start ha
  obtain ⟨hcall, hroom⟩ := ha
  obtain ⟨hnew, -⟩ := owes_register h.agrees hroom wish.keyCond
  have hreg := agrees_register h.agrees hroom wish.keyCond
  by_cases hh : wish.holds s.contents
  · simp only [start_eq, if_pos hh] at hsame ⊢
    exact
      { calls_nodup := h.calls_nodup
        agrees := by simpa [live] using agrees_unregister hreg hnew
        owes_of_holds := fun w hw hh => (hsame w hw).mpr (h.owes_of_holds w hw hh)
        notified_of_owes := fun w hw ho => h.notified_of_owes w hw ((hsame w hw).mp ho) }
  · simp only [start_eq, if_neg hh] at hsame ⊢
    refine ⟨?_, ?_, ?_, ?_⟩
    · have hn : (s.sleeping ++ [call]).Nodup :=
        h.calls_nodup.append (List.nodup_singleton call) (by simpa using hcall)
      simpa [sleeping] using hn
    · simpa [live, registration] using hreg
    · intro w hw hw'
      rcases List.mem_append.mp hw with hw | hw
      · exact (hsame w hw).mpr (h.owes_of_holds w hw hw')
      · cases List.mem_singleton.mp hw
        exact absurd hw' hh
    · intro w hw ho
      rcases List.mem_append.mp hw with hw | hw
      · exact h.notified_of_owes w hw ((hsame w hw).mp ho)
      · cases List.mem_singleton.mp hw
        exact absurd ho hnew

/-- While no caller owes an acknowledgement none has a condition that holds, so a write cannot pass over
a table for which somebody waits. -/
theorem Sound.not_holds {s : SingleLock σ} (h : s.Sound) (hp : Triggers.pending s.triggers = false) :
    ∀ w ∈ s.asleep, ¬ Owes w.ticket s.triggers ∧ ¬ w.wish.holds s.contents := by
  intro w hw
  have hn : ¬ Owes w.ticket s.triggers := by
    intro ho
    have := (pending_iff h.agrees).mpr ⟨registration w, List.mem_map_of_mem hw, ho⟩
    simp [hp] at this
  exact ⟨hn, fun hh => hn (h.owes_of_holds w hw hh)⟩

theorem Sound.write {s t : SingleLock σ} (h : s.Sound) {entries : List (Key × Value)}
    (hw : s.write entries = some t) : t.Sound := by
  obtain ⟨hp, rfl⟩ := write_eq_some hw
  have hlive (w) (hw : w ∈ s.asleep) : registration w ∈ s.live := List.mem_map_of_mem hw
  refine ⟨?_, ?_, ?_, ?_⟩
  · simpa [sleeping, List.map_map, Function.comp_def] using h.calls_nodup
  · simpa [live, List.map_map, Function.comp_def] using
      agrees_summon h.agrees hp (entries.map Prod.fst)
  · intro v hv hh
    obtain ⟨w, hw, rfl⟩ := List.mem_map.mp hv
    rw [notify_wish] at hh
    rw [notify_ticket]
    apply owes_summon h.agrees hp _ _ (hlive w hw)
    -- The awaited key was written: otherwise it had the awaited value before.
    by_contra hk
    have hsame : (s.contents.putAll entries)[w.wish.keyCond]? = s.contents[w.wish.keyCond]? :=
      Table.getElem?_putAll_of_notMem _ _ _ fun p hp he => hk (List.mem_map.mpr ⟨p, hp, he⟩)
    exact (h.not_holds hp w hw).2 (by simpa [Wish.holds, hsame] using hh)
  · intro v hv ho
    obtain ⟨w, hw, rfl⟩ := List.mem_map.mp hv
    rw [notify_ticket] at ho
    exact notify_notified (notified_summon h.agrees hp _ _ (hlive w hw) ho)

theorem Sound.owes_wake {s t : SingleLock σ} (h : s.Sound) {front back : List (Sleeper (Triggers.Ticket σ))}
    {w : Sleeper (Triggers.Ticket σ)} (he : s.asleep = front ++ w :: back)
    (hn : w.call ∉ (front ++ back).map Sleeper.call) {r : Option Woken} (hw : s.wake w.call = some (t, r)) :
    (∀ v ∈ front ++ back, Owes v.ticket t.triggers ↔ Owes v.ticket s.triggers) ∧
      ∀ v ∈ t.asleep, v ∈ front ++ back ∨ ¬ Owes v.ticket t.triggers ∧ v.notified = false := by
  have hagrees : Agrees (front.map registration ++ registration w :: back.map registration) s.triggers := by
    simpa [live, he] using h.agrees
  obtain ⟨hdone, hothers⟩ := owes_acknowledge hagrees
  have hlive (v) (hv : v ∈ front ++ back) : registration v ∈ front.map registration ++ back.map registration := by
    simpa using List.mem_map_of_mem (f := registration) hv
  rw [wake_eq he hn] at hw
  split at hw
  · cases hw
    have hun := owes_unregister (agrees_acknowledge hagrees) hdone
    exact ⟨fun v hv => (hun _ (hlive v hv)).trans (hothers _ (hlive v hv)), fun v hv => .inl hv⟩
  · cases hw
    refine ⟨fun v hv => hothers _ (hlive v hv), fun v hv => ?_⟩
    rcases List.mem_cons.mp (List.perm_middle.mem_iff.mp hv) with rfl | hv
    · exact .inr ⟨hdone, rfl⟩
    · exact .inl hv

theorem Sound.wake {s t : SingleLock σ} (h : s.Sound) {call : Nat} {r : Option Woken}
    (hw : s.wake call = some (t, r)) : t.Sound := by
  obtain ⟨front, w, back, he, rfl, hn⟩ := exists_sleeper h.calls_nodup (mem_sleeping_of_wake hw)
  obtain ⟨hsame, hown⟩ := h.owes_wake he hn hw
  have hagrees : Agrees (front.map registration ++ registration w :: back.map registration) s.triggers := by
    simpa [live, he] using h.agrees
  have hack := agrees_acknowledge hagrees
  obtain ⟨hdone, -⟩ := owes_acknowledge hagrees
  have hmem (v) (hv : v ∈ front ++ back) : v ∈ s.asleep :=
    he ▸ List.perm_middle.mem_iff.mpr (List.mem_cons_of_mem w hv)
  have hcalls : ((front ++ back).map Sleeper.call).Nodup := by
    have hs := h.calls_nodup
    simp only [sleeping, he, List.map_append, List.map_cons] at hs ⊢
    exact (List.nodup_middle.mp hs).of_cons
  rw [wake_eq he hn] at hw
  split at hw
  · cases hw
    exact
      { calls_nodup := hcalls
        agrees := by simpa [live, registration] using agrees_unregister hack hdone
        owes_of_holds := fun v hv hh => (hsame v hv).mpr (h.owes_of_holds v (hmem v hv) hh)
        notified_of_owes := fun v hv ho => h.notified_of_owes v (hmem v hv) ((hsame v hv).mp ho) }
  next hnot =>
    cases hw
    refine ⟨?_, ?_, ?_, ?_⟩
    · have hs := h.calls_nodup
      simpa [sleeping, he] using hs
    · simpa [live, registration] using hack
    · intro v hv hh
      rcases List.mem_cons.mp (List.perm_middle.mem_iff.mp hv) with rfl | hv
      · exact absurd hh hnot
      · exact (hsame v hv).mpr (h.owes_of_holds v (hmem v hv) hh)
    · intro v hv ho
      rcases hown v hv with hv | ⟨hnone, -⟩
      · exact h.notified_of_owes v (hmem v hv) ((hsame v hv).mp ho)
      · exact absurd ho hnone

theorem Sound.step {s t : SingleLock σ} (h : s.Sound) {a : Step} (ha : s.Admits a) {r : Option Woken}
    (hs : s.step a = some (t, r)) : t.Sound := by
  cases a with
  | getWhen call wish =>
      have ht := h.start ha
      rwa [step_getWhen hs] at ht
  | write entries => exact h.write (step_write hs).1
  | wake call => exact h.wake hs

theorem Sound.run {s t : SingleLock σ} (h : s.Sound) {steps : List Step} (ha : s.Admitted steps)
    {ended : List Woken} (hr : s.run steps = some (t, ended)) : t.Sound := by
  induction steps generalizing s ended with
  | nil =>
      cases hr
      exact h
  | cons a rest ih =>
      obtain ⟨u, first, more, hs, hrest, rfl⟩ := run_cons.mp hr
      exact ih (h.step ha.1 hs) (ha.2 u first hs) hrest

end SingleLock

end AwaitStore.Store
