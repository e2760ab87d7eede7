import AwaitStore.Proofs.Store.Bookkeeping
import AwaitStore.Store.SharedCondition

namespace AwaitStore.Store.SharedCondition

abbrev Owes (ticket : Ticket) (s : SharedCondition) : Prop := ticket.seen ≠ s.generation

def outdated (live : List (Key × Ticket)) (s : SharedCondition) : Nat :=
  live.countP (fun w => w.2.seen != s.generation)

structure Agrees (live : List (Key × Ticket)) (s : SharedCondition) : Prop where
  waiting_eq : s.waiting = live.length
  unsignaled_eq : s.unsignaled = outdated live s

theorem pending_iff {live : List (Key × Ticket)} {s : SharedCondition} (h : Agrees live s) :
    Triggers.pending s = true ↔ ∃ w ∈ live, Owes w.2 s := by
  change decide (s.unsignaled > 0) = true ↔ _
  rw [h.unsignaled_eq, decide_eq_true_eq, gt_iff_lt, outdated, List.countP_pos_iff]
  simp

theorem agrees_register {live : List (Key × Ticket)} {s : SharedCondition} (h : Agrees live s) (key : Key) :
    Agrees (live ++ [(key, (register key s).1)]) (register key s).2 where
  waiting_eq := by simp [register, h.waiting_eq]
  unsignaled_eq := by simpa [register, outdated] using h.unsignaled_eq

theorem seen_of_not_pending {live : List (Key × Ticket)} {s : SharedCondition} (h : Agrees live s)
    (hp : Triggers.pending s = false) : ∀ w ∈ live, w.2.seen = s.generation := by
  intro w hw
  by_contra hne
  have := (pending_iff h).mpr ⟨w, hw, hne⟩
  simp [hp] at this

theorem add_one_ne (n : UInt64) : n ≠ n + 1 := by
  intro h
  have h' := congrArg UInt64.toNat h
  simp only [UInt64.toNat_add, UInt64.toNat_one] at h'
  omega

theorem owes_summon {live : List (Key × Ticket)} {s : SharedCondition} (h : Agrees live s)
    (hp : Triggers.pending s = false) (keys : List Key) : ∀ w ∈ live, Owes w.2 (summon keys s).1 := by
  intro w hw
  have hpos : s.waiting > 0 := by
    rw [h.waiting_eq]
    exact List.length_pos_of_mem hw
  rw [summon, if_pos hpos, Owes, seen_of_not_pending h hp w hw]
  exact add_one_ne s.generation

theorem agrees_summon {live : List (Key × Ticket)} {s : SharedCondition} (h : Agrees live s)
    (hp : Triggers.pending s = false) (keys : List Key) : Agrees live (summon keys s).1 := by
  by_cases hpos : s.waiting > 0
  · have hall := owes_summon h hp keys
    have hc : outdated live (summon keys s).1 = live.length :=
      List.countP_eq_length.mpr (by simpa using hall)
    refine ⟨?_, ?_⟩
    · rw [summon, if_pos hpos]
      exact h.waiting_eq
    · rw [hc, summon, if_pos hpos]
      exact h.waiting_eq
  · rw [summon, if_neg hpos]
    exact h

theorem agrees_acknowledge {front back : List (Key × Ticket)} {key : Key} {ticket : Ticket}
    {s : SharedCondition} (h : Agrees (front ++ (key, ticket) :: back) s) :
    Agrees (front ++ (key, (acknowledge ticket s).2.1) :: back) (acknowledge ticket s).2.2 := by
  have hu := h.unsignaled_eq
  by_cases he : ticket.seen = s.generation
  · rw [acknowledge, if_pos he]
    exact h
  · rw [acknowledge, if_neg he]
    refine ⟨by simpa using h.waiting_eq, ?_⟩
    simp [outdated, he] at hu ⊢
    omega

theorem owes_acknowledge (ticket : Ticket) (s : SharedCondition) :
    ¬ Owes (acknowledge ticket s).2.1 (acknowledge ticket s).2.2 ∧
      ∀ other, Owes other (acknowledge ticket s).2.2 ↔ Owes other s := by
  unfold acknowledge
  split
  next he => exact ⟨by simpa using he, fun _ => Iff.rfl⟩
  next => exact ⟨by simp, fun _ => Iff.rfl⟩

theorem agrees_unregister {front back : List (Key × Ticket)} {key : Key} {ticket : Ticket}
    {s : SharedCondition} (h : Agrees (front ++ (key, ticket) :: back) s) (ho : ¬ Owes ticket s) :
    Agrees (front ++ back) (unregister key ticket s) := by
  have hw := h.waiting_eq
  have hu := h.unsignaled_eq
  refine ⟨?_, ?_⟩
  · simp [unregister] at hw ⊢
    omega
  · simpa [unregister, outdated, ho] using hu

/-- All tickets carry the number of the last write when a write is let in, so the next number, also the
one that comes around again, differs from theirs. -/
instance : Bookkeeping SharedCondition where
  Owes := Owes
  Agrees := Agrees
  Room _ _ := True
  agrees_empty := ⟨rfl, rfl⟩
  pending_iff := pending_iff
  agrees_register h _ key := agrees_register h key
  owes_register _ _ _ := ⟨by simp [Triggers.register, register], fun _ _ => Iff.rfl⟩
  agrees_summon := agrees_summon
  owes_summon h hp keys w hw _ := owes_summon h hp keys w hw
  notified_summon h hp keys w hw _ := by
    have hpos : waiting _ > 0 := h.waiting_eq ▸ List.length_pos_of_mem hw
    simp [Triggers.summon, summon, hpos, Triggers.condition]
  agrees_acknowledge := agrees_acknowledge
  owes_acknowledge _ := ⟨(owes_acknowledge _ _).1, fun w _ => (owes_acknowledge _ _).2 w.2⟩
  agrees_unregister := agrees_unregister
  owes_unregister _ _ _ _ := Iff.rfl

end AwaitStore.Store.SharedCondition
