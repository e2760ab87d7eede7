import AwaitStore.Proofs.Server.History

namespace AwaitStore.Server.Service

open Wire (Message)

variable {δ σ : Type}

def lost (s : Service δ σ) (i : Nat) : List Message := (s.outlet i).lost

def isWriting (s : Service δ σ) (i : Nat) : Bool := (s.outlet i).isWriting

variable [DecidableEq δ] [Database σ] {digest : Nat → String → δ} {v w : View δ σ} {a : Step}
  {k : Option (Nat × Message)}

theorem Change.outlet_cases (hs : Change digest v k a w) (i : Nat) :
    w.outlet i = v.outlet i ∨ (∃ m, w.outlet i = (v.outlet i).send m) ∨
      ∃ b, a = .writer i b ∧ (v.outlet i).step b = some (w.outlet i) := by
  have hsend {u : View δ σ} {j : Nat} {m : Message} (hu : u.outlet = Function.update v.outlet j ((v.outlet j).send m)) :
      u.outlet i = v.outlet i ∨ ∃ m, u.outlet i = (v.outlet i).send m := by
    rw [hu]
    by_cases hi : i = j
    · subst hi
      exact .inr ⟨m, Function.update_self ..⟩
    · exact .inl (Function.update_of_ne hi ..)
  cases hs with
  | loggedInTwice | wrongPassword | unauthenticated | shutOut | refused | entered | turnedAway | replied =>
      exact (hsend rfl).imp_right .inl
  | @wrote j b o moved =>
      by_cases hi : i = j
      · subst hi
        exact .inr (.inr ⟨b, rfl, moved.trans (congrArg some (Function.update_self i o v.outlet).symm)⟩)
      · exact .inl (Function.update_of_ne hi ..)
  | _ => exact .inl rfl

/-- What is sent in a step is put in the outbox, unless the writer has stopped. -/
theorem Change.put (hs : Change digest v k a w) (i : Nat) : ∃ news, w.sent i = v.sent i ++ news ∧
    (w.outlet i).outbox = (v.outlet i).outbox ++ (if (v.outlet i).isWriting then news else []) := by
  rcases hs.outlet_cases i with he | ⟨m, he⟩ | ⟨b, -, hb⟩
  · exact ⟨[], by rw [View.sent, View.sent, he, List.append_nil], by rw [he, ite_self, List.append_nil]⟩
  · refine ⟨[m], by rw [View.sent, he, Outlet.sent_send]; rfl, ?_⟩
    rw [he, Outlet.outbox_send]
    split
    · rfl
    · rw [List.append_nil]
  · refine ⟨[], ?_, ?_⟩
    · rw [View.sent, View.sent, Outlet.sent_step hb, List.append_nil]
    · rw [(Outlet.step_eq_some hb).2.1, ite_self, List.append_nil]

/-- A writer that has stopped did so when one of its steps failed, and its outbox is as it was then. -/
def Severed (i : Nat) (moments : List (Moment δ σ)) (outbox : List Message) : Prop :=
  ∃ s b, (s, Step.writer i b) ∈ moments ∧ s.isWriting i = true ∧ (s.outlet i).Fails b ∧ s.outbox i = outbox

section Run

variable {maxFrame slots : Nat} {store : σ} {moments : List (Moment δ σ)} {s t : Service δ σ} {steps : List Step}

theorem severed_run (h : (new maxFrame slots store).run digest steps = some (t, moments)) {i : Nat}
    (hi : t.isWriting i = false) : Severed i moments (t.outbox i) := by
  refine run_induction (P := fun moments v => (v.outlet i).isWriting = false → Severed i moments (v.outlet i).outbox)
    nofun ?_ h hi
  intro _ moments s a k w _ hP hk hs hw
  have hlater {outbox : List Message} : Severed i moments outbox → Severed i (moments ++ [(s, a)]) outbox :=
    fun ⟨u, b, hm, hb⟩ => ⟨u, b, List.mem_append_left _ hm, hb⟩
  rcases hs.outlet_cases i with he | ⟨m, he⟩ | ⟨b, rfl, hb⟩
  · rw [he] at hw ⊢
    exact hlater (hP hw)
  · rw [he, Outlet.isWriting_send] at hw
    rw [he, Outlet.outbox_send, hw]
    exact hlater (hP hw)
  · obtain ⟨hwriting, houtbox, -, hfails⟩ := Outlet.step_eq_some hb
    exact ⟨s, b, List.mem_append_right _ (List.mem_singleton_self _), hwriting, hfails hw, houtbox.symm⟩

end Run

end AwaitStore.Server.Service
