import Mathlib.Data.List.Basic

namespace AwaitStore

variable {σ α ρ : Type} {step : σ → α → Option (σ × Option ρ)}

/-- Takes the steps in turn. There is no such run if one of them is not possible when its turn comes. -/
def runSteps (step : σ → α → Option (σ × Option ρ)) (s : σ) : List α → Option (σ × List ρ)
  | [] => some (s, [])
  | a :: rest =>
      match step s a with
      | none => none
      | some (t, given) =>
          match runSteps step t rest with
          | none => none
          | some (u, more) => some (u, given.toList ++ more)

theorem runSteps_cons {s u : σ} {a : α} {rest : List α} {given : List ρ} :
    runSteps step s (a :: rest) = some (u, given) ↔
      ∃ t first more, step s a = some (t, first) ∧ runSteps step t rest = some (u, more) ∧
        given = first.toList ++ more := by
  constructor
  · intro h
    simp only [runSteps] at h
    split at h
    · cases h
    next t first hs =>
      split at h
      · cases h
      next v more hr =>
        cases h
        exact ⟨t, first, more, hs, hr, rfl⟩
  · rintro ⟨t, first, more, hs, hr, rfl⟩
    simp [runSteps, hs, hr]

theorem runSteps_append {s u : σ} {first second : List α} {given : List ρ} :
    runSteps step s (first ++ second) = some (u, given) ↔
      ∃ t early late, runSteps step s first = some (t, early) ∧ runSteps step t second = some (u, late) ∧
        given = early ++ late := by
  induction first generalizing s given with
  | nil =>
      constructor
      · intro h
        exact ⟨s, [], given, rfl, h, rfl⟩
      · rintro ⟨t, early, late, h₁, h₂, rfl⟩
        cases h₁
        exact h₂
  | cons a rest ih =>
      simp only [List.cons_append, runSteps_cons, ih]
      constructor
      · rintro ⟨t, r, _, hs, ⟨v, early, late, h₁, h₂, rfl⟩, rfl⟩
        exact ⟨v, r.toList ++ early, late, ⟨t, r, early, hs, h₁, rfl⟩, h₂, by simp⟩
      · rintro ⟨v, _, late, ⟨t, r, early, hs, h₁, rfl⟩, h₂, rfl⟩
        exact ⟨t, r, early ++ late, hs, ⟨v, early, late, h₁, h₂, rfl⟩, by simp⟩

theorem runSteps_snoc {s u : σ} {steps : List α} {a : α} {given : List ρ} :
    runSteps step s (steps ++ [a]) = some (u, given) ↔
      ∃ t early last, runSteps step s steps = some (t, early) ∧ step t a = some (u, last) ∧
        given = early ++ last.toList := by
  simp only [runSteps_append, runSteps_cons]
  constructor
  · rintro ⟨t, early, _, hr, ⟨v, last, _, hs, he, rfl⟩, rfl⟩
    cases he
    exact ⟨t, early, last, hr, hs, by simp⟩
  · rintro ⟨t, early, last, hr, hs, rfl⟩
    exact ⟨t, early, last.toList, hr, ⟨u, last, [], hs, rfl, by simp⟩, rfl⟩

end AwaitStore
