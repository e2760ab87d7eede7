import AwaitStore.Proofs.Server.Slots

namespace AwaitStore.Server.Sessions

variable {s t : Sessions}

def AtRest (s : Sessions) : Prop := s.arriving = [] ∧ s.called = [] ∧ s.leaving = []

def Step.follows : Step → Bool
  | .join _ | .enter _ | .release _ => true
  | .ask _ | .finish _ | .abandon _ => false

/-- A bound on the steps that follow. A login joins the line, is called, enters, and gives its slot back. -/
def work (s : Sessions) : Nat :=
  4 * s.arriving.length + 3 * s.waiting.length + 2 * s.called.length + s.leaving.length

theorem work_giveBack (s : Sessions) : s.giveBack.work ≤ s.work := by
  rcases giveBack_cases s with ⟨-, he⟩ | ⟨login, rest, hw, he⟩
  · rw [he]
    exact Nat.le_refl _
  · rw [he]
    simp only [work, hw, List.length_append, List.length_cons, List.length_nil]
    omega

theorem work_step {a : Step} (ha : a.follows) {verdict : Option Verdict} (h : s.step a = some (t, verdict)) :
    t.work < s.work := by
  have hstep := step_eq_some h
  cases a with
  | join n =>
      obtain ⟨front, login, back, hl, -, rfl⟩ := join_eq_some hstep.1
      split
      all_goals
        simp only [work, hl, List.length_append, List.length_cons, List.length_nil]
        omega
  | enter n =>
      obtain ⟨v, hv, -⟩ := hstep
      obtain ⟨front, login, back, hc, -, hcase⟩ := enter_eq_some hv
      split at hcase
      all_goals
        obtain ⟨rfl, -⟩ := hcase
        simp only [work, hc, List.length_append, List.length_cons, List.length_nil]
        omega
  | release n =>
      obtain ⟨front, login, back, hl, -, rfl⟩ := release_eq_some hstep.1
      refine Nat.lt_of_le_of_lt (work_giveBack _) ?_
      simp only [work, hl, List.length_append, List.length_cons]
      omega
  | ask login | finish n | abandon n => cases ha

theorem work_run {more : List Step} (ha : ∀ a ∈ more, a.follows) {verdicts : List Verdict}
    (h : s.run more = some (t, verdicts)) : more.length + t.work ≤ s.work := by
  induction more generalizing s verdicts with
  | nil =>
      cases h
      simp
  | cons a rest ih =>
      obtain ⟨u, first, later, hs, hrest, -⟩ := runSteps_cons.mp h
      have hu := work_step (ha a List.mem_cons_self) hs
      have ht := ih (fun b hb => ha b (List.mem_cons_of_mem a hb)) hrest
      rw [List.length_cons]
      omega

theorem exists_step (h : ¬ s.AtRest) : ∃ a, a.follows ∧ (s.step a).isSome := by
  have hsome {l : List Login} (hne : l ≠ []) : ∃ n, (take? n l).isSome := by
    obtain ⟨login, hl⟩ := List.exists_mem_of_ne_nil l hne
    obtain ⟨found, rest, ht⟩ := exists_take? hl
    exact ⟨login.request, by simp [ht]⟩
  by_cases harr : s.arriving = []
  · by_cases hcall : s.called = []
    · obtain ⟨n, hn⟩ := hsome fun hl => h ⟨harr, hcall, hl⟩
      exact ⟨.release n, rfl, by simpa [step, release] using hn⟩
    · obtain ⟨n, hn⟩ := hsome hcall
      exact ⟨.enter n, rfl, by simpa [step, enter] using hn⟩
  · obtain ⟨n, hn⟩ := hsome harr
    exact ⟨.join n, rfl, by simpa [step, join] using hn⟩

theorem grant_cases (hl : s.leaving = []) {verdict : Verdict} (h : s.grant = some (t, verdict)) :
    ∃ login rest, s.called = login :: rest ∧
      ((s.run [.enter login.request, .release login.request] = some (t, [verdict]) ∧
          t = { s with called := rest }.giveBack) ∨
        (s.run [.enter login.request] = some (t, [verdict]) ∧
          t = { s with
            called := rest
            active := s.active.insert login.user
            opened := s.opened ++ [login] })) := by
  unfold grant at h
  split at h
  · cases h
  next login rest hc =>
    refine ⟨login, rest, hc, ?_⟩
    by_cases hu : login.user ∈ s.active
    · left
      have henter : s.enter login.request =
          some ({ s with called := rest, leaving := [login] }, ⟨login, false⟩) := by
        simp [enter, hc, take?, hu, hl]
      have hrelease : Sessions.release login.request { s with called := rest, leaving := [login] } =
          some { s with called := rest }.giveBack := by
        simp [release, take?, hl]
      simp only [henter, Option.map_some, hrelease, Option.getD_some, Option.some.injEq, Prod.mk.injEq] at h
      obtain ⟨rfl, rfl⟩ := h
      exact ⟨by simp [run, runSteps, step, henter, hrelease], rfl⟩
    · right
      have henter : s.enter login.request = some ({ s with
          called := rest
          active := s.active.insert login.user
          opened := s.opened ++ [login] }, ⟨login, true⟩) := by
        simp [enter, hc, take?, hu]
      have hrelease : Sessions.release login.request { s with
          called := rest
          active := s.active.insert login.user
          opened := s.opened ++ [login] } = none := by
        simp [release, hl, take?]
      simp only [henter, Option.map_some, hrelease, Option.getD_none, Option.some.injEq, Prod.mk.injEq] at h
      obtain ⟨rfl, rfl⟩ := h
      exact ⟨by simp [run, runSteps, step, henter], rfl⟩

theorem grant_run (hl : s.leaving = []) {verdict : Verdict} (h : s.grant = some (t, verdict)) :
    (∃ more, s.run more = some (t, [verdict])) ∧
      t.arriving = s.arriving ∧ t.leaving = [] ∧ t.underway + 1 = s.underway := by
  obtain ⟨login, rest, hc, ⟨hr, rfl⟩ | ⟨hr, rfl⟩⟩ := grant_cases hl h
  · refine ⟨⟨_, hr⟩, ?_⟩
    rcases giveBack_cases { s with called := rest } with ⟨-, he⟩ | ⟨first, others, hw, he⟩
    · rw [he]
      refine ⟨rfl, hl, ?_⟩
      simp only [underway, hc, List.length_cons]
      omega
    · rw [he]
      refine ⟨rfl, hl, ?_⟩
      replace hw : s.waiting = first :: others := hw
      simp only [underway, hc, hw, List.length_append, List.length_cons, List.length_nil]
      omega
  · refine ⟨⟨_, hr⟩, rfl, hl, ?_⟩
    simp only [underway, hc, List.length_cons]
    omega

theorem settle_run (ha : s.arriving = []) (hl : s.leaving = []) :
    (∃ more, s.run more = some s.settle) ∧ s.settle.1.AtRest := by
  suffices h : ∀ fuel, s.underway ≤ fuel →
      (∃ more, s.run more = some (grantAll fuel s)) ∧ (grantAll fuel s).1.AtRest from h _ (Nat.le_refl _)
  intro fuel
  induction fuel generalizing s with
  | zero =>
      intro hle
      simp only [underway] at hle
      have hnone : s.called = [] := List.eq_nil_of_length_eq_zero (by omega)
      exact ⟨⟨[], rfl⟩, ha, hnone, hl⟩
  | succ fuel ih =>
      intro hle
      cases hg : s.grant with
      | none =>
          have hnone : s.called = [] := by
            unfold grant at hg
            split at hg
            next hc => exact hc
            next login rest hc => simp [enter, hc, take?] at hg
          have he : grantAll (fuel + 1) s = (s, []) := by simp [grantAll, hg]
          rw [he]
          exact ⟨⟨[], rfl⟩, ha, hnone, hl⟩
      | some result =>
          obtain ⟨t, verdict⟩ := result
          obtain ⟨⟨first, hfirst⟩, ha', hl', hless⟩ := grant_run hl hg
          obtain ⟨⟨rest, hrest⟩, hrested⟩ := ih (ha'.trans ha) hl' (by omega)
          have he : grantAll (fuel + 1) s =
              ((grantAll fuel t).1, verdict :: (grantAll fuel t).2) := by simp [grantAll, hg]
          rw [he]
          refine ⟨⟨first ++ rest, ?_⟩, hrested⟩
          exact runSteps_append.mpr ⟨t, _, _, hfirst, hrest, rfl⟩

theorem login_run (h : s.AtRest) (l : Login) : (∃ more, s.run more = some (s.login l)) ∧ (s.login l).1.AtRest := by
  obtain ⟨harr, hcall, hleave⟩ := h
  by_cases hu : l.user ∈ s.active
  · have hask : s.request l = (s, some ⟨l, false⟩) := by simp [request, ask_eq, hu]
    obtain ⟨⟨more, hmore⟩, hrest⟩ := settle_run harr hleave
    have he : s.login l = (s.settle.1, ⟨l, false⟩ :: s.settle.2) := by simp [login, hask]
    rw [he]
    refine ⟨⟨.ask l :: more, ?_⟩, hrest⟩
    exact runSteps_cons.mpr ⟨s, some ⟨l, false⟩, _, by simp [step, ask_eq, hu], hmore, rfl⟩
  · obtain ⟨t, ht⟩ : ∃ t, Sessions.join l.request { s with arriving := [l] } = some t := by simp [join, take?]
    have hask : s.ask l = ({ s with arriving := [l] }, none) := by simp [ask_eq, hu, harr]
    have hreq : s.request l = (t, none) := by simp [request, hask, ht]
    have hquiet : t.arriving = [] ∧ t.leaving = [] := by
      simp only [join, take?, if_true, Option.map_some, Option.some.injEq] at ht
      split at ht <;> subst ht <;> exact ⟨rfl, hleave⟩
    obtain ⟨⟨more, hmore⟩, hrest⟩ := settle_run hquiet.1 hquiet.2
    have he : s.login l = t.settle := by simp [login, hreq]
    rw [he]
    refine ⟨⟨.ask l :: .join l.request :: more, ?_⟩, hrest⟩
    refine runSteps_cons.mpr ⟨_, none, _, by rw [step, hask], ?_, rfl⟩
    exact runSteps_cons.mpr ⟨t, none, _, by simp [step, ht], hmore, rfl⟩

theorem leave_run (h : s.AtRest) (n : Nat) : (∃ more, s.run more = some (s.leave n)) ∧ (s.leave n).1.AtRest := by
  obtain ⟨harr, hcall, hleave⟩ := h
  suffices hclose : ∃ early, s.run early = some (s.close n, []) ∧
      (s.close n).arriving = [] ∧ (s.close n).leaving = [] by
    obtain ⟨early, hearly, ha, hl⟩ := hclose
    obtain ⟨⟨more, hmore⟩, hrest⟩ := settle_run ha hl
    exact ⟨⟨early ++ more, runSteps_append.mpr ⟨_, _, _, hearly, hmore, rfl⟩⟩, hrest⟩
  cases hf : s.finish n with
  | some t =>
      obtain ⟨front, login, back, ho, rfl, rfl⟩ := finish_eq_some hf
      have hrelease : Sessions.release login.request { s with
          opened := front ++ back
          active := s.active.erase login.user
          leaving := s.leaving ++ [login] } = some { s with
            opened := front ++ back
            active := s.active.erase login.user
            leaving := [] }.giveBack := by
        simp [release, hleave, take?]
      have he : s.close login.request = { s with
          opened := front ++ back
          active := s.active.erase login.user
          leaving := [] }.giveBack := by
        simp [close, hf, hrelease]
      rw [he]
      refine ⟨[.finish login.request, .release login.request], ?_, ?_⟩
      · simp [run, runSteps, step, hf, hrelease]
      · unfold giveBack
        split <;> exact ⟨harr, rfl⟩
  | none =>
      cases hb : s.abandon n with
      | none =>
          have he : s.close n = s := by simp [close, hf, hb]
          rw [he]
          exact ⟨[], rfl, harr, hleave⟩
      | some t =>
          have he : s.close n = t := by simp [close, hf, hb]
          rw [he]
          refine ⟨[.abandon n], by simp [run, runSteps, step, hb], ?_⟩
          rcases abandon_eq_some hb with ⟨front, login, back, -, -, rfl⟩ | ⟨front, login, back, hc, -, -⟩
          · exact ⟨harr, hleave⟩
          · simp [hcall] at hc

end AwaitStore.Server.Sessions
