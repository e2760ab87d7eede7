import AwaitStore.Proofs.Server.Rest
import Mathlib.Data.List.Induction

namespace AwaitStore.Server.Sessions

def asked (steps : List Step) : List Nat :=
  steps.filterMap fun
    | .ask login => some login.request
    | _ => none

def joined (steps : List Step) : List Nat :=
  steps.filterMap fun
    | .join n => some n
    | _ => none

theorem asked_append (first second : List Step) : asked (first ++ second) = asked first ++ asked second :=
  List.filterMap_append

theorem joined_append (first second : List Step) : joined (first ++ second) = joined first ++ joined second :=
  List.filterMap_append

/-- The logins that have reached the line fall into two parts: whoever holds a slot or has been let in is in
the first, whoever waits is in the second. -/
structure InLine (steps : List Step) (s : Sessions) (verdicts : List Verdict) : Prop where
  nodup : (s.arriving.map Login.request ++ joined steps).Nodup
  arrived : ∀ n ∈ s.arriving.map Login.request ++ joined steps, n ∈ asked steps
  called_nodup : (s.called.map Login.request).Nodup
  split : ∃ passed behind, joined steps = passed ++ behind ∧ (s.waiting.map Login.request).Sublist behind ∧
    (∀ n ∈ s.called.map Login.request, n ∈ passed) ∧ ∀ v ∈ verdicts, v.granted → v.login.request ∈ passed

theorem inLine_new (slots : Nat) : InLine [] (new slots) [] :=
  ⟨List.nodup_nil, by simp [new, joined], List.nodup_nil, [], [], rfl, List.Sublist.slnil, by simp [new], by simp⟩

variable {steps : List Step} {s t : Sessions} {verdicts : List Verdict}

theorem InLine.not_mem_joined (h : InLine steps s verdicts) {front back : List Login} {login : Login}
    (ha : s.arriving = front ++ login :: back) : login.request ∉ joined steps := by
  have hn := h.nodup
  intro hj
  exact List.disjoint_of_nodup_append hn (by simp [ha]) hj

theorem InLine.giveBack (h : InLine steps s verdicts) : InLine steps s.giveBack verdicts := by
  obtain ⟨passed, behind, hj, hw, hc, hv⟩ := h.split
  rcases giveBack_cases s with ⟨-, he⟩ | ⟨login, rest, hcons, he⟩
  · rw [he]
    exact ⟨h.nodup, h.arrived, h.called_nodup, passed, behind, hj, hw, hc, hv⟩
  · rw [he]
    rw [hcons, List.map_cons, List.cons_sublist_iff] at hw
    obtain ⟨early, late, rfl, hl, hrest⟩ := hw
    have hdisjoint : passed.Disjoint (early ++ late) :=
      List.disjoint_of_nodup_append (hj ▸ h.nodup.of_append_right)
    have hnew : login.request ∉ s.called.map Login.request := fun hm =>
      hdisjoint (hc _ hm) (List.mem_append_left _ hl)
    refine ⟨h.nodup, h.arrived, ?_, passed ++ early, late, by simp [hj], hrest, ?_, ?_⟩
    · rw [List.map_append]
      exact h.called_nodup.append (List.nodup_singleton _) (by simpa using hnew)
    · intro n hm
      rw [List.map_append, List.mem_append] at hm
      rcases hm with hm | hm
      · exact List.mem_append_left _ (hc n hm)
      · cases List.mem_singleton.mp hm
        exact List.mem_append_right _ hl
    · exact fun v hm hg => List.mem_append_left _ (hv v hm hg)

theorem InLine.ask (h : InLine steps s verdicts) {login : Login} (hn : login.request ∉ asked steps) :
    InLine (steps ++ [.ask login]) (s.ask login).1 (verdicts ++ (s.ask login).2.toList) := by
  obtain ⟨passed, behind, hj, hw, hc, hv⟩ := h.split
  have hjoined : joined (steps ++ [.ask login]) = joined steps := by simp [joined]
  have hasked : ∀ n, n ∈ asked (steps ++ [.ask login]) ↔ n ∈ asked steps ∨ n = login.request := by
    simp [asked]
  rw [ask_eq]
  split
  · refine ⟨hjoined ▸ h.nodup, ?_, h.called_nodup, passed, behind, hjoined ▸ hj, hw, hc, ?_⟩
    · intro n hm
      exact (hasked n).mpr (.inl (h.arrived n (hjoined ▸ hm)))
    · intro v hm hg
      rcases List.mem_append.mp hm with hm | hm
      · exact hv v hm hg
      · simp_all
  · have hperm : ((s.arriving ++ [login]).map Login.request ++ joined steps).Perm
        (login.request :: (s.arriving.map Login.request ++ joined steps)) := by
      simp [List.perm_middle]
    refine ⟨?_, ?_, h.called_nodup, passed, behind, hjoined ▸ hj, hw, hc, by simpa using hv⟩
    · rw [hjoined, hperm.nodup_iff, List.nodup_cons]
      exact ⟨fun hm => hn (h.arrived _ hm), h.nodup⟩
    · intro n hm
      rw [hjoined, hperm.mem_iff, List.mem_cons] at hm
      exact (hasked n).mpr (hm.symm.imp_left (h.arrived n))

theorem InLine.join (h : InLine steps s verdicts) (hs : s.Sound) {n : Nat} (hj : s.join n = some t) :
    InLine (steps ++ [.join n]) t verdicts := by
  obtain ⟨front, login, back, ha, rfl, rfl⟩ := join_eq_some hj
  obtain ⟨passed, behind, hsplit, hw, hc, hv⟩ := h.split
  have hjoined : joined (steps ++ [.join login.request]) = joined steps ++ [login.request] := by
    simp [joined]
  have hasked : asked (steps ++ [.join login.request]) = asked steps := by simp [asked]
  have hperm : ((front ++ back).map Login.request ++ (joined steps ++ [login.request])).Perm
      (s.arriving.map Login.request ++ joined steps) := by
    rw [ha, List.map_append, List.map_append, List.map_cons, ← List.append_assoc]
    refine (List.perm_append_singleton _ _).trans ?_
    exact List.perm_middle.symm.append_right _ |>.trans (by simp)
  have hnodup := hperm.nodup_iff.mpr h.nodup
  have hmem : ∀ m ∈ (front ++ back).map Login.request ++ (joined steps ++ [login.request]), m ∈ asked steps :=
    fun m hm => h.arrived m (hperm.mem_iff.mp hm)
  rw [← hjoined] at hnodup hmem
  rw [← hasked] at hmem
  have hnew := h.not_mem_joined ha
  split
  · refine ⟨hnodup, hmem, h.called_nodup, passed, behind ++ [login.request], ?_, ?_, hc, hv⟩
    · rw [hjoined, hsplit, List.append_assoc]
    · rw [List.map_append]
      exact hw.append_right [login.request]
  next hfree =>
    have hnone : s.waiting = [] := hs.no_idle_slot.resolve_right hfree
    refine ⟨hnodup, hmem, ?_, joined steps ++ [login.request], [], by simp [hjoined], by simp [hnone], ?_, ?_⟩
    · rw [List.map_append]
      refine h.called_nodup.append (List.nodup_singleton _) ?_
      have hnot : login.request ∉ s.called.map Login.request := fun hm =>
        hnew (hsplit ▸ List.mem_append_left _ (hc _ hm))
      simpa using hnot
    · intro m hm
      rw [List.map_append, List.mem_append] at hm
      rcases hm with hm | hm
      · exact List.mem_append_left _ (hsplit ▸ List.mem_append_left _ (hc m hm))
      · exact List.mem_append_right _ hm
    · intro v hm hg
      exact List.mem_append_left _ (hsplit ▸ List.mem_append_left _ (hv v hm hg))

theorem InLine.shrink (h : InLine steps s verdicts) (ha : t.arriving = s.arriving)
    (hw : t.waiting.Sublist s.waiting) (hc : t.called.Sublist s.called) (more : List Verdict)
    (hm : ∀ v ∈ more, v.granted → v.login ∈ s.called) : InLine steps t (verdicts ++ more) := by
  obtain ⟨passed, behind, hj, hwait, hcalled, hv⟩ := h.split
  refine ⟨ha ▸ h.nodup, ha ▸ h.arrived, (hc.map Login.request).nodup h.called_nodup, passed, behind, hj,
    (hw.map Login.request).trans hwait, fun n hn => hcalled n ((hc.map Login.request).mem hn), ?_⟩
  intro v hmem hg
  rcases List.mem_append.mp hmem with hmem | hmem
  · exact hv v hmem hg
  · exact hcalled _ (List.mem_map_of_mem (hm v hmem hg))

theorem InLine.extend (h : InLine steps s verdicts) {a : Step} (ha : asked [a] = []) (hj : joined [a] = []) :
    InLine (steps ++ [a]) s verdicts := by
  have hasked : asked (steps ++ [a]) = asked steps := by rw [asked_append, ha, List.append_nil]
  have hjoined : joined (steps ++ [a]) = joined steps := by rw [joined_append, hj, List.append_nil]
  obtain ⟨hn, hm, hc, hs⟩ := h
  exact ⟨hjoined ▸ hn, hjoined ▸ hasked ▸ hm, hc, hjoined ▸ hs⟩

theorem InLine.step (h : InLine steps s verdicts) (hs : s.Sound) {a : Step} (hn : (asked (steps ++ [a])).Nodup)
    {verdict : Option Verdict} (ht : s.step a = some (t, verdict)) :
    InLine (steps ++ [a]) t (verdicts ++ verdict.toList) := by
  have hstep := step_eq_some ht
  cases a with
  | ask login =>
      have hnew : login.request ∉ asked steps := by
        rw [asked_append] at hn
        exact fun hm => List.disjoint_of_nodup_append hn hm (by simp [asked])
      have hask := h.ask hnew
      rwa [show s.ask login = (t, verdict) from hstep] at hask
  | join n =>
      obtain ⟨hj, rfl⟩ := hstep
      simpa using h.join hs hj
  | enter n =>
      obtain ⟨v, hv, rfl⟩ := hstep
      obtain ⟨front, login, back, hc, -, hcase⟩ := enter_eq_some hv
      have hsub : (front ++ back).Sublist s.called := hc ▸ (List.sublist_cons_self login back).append_left front
      have hmem : login ∈ s.called := by simp [hc]
      have hext : InLine (steps ++ [.enter n]) s verdicts := h.extend rfl rfl
      refine hext.shrink ?_ ?_ ?_ [v] ?_
      all_goals
        split at hcase <;> obtain ⟨rfl, rfl⟩ := hcase <;> simp [hsub, hmem]
  | finish n =>
      obtain ⟨hf, rfl⟩ := hstep
      obtain ⟨front, login, back, -, -, rfl⟩ := finish_eq_some hf
      have hext : InLine (steps ++ [.finish n]) s verdicts := h.extend rfl rfl
      refine hext.shrink ?_ ?_ ?_ [] ?_ <;> simp
  | release n =>
      obtain ⟨hr, rfl⟩ := hstep
      obtain ⟨front, login, back, -, -, rfl⟩ := release_eq_some hr
      have hext : InLine (steps ++ [.release n]) s verdicts := h.extend rfl rfl
      refine InLine.giveBack (hext.shrink ?_ ?_ ?_ [] ?_) <;> simp
  | abandon n =>
      obtain ⟨hb, rfl⟩ := hstep
      have hext : InLine (steps ++ [.abandon n]) s verdicts := h.extend rfl rfl
      rcases abandon_eq_some hb with ⟨front, login, back, hw, -, rfl⟩ | ⟨front, login, back, hc, -, rfl⟩
      · have hsub : (front ++ back).Sublist s.waiting := hw ▸ (List.sublist_cons_self login back).append_left front
        refine hext.shrink ?_ ?_ ?_ [] ?_ <;> simp [hsub]
      · have hsub : (front ++ back).Sublist s.called := hc ▸ (List.sublist_cons_self login back).append_left front
        refine InLine.giveBack (hext.shrink ?_ ?_ ?_ [] ?_) <;> simp [hsub]

theorem inLine_run {slots : Nat} (h : (new slots).run steps = some (s, verdicts)) (hn : (asked steps).Nodup) :
    InLine steps s verdicts := by
  induction steps using List.reverseRecOn generalizing s verdicts with
  | nil =>
      cases h
      exact inLine_new slots
  | append_singleton steps a ih =>
      obtain ⟨t, early, last, hr, hs, rfl⟩ := runSteps_snoc.mp h
      have ht := ih hr (by rw [asked_append] at hn; exact hn.of_append_left)
      exact ht.step ((sound_new slots).run hr).1 hn hs

theorem InLine.in_order (h : InLine steps s verdicts) {i j : Nat} (hij : [i, j].Sublist (joined steps))
    (hi : i ∈ s.waiting.map Login.request) : ∀ v ∈ verdicts, v.granted → v.login.request ≠ j := by
  obtain ⟨passed, behind, hj, hw, -, hv⟩ := h.split
  have hdisjoint : passed.Disjoint behind := List.disjoint_of_nodup_append (hj ▸ h.nodup.of_append_right)
  rintro v hm hg rfl
  rw [hj] at hij
  obtain ⟨first, second, he, hf, hs⟩ := List.sublist_append_iff.mp hij
  cases first with
  | nil =>
      rw [List.nil_append] at he
      subst he
      exact hdisjoint (hv v hm hg) (hs.mem (by simp))
  | cons n rest =>
      obtain rfl : i = n := by simp at he; exact he.1
      exact hdisjoint (hf.mem List.mem_cons_self) (hw.mem hi)

/-- A login that has a slot and finds its user active is refused. Its slot goes to the first in line, and is
free if nobody waits. -/
structure PassesOn (s : Sessions) (login : Login) (t : Sessions) : Prop where
  refused : s.run [.enter login.request, .release login.request] = some (t, [⟨login, false⟩])
  opened : t.opened = s.opened
  active : t.active = s.active
  nobody : s.waiting = [] → t.free = s.free + 1 ∧ t.called = s.called.erase login
  next : ∀ first rest, s.waiting = first :: rest →
    t.waiting = rest ∧ t.called = s.called.erase login ++ [first] ∧ t.free = s.free

theorem exists_passesOn (hn : (s.called.map Login.request).Nodup) {login : Login} (hc : login ∈ s.called)
    (hu : login.user ∈ s.active) : ∃ t, s.PassesOn login t := by
  obtain ⟨front, back, he⟩ := List.append_of_mem hc
  rw [he, List.map_append, List.map_cons, List.nodup_middle, List.nodup_cons, List.mem_append, not_or] at hn
  have herase : s.called.erase login = front ++ back := by
    have hnot : login ∉ front := fun hm => hn.1.1 (List.mem_map_of_mem hm)
    rw [he, List.erase_append_right _ hnot, List.erase_cons_head]
  have henter : s.step (.enter login.request) =
      some ({ s with called := front ++ back, leaving := s.leaving ++ [login] }, some ⟨login, false⟩) := by
    simp [step, enter, he, take?_append_cons hn.1.1, hu]
  obtain ⟨found, others, htake⟩ := exists_take? (show login ∈ s.leaving ++ [login] by simp)
  have hrelease : Sessions.step { s with called := front ++ back, leaving := s.leaving ++ [login] }
      (.release login.request) =
        some ({ s with called := front ++ back, leaving := others }.giveBack, none) := by
    simp [step, release, htake]
  have hrun : s.run [.enter login.request, .release login.request] =
      some ({ s with called := front ++ back, leaving := others }.giveBack, [⟨login, false⟩]) := by
    simp [run, runSteps, henter, hrelease]
  refine ⟨_, hrun, ?_, ?_, ?_, ?_⟩
  · unfold giveBack
    split <;> rfl
  · unfold giveBack
    split <;> rfl
  · intro hw
    simp [giveBack, hw, herase]
  · intro first rest hw
    simp [giveBack, hw, herase]

/-- What holds of the sessions that these steps lead to, with these verdicts on the way. -/
structure Orderly (slots : Nat) (steps : List Step) (s : Sessions) (verdicts : List Verdict) : Prop where
  users_nodup : (s.opened.map Login.user).Nodup
  mem_active : ∀ user, user ∈ s.active ↔ user ∈ s.opened.map Login.user
  slots_eq : s.AtRest → s.opened.length + s.free = slots
  full_of_waiting : s.AtRest → s.waiting ≠ [] → s.opened.length = slots
  in_order : ∀ i j, [i, j].Sublist (joined steps) → i ∈ s.waiting.map Login.request →
    ∀ v ∈ verdicts, v.granted → v.login.request ≠ j
  passes_on : ∀ login ∈ s.called, login.user ∈ s.active → ∃ t, s.PassesOn login t
  /-- Steps that follow of their own accord come to an end, and only where the sessions are at rest. -/
  settles : ∀ more t later, (∀ a ∈ more, a.follows) → s.run more = some (t, later) →
    more.length ≤ s.work ∧ (t.AtRest ∨ ∃ a, a.follows ∧ (t.step a).isSome)

/-- However many slots there are, and in whatever order logins come, are called, are let in or refused, give
up and end: no slot is lost, no user has two sessions, and nobody is let in before somebody who was in line
before and still waits. -/
theorem orderly_of_run {slots : Nat} {steps : List Step} {s : Sessions} {verdicts : List Verdict}
    (h : (new slots).run steps = some (s, verdicts)) (hn : (asked steps).Nodup) :
    Orderly slots steps s verdicts := by
  obtain ⟨hs, hslots⟩ := (sound_new slots).run h
  have hline := inLine_run h hn
  have hslots' : s.opened.length + s.called.length + s.leaving.length + s.free = slots := by
    simpa [Sessions.slots, new] using hslots
  refine ⟨hs.users_nodup, hs.mem_active, ?_, ?_, fun i j => hline.in_order, ?_, ?_⟩
  · rintro ⟨-, hcall, hleave⟩
    simpa [hcall, hleave] using hslots'
  · rintro ⟨-, hcall, hleave⟩ hwait
    simpa [hcall, hleave, hs.no_idle_slot.resolve_left hwait] using hslots'
  · exact fun login hc hu => exists_passesOn hline.called_nodup hc hu
  · intro more t later ha hr
    refine ⟨Nat.le_trans (Nat.le_add_right _ _) (work_run ha hr), ?_⟩
    by_cases hrest : t.AtRest
    · exact .inl hrest
    · exact .inr (exists_step hrest)

/-- Three logins of one user wait, and then two more. Of the first three one is let in, one is refused and one
gives up when it has its slot, which then goes to the fourth. -/
theorem orderly_of_run_cascade :
    ∃ s verdicts,
      (new 2).run [.ask ⟨0, "a"⟩, .ask ⟨1, "b"⟩, .join 1, .join 0, .enter 0, .enter 1, .ask ⟨2, "c"⟩, .join 2,
          .ask ⟨3, "c"⟩, .ask ⟨4, "c"⟩, .join 3, .join 4, .ask ⟨5, "d"⟩, .join 5, .ask ⟨6, "e"⟩, .join 6,
          .finish 0, .finish 1, .release 0, .enter 2, .release 1, .enter 3, .release 3, .abandon 4, .enter 5] =
        some (s, verdicts) ∧
      s.opened = [⟨2, "c"⟩, ⟨5, "d"⟩] ∧ s.waiting = [⟨6, "e"⟩] ∧ s.AtRest ∧
      Orderly 2 [.ask ⟨0, "a"⟩, .ask ⟨1, "b"⟩, .join 1, .join 0, .enter 0, .enter 1, .ask ⟨2, "c"⟩, .join 2,
          .ask ⟨3, "c"⟩, .ask ⟨4, "c"⟩, .join 3, .join 4, .ask ⟨5, "d"⟩, .join 5, .ask ⟨6, "e"⟩, .join 6,
          .finish 0, .finish 1, .release 0, .enter 2, .release 1, .enter 3, .release 3, .abandon 4, .enter 5]
        s verdicts :=
  ⟨_, _, rfl, rfl, rfl, ⟨rfl, rfl, rfl⟩, orderly_of_run rfl (by decide)⟩

end AwaitStore.Server.Sessions
