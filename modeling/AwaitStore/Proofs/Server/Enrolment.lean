import AwaitStore.Proofs.Server.History

namespace AwaitStore.Server

open Wire (AuthStatus Message)

namespace Sessions

variable {s t : Sessions}

theorem Sound.release {n : Nat} (h : s.Sound) (hr : s.release n = some t) : t.Sound := by
  have hstep : s.step (.release n) = some (t, none) := by rw [Sessions.step, hr, Option.map_some]
  exact h.step hstep

theorem Sound.abandon {n : Nat} (h : s.Sound) (ha : s.abandon n = some t) : t.Sound := by
  have hstep : s.step (.abandon n) = some (t, none) := by rw [Sessions.step, ha, Option.map_some]
  exact h.step hstep

def pending (s : Sessions) : List Login := s.arriving ++ (s.waiting ++ s.called)

theorem pending_giveBack (s : Sessions) :
    s.giveBack.pending.Perm s.pending ∧ s.giveBack.opened = s.opened ∧ s.giveBack.active = s.active := by
  rcases giveBack_cases s with ⟨-, he⟩ | ⟨login, rest, hw, he⟩
  · rw [he]
    exact ⟨.refl _, rfl, rfl⟩
  · rw [he]
    refine ⟨List.perm_iff_count.mpr fun l => ?_, rfl, rfl⟩
    simp only [pending, hw, List.count_append, List.count_cons, List.count_nil]
    omega

theorem pending_join {n : Nat} (h : s.join n = some t) :
    t.pending.Perm s.pending ∧ t.opened = s.opened ∧ t.active = s.active := by
  obtain ⟨front, login, back, ha, -, rfl⟩ := join_eq_some h
  split
  all_goals
    refine ⟨List.perm_iff_count.mpr fun l => ?_, rfl, rfl⟩
    simp only [pending, ha, List.count_append, List.count_cons, List.count_nil]
    omega

theorem pending_release {n : Nat} (h : s.release n = some t) :
    t.pending.Perm s.pending ∧ t.opened = s.opened ∧ t.active = s.active := by
  obtain ⟨front, login, back, -, -, rfl⟩ := release_eq_some h
  exact pending_giveBack _

theorem pending_enter {n : Nat} {verdict : Verdict} (h : s.enter n = some (t, verdict)) :
    s.pending.Perm (verdict.login :: t.pending) ∧
      t.opened = (if verdict.granted then s.opened ++ [verdict.login] else s.opened) ∧
        (verdict.granted = false → t.active = s.active) := by
  obtain ⟨front, login, back, hc, -, hcase⟩ := enter_eq_some h
  split at hcase
  all_goals
    obtain ⟨rfl, rfl⟩ := hcase
    refine ⟨List.perm_iff_count.mpr fun l => ?_, rfl, fun hg => ?_⟩
    · simp only [pending, hc, List.count_append, List.count_cons]
      omega
    · first | rfl | cases hg

theorem opened_finish {n : Nat} (h : s.finish n = some t) :
    ∃ login, login.request = n ∧ s.opened.Perm (login :: t.opened) ∧ t.pending = s.pending := by
  obtain ⟨front, login, back, ho, hn, rfl⟩ := finish_eq_some h
  exact ⟨login, hn, ho ▸ List.perm_middle, rfl⟩

theorem pending_abandon {n : Nat} (h : s.abandon n = some t) :
    ∃ login, login.request = n ∧ s.pending.Perm (login :: t.pending) ∧ t.opened = s.opened ∧ t.active = s.active := by
  rcases abandon_eq_some h with ⟨front, login, back, hw, hn, rfl⟩ | ⟨front, login, back, hc, hn, rfl⟩
  · refine ⟨login, hn, List.perm_iff_count.mpr fun l => ?_, rfl, rfl⟩
    simp only [pending, hw, List.count_append, List.count_cons]
    omega
  · obtain ⟨hperm, hopened, hactive⟩ := pending_giveBack { s with called := front ++ back }
    refine ⟨login, hn, .trans ?_ (hperm.symm.cons login), hopened, hactive⟩
    refine List.perm_iff_count.mpr fun l => ?_
    simp only [pending, hc, List.count_append, List.count_cons]
    omega

end Sessions

def Standing.login? : Standing → Option Login
  | .admitted login _ | .inLine login _ | .loggedIn login => some login
  | .stranger | .left => none

namespace Service

variable {δ σ : Type}

/-- Each login that the sessions know of belongs to one connection, and the other way round. -/
structure Enrolled (v : View δ σ) : Prop where
  sound : v.sessions.Sound
  nodup : ((v.sessions.pending ++ v.sessions.opened).map Login.request).Nodup
  mem_opened : ∀ login, login ∈ v.sessions.opened ↔ ∃ i, v.standing i = some (.loggedIn login)
  mem_pending : ∀ login, login ∈ v.sessions.pending ↔ ∃ i status, v.standing i = some (.inLine login status)
  fresh : ∀ i login, (v.standing i).bind Standing.login? = some login → login.request < v.logins
  unique : ∀ i j first second, (v.standing i).bind Standing.login? = some first →
    (v.standing j).bind Standing.login? = some second → first.request = second.request → i = j

theorem enrolled_new {maxFrame slots : Nat} {store : σ} :
    Enrolled (new maxFrame slots store : Service δ σ).view := by
  have hnone (i : Nat) : (new maxFrame slots store : Service δ σ).view.standing i = none := rfl
  refine ⟨Sessions.sound_new slots, List.nodup_nil, ?_, ?_, ?_, ?_⟩
  · intro login
    simp only [hnone, reduceCtorEq, exists_false, iff_false]
    exact List.not_mem_nil
  · intro login
    simp only [hnone, reduceCtorEq, exists_false, iff_false]
    exact List.not_mem_nil
  · intro i login hi
    cases hi
  · intro i j first second hi
    cases hi

section Moves

variable {v : View δ σ} {i : Nat} {x y : Standing} {sessions : Sessions} {login : Login}

theorem stand_standing (j : Nat) : (v.stand i x).standing j = if j = i then some x else v.standing j :=
  Function.update_apply _ _ _ _

theorem Enrolled.rearrange (h : Enrolled v) (hs : sessions.Sound) (hp : sessions.pending.Perm v.sessions.pending)
    (ho : sessions.opened = v.sessions.opened) : Enrolled { v with sessions } := by
  refine ⟨hs, ?_, ?_, ?_, h.fresh, h.unique⟩
  · rw [ho]
    exact ((hp.append_right _).map _).nodup_iff.mpr h.nodup
  · intro login
    rw [ho]
    exact h.mem_opened login
  · intro login
    rw [hp.mem_iff]
    exact h.mem_pending login

theorem mem_of_perm {old : List Login} (gone rest : List Login) (hp : old.Perm (gone ++ rest)) (hn : old.Nodup)
    (login : Login) : login ∈ rest ↔ login ∈ old ∧ login ∉ gone := by
  have hd := List.disjoint_of_nodup_append (hp.nodup_iff.mp hn)
  rw [hp.mem_iff, List.mem_append]
  exact ⟨fun h => ⟨.inr h, fun hg => hd hg h⟩, fun h => h.1.resolve_left h.2⟩

theorem Enrolled.nodup_lists (h : Enrolled v) : v.sessions.pending.Nodup ∧ v.sessions.opened.Nodup := by
  have hn := List.Nodup.of_map _ h.nodup
  exact ⟨(List.nodup_append.mp hn).1, (List.nodup_append.mp hn).2.1⟩

theorem Enrolled.drop (h : Enrolled v) (gone past : List Login) (hs : sessions.Sound) (hx : x.login? = none)
    (hp : v.sessions.pending.Perm (gone ++ sessions.pending))
    (hgone : ∀ login, login ∈ gone ↔ ∃ status, v.standing i = some (.inLine login status))
    (ho : v.sessions.opened.Perm (past ++ sessions.opened))
    (hover : ∀ login, login ∈ past ↔ v.standing i = some (.loggedIn login)) :
    Enrolled ({ v with sessions }.stand i x) := by
  have hcases {j : Nat} {l : Login} (hl : (({ v with sessions }.stand i x).standing j).bind Standing.login? = some l) :
      j ≠ i ∧ (v.standing j).bind Standing.login? = some l := by
    rw [stand_standing] at hl
    split at hl
    · rw [Option.bind_some, hx] at hl
      cases hl
    next hj => exact ⟨hj, hl⟩
  refine ⟨hs, ?_, ?_, ?_, ?_, ?_⟩
  · have hn := ((hp.append ho).map Login.request).nodup_iff.mp h.nodup
    have hsub := (List.sublist_append_right gone sessions.pending).append (List.sublist_append_right past sessions.opened)
    exact hn.sublist (hsub.map _)
  · intro login
    change login ∈ sessions.opened ↔ _
    rw [mem_of_perm _ _ ho h.nodup_lists.2, hover, h.mem_opened]
    constructor
    · rintro ⟨⟨j, hj⟩, hi⟩
      have hne : j ≠ i := by
        rintro rfl
        exact hi hj
      exact ⟨j, by rw [stand_standing, if_neg hne]; exact hj⟩
    · rintro ⟨j, hj⟩
      obtain ⟨hne, -⟩ := hcases (j := j) (l := login) (by rw [hj]; rfl)
      rw [stand_standing, if_neg hne] at hj
      refine ⟨⟨j, hj⟩, fun hi => hne ?_⟩
      exact h.unique j i login login (by rw [hj]; rfl) (by rw [hi]; rfl) rfl
  · intro login
    change login ∈ sessions.pending ↔ _
    rw [mem_of_perm _ _ hp h.nodup_lists.1, hgone, h.mem_pending]
    constructor
    · rintro ⟨⟨j, status, hj⟩, hi⟩
      have hne : j ≠ i := by
        rintro rfl
        exact hi ⟨status, hj⟩
      exact ⟨j, status, by rw [stand_standing, if_neg hne]; exact hj⟩
    · rintro ⟨j, status, hj⟩
      obtain ⟨hne, -⟩ := hcases (j := j) (l := login) (by rw [hj]; rfl)
      rw [stand_standing, if_neg hne] at hj
      refine ⟨⟨j, status, hj⟩, fun ⟨_, hi⟩ => hne ?_⟩
      exact h.unique j i login login (by rw [hj]; rfl) (by rw [hi]; rfl) rfl
  · intro j l hl
    exact h.fresh j l (hcases hl).2
  · intro j k first second hj hk
    exact h.unique j k first second (hcases hj).2 (hcases hk).2

theorem Enrolled.drop_unknown (h : Enrolled v) (hx : x.login? = none)
    (hline : ∀ login status, v.standing i ≠ some (.inLine login status))
    (hin : ∀ login, v.standing i ≠ some (.loggedIn login)) : Enrolled (v.stand i x) := by
  apply h.drop [] [] h.sound hx (.refl _) ?_ (.refl _) ?_
  · intro login
    simp only [List.not_mem_nil, hline, exists_false]
  · intro login
    simp only [List.not_mem_nil, hin]

theorem Enrolled.advance (h : Enrolled v) (hs : sessions.Sound) (hi : v.standing i = some x)
    (hx : x.login? = some login) (hy : y.login? = some login)
    (hp : ∀ l, l ∈ sessions.pending ↔
      (∃ status, y = .inLine l status) ∨ (l ∈ v.sessions.pending ∧ l ≠ login))
    (ho : ∀ l, l ∈ sessions.opened ↔ y = .loggedIn l ∨ (l ∈ v.sessions.opened ∧ l ≠ login))
    (hn : ((sessions.pending ++ sessions.opened).map Login.request).Nodup) :
    Enrolled ({ v with sessions }.stand i y) := by
  have hown : (v.standing i).bind Standing.login? = some login := by rw [hi, Option.bind_some, hx]
  have hsame (j : Nat) : (({ v with sessions }.stand i y).standing j).bind Standing.login? =
      (v.standing j).bind Standing.login? := by
    rw [stand_standing]
    split
    next hj => rw [hj, hown, Option.bind_some, hy]
    · rfl
  have hother {j : Nat} {l : Login} (hj : (v.standing j).bind Standing.login? = some l) : j ≠ i ↔ l ≠ login := by
    constructor
    · rintro hne rfl
      exact hne (h.unique j i l l hj hown rfl)
    · rintro hne rfl
      exact hne (Option.some.inj (hj.symm.trans hown))
  refine ⟨hs, hn, ?_, ?_, ?_, ?_⟩
  · intro l
    change l ∈ sessions.opened ↔ _
    rw [ho, h.mem_opened]
    constructor
    · rintro (rfl | ⟨⟨j, hj⟩, hl⟩)
      · exact ⟨i, by rw [stand_standing, if_pos rfl]⟩
      · refine ⟨j, ?_⟩
        rw [stand_standing, if_neg ((hother (by rw [hj]; rfl)).mpr hl)]
        exact hj
    · rintro ⟨j, hj⟩
      rw [stand_standing] at hj
      split at hj
      · exact .inl (Option.some.inj hj)
      next hne => exact .inr ⟨⟨j, hj⟩, (hother (by rw [hj]; rfl)).mp hne⟩
  · intro l
    change l ∈ sessions.pending ↔ _
    rw [hp, h.mem_pending]
    constructor
    · rintro (⟨status, rfl⟩ | ⟨⟨j, status, hj⟩, hl⟩)
      · exact ⟨i, status, by rw [stand_standing, if_pos rfl]⟩
      · refine ⟨j, status, ?_⟩
        rw [stand_standing, if_neg ((hother (by rw [hj]; rfl)).mpr hl)]
        exact hj
    · rintro ⟨j, status, hj⟩
      rw [stand_standing] at hj
      split at hj
      · exact .inl ⟨status, Option.some.inj hj⟩
      next hne => exact .inr ⟨⟨j, status, hj⟩, (hother (by rw [hj]; rfl)).mp hne⟩
  · intro j l hl
    rw [hsame] at hl
    exact h.fresh j l hl
  · intro j k first second hj hk
    rw [hsame] at hj hk
    exact h.unique j k first second hj hk

end Moves

section Change

variable {v w : View δ σ} {i : Nat} {login : Login} {status : AuthStatus} {sessions : Sessions}

theorem Enrolled.send {m : Message} (h : Enrolled v) : Enrolled (v.send i m) :=
  ⟨h.sound, h.nodup, h.mem_opened, h.mem_pending, h.fresh, h.unique⟩

theorem Enrolled.eq_of_request (h : Enrolled v) {first second : Login}
    (hf : first ∈ v.sessions.pending ++ v.sessions.opened) (hs : second ∈ v.sessions.pending ++ v.sessions.opened)
    (he : first.request = second.request) : first = second :=
  List.inj_on_of_nodup_map h.nodup hf hs he

theorem Enrolled.leave (h : Enrolled v) (hi : v.standing i = some (.loggedIn login)) :
    Enrolled ({ v with sessions := (v.sessions.finish login.request).getD v.sessions }.stand i .left) := by
  have hmem : login ∈ v.sessions.opened := (h.mem_opened login).mpr ⟨i, hi⟩
  obtain ⟨found, rest, ht⟩ := Sessions.exists_take? hmem
  obtain ⟨sessions, hf⟩ : ∃ sessions, v.sessions.finish login.request = some sessions := by
    simp [Sessions.finish, ht]
  obtain ⟨past, hr, ho, hp⟩ := Sessions.opened_finish hf
  obtain rfl : past = login := by
    have hover : past ∈ v.sessions.opened := ho.mem_iff.mpr List.mem_cons_self
    exact h.eq_of_request (List.mem_append_right _ hover) (List.mem_append_right _ hmem) hr
  rw [hf, Option.getD_some]
  apply h.drop [] [past] (h.sound.finish hf) rfl (hp ▸ .refl _) ?_ ho ?_
  · intro l
    simp [hi]
  · intro l
    simp [hi, eq_comm]

theorem Enrolled.withdraw (h : Enrolled v) {x : Standing} (hi : v.standing i = some (.inLine login status))
    (hx : x.login? = none) (hs : sessions.Sound) (hp : v.sessions.pending.Perm (login :: sessions.pending))
    (ho : sessions.opened = v.sessions.opened) : Enrolled ({ v with sessions }.stand i x) := by
  apply h.drop [login] [] hs hx hp ?_ (ho ▸ .refl _) ?_
  · intro l
    simp [hi, eq_comm]
  · intro l
    simp [hi]

theorem Enrolled.enter (h : Enrolled v) (hi : v.standing i = some (.inLine login status)) (hs : sessions.Sound)
    (hp : v.sessions.pending.Perm (login :: sessions.pending))
    (ho : sessions.opened = v.sessions.opened ++ [login]) :
    Enrolled ({ v with sessions }.stand i (.loggedIn login)) := by
  have hmem : login ∈ v.sessions.pending := (h.mem_pending login).mpr ⟨i, status, hi⟩
  have hn := h.nodup
  apply h.advance hs hi rfl rfl
  · intro l
    rw [mem_of_perm [login] sessions.pending hp h.nodup_lists.1, List.mem_singleton]
    simp
  · intro l
    rw [ho, List.mem_append, List.mem_singleton, Standing.loggedIn.injEq, or_comm, eq_comm]
    constructor
    · rintro (rfl | hl)
      · exact .inl rfl
      · refine .inr ⟨hl, ?_⟩
        rintro rfl
        rw [List.map_append] at hn
        exact List.disjoint_of_nodup_append hn (List.mem_map_of_mem hmem) (List.mem_map_of_mem hl)
    · rintro (rfl | ⟨hl, -⟩)
      · exact .inl rfl
      · exact .inr hl
  · have hperm : (v.sessions.pending ++ v.sessions.opened).Perm (sessions.pending ++ sessions.opened) := by
      rw [ho]
      refine (hp.append_right _).trans ?_
      rw [List.cons_append, ← List.append_assoc]
      exact (List.perm_append_singleton _ _).symm
    exact (hperm.map _).nodup_iff.mp hn

theorem Enrolled.ask (h : Enrolled v) (hi : v.standing i = some (.admitted login status)) (hs : sessions.Sound)
    (hp : sessions.pending.Perm (login :: v.sessions.pending)) (ho : sessions.opened = v.sessions.opened) :
    Enrolled ({ v with sessions }.stand i (.inLine login status)) := by
  have hfresh {l : Login} (hl : l ∈ v.sessions.pending ++ v.sessions.opened) : l.request ≠ login.request := by
    intro he
    rcases List.mem_append.mp hl with hl | hl
    · obtain ⟨j, other, hj⟩ := (h.mem_pending l).mp hl
      obtain rfl := h.unique j i l login (by rw [hj]; rfl) (by rw [hi]; rfl) he
      rw [hi] at hj
      cases hj
    · obtain ⟨j, hj⟩ := (h.mem_opened l).mp hl
      obtain rfl := h.unique j i l login (by rw [hj]; rfl) (by rw [hi]; rfl) he
      rw [hi] at hj
      cases hj
  have hne {l : Login} (hl : l ∈ v.sessions.pending ++ v.sessions.opened) : l ≠ login := by
    rintro rfl
    exact hfresh hl rfl
  apply h.advance hs hi rfl rfl
  · intro l
    rw [hp.mem_iff, List.mem_cons]
    constructor
    · rintro (rfl | hl)
      · exact .inl ⟨status, rfl⟩
      · exact .inr ⟨hl, hne (List.mem_append_left _ hl)⟩
    · rintro (⟨other, he⟩ | ⟨hl, -⟩)
      · cases he
        exact .inl rfl
      · exact .inr hl
  · intro l
    simp only [ho, reduceCtorEq, false_or]
    exact ⟨fun hl => ⟨hl, hne (List.mem_append_right _ hl)⟩, And.left⟩
  · rw [ho]
    refine ((hp.append_right _).map _).nodup_iff.mpr ?_
    rw [List.cons_append, List.map_cons, List.nodup_cons]
    refine ⟨?_, h.nodup⟩
    intro hm
    obtain ⟨l, hl, he⟩ := List.mem_map.mp hm
    exact hfresh hl he

theorem Enrolled.pass (h : Enrolled v) (hi : v.standing i = some .stranger) (users : Users δ) (username : String) :
    Enrolled ({ v with users, logins := v.logins + 1 }.stand i (.admitted ⟨v.logins, username⟩ status)) := by
  have hcases {j : Nat} {l : Login} (hl : (({ v with users, logins := v.logins + 1 }.stand i
      (.admitted ⟨v.logins, username⟩ status)).standing j).bind Standing.login? = some l) :
      (j = i ∧ l.request = v.logins) ∨ (j ≠ i ∧ (v.standing j).bind Standing.login? = some l) := by
    rw [stand_standing] at hl
    split at hl
    next hj =>
      cases hl
      exact .inl ⟨hj, rfl⟩
    next hj => exact .inr ⟨hj, hl⟩
  refine ⟨h.sound, h.nodup, ?_, ?_, ?_, ?_⟩
  · intro l
    change l ∈ v.sessions.opened ↔ _
    rw [h.mem_opened]
    refine exists_congr fun j => ?_
    rw [stand_standing]
    split
    next hj =>
      rw [hj, hi]
      simp
    · rfl
  · intro l
    change l ∈ v.sessions.pending ↔ _
    rw [h.mem_pending]
    refine exists_congr fun j => exists_congr fun other => ?_
    rw [stand_standing]
    split
    next hj =>
      rw [hj, hi]
      simp
    · rfl
  · intro j l hl
    rcases hcases hl with ⟨-, he⟩ | ⟨-, hl⟩
    · exact Nat.lt_succ_of_le (Nat.le_of_eq he)
    · exact Nat.lt_succ_of_lt (h.fresh j l hl)
  · intro j k first second hj hk he
    rcases hcases hj with ⟨rfl, hf⟩ | ⟨-, hf⟩ <;> rcases hcases hk with ⟨rfl, hs⟩ | ⟨-, hs⟩
    · rfl
    · exact absurd (h.fresh k second hs) (by omega)
    · exact absurd (h.fresh j first hf) (by omega)
    · exact h.unique j k first second hf hs he

section Run

variable [DecidableEq δ] [Database σ] {digest : Nat → String → δ}

theorem Enrolled.change (h : Enrolled v) {a : Step} {k : Option (Nat × Message)} (hs : Change digest v k a w) :
    Enrolled w := by
  cases hs with
  | arrived | hungUp | ignored => exact h
  | loggedInTwice | wrongPassword | unauthenticated | shutOut | dispatched | worked | asked | replied | wrote | strained
  | shutDown =>
      exact ⟨h.sound, h.nodup, h.mem_opened, h.mem_pending, h.fresh, h.unique⟩
  | connected hnew => exact h.drop_unknown rfl (by simp [hnew]) (by simp [hnew])
  | strangerLeft hi => exact h.drop_unknown rfl (by simp [hi]) (by simp [hi])
  | gaveUp hi => exact h.drop_unknown rfl (by simp [hi]) (by simp [hi])
  | refused hi =>
      apply send
      exact h.drop_unknown rfl (by simp [hi]) (by simp [hi])
  | userLeft hi => exact h.leave hi
  | admitted hi => exact h.pass hi _ _
  | applied hi =>
      refine h.ask hi ⟨h.sound.users_nodup, h.sound.mem_active, h.sound.no_idle_slot⟩ ?_ rfl
      rw [Sessions.pending, List.append_assoc, List.singleton_append]
      exact List.perm_middle
  | joined hm =>
      obtain ⟨hp, ho, -⟩ := Sessions.pending_join hm
      exact h.rearrange (h.sound.join hm) hp ho
  | released hm =>
      obtain ⟨hp, ho, -⟩ := Sessions.pending_release hm
      exact h.rearrange (h.sound.release hm) hp ho
  | entered hm hi =>
      obtain ⟨hp, ho, -⟩ := Sessions.pending_enter hm
      exact (h.enter hi (h.sound.enter hm) hp ho).send
  | turnedAway hm hi =>
      obtain ⟨hp, ho, -⟩ := Sessions.pending_enter hm
      exact (h.withdraw hi rfl (h.sound.enter hm) hp ho).send
  | unheld hm hnobody =>
      obtain ⟨hp, -, -⟩ := Sessions.pending_enter hm
      obtain ⟨i, status, hi⟩ := (h.mem_pending _).mp (hp.mem_iff.mpr List.mem_cons_self)
      exact absurd hi (hnobody i status)
  | abandoned hi hm =>
      obtain ⟨login, hr, hp, ho, -⟩ := Sessions.pending_abandon hm
      obtain rfl : login = _ := h.eq_of_request (List.mem_append_left _ (hp.mem_iff.mpr List.mem_cons_self))
        (List.mem_append_left _ ((h.mem_pending _).mpr ⟨_, _, hi⟩)) hr
      exact h.withdraw hi rfl (h.sound.abandon hm) hp ho

theorem enrolled_run {maxFrame slots : Nat} {store : σ} {s : Service δ σ} {steps : List Step}
    {moments : List (Moment δ σ)} (h : (new maxFrame slots store).run digest steps = some (s, moments)) :
    Enrolled s.view :=
  run_induction (P := fun _ v => Enrolled v) enrolled_new (fun _ _ _ _ _ _ _ hP _ hs => hP.change hs) h

end Run

end Change

end Service

end AwaitStore.Server
