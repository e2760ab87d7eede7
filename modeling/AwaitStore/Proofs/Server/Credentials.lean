import AwaitStore.Proofs.Server.Enrolment
import AwaitStore.Proofs.Server.LoginReplies

namespace AwaitStore.Server

open Wire (AuthStatus Message)

theorem Users.known_authenticate {δ : Type} [DecidableEq δ] {digest : Nat → String → δ} {username password user : String}
    {users : Users δ} {c : Credentials δ} (h : users.known[user]? = some c) :
    (users.authenticate digest username password).2.known[user]? = some c := by
  rcases users.authenticate_eq digest username password with ⟨_, -, -, he⟩ | ⟨_, -, -, he⟩ | ⟨hnone, he⟩
  · rw [he]
    exact h
  · rw [he]
    exact h
  · rw [he, Std.ExtTreeMap.getElem?_insert, if_neg]
    · exact h
    · rw [Std.LawfulEqCmp.compare_eq_iff_eq]
      rintro rfl
      rw [hnone] at h
      cases h

theorem Users.known_of_isSuccess {δ : Type} [DecidableEq δ] {digest : Nat → String → δ} {username password : String}
    {users : Users δ} (h : (users.authenticate digest username password).1.isSuccess) :
    ∃ c, (users.authenticate digest username password).2.known[username]? = some c ∧
      digest c.salt password = c.digest := by
  rcases users.authenticate_eq digest username password with ⟨c, hk, hd, he⟩ | ⟨_, -, -, he⟩ | ⟨-, he⟩
  · rw [he]
    exact ⟨c, hk, hd⟩
  · rw [he] at h
    cases h
  · rw [he]
    exact ⟨_, Std.ExtTreeMap.getElem?_insert_self, rfl⟩

namespace Service

variable {δ σ : Type}

/-- The password that a request gives for a user, if it is checked at all. -/
def Receipt.password? (user : String) (r : Receipt δ σ) : Option String :=
  match r.message with
  | .authRequest username password => if username = user ∧ r.isLoggedIn = false then some password else none
  | _ => none

def firstPassword? (user : String) (moments : List (Moment δ σ)) : Option String :=
  (receipts moments).findSome? (Receipt.password? user)

section Snoc

variable {moments : List (Moment δ σ)} {s : Service δ σ} {a : Step} {i : Nat} {m : Message} {user : String}

theorem firstPassword?_snoc_none (h : s.taken? a = none) :
    firstPassword? user (moments ++ [(s, a)]) = firstPassword? user moments := by
  rw [firstPassword?, receipts_snoc_none h, firstPassword?]

theorem firstPassword?_snoc_some (h : s.taken? a = some (i, m)) :
    firstPassword? user (moments ++ [(s, a)]) = (firstPassword? user moments).or (Receipt.password? user ⟨s, i, m⟩) := by
  rw [firstPassword?, receipts_snoc_some h, List.findSome?_append, firstPassword?, List.findSome?_singleton]

end Snoc

section Registered

variable [DecidableEq δ] [Database σ] {digest : Nat → String → δ} {maxFrame slots : Nat} {store : σ}
  {moments : List (Moment δ σ)} {s : Service δ σ} {v w : View δ σ} {a : Step} {k : Option (Nat × Message)}

theorem Change.users_eq (hs : Change digest v k a w) :
    w.users = v.users ∨ ∃ i username password, k = some (i, .authRequest username password) ∧
      v.standing i = some .stranger ∧ w.users = (v.users.authenticate digest username password).2 := by
  cases hs with
  | admitted hi _ hc => exact .inr ⟨_, _, _, rfl, hi, by rw [hc]; rfl⟩
  | _ => exact .inl rfl

theorem Change.known (hs : Change digest v k a w) {user : String} {c : Credentials δ}
    (h : v.users.known[user]? = some c) : w.users.known[user]? = some c := by
  rcases hs.users_eq with he | ⟨i, username, password, -, -, he⟩
  · rw [he]
    exact h
  · rw [he]
    exact Users.known_authenticate h

variable (digest) in
/-- The registry knows exactly the users that have been seen, each with a digest of the first password. -/
def Registered (moments : List (Moment δ σ)) (v : View δ σ) : Prop :=
  ∀ user, (firstPassword? user moments = none ∧ v.users.known[user]? = none) ∨
    ∃ first salt, firstPassword? user moments = some first ∧ v.users.known[user]? = some ⟨salt, digest salt first⟩

omit [DecidableEq δ] [Database σ] in
theorem password?_of_no_login {i : Nat} {m : Message} (h : Receipt.isLogin (⟨s, i, m⟩ : Receipt δ σ) = false)
    (user : String) : Receipt.password? user ⟨s, i, m⟩ = none := by
  cases m with
  | authRequest => cases h
  | _ => rfl

omit [DecidableEq δ] [Database σ] in
theorem firstPassword?_of_known {i : Nat} {m : Message} (hk : s.taken? a = some (i, m)) {user : String}
    (h : firstPassword? user moments = none → Receipt.password? user ⟨s, i, m⟩ = none) :
    firstPassword? user (moments ++ [(s, a)]) = firstPassword? user moments := by
  rw [firstPassword?_snoc_some hk]
  cases hf : firstPassword? user moments with
  | none => rw [h hf, Option.none_or]
  | some first => rw [Option.some_or]

omit [DecidableEq δ] [Database σ] in
theorem Registered.keep (h : Registered digest moments s.view) {moments' : List (Moment δ σ)}
    (hf : ∀ user, firstPassword? user moments' = firstPassword? user moments) (hu : w.users = s.users) :
    Registered digest moments' w := by
  intro user
  rw [hf, hu]
  exact h user

omit [Database σ] in
theorem Registered.check (h : Registered digest moments s.view) {i : Nat} {username password : String}
    (hk : s.taken? a = some (i, .authRequest username password)) (hi : s.standing i = some .stranger)
    (hu : w.users = (s.users.authenticate digest username password).2) : Registered digest (moments ++ [(s, a)]) w := by
  have hpassword (user : String) : Receipt.password? user ⟨s, i, .authRequest username password⟩ =
      if username = user then some password else none := by
    have hin : Receipt.isLoggedIn ⟨s, i, .authRequest username password⟩ = false := Receipt.isLoggedIn_eq hi
    simp [Receipt.password?, hin]
  intro user
  rw [firstPassword?_snoc_some hk, hpassword, hu]
  rcases h user with ⟨hf, hn⟩ | ⟨first, salt, hf, hs⟩
  · rw [hf, Option.none_or]
    by_cases hname : username = user
    · subst hname
      rw [if_pos rfl]
      rcases s.users.authenticate_eq digest username password with ⟨_, hc, -⟩ | ⟨_, hc, -⟩ | ⟨-, he⟩
      · exact absurd (hn.symm.trans hc) (by simp)
      · exact absurd (hn.symm.trans hc) (by simp)
      · rw [he]
        exact .inr ⟨password, s.users.salts, rfl, Std.ExtTreeMap.getElem?_insert_self⟩
    · rw [if_neg hname]
      refine .inl ⟨rfl, ?_⟩
      rcases s.users.authenticate_eq digest username password with ⟨_, -, -, he⟩ | ⟨_, -, -, he⟩ | ⟨-, he⟩
      · rw [he]
        exact hn
      · rw [he]
        exact hn
      · rw [he, Std.ExtTreeMap.getElem?_insert, if_neg (by simpa using hname)]
        exact hn
  · rw [hf, Option.some_or]
    exact .inr ⟨first, salt, rfl, Users.known_authenticate hs⟩

theorem Registered.change (h : Registered digest moments s.view) (hk : s.taken? a = k)
    (hs : Change digest s.view k a w) : Registered digest (moments ++ [(s, a)]) w := by
  cases hs with
  | @ignored i m _ _ _ hreply =>
      refine h.keep (fun user => firstPassword?_of_known hk fun _ => password?_of_no_login ?_ user) rfl
      cases m with
      | authRequest username password => exact absurd rfl (hreply.2 username password)
      | _ => rfl
  | unauthenticated _ hm | shutOut _ hm | dispatched _ hm =>
      exact h.keep (fun user => firstPassword?_of_known hk fun _ => password?_of_no_login (isLogin_request hm) user) rfl
  | @loggedInTwice i username password login hi =>
      refine h.keep (fun user => firstPassword?_of_known hk fun _ => ?_) rfl
      have hin : Receipt.isLoggedIn ⟨s, i, .authRequest username password⟩ = true := Receipt.isLoggedIn_eq hi
      simp [Receipt.password?, hin]
  | wrongPassword hi hc => exact h.check hk hi (congrArg Prod.snd hc).symm
  | admitted hi _ hc => exact h.check hk hi (congrArg Prod.snd hc).symm
  | _ => exact h.keep (fun user => firstPassword?_snoc_none hk) rfl

theorem registered_run {t : Service δ σ} {steps : List Step}
    (h : (new maxFrame slots store).run digest steps = some (t, moments)) : Registered digest moments t.view := by
  refine run_induction (P := Registered digest) ?_ (fun _ _ _ _ _ _ _ hP hk hs => hP.change hk hs) h
  exact fun user => .inl ⟨rfl, by simp [view, new, Users.empty]⟩

end Registered

section Earned

variable [DecidableEq δ] [Database σ] {digest : Nat → String → δ} {maxFrame slots : Nat} {store : σ}
  {moments : List (Moment δ σ)} {s : Service δ σ} {v w : View δ σ} {a : Step} {k : Option (Nat × Message)}

theorem Change.login?_eq (hs : Change digest v k a w) {j : Nat} {login : Login}
    (h : (w.standing j).bind Standing.login? = some login) :
    (v.standing j).bind Standing.login? = some login ∨
      ∃ username password, k = some (j, .authRequest username password) ∧ v.standing j = some .stranger ∧
        login.user = username ∧ w.users = (v.users.authenticate digest username password).2 ∧
          (v.users.authenticate digest username password).1.isSuccess := by
  have hdrop {i : Nat} {x : Standing} (hx : x.login? = none)
      (h : (Function.update v.standing i (some x) j).bind Standing.login? = some login) :
      (v.standing j).bind Standing.login? = some login := by
    by_cases hj : j = i
    · rw [hj, Function.update_self, Option.bind_some, hx] at h
      cases h
    · rwa [Function.update_of_ne hj] at h
  have hmove {i : Nat} {x y : Standing} (hi : v.standing i = some x)
      (h : (Function.update v.standing i (some y) j).bind Standing.login? = some login) (hy : x.login? = y.login?) :
      (v.standing j).bind Standing.login? = some login := by
    by_cases hj : j = i
    · rw [hj, Function.update_self, Option.bind_some] at h
      rw [hj, hi, Option.bind_some, hy, h]
    · rwa [Function.update_of_ne hj] at h
  cases hs with
  | connected | strangerLeft | userLeft | refused | turnedAway | gaveUp | abandoned => exact .inl (hdrop rfl h)
  | applied hi => exact .inl (hmove hi h rfl)
  | entered _ hi => exact .inl (hmove hi h rfl)
  | @admitted i username password status users hi hsuccess hc =>
      by_cases hj : j = i
      · subst hj
        simp only [View.stand, Function.update_self, Option.bind_some, Standing.login?, Option.some.injEq] at h
        refine .inr ⟨username, password, rfl, hi, ?_, ?_, ?_⟩
        · rw [← h]
        · rw [hc]
          rfl
        · rwa [hc]
      · left
        rw [stand_standing, if_neg hj] at h
        exact h
  | _ => exact .inl h

variable (digest) in
/-- Each login was given to a request of its connection with the right password. -/
def Earned (moments : List (Moment δ σ)) (v : View δ σ) : Prop :=
  ∀ i login, (v.standing i).bind Standing.login? = some login →
    ∃ r ∈ received i moments, ∃ password c, r.message = .authRequest login.user password ∧ r.isLoggedIn = false ∧
      v.users.known[login.user]? = some c ∧ digest c.salt password = c.digest

omit [DecidableEq δ] [Database σ] in
theorem mem_received_snoc {i : Nat} {r : Receipt δ σ} (h : r ∈ received i moments) :
    r ∈ received i (moments ++ [(s, a)]) := by
  rw [received, receipts, List.filterMap_append, List.filter_append]
  exact List.mem_append_left _ h

theorem Earned.change (h : Earned digest moments s.view) (hk : s.taken? a = k) (hs : Change digest s.view k a w) :
    Earned digest (moments ++ [(s, a)]) w := by
  intro i login hl
  rcases hs.login?_eq hl with hl | ⟨username, password, rfl, hi, rfl, hu, hsuccess⟩
  · obtain ⟨r, hr, password, c, hm, hin, hc, hd⟩ := h i login hl
    exact ⟨r, mem_received_snoc hr, password, c, hm, hin, hs.known hc, hd⟩
  · obtain ⟨c, hc, hd⟩ := Users.known_of_isSuccess hsuccess
    refine ⟨⟨s, i, .authRequest login.user password⟩, ?_, password, c, rfl, Receipt.isLoggedIn_eq hi, ?_, hd⟩
    · rw [received_snoc_self hk]
      exact List.mem_append_right _ (List.mem_singleton_self _)
    · rw [hu]
      exact hc

theorem earned_run {t : Service δ σ} {steps : List Step}
    (h : (new maxFrame slots store).run digest steps = some (t, moments)) : Earned digest moments t.view := by
  refine run_induction (P := Earned digest) ?_ (fun _ _ _ _ _ _ _ hP hk hs => hP.change hk hs) h
  intro i login hl
  cases hl

end Earned

end Service

end AwaitStore.Server
