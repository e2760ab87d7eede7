import AwaitStore.Proofs.Server.Replies

namespace AwaitStore.Server.Service

open Wire (AuthStatus Message RequestId)

variable {δ σ : Type}

def Receipt.isLogin (r : Receipt δ σ) : Bool :=
  match r.message with
  | .authRequest .. => true
  | _ => false

theorem isLogin_request {s : Service δ σ} {i : Nat} {m : Message} {id : RequestId} {op : Operation}
    (h : Operation.ofRequest? m = some (id, op)) : Receipt.isLogin ⟨s, i, m⟩ = false := by
  cases m <;> cases h <;> rfl

section Answers

variable [DecidableEq δ] (digest : Nat → String → δ)

def AnswersLogin (r : Receipt δ σ) (status : AuthStatus) : Prop :=
  ∃ username password, r.message = .authRequest username password ∧
    if r.isLoggedIn then status = .existingLogin
    else
      let checked := (r.before.users.authenticate digest username password).1
      status = checked ∨ (checked.isSuccess ∧ status = .existingLogin)

def Admits (login : Login) (status : AuthStatus) (r : Receipt δ σ) : Prop :=
  r.isLoggedIn = false ∧ status.isSuccess ∧
    ∃ password, r.message = .authRequest login.user password ∧
      (r.before.users.authenticate digest login.user password).1 = status

/-- The logins that a connection has not been answered yet: that for which it waits, or in vain waited when it left. -/
def Outstanding (gaveUp : Prop) : Option Standing → List (Receipt δ σ) → Prop
  | some (.admitted login status), rest | some (.inLine login status), rest => ∃ r, rest = [r] ∧ Admits digest login status r
  | some .left, rest => rest = [] ∨ (rest.length = 1 ∧ gaveUp)
  | none, rest | some .stranger, rest | some (.loggedIn _), rest => rest = []

def InTurn (gaveUp : Prop) (x : Option Standing) (received : List (Receipt δ σ)) (sent : List Message) : Prop :=
  ∃ answered rest, received.filter Receipt.isLogin = answered ++ rest ∧
    List.Forall₂ (AnswersLogin digest) answered (statuses sent) ∧ Outstanding digest gaveUp x rest

end Answers

section InTurn

variable [DecidableEq δ] {digest : Nat → String → δ} {gaveUp : Prop} {x : Option Standing}
  {received : List (Receipt δ σ)} {sent : List Message} {r : Receipt δ σ} {status : AuthStatus} {login : Login}

theorem Admits.answers (h : Admits digest login status r) : AnswersLogin digest r status ∧
    AnswersLogin digest r .existingLogin := by
  obtain ⟨hin, hs, password, hm, hc⟩ := h
  constructor
  · refine ⟨login.user, password, hm, ?_⟩
    rw [hin]
    exact .inl hc.symm
  · refine ⟨login.user, password, hm, ?_⟩
    rw [hin]
    exact .inr ⟨hc ▸ hs, rfl⟩

namespace InTurn

theorem later {gaveUp' : Prop} (hg : gaveUp → gaveUp') (h : InTurn digest gaveUp x received sent) :
    InTurn digest gaveUp' x received sent := by
  obtain ⟨answered, rest, he, ha, ho⟩ := h
  refine ⟨answered, rest, he, ha, ?_⟩
  match x with
  | some .left => exact ho.imp_right fun hr => ⟨hr.1, hg hr.2⟩
  | some (.admitted ..) | some (.inLine ..) | none | some .stranger | some (.loggedIn _) => exact ho

theorem stand {y : Option Standing} (h : InTurn digest gaveUp x received sent)
    (hy : ∀ rest : List (Receipt δ σ), Outstanding digest gaveUp x rest → Outstanding digest gaveUp y rest) :
    InTurn digest gaveUp y received sent := by
  obtain ⟨answered, rest, he, ha, ho⟩ := h
  exact ⟨answered, rest, he, ha, hy rest ho⟩

theorem send (h : InTurn digest gaveUp x received sent) {m : Message} (hm : status? m = none) :
    InTurn digest gaveUp x received (sent ++ [m]) := by
  obtain ⟨answered, rest, he, ha, ho⟩ := h
  refine ⟨answered, rest, he, ?_, ho⟩
  rw [statuses, List.filterMap_append, List.filterMap_cons_none hm, List.filterMap_nil, List.append_nil]
  exact ha

theorem receive (h : InTurn digest gaveUp x received sent) (hr : r.isLogin = false) :
    InTurn digest gaveUp x (received ++ [r]) sent := by
  obtain ⟨answered, rest, he, ha, ho⟩ := h
  refine ⟨answered, rest, ?_, ha, ho⟩
  rw [List.filter_append, List.filter_cons_of_neg (by simp [hr]), List.filter_nil, List.append_nil]
  exact he

theorem answer (h : InTurn digest gaveUp x received sent) (hr : r.isLogin = true)
    (hx : ∀ rest : List (Receipt δ σ), Outstanding digest gaveUp x rest → rest = [])
    (ha : AnswersLogin digest r status) :
    InTurn digest gaveUp x (received ++ [r]) (sent ++ [.authResponse status]) := by
  obtain ⟨answered, rest, he, hall, ho⟩ := h
  obtain rfl := hx rest ho
  refine ⟨answered ++ [r], [], ?_, ?_, ho⟩
  · rw [List.filter_append, he, List.filter_cons_of_pos hr, List.filter_nil, List.append_nil, List.append_nil]
  · rw [statuses, List.filterMap_append]
    exact List.rel_append hall (.cons ha .nil)

theorem pass (h : InTurn digest gaveUp x received sent) (hr : r.isLogin = true)
    (hx : ∀ rest : List (Receipt δ σ), Outstanding digest gaveUp x rest → rest = [])
    (ha : Admits digest login status r) :
    InTurn digest gaveUp (some (.admitted login status)) (received ++ [r]) sent := by
  obtain ⟨answered, rest, he, hall, ho⟩ := h
  obtain rfl := hx rest ho
  refine ⟨answered, [r], ?_, hall, r, rfl, ha⟩
  rw [List.filter_append, he, List.filter_cons_of_pos hr, List.filter_nil, List.append_nil]

theorem conclude {y : Standing} {told : AuthStatus} (h : InTurn digest gaveUp x received sent)
    (hx : x = some (.admitted login status) ∨ x = some (.inLine login status))
    (hy : ∀ rest : List (Receipt δ σ), rest = [] → Outstanding digest gaveUp (some y) rest)
    (ht : told = status ∨ told = .existingLogin) :
    InTurn digest gaveUp (some y) received (sent ++ [.authResponse told]) := by
  obtain ⟨answered, rest, he, hall, ho⟩ := h
  obtain ⟨r, rfl, ha⟩ : ∃ r, rest = [r] ∧ Admits digest login status r := by
    rcases hx with rfl | rfl
    · exact ho
    · exact ho
  refine ⟨answered ++ [r], [], ?_, ?_, hy [] rfl⟩
  · rw [he, List.append_nil]
  · rw [statuses, List.filterMap_append]
    refine List.rel_append hall (.cons ?_ .nil)
    rcases ht with rfl | rfl
    · exact ha.answers.1
    · exact ha.answers.2

end InTurn

end InTurn

section Change

variable [DecidableEq δ] {digest : Nat → String → δ} {maxFrame slots : Nat} {store : σ}
  {moments : List (Moment δ σ)} {s : Service δ σ} {w : View δ σ} {a : Step}

def GaveUp (i : Nat) (moments : List (Moment δ σ)) : Prop := ∃ s, (s, Step.abandon i) ∈ moments

variable (digest) in
def LoginsInTurn (moments : List (Moment δ σ)) (v : View δ σ) : Prop :=
  ∀ i, InTurn digest (GaveUp i moments) (v.standing i) (received i moments) (v.sent i)

theorem loginsInTurn_new : LoginsInTurn digest [] (new maxFrame slots store : Service δ σ).view :=
  fun _ => ⟨[], [], rfl, .nil, rfl⟩

theorem LoginsInTurn.place {i : Nat} {y : Option Standing} {sent : List Message} (h : LoginsInTurn digest moments s.view)
    (hw : w.standing = Function.update s.standing i y) (ho : w.sent = Function.update s.sent i sent)
    (hk : ∀ j, j ≠ i → received j (moments ++ [(s, a)]) = received j moments)
    (hi : InTurn digest (GaveUp i (moments ++ [(s, a)])) (s.standing i) (received i moments) (s.sent i) →
      InTurn digest (GaveUp i (moments ++ [(s, a)])) y (received i (moments ++ [(s, a)])) sent) :
    LoginsInTurn digest (moments ++ [(s, a)]) w := by
  have hlater (j : Nat) : InTurn digest (GaveUp j (moments ++ [(s, a)])) (s.standing j) (received j moments) (s.sent j) :=
    (h j).later fun ⟨u, hu⟩ => ⟨u, List.mem_append_left _ hu⟩
  intro j
  rw [hw, ho]
  by_cases hj : j = i
  · subst hj
    rw [Function.update_self, Function.update_self]
    exact hi (hlater j)
  · rw [Function.update_of_ne hj, Function.update_of_ne hj, hk j hj]
    exact hlater j

theorem LoginsInTurn.keep (h : LoginsInTurn digest moments s.view) (hk : s.taken? a = none)
    (hw : w.standing = s.standing) (ho : w.sent = s.sent) : LoginsInTurn digest (moments ++ [(s, a)]) w := by
  intro i
  rw [hw, ho, received_snoc_none hk]
  exact (h i).later fun ⟨u, hu⟩ => ⟨u, List.mem_append_left _ hu⟩

theorem LoginsInTurn.move {i : Nat} {x : Option Standing} {y : Standing} (h : LoginsInTurn digest moments s.view)
    (hk : s.taken? a = none) (hx : s.standing i = x)
    (hw : w.standing = Function.update s.standing i (some y)) (ho : w.sent = s.sent)
    (hy : ∀ rest : List (Receipt δ σ), Outstanding digest (GaveUp i (moments ++ [(s, a)])) x rest →
      Outstanding digest (GaveUp i (moments ++ [(s, a)])) (some y) rest) :
    LoginsInTurn digest (moments ++ [(s, a)]) w := by
  subst hx
  refine h.place hw (ho.trans (Function.update_eq_self i s.sent).symm) (fun j _ => received_snoc_none hk) fun hi => ?_
  rw [received_snoc_none hk]
  exact hi.stand hy

theorem LoginsInTurn.hear {i : Nat} {m : Message} {sent : List Message} (h : LoginsInTurn digest moments s.view)
    (hk : s.taken? a = some (i, m)) (hw : w.standing = s.standing) (ho : w.sent = Function.update s.sent i sent)
    (hi : InTurn digest (GaveUp i (moments ++ [(s, a)])) (s.standing i) (received i moments) (s.sent i) →
      InTurn digest (GaveUp i (moments ++ [(s, a)])) (s.standing i) (received i moments ++ [⟨s, i, m⟩]) sent) :
    LoginsInTurn digest (moments ++ [(s, a)]) w := by
  refine h.place (hw.trans (Function.update_eq_self i s.standing).symm) ho
    (fun j hj => received_snoc_of_ne hk (Ne.symm hj)) fun h => ?_
  rw [received_snoc_self hk]
  exact hi h

theorem LoginsInTurn.conclude {i : Nat} {y : Standing} {login : Login} {status told : AuthStatus}
    (h : LoginsInTurn digest moments s.view) (hk : s.taken? a = none)
    (hw : w.standing = Function.update s.standing i (some y))
    (ho : w.sent = Function.update s.sent i (s.sent i ++ [.authResponse told]))
    (hx : s.standing i = some (.admitted login status) ∨ s.standing i = some (.inLine login status))
    (hy : y = .stranger ∨ y = .loggedIn login) (ht : told = status ∨ told = .existingLogin) :
    LoginsInTurn digest (moments ++ [(s, a)]) w := by
  refine h.place hw ho (fun j _ => received_snoc_none hk) fun hi => ?_
  rw [received_snoc_none hk]
  refine hi.conclude hx ?_ ht
  rcases hy with rfl | rfl
  · exact fun _ hr => hr
  · exact fun _ hr => hr

end Change

section Run

variable [DecidableEq δ] [Database σ] {digest : Nat → String → δ} {maxFrame slots : Nat} {store : σ}
  {moments : List (Moment δ σ)} {s : Service δ σ} {w : View δ σ} {a : Step} {k : Option (Nat × Message)}

theorem LoginsInTurn.change (h : LoginsInTurn digest moments s.view) (hk : s.taken? a = k)
    (hs : Change digest s.view k a w) : LoginsInTurn digest (moments ++ [(s, a)]) w := by
  cases hs with
  | arrived | hungUp | joined | released | unheld | worked | asked | strained | shutDown => exact h.keep hk rfl rfl
  | wrote moved => exact h.keep hk rfl (View.sent_wrote moved)
  | connected hi => exact h.move hk hi rfl rfl fun _ hr => hr
  | applied hi => exact h.move hk hi rfl rfl fun _ hr => hr
  | strangerLeft hi => exact h.move hk hi rfl rfl fun _ hr => .inl hr
  | userLeft hi => exact h.move hk hi rfl rfl fun _ hr => .inl hr
  | gaveUp hi | abandoned hi =>
      refine h.move hk hi rfl rfl fun rest hr => ?_
      obtain ⟨r, rfl, -⟩ := hr
      exact .inr ⟨rfl, s, List.mem_append_right _ (List.mem_singleton_self _)⟩
  | refused hi => exact h.conclude hk rfl (View.sent_send _ _ _) (.inl hi) (.inl rfl) (.inr rfl)
  | entered _ hi => exact h.conclude hk rfl (View.sent_send _ _ _) (.inr hi) (.inr rfl) (.inl rfl)
  | turnedAway _ hi => exact h.conclude hk rfl (View.sent_send _ _ _) (.inr hi) (.inl rfl) (.inr rfl)
  | @ignored i m _ _ _ hreply =>
      refine h.hear hk rfl (Function.update_eq_self i s.sent).symm fun ht => ht.receive ?_
      cases m with
      | authRequest username password => exact absurd rfl (hreply.2 username password)
      | _ => rfl
  | @dispatched i m id op _ _ hi hm =>
      exact h.hear hk rfl (Function.update_eq_self i s.sent).symm fun ht => ht.receive (isLogin_request hm)
  | unauthenticated hi hm => exact h.hear hk rfl (View.sent_send _ _ _) fun ht => (ht.receive (isLogin_request hm)).send rfl
  | shutOut hi hm => exact h.hear hk rfl (View.sent_send _ _ _) fun ht => (ht.receive (isLogin_request hm)).send rfl
  | @loggedInTwice i username password login hi =>
      refine h.hear hk rfl (View.sent_send _ _ _) fun ht => ht.answer rfl ?_ ⟨username, password, rfl, ?_⟩
      · rw [show s.standing i = _ from hi]
        exact fun _ hr => hr
      · rw [Receipt.isLoggedIn_eq hi]
        rfl
  | @wrongPassword i username password hi hc =>
      refine h.hear hk rfl (View.sent_send _ _ _) fun ht => ht.answer rfl ?_ ⟨username, password, rfl, ?_⟩
      · rw [show s.standing i = _ from hi]
        exact fun _ hr => hr
      · rw [Receipt.isLoggedIn_eq hi]
        exact .inl (congrArg Prod.fst hc).symm
  | @admitted i username password status users hi hsuccess hc =>
      refine h.place rfl (Function.update_eq_self i s.sent).symm (fun j hj => received_snoc_of_ne hk (Ne.symm hj))
        fun ht => ?_
      rw [received_snoc_self hk]
      refine ht.pass rfl ?_ ⟨Receipt.isLoggedIn_eq hi, hsuccess, password, rfl, congrArg Prod.fst hc⟩
      rw [show s.standing i = _ from hi]
      exact fun _ hr => hr
  | @replied task =>
      refine h.place (Function.update_eq_self task.connection s.standing).symm (View.sent_send _ _ _) (fun j _ => received_snoc_none hk)
        fun ht => ?_
      rw [received_snoc_none hk]
      exact ht.send (status?_reply _ _)

theorem loginsInTurn_run {t : Service δ σ} {steps : List Step}
    (h : (new maxFrame slots store).run digest steps = some (t, moments)) : LoginsInTurn digest moments t.view :=
  run_induction (P := LoginsInTurn digest) loginsInTurn_new (fun _ _ _ _ _ _ _ hP hk hs => hP.change hk hs) h

end Run

end AwaitStore.Server.Service
