import AwaitStore.Proofs.Server.Credentials

namespace AwaitStore.Server.Service

open Wire (AuthStatus Message)

variable {δ σ : Type} [DecidableEq δ] [Database σ] {digest : Nat → String → δ} {maxFrame slots : Nat} {store : σ}
  {moments : List (Moment δ σ)} {s t : Service δ σ} {v w : View δ σ} {a : Step} {k : Option (Nat × Message)}
  {i : Nat} {login : Login} {status : AuthStatus}

omit [DecidableEq δ] [Database σ] in
theorem update_elsewhere {j : Nat} {x : Standing} {o y : Option Standing} (hi : v.standing i = some x)
    (hj : v.standing j = o) (ho : o ≠ some x) : Function.update v.standing j y i = some x := by
  have hij : i ≠ j := by
    rintro rfl
    exact ho (hj.symm.trans hi)
  rw [Function.update_of_ne hij, hi]

theorem Change.closed (hs : Change digest v k a w) (hv : v.standing i = some (.loggedIn login)) :
    w.standing i = some (.loggedIn login) ∨ (a = .read i ∧ k = none ∧ w.standing i = some .left) := by
  cases hs with
  | @userLeft j =>
      by_cases hj : i = j
      · subst hj
        exact .inr ⟨rfl, rfl, Function.update_self _ _ _⟩
      · exact .inl ((Function.update_of_ne hj _ _).trans hv)
  | connected hi | strangerLeft hi | admitted hi | refused hi | applied hi | entered _ hi | turnedAway _ hi | gaveUp hi
  | abandoned hi => exact .inl (update_elsewhere hv hi (by simp))
  | _ => exact .inl hv

theorem Change.left (hs : Change digest v k a w) (hv : v.standing i = some .left) : w.standing i = some .left := by
  cases hs with
  | connected hi | strangerLeft hi | userLeft hi | admitted hi | refused hi | applied hi | entered _ hi
  | turnedAway _ hi | gaveUp hi | abandoned hi => exact update_elsewhere hv hi (by simp)
  | _ => exact hv

theorem Change.store_eq (hs : Change digest v k a w) (ha : ∀ job, a ≠ .ask job) : w.store = v.store := by
  cases hs with
  | asked => exact absurd rfl (ha _)
  | _ => rfl

omit [DecidableEq δ] [Database σ] in
theorem send_at {j : Nat} {m m' : Message} (hw : w.outlet = v.outlet) (h : (w.send j m).sent i = v.sent i ++ [m']) :
    i = j ∧ m = m' := by
  have hsame : w.sent = v.sent := by
    funext j
    rw [View.sent, hw, View.sent]
  rw [View.sent_send, hsame] at h
  by_cases hj : i = j
  · subst hj
    rw [Function.update_self, List.append_cancel_left_eq, List.singleton_inj] at h
    exact ⟨rfl, h⟩
  · rw [Function.update_of_ne hj, List.self_eq_append_right] at h
    cases h

/-- A login ends in one of three ways: it fails at once, or it is refused because its user has a session, or it is let
in. -/
theorem Change.told (hs : Change digest v k a w) (ho : w.sent i = v.sent i ++ [.authResponse status]) :
    (∃ username password, k = some (i, .authRequest username password) ∧
        (v.standing i = some .stranger ∨ ∃ login, v.standing i = some (.loggedIn login)) ∧ status.isSuccess = false ∧
        w.users = v.users ∧ w.sessions = v.sessions ∧ w.standing = v.standing) ∨
      (∃ login own, (v.standing i = some (.admitted login own) ∨ v.standing i = some (.inLine login own)) ∧
        status = .existingLogin ∧ k = none ∧ w.users = v.users ∧ w.sessions.opened = v.sessions.opened ∧
        w.sessions.active = v.sessions.active ∧ w.standing = Function.update v.standing i (some .stranger)) ∨
      ∃ login, v.standing i = some (.inLine login status) ∧ k = none ∧ w.users = v.users ∧
        w.standing = Function.update v.standing i (some (.loggedIn login)) := by
  cases hs with
  | loggedInTwice hi =>
      obtain ⟨rfl, hm⟩ := send_at rfl ho
      cases hm
      exact .inl ⟨_, _, rfl, .inr ⟨_, hi⟩, rfl, rfl, rfl, rfl⟩
  | wrongPassword hi =>
      obtain ⟨rfl, hm⟩ := send_at rfl ho
      cases hm
      exact .inl ⟨_, _, rfl, .inl hi, rfl, rfl, rfl, rfl⟩
  | refused hi =>
      obtain ⟨rfl, hm⟩ := send_at rfl ho
      cases hm
      exact .inr (.inl ⟨_, _, .inl hi, rfl, rfl, rfl, rfl, rfl, rfl⟩)
  | turnedAway hm hi =>
      obtain ⟨rfl, he⟩ := send_at rfl ho
      cases he
      obtain ⟨-, hopened, hactive⟩ := Sessions.pending_enter hm
      exact .inr (.inl ⟨_, _, .inr hi, rfl, rfl, rfl, hopened, hactive rfl, rfl⟩)
  | entered hm hi =>
      obtain ⟨rfl, he⟩ := send_at rfl ho
      cases he
      exact .inr (.inr ⟨_, hi, rfl, rfl, rfl⟩)
  | unauthenticated | shutOut =>
      obtain ⟨-, hm⟩ := send_at rfl ho
      cases hm
  | @replied task outcome =>
      obtain ⟨-, hm⟩ := send_at rfl ho
      have hnone := status?_reply task.id outcome
      rw [hm] at hnone
      cases hnone
  | wrote moved =>
      rw [View.sent_wrote moved] at ho
      exact absurd (List.self_eq_append_right.mp ho) (List.cons_ne_nil _ _)
  | _ => exact absurd (List.self_eq_append_right.mp ho) (List.cons_ne_nil _ _)

theorem Change.opened (hs : Change digest v k a w) (hw : w.standing i = some (.loggedIn login))
    (hv : v.standing i ≠ some (.loggedIn login)) :
    ∃ status, v.standing i = some (.inLine login status) ∧ w.sent i = v.sent i ++ [.authResponse status] := by
  have hother {j : Nat} {x : Standing} (hx : ∀ login, x ≠ .loggedIn login)
      (hw : Function.update v.standing j (some x) i = some (.loggedIn login)) : False := by
    by_cases hj : i = j
    · rw [hj, Function.update_self] at hw
      exact hx login (Option.some.inj hw)
    · rw [Function.update_of_ne hj] at hw
      exact hv hw
  cases hs with
  | @entered n j sessions own status hm hi =>
      by_cases hj : i = j
      · subst hj
        simp only [View.send, View.pour, View.stand, Function.update_self, Option.some.injEq, Standing.loggedIn.injEq] at hw
        subst hw
        refine ⟨status, hi, ?_⟩
        rw [View.sent_send, Function.update_self]
        rfl
      · refine absurd ?_ hv
        rw [← hw]
        exact (Function.update_of_ne hj _ _).symm
  | connected | strangerLeft | userLeft | admitted | refused | applied | turnedAway | gaveUp | abandoned =>
      exact (hother (by simp) hw).elim
  | _ => exact absurd hw hv

theorem Change.abandoned_eq (hs : Change digest v k (.abandon i) w) :
    w.users = v.users ∧ w.sessions.opened = v.sessions.opened ∧ w.sessions.active = v.sessions.active ∧
      (∀ login, v.standing i ≠ some (.loggedIn login)) ∧ w.standing = Function.update v.standing i (some .left) := by
  cases hs with
  | gaveUp hi => exact ⟨rfl, rfl, rfl, by simp [hi], rfl⟩
  | abandoned hi hm =>
      obtain ⟨-, -, -, hopened, hactive⟩ := Sessions.pending_abandon hm
      exact ⟨rfl, hopened, hactive, by simp [hi], rfl⟩

omit [DecidableEq δ] [Database σ] in
theorem logins_append (i : Nat) (early late : List (Moment δ σ)) :
    ((received i (early ++ late)).filter Receipt.isLogin) =
      (received i early).filter Receipt.isLogin ++ (received i late).filter Receipt.isLogin := by
  simp only [received, receipts, List.filterMap_append, List.filter_append]

omit [Database σ] in
/-- The login that a connection is about to be answered is the next one of those that it has received. -/
theorem LoginsInTurn.next (h : LoginsInTurn digest moments s.view)
    (hi : s.standing i = some (.admitted login status) ∨ s.standing i = some (.inLine login status)) :
    status.isSuccess ∧ ∃ r password, ((received i moments).filter Receipt.isLogin)[(statuses (s.sent i)).length]? = some r ∧
      r.message = .authRequest login.user password := by
  obtain ⟨answered, rest, he, ha, ho⟩ := h i
  obtain ⟨r, rfl, -, hsuccess, password, hm, -⟩ : ∃ r, rest = [r] ∧ Admits digest login status r := by
    rcases hi with hi | hi
    · rw [show s.view.standing i = _ from hi] at ho
      exact ho
    · rw [show s.view.standing i = _ from hi] at ho
      exact ho
  refine ⟨hsuccess, r, password, ?_, hm⟩
  rw [show (statuses (s.sent i)).length = answered.length from ha.length_eq.symm, he]
  exact List.getElem?_concat_length

omit [Database σ] in
theorem LoginsInTurn.all (h : LoginsInTurn digest moments s.view)
    (hi : s.standing i = some .stranger ∨ ∃ login, s.standing i = some (.loggedIn login)) :
    ((received i moments).filter Receipt.isLogin).length = (statuses (s.sent i)).length := by
  obtain ⟨answered, rest, he, ha, ho⟩ := h i
  obtain rfl : rest = [] := by
    rcases hi with hi | ⟨login, hi⟩
    · rw [show s.view.standing i = _ from hi] at ho
      exact ho
    · rw [show s.view.standing i = _ from hi] at ho
      exact ho
  rw [he, List.append_nil, ha.length_eq]
  rfl

theorem Change.task_cases (hs : Change digest v k a w) {task : Task} (ht : task ∈ w.tasks) :
    (∃ old ∈ v.tasks, old.accept = task.accept) ∨
      ∃ m id op login, k = some (task.connection, m) ∧ v.standing task.connection = some (.loggedIn login) ∧
        Operation.ofRequest? m = some (id, op) ∧ v.pool.refusal? v.strain = none ∧
        task = ⟨v.accepted, task.connection, id, op, .accepted⟩ := by
  cases hs with
  | dispatched hi hm ha =>
      rcases List.mem_append.mp ht with ht | ht
      · exact .inl ⟨task, ht, rfl⟩
      · cases List.mem_singleton.mp ht
        exact .inr ⟨_, _, _, _, rfl, hi, hm, ha, rfl⟩
  | asked =>
      obtain ⟨old, hold, rfl⟩ := List.mem_map.mp ht
      exact .inl ⟨old, hold, (old.accept_learn _ _).symm⟩
  | replied => exact .inl ⟨task, (List.mem_filter.mp ht).1, rfl⟩
  | _ => exact .inl ⟨task, ht, rfl⟩

/-- Each task was taken from a connection with a session, which it has still, or its client has left since. -/
def Sponsored (moments : List (Moment δ σ)) (v : View δ σ) : Prop :=
  ∀ task ∈ v.tasks, ∃ r ∈ received task.connection moments, ∃ login, r.task? = some task.accept ∧
    r.before.standing task.connection = some (.loggedIn login) ∧
    (v.standing task.connection = some (.loggedIn login) ∨ v.standing task.connection = some .left)

theorem Sponsored.change (h : Sponsored moments s.view) (hk : s.taken? a = k) (hs : Change digest s.view k a w) :
    Sponsored (moments ++ [(s, a)]) w := by
  intro task ht
  rcases hs.task_cases ht with ⟨old, hold, he⟩ | ⟨m, id, op, login, rfl, hi, hm, ha, he⟩
  · have hconnection : old.accept.connection = task.accept.connection := congrArg Task.connection he
    replace hconnection : old.connection = task.connection := hconnection
    obtain ⟨r, hr, login, htask, hin, hnow⟩ := h old hold
    rw [hconnection] at hr hin hnow
    refine ⟨r, mem_received_snoc hr, login, he ▸ htask, hin, ?_⟩
    rcases hnow with hnow | hnow
    · exact (hs.closed hnow).imp_right fun hleft => hleft.2.2
    · exact .inr (hs.left hnow)
  · refine ⟨⟨s, task.connection, m⟩, ?_, login, ?_, hi, ?_⟩
    · rw [received_snoc_self hk]
      exact List.mem_append_right _ (List.mem_singleton_self _)
    · rw [Receipt.task?_of_loggedIn hi hm ha, he]
      rfl
    · exact (hs.closed hi).imp_right fun hleft => hleft.2.2

theorem sponsored_run {steps : List Step} (h : (new maxFrame slots store).run digest steps = some (t, moments)) :
    Sponsored moments t.view := by
  refine run_induction (P := Sponsored) ?_ (fun _ _ _ _ _ _ _ hP hk hs => hP.change hk hs) h
  intro task ht
  cases ht

variable (digest) in
/-- What the gate guarantees after a run and at each of its steps. -/
structure Gated (moments : List (Moment δ σ)) (t : Service δ σ) : Prop where
  /-- The store is asked only for a request that its connection sent while it had an open session. The connection has
  that session still, or its client has left: what has been taken by then is carried out all the same. -/
  executed : ∀ s job, (s, Step.ask job) ∈ moments →
    ∃ task login, s.tasks.find? (fun t => t.job == job) = some task ∧
      (∃ r ∈ received task.connection moments, r.task? = some task.accept ∧
        r.before.standing task.connection = some (.loggedIn login) ∧ login ∈ r.before.sessions.opened) ∧
      (s.standing task.connection = some (.loggedIn login) ∨ s.standing task.connection = some .left)
  store_kept : ∀ s a u, Happened digest moments s a u → (∀ job, a ≠ .ask job) → u.store = s.store
  /-- The registry knows who has been seen, each with a digest of the password given the first time. -/
  registered : ∀ user, (firstPassword? user moments = none ∧ t.users.known[user]? = none) ∨
    ∃ first salt, firstPassword? user moments = some first ∧
      t.users.known[user]? = some ⟨salt, digest salt first⟩
  credentials_kept : ∀ s a u, Happened digest moments s a u →
    ∀ (user : String) (c : Credentials δ), s.users.known[user]? = some c → u.users.known[user]? = some c
  registration : ∀ s a u, Happened digest moments s a u → u.users ≠ s.users →
    ∃ i username password, s.taken? a = some (i, .authRequest username password) ∧
      s.standing i = some .stranger ∧ s.users.known[username]? = none
  /-- A session was got by a request with a password of the same digest as the first one. -/
  earned : ∀ i login, t.standing i = some (.loggedIn login) →
    ∃ r ∈ received i moments, ∃ password first salt, r.message = .authRequest login.user password ∧
      r.isLoggedIn = false ∧ firstPassword? login.user moments = some first ∧
      t.users.known[login.user]? = some ⟨salt, digest salt first⟩ ∧ digest salt password = digest salt first
  /-- The status that answers a login, the next one of those received, is a success exactly if the session of its user
  is opened with it. -/
  told : ∀ s a u i status, Happened digest moments s a u →
    u.sent i = s.sent i ++ [.authResponse status] →
      ∃ r username password, ((received i moments).filter Receipt.isLogin)[(statuses (s.sent i)).length]? = some r ∧
        r.message = .authRequest username password ∧
        (status.isSuccess ↔ ∃ login, login.user = username ∧ s.standing i ≠ some (.loggedIn login) ∧
          u.standing i = some (.loggedIn login))
  /-- No session is opened without such an answer. -/
  opened : ∀ s a u i login, Happened digest moments s a u → u.standing i = some (.loggedIn login) →
    s.standing i ≠ some (.loggedIn login) →
      ∃ status, status.isSuccess ∧ u.sent i = s.sent i ++ [.authResponse status]
  /-- A session ends only with its own connection. -/
  closed : ∀ s a u i login, Happened digest moments s a u → s.standing i = some (.loggedIn login) →
    u.standing i ≠ some (.loggedIn login) → a = .read i ∧ s.taken? a = none ∧ u.standing i = some .left
  sessions : ∀ login, login ∈ t.sessions.opened ↔ ∃ i, t.standing i = some (.loggedIn login)
  apart : ∀ i j first second, t.standing i = some (.loggedIn first) → t.standing j = some (.loggedIn second) →
    first.user = second.user → i = j
  /-- A login that fails, whether by its password, because its user or its connection has a session, or because its
  client leaves, changes neither the credentials nor anybody's session. -/
  failed : ∀ s a u, Happened digest moments s a u →
    (∃ i, a = .abandon i ∨ ∃ status, u.sent i = s.sent i ++ [.authResponse status] ∧ status.isSuccess = false) →
      u.users = s.users ∧ u.sessions.opened = s.sessions.opened ∧ u.sessions.active = s.sessions.active ∧
        ∀ j login, u.standing j = some (.loggedIn login) ↔ s.standing j = some (.loggedIn login)

section Run

variable {steps : List Step} {u : Service δ σ}

theorem executed_of_mem (h : (new maxFrame slots store).run digest steps = some (t, moments)) {job : Job}
    (hm : (s, Step.ask job) ∈ moments) :
    ∃ task login, s.tasks.find? (fun t => t.job == job) = some task ∧
      (∃ r ∈ received task.connection moments, r.task? = some task.accept ∧
        r.before.standing task.connection = some (.loggedIn login) ∧ login ∈ r.before.sessions.opened) ∧
      (s.standing task.connection = some (.loggedIn login) ∨ s.standing task.connection = some .left) := by
  obtain ⟨_, early, late, u, hr, hs, rfl⟩ := run_of_mem h hm
  obtain ⟨task, hf⟩ : ∃ task, s.tasks.find? (fun t => t.job == job) = some task := by
    cases hf : s.tasks.find? fun t => t.job == job with
    | none => simp [step, ask, hf] at hs
    | some task => exact ⟨task, rfl⟩
  obtain ⟨r, hreceived, login, htask, hin, hnow⟩ := sponsored_run hr task (List.mem_of_find?_eq_some hf)
  refine ⟨task, login, hf, ⟨r, ?_, htask, hin, ?_⟩, hnow⟩
  · rw [mem_received, receipts, List.filterMap_append]
    exact ⟨List.mem_append_left _ (mem_received.mp hreceived).1, (mem_received.mp hreceived).2⟩
  · obtain ⟨a, hbefore, -⟩ := mem_receipts.mp (mem_received.mp hreceived).1
    obtain ⟨_, _, _, _, hr', -, -⟩ := run_of_mem hr hbefore
    exact ((enrolled_run hr').mem_opened login).mpr ⟨_, hin⟩

theorem registration_of_change (hs : Change digest s.view (s.taken? a) a u.view) (hu : u.users ≠ s.users) :
    ∃ i username password, s.taken? a = some (i, .authRequest username password) ∧
      s.standing i = some .stranger ∧ s.users.known[username]? = none := by
  rcases hs.users_eq with he | ⟨i, username, password, hk, hi, he⟩
  · exact absurd he hu
  · refine ⟨i, username, password, hk, hi, ?_⟩
    rcases s.users.authenticate_eq digest username password with ⟨_, -, -, ha⟩ | ⟨_, -, -, ha⟩ | ⟨hnone, -⟩
    · exact absurd (he.trans (congrArg Prod.snd ha)) hu
    · exact absurd (he.trans (congrArg Prod.snd ha)) hu
    · exact hnone

omit [DecidableEq δ] [Database σ] in
theorem first_of_earned (hr : Registered digest moments t.view) (he : Earned digest moments t.view)
    (hi : t.standing i = some (.loggedIn login)) :
    ∃ r ∈ received i moments, ∃ password first salt, r.message = .authRequest login.user password ∧
      r.isLoggedIn = false ∧ firstPassword? login.user moments = some first ∧
      t.users.known[login.user]? = some ⟨salt, digest salt first⟩ ∧ digest salt password = digest salt first := by
  obtain ⟨r, hreceived, password, c, hm, hin, hc, hd⟩ := he i login (by rw [show t.view.standing i = _ from hi]; rfl)
  rcases hr login.user with ⟨-, hnone⟩ | ⟨first, salt, hf, hk⟩
  · rw [hc] at hnone
    cases hnone
  · obtain rfl := Option.some.inj (hc.symm.trans hk)
    exact ⟨r, hreceived, password, first, salt, hm, hin, hf, hk, hd⟩

theorem told_of_mem (h : (new maxFrame slots store).run digest steps = some (t, moments))
    (hs : Happened digest moments s a u) (ho : u.sent i = s.sent i ++ [.authResponse status]) :
    ∃ r username password, ((received i moments).filter Receipt.isLogin)[(statuses (s.sent i)).length]? = some r ∧
      r.message = .authRequest username password ∧
      (status.isSuccess ↔ ∃ login, login.user = username ∧ s.standing i ≠ some (.loggedIn login) ∧
        u.standing i = some (.loggedIn login)) := by
  obtain ⟨_, early, late, _, hr, -, rfl⟩ := run_of_mem h hs.1
  have hturn := loginsInTurn_run hr
  have hlogins : (received i (early ++ (s, a) :: late)).filter Receipt.isLogin =
      (received i (early ++ [(s, a)])).filter Receipt.isLogin ++ (received i late).filter Receipt.isLogin := by
    rw [← logins_append, List.append_assoc, List.singleton_append]
  have hwaiting {login : Login} {own : AuthStatus} (hk : s.taken? a = none)
      (hi : s.standing i = some (.admitted login own) ∨ s.standing i = some (.inLine login own)) :
      ∃ r password, ((received i (early ++ (s, a) :: late)).filter Receipt.isLogin)[(statuses (s.sent i)).length]? =
        some r ∧ r.message = .authRequest login.user password := by
    obtain ⟨-, r, password, hget, hm⟩ := hturn.next hi
    refine ⟨r, password, ?_, hm⟩
    rw [hlogins, received_snoc_none hk, List.getElem?_append_left (List.getElem?_eq_some_iff.mp hget).1]
    exact hget
  rcases (change_of_step (connected_run hr) hs.2).told ho with
    ⟨username, password, hk, hi, hfail, -, -, hstand⟩ | ⟨login, own, hi, rfl, hk, -, -, -, hstand⟩ |
      ⟨login, hi, hk, -, hstand⟩
  · have hall := hturn.all hi
    refine ⟨⟨s, i, .authRequest username password⟩, username, password, ?_, rfl, ?_⟩
    · have hnew : [(⟨s, i, .authRequest username password⟩ : Receipt δ σ)].filter Receipt.isLogin =
          [⟨s, i, .authRequest username password⟩] := rfl
      rw [hlogins, received_snoc_self hk, List.filter_append, hnew, ← hall]
      simp
    · rw [hfail]
      refine iff_of_false Bool.false_ne_true ?_
      rintro ⟨login, -, hbefore, hafter⟩
      rw [← show u.view.standing i = u.standing i from rfl, hstand] at hafter
      exact hbefore hafter
  · obtain ⟨r, password, hget, hm⟩ := hwaiting hk hi
    refine ⟨r, _, password, hget, hm, iff_of_false Bool.false_ne_true ?_⟩
    rintro ⟨other, -, -, hafter⟩
    rw [← show u.view.standing i = u.standing i from rfl, hstand, Function.update_self] at hafter
    cases hafter
  · obtain ⟨r, password, hget, hm⟩ := hwaiting hk (.inr hi)
    refine ⟨r, _, password, hget, hm, iff_of_true (hturn.next (.inr hi)).1 ⟨login, rfl, ?_, ?_⟩⟩
    · rw [show s.standing i = _ from hi]
      simp
    · rw [← show u.view.standing i = u.standing i from rfl, hstand, Function.update_self]

theorem failed_of_mem (h : (new maxFrame slots store).run digest steps = some (t, moments))
    (hs : Happened digest moments s a u)
    (hf : ∃ i, a = .abandon i ∨ ∃ status, u.sent i = s.sent i ++ [.authResponse status] ∧ status.isSuccess = false) :
    u.users = s.users ∧ u.sessions.opened = s.sessions.opened ∧ u.sessions.active = s.sessions.active ∧
      ∀ j login, u.standing j = some (.loggedIn login) ↔ s.standing j = some (.loggedIn login) := by
  obtain ⟨_, early, _, _, hr, -, -⟩ := run_of_mem h hs.1
  have hc := change_of_step (connected_run hr) hs.2
  have hplace {i : Nat} {y : Standing} (hi : ∀ login, s.standing i ≠ some (.loggedIn login))
      (hy : ∀ login, y ≠ .loggedIn login) (hstand : u.view.standing = Function.update s.view.standing i (some y))
      (j : Nat) (login : Login) :
      u.standing j = some (.loggedIn login) ↔ s.standing j = some (.loggedIn login) := by
    rw [← show u.view.standing j = u.standing j from rfl, hstand]
    by_cases hj : j = i
    · rw [hj, Function.update_self]
      exact iff_of_false (fun he => hy login (Option.some.inj he)) (hi login)
    · rw [Function.update_of_ne hj]
      rfl
  obtain ⟨i, rfl | ⟨status, ho, hfail⟩⟩ := hf
  · obtain ⟨hu, hopened, hactive, hi, hstand⟩ := hc.abandoned_eq
    exact ⟨hu, hopened, hactive, hplace hi (by simp) hstand⟩
  · rcases hc.told ho with ⟨_, _, -, -, -, hu, hsessions, hstand⟩ | ⟨login, own, hi, -, -, hu, hopened, hactive, hstand⟩ |
      ⟨login, hi, -⟩
    · refine ⟨hu, congrArg Sessions.opened hsessions, congrArg Sessions.active hsessions, fun j login => ?_⟩
      rw [← show u.view.standing j = u.standing j from rfl, hstand]
      rfl
    · refine ⟨hu, hopened, hactive, hplace ?_ (by simp) hstand⟩
      intro other
      rcases hi with hi | hi
      · rw [show s.standing i = _ from hi]
        simp
      · rw [show s.standing i = _ from hi]
        simp
    · rw [((loginsInTurn_run hr).next (.inr hi)).1] at hfail
      cases hfail

end Run

omit [DecidableEq δ] [Database σ] in
theorem apart_of_enrolled (h : Enrolled t.view) {i j : Nat} {first second : Login}
    (hi : t.standing i = some (.loggedIn first)) (hj : t.standing j = some (.loggedIn second))
    (hu : first.user = second.user) : i = j := by
  have hfirst : first ∈ t.sessions.opened := (h.mem_opened first).mpr ⟨i, hi⟩
  have hsecond : second ∈ t.sessions.opened := (h.mem_opened second).mpr ⟨j, hj⟩
  obtain rfl := List.inj_on_of_nodup_map h.sound.users_nodup hfirst hsecond hu
  exact h.unique i j first first (by rw [show t.view.standing i = _ from hi]; rfl)
    (by rw [show t.view.standing j = _ from hj]; rfl) rfl

theorem gated_of_run {steps : List Step} (h : (new maxFrame slots store).run digest steps = some (t, moments)) :
    Gated digest moments t := by
  have hchange {s u : Service δ σ} {a : Step} (hs : Happened digest moments s a u) := change_of_happened h hs
  refine ⟨?_, ?_, registered_run h, ?_, ?_, ?_, ?_, ?_, ?_, (enrolled_run h).mem_opened, ?_, ?_⟩
  · intro s job hm
    exact executed_of_mem h hm
  · intro s a u hs ha
    exact (hchange hs).store_eq ha
  · intro s a u hs user c hc
    exact (hchange hs).known hc
  · intro s a u hs hu
    exact registration_of_change (hchange hs) hu
  · intro i login hi
    exact first_of_earned (registered_run h) (earned_run h) hi
  · intro s a u i status hs ho
    exact told_of_mem h hs ho
  · intro s a u i login hs hu hnot
    obtain ⟨status, hi, ho⟩ := (hchange hs).opened hu hnot
    obtain ⟨_, early, _, _, hr, -, -⟩ := run_of_mem h hs.1
    exact ⟨status, ((loginsInTurn_run hr).next (.inr hi)).1, ho⟩
  · intro s a u i login hs hi hnot
    exact ((hchange hs).closed hi).resolve_left hnot
  · intro i j first second hi hj hu
    exact apart_of_enrolled (enrolled_run h) hi hj hu
  · intro s a u hs hf
    exact failed_of_mem h hs hf

/-- A wrong password, a user who waits for the only slot until the other connection of the same user has left, a second
login on one connection, and a request that is carried out after its client has left. -/
theorem gated_of_run_rivals :
    ∃ (t : Service (Nat × String)) (moments : List (Moment (Nat × String) Store.Backend)),
      (new 100 1 (.simple .empty)).run (fun salt password => (salt, password))
          [.connect, .connect, .arrive 0 [0, 0, 0, 7, 9, 0, 1, 117, 0, 1, 112],
            .arrive 1 [0, 0, 0, 7, 9, 0, 1, 117, 0, 1, 113, 0, 0, 0, 7, 9, 0, 1, 117, 0, 1, 112],
            .read 0, .read 1, .read 1, .apply 0, .apply 1, .sessions (.join 0), .sessions (.join 1),
            .sessions (.enter 0),
            .arrive 0 [0, 0, 0, 13, 1, 0, 0, 0, 5, 0, 1, 97, 0, 0, 0, 1, 7, 0, 0, 0, 7, 9, 0, 1, 117, 0, 1, 112],
            .read 0, .read 0, .hangUp 0, .read 0, .sessions (.release 0), .sessions (.enter 1), .pool .look,
            .ask 0] = some (t, moments) ∧
        t.sent 0 = [.authResponse .newUser, .authResponse .existingLogin] ∧
        t.sent 1 = [.authResponse .wrongCredentials, .authResponse .success] ∧
        t.standing 0 = some .left ∧ t.standing 1 = some (.loggedIn ⟨1, "u"⟩) ∧
        t.users.known["u"]? = some ⟨0, (0, "p")⟩ ∧
        Gated (fun salt password => (salt, password)) moments t := by
  have hr : (new 100 1 (Store.Backend.simple .empty)).run (fun salt password => (salt, password))
      [.connect, .connect, .arrive 0 [0, 0, 0, 7, 9, 0, 1, 117, 0, 1, 112],
        .arrive 1 [0, 0, 0, 7, 9, 0, 1, 117, 0, 1, 113, 0, 0, 0, 7, 9, 0, 1, 117, 0, 1, 112],
        .read 0, .read 1, .read 1, .apply 0, .apply 1, .sessions (.join 0), .sessions (.join 1),
        .sessions (.enter 0),
        .arrive 0 [0, 0, 0, 13, 1, 0, 0, 0, 5, 0, 1, 97, 0, 0, 0, 1, 7, 0, 0, 0, 7, 9, 0, 1, 117, 0, 1, 112],
        .read 0, .read 0, .hangUp 0, .read 0, .sessions (.release 0), .sessions (.enter 1), .pool .look,
        .ask 0] = some (_, _) := rfl
  exact ⟨_, _, hr, rfl, rfl, rfl, rfl, rfl, gated_of_run hr⟩

/-- A request waits in the pool while its client leaves. It is carried out when nobody has a session any more. -/
theorem executed_after_leaving :
    ∃ (s u : Service (Nat × String)) (moments : List (Moment (Nat × String) Store.Backend)),
      (new 100 1 (.simple .empty)).run (fun salt password => (salt, password))
          [.connect,
            .arrive 0 [0, 0, 0, 7, 9, 0, 1, 117, 0, 1, 112, 0, 0, 0, 13, 1, 0, 0, 0, 5, 0, 1, 97, 0, 0, 0, 1, 7],
            .read 0, .apply 0, .sessions (.join 0), .sessions (.enter 0), .read 0, .hangUp 0, .read 0,
            .pool .look] = some (s, moments) ∧
        s.step (fun salt password => (salt, password)) (.ask 0) = some u ∧
        s.tasks.map Task.connection = [0] ∧ s.standing 0 = some .left ∧ s.sessions.opened = [] ∧
        s.store.contents["a"]? = none ∧ u.store.contents["a"]? = some [7] := by
  have hr : (new 100 1 (Store.Backend.simple .empty)).run (fun salt password => (salt, password))
      [.connect,
        .arrive 0 [0, 0, 0, 7, 9, 0, 1, 117, 0, 1, 112, 0, 0, 0, 13, 1, 0, 0, 0, 5, 0, 1, 97, 0, 0, 0, 1, 7],
        .read 0, .apply 0, .sessions (.join 0), .sessions (.enter 0), .read 0, .hangUp 0, .read 0,
        .pool .look] = some (_, _) := rfl
  exact ⟨_, _, _, hr, rfl, rfl, rfl, rfl, rfl, rfl⟩

end AwaitStore.Server.Service
