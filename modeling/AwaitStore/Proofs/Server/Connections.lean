import AwaitStore.Proofs.Server.Outlet
import AwaitStore.Proofs.Server.Slots
import AwaitStore.Proofs.Server.Staffing
import AwaitStore.Server.Service
import Mathlib.Data.List.Induction
import Mathlib.Logic.Function.Basic

namespace AwaitStore.Server

open Wire (AuthStatus Message RequestId)

theorem Users.authenticate_eq {δ : Type} [DecidableEq δ] (digest : Nat → String → δ) (username password : String)
    (users : Users δ) :
    (∃ c, users.known[username]? = some c ∧ digest c.salt password = c.digest ∧
        users.authenticate digest username password = (.success, users)) ∨
      (∃ c, users.known[username]? = some c ∧ digest c.salt password ≠ c.digest ∧
        users.authenticate digest username password = (.wrongCredentials, users)) ∨
      (users.known[username]? = none ∧ users.authenticate digest username password =
        (.newUser, ⟨users.known.insert username ⟨users.salts, digest users.salts password⟩, users.salts + 1⟩)) := by
  unfold Users.authenticate
  cases hk : users.known[username]? with
  | none => exact .inr (.inr ⟨rfl, rfl⟩)
  | some c =>
      by_cases hd : digest c.salt password = c.digest
      · exact .inl ⟨c, rfl, hd, if_pos hd⟩
      · exact .inr (.inl ⟨c, rfl, hd, if_neg hd⟩)

namespace Task

theorem note_eq (t : Task) (ret : Return) : ∃ stage, t.note ret = { t with stage } := by
  unfold note
  split
  · split
    · exact ⟨_, rfl⟩
    · exact ⟨t.stage, rfl⟩
  · exact ⟨t.stage, rfl⟩
  · exact ⟨t.stage, rfl⟩

theorem learn_eq (job : Job) (returns : List Return) (t : Task) : ∃ stage, t.learn job returns = { t with stage } := by
  unfold learn
  induction returns using List.reverseRecOn with
  | nil =>
      rw [List.foldl_nil]
      split
      · exact ⟨_, rfl⟩
      · exact ⟨t.stage, rfl⟩
  | append_singleton returns ret ih =>
      obtain ⟨stage, hs⟩ := ih
      rw [List.foldl_append, hs, List.foldl_cons, List.foldl_nil]
      obtain ⟨stage', hn⟩ := note_eq { t with stage } ret
      exact ⟨stage', hn⟩

end Task

namespace Service

variable {δ σ : Type}

def standing (s : Service δ σ) (i : Nat) : Option Standing := (s.connections[i]?).map Connection.standing

def outlet (s : Service δ σ) (i : Nat) : Outlet := ((s.connections[i]?).map Connection.outlet).getD .new

def outbox (s : Service δ σ) (i : Nat) : List Message := (s.outlet i).outbox

/-- What a connection has been sent, put in its outbox or lost. -/
def sent (s : Service δ σ) (i : Nat) : List Message := (s.outlet i).sent

/-- A server without its streams. -/
structure View (δ σ : Type) where
  users : Users δ
  sessions : Sessions
  logins : Nat
  pool : Pool
  strain : Option String
  store : σ
  tasks : List Task
  accepted : Nat
  standing : Nat → Option Standing
  outlet : Nat → Outlet

def view (s : Service δ σ) : View δ σ :=
  ⟨s.users, s.sessions, s.logins, s.pool, s.strain, s.store, s.tasks, s.accepted, s.standing, s.outlet⟩

namespace View

def stand (v : View δ σ) (i : Nat) (x : Standing) : View δ σ :=
  { v with standing := Function.update v.standing i (some x) }

def pour (v : View δ σ) (i : Nat) (o : Outlet) : View δ σ := { v with outlet := Function.update v.outlet i o }

def send (v : View δ σ) (i : Nat) (m : Message) : View δ σ := v.pour i ((v.outlet i).send m)

def sent (v : View δ σ) (i : Nat) : List Message := (v.outlet i).sent

theorem sent_pour (v : View δ σ) (i : Nat) (o : Outlet) : (v.pour i o).sent = Function.update v.sent i o.sent :=
  Function.comp_update Outlet.sent v.outlet i o

theorem sent_send (v : View δ σ) (i : Nat) (m : Message) :
    (v.send i m).sent = Function.update v.sent i (v.sent i ++ [m]) := by
  rw [send, sent_pour, Outlet.sent_send]
  rfl

theorem sent_wrote {v : View δ σ} {i : Nat} {a : Outlet.Step} {o : Outlet} (h : (v.outlet i).step a = some o) :
    (v.pour i o).sent = v.sent := by
  rw [sent_pour, Outlet.sent_step h]
  exact Function.update_eq_self i v.sent

end View

section Views

variable {s : Service δ σ} {i : Nat} {c : Connection}

theorem exists_connection {x : Standing} (h : s.standing i = some x) :
    ∃ c, s.connections[i]? = some c ∧ c.standing = x :=
  Option.map_eq_some_iff.mp h

theorem standing_update (hc : s.connections[i]? = some c) (f : Connection → Connection) :
    (s.update i f).standing = Function.update s.standing i (some (f c).standing) := by
  funext j
  simp only [standing, update, List.getElem?_modify]
  by_cases hj : j = i
  · subst hj
    simp [hc]
  · simp [hj, Ne.symm hj, standing]

theorem outlet_update (hc : s.connections[i]? = some c) (f : Connection → Connection) :
    (s.update i f).outlet = Function.update s.outlet i (f c).outlet := by
  funext j
  simp only [outlet, update, List.getElem?_modify]
  by_cases hj : j = i
  · subst hj
    simp [hc]
  · simp [hj, Ne.symm hj, outlet]

theorem view_update (hc : s.connections[i]? = some c) (f : Connection → Connection) :
    (s.update i f).view = { s.view with
      standing := Function.update s.standing i (some (f c).standing)
      outlet := Function.update s.outlet i (f c).outlet } := by
  rw [← standing_update hc, ← outlet_update hc]
  rfl

theorem view_update_of_none (hc : s.connections[i]? = none) (f : Connection → Connection) :
    (s.update i f).view = s.view := by
  have hlength : s.connections.length ≤ i := List.getElem?_eq_none_iff.mp hc
  have he : s.update i f = s := by
    rw [update, List.modify_eq_self hlength]
  rw [he]

theorem outlet_eq (hc : s.connections[i]? = some c) : s.outlet i = c.outlet := by
  rw [outlet, hc]
  rfl

theorem view_update_incoming (f : Connection → Connection) (hs : ∀ c, (f c).standing = c.standing)
    (ho : ∀ c, (f c).outlet = c.outlet) : (s.update i f).view = s.view := by
  cases hc : s.connections[i]? with
  | none => exact view_update_of_none hc f
  | some c =>
      have hstand : s.standing i = some c.standing := by simp [standing, hc]
      rw [view_update hc, hs, ho, ← hstand, ← outlet_eq hc, Function.update_eq_self, Function.update_eq_self]
      rfl

theorem view_update_stand {x y : Standing} (h : s.standing i = some x) :
    (s.update i (Connection.stand y)).view = s.view.stand i y := by
  obtain ⟨c, hc, -⟩ := exists_connection h
  rw [view_update hc, View.stand]
  simp only [Connection.stand, ← outlet_eq hc, Function.update_eq_self]
  rfl

theorem view_update_outlet (hc : s.connections[i]? = some c) (o : Outlet) :
    (s.update i fun c => { c with outlet := o }).view = s.view.pour i o := by
  have hstand : s.standing i = some c.standing := by simp [standing, hc]
  rw [view_update hc, View.pour]
  simp only [← hstand, Function.update_eq_self]
  rfl

theorem view_update_send {x : Standing} (h : s.standing i = some x) (m : Message) :
    (s.update i (Connection.send m)).view = s.view.send i m := by
  obtain ⟨c, hc, rfl⟩ := exists_connection h
  rw [view_update hc, View.send, View.pour]
  simp only [Connection.send, ← h, ← outlet_eq hc, Function.update_eq_self]
  rfl

theorem view_connect :
    ({ s with connections := s.connections ++ [.new] } : Service δ σ).view =
      s.view.stand s.connections.length .stranger := by
  have hget (j : Nat) : (s.connections ++ [.new])[j]? =
      if j = s.connections.length then some .new else s.connections[j]? := by
    rcases Nat.lt_trichotomy j s.connections.length with hj | rfl | hj
    · rw [List.getElem?_append_left hj, if_neg (Nat.ne_of_lt hj)]
    · rw [List.getElem?_concat_length, if_pos rfl]
    · rw [if_neg (Nat.ne_of_gt hj), List.getElem?_eq_none (Nat.le_of_lt hj), List.getElem?_eq_none]
      rw [List.length_append]
      exact hj
  have hstand : ({ s with connections := s.connections ++ [.new] } : Service δ σ).standing =
      Function.update s.standing s.connections.length (some .stranger) := by
    funext j
    simp only [standing, hget]
    by_cases hj : j = s.connections.length <;> simp [standing, hj, Connection.new]
  have hout : ({ s with connections := s.connections ++ [.new] } : Service δ σ).outlet = s.outlet := by
    funext j
    simp only [outlet, hget]
    by_cases hj : j = s.connections.length <;> simp [hj, Connection.new]
  rw [View.stand, view, view, hstand, hout]

theorem view_update_conclude {x : Standing} (h : s.standing i = some x) (verdict : Sessions.Verdict)
    (status : AuthStatus) :
    (s.update i (Connection.conclude verdict status)).view =
      if verdict.granted then (s.view.stand i (.loggedIn verdict.login)).send i (.authResponse status)
      else (s.view.stand i .stranger).send i (.authResponse .existingLogin) := by
  obtain ⟨c, hc, -⟩ := exists_connection h
  rw [view_update hc]
  unfold Connection.conclude
  split <;> simp only [Connection.stand, Connection.send, ← outlet_eq hc] <;> rfl

theorem holder?_eq_some {login : Login} {i : Nat} {status : AuthStatus} (h : s.holder? login = some (i, status)) :
    s.standing i = some (.inLine login status) := by
  obtain ⟨⟨c, j⟩, hc, hj⟩ := List.exists_of_findSome?_eq_some h
  have hget : s.connections[j]? = some c := List.mem_zipIdx_iff_getElem?.mp hc
  cases hx : c.standing with
  | inLine own other =>
      simp only [hx] at hj
      split at hj
      next ho =>
        cases hj
        simp [standing, hget, hx, ho]
      · cases hj
  | stranger | admitted | loggedIn | left => simp [hx] at hj

theorem holder?_eq_none {login : Login} (h : s.holder? login = none) (i : Nat) (status : AuthStatus) :
    s.standing i ≠ some (.inLine login status) := by
  intro hs
  obtain ⟨c, hc, hx⟩ := exists_connection hs
  have hnone := List.findSome?_eq_none_iff.mp h (c, i) (List.mem_zipIdx_iff_getElem?.mpr hc)
  simp [hx] at hnone

end Views

theorem react_authRequest (loggedIn : Bool) (username password : String) :
    react loggedIn (.authRequest username password) =
      if loggedIn then .answer (.authResponse .existingLogin) else .logIn username password := rfl

theorem react_request {m : Message} {id : RequestId} {op : Operation} (h : Operation.ofRequest? m = some (id, op))
    (loggedIn : Bool) :
    react loggedIn m = if loggedIn then .run id op else .answer (.errorResponse id authenticationRequired) := by
  cases m <;> cases h <;> rfl

/-- Neither a login nor a request, so it is a reply. -/
def IsReply (m : Message) : Prop := Operation.ofRequest? m = none ∧ ∀ username password, m ≠ .authRequest username password

theorem react_reply {m : Message} (h : IsReply m) (loggedIn : Bool) : react loggedIn m = .ignore := by
  cases m with
  | authRequest username password => exact absurd rfl (h.2 username password)
  | putRequest | getRequest | multiPutRequest | multiGetRequest | getWhenRequest => cases h.1
  | putResponse | getResponse | multiGetResponse | authResponse | errorResponse => rfl

theorem message_cases (m : Message) :
    (∃ username password, m = .authRequest username password) ∨
      (∃ id op, Operation.ofRequest? m = some (id, op)) ∨ IsReply m := by
  cases m with
  | authRequest username password => exact .inl ⟨username, password, rfl⟩
  | putRequest | getRequest | multiPutRequest | multiGetRequest | getWhenRequest =>
      exact .inr (.inl ⟨_, _, rfl⟩)
  | putResponse | getResponse | multiGetResponse | authResponse | errorResponse =>
      exact .inr (.inr ⟨rfl, fun _ _ h => by cases h⟩)

theorem submit_cases (p : Pool) (strain : Option String) (job : Job) :
    (∃ e, p.refusal? strain = some e ∧ p.submit job strain = .error e) ∨
      (p.refusal? strain = none ∧ ∃ q, p.submit job strain = .ok q) := by
  unfold Pool.submit
  cases hr : p.refusal? strain with
  | some e => exact .inl ⟨e, rfl, rfl⟩
  | none => exact .inr ⟨rfl, _, rfl⟩

def taken? (s : Service δ σ) : Step → Option (Nat × Message)
  | .read i =>
      match s.connections[i]? with
      | none => none
      | some c =>
          if !c.standing.isReading ∨ !c.incoming.isReady s.maxFrame then none
          else
            match (c.incoming.readMessage s.maxFrame).1 with
            | .ok (some message) => some (i, message)
            | .ok none | .error _ => none
  | _ => none

/-- What a step can do, by what it takes from a stream. -/
inductive Change [DecidableEq δ] [Database σ] (digest : Nat → String → δ) (v : View δ σ) :
    Option (Nat × Message) → Step → View δ σ → Prop
  | connected {i : Nat} (new : v.standing i = none) (silent : v.outlet i = .new) :
      Change digest v none .connect (v.stand i .stranger)
  | arrived {i : Nat} {bytes : Bytes} : Change digest v none (.arrive i bytes) v
  | hungUp {i : Nat} : Change digest v none (.hangUp i) v
  | strangerLeft {i : Nat} (before : v.standing i = some .stranger) :
      Change digest v none (.read i) (v.stand i .left)
  | userLeft {i : Nat} {login : Login} (before : v.standing i = some (.loggedIn login)) :
      Change digest v none (.read i)
        ({ v with sessions := (v.sessions.finish login.request).getD v.sessions }.stand i .left)
  | ignored {i : Nat} {m : Message} {x : Standing} (before : v.standing i = some x) (reading : x.isReading)
      (reply : IsReply m) : Change digest v (some (i, m)) (.read i) v
  | loggedInTwice {i : Nat} {username password : String} {login : Login}
      (before : v.standing i = some (.loggedIn login)) :
      Change digest v (some (i, .authRequest username password)) (.read i)
        (v.send i (.authResponse .existingLogin))
  | wrongPassword {i : Nat} {username password : String} (before : v.standing i = some .stranger)
      (checked : v.users.authenticate digest username password = (.wrongCredentials, v.users)) :
      Change digest v (some (i, .authRequest username password)) (.read i)
        (v.send i (.authResponse .wrongCredentials))
  | admitted {i : Nat} {username password : String} {status : AuthStatus} {users : Users δ}
      (before : v.standing i = some .stranger) (success : status.isSuccess)
      (checked : v.users.authenticate digest username password = (status, users)) :
      Change digest v (some (i, .authRequest username password)) (.read i)
        ({ v with users, logins := v.logins + 1 }.stand i (.admitted ⟨v.logins, username⟩ status))
  | unauthenticated {i : Nat} {m : Message} {id : RequestId} {op : Operation}
      (before : v.standing i = some .stranger) (request : Operation.ofRequest? m = some (id, op)) :
      Change digest v (some (i, m)) (.read i) (v.send i (.errorResponse id authenticationRequired))
  | shutOut {i : Nat} {m : Message} {id : RequestId} {op : Operation} {login : Login}
      (before : v.standing i = some (.loggedIn login)) (request : Operation.ofRequest? m = some (id, op))
      (refusal : (v.pool.refusal? v.strain).isSome) :
      Change digest v (some (i, m)) (.read i) (v.send i (.errorResponse id shuttingDown))
  | dispatched {i : Nat} {m : Message} {id : RequestId} {op : Operation} {login : Login} {pool : Pool}
      (before : v.standing i = some (.loggedIn login)) (request : Operation.ofRequest? m = some (id, op))
      (acceptance : v.pool.refusal? v.strain = none) (submitted : v.pool.submit v.accepted v.strain = .ok pool) :
      Change digest v (some (i, m)) (.read i)
        { v with
          pool
          accepted := v.accepted + 1
          tasks := v.tasks ++ [⟨v.accepted, i, id, op, .accepted⟩] }
  | refused {i : Nat} {login : Login} {status : AuthStatus} (before : v.standing i = some (.admitted login status))
      (active : login.user ∈ v.sessions.active) :
      Change digest v none (.apply i) ((v.stand i .stranger).send i (.authResponse .existingLogin))
  | applied {i : Nat} {login : Login} {status : AuthStatus} (before : v.standing i = some (.admitted login status))
      (inactive : login.user ∉ v.sessions.active) :
      Change digest v none (.apply i)
        ({ v with sessions := { v.sessions with arriving := v.sessions.arriving ++ [login] } }.stand i
          (.inLine login status))
  | joined {n : Nat} {sessions : Sessions} (moved : v.sessions.join n = some sessions) :
      Change digest v none (.sessions (.join n)) { v with sessions }
  | released {n : Nat} {sessions : Sessions} (moved : v.sessions.release n = some sessions) :
      Change digest v none (.sessions (.release n)) { v with sessions }
  | entered {n i : Nat} {sessions : Sessions} {login : Login} {status : AuthStatus}
      (moved : v.sessions.enter n = some (sessions, ⟨login, true⟩))
      (before : v.standing i = some (.inLine login status)) :
      Change digest v none (.sessions (.enter n))
        (({ v with sessions }.stand i (.loggedIn login)).send i (.authResponse status))
  | turnedAway {n i : Nat} {sessions : Sessions} {login : Login} {status : AuthStatus}
      (moved : v.sessions.enter n = some (sessions, ⟨login, false⟩))
      (before : v.standing i = some (.inLine login status)) :
      Change digest v none (.sessions (.enter n))
        (({ v with sessions }.stand i .stranger).send i (.authResponse .existingLogin))
  | unheld {n : Nat} {sessions : Sessions} {verdict : Sessions.Verdict}
      (moved : v.sessions.enter n = some (sessions, verdict))
      (nobody : ∀ i status, v.standing i ≠ some (.inLine verdict.login status)) :
      Change digest v none (.sessions (.enter n)) { v with sessions }
  | gaveUp {i : Nat} {login : Login} {status : AuthStatus} (before : v.standing i = some (.admitted login status)) :
      Change digest v none (.abandon i) (v.stand i .left)
  | abandoned {i : Nat} {login : Login} {status : AuthStatus} {sessions : Sessions}
      (before : v.standing i = some (.inLine login status)) (moved : v.sessions.abandon login.request = some sessions) :
      Change digest v none (.abandon i) ({ v with sessions }.stand i .left)
  | worked {a : Pool.Step} {pool : Pool} (own : a = .look ∨ a = .wake ∨ ∃ due, a = .timeout due)
      (moved : v.pool.step a = some pool) : Change digest v none (.pool a) { v with pool }
  | asked {task : Task} (found : v.tasks.find? (fun t => t.job == task.job) = some task)
      (accepted : task.stage = .accepted)
      (running : task.job ∈ v.pool.running) :
      Change digest v none (.ask task.job)
        { v with
          store := (Database.perform task.job task.operation v.store).1
          tasks := v.tasks.map (Task.learn task.job (Database.perform task.job task.operation v.store).2) }
  | replied {task : Task} {outcome : Outcome} {pool : Pool}
      (found : v.tasks.find? (fun t => t.job == task.job) = some task)
      (answered : task.stage = .answered outcome) (finished : v.pool.step (.finish task.job) = some pool) :
      Change digest v none (.reply task.job)
        ({ v with pool, tasks := v.tasks.filter fun t => t.job != task.job }.send task.connection
          (outcome.reply task.id))
  | wrote {i : Nat} {a : Outlet.Step} {o : Outlet} (moved : (v.outlet i).step a = some o) :
      Change digest v none (.writer i a) (v.pour i o)
  | strained {reason : Option String} : Change digest v none (.strain reason) { v with strain := reason }
  | shutDown {pool : Pool} (moved : v.pool.step .shutdown = some pool) :
      Change digest v none .shutdown { v with pool }

section Change

variable [DecidableEq δ] [Database σ] {digest : Nat → String → δ} {s t : Service δ σ}

theorem change_of_logIn {i : Nat} (h : s.standing i = some .stranger) (username password : String) :
    Change digest s.view (some (i, .authRequest username password)) (.read i)
      (s.logIn digest i username password).view := by
  have hadmit {status : AuthStatus} {users : Users δ}
      (ha : s.users.authenticate digest username password = (status, users)) (hs : status.isSuccess) :
      Change digest s.view (some (i, .authRequest username password)) (.read i)
        (s.logIn digest i username password).view := by
    have he : s.logIn digest i username password =
        Service.update i (Connection.stand (.admitted ⟨s.logins, username⟩ status))
          { s with users, logins := s.logins + 1 } := by simp [logIn, ha, hs]
    rw [he, view_update_stand (s := { s with users, logins := s.logins + 1 }) h]
    exact .admitted h hs ha
  rcases s.users.authenticate_eq digest username password with ⟨c, -, -, ha⟩ | ⟨c, -, -, ha⟩ | ⟨-, ha⟩
  · exact hadmit ha rfl
  · have he : s.logIn digest i username password =
        s.update i (Connection.send (.authResponse .wrongCredentials)) := by
      simp [logIn, ha, AuthStatus.isSuccess]
    rw [he, view_update_send h]
    exact .wrongPassword h ha
  · exact hadmit ha rfl

theorem change_of_dispatch {i : Nat} {login : Login} (h : s.standing i = some (.loggedIn login)) {m : Message}
    {id : RequestId} {op : Operation} (hm : Operation.ofRequest? m = some (id, op)) :
    Change digest s.view (some (i, m)) (.read i) (s.dispatch i id op).view := by
  unfold dispatch
  rcases submit_cases s.pool s.strain s.accepted with ⟨e, hrefusal, hp⟩ | ⟨hacceptance, pool, hp⟩
  · rw [hp]
    simp only
    rw [view_update_send h]
    exact .shutOut h hm (Option.isSome_of_eq_some hrefusal)
  · rw [hp]
    exact .dispatched h hm hacceptance hp

theorem change_of_handle {i : Nat} {x : Standing} (h : s.standing i = some x) (hx : x.isReading) (m : Message) :
    Change digest s.view (some (i, m)) (.read i) (s.handle digest i x.isLoggedIn m).view := by
  unfold handle
  rcases message_cases m with ⟨username, password, rfl⟩ | ⟨id, op, hm⟩ | hm
  · rw [react_authRequest]
    cases x with
    | stranger => exact change_of_logIn h username password
    | loggedIn login =>
        simp only [Standing.isLoggedIn, if_true]
        rw [view_update_send h]
        exact .loggedInTwice h
    | admitted | inLine | left => cases hx
  · rw [react_request hm]
    cases x with
    | stranger =>
        simp only [Standing.isLoggedIn, Bool.false_eq_true, if_false]
        rw [view_update_send h]
        exact .unauthenticated h hm
    | loggedIn login => exact change_of_dispatch h hm
    | admitted | inLine | left => cases hx
  · rw [react_reply hm]
    exact .ignored h hx hm

theorem change_of_leave {i : Nat} {x : Standing} (h : s.standing i = some x) (hx : x.isReading) :
    Change digest s.view none (.read i) (s.leave i).view := by
  have hs : (s.connections[i]?).map Connection.standing = some x := h
  unfold leave
  rw [hs]
  cases x with
  | stranger =>
      rw [view_update_stand (s := { s with sessions := s.sessions }) h]
      exact .strangerLeft h
  | loggedIn login =>
      simp only
      rw [view_update_stand (s := { s with sessions := (s.sessions.finish login.request).getD s.sessions }) h]
      exact .userLeft h
  | admitted | inLine | left => cases hx

theorem change_of_read {i : Nat} (h : s.read digest i = some t) :
    Change digest s.view (s.taken? (.read i)) (.read i) t.view := by
  unfold read at h
  cases hc : s.connections[i]? with
  | none => simp [hc] at h
  | some c =>
      simp only [hc] at h
      by_cases hr : !c.standing.isReading ∨ !c.incoming.isReady s.maxFrame
      · rw [if_pos hr] at h
        cases h
      · rw [if_neg hr, Option.some.injEq] at h
        subst h
        have hx : c.standing.isReading := by
          simp only [not_or] at hr
          simpa using hr.1
        have htaken : s.taken? (.read i) = match (c.incoming.readMessage s.maxFrame).1 with
            | .ok (some message) => some (i, message)
            | .ok none | .error _ => none := by simp only [taken?, hc, hr, if_false]
        generalize c.incoming.readMessage s.maxFrame = read at htaken ⊢
        obtain ⟨result, incoming⟩ := read
        have hview : (s.update i fun c => { c with incoming }).view = s.view :=
          view_update_incoming _ (fun _ => rfl) (fun _ => rfl)
        have hstand : (s.update i fun c => { c with incoming }).standing i = some c.standing := by
          rw [show (s.update i fun c => { c with incoming }).standing = s.standing from
            congrArg View.standing hview]
          simp [standing, hc]
        rw [htaken, ← hview]
        match result with
        | .ok (some m) => exact change_of_handle hstand hx m
        | .ok none => exact change_of_leave hstand hx
        | .error e => exact change_of_leave hstand hx

theorem change_of_apply {i : Nat} (h : s.apply i = some t) : Change digest s.view none (.apply i) t.view := by
  unfold apply at h
  split at h
  next login status hstand =>
    have hs : s.standing i = some (.admitted login status) := hstand
    rw [Sessions.ask_eq] at h
    by_cases hactive : login.user ∈ s.sessions.active
    · simp only [hactive, if_true, Option.some.injEq] at h
      subst h
      rw [view_update_conclude (s := { s with sessions := s.sessions }) hs]
      exact .refused hs hactive
    · simp only [hactive, if_false, Option.some.injEq] at h
      subst h
      rw [view_update_stand (s := { s with sessions := { s.sessions with
        arriving := s.sessions.arriving ++ [login] } }) hs]
      exact .applied hs hactive
  · cases h

theorem change_of_enter {n : Nat} {sessions : Sessions} {verdict : Sessions.Verdict}
    (h : s.sessions.enter n = some (sessions, verdict)) :
    Change digest s.view none (.sessions (.enter n)) (concludeLogin verdict { s with sessions }).view := by
  unfold concludeLogin
  cases hh : holder? verdict.login { s with sessions } with
  | none => exact .unheld h fun i status => holder?_eq_none (s := { s with sessions }) hh i status
  | some holder =>
      obtain ⟨i, status⟩ := holder
      have hs := holder?_eq_some hh
      simp only
      rw [view_update_conclude hs]
      obtain ⟨login, granted⟩ := verdict
      cases granted with
      | true => exact .entered h hs
      | false => exact .turnedAway h hs

theorem change_of_moveSessions {a : Sessions.Step} (h : s.moveSessions a = some t) :
    Change digest s.view none (.sessions a) t.view := by
  unfold moveSessions at h
  cases a with
  | ask | finish | abandon => cases h
  | join n =>
      obtain ⟨⟨sessions, verdict⟩, hm, rfl⟩ := Option.map_eq_some_iff.mp h
      obtain ⟨hj, rfl⟩ := Sessions.step_eq_some hm
      exact .joined hj
  | release n =>
      obtain ⟨⟨sessions, verdict⟩, hm, rfl⟩ := Option.map_eq_some_iff.mp h
      obtain ⟨hj, rfl⟩ := Sessions.step_eq_some hm
      exact .released hj
  | enter n =>
      obtain ⟨⟨sessions, verdict⟩, hm, rfl⟩ := Option.map_eq_some_iff.mp h
      obtain ⟨v, hv, rfl⟩ := Sessions.step_eq_some hm
      exact change_of_enter hv

theorem change_of_abandon {i : Nat} (h : s.abandon i = some t) : Change digest s.view none (.abandon i) t.view := by
  unfold abandon at h
  cases hc : s.connections[i]? with
  | none => simp [hc] at h
  | some c =>
      have hs : s.standing i = some c.standing := by simp [standing, hc]
      simp only [hc] at h
      split at h
      · cases h
      · split at h
        next login status hx =>
          cases h
          rw [hx] at hs
          rw [view_update_stand hs]
          exact .gaveUp hs
        next login status hx =>
          rw [hx] at hs
          obtain ⟨sessions, hm, rfl⟩ := Option.map_eq_some_iff.mp h
          rw [view_update_stand (s := { s with sessions }) hs]
          exact .abandoned hs hm
        · cases h
        · cases h
        · cases h

theorem change_of_movePool {a : Pool.Step} (h : s.movePool a = some t) :
    Change digest s.view none (.pool a) t.view := by
  unfold movePool at h
  cases a with
  | submit | finish | shutdown => cases h
  | look =>
      obtain ⟨pool, hp, rfl⟩ := Option.map_eq_some_iff.mp h
      exact .worked (.inl rfl) hp
  | wake =>
      obtain ⟨pool, hp, rfl⟩ := Option.map_eq_some_iff.mp h
      exact .worked (.inr (.inl rfl)) hp
  | timeout due =>
      obtain ⟨pool, hp, rfl⟩ := Option.map_eq_some_iff.mp h
      exact .worked (.inr (.inr ⟨due, rfl⟩)) hp

theorem change_of_ask {job : Job} (h : s.ask job = some t) : Change digest s.view none (.ask job) t.view := by
  unfold ask at h
  split at h
  next own i id op hf =>
    obtain rfl : own = job := by simpa using List.find?_some hf
    have hfound : s.view.tasks.find? (fun t => t.job == (⟨own, i, id, op, .accepted⟩ : Task).job) =
        some ⟨own, i, id, op, .accepted⟩ := hf
    split at h
    next hr =>
      cases h
      have hrunning : own ∈ s.view.pool.running := List.contains_iff_mem.mp hr
      exact .asked hfound rfl hrunning
    · cases h
  · cases h

def Connected (v : View δ σ) : Prop := ∀ task ∈ v.tasks, ∃ x, v.standing task.connection = some x

theorem change_of_reply (hc : Connected s.view) {job : Job} (h : s.reply job = some t) :
    Change digest s.view none (.reply job) t.view := by
  unfold reply at h
  split at h
  next own i id op outcome hf =>
    obtain rfl : own = job := by simpa using List.find?_some hf
    have hfound : s.view.tasks.find? (fun t => t.job == (⟨own, i, id, op, .answered outcome⟩ : Task).job) =
        some ⟨own, i, id, op, .answered outcome⟩ := hf
    obtain ⟨x, hx⟩ := hc _ (List.mem_of_find?_eq_some hfound)
    obtain ⟨pool, hp, rfl⟩ := Option.map_eq_some_iff.mp h
    have hfinished : s.view.pool.step (.finish own) = some pool := hp
    rw [view_update_send (s := { s with pool, tasks := s.tasks.filter fun t => t.job != own }) hx]
    exact .replied hfound rfl hfinished
  · cases h

theorem change_of_moveWriter {i : Nat} {a : Outlet.Step} (h : s.moveWriter i a = some t) :
    Change digest s.view none (.writer i a) t.view := by
  unfold moveWriter at h
  cases hc : s.connections[i]? with
  | none => simp [hc] at h
  | some c =>
      simp only [hc] at h
      obtain ⟨o, ho, rfl⟩ := Option.map_eq_some_iff.mp h
      rw [← outlet_eq hc] at ho
      rw [view_update_outlet hc]
      exact .wrote ho

theorem change_of_step (hc : Connected s.view) {a : Step} (h : s.step digest a = some t) :
    Change digest s.view (s.taken? a) a t.view := by
  cases a with
  | connect =>
      cases h
      rw [view_connect]
      refine .connected ?_ ?_
      · simp [view, standing]
      · simp [view, outlet]
  | arrive i bytes =>
      obtain rfl : s.update i (fun c => { c with incoming := c.incoming.arrive bytes }) = t := Option.some.inj h
      rw [view_update_incoming (fun c => { c with incoming := c.incoming.arrive bytes }) (fun _ => rfl) fun _ => rfl]
      exact .arrived
  | hangUp i =>
      obtain rfl : s.update i (fun c => { c with incoming := c.incoming.finish }) = t := Option.some.inj h
      rw [view_update_incoming (fun c => { c with incoming := c.incoming.finish }) (fun _ => rfl) fun _ => rfl]
      exact .hungUp
  | read i => exact change_of_read h
  | apply i => exact change_of_apply h
  | sessions a => exact change_of_moveSessions h
  | abandon i => exact change_of_abandon h
  | pool a => exact change_of_movePool h
  | ask job => exact change_of_ask h
  | reply job => exact change_of_reply hc h
  | writer i a => exact change_of_moveWriter h
  | strain reason =>
      cases h
      exact .strained
  | shutdown =>
      simp only [step] at h
      obtain ⟨pool, hp, rfl⟩ := Option.map_eq_some_iff.mp h
      exact .shutDown hp

end Change

end Service

end AwaitStore.Server
