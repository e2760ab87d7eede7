import AwaitStore.Proofs.Server.Enrolment
import AwaitStore.Proofs.Server.LoginReplies
import AwaitStore.Proofs.Server.Outboxes

namespace AwaitStore.Server.Service

open Wire (AuthStatus Message RequestId)

variable {δ σ : Type} [DecidableEq δ] [Database σ] (digest : Nat → String → δ)

/-- A request that has not been answered is on its way: nobody can hold it up but the store and, on a host that had no
thread for it, another job. -/
inductive Underway (t : Service δ σ) (task : Task) : Prop
  | queued (queued : task.job ∈ t.pool.queue) (look : (t.step digest (.pool .look)).isSome)
  | behind (queued : task.job ∈ t.pool.queue) (running : t.pool.running ≠ [])
  | taken (running : task.job ∈ t.pool.running) (ask : (t.step digest (.ask task.job)).isSome)
  | asked (running : task.job ∈ t.pool.running) (asked : task.stage = .asked)
  | answered (running : task.job ∈ t.pool.running) (reply : (t.step digest (.reply task.job)).isSome)

/-- The account of a run that starts with this store and leads to `t`. -/
structure Answered (store : σ) (moments : List (Moment δ σ)) (t : Service δ σ) : Prop where
  /-- What a connection has been sent: one reply for each request that it has received, as soon as there is one, and
  the ends of its logins. -/
  replies : ∀ i, (t.sent i).Perm
    ((received i moments).filterMap (Receipt.reply? (ended moments)) ++ (statuses (t.sent i)).map .authResponse)
  reply_id : ∀ r ∈ receipts moments, ∀ reply, r.reply? (ended moments) = some reply → reply.requestId? = r.id?
  /-- A request becomes the job with the next number, so no two requests share a job. -/
  numbered : (dispatched moments).map Task.job = List.range t.accepted
  ended_once : ((ended moments).map Prod.fst).Nodup
  /-- A job asks the store once, for the operation of its request. -/
  asked_once : ((consulted moments).map Prod.fst).Nodup
  of_asked : ∀ ask ∈ consulted moments, ∃ task ∈ dispatched moments, task.job = ask.1 ∧ task.operation = ask.2
  store_eq : t.store = (Database.consult store (consulted moments)).1
  /-- A job ends with what the store returned for it. -/
  outcome : ∀ e ∈ ended moments, ⟨e.1, e.2⟩ ∈ (Database.consult store (consulted moments)).2
  /-- The ids that have been sent back and those of the requests whose jobs have not ended are the ids received. -/
  ids : ∀ i, ((received i moments).filterMap Receipt.id?).Perm
    ((t.sent i).filterMap Message.requestId? ++ (t.tasks.filter fun task => task.connection = i).map Task.id)
  /-- What is sent is put in the outbox, unless the writer of the connection has stopped. -/
  put : ∀ s a u i, Happened digest moments s a u → ∃ news, u.sent i = s.sent i ++ news ∧
    u.outbox i = s.outbox i ++ (if s.isWriting i then news else [])
  outbox : ∀ i, t.isWriting i = true → t.outbox i = t.sent i
  /-- A writer stops only when it cannot write, and nothing is put in its outbox after that. -/
  severed : ∀ i, t.isWriting i = false → Severed i moments (t.outbox i)
  jobs : t.pool.jobs.Perm (t.tasks.map Task.job)
  underway : ∀ task ∈ t.tasks, Underway digest t task
  /-- On a host that always had threads no job waits for another one. -/
  prompt : (∀ m ∈ moments, m.1.strain = none) → t.pool.queue ≠ [] → (t.step digest (.pool .look)).isSome
  ids_at_rest : t.pool.jobs = [] → ∀ i,
    ((received i moments).filterMap Receipt.id?).Perm ((t.sent i).filterMap Message.requestId?)
  /-- Logins are answered in turn, all but the one that is not over or that its client did not wait for. -/
  logins : ∀ i, InTurn digest (GaveUp i moments) (t.standing i) (received i moments) (t.sent i)
  gaveUp : ∀ s i, (s, Step.abandon i) ∈ moments → ∃ c, s.connections[i]? = some c ∧ c.incoming.isOver
  asking : ∀ i login status, t.standing i = some (.admitted login status) → (t.step digest (.apply i)).isSome
  waiting : ∀ i login status, t.standing i = some (.inLine login status) → login ∈ t.sessions.pending
  /-- A reply that is received changes nothing but its stream. -/
  ignored : ∀ i m u, IsReply m → t.taken? (.read i) = some (i, m) → t.step digest (.read i) = some u → u.view = t.view

section Progress

variable {digest} {maxFrame slots : Nat} {store : σ} {moments : List (Moment δ σ)} {s t : Service δ σ}

omit [DecidableEq δ] in
theorem find?_job (h : Booked store moments t.view) {task : Task} (ht : task ∈ t.tasks) :
    t.tasks.find? (fun other => other.job == task.job) = some task := by
  cases hf : t.tasks.find? fun other => other.job == task.job with
  | none => exact absurd (List.find?_eq_none.mp hf task ht) (by simp)
  | some found =>
      have hjob : found.job = task.job := by simpa using List.find?_some hf
      rw [List.inj_on_of_nodup_map h.jobs_nodup (List.mem_of_find?_eq_some hf) ht hjob]

theorem isSome_look (h : t.pool.awake ≠ 0) : (t.step digest (.pool .look)).isSome := by
  simp [step, movePool, Pool.step, h]

theorem underway_of_mem (h : Booked store moments t.view) (hp : t.pool.Manned) {task : Task} (ht : task ∈ t.tasks) :
    Underway digest t task := by
  have hfind := find?_job h ht
  have hmem : task.job ∈ t.pool.jobs := h.pool.mem_iff.mpr (List.mem_map_of_mem ht)
  rcases List.mem_append.mp hmem with hq | hr
  · rcases hp.exists_worker (List.ne_nil_of_mem hq) with hawake | hrunning
    · exact .queued hq (isSome_look hawake)
    · exact .behind hq hrunning
  · have hcontains : t.pool.running.contains task.job = true := List.contains_iff_mem.mpr hr
    obtain ⟨job, i, id, op, stage⟩ := task
    cases stage with
    | accepted =>
        refine .taken hr ?_
        simp only [step, ask, hfind, hcontains, if_true]
        rfl
    | asked => exact .asked hr rfl
    | answered outcome =>
        refine .answered hr ?_
        simp only [step, reply, hfind, Pool.step, hcontains, if_true]
        rfl

theorem isOver_of_abandon {i : Nat} (h : s.step digest (.abandon i) = some t) :
    ∃ c, s.connections[i]? = some c ∧ c.incoming.isOver := by
  simp only [step, abandon] at h
  cases hc : s.connections[i]? with
  | none => simp [hc] at h
  | some c =>
      simp only [hc] at h
      by_cases hover : c.incoming.isOver
      · exact ⟨c, rfl, hover⟩
      · simp [hover] at h

theorem isSome_apply {i : Nat} {login : Login} {status : AuthStatus}
    (h : t.standing i = some (.admitted login status)) : (t.step digest (.apply i)).isSome := by
  have hs : (t.connections[i]?).map Connection.standing = some (.admitted login status) := h
  simp only [step, apply, hs]
  rfl

theorem view_of_reply {i : Nat} {m : Message} (hm : IsReply m) (hk : t.taken? (.read i) = some (i, m))
    (hs : t.step digest (.read i) = some s) : s.view = t.view := by
  have hc := change_of_read hs
  rw [hk] at hc
  generalize s.view = v at hc ⊢
  cases hc with
  | ignored => rfl
  | loggedInTwice | wrongPassword | admitted => exact absurd rfl (hm.2 _ _)
  | unauthenticated _ hr | shutOut _ hr | dispatched _ hr =>
      rw [hm.1] at hr
      cases hr

end Progress

section Run

variable {digest} {maxFrame slots : Nat} {store : σ} {moments : List (Moment δ σ)} {t : Service δ σ}

omit [DecidableEq δ] in
theorem Booked.tasks_of_connection (h : Booked store moments t.view) (i : Nat) :
    (t.tasks.filter fun task => task.connection = i).map Task.id =
      (((received i moments).filterMap Receipt.task?).filter fun task =>
        task.job ∉ (ended moments).map Prod.fst).map Task.id := by
  have hids : (t.tasks.filter fun task => task.connection = i).map Task.id =
      ((t.tasks.map Task.accept).filter fun task => task.connection = i).map Task.id := by
    rw [List.filter_map, List.map_map]
    rfl
  rw [hids, show t.tasks.map Task.accept = _ from h.tasks, tasks_received, List.filter_comm]

/-- Every request is answered exactly once, after every run of a new server. The answer gets into the outbox if the
writer has not stopped before. -/
theorem answered_of_run {steps : List Step} (h : (new maxFrame slots store).run digest steps = some (t, moments)) :
    Answered digest store moments t := by
  have hb := booked_run h
  have hr := replied_run h
  have he := enrolled_run h
  have hids (i : Nat) : ((received i moments).filterMap Receipt.id?).Perm
      ((t.sent i).filterMap Message.requestId? ++ (t.tasks.filter fun task => task.connection = i).map Task.id) := by
    rw [hb.tasks_of_connection]
    exact (hr i).ids
  exact {
    replies := hr
    reply_id := by
      intro r _ reply hreply
      rcases r.task?_cases with ⟨task, -, -, hid, hl⟩ | ⟨-, now, hl, hid⟩
      · rw [hl] at hreply
        obtain ⟨outcome, -, rfl⟩ := Option.map_eq_some_iff.mp hreply
        rw [requestId?_reply, hid]
      · rw [hl] at hreply
        rw [hid, hreply, Option.bind_some]
    numbered := hb.numbered
    ended_once := hb.ended_nodup
    asked_once := hb.consulted_nodup
    of_asked := hb.of_consulted
    store_eq := hb.store_eq
    outcome := fun e hm => (hb.of_ended e hm).2
    ids := hids
    put := fun s a u i hs => (change_of_happened h hs).put i
    outbox := by
      intro i hi
      rw [sent, Outlet.sent, Outlet.lost_of_isWriting hi, List.append_nil]
      rfl
    severed := fun i hi => severed_run h hi
    jobs := hb.pool
    underway := fun task ht => underway_of_mem hb (manned_run h) ht
    prompt := by
      intro hu hq
      have hpos := List.length_pos_iff.mpr hq
      exact isSome_look (Nat.ne_of_gt (Nat.lt_of_lt_of_le hpos (staffed_run h hu).queued_le))
    ids_at_rest := by
      intro hrest i
      have hnone : t.tasks = [] := List.map_eq_nil_iff.mp (List.nil_perm.mp (hrest ▸ hb.pool))
      have hi := hids i
      rw [hnone] at hi
      rwa [List.filter_nil, List.map_nil, List.append_nil] at hi
    logins := loginsInTurn_run h
    gaveUp := by
      intro s i hm
      obtain ⟨_, _, _, u, -, hs, -⟩ := run_of_mem h hm
      exact isOver_of_abandon hs
    asking := fun i login status hi => isSome_apply hi
    waiting := fun i login status hi => (he.mem_pending login).mpr ⟨i, status, hi⟩
    ignored := fun i m u hm hk hs => view_of_reply hm hk hs }

/-- A request before the login, one after the shutdown, and two whose jobs end in the other order, one with an error. -/
theorem answered_of_run_shutdown :
    ∃ (t : Service (Nat × String)) (moments : List (Moment (Nat × String) Store.Backend)),
      (new 100 1 (.sharded 1 (Store.Sharded.empty Nat.one_pos))).run (fun salt password => (salt, password))
          [.connect,
            .arrive 0 [0, 0, 0, 8, 2, 0, 0, 0, 0, 0, 1, 97, 0, 0, 0, 7, 9, 0, 1, 117, 0, 1, 112],
            .read 0, .read 0, .apply 0, .sessions (.join 0), .sessions (.enter 0),
            .arrive 0 [0, 0, 0, 13, 1, 255, 255, 255, 255, 0, 1, 97, 0, 0, 0, 1, 7],
            .arrive 0 [0, 0, 0, 16, 5, 255, 255, 255, 255, 0, 1, 97, 0, 1, 97, 0, 0, 0, 1, 8],
            .read 0, .read 0, .pool .look, .pool .look, .shutdown,
            .arrive 0 [0, 0, 0, 8, 2, 0, 0, 0, 0, 0, 1, 97, 0, 0, 0, 5, 6, 0, 0, 0, 3],
            .read 0, .read 0, .ask 1, .ask 0, .reply 1, .reply 0] = some (t, moments) ∧
        (received 0 moments).map Receipt.message =
          [.getRequest 0 "a", .authRequest "u" "p", .putRequest (-1) "a" [7], .getWhenRequest (-1) "a" "a" [8],
            .getRequest 0 "a", .putResponse 3] ∧
        t.outbox 0 =
          [.errorResponse 0 "authentication required", .authResponse .newUser,
            .errorResponse 0 "server is shutting down",
            .errorResponse (-1) "operation not supported by the ShardedHashMapBackend backend: get_when",
            .putResponse (-1)] ∧
        t.pool.jobs = [] ∧
        Answered (fun salt password => (salt, password)) (.sharded 1 (Store.Sharded.empty Nat.one_pos)) moments t := by
  have hr : (new 100 1 (Store.Backend.sharded 1 (Store.Sharded.empty Nat.one_pos))).run (fun salt password => (salt, password))
      [.connect,
        .arrive 0 [0, 0, 0, 8, 2, 0, 0, 0, 0, 0, 1, 97, 0, 0, 0, 7, 9, 0, 1, 117, 0, 1, 112],
        .read 0, .read 0, .apply 0, .sessions (.join 0), .sessions (.enter 0),
        .arrive 0 [0, 0, 0, 13, 1, 255, 255, 255, 255, 0, 1, 97, 0, 0, 0, 1, 7],
        .arrive 0 [0, 0, 0, 16, 5, 255, 255, 255, 255, 0, 1, 97, 0, 1, 97, 0, 0, 0, 1, 8],
        .read 0, .read 0, .pool .look, .pool .look, .shutdown,
        .arrive 0 [0, 0, 0, 8, 2, 0, 0, 0, 0, 0, 1, 97, 0, 0, 0, 5, 6, 0, 0, 0, 3],
        .read 0, .read 0, .ask 1, .ask 0, .reply 1, .reply 0] = some (_, _) := rfl
  exact ⟨_, _, hr, rfl, rfl, rfl, answered_of_run hr⟩

/-- The client goes away while it is told of its login, with a request behind it that the server has already received.
The request is carried out, and its reply gets no further than the writer that has stopped. -/
theorem answer_lost_after_break :
    ∃ (t : Service (Nat × String)) (moments : List (Moment (Nat × String) Store.Backend)),
      (new 100 1 (.simple .empty)).run (fun salt password => (salt, password))
          [.connect,
            .arrive 0 [0, 0, 0, 7, 9, 0, 1, 117, 0, 1, 112, 0, 0, 0, 13, 1, 0, 0, 0, 5, 0, 1, 97, 0, 0, 0, 1, 7],
            .read 0, .apply 0, .sessions (.join 0), .sessions (.enter 0), .writer 0 .write, .writer 0 .breakOff,
            .read 0, .pool .look, .ask 0, .reply 0] = some (t, moments) ∧
        t.pool.jobs = [] ∧ t.isWriting 0 = false ∧
        ¬((received 0 moments).filterMap Receipt.id?).Perm ((t.outbox 0).filterMap Message.requestId?) := by
  have hr : (new 100 1 (Store.Backend.simple .empty)).run (fun salt password => (salt, password))
      [.connect,
        .arrive 0 [0, 0, 0, 7, 9, 0, 1, 117, 0, 1, 112, 0, 0, 0, 13, 1, 0, 0, 0, 5, 0, 1, 97, 0, 0, 0, 1, 7],
        .read 0, .apply 0, .sessions (.join 0), .sessions (.enter 0), .writer 0 .write, .writer 0 .breakOff,
        .read 0, .pool .look, .ask 0, .reply 0] = some (_, _) := rfl
  refine ⟨_, _, hr, rfl, rfl, fun hp => ?_⟩
  have hlength : 1 = 0 := hp.length_eq
  cases hlength

end Run

end AwaitStore.Server.Service
