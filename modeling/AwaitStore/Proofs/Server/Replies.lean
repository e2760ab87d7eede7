import AwaitStore.Proofs.Server.Jobs

namespace AwaitStore.Server.Service

open Wire (AuthStatus Message RequestId)

variable {δ σ : Type}

def Receipt.id? (r : Receipt δ σ) : Option RequestId := r.message.id?

/-- The reply to a request, as far as there is one when these jobs have ended. -/
def Receipt.reply? (ended : List (Job × Outcome)) (r : Receipt δ σ) : Option Message :=
  match Operation.ofRequest? r.message with
  | none => none
  | some (id, _) =>
      if !r.isLoggedIn then some (.errorResponse id authenticationRequired)
      else if (r.before.pool.refusal? r.before.strain).isSome then some (.errorResponse id shuttingDown)
      else (ended.lookup r.before.accepted).map (Outcome.reply id)

def status? : Message → Option AuthStatus
  | .authResponse status => some status
  | _ => none

def statuses (messages : List Message) : List AuthStatus := messages.filterMap status?

theorem status?_reply (id : RequestId) (outcome : Outcome) : status? (outcome.reply id) = none := by
  match outcome with
  | .ok .stored | .ok (.value _) | .ok (.values _) | .error _ => rfl

theorem requestId?_reply (id : RequestId) (outcome : Outcome) : (outcome.reply id).requestId? = some id := by
  match outcome with
  | .ok .stored | .ok (.value _) | .ok (.values _) | .error _ => rfl

theorem id?_eq (m : Message) : m.id? = (Operation.ofRequest? m).map Prod.fst := by cases m <;> rfl

namespace Receipt

variable {r : Receipt δ σ} {t : Task}

theorem reply?_of_no_request (h : Operation.ofRequest? r.message = none) (ended : List (Job × Outcome)) :
    r.reply? ended = none := by
  simp only [reply?, h]

theorem reply?_of_stranger {id : RequestId} {op : Operation} (h : Operation.ofRequest? r.message = some (id, op))
    (hin : r.isLoggedIn = false) (ended : List (Job × Outcome)) :
    r.reply? ended = some (.errorResponse id authenticationRequired) := by
  simp [reply?, h, hin]

theorem reply?_of_refusal {id : RequestId} {op : Operation} (h : Operation.ofRequest? r.message = some (id, op))
    (hin : r.isLoggedIn = true) (hr : (r.before.pool.refusal? r.before.strain).isSome) (ended : List (Job × Outcome)) :
    r.reply? ended = some (.errorResponse id shuttingDown) := by
  simp [reply?, h, hin, hr]

theorem task?_cases (r : Receipt δ σ) :
    (∃ t, r.task? = some t ∧ t.connection = r.connection ∧ r.id? = some t.id ∧
        ∀ ended, r.reply? ended = (ended.lookup t.job).map (Outcome.reply t.id)) ∨
      (r.task? = none ∧ ∃ reply, (∀ ended, r.reply? ended = reply) ∧
        r.id? = reply.bind Message.requestId?) := by
  unfold id? task? reply?
  rw [id?_eq]
  cases hm : Operation.ofRequest? r.message with
  | none => exact .inr ⟨rfl, none, fun _ => rfl, rfl⟩
  | some request =>
      obtain ⟨id, op⟩ := request
      cases hin : r.isLoggedIn with
      | false => exact .inr ⟨rfl, _, fun _ => rfl, rfl⟩
      | true =>
          cases hr : r.before.pool.refusal? r.before.strain with
          | some e => exact .inr ⟨rfl, _, fun _ => rfl, rfl⟩
          | none => exact .inl ⟨_, rfl, rfl, rfl, fun _ => rfl⟩

end Receipt

section Ended

variable {ended : List (Job × Outcome)} {job : Job} {outcome : Outcome}

theorem lookup_of_not_mem (hj : job ∉ ended.map Prod.fst) : ended.lookup job = none := by
  rw [List.lookup_eq_none_iff]
  intro e hm
  rw [bne_iff_ne]
  rintro rfl
  exact hj (List.mem_map_of_mem hm)

theorem lookup_of_mem (hj : job ∈ ended.map Prod.fst) : ∃ outcome, ended.lookup job = some outcome := by
  obtain ⟨e, hm, rfl⟩ := List.mem_map.mp hj
  rw [← Option.isSome_iff_exists, List.lookup_isSome_iff]
  exact ⟨e, hm, beq_self_eq_true _⟩

theorem lookup_snoc (hj : job ∉ ended.map Prod.fst) (other : Job) :
    (ended ++ [(job, outcome)]).lookup other = if other = job then some outcome else ended.lookup other := by
  rw [List.lookup_append]
  split
  next he =>
    rw [he, lookup_of_not_mem hj]
    simp
  next he =>
    have hnone : [(job, outcome)].lookup other = none := lookup_of_not_mem (by simpa using he)
    rw [hnone, Option.or_none]

theorem replies_snoc (hj : job ∉ ended.map Prod.fst) (outcome : Outcome) (received : List (Receipt δ σ)) :
    (received.filterMap (Receipt.reply? (ended ++ [(job, outcome)]))).Perm
      (received.filterMap (Receipt.reply? ended) ++
        ((received.filterMap Receipt.task?).filter fun t => t.job = job).map fun t => outcome.reply t.id) := by
  induction received with
  | nil => exact .nil
  | cons r received ih =>
      rcases r.task?_cases with ⟨t, ht, -, -, hr⟩ | ⟨ht, reply, hr, -⟩
      · rw [List.filterMap_cons_some ht, List.filter_cons]
        by_cases hjob : t.job = job
        · have hbefore : r.reply? ended = none := by
            rw [hr, hjob, lookup_of_not_mem hj]
            rfl
          have hafter : r.reply? (ended ++ [(job, outcome)]) = some (outcome.reply t.id) := by
            rw [hr, lookup_snoc hj, if_pos hjob]
            rfl
          rw [List.filterMap_cons_some hafter, List.filterMap_cons_none hbefore, if_pos (by simpa using hjob),
            List.map_cons]
          exact (ih.cons _).trans List.perm_middle.symm
        · have hsame : r.reply? (ended ++ [(job, outcome)]) = r.reply? ended := by
            rw [hr, hr, lookup_snoc hj, if_neg hjob]
          rw [if_neg (by simpa using hjob), List.filterMap_cons, List.filterMap_cons, hsame]
          cases r.reply? ended with
          | none => exact ih
          | some reply => exact ih.cons reply
      · rw [List.filterMap_cons_none ht, List.filterMap_cons, List.filterMap_cons, hr, hr]
        cases reply with
        | none => exact ih
        | some reply => exact ih.cons reply

/-- Of the ids of the requests each one has been sent back or is that of a task whose job has not ended. -/
theorem ids_perm (received : List (Receipt δ σ)) :
    (received.filterMap Receipt.id?).Perm
      ((received.filterMap (Receipt.reply? ended)).filterMap Message.requestId? ++
        ((received.filterMap Receipt.task?).filter fun t => t.job ∉ ended.map Prod.fst).map Task.id) := by
  induction received with
  | nil => exact .nil
  | cons r received ih =>
      rcases r.task?_cases with ⟨t, ht, -, hid, hr⟩ | ⟨ht, reply, hr, hid⟩
      · rw [List.filterMap_cons_some hid, List.filterMap_cons_some ht, List.filter_cons]
        by_cases hjob : t.job ∈ ended.map Prod.fst
        · obtain ⟨outcome, ho⟩ := lookup_of_mem hjob
          have hreply : r.reply? ended = some (outcome.reply t.id) := by
            rw [hr, ho]
            rfl
          rw [List.filterMap_cons_some hreply, List.filterMap_cons_some (requestId?_reply _ _),
            if_neg (by simpa using hjob)]
          exact ih.cons t.id
        · have hreply : r.reply? ended = none := by
            rw [hr, lookup_of_not_mem hjob]
            rfl
          rw [List.filterMap_cons_none hreply, if_pos (by simpa using hjob), List.map_cons]
          exact (ih.cons t.id).trans List.perm_middle.symm
      · rw [List.filterMap_cons_none ht, List.filterMap_cons, List.filterMap_cons, hid, hr]
        cases reply with
        | none => exact ih
        | some reply =>
            rw [Option.bind_some, List.filterMap_cons]
            cases reply.requestId? with
            | none => exact ih
            | some id => exact ih.cons id

end Ended

/-- All that a connection has been sent are replies to what it has received, one for each, and the ends of logins. -/
def Settled (received : List (Receipt δ σ)) (ended : List (Job × Outcome)) (sent : List Message) : Prop :=
  sent.Perm (received.filterMap (Receipt.reply? ended) ++ (statuses sent).map Message.authResponse)

namespace Settled

variable {received : List (Receipt δ σ)} {ended : List (Job × Outcome)} {sent : List Message} {r : Receipt δ σ}
  {job : Job} {outcome : Outcome}

theorem status (h : Settled received ended sent) (status : AuthStatus) :
    Settled received ended (sent ++ [.authResponse status]) := by
  rw [Settled, statuses, List.filterMap_append, List.map_append, ← List.append_assoc]
  exact h.append_right _

theorem quiet (h : Settled received ended sent) (hr : r.reply? ended = none) :
    Settled (received ++ [r]) ended sent := by
  rw [Settled, List.filterMap_append, List.filterMap_cons_none hr, List.filterMap_nil, List.append_nil]
  exact h

theorem append_reply (h : sent.Perm (received.filterMap (Receipt.reply? ended) ++ (statuses sent).map .authResponse))
    {reply : Message} (hreply : status? reply = none) {now : List Message}
    (hnow : now.Perm (received.filterMap (Receipt.reply? ended) ++ [reply])) :
    (sent ++ [reply]).Perm (now ++ (statuses (sent ++ [reply])).map .authResponse) := by
  rw [statuses, List.filterMap_append, List.filterMap_cons_none hreply, List.filterMap_nil, List.append_nil]
  refine (h.append_right _).trans (.trans ?_ (hnow.symm.append_right _))
  rw [List.append_assoc, List.append_assoc]
  exact List.perm_append_comm.append_left _

theorem answer (h : Settled received ended sent) {reply : Message} (hr : r.reply? ended = some reply)
    (hreply : status? reply = none) : Settled (received ++ [r]) ended (sent ++ [reply]) := by
  refine append_reply h hreply ?_
  rw [List.filterMap_append, List.filterMap_cons_some hr]
  exact .refl _

theorem finish (h : Settled received ended sent) (hj : job ∉ ended.map Prod.fst) (outcome : Outcome) {t : Task}
    (ht : ((received.filterMap Receipt.task?).filter fun t => t.job = job) = [t]) :
    Settled received (ended ++ [(job, outcome)]) (sent ++ [outcome.reply t.id]) := by
  refine append_reply h (status?_reply _ _) ?_
  have hs := replies_snoc hj outcome received
  rw [ht] at hs
  exact hs

theorem finish_other (h : Settled received ended sent) (hj : job ∉ ended.map Prod.fst) (outcome : Outcome)
    (ht : ((received.filterMap Receipt.task?).filter fun t => t.job = job) = []) :
    Settled received (ended ++ [(job, outcome)]) sent := by
  have hs := replies_snoc hj outcome received
  rw [ht, List.map_nil, List.append_nil] at hs
  exact h.trans (hs.symm.append_right _)

theorem ids (h : Settled received ended sent) : (received.filterMap Receipt.id?).Perm
    (sent.filterMap Message.requestId? ++
      ((received.filterMap Receipt.task?).filter fun t => t.job ∉ ended.map Prod.fst).map Task.id) := by
  have hnone : ((statuses sent).map Message.authResponse).filterMap Message.requestId? = [] := by
    rw [List.filterMap_map, List.filterMap_eq_nil_iff]
    exact fun _ _ => rfl
  have hids := h.filterMap Message.requestId?
  rw [List.filterMap_append, hnone, List.append_nil] at hids
  exact (ids_perm received).trans (hids.symm.append_right _)

end Settled

def Replied (moments : List (Moment δ σ)) (v : View δ σ) : Prop :=
  ∀ i, Settled (received i moments) (ended moments) (v.sent i)

theorem replied_new {maxFrame slots : Nat} {store : σ} : Replied [] (new maxFrame slots store : Service δ σ).view :=
  fun _ => .nil

theorem tasks_received (i : Nat) (moments : List (Moment δ σ)) :
    (received i moments).filterMap Receipt.task? = (dispatched moments).filter fun t => t.connection = i := by
  rw [received, dispatched, List.filterMap_filter, List.filter_filterMap]
  refine List.filterMap_congr fun r _ => ?_
  rcases r.task?_cases with ⟨t, ht, hc, -⟩ | ⟨ht, -⟩
  · rw [ht, ← hc]
    simp [Option.filter_some]
  · rw [ht]
    simp

section Change

variable [DecidableEq δ] [Database σ] {digest : Nat → String → δ} {maxFrame slots : Nat} {store : σ}
  {moments : List (Moment δ σ)} {s : Service δ σ} {w : View δ σ} {a : Step} {k : Option (Nat × Message)} {i : Nat}
  {m : Message}

omit [DecidableEq δ] [Database σ] in
theorem Replied.keep (h : Replied moments s.view) (hk : s.taken? a = none) (hr : ∀ job, a ≠ .reply job)
    (hout : w.sent = s.sent) : Replied (moments ++ [(s, a)]) w := by
  intro i
  rw [received_snoc_none hk, ended_snoc_none hr, hout]
  exact h i

omit [DecidableEq δ] [Database σ] in
theorem Replied.report (h : Replied moments s.view) (hk : s.taken? a = none) (hr : ∀ job, a ≠ .reply job)
    {status : AuthStatus} (hout : w.sent = Function.update s.sent i (s.sent i ++ [.authResponse status])) :
    Replied (moments ++ [(s, a)]) w := by
  intro j
  rw [received_snoc_none hk, ended_snoc_none hr, hout]
  by_cases hj : j = i
  · subst hj
    rw [Function.update_self]
    exact (h j).status status
  · rw [Function.update_of_ne hj]
    exact h j

omit [DecidableEq δ] [Database σ] in
theorem Replied.hear (h : Replied moments s.view) (hk : s.taken? a = some (i, m)) (hr : ∀ job, a ≠ .reply job)
    {sent : List Message} (hout : w.sent = Function.update s.sent i sent)
    (hs : Settled (received i moments ++ [⟨s, i, m⟩]) (ended moments) sent) : Replied (moments ++ [(s, a)]) w := by
  intro j
  rw [ended_snoc_none hr, hout]
  by_cases hj : j = i
  · subst hj
    rw [received_snoc_self hk, Function.update_self]
    exact hs
  · rw [received_snoc_of_ne hk (Ne.symm hj), Function.update_of_ne hj]
    exact h j

omit [DecidableEq δ] in
theorem Booked.tasks_of_job (h : Booked store moments s.view) {task : Task} (ht : task ∈ s.tasks) (i : Nat) :
    (((received i moments).filterMap Receipt.task?).filter fun t => t.job = task.job) =
      if i = task.connection then [task.accept] else [] := by
  have hmem : task.accept ∈ dispatched moments := (h.mem_dispatched ht).1
  have hnodup : ((dispatched moments).map Task.job).Nodup := by
    rw [h.numbered]
    exact List.nodup_range
  have hsingle : ((dispatched moments).filter fun t => t.job = task.job) = [task.accept] := by
    obtain ⟨front, back, he⟩ := List.append_of_mem hmem
    rw [he, List.map_append, List.map_cons, List.nodup_middle, List.nodup_cons, ← List.map_append, List.mem_map] at hnodup
    have hnone {l : List Task} (hl : ∀ t ∈ l, t ∈ front ++ back) : (l.filter fun t => t.job = task.job) = [] := by
      rw [List.filter_eq_nil_iff]
      intro t hm hj
      exact hnodup.1 ⟨t, hl t hm, of_decide_eq_true hj⟩
    have hown : decide (task.accept.job = task.job) = true := decide_eq_true rfl
    rw [he, List.filter_append, List.filter_cons, if_pos hown,
      hnone (fun _ => List.mem_append_left _), hnone (fun _ => List.mem_append_right _), List.nil_append]
  rw [tasks_received, List.filter_filter]
  have hcomm : (fun t : Task => decide (t.job = task.job) && decide (t.connection = i)) =
      fun t => decide (t.connection = i) && decide (t.job = task.job) := by
    funext t
    exact Bool.and_comm _ _
  rw [hcomm, ← List.filter_filter, hsingle]
  by_cases hi : i = task.connection
  · have hown : decide (task.accept.connection = i) = true := decide_eq_true hi.symm
    rw [if_pos hi, List.filter_cons, if_pos hown, List.filter_nil]
  · have hnot : ¬decide (task.accept.connection = i) = true := fun hd => hi (of_decide_eq_true hd).symm
    rw [if_neg hi, List.filter_cons, if_neg hnot, List.filter_nil]

theorem Replied.change (hb : Booked store moments s.view) (h : Replied moments s.view) (hk : s.taken? a = k)
    (hs : Change digest s.view k a w) : Replied (moments ++ [(s, a)]) w := by
  have hself (i : Nat) : s.sent = Function.update s.sent i (s.sent i) := (Function.update_eq_self i s.sent).symm
  cases hs with
  | connected | arrived | hungUp | strangerLeft | userLeft | applied | joined | released | unheld | gaveUp | abandoned
  | worked | asked | strained | shutDown => exact h.keep hk (by simp) rfl
  | wrote moved => exact h.keep hk (by simp) (View.sent_wrote moved)
  | refused | entered | turnedAway => exact h.report hk (by simp) (View.sent_send _ _ _)
  | @ignored i _ _ _ _ hreply =>
      exact h.hear hk (by simp) (hself i) ((h i).quiet (Receipt.reply?_of_no_request hreply.1 _))
  | @admitted i =>
      exact h.hear hk (by simp) (hself i) ((h i).quiet (Receipt.reply?_of_no_request rfl _))
  | @loggedInTwice i =>
      exact h.hear hk (by simp) (View.sent_send _ _ _) (((h i).quiet (Receipt.reply?_of_no_request rfl _)).status _)
  | @wrongPassword i =>
      exact h.hear hk (by simp) (View.sent_send _ _ _) (((h i).quiet (Receipt.reply?_of_no_request rfl _)).status _)
  | @unauthenticated i m id op hi hm =>
      refine h.hear hk (by simp) (View.sent_send _ _ _) ((h i).answer ?_ rfl)
      exact Receipt.reply?_of_stranger hm (Receipt.isLoggedIn_eq hi) _
  | @shutOut i m id op login hi hm hrefusal =>
      refine h.hear hk (by simp) (View.sent_send _ _ _) ((h i).answer ?_ rfl)
      exact Receipt.reply?_of_refusal hm (Receipt.isLoggedIn_eq hi) hrefusal _
  | @dispatched i m id op login pool hi hm ha hp =>
      refine h.hear hk (by simp) (hself i) ((h i).quiet ?_)
      have ht := Receipt.task?_of_loggedIn hi hm ha
      have hfresh : s.accepted ∉ (ended moments).map Prod.fst := by
        intro hmem
        obtain ⟨e, he, heq⟩ := List.mem_map.mp hmem
        have hlt := hb.consulted_lt (hb.of_ended e he).1
        rw [heq] at hlt
        exact Nat.lt_irrefl _ hlt
      rcases Receipt.task?_cases ⟨s, i, m⟩ with ⟨t, ht', -, -, hr⟩ | ⟨hnone, -⟩
      · obtain rfl := Option.some.inj (ht.symm.trans ht')
        rw [hr, lookup_of_not_mem hfresh]
        rfl
      · rw [ht] at hnone
        cases hnone
  | @replied task outcome pool hf hstage hp =>
      have ht := List.mem_of_find?_eq_some hf
      have hj := (hb.mem_dispatched ht).2
      intro i
      rw [received_snoc_none hk, ended_snoc_reply hf hstage]
      have htasks := hb.tasks_of_job ht i
      rw [View.sent_send]
      change Settled _ _ (Function.update s.sent task.connection _ i)
      by_cases hi : i = task.connection
      · rw [if_pos hi] at htasks
        rw [hi, Function.update_self]
        have hfinish := (h i).finish hj outcome htasks
        rw [hi] at hfinish
        exact hfinish
      · rw [if_neg hi] at htasks
        rw [Function.update_of_ne hi]
        exact (h i).finish_other hj outcome htasks

theorem replied_run {t : Service δ σ} {steps : List Step}
    (h : (new maxFrame slots store).run digest steps = some (t, moments)) : Replied moments t.view := by
  refine run_induction (P := Replied) replied_new ?_ h
  intro steps moments s a k w hr hP hk hs
  exact hP.change (booked_run hr) hk hs

end Change

end AwaitStore.Server.Service
