import AwaitStore.Proofs.Calls
import AwaitStore.Proofs.Server.History
import AwaitStore.Proofs.Server.Strain

namespace AwaitStore.Server

open Wire (Message RequestId)

namespace Pool

variable {p q : Pool}

def jobs (p : Pool) : List Job := p.queue ++ p.running

theorem notifyOne_eq (p : Pool) : ∃ awake asleep, p.notifyOne = { p with awake, asleep } := by
  unfold notifyOne
  split
  · exact ⟨p.awake, p.asleep, rfl⟩
  · exact ⟨_, _, rfl⟩

theorem grow_eq (p : Pool) : ∃ threads awake, p.grow = { p with threads, awake } := by
  unfold grow
  split
  · exact ⟨_, _, rfl⟩
  · exact ⟨p.threads, p.awake, rfl⟩

theorem enqueue_eq (p : Pool) (job : Job) : ∃ awake asleep,
    p.enqueue job = { p with queue := p.queue ++ [job], busy := p.busy + 1, awake, asleep } :=
  notifyOne_eq _

theorem submit_eq_ok {strain : Option String} {job : Job} (h : p.submit job strain = .ok q) :
    q.queue = p.queue ++ [job] ∧ q.running = p.running ∧ q.ended = p.ended ∧ q.shutdown = p.shutdown := by
  unfold submit at h
  split at h
  · cases h
  · cases h
    split
    next =>
      obtain ⟨threads, awake, hg⟩ := p.grow_eq
      obtain ⟨up, down, hn⟩ := p.grow.enqueue_eq job
      rw [hn, hg]
      exact ⟨rfl, rfl, rfl, rfl⟩
    next =>
      obtain ⟨up, down, hn⟩ := p.enqueue_eq job
      rw [hn]
      exact ⟨rfl, rfl, rfl, rfl⟩

theorem jobs_own {a : Step} (own : a = .look ∨ a = .wake ∨ ∃ due, a = .timeout due) (h : p.step a = some q) :
    q.jobs.Perm p.jobs ∧ ∀ job ∈ p.running, job ∈ q.running := by
  rcases own with rfl | rfl | ⟨due, rfl⟩ <;> cases moves_of_step h
  · rcases p.look_cases with ⟨job, rest, hq, he⟩ | ⟨-, ⟨-, he⟩ | ⟨-, -, he⟩ | ⟨-, -, he⟩⟩ <;> rw [he]
    · rw [jobs, jobs, hq, ← List.append_assoc]
      exact ⟨List.perm_append_singleton _ _, fun _ hm => List.mem_append_left _ hm⟩
    · exact ⟨.refl _, fun _ hm => hm⟩
    · exact ⟨.refl _, fun _ hm => hm⟩
    · exact ⟨.refl _, fun _ hm => hm⟩
  · exact ⟨.refl _, fun _ hm => hm⟩
  · dsimp only [shrinkIfNeeded]
    split
    · exact ⟨.refl _, fun _ hm => hm⟩
    · exact ⟨.refl _, fun _ hm => hm⟩

end Pool

namespace Task

def accept (t : Task) : Task := { t with stage := .accepted }

theorem accept_learn (job : Job) (returns : List Return) (t : Task) : (t.learn job returns).accept = t.accept := by
  obtain ⟨stage, he⟩ := t.learn_eq job returns
  rw [he]
  rfl

theorem job_learn (job : Job) (returns : List Return) (t : Task) : (t.learn job returns).job = t.job := by
  obtain ⟨stage, he⟩ := t.learn_eq job returns
  rw [he]

theorem note_stage (t : Task) (ret : Return) :
    (t.note ret).stage = t.stage ∨ (t.job = ret.call ∧ t.stage = .asked ∧ (t.note ret).stage = .answered ret.outcome) := by
  obtain ⟨job, i, id, op, stage⟩ := t
  cases stage with
  | asked =>
      by_cases hj : job = ret.call
      · exact .inr ⟨hj, rfl, by simp [note, hj]⟩
      · exact .inl (by simp [note, hj])
  | accepted | answered => exact .inl rfl

theorem learn_stage (job : Job) (returns : List Return) (t : Task) :
    ((t.learn job returns).stage = .accepted ↔ t.stage = .accepted ∧ t.job ≠ job) ∧
      ∀ outcome, (t.learn job returns).stage = .answered outcome →
        (t.stage = .answered outcome ∧ t.job ≠ job) ∨ ⟨t.job, outcome⟩ ∈ returns := by
  unfold learn
  induction returns using List.reverseRecOn with
  | nil =>
      rw [List.foldl_nil]
      split
      next hj => simp [hj]
      next hj => simp [hj]
  | append_singleton returns ret ih =>
      rw [List.foldl_append, List.foldl_cons, List.foldl_nil]
      have hjob : (returns.foldl note (if t.job = job then { t with stage := .asked } else t)).job = t.job :=
        t.job_learn job returns
      rcases note_stage (returns.foldl note (if t.job = job then { t with stage := .asked } else t)) ret with
        he | ⟨hcall, hasked, he⟩
      · rw [he]
        refine ⟨ih.1, fun outcome ho => ?_⟩
        rcases ih.2 outcome ho with hold | hnew
        · exact .inl hold
        · exact .inr (List.mem_append_left _ hnew)
      · rw [he]
        rw [hasked] at ih
        have hnot : ¬(t.stage = .accepted ∧ t.job ≠ job) := fun hh => by cases ih.1.mpr hh
        refine ⟨iff_of_false (fun h => by cases h) hnot, fun outcome ho => ?_⟩
        cases ho
        rw [hjob] at hcall
        rw [hcall]
        exact .inr (by simp)

end Task

namespace Service

variable {δ σ : Type}

namespace Receipt

variable {s : Service δ σ} {i : Nat} {m : Message} {x : Standing} {id : RequestId} {op : Operation}

def isLoggedIn (r : Receipt δ σ) : Bool := (r.before.standing r.connection).any Standing.isLoggedIn

def task? (r : Receipt δ σ) : Option Task :=
  match Operation.ofRequest? r.message with
  | none => none
  | some (id, op) =>
      if r.isLoggedIn && (r.before.pool.refusal? r.before.strain).isNone then some ⟨r.before.accepted, r.connection, id, op, .accepted⟩
      else none

theorem isLoggedIn_eq (h : s.standing i = some x) : isLoggedIn ⟨s, i, m⟩ = x.isLoggedIn := by
  rw [isLoggedIn, h, Option.any_some]

theorem task?_of_no_request (hm : Operation.ofRequest? m = none) : task? ⟨s, i, m⟩ = none := by
  simp only [task?, hm]

theorem task?_of_stranger (h : s.standing i = some .stranger) : task? ⟨s, i, m⟩ = none := by
  unfold task?
  rw [isLoggedIn_eq h]
  split <;> rfl

theorem task?_of_refusal (h : (s.pool.refusal? s.strain).isSome) : task? ⟨s, i, m⟩ = none := by
  unfold task?
  rw [Option.isNone_eq_false_iff.mpr h, Bool.and_false]
  split <;> rfl

theorem task?_of_loggedIn {login : Login} (h : s.standing i = some (.loggedIn login))
    (hm : Operation.ofRequest? m = some (id, op)) (ha : s.pool.refusal? s.strain = none) :
    task? ⟨s, i, m⟩ = some ⟨s.accepted, i, id, op, .accepted⟩ := by
  have hin : isLoggedIn ⟨s, i, m⟩ = true := isLoggedIn_eq h
  simp [task?, hm, hin, ha]

end Receipt

def dispatched (moments : List (Moment δ σ)) : List Task := (receipts moments).filterMap Receipt.task?

def consulted? : Moment δ σ → Option (Job × Operation)
  | (s, .ask job) => (s.tasks.find? fun t => t.job == job).map fun t => (job, t.operation)
  | _ => none

def consulted (moments : List (Moment δ σ)) : List (Job × Operation) := moments.filterMap consulted?

section Snoc

variable {moments : List (Moment δ σ)} {s : Service δ σ} {a : Step} {i : Nat} {m : Message}

theorem dispatched_snoc_none (h : s.taken? a = none) : dispatched (moments ++ [(s, a)]) = dispatched moments := by
  rw [dispatched, receipts_snoc_none h, dispatched]

theorem dispatched_snoc_some (h : s.taken? a = some (i, m)) :
    dispatched (moments ++ [(s, a)]) = dispatched moments ++ (Receipt.task? ⟨s, i, m⟩).toList := by
  rw [dispatched, receipts_snoc_some h, List.filterMap_append, dispatched, List.append_cancel_left_eq,
    List.filterMap_cons]
  cases Receipt.task? ⟨s, i, m⟩ <;> rfl

theorem consulted_snoc_none (h : ∀ job, a ≠ .ask job) : consulted (moments ++ [(s, a)]) = consulted moments := by
  have he : consulted? (s, a) = none := by
    cases a with
    | ask job => exact absurd rfl (h job)
    | _ => rfl
  simp [consulted, he]

theorem consulted_snoc_ask {task : Task} (h : s.tasks.find? (fun t => t.job == task.job) = some task) :
    consulted (moments ++ [(s, .ask task.job)]) = consulted moments ++ [(task.job, task.operation)] := by
  simp [consulted, consulted?, h]

end Snoc

/-- What the tasks of a server, its pool and its store have to do with the run that led to it. -/
structure Booked [Database σ] (store : σ) (moments : List (Moment δ σ)) (v : View δ σ) : Prop where
  numbered : (dispatched moments).map Task.job = List.range v.accepted
  tasks : v.tasks.map Task.accept = (dispatched moments).filter fun t => t.job ∉ (ended moments).map Prod.fst
  ended_nodup : ((ended moments).map Prod.fst).Nodup
  pool : v.pool.jobs.Perm (v.tasks.map Task.job)
  running : ∀ t ∈ v.tasks, t.stage ≠ .accepted → t.job ∈ v.pool.running
  store_eq : v.store = (Database.consult store (consulted moments)).1
  consulted_nodup : ((consulted moments).map Prod.fst).Nodup
  of_consulted : ∀ ask ∈ consulted moments, ∃ t ∈ dispatched moments, t.job = ask.1 ∧ t.operation = ask.2
  accepted_iff : ∀ t ∈ v.tasks, t.stage = .accepted ↔ t.job ∉ (consulted moments).map Prod.fst
  of_answered : ∀ t ∈ v.tasks, ∀ outcome, t.stage = .answered outcome →
    ⟨t.job, outcome⟩ ∈ (Database.consult store (consulted moments)).2
  of_ended : ∀ e ∈ ended moments,
    e.1 ∈ (consulted moments).map Prod.fst ∧ ⟨e.1, e.2⟩ ∈ (Database.consult store (consulted moments)).2

section Booked

variable [Database σ] {store : σ} {moments : List (Moment δ σ)} {v w : View δ σ} {s : Service δ σ} {a : Step}

theorem booked_new {maxFrame slots : Nat} : Booked store [] (new maxFrame slots store : Service δ σ).view where
  numbered := rfl
  tasks := rfl
  ended_nodup := List.nodup_nil
  pool := .nil
  running := by
    intro t ht
    cases ht
  store_eq := rfl
  consulted_nodup := List.nodup_nil
  of_consulted := by
    intro ask hask
    cases hask
  accepted_iff := by
    intro t ht
    cases ht
  of_answered := by
    intro t ht
    cases ht
  of_ended := by
    intro e he
    cases he

/-- The jobs of the tasks are the numbers that have been given out and whose jobs have not ended. -/
theorem Booked.jobs_eq (h : Booked store moments v) :
    v.tasks.map Task.job = (List.range v.accepted).filter fun job => job ∉ (ended moments).map Prod.fst := by
  rw [← h.numbered, List.filter_map]
  have hjob : v.tasks.map Task.job = (v.tasks.map Task.accept).map Task.job := by
    rw [List.map_map]
    rfl
  rw [hjob, h.tasks]
  rfl

theorem Booked.jobs_nodup (h : Booked store moments v) : (v.tasks.map Task.job).Nodup := by
  rw [h.jobs_eq]
  exact List.nodup_range.filter _

theorem Booked.consulted_lt (h : Booked store moments v) {job : Job} (hj : job ∈ (consulted moments).map Prod.fst) :
    job < v.accepted := by
  obtain ⟨ask, hask, rfl⟩ := List.mem_map.mp hj
  obtain ⟨t, ht, he, -⟩ := h.of_consulted ask hask
  have hm := List.mem_map_of_mem (f := Task.job) ht
  rw [h.numbered, he] at hm
  exact List.mem_range.mp hm

theorem Booked.keep (h : Booked store moments s.view) (hd : dispatched (moments ++ [(s, a)]) = dispatched moments)
    (hc : ∀ job, a ≠ .ask job) (hr : ∀ job, a ≠ .reply job) (ht : w.tasks = s.tasks)
    (ha : w.accepted = s.accepted) (hst : w.store = s.store) (hp : w.pool.jobs.Perm s.pool.jobs)
    (hrun : ∀ job ∈ s.pool.running, job ∈ w.pool.running) : Booked store (moments ++ [(s, a)]) w := by
  have he : ended (moments ++ [(s, a)]) = ended moments := ended_snoc_none hr
  have hcons : consulted (moments ++ [(s, a)]) = consulted moments := consulted_snoc_none hc
  constructor
  · rw [hd, ha]
    exact h.numbered
  · rw [hd, he, ht]
    exact h.tasks
  · rw [he]
    exact h.ended_nodup
  · rw [ht]
    exact hp.trans h.pool
  · rw [ht]
    exact fun t hm hne => hrun _ (h.running t hm hne)
  · rw [hcons, hst]
    exact h.store_eq
  · rw [hcons]
    exact h.consulted_nodup
  · rw [hcons, hd]
    exact h.of_consulted
  · rw [hcons, ht]
    exact h.accepted_iff
  · rw [hcons, ht]
    exact h.of_answered
  · rw [hcons, he]
    exact h.of_ended

theorem Booked.mem_dispatched (h : Booked store moments v) {t : Task} (ht : t ∈ v.tasks) :
    t.accept ∈ dispatched moments ∧ t.job ∉ (ended moments).map Prod.fst := by
  have hm := List.mem_map_of_mem (f := Task.accept) ht
  rw [h.tasks, List.mem_filter, decide_eq_true_eq] at hm
  exact hm

theorem Booked.dispatch (h : Booked store moments v) {moments' : List (Moment δ σ)} {i : Nat} {id : RequestId}
    {op : Operation} {pool : Pool} (hd : dispatched moments' = dispatched moments ++ [⟨v.accepted, i, id, op, .accepted⟩])
    (he : ended moments' = ended moments) (hc : consulted moments' = consulted moments)
    (hp : v.pool.submit v.accepted v.strain = .ok pool) :
    Booked store moments' { v with
      pool
      accepted := v.accepted + 1
      tasks := v.tasks ++ [⟨v.accepted, i, id, op, .accepted⟩] } := by
  obtain ⟨hqueue, hrunning, -, -⟩ := Pool.submit_eq_ok hp
  have hfresh : v.accepted ∉ (consulted moments).map Prod.fst := fun hm => Nat.lt_irrefl _ (h.consulted_lt hm)
  have hlasting : v.accepted ∉ (ended moments).map Prod.fst := by
    intro hm
    obtain ⟨e, hm, heq⟩ := List.mem_map.mp hm
    exact hfresh (heq ▸ (h.of_ended e hm).1)
  constructor
  · rw [hd, List.map_append, h.numbered, List.range_succ]
    rfl
  · rw [hd, he, List.map_append, List.filter_append, h.tasks]
    simp [Task.accept, hlasting]
  · rw [he]
    exact h.ended_nodup
  · rw [Pool.jobs, hqueue, hrunning, List.map_append, List.append_assoc]
    exact (List.perm_middle.trans (List.perm_append_singleton _ _).symm).trans (h.pool.append_right _)
  · intro t ht hne
    rw [hrunning]
    rcases List.mem_append.mp ht with ht | ht
    · exact h.running t ht hne
    · cases List.mem_singleton.mp ht
      exact absurd rfl hne
  · rw [hc]
    exact h.store_eq
  · rw [hc]
    exact h.consulted_nodup
  · rw [hc, hd]
    intro ask hask
    obtain ⟨t, ht, heq⟩ := h.of_consulted ask hask
    exact ⟨t, List.mem_append_left _ ht, heq⟩
  · rw [hc]
    intro t ht
    rcases List.mem_append.mp ht with ht | ht
    · exact h.accepted_iff t ht
    · cases List.mem_singleton.mp ht
      exact iff_of_true rfl hfresh
  · rw [hc]
    intro t ht outcome ho
    rcases List.mem_append.mp ht with ht | ht
    · exact h.of_answered t ht outcome ho
    · cases List.mem_singleton.mp ht
      cases ho
  · rw [hc, he]
    exact h.of_ended

theorem Booked.ask (h : Booked store moments v) {moments' : List (Moment δ σ)} {task : Task} (ht : task ∈ v.tasks)
    (hstage : task.stage = .accepted) (hrun : task.job ∈ v.pool.running)
    (hd : dispatched moments' = dispatched moments) (he : ended moments' = ended moments)
    (hc : consulted moments' = consulted moments ++ [(task.job, task.operation)]) :
    Booked store moments' { v with
      store := (Database.perform task.job task.operation v.store).1
      tasks := v.tasks.map (Task.learn task.job (Database.perform task.job task.operation v.store).2) } := by
  have hconsult : Database.consult store (consulted moments') =
      ((Database.perform task.job task.operation v.store).1,
        (Database.consult store (consulted moments)).2 ++ (Database.perform task.job task.operation v.store).2) := by
    rw [hc, Database.consult_snoc, ← h.store_eq]
  have hasked : (consulted moments').map Prod.fst = (consulted moments).map Prod.fst ++ [task.job] := by
    rw [hc, List.map_append]
    rfl
  constructor
  · rw [hd]
    exact h.numbered
  · rw [hd, he, ← h.tasks, List.map_map]
    exact List.map_congr_left fun t _ => t.accept_learn _ _
  · rw [he]
    exact h.ended_nodup
  · have hjobs : (Task.job ∘ Task.learn task.job (Database.perform task.job task.operation v.store).2) = Task.job := by
      funext t
      exact t.job_learn _ _
    rw [List.map_map, hjobs]
    exact h.pool
  · intro t hm hne
    obtain ⟨old, hold, rfl⟩ := List.mem_map.mp hm
    rw [old.job_learn]
    rw [Ne, (old.learn_stage _ _).1] at hne
    by_cases hj : old.job = task.job
    · exact hj ▸ hrun
    · exact h.running old hold fun hs => hne ⟨hs, hj⟩
  · rw [hconsult]
  · rw [hasked, List.nodup_append_comm, List.singleton_append, List.nodup_cons]
    exact ⟨(h.accepted_iff task ht).mp hstage, h.consulted_nodup⟩
  · rw [hc, hd]
    intro ask hask
    rcases List.mem_append.mp hask with hask | hask
    · exact h.of_consulted ask hask
    · cases List.mem_singleton.mp hask
      exact ⟨task.accept, (h.mem_dispatched ht).1, rfl, rfl⟩
  · intro t hm
    obtain ⟨old, hold, rfl⟩ := List.mem_map.mp hm
    rw [(old.learn_stage _ _).1, old.job_learn, h.accepted_iff old hold, hasked, List.mem_append, List.mem_singleton,
      not_or]
  · rw [hconsult]
    intro t hm outcome ho
    obtain ⟨old, hold, rfl⟩ := List.mem_map.mp hm
    rw [old.job_learn]
    rcases (old.learn_stage _ _).2 outcome ho with ⟨hs, -⟩ | hnew
    · exact List.mem_append_left _ (h.of_answered old hold outcome hs)
    · exact List.mem_append_right _ hnew
  · rw [hconsult, hasked, he]
    intro e hm
    exact ⟨List.mem_append_left _ (h.of_ended e hm).1, List.mem_append_left _ (h.of_ended e hm).2⟩

theorem Booked.reply (h : Booked store moments v) {moments' : List (Moment δ σ)} {task : Task} {outcome : Outcome}
    {pool : Pool} (ht : task ∈ v.tasks) (hstage : task.stage = .answered outcome)
    (hp : v.pool.step (.finish task.job) = some pool) (hd : dispatched moments' = dispatched moments)
    (he : ended moments' = ended moments ++ [(task.job, outcome)]) (hc : consulted moments' = consulted moments) :
    Booked store moments' { v with pool, tasks := v.tasks.filter fun t => t.job != task.job } := by
  obtain ⟨hrun, rfl⟩ := Pool.finish_eq_some hp
  have hover : (ended moments').map Prod.fst = (ended moments).map Prod.fst ++ [task.job] := by
    rw [he, List.map_append]
    rfl
  constructor
  · rw [hd]
    exact h.numbered
  · have haccept : (v.tasks.filter fun t => t.job != task.job).map Task.accept =
        (v.tasks.map Task.accept).filter fun t => t.job != task.job := by
      rw [List.filter_map]
      rfl
    rw [hd, hover, haccept, h.tasks, List.filter_filter]
    refine List.filter_congr fun t _ => ?_
    rw [Bool.eq_iff_iff]
    simp only [Bool.and_eq_true, bne_iff_ne, decide_eq_true_eq, List.mem_append, List.mem_singleton, not_or]
    exact and_comm
  · rw [hover, List.nodup_append_comm, List.singleton_append, List.nodup_cons]
    exact ⟨(h.mem_dispatched ht).2, h.ended_nodup⟩
  · have hjobs : (v.tasks.filter fun t => t.job != task.job).map Task.job = (v.tasks.map Task.job).erase task.job := by
      rw [h.jobs_nodup.erase_eq_filter, List.filter_map]
      rfl
    have hnodup : (v.pool.queue ++ v.pool.running).Nodup := h.pool.nodup_iff.mpr h.jobs_nodup
    have hnot : task.job ∉ v.pool.queue := fun hq => List.disjoint_of_nodup_append hnodup hq hrun
    have hfinished : (v.pool.finish task.job).jobs = v.pool.jobs.erase task.job :=
      (List.erase_append_right _ hnot).symm
    rw [hjobs, hfinished]
    exact h.pool.erase task.job
  · intro t hm hne
    obtain ⟨hm, hj⟩ := List.mem_filter.mp hm
    exact (List.mem_erase_of_ne (by simpa using hj)).mpr (h.running t hm hne)
  · rw [hc]
    exact h.store_eq
  · rw [hc]
    exact h.consulted_nodup
  · rw [hc, hd]
    exact h.of_consulted
  · rw [hc]
    exact fun t hm => h.accepted_iff t (List.mem_filter.mp hm).1
  · rw [hc]
    exact fun t hm => h.of_answered t (List.mem_filter.mp hm).1
  · rw [he, hc]
    intro e hm
    rcases List.mem_append.mp hm with hm | hm
    · exact h.of_ended e hm
    · cases List.mem_singleton.mp hm
      refine ⟨?_, h.of_answered task ht outcome hstage⟩
      by_contra hnot
      have haccepted := (h.accepted_iff task ht).mpr hnot
      rw [hstage] at haccepted
      cases haccepted

end Booked

section Run

variable [DecidableEq δ] [Database σ] {digest : Nat → String → δ} {maxFrame slots : Nat} {store : σ}
  {moments : List (Moment δ σ)} {s : Service δ σ} {w : View δ σ} {a : Step} {k : Option (Nat × Message)}

theorem Booked.change (h : Booked store moments s.view) (hk : s.taken? a = k) (hs : Change digest s.view k a w) :
    Booked store (moments ++ [(s, a)]) w := by
  have hread {i : Nat} {m : Message} (hk : s.taken? a = some (i, m)) (hnone : Receipt.task? ⟨s, i, m⟩ = none) :
      dispatched (moments ++ [(s, a)]) = dispatched moments := by
    rw [dispatched_snoc_some hk, hnone]
    exact List.append_nil _
  cases hs with
  | connected | arrived | hungUp | strangerLeft | userLeft | refused | applied | joined | released | entered | turnedAway
  | unheld | gaveUp | abandoned | wrote | strained =>
      exact h.keep (dispatched_snoc_none hk) (by simp) (by simp) rfl rfl rfl (.refl _) fun _ hj => hj
  | shutDown hm =>
      cases hm
      exact h.keep (dispatched_snoc_none hk) (by simp) (by simp) rfl rfl rfl (.refl _) fun _ hj => hj
  | worked own hm =>
      obtain ⟨hp, hr⟩ := Pool.jobs_own own hm
      exact h.keep (dispatched_snoc_none hk) (by simp) (by simp) rfl rfl rfl hp hr
  | ignored _ _ hreply =>
      exact h.keep (hread hk (Receipt.task?_of_no_request hreply.1)) (by simp) (by simp) rfl rfl rfl (.refl _)
        fun _ hj => hj
  | loggedInTwice | wrongPassword | admitted =>
      exact h.keep (hread hk (Receipt.task?_of_no_request rfl)) (by simp) (by simp) rfl rfl rfl (.refl _)
        fun _ hj => hj
  | unauthenticated hi =>
      exact h.keep (hread hk (Receipt.task?_of_stranger hi)) (by simp) (by simp) rfl rfl rfl (.refl _)
        fun _ hj => hj
  | shutOut _ _ hrefusal =>
      exact h.keep (hread hk (Receipt.task?_of_refusal hrefusal)) (by simp) (by simp) rfl rfl rfl (.refl _)
        fun _ hj => hj
  | dispatched hi hm ha hp =>
      refine h.dispatch ?_ (ended_snoc_none (by simp)) (consulted_snoc_none (by simp)) hp
      rw [dispatched_snoc_some hk, Receipt.task?_of_loggedIn hi hm ha]
      rfl
  | asked hf hstage hrun =>
      exact h.ask (List.mem_of_find?_eq_some hf) hstage hrun (dispatched_snoc_none hk) (ended_snoc_none (by simp))
        (consulted_snoc_ask hf)
  | replied hf hstage hp =>
      have hb := h.reply (List.mem_of_find?_eq_some hf) hstage hp (dispatched_snoc_none hk)
        (ended_snoc_reply hf hstage) (consulted_snoc_none (by simp))
      exact ⟨hb.numbered, hb.tasks, hb.ended_nodup, hb.pool, hb.running, hb.store_eq, hb.consulted_nodup, hb.of_consulted,
        hb.accepted_iff, hb.of_answered, hb.of_ended⟩

theorem booked_run {t : Service δ σ} {steps : List Step}
    (h : (new maxFrame slots store).run digest steps = some (t, moments)) : Booked store moments t.view :=
  run_induction (P := Booked store) booked_new (fun _ _ _ _ _ _ _ hP hk hs => hP.change hk hs) h

theorem manned_run {t : Service δ σ} {steps : List Step}
    (h : (new maxFrame slots store).run digest steps = some (t, moments)) : t.pool.Manned := by
  refine run_induction (P := fun _ v => v.pool.Manned) Pool.staffed_empty.manned ?_ h
  intro _ _ s a k w _ hP _ hs
  cases hs with
  | dispatched _ _ _ hp => exact Pool.Manned.submit hP hp
  | worked _ hm => exact Pool.Manned.step hP hm
  | replied _ _ hm => exact Pool.Manned.step hP hm
  | shutDown hm => exact Pool.Manned.step hP hm
  | _ => exact hP

theorem staffed_run {t : Service δ σ} {steps : List Step}
    (h : (new maxFrame slots store).run digest steps = some (t, moments)) (hu : ∀ m ∈ moments, m.1.strain = none) :
    t.pool.Staffed := by
  refine run_induction (P := fun moments v => (∀ m ∈ moments, m.1.strain = none) → v.pool.Staffed)
    (fun _ => Pool.staffed_empty) ?_ h hu
  intro _ moments s a k w _ hP _ hs hu
  obtain ⟨hbefore, hnow⟩ := List.forall_mem_append.mp hu
  have hnone : s.strain = none := hnow _ (List.mem_singleton_self _)
  replace hP : s.pool.Staffed := hP hbefore
  cases hs with
  | dispatched _ _ _ hp =>
      change s.pool.submit s.accepted s.strain = _ at hp
      rw [hnone] at hp
      exact hP.submit hp
  | worked _ hm => exact hP.step hm
  | replied _ _ hm => exact hP.step hm
  | shutDown hm => exact hP.step hm
  | _ => exact hP

end Run

end Service

end AwaitStore.Server
