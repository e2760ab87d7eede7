import AwaitStore.Proofs.Server.Jobs
import AwaitStore.Proofs.Server.Staffing

namespace AwaitStore.Server.Pool

variable {p q : Pool}

/-- What the workers do of their own accord. When a job ends is up to the job. -/
def Step.isWorkers : Step → Bool
  | .look | .wake | .timeout _ => true
  | .submit _ | .finish _ | .shutdown => false

/-- A bound on what is left to do after a shutdown: a job is taken and ends, and its worker looks again. -/
def work (p : Pool) : Nat := 3 * p.queue.length + 2 * p.running.length + p.awake

theorem submit_eq (p : Pool) (job : Job) :
    p.submit job = if p.shutdown then .error .shutDown else .ok (p.grow.enqueue job) := by
  unfold submit refusal?
  cases p.shutdown <;> rfl

theorem shutdown_of_submit_error {job : Job} {e : PoolError} (h : p.submit job = .error e) : p.shutdown = true := by
  rw [submit_eq] at h
  split at h
  next hdown => exact hdown
  next => cases h

/-- Without a job a worker leaves or, unless the pool has been shut down, goes to sleep. -/
theorem look_of_nil (hq : p.queue = []) : ∃ threads retiring asleep,
    p.look = { p with threads, retiring, awake := p.awake - 1, asleep } ∧
      (asleep = p.asleep ∨ p.shutdown = false ∧ asleep = p.asleep + 1) := by
  rcases p.look_cases with ⟨job, rest, hc, -⟩ | ⟨-, ⟨-, he⟩ | ⟨-, -, he⟩ | ⟨-, hup, he⟩⟩
  · rw [hq] at hc
    cases hc
  · exact ⟨p.threads, p.retiring - 1, p.asleep, he, .inl rfl⟩
  · exact ⟨p.threads - 1, p.retiring, p.asleep, he, .inl rfl⟩
  · exact ⟨p.threads, p.retiring, p.asleep + 1, he, .inr ⟨hup, rfl⟩⟩

theorem wake_eq_some {a : Step} (ha : a = .wake ∨ ∃ due, a = .timeout due) (h : p.step a = some q) :
    p.asleep ≠ 0 ∧ p.live ≤ q.live ∧
      ∃ threads retiring awake asleep, q = { p with threads, retiring, awake, asleep } := by
  rcases ha with rfl | ⟨due, rfl⟩ <;> cases moves_of_step h
  next hne =>
    refine ⟨hne, ?_, _, _, _, _, rfl⟩
    simp only [live]
    omega
  next hne =>
    refine ⟨hne, ?_⟩
    dsimp only [shrinkIfNeeded]
    split
    · refine ⟨?_, _, _, _, _, rfl⟩
      simp only [live, notifyAll]
      omega
    · refine ⟨?_, _, _, _, _, rfl⟩
      simp only [live]
      omega

theorem shutdown_eq_some (h : p.step .shutdown = some q) :
    q.live = p.live ∧ q.asleep = 0 ∧ ∃ awake asleep, q = { p with awake, asleep, shutdown := true } := by
  cases h
  refine ⟨?_, rfl, _, _, rfl⟩
  simp only [live, notifyAll]
  omega

theorem length_erase_running {job : Job} (hj : job ∈ p.running) :
    (p.running.erase job).length + 1 = p.running.length := by
  have hpos := List.length_pos_of_mem hj
  rw [List.length_erase_of_mem hj]
  omega

def start? (p : Pool) : Step → Option Job
  | .look => p.queue.head?
  | .submit _ | .finish _ | .wake | .timeout _ | .shutdown => none

/-- A pool with what has become of the jobs submitted to it. `accepted` and `started` are in order. -/
structure Ledger where
  pool : Pool
  accepted : List Job
  refused : List Job
  started : List Job

namespace Ledger

variable {l m : Ledger}

def empty : Ledger := ⟨Pool.empty, [], [], []⟩

/-- Each submission is a job of its own, and a refused one leaves the pool as it is. -/
def step (l : Ledger) : Step → Option Ledger
  | .submit job =>
      if job ∈ l.accepted ++ l.refused then none
      else
        match l.pool.submit job with
        | .ok pool => some { l with pool, accepted := l.accepted ++ [job] }
        | .error _ => some { l with refused := l.refused ++ [job] }
  | a => (l.pool.step a).map fun pool => { l with pool, started := l.started ++ (l.pool.start? a).toList }

def run (l : Ledger) (steps : List Step) : Option Ledger := steps.foldlM step l

theorem step_submit {job : Job} (h : l.step (.submit job) = some m) :
    job ∉ l.accepted ++ l.refused ∧
      ((∃ pool, l.pool.submit job = .ok pool ∧ m = { l with pool, accepted := l.accepted ++ [job] }) ∨
        l.pool.shutdown = true ∧ m = { l with refused := l.refused ++ [job] }) := by
  simp only [step] at h
  split at h
  · cases h
  next hnew =>
    refine ⟨hnew, ?_⟩
    split at h
    next pool hs =>
      cases h
      exact .inl ⟨pool, hs, rfl⟩
    next e hs =>
      cases h
      exact .inr ⟨shutdown_of_submit_error hs, rfl⟩

theorem step_own {a : Step} (ha : ∀ job, a ≠ .submit job) (h : l.step a = some m) :
    ∃ pool, l.pool.step a = some pool ∧ m = { l with pool, started := l.started ++ (l.pool.start? a).toList } := by
  cases a with
  | submit job => exact absurd rfl (ha job)
  | look | finish job | wake | timeout due | shutdown =>
      simp only [step] at h
      obtain ⟨pool, hs, rfl⟩ := Option.map_eq_some_iff.mp h
      exact ⟨pool, hs, rfl⟩

theorem step_other {a : Step} (ha : l.pool.start? a = none) (hn : ∀ job, a ≠ .submit job) (h : l.step a = some m) :
    ∃ pool, l.pool.step a = some pool ∧ m = { l with pool } := by
  obtain ⟨pool, hs, rfl⟩ := step_own hn h
  exact ⟨pool, hs, by rw [ha, Option.toList_none, List.append_nil]⟩

structure Kept (l : Ledger) : Prop where
  staffed : l.pool.Staffed
  in_turn : l.started ++ l.pool.queue = l.accepted
  started : (l.pool.ended ++ l.pool.running).Perm l.started
  once : (l.accepted ++ l.refused).Nodup
  roused : l.pool.shutdown = true → l.pool.asleep = 0

theorem kept_empty : empty.Kept := ⟨staffed_empty, rfl, .refl _, List.nodup_nil, nofun⟩

theorem Kept.submit (h : l.Kept) {job : Job} (hs : l.step (.submit job) = some m) : m.Kept := by
  obtain ⟨hnew, ⟨pool, hok, rfl⟩ | ⟨hdown, rfl⟩⟩ := step_submit hs
  · obtain ⟨hqueue, hrunning, hended, hshutdown⟩ := submit_eq_ok hok
    refine ⟨h.staffed.submit hok, ?_, ?_, ?_, ?_⟩
    · change l.started ++ pool.queue = l.accepted ++ [job]
      rw [hqueue, ← List.append_assoc, h.in_turn]
    · change (pool.ended ++ pool.running).Perm l.started
      rw [hended, hrunning]
      exact h.started
    · change (l.accepted ++ [job] ++ l.refused).Nodup
      rw [List.append_assoc, List.singleton_append, List.nodup_middle]
      exact List.nodup_cons.mpr ⟨hnew, h.once⟩
    · intro hdown
      rw [show pool.shutdown = l.pool.shutdown from hshutdown] at hdown
      rw [submit_eq, if_pos hdown] at hok
      cases hok
  · refine ⟨h.staffed, h.in_turn, h.started, ?_, h.roused⟩
    change (l.accepted ++ (l.refused ++ [job])).Nodup
    rw [← List.append_assoc, ← List.concat_eq_append]
    exact h.once.concat hnew

theorem Kept.look (h : l.Kept) (hs : l.step .look = some m) : m.Kept := by
  obtain ⟨pool, hp, rfl⟩ := step_own (by simp) hs
  have hstaffed := h.staffed.step hp
  cases moves_of_step hp
  have hturn := h.in_turn
  rcases l.pool.look_cases with ⟨job, rest, hq, he⟩ | ⟨hq, -⟩
  · rw [hq] at hturn
    refine ⟨hstaffed, ?_, ?_, h.once, ?_⟩ <;> simp only [he, start?, hq, List.head?_cons, Option.toList_some]
    · rw [List.append_assoc, List.singleton_append, hturn]
    · rw [← List.append_assoc]
      exact h.started.append_right [job]
    · exact h.roused
  · obtain ⟨threads, retiring, asleep, he, hasleep⟩ := look_of_nil hq
    rw [hq] at hturn
    refine ⟨hstaffed, ?_, ?_, h.once, ?_⟩ <;>
      simp only [he, start?, hq, List.head?_nil, Option.toList_none, List.append_nil]
    · rw [← hturn, List.append_nil]
    · exact h.started
    · intro hdown
      rcases hasleep with rfl | ⟨hup, -⟩
      · exact h.roused hdown
      · rw [hdown] at hup
        cases hup

theorem Kept.step (h : l.Kept) {a : Step} (hs : l.step a = some m) : m.Kept := by
  cases a with
  | submit job => exact h.submit hs
  | look => exact h.look hs
  | finish job =>
      obtain ⟨pool, hp, rfl⟩ := step_other rfl (by simp) hs
      have hstaffed := h.staffed.step hp
      obtain ⟨hj, rfl⟩ := finish_eq_some hp
      refine ⟨hstaffed, h.in_turn, ?_, h.once, h.roused⟩
      change (l.pool.ended ++ [job] ++ l.pool.running.erase job).Perm l.started
      rw [List.append_assoc]
      exact ((List.perm_cons_erase hj).symm.append_left _).trans h.started
  | wake | timeout due =>
      obtain ⟨pool, hp, rfl⟩ := step_other rfl (by simp) hs
      have hstaffed := h.staffed.step hp
      obtain ⟨hne, -, threads, retiring, awake, asleep, rfl⟩ := wake_eq_some (by simp) hp
      exact ⟨hstaffed, h.in_turn, h.started, h.once, fun hdown => absurd (h.roused hdown) hne⟩
  | shutdown =>
      obtain ⟨pool, hp, rfl⟩ := step_other rfl (by simp) hs
      have hstaffed := h.staffed.step hp
      obtain ⟨-, hasleep, awake, asleep, rfl⟩ := shutdown_eq_some hp
      exact ⟨hstaffed, h.in_turn, h.started, h.once, fun _ => hasleep⟩

theorem Kept.run (h : l.Kept) {steps : List Step} (hr : l.run steps = some m) : m.Kept := by
  induction steps generalizing l with
  | nil =>
      cases hr
      exact h
  | cons a rest ih =>
      obtain ⟨k, hs, hr⟩ := Option.bind_eq_some_iff.mp hr
      exact ih (h.step hs) hr

end Ledger

/-- Once it has been shut down, whatever the workers do and whenever a job ends, less is left to do. -/
theorem work_step (hdown : p.shutdown = true) (hasleep : p.asleep = 0) {a : Step}
    (ha : a.isWorkers = true ∨ ∃ job, a = .finish job) (h : p.step a = some q) :
    q.work < p.work ∧ q.shutdown = true ∧ q.asleep = 0 := by
  rcases ha with ha | ⟨job, rfl⟩
  · cases a with
    | look =>
        cases moves_of_step h
        rcases p.look_cases with ⟨job, rest, hq, he⟩ | ⟨hq, -⟩
        · rw [he]
          refine ⟨?_, hdown, hasleep⟩
          simp only [work, hq, List.length_append, List.length_cons, List.length_nil]
          omega
        · obtain ⟨threads, retiring, asleep, he, hsleep⟩ := look_of_nil hq
          rw [he]
          refine ⟨?_, hdown, ?_⟩
          · simp only [work]
            omega
          · rcases hsleep with rfl | ⟨hup, -⟩
            · exact hasleep
            · rw [hdown] at hup
              cases hup
    | wake | timeout due => exact absurd hasleep (wake_eq_some (by simp) h).1
    | submit job | finish job | shutdown => cases ha
  · obtain ⟨hj, rfl⟩ := finish_eq_some h
    refine ⟨?_, hdown, hasleep⟩
    have hlen := length_erase_running hj
    simp only [work, finish]
    omega

theorem work_run (hdown : p.shutdown = true) (hasleep : p.asleep = 0) {more : List Step}
    (ha : ∀ a ∈ more, a.isWorkers = true ∨ ∃ job, a = .finish job) (h : p.run more = some q) :
    more.length + q.work ≤ p.work := by
  induction more generalizing p with
  | nil =>
      cases h
      simp
  | cons a rest ih =>
      obtain ⟨r, hs, hr⟩ := Option.bind_eq_some_iff.mp h
      obtain ⟨hless, hdown', hasleep'⟩ := work_step hdown hasleep (ha a List.mem_cons_self) hs
      have hrest := ih hdown' hasleep' (fun b hb => ha b (List.mem_cons_of_mem a hb)) hr
      rw [List.length_cons]
      omega

theorem live_submit {job : Job} (h : p.submit job = .ok q) : p.live ≤ q.live := by
  have hgrow : p.live ≤ p.grow.live := by
    unfold grow
    split
    · simp only [live]
      omega
    · exact Nat.le_refl _
  have hnotify (r : Pool) : r.notifyOne.live = r.live := by
    unfold notifyOne
    split
    · rfl
    · simp only [live]
      omega
  rw [submit_eq] at h
  split at h
  · cases h
  · cases h
    rw [enqueue, hnotify]
    exact hgrow

theorem queue_eq_nil_of_live_lt {a : Step} (h : p.step a = some q) (hlt : q.live < p.live) : p.queue = [] := by
  cases moves_of_step h with
  | submitted hs => exact absurd hlt (Nat.not_lt_of_le (live_submit hs))
  | looked hawake =>
      rcases p.look_cases with ⟨job, rest, hq, he⟩ | ⟨hq, -⟩
      · rw [he] at hlt
        simp only [live, List.length_append, List.length_cons, List.length_nil] at hlt
        omega
      · exact hq
  | finished hj =>
      have hlen := length_erase_running hj
      simp only [live, finish] at hlt
      omega
  | woken | timedOut => exact absurd hlt (Nat.not_lt_of_le (wake_eq_some (by simp) h).2.1)
  | closed => exact absurd hlt (Nat.not_lt_of_le (Nat.le_of_eq (shutdown_eq_some h).1.symm))

theorem Staffed.drained (h : p.Staffed) (hstill : ∀ a : Step, a.isWorkers = true → p.step a = none)
    (hidle : p.running = []) :
    p.queue = [] ∧ p.live = 0 ∧ p.threads = 0 ∧ p.busy = 0 ∧ p.retiring = 0 := by
  have hawake : p.awake = 0 := by simpa [Pool.step] using hstill .look rfl
  have hasleep : p.asleep = 0 := by simpa [Pool.step] using hstill .wake rfl
  obtain ⟨hl, hb, -, hq⟩ := h
  have hqueue : p.queue = [] := List.eq_nil_of_length_eq_zero (by omega)
  have hlive : p.live = 0 := by simp [live, hawake, hasleep, hidle]
  have hbusy : p.busy = 0 := by rw [hb, hqueue, hidle]; rfl
  exact ⟨hqueue, hlive, by omega, hbusy, by omega⟩

/-- What holds of the jobs at any time, and how a pool ends that has been shut down. -/
structure Ledger.Complete (l : Ledger) : Prop where
  /-- Every accepted job is in one place. -/
  split : (l.pool.queue ++ l.pool.running ++ l.pool.ended).Perm l.accepted
  apart : (l.pool.queue ++ l.pool.running ++ l.pool.ended).Nodup
  started : (l.pool.running ++ l.pool.ended).Perm l.started
  /-- The jobs start in the order of their submissions. -/
  in_turn : l.started ++ l.pool.queue = l.accepted
  refused : ∀ job ∈ l.refused, job ∉ l.pool.queue ++ l.pool.running ++ l.pool.ended
  closed : l.pool.shutdown = true → ∀ job, job ∉ l.accepted ++ l.refused →
    l.step (.submit job) = some { l with refused := l.refused ++ [job] }
  stays : ∀ a q, l.pool.step a = some q → l.pool.queue ≠ [] → l.pool.live ≤ q.live
  /-- After a shutdown the workers and the ends of the jobs come to an end by themselves. -/
  tires : l.pool.shutdown = true → ∀ (more : List Step) (q : Pool),
    (∀ a ∈ more, a.isWorkers = true ∨ ∃ job, a = .finish job) → l.pool.run more = some q →
      more.length ≤ l.pool.work
  drained : (∀ a : Step, a.isWorkers = true → l.pool.step a = none) → l.pool.running = [] →
    l.pool.ended.Perm l.accepted ∧ l.pool.live = 0 ∧
      l.pool.threads = 0 ∧ l.pool.busy = 0 ∧ l.pool.retiring = 0

theorem Ledger.Kept.complete {l : Ledger} (h : l.Kept) : l.Complete := by
  have hstarted : (l.pool.running ++ l.pool.ended).Perm l.started := List.perm_append_comm.trans h.started
  have hsplit : (l.pool.queue ++ l.pool.running ++ l.pool.ended).Perm l.accepted := by
    rw [List.append_assoc, ← h.in_turn]
    exact List.perm_append_comm.trans (hstarted.append_right _)
  obtain ⟨honce, -, hapart⟩ := List.nodup_append.mp h.once
  refine ⟨hsplit, hsplit.nodup_iff.mpr honce, hstarted, h.in_turn, ?_, ?_, ?_, ?_, ?_⟩
  · intro job hjob hmem
    exact hapart job (hsplit.subset hmem) job hjob rfl
  · intro hdown job hnew
    simp only [Ledger.step, if_neg hnew, submit_eq, if_pos hdown]
  · intro a q hs hne
    exact Nat.le_of_not_lt fun hlt => hne (queue_eq_nil_of_live_lt hs hlt)
  · intro hdown more q ha hr
    exact Nat.le_of_add_right_le (work_run hdown (h.roused hdown) ha hr)
  · intro hstill hidle
    obtain ⟨hqueue, hlive, hcounts⟩ := h.staffed.drained hstill hidle
    rw [hqueue, hidle] at hsplit
    exact ⟨hsplit, hlive, hcounts⟩

/-- In every order of submissions, looks, ends, wake-ups, shrinks and a shutdown each accepted job is run once, and in
turn; a shutdown loses none. -/
theorem complete_of_run {steps : List Step} {l : Ledger} (h : Ledger.empty.run steps = some l) : l.Complete :=
  (Ledger.kept_empty.run h).complete

/-- The shutdown finds a job that runs, one in the queue and two workers that are to be retired. The job that comes
after it is refused, the others end, and the workers leave. -/
theorem complete_of_run_shut_down :
    ∃ l, Ledger.empty.run [.submit 1, .submit 2, .submit 3, .submit 4, .look, .look, .look, .look, .finish 3, .finish 2,
          .finish 4, .look, .look, .look, .timeout true, .submit 5, .shutdown, .submit 6, .look, .finish 1, .look,
          .look, .look, .finish 5, .look] = some l ∧
      l.accepted = [1, 2, 3, 4, 5] ∧ l.refused = [6] ∧ l.pool.ended = [3, 2, 4, 1, 5] ∧ l.pool.live = 0 ∧ l.Complete :=
  have hr : Ledger.empty.run [.submit 1, .submit 2, .submit 3, .submit 4, .look, .look, .look, .look, .finish 3,
      .finish 2, .finish 4, .look, .look, .look, .timeout true, .submit 5, .shutdown, .submit 6, .look, .finish 1,
      .look, .look, .look, .finish 5, .look] =
      some ⟨⟨[], [], [3, 2, 4, 1, 5], 0, 0, 0, 0, 0, true⟩, [1, 2, 3, 4, 5], [6], [1, 2, 3, 4, 5]⟩ := by rfl
  ⟨_, hr, rfl, rfl, rfl, rfl, complete_of_run hr⟩

end AwaitStore.Server.Pool
