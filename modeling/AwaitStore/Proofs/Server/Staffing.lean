import AwaitStore.Server.Pool

namespace AwaitStore.Server.Pool

def run (p : Pool) (steps : List Step) : Option Pool := steps.foldlM step p

/-- What a step finds and what it leads to. -/
inductive Moves (p : Pool) : Step → Pool → Prop
  | submitted {job : Job} {q : Pool} (accepted : p.submit job = .ok q) : Moves p (.submit job) q
  | looked (awake : p.awake ≠ 0) : Moves p .look p.look
  | finished {job : Job} (running : job ∈ p.running) : Moves p (.finish job) (p.finish job)
  | woken (asleep : p.asleep ≠ 0) : Moves p .wake { p with asleep := p.asleep - 1, awake := p.awake + 1 }
  | timedOut {due : Bool} (asleep : p.asleep ≠ 0) :
      Moves p (.timeout due) ({ p with asleep := p.asleep - 1, awake := p.awake + 1 }.shrinkIfNeeded due)
  | closed : Moves p .shutdown { p with shutdown := true }.notifyAll

theorem moves_of_step {p q : Pool} {a : Step} (h : p.step a = some q) : p.Moves a q := by
  cases a with
  | submit job =>
      cases hs : p.submit job with
      | error e => simp [step, hs, Except.toOption] at h
      | ok r =>
          obtain rfl : r = q := by simpa [step, hs, Except.toOption] using h
          exact .submitted hs
  | look =>
      obtain ⟨ha, ⟨⟩⟩ := Option.ite_none_left_eq_some.mp h
      exact .looked ha
  | finish job =>
      obtain ⟨hj, ⟨⟩⟩ := Option.ite_none_right_eq_some.mp h
      exact .finished (List.contains_iff_mem.mp hj)
  | wake =>
      obtain ⟨ha, ⟨⟩⟩ := Option.ite_none_left_eq_some.mp h
      exact .woken ha
  | timeout due =>
      obtain ⟨ha, ⟨⟩⟩ := Option.ite_none_left_eq_some.mp h
      exact .timedOut ha
  | shutdown =>
      cases h
      exact .closed

theorem finish_eq_some {p q : Pool} {job : Job} (h : p.step (.finish job) = some q) :
    job ∈ p.running ∧ q = p.finish job := by
  cases moves_of_step h with
  | finished hj => exact ⟨hj, rfl⟩

/-- A worker that looks takes the first job, if there is one. Without a job it retires, exits or goes to sleep. -/
theorem look_cases (p : Pool) :
    (∃ job rest, p.queue = job :: rest ∧
        p.look = { p with queue := rest, running := p.running ++ [job], awake := p.awake - 1 }) ∨
      p.queue = [] ∧
        (0 < p.retiring ∧ p.look = { p with retiring := p.retiring - 1, awake := p.awake - 1 } ∨
          p.retiring = 0 ∧ p.shutdown = true ∧ p.look = { p with threads := p.threads - 1, awake := p.awake - 1 } ∨
          p.retiring = 0 ∧ p.shutdown = false ∧ p.look = { p with awake := p.awake - 1, asleep := p.asleep + 1 }) := by
  unfold look
  split
  next job rest hq => exact .inl ⟨job, rest, hq, rfl⟩
  next hq =>
    refine .inr ⟨hq, ?_⟩
    split
    next hret => exact .inl ⟨hret, rfl⟩
    next hret =>
      replace hret := Nat.eq_zero_of_not_pos hret
      split
      next hdown => exact .inr (.inl ⟨hret, hdown, rfl⟩)
      next hup => exact .inr (.inr ⟨hret, by simpa using hup, rfl⟩)

structure Staffed (p : Pool) : Prop where
  live_eq : p.live = p.threads + p.retiring
  busy_eq : p.busy = p.queue.length + p.running.length
  busy_le : p.busy ≤ p.threads
  queued_le : p.queue.length ≤ p.awake

theorem staffed_empty : Staffed empty := ⟨rfl, rfl, Nat.le_refl 0, Nat.le_refl 0⟩

theorem Staffed.notifyAll {p : Pool} (h : p.Staffed) : p.notifyAll.Staffed := by
  obtain ⟨hl, hb, hle, hq⟩ := h
  refine ⟨?_, hb, hle, Nat.le_add_right_of_le hq⟩
  simp only [Pool.notifyAll, live] at hl ⊢
  omega

theorem Staffed.grow {p : Pool} (h : p.Staffed) : p.grow.Staffed ∧ p.grow.busy < p.grow.threads := by
  obtain ⟨hl, hb, hle, hq⟩ := h
  unfold Pool.grow
  split
  next hfull =>
    refine ⟨⟨?_, hb, Nat.le_succ_of_le hle, Nat.le_succ_of_le hq⟩, Nat.lt_succ_of_le hle⟩
    simp only [live] at hl ⊢
    omega
  next hspare => exact ⟨⟨hl, hb, hle, hq⟩, Nat.lt_of_not_le hspare⟩

theorem Staffed.enqueue {p : Pool} (h : p.Staffed) (hlt : p.busy < p.threads) (job : Job) :
    { p with queue := p.queue ++ [job], busy := p.busy + 1 }.notifyOne.Staffed := by
  obtain ⟨hl, hb, hle, hq⟩ := h
  have hlen : (p.queue ++ [job]).length = p.queue.length + 1 := List.length_append
  simp only [live] at hl
  unfold notifyOne
  split
  next hnone =>
    replace hnone : p.asleep = 0 := hnone
    refine ⟨hl, ?_, hlt, ?_⟩
    · change p.busy + 1 = (p.queue ++ [job]).length + p.running.length
      omega
    · change (p.queue ++ [job]).length ≤ p.awake
      omega
  next hsome =>
    replace hsome : p.asleep ≠ 0 := hsome
    refine ⟨?_, ?_, hlt, ?_⟩
    · change p.awake + 1 + (p.asleep - 1) + p.running.length = p.threads + p.retiring
      omega
    · change p.busy + 1 = (p.queue ++ [job]).length + p.running.length
      omega
    · change (p.queue ++ [job]).length ≤ p.awake + 1
      omega

theorem Staffed.submit {p q : Pool} (h : p.Staffed) {job : Job} (hs : p.submit job = .ok q) : q.Staffed := by
  simp only [Pool.submit] at hs
  split at hs
  · cases hs
  · cases hs
    exact h.grow.1.enqueue h.grow.2 job

theorem Staffed.look {p : Pool} (h : p.Staffed) (ha : p.awake ≠ 0) : p.look.Staffed := by
  obtain ⟨hl, hb, hle, hq⟩ := h
  simp only [live] at hl
  rcases p.look_cases with ⟨job, rest, hc, he⟩ | ⟨hc, ⟨hret, he⟩ | ⟨hret, -, he⟩ | ⟨-, -, he⟩⟩ <;> rw [he]
  · rw [hc, List.length_cons] at hb hq
    have hlen : (p.running ++ [job]).length = p.running.length + 1 := List.length_append
    refine ⟨?_, ?_, hle, ?_⟩
    · change p.awake - 1 + p.asleep + (p.running ++ [job]).length = p.threads + p.retiring
      omega
    · change p.busy = rest.length + (p.running ++ [job]).length
      omega
    · change rest.length ≤ p.awake - 1
      omega
  · refine ⟨?_, hb, hle, by simp [hc]⟩
    change p.awake - 1 + p.asleep + p.running.length = p.threads + (p.retiring - 1)
    omega
  · rw [hc, List.length_nil] at hb
    refine ⟨?_, by simpa [hc] using hb, ?_, by simp [hc]⟩
    · change p.awake - 1 + p.asleep + p.running.length = p.threads - 1 + p.retiring
      omega
    · change p.busy ≤ p.threads - 1
      omega
  · refine ⟨?_, hb, hle, by simp [hc]⟩
    change p.awake - 1 + (p.asleep + 1) + p.running.length = p.threads + p.retiring
    omega

theorem Staffed.finish {p : Pool} (h : p.Staffed) {job : Job} (hj : job ∈ p.running) :
    (p.finish job).Staffed := by
  obtain ⟨hl, hb, hle, hq⟩ := h
  have hpos := List.length_pos_of_mem hj
  have hlen : (p.running.erase job).length = p.running.length - 1 := List.length_erase_of_mem hj
  simp only [live] at hl
  refine ⟨?_, ?_, ?_, Nat.le_succ_of_le hq⟩
  · change p.awake + 1 + p.asleep + (p.running.erase job).length = p.threads + p.retiring
    omega
  · change p.busy - 1 = p.queue.length + (p.running.erase job).length
    omega
  · exact Nat.le_trans (Nat.sub_le p.busy 1) hle

theorem Staffed.wake {p : Pool} (h : p.Staffed) (ha : p.asleep ≠ 0) :
    { p with asleep := p.asleep - 1, awake := p.awake + 1 }.Staffed := by
  obtain ⟨hl, hb, hle, hq⟩ := h
  refine ⟨?_, hb, hle, Nat.le_succ_of_le hq⟩
  simp only [live] at hl ⊢
  omega

/-- More than half of the workers have nothing to do when half of them are retired. -/
theorem Staffed.shrinkIfNeeded {p : Pool} (h : p.Staffed) (due : Bool) : (p.shrinkIfNeeded due).Staffed := by
  dsimp only [Pool.shrinkIfNeeded]
  split
  next hcut =>
    have hfew : p.busy < p.threads / 2 := by simpa using (Bool.and_eq_true_iff.mp hcut).2
    obtain ⟨hl, hb, hle, hq⟩ := h
    apply notifyAll
    refine ⟨?_, hb, ?_, hq⟩
    · simp only [live] at hl ⊢
      omega
    · change p.busy ≤ p.threads - p.threads / 2
      omega
  next => exact h

theorem Staffed.step {p q : Pool} (h : p.Staffed) {a : Step} (hs : p.step a = some q) : q.Staffed := by
  cases moves_of_step hs with
  | submitted hj => exact h.submit hj
  | looked ha => exact h.look ha
  | finished hj => exact h.finish hj
  | woken ha => exact h.wake ha
  | timedOut ha => exact (h.wake ha).shrinkIfNeeded _
  | closed => exact notifyAll ⟨h.live_eq, h.busy_eq, h.busy_le, h.queued_le⟩

theorem Staffed.run {p q : Pool} (h : p.Staffed) {steps : List Step} (hr : p.run steps = some q) :
    q.Staffed := by
  induction steps generalizing p with
  | nil =>
      cases hr
      exact h
  | cons a rest ih =>
      obtain ⟨r, hs, hr⟩ := Option.bind_eq_some_iff.mp hr
      exact ih (h.step hs) hr

/-- A worker that looks finds nothing to do and is one of those to be retired. -/
def retires (p : Pool) : Bool := p.queue.isEmpty && p.retiring > 0

def exits (p : Pool) : Bool := p.queue.isEmpty && p.retiring == 0 && p.shutdown

/-- What a step takes from a counter was in it, so no difference is cut off at zero. -/
structure Exact (p : Pool) : Prop where
  finish : ∀ job q, p.step (.finish job) = some q → q.busy + 1 = p.busy
  look : ∀ q, p.step .look = some q →
    q.threads + p.exits.toNat = p.threads ∧ q.retiring + p.retires.toNat = p.retiring ∧ q.busy = p.busy
  timeout : ∀ due q, p.step (.timeout due) = some q →
    q.threads + (q.retiring - p.retiring) = p.threads ∧ p.retiring ≤ q.retiring ∧ p.busy ≤ q.threads

theorem Staffed.exact {p : Pool} (h : p.Staffed) : p.Exact where
  finish := by
    intro job q hs
    obtain ⟨hj, rfl⟩ := finish_eq_some hs
    have hpos := List.length_pos_of_mem hj
    have hb := h.busy_eq
    change p.busy - 1 + 1 = p.busy
    omega
  look := by
    intro q hs
    obtain ⟨hl, hb, hle, hq⟩ := h
    simp only [live] at hl
    cases moves_of_step hs with
    | looked ha =>
        rcases p.look_cases with ⟨job, rest, hc, he⟩ | ⟨hc, ⟨hret, he⟩ | ⟨hret, hdown, he⟩ | ⟨hret, hup, he⟩⟩ <;> rw [he]
        · have hexits : p.exits = false := by simp [exits, hc]
          have hretires : p.retires = false := by simp [retires, hc]
          rw [hexits, hretires]
          exact ⟨rfl, rfl, rfl⟩
        · have hexits : p.exits = false := by simp [exits, Nat.ne_of_gt hret]
          have hretires : p.retires = true := by simp [retires, hc, hret]
          rw [hexits, hretires]
          exact ⟨rfl, Nat.sub_add_cancel hret, rfl⟩
        · have hexits : p.exits = true := by simp [exits, hc, hret, hdown]
          have hretires : p.retires = false := by simp [retires, hret]
          have hpos : 0 < p.threads := by omega
          rw [hexits, hretires]
          exact ⟨Nat.sub_add_cancel hpos, rfl, rfl⟩
        · have hexits : p.exits = false := by simp [exits, hup]
          have hretires : p.retires = false := by simp [retires, hret]
          rw [hexits, hretires]
          exact ⟨rfl, rfl, rfl⟩
  timeout := by
    intro due q hs
    cases moves_of_step hs with
    | timedOut ha =>
        dsimp only [Pool.shrinkIfNeeded]
        split
        next hcut =>
          have hfew : p.busy < p.threads / 2 := by simpa using (Bool.and_eq_true_iff.mp hcut).2
          refine ⟨?_, Nat.le_add_right _ _, ?_⟩
          · change p.threads - p.threads / 2 + (p.retiring + p.threads / 2 - p.retiring) = p.threads
            omega
          · change p.busy ≤ p.threads - p.threads / 2
            omega
        next => exact ⟨by simp, Nat.le_refl _, h.busy_le⟩

/-- The queued jobs can all start at once: it takes as many looks as there are jobs, and no running job
has to end before. -/
theorem run_look {p : Pool} (h : p.queue.length ≤ p.awake) :
    p.run (List.replicate p.queue.length .look) =
      some { p with
        queue := []
        running := p.running ++ p.queue
        awake := p.awake - p.queue.length } := by
  obtain ⟨queue, running, ended, threads, busy, retiring, awake, asleep, shutdown⟩ := p
  induction queue generalizing running awake with
  | nil => simp [run]
  | cons job rest ih =>
      simp only [List.length_cons] at h
      have hrest := ih (running ++ [job]) (awake - 1) (by simp only; omega)
      have hne : awake ≠ 0 := by omega
      simp only [run, List.length_cons, List.replicate_succ, List.foldlM_cons, step, look, hne, if_false,
        Option.bind_eq_bind, Option.bind_some] at hrest ⊢
      rw [hrest]
      simp only [List.append_assoc, List.singleton_append, Option.some.injEq, mk.injEq, and_true, true_and]
      omega

/-- Every order of submissions, job ends, wake-ups with and without cause, retirements and exits keeps the
counts right and leaves an awake worker for each queued job. -/
theorem staffed_of_run {steps : List Step} {p : Pool} (h : empty.run steps = some p) :
    p.Staffed ∧ p.Exact ∧
      p.run (List.replicate p.queue.length .look) =
        some { p with
          queue := []
          running := p.running ++ p.queue
          awake := p.awake - p.queue.length } :=
  have hp := staffed_empty.run h
  ⟨hp, hp.exact, run_look hp.queued_le⟩

/-- Three workers fall asleep, one of them is retired while a job comes in, and the pool is shut down with
another job queued behind a running one. -/
theorem staffed_of_run_retired :
    ∃ p, empty.run [.submit 1, .look, .submit 2, .submit 3, .look, .look, .finish 1, .finish 3, .finish 2,
          .look, .look, .look, .timeout true, .submit 4, .look, .look, .look, .submit 5, .shutdown] = some p ∧
      p.queue = [5] ∧ p.running = [4] ∧ p.Staffed ∧ p.Exact ∧
        p.run [.look] = some { p with queue := [], running := [4, 5], awake := 0 } :=
  have hr : empty.run [.submit 1, .look, .submit 2, .submit 3, .look, .look, .finish 1, .finish 3, .finish 2,
      .look, .look, .look, .timeout true, .submit 4, .look, .look, .look, .submit 5, .shutdown] =
      some ⟨[5], [4], [1, 3, 2], 2, 2, 0, 1, 0, true⟩ := by decide
  ⟨_, hr, rfl, rfl, staffed_of_run hr⟩

end AwaitStore.Server.Pool
