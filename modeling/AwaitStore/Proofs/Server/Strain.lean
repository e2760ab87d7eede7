import AwaitStore.Proofs.Server.Staffing

namespace AwaitStore.Server.Pool

variable {p q : Pool}

/-- What holds also on a host that is short of threads: a queued job may have to wait for a worker, but not for one that
sleeps. -/
structure Manned (p : Pool) : Prop where
  live_eq : p.live = p.threads + p.retiring
  alert : p.queue.length ≤ p.awake ∨ p.asleep = 0
  someone : p.queue ≠ [] → 0 < p.live

theorem Staffed.manned (h : p.Staffed) : p.Manned where
  live_eq := h.live_eq
  alert := .inl h.queued_le
  someone := by
    intro hq
    have hpos := List.length_pos_iff.mpr hq
    have hle := h.queued_le
    simp only [live]
    omega

namespace Manned

theorem notifyAll (h : p.Manned) : p.notifyAll.Manned := by
  have hlive : p.notifyAll.live = p.live := by
    simp only [Pool.notifyAll, live]
    omega
  exact ⟨hlive.trans h.live_eq, .inr rfl, fun hq => Nat.lt_of_lt_of_eq (h.someone hq) hlive.symm⟩

theorem grow (h : p.Manned) : p.grow.Manned ∧ 0 < p.grow.live := by
  obtain ⟨hlive, halert, hsomeone⟩ := h
  unfold Pool.grow
  split
  next hfull =>
    have hgrown : p.awake + 1 + p.asleep + p.running.length = p.live + 1 := by
      simp only [live]
      omega
    refine ⟨⟨?_, halert.imp_left Nat.le_succ_of_le, fun _ => ?_⟩, ?_⟩
    · change p.awake + 1 + p.asleep + p.running.length = p.threads + 1 + p.retiring
      omega
    · change 0 < p.awake + 1 + p.asleep + p.running.length
      omega
    · change 0 < p.awake + 1 + p.asleep + p.running.length
      omega
  next hspare => exact ⟨⟨hlive, halert, hsomeone⟩, by omega⟩

theorem enqueue (h : p.Manned) (hpos : 0 < p.live) (job : Job) : (p.enqueue job).Manned := by
  obtain ⟨hlive, halert, -⟩ := h
  have hlength : (p.queue ++ [job]).length = p.queue.length + 1 := List.length_append
  unfold Pool.enqueue Pool.notifyOne
  split
  next hnone => exact ⟨hlive, .inr hnone, fun _ => hpos⟩
  next hsome =>
    replace hsome : p.asleep ≠ 0 := hsome
    have hcalled : p.awake + 1 + (p.asleep - 1) + p.running.length = p.live := by
      simp only [live]
      omega
    refine ⟨hcalled.trans hlive, .inl ?_, fun _ => Nat.lt_of_lt_of_eq hpos hcalled.symm⟩
    change (p.queue ++ [job]).length ≤ p.awake + 1
    omega

theorem submit (h : p.Manned) {strain : Option String} {job : Job} (hs : p.submit job strain = .ok q) : q.Manned := by
  unfold Pool.submit at hs
  split at hs
  · cases hs
  next hr =>
    cases hs
    cases strain with
    | none => exact h.grow.1.enqueue h.grow.2 job
    | some reason =>
        have hsome : p.threads + p.retiring ≠ 0 := by
          intro hz
          simp only [refusal?, if_pos hz] at hr
          split at hr <;> cases hr
        refine h.enqueue ?_ job
        rw [h.live_eq]
        exact Nat.pos_of_ne_zero hsome

theorem look (h : p.Manned) (ha : p.awake ≠ 0) : p.look.Manned := by
  obtain ⟨hlive, halert, -⟩ := h
  simp only [live] at hlive
  have hidle {q : Pool} (hq : q.queue = []) (hlive : q.live = q.threads + q.retiring) : q.Manned :=
    ⟨hlive, .inl (by simp [hq]), fun hne => absurd hq hne⟩
  rcases p.look_cases with ⟨job, rest, hc, he⟩ | ⟨hc, ⟨hret, he⟩ | ⟨hret, -, he⟩ | ⟨-, -, he⟩⟩ <;> rw [he]
  · rw [hc, List.length_cons] at halert
    have hlength : (p.running ++ [job]).length = p.running.length + 1 := List.length_append
    refine ⟨?_, ?_, fun _ => ?_⟩
    · change p.awake - 1 + p.asleep + (p.running ++ [job]).length = p.threads + p.retiring
      omega
    · exact halert.imp_left fun hle => Nat.le_sub_one_of_lt hle
    · change 0 < p.awake - 1 + p.asleep + (p.running ++ [job]).length
      omega
  · refine hidle hc ?_
    change p.awake - 1 + p.asleep + p.running.length = p.threads + (p.retiring - 1)
    omega
  · refine hidle hc ?_
    change p.awake - 1 + p.asleep + p.running.length = p.threads - 1 + p.retiring
    omega
  · refine hidle hc ?_
    change p.awake - 1 + (p.asleep + 1) + p.running.length = p.threads + p.retiring
    omega

theorem finish (h : p.Manned) {job : Job} (hj : job ∈ p.running) : (p.finish job).Manned := by
  obtain ⟨hlive, halert, hsomeone⟩ := h
  have hpos := List.length_pos_of_mem hj
  have hlength : (p.running.erase job).length = p.running.length - 1 := List.length_erase_of_mem hj
  have hfinished : p.awake + 1 + p.asleep + (p.running.erase job).length = p.live := by
    simp only [live]
    omega
  exact ⟨hfinished.trans hlive, halert.imp_left Nat.le_succ_of_le, fun hq => Nat.lt_of_lt_of_eq (hsomeone hq) hfinished.symm⟩

theorem wake (h : p.Manned) (ha : p.asleep ≠ 0) :
    { p with asleep := p.asleep - 1, awake := p.awake + 1 }.Manned := by
  obtain ⟨hlive, halert, hsomeone⟩ := h
  have hwoken : p.awake + 1 + (p.asleep - 1) + p.running.length = p.live := by
    simp only [live]
    omega
  exact ⟨hwoken.trans hlive, .inl (Nat.le_succ_of_le (halert.resolve_right ha)), fun hq => Nat.lt_of_lt_of_eq (hsomeone hq) hwoken.symm⟩

theorem shrinkIfNeeded (h : p.Manned) (due : Bool) : (p.shrinkIfNeeded due).Manned := by
  dsimp only [Pool.shrinkIfNeeded]
  split
  next hcut =>
    obtain ⟨hlive, halert, hsomeone⟩ := h
    apply notifyAll
    refine ⟨?_, halert, hsomeone⟩
    change p.live = p.threads - p.threads / 2 + (p.retiring + p.threads / 2)
    omega
  next => exact h

theorem step (h : p.Manned) {a : Step} (hs : p.step a = some q) : q.Manned := by
  cases moves_of_step hs with
  | submitted hj => exact h.submit hj
  | looked ha => exact h.look ha
  | finished hj => exact h.finish hj
  | woken ha => exact h.wake ha
  | timedOut ha => exact (h.wake ha).shrinkIfNeeded _
  | closed => exact notifyAll ⟨h.live_eq, h.alert, h.someone⟩

/-- A queued job waits at most for the end of another job. -/
theorem exists_worker (h : p.Manned) (hq : p.queue ≠ []) : p.awake ≠ 0 ∨ p.running ≠ [] := by
  have hlive := h.someone hq
  have hpos := List.length_pos_iff.mpr hq
  rcases h.alert with hle | hzero
  · exact .inl (by omega)
  · rw [live] at hlive
    rcases Nat.eq_zero_or_pos p.awake with hawake | hawake
    · exact .inr (List.length_pos_iff.mp (by omega))
    · exact .inl (Nat.ne_of_gt hawake)

end Manned

end AwaitStore.Server.Pool
