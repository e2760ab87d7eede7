import AwaitStore.Proofs.Bench.Claiming
import AwaitStore.Proofs.Bench.Drawing
import AwaitStore.Proofs.Store.Quiet
import AwaitStore.Bench.Run

namespace AwaitStore.Bench

section Lists

variable {α β : Type}

theorem map_modify {f : α → α} {k : β → β} {g : α → β} (h : ∀ a, g (f a) = k (g a)) (xs : List α) (i : Nat) :
    (xs.modify i f).map g = (xs.map g).modify i k := by
  refine List.ext_getElem? fun j => ?_
  rw [List.getElem?_map, List.getElem?_modify, List.getElem?_modify, List.getElem?_map]
  by_cases hj : i = j
  · simp [hj, h, Function.comp_def]
  · simp [hj]

theorem modify_of_getElem? {xs : List α} {i : Nat} {a : α} (h : xs[i]? = some a) (f : α → α) :
    xs.modify i f = xs.set i (f a) := by
  rw [List.modify_eq_set_getElem?, h]
  rfl

theorem getElem?_set_of_getElem? {xs : List α} {i : Nat} {old : α} (h : xs[i]? = some old) (new : α) (j : Nat) :
    (xs.set i new)[j]? = if i = j then some new else xs[j]? := by
  have hlt := (List.getElem?_eq_some_iff.mp h).1
  rw [List.getElem?_set, if_pos hlt]

end Lists

def Phase.awake : Phase → Phase
  | .asleep left _ _ => .working left
  | .working left => .working left
  | .done => .done
  | .failed error => .failed error

/-- The operations of its block that a worker has not begun. -/
def Phase.left : Phase → Nat
  | .working left | .asleep left _ _ => left
  | .done | .failed _ => 0

/-- What a tally needs to know of a worker, which is the same before and after waking up. -/
def Worker.standing {ρ : Type} (w : Worker ρ) : Phase × Results := (w.phase.awake, w.results)

namespace Run

section Waking

variable {ρ : Type} {i : Nat} {returns : List Return}

def standings (r : Run ρ) : List (Phase × Results) := r.workers.map Worker.standing

theorem standing_wake (answer : Answer) (w : Worker ρ) : (w.wake (.ok answer)).standing = w.standing := by
  obtain ⟨source, phase, results⟩ := w
  cases phase <;> rfl

theorem wakeAll_cons (x : Return) (returns : List Return) (r : Run ρ) : r.wakeAll (x :: returns) =
    { r with workers := r.workers.modify x.call (Worker.wake x.outcome) }.wakeAll returns := rfl

theorem wakeAll_issued (r : Run ρ) : (r.wakeAll returns).issued = r.issued := by
  induction returns generalizing r with
  | nil => rfl
  | cons x returns ih => exact ih _

theorem wakeAll_store (r : Run ρ) : (r.wakeAll returns).store = r.store := by
  induction returns generalizing r with
  | nil => rfl
  | cons x returns ih => exact ih _

theorem wakeAll_standings (hok : ∀ x ∈ returns, ∃ answer, x.outcome = .ok answer) (r : Run ρ) :
    (r.wakeAll returns).standings = r.standings := by
  induction returns generalizing r with
  | nil => rfl
  | cons x returns ih =>
      obtain ⟨⟨answer, hx⟩, hrest⟩ := List.forall_mem_cons.mp hok
      rw [wakeAll_cons, ih hrest, hx]
      exact (map_modify (k := id) (standing_wake answer) _ _).trans (List.modify_id _ _)

theorem getElem?_wakeAll (h : i ∉ returns.map Return.call) (r : Run ρ) :
    (r.wakeAll returns).workers[i]? = r.workers[i]? := by
  induction returns generalizing r with
  | nil => rfl
  | cons x returns ih =>
      obtain ⟨hx, hrest⟩ := not_or.mp (List.mem_cons.not.mp h)
      rw [wakeAll_cons, ih hrest]
      exact List.getElem?_modify_ne _ _ (Ne.symm hx)

theorem getElem?_standings {r : Run ρ} {w : Worker ρ} (h : r.workers[i]? = some w) : r.standings[i]? = some w.standing := by
  rw [standings, List.getElem?_map, h]
  rfl

end Waking

section Sleepers

variable {ρ : Type} {r : Run ρ} {i call reads : Nat} {op : Operation}

/-- Who sleeps in the store is a worker that is asleep. -/
def Attended (r : Run ρ) : Prop :=
  ∀ i ∈ r.store.asleep, ∃ w, r.workers[i]? = some w ∧ w.phase.slot?.isSome = true

theorem Attended.not_asleep (h : r.Attended) {w : Worker ρ} (hw : r.workers[i]? = some w) (hslot : w.phase.slot? = none) :
    i ∉ r.store.asleep := by
  intro hi
  obtain ⟨v, hv, hsome⟩ := h i hi
  rw [hw] at hv
  cases hv
  rw [hslot] at hsome
  cases hsome

theorem Attended.perform (h : r.Attended) (hq : r.store.Quiet reads) (hcall : call ∉ r.store.asleep)
    {workers : List (Worker ρ)} {woken : List Return} (hwoken : ∀ x ∈ woken, x ∈ (r.store.perform call op).2)
    (hothers : ∀ j, j ≠ call → workers[j]? = r.workers[j]?)
    (hown : op.isConditional = true → call ∉ (r.store.perform call op).2.map Return.call →
      ∃ w, workers[call]? = some w ∧ w.phase.slot?.isSome = true) :
    (wakeAll woken { r with store := (r.store.perform call op).1, workers }).Attended := by
  intro j hj
  rw [wakeAll_store] at hj
  obtain ⟨hreturned, hslept⟩ := hq.of_mem_asleep hcall hj
  have hnot : j ∉ woken.map Return.call := by
    intro hmem
    obtain ⟨x, hx, rfl⟩ := List.mem_map.mp hmem
    exact hreturned (List.mem_map_of_mem (hwoken x hx))
  rw [getElem?_wakeAll hnot]
  rcases hslept with hslept | ⟨rfl, hconditional⟩
  · obtain ⟨w, hw, hslot⟩ := h j hslept
    have hne : j ≠ call := fun he => hcall (he ▸ hslept)
    exact ⟨w, (hothers j hne).trans hw, hslot⟩
  · exact hown hconditional hreturned

theorem Attended.of_phases {t : Run ρ} (h : r.Attended) (hstore : t.store = r.store)
    (hphases : ∀ (j : Nat) (w : Worker ρ), r.workers[j]? = some w → ∃ v, t.workers[j]? = some v ∧ v.phase = w.phase) :
    t.Attended := by
  intro j hj
  rw [hstore] at hj
  obtain ⟨w, hw, hslot⟩ := h j hj
  obtain ⟨v, hv, he⟩ := hphases j w hw
  exact ⟨v, hv, he ▸ hslot⟩

end Sleepers

end Run

section Draws

variable {ρ : Type} [Source ρ] {b : Benchmark} {tries : Nat} {keys : Array Key} {values : Array Value}

def awaited : Operation → Option (Key × Value)
  | .getWhen wish => some (wish.keyCond, wish.valueCond)
  | .put .. | .get _ | .multiPut _ | .multiGet _ => none

theorem isSome_awaited (op : Operation) : (awaited op).isSome = op.isConditional := by cases op <;> rfl

theorem readsOf_eq {op : Operation} {action : Action} (h : op.isConditional = decide (action = .getWhen)) :
    Store.Backend.readsOf op = if action = .getWhen then 1 else 0 := by
  rw [Store.Backend.readsOf, h]
  simp

theorem isConditional_of_drawOperation {action : Action} {source rest : ρ} {op : Operation}
    (h : (b.drawOperation tries keys values action).run source = some (op, rest)) :
    op.isConditional = decide (action = .getWhen) := by
  cases action with
  | put | multiPut =>
      simp only [Benchmark.drawOperation, Draw.bind_eq_some_iff, Draw.pure_eq_some_iff] at h
      obtain ⟨-, -, -, -, -, -, rfl, -⟩ := h
      rfl
  | get | multiGet =>
      simp only [Benchmark.drawOperation, Draw.bind_eq_some_iff, Draw.pure_eq_some_iff] at h
      obtain ⟨-, -, -, rfl, -⟩ := h
      rfl
  | getWhen =>
      simp only [Benchmark.drawOperation, Draw.bind_eq_some_iff, Draw.pure_eq_some_iff] at h
      obtain ⟨-, -, -, -, -, -, -, -, -, rfl, -⟩ := h
      rfl

theorem usesGetWhen_of_draw {mix : Mix Float} {source rest : ρ} (h : mix.draw.run source = some (.getWhen, rest)) :
    mix.usesGetWhen = true := by
  obtain ⟨x, between, -, h⟩ := Draw.bind_eq_some_iff.mp h
  obtain ⟨hat, -⟩ := Draw.pure_eq_some_iff.mp h
  rw [Mix.actionAt] at hat
  cases htimed : Action.timed.find? fun a => x < mix.upTo a with
  | some a =>
      rw [htimed] at hat
      have hmem := List.mem_of_find?_eq_some htimed
      rw [Option.getD_some] at hat
      exact absurd (hat ▸ hmem) (by decide)
  | none =>
      rw [htimed, Option.getD_none, Mix.last] at hat
      cases hlast : Action.all.reverse.find? mix.draws with
      | some a =>
          rw [hlast, Option.getD_some] at hat
          have hdraws := List.find?_some hlast
          rwa [← hat] at hdraws
      | none =>
          rw [hlast] at hat
          cases hat

end Draws

namespace Run

section Operate

variable {ρ : Type} [Source ρ] {b : Benchmark} {tries : Nat} {keys : Array Key} {values : Array Value} {r t : Run ρ}
  {i : Nat} {ended : Option Action}

def action? (b : Benchmark) (i : Nat) (r : Run ρ) : Option Action := do
  let w ← r.workers[i]?
  let (action, _) ← b.mix.draw.run w.source
  pure action

theorem exists_action? (h : r.operate tries b keys values i = some (ended, t)) : ∃ action, r.action? b i = some action := by
  unfold operate at h
  split at h
  next source left results hworker =>
    obtain ⟨⟨action, between⟩, haction, -⟩ := Option.bind_eq_some_iff.mp h
    exact ⟨action, Option.bind_eq_some_iff.mpr ⟨_, hworker, Option.bind_eq_some_iff.mpr ⟨_, haction, rfl⟩⟩⟩
  · cases h

/-- A call returns at once, without an error, or it is a conditional read and does not. -/
theorem own_cases {store : Store.Backend} {op : Operation} {reads : Nat} (hq : store.Quiet reads)
    (hsuits : op.isConditional = true → store.kind.supportsGetWhen = true) :
    (∃ answer, (store.perform i op).2.find? (fun x => x.call == i) = some ⟨i, .ok answer⟩) ∨
      (∃ wish, op = .getWhen wish) ∧ (store.perform i op).2.find? (fun x => x.call == i) = none := by
  cases hfind : (store.perform i op).2.find? fun x => x.call == i with
  | some x =>
      obtain ⟨answer, hok⟩ := Store.Backend.outcome_ok hsuits x (List.mem_of_find?_eq_some hfind)
      have hcall := List.find?_some hfind
      obtain ⟨call, outcome⟩ := x
      simp only [beq_iff_eq] at hcall hok
      exact .inl ⟨answer, by rw [hcall, hok]⟩
  | none =>
      refine .inr ⟨?_, rfl⟩
      cases hop : op.isConditional with
      | true =>
          cases op with
          | getWhen wish => exact ⟨wish, rfl⟩
          | put | get | multiPut | multiGet => cases hop
      | false =>
          obtain ⟨answer, others, he⟩ := hq.own i hop
          rw [he, List.find?_cons_of_pos (by simp)] at hfind
          cases hfind

theorem operate_cases {reads : Nat} (hq : r.store.Quiet reads)
    (hkind : b.mix.usesGetWhen = true → r.store.kind.supportsGetWhen = true)
    (h : r.operate tries b keys values i = some (ended, t)) :
    ∃ w left action op phase rest, r.workers[i]? = some w ∧ w.phase = .working (left + 1) ∧
      r.action? b i = some action ∧ op.isConditional = decide (action = .getWhen) ∧
      (action = .getWhen → b.mix.usesGetWhen = true) ∧ phase.awake = .working left ∧
      (ended = some action ∨ ended = none ∧ action = .getWhen) ∧
      (phase.slot? = if i ∈ (r.store.perform i op).2.map Return.call then none else awaited op) ∧
      t = { r with
          store := (r.store.perform i op).1
          workers := r.workers.set i ⟨rest, phase, w.results⟩ }.wakeAll
        ((r.store.perform i op).2.filter fun x => x.call != i) := by
  unfold operate at h
  split at h
  next source left results hworker =>
    obtain ⟨⟨action, between⟩, haction, h⟩ := Option.bind_eq_some_iff.mp h
    obtain ⟨⟨op, rest⟩, hop, h⟩ := Option.bind_eq_some_iff.mp h
    have hconditional := isConditional_of_drawOperation hop
    have huses : action = .getWhen → b.mix.usesGetWhen = true := by
      rintro rfl
      exact usesGetWhen_of_draw haction
    have hsuits : op.isConditional = true → r.store.kind.supportsGetWhen = true := by
      rw [hconditional, decide_eq_true_eq]
      exact fun he => hkind (huses he)
    have hdrawn : r.action? b i = some action :=
      Option.bind_eq_some_iff.mpr ⟨_, hworker, Option.bind_eq_some_iff.mpr ⟨_, haction, rfl⟩⟩
    rcases own_cases (i := i) hq hsuits with ⟨answer, hown⟩ | ⟨⟨wish, rfl⟩, hown⟩
    · simp only [hown] at h
      cases h
      have hreturned := List.mem_map_of_mem (f := Return.call) (List.mem_of_find?_eq_some hown)
      exact ⟨_, left, action, op, .working left, rest, hworker, rfl, hdrawn, hconditional, huses, rfl, .inl rfl,
        (if_pos hreturned).symm, rfl⟩
    · simp only [hown] at h
      cases h
      have hnot : i ∉ (r.store.perform i (.getWhen wish)).2.map Return.call := by
        intro hi
        obtain ⟨x, hx, hcall⟩ := List.mem_map.mp hi
        exact List.find?_eq_none.mp hown x hx (beq_iff_eq.mpr hcall)
      exact ⟨_, left, action, _, .asleep left wish.keyCond wish.valueCond, rest, hworker, rfl, hdrawn, hconditional,
        huses, rfl, .inr ⟨rfl, of_decide_eq_true hconditional.symm⟩, (if_neg hnot).symm, rfl⟩
  · cases h

end Operate

section Record

variable {ρ : Type} {r : Run ρ} {i : Nat} {ended : Option Action} {action : Action}

theorem record_cases {phase : Phase} {results : Results} (nanos : UInt64)
    (hstanding : r.standings[i]? = some (phase, results)) (hended : ended = some action ∨ ended = none ∧ action = .getWhen) :
    ∃ t, ended.elim r (fun a => r.record i a nanos) = t ∧ t.issued = r.issued ∧ t.store = r.store ∧
      t.standings = r.standings.set i (phase, results.add action nanos) ∧
      ∀ (j : Nat) (w : Worker ρ), r.workers[j]? = some w → ∃ v, t.workers[j]? = some v ∧ v.phase = w.phase := by
  refine ⟨_, rfl, ?_⟩
  obtain rfl | ⟨rfl, rfl⟩ := hended
  · refine ⟨rfl, rfl, ?_, fun j w hw => ?_⟩
    · rw [← modify_of_getElem? hstanding fun s => (s.1, s.2.add action nanos)]
      exact map_modify (g := Worker.standing) (fun w => rfl) _ _
    · change ∃ v, (r.workers.modify i _)[j]? = some v ∧ _
      rw [List.getElem?_modify, hw]
      split <;> exact ⟨_, rfl, rfl⟩
  · refine ⟨rfl, rfl, ?_, fun j w hw => ⟨w, hw, rfl⟩⟩
    refine List.ext_getElem? fun j => ?_
    rw [getElem?_set_of_getElem? hstanding]
    split
    next he => exact he ▸ hstanding
    next hne => rfl

end Record

section Claim

variable {ρ : Type} {r t : Run ρ} {i : Nat}

theorem working_of_claim {w : Workload} (h : r.claim w i = some t) :
    ∃ source results, r.workers[i]? = some ⟨source, .working 0, results⟩ := by
  unfold claim at h
  split at h
  next source results hworker => exact ⟨source, results, hworker⟩
  · cases h

theorem claim_cases {w : Workload} {c : Claims} {source : ρ} {results : Results} (hissued : c.issued = r.issued)
    (hmem : i ∈ c.running) (hnodup : c.running.Nodup) (hworker : r.workers[i]? = some ⟨source, .working 0, results⟩)
    (h : r.claim w i = some t) :
    ∃ d phase, c.claim w.blockSize w.operations i = some d ∧
      t = { r with issued := d.issued, workers := r.workers.set i ⟨source, phase, results⟩ } ∧
      phase.awake = phase ∧ (∀ error, phase ≠ .failed error) ∧
      (d.taken.map Block.size).sum = (c.taken.map Block.size).sum + phase.left ∧
      ∀ j, j ∈ d.running ↔ j ∈ c.running ∧ (i = j → phase ≠ .done) := by
  simp only [claim, hworker, ← hissued] at h
  cases hat : Block.at? w.blockSize w.operations c.issued with
  | some block =>
      rw [hat] at h
      cases h
      refine ⟨⟨c.issued + w.blockSize.toUInt64, c.running, block :: c.taken⟩, .working block.size, ?_, rfl, rfl, ?_, ?_,
        fun j => (and_iff_left ?_).symm⟩
      · simp only [Claims.claim, if_pos hmem, hat]
      · rintro error ⟨⟩
      · rw [List.map_cons, List.sum_cons, Nat.add_comm]
        rfl
      · rintro - ⟨⟩
  | none =>
      rw [hat] at h
      cases h
      refine ⟨⟨c.issued + w.blockSize.toUInt64, c.running.erase i, c.taken⟩, .done, ?_, rfl, rfl, ?_, rfl, fun j => ?_⟩
      · simp only [Claims.claim, if_pos hmem, hat]
      · rintro error ⟨⟩
      · rw [hnodup.mem_erase_iff]
        constructor
        · rintro ⟨hne, hj⟩
          exact ⟨hj, fun he => absurd he.symm hne⟩
        · rintro ⟨hj, hne⟩
          exact ⟨fun he => hne he.symm rfl, hj⟩

end Claim

def write {ρ : Type} (entries : Table) (r : Run ρ) : Run ρ :=
  { r with store := (r.store.perform r.workers.length (.multiPut entries)).1 }.wakeAll
    (r.store.perform r.workers.length (.multiPut entries)).2

theorem unlock_eq_write {ρ : Type} (r : Run ρ) :
    r.unlock = r.write (unlockEntries (r.workers.filterMap fun w => w.phase.slot?)) := rfl

section Effects

variable {ρ : Type} {r : Run ρ} {i reads : Nat}

/-- A worker takes an operation from its block, and its results count the action unless it is a conditional read. -/
theorem operate_effect [Source ρ] {b : Benchmark} {tries : Nat} {keys : Array Key} {values : Array Value}
    {ended : Option Action} {u : Run ρ} (nanos : UInt64) (h : r.Attended) (hq : r.store.Quiet reads)
    (hreads : reads < UInt64.size) (hkind : b.mix.usesGetWhen = true → r.store.kind.supportsGetWhen = true)
    (ho : r.operate tries b keys values i = some (ended, u)) :
    ∃ left results action t, r.action? b i = some action ∧ (action = .getWhen → b.mix.usesGetWhen = true) ∧
      r.standings[i]? = some (.working (left + 1), results) ∧ ended.elim u (fun a => u.record i a nanos) = t ∧
      t.issued = r.issued ∧ t.store.kind = r.store.kind ∧
      t.store.Quiet (reads + if action = .getWhen then 1 else 0) ∧
      t.standings = r.standings.set i (.working left, results.add action nanos) ∧ t.Attended := by
  obtain ⟨w, left, action, op, phase, rest, hworker, hphase, haction, hconditional, huses, hawake, hended, hslot, rfl⟩ :=
    operate_cases hq hkind ho
  have hold : r.standings[i]? = some (.working (left + 1), w.results) := by
    rw [getElem?_standings hworker, Worker.standing, hphase, Phase.awake]
  have hasleep := h.not_asleep hworker (by rw [hphase, Phase.slot?])
  have hsupported : op.isConditional = true → r.store.kind.supportsGetWhen = true := by
    rw [hconditional, decide_eq_true_eq]
    exact fun he => hkind (huses he)
  have hok : ∀ x ∈ (r.store.perform i op).2, ∃ answer, x.outcome = .ok answer := Store.Backend.outcome_ok hsupported
  have hwoken : ∀ x ∈ (r.store.perform i op).2.filter (fun x => x.call != i), x ∈ (r.store.perform i op).2 :=
    fun x hx => List.mem_of_mem_filter hx
  obtain ⟨mid, hmid⟩ : ∃ mid : Run ρ, mid = { r with
      store := (r.store.perform i op).1
      workers := r.workers.set i ⟨rest, phase, w.results⟩ } := ⟨_, rfl⟩
  rw [← hmid]
  have hset : (mid.wakeAll ((r.store.perform i op).2.filter fun x => x.call != i)).standings =
      r.standings.set i (.working left, w.results) := by
    rw [wakeAll_standings (fun x hx => hok x (hwoken x hx)), hmid, standings, List.map_set, Worker.standing, hawake]
    rfl
  have hstanding : (mid.wakeAll ((r.store.perform i op).2.filter fun x => x.call != i)).standings[i]? =
      some (.working left, w.results) := by
    rw [hset, getElem?_set_of_getElem? hold, if_pos rfl]
  obtain ⟨t, ht, hissued, hstore, hrecorded, hphases⟩ := record_cases nanos hstanding hended
  rw [wakeAll_issued, hmid] at hissued
  rw [wakeAll_store, hmid] at hstore
  refine ⟨left, w.results, action, t, haction, huses, hold, ht, hissued, ?_, ?_, ?_, ?_⟩
  · rw [hstore, Store.Backend.kind_perform]
  · rw [hstore, ← readsOf_eq hconditional]
    exact hq.perform (fun _ => hasleep) hreads
  · rw [hrecorded, hset, List.set_set]
  · have hattended : (mid.wakeAll ((r.store.perform i op).2.filter fun x => x.call != i)).Attended := by
      rw [hmid]
      refine h.perform hq hasleep hwoken (fun j hne => ?_) fun hwaits hnot => ?_
      · rw [getElem?_set_of_getElem? hworker, if_neg (Ne.symm hne)]
      · rw [getElem?_set_of_getElem? hworker, if_pos rfl]
        refine ⟨_, rfl, ?_⟩
        rw [hslot, if_neg hnot, isSome_awaited, hwaits]
    refine hattended.of_phases ?_ hphases
    rw [hstore, wakeAll_store, hmid]

theorem write_effect (h : r.Attended) (hq : r.store.Quiet reads) (hreads : reads < UInt64.size) (entries : Table) :
    (r.write entries).issued = r.issued ∧ (r.write entries).store.kind = r.store.kind ∧
      (r.write entries).store.Quiet reads ∧ (r.write entries).standings = r.standings ∧ (r.write entries).Attended := by
  have hok : ∀ x ∈ (r.store.perform r.workers.length (.multiPut entries)).2, ∃ answer, x.outcome = .ok answer :=
    Store.Backend.outcome_ok nofun
  have hasleep : r.workers.length ∉ r.store.asleep := by
    intro hmem
    obtain ⟨w, hw, -⟩ := h _ hmem
    exact absurd (List.getElem?_eq_some_iff.mp hw).1 (Nat.lt_irrefl _)
  refine ⟨wakeAll_issued _, ?_, ?_, wakeAll_standings hok _, h.perform hq hasleep (fun _ hx => hx) (fun _ _ => rfl) nofun⟩
  · rw [write, wakeAll_store]
    exact Store.Backend.kind_perform ..
  · rw [write, wakeAll_store]
    exact hq.perform nofun hreads

theorem claim_effect {w : Workload} {c : Claims} {t : Run ρ} (h : r.Attended) (hissued : c.issued = r.issued)
    (hrunning : ∀ i, i ∈ c.running ↔ ∃ s, r.standings[i]? = some s ∧ s.1 ≠ .done) (hnodup : c.running.Nodup)
    (hc : r.claim w i = some t) :
    ∃ d results phase, c.claim w.blockSize w.operations i = some d ∧ r.standings[i]? = some (.working 0, results) ∧
      t.issued = d.issued ∧ t.store = r.store ∧ t.standings = r.standings.set i (phase, results) ∧ t.Attended ∧
      (∀ error, phase ≠ .failed error) ∧
      (d.taken.map Block.size).sum = (c.taken.map Block.size).sum + phase.left ∧
      ∀ j, j ∈ d.running ↔ j ∈ c.running ∧ (i = j → phase ≠ .done) := by
  obtain ⟨source, results, hworker⟩ := working_of_claim hc
  have hold := getElem?_standings hworker
  have hmem : i ∈ c.running := (hrunning i).mpr ⟨_, hold, nofun⟩
  obtain ⟨d, phase, hd, rfl, hawake, hunfailed, hsizes, hstays⟩ := claim_cases hissued hmem hnodup hworker hc
  refine ⟨d, results, phase, hd, hold, rfl, rfl, ?_, fun j hj => ?_, hunfailed, hsizes, hstays⟩
  · rw [standings, List.map_set, Worker.standing, hawake]
    rfl
  · obtain ⟨w, hw, hslot⟩ := h j hj
    have hne : i ≠ j := by
      rintro rfl
      exact h.not_asleep hworker rfl hj
    refine ⟨w, ?_, hslot⟩
    rw [getElem?_set_of_getElem? hworker, if_neg hne, hw]

end Effects

end Run

end AwaitStore.Bench
