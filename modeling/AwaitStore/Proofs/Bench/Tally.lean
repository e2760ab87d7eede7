import AwaitStore.Proofs.Bench.Filling
import AwaitStore.Proofs.Bench.KeyRanges
import AwaitStore.Proofs.Bench.Moves

namespace AwaitStore.Bench

theorem sum_map_set {α : Type} {xs : List α} {i : Nat} {old : α} (h : xs[i]? = some old) (new : α) (f : α → Nat) :
    ((xs.set i new).map f).sum + f old = (xs.map f).sum + f new := by
  induction xs generalizing i with
  | nil => cases h
  | cons x xs ih =>
      cases i with
      | zero =>
          cases h
          simp only [List.set_cons_zero, List.map_cons, List.sum_cons]
          omega
      | succ i =>
          have hrest := ih h
          simp only [List.set_cons_succ, List.map_cons, List.sum_cons]
          omega

theorem count_add {results : Results} {action other : Action} {nanos : UInt64} (hother : other ≠ .getWhen)
    (hlt : (results.samples other).count.toNat + 1 < UInt64.size) :
    ((results.add action nanos).samples other).count.toNat =
      (results.samples other).count.toNat + if action = other then 1 else 0 := by
  have hone : ((results.samples other).count + 1).toNat = (results.samples other).count.toNat + 1 := by
    rw [UInt64.toNat_add]
    exact Nat.mod_eq_of_lt hlt
  split
  next he =>
    subst he
    rw [← hone]
    cases action <;> first | rfl | exact absurd rfl hother
  next hne => cases action <;> cases other <;> first | rfl | exact absurd rfl hne

/-- What is claimed is what has been drawn and what is left, and what is drawn is counted. -/
structure Books (standings : List (Phase × Results)) (running : List Nat) (drawn : List Action) (claimed : Nat) : Prop where
  running : ∀ i, i ∈ running ↔ ∃ s, standings[i]? = some s ∧ s.1 ≠ .done
  left : drawn.length + (standings.map fun s => s.1.left).sum = claimed
  unfailed : ∀ s ∈ standings, ∀ error, s.1 ≠ .failed error
  counted : ∀ a, a ≠ .getWhen → (standings.map fun s => (s.2.samples a).count.toNat).sum = drawn.count a

namespace Books

variable {standings : List (Phase × Results)} {running running' : List Nat} {drawn drawn' : List Action}
  {claimed claimed' i : Nat} {phase phase' : Phase} {results results' : Results}

theorem start (workers : Nat) :
    Books (List.replicate workers (.working 0, Results.empty)) (List.range workers) [] 0 := by
  have hzero (f : Phase × Results → Nat) (hf : f (.working 0, Results.empty) = 0) :
      ((List.replicate workers (Phase.working 0, Results.empty)).map f).sum = 0 := by
    rw [List.map_replicate, hf, List.sum_replicate, Nat.nsmul_eq_mul, Nat.mul_zero]
  refine ⟨fun i => ?_, (Nat.zero_add _).trans (hzero _ rfl), fun s hs => ?_, fun a _ => hzero _ ?_⟩
  · rw [List.mem_range, List.getElem?_replicate]
    split
    next hlt => exact iff_of_true hlt ⟨_, rfl, nofun⟩
    next hge => exact iff_of_false hge (by rintro ⟨s, hs, -⟩; cases hs)
  · rw [List.eq_of_mem_replicate hs]
    rintro error ⟨⟩
  · cases a <;> rfl

theorem set (h : Books standings running drawn claimed) (hold : standings[i]? = some (phase, results))
    (hphase : phase ≠ .done) (hrunning : ∀ j, j ∈ running' ↔ j ∈ running ∧ (i = j → phase' ≠ .done))
    (hleft : drawn'.length + phase'.left + claimed = drawn.length + phase.left + claimed')
    (hunfailed : ∀ error, phase' ≠ .failed error)
    (hcounted : ∀ a, a ≠ .getWhen → (results'.samples a).count.toNat + drawn.count a =
      (results.samples a).count.toNat + drawn'.count a) :
    Books (standings.set i (phase', results')) running' drawn' claimed' := by
  refine ⟨fun j => ?_, ?_, fun s hs => ?_, fun a ha => ?_⟩
  · rw [hrunning, h.running, getElem?_set_of_getElem? hold]
    split
    next he =>
      subst he
      constructor
      · rintro ⟨-, hnew⟩
        exact ⟨_, rfl, hnew rfl⟩
      · rintro ⟨s, hs, hnew⟩
        cases hs
        exact ⟨⟨_, hold, hphase⟩, fun _ => hnew⟩
    next hne => exact and_iff_left fun he => absurd he hne
  · have hsum := sum_map_set hold (phase', results') fun s => s.1.left
    have hbefore := h.left
    simp only at hsum ⊢
    omega
  · rcases List.mem_or_eq_of_mem_set hs with hs | rfl
    · exact h.unfailed s hs
    · exact hunfailed
  · have hsum := sum_map_set hold (phase', results') fun s => (s.2.samples a).count.toNat
    have hbefore := h.counted a ha
    have hsame := hcounted a ha
    simp only at hsum ⊢
    omega

theorem draw (h : Books standings running drawn claimed) {left : Nat}
    (hold : standings[i]? = some (.working (left + 1), results)) (hclaimed : claimed < UInt64.size) (action : Action)
    (nanos : UInt64) :
    Books (standings.set i (.working left, results.add action nanos)) running (drawn ++ [action]) claimed := by
  have hbefore := h.left
  have hmem := List.mem_of_getElem? hold
  have hleft : left + 1 ≤ (standings.map fun s => s.1.left).sum :=
    List.le_sum_of_mem (List.mem_map_of_mem (f := fun s => s.1.left) hmem)
  refine h.set hold nofun (fun j => (and_iff_left nofun).symm) ?_ ?_ fun a hother => ?_
  · rw [List.length_append, List.length_singleton]
    change _ + left + _ = _ + (left + 1) + _
    omega
  · rintro error ⟨⟩
  · have hcount : (results.samples a).count.toNat ≤ (standings.map fun s => (s.2.samples a).count.toNat).sum :=
      List.le_sum_of_mem (List.mem_map_of_mem (f := fun s => (s.2.samples a).count.toNat) hmem)
    rw [h.counted a hother] at hcount
    have hle := List.count_le_length (a := a) (l := drawn)
    rw [count_add hother (by omega), List.count_append, List.count_singleton]
    simp only [beq_iff_eq]
    omega

end Books

/-- What can happen next in a run. What is written from outside is an unlocking round, or whatever else. -/
inductive Move where
  | claim (worker : Nat)
  | operate (worker tries : Nat) (nanos : UInt64)
  | write (entries : Table)

structure Ledger (ρ : Type) where
  run : Run ρ
  claimed : List Nat
  drawn : List Action

namespace Ledger

variable {ρ : Type} [Source ρ] (b : Benchmark) (keys : Array Key) (values : Array Value)

def start {ρ : Type} (store : Store.Backend) (sources : List ρ) : Ledger ρ := ⟨.start store sources, [], []⟩

def step (l : Ledger ρ) : Move → Option (Ledger ρ)
  | .claim i => do
      let r ← l.run.claim b.workload i
      pure { l with run := r, claimed := l.claimed ++ [i] }
  | .operate i tries nanos => do
      let action ← l.run.action? b i
      let (ended, r) ← l.run.operate tries b keys values i
      pure { l with run := ended.elim r fun a => r.record i a nanos, drawn := l.drawn ++ [action] }
  | .write entries => some { l with run := l.run.write entries }

def after (l : Ledger ρ) (moves : List Move) : Option (Ledger ρ) := moves.foldlM (step b keys values) l

/-- A run and its log agree with each other and with the claims, and the store is at rest. -/
structure Balanced {ρ : Type} (l : Ledger ρ) (c : Claims) : Prop where
  ran : Claims.run b.workload.blockSize b.workload.operations (.start b.workload.workers) l.claimed = some c
  issued : c.issued = l.run.issued
  books : Books l.run.standings c.running l.drawn (c.taken.map Block.size).sum
  kind : l.run.store.kind = b.population.kind
  quiet : l.run.store.Quiet (l.drawn.count .getWhen)
  attended : l.run.Attended
  weighted : .getWhen ∈ l.drawn → b.mix.usesGetWhen = true

section Balance

variable {b keys values} {l m : Ledger ρ} {c : Claims}

omit [Source ρ] in
theorem balanced_start {store : Store.Backend} {sources : List ρ} {pairs : Table}
    (hsources : sources.length = b.workload.workers) (hkind : store.kind = b.population.kind)
    (hfilled : store.Filled pairs) : Balanced b (start store sources) (.start b.workload.workers) := by
  have hstandings : (start store sources).run.standings =
      List.replicate b.workload.workers (Phase.working 0, Results.empty) := by
    rw [← hsources, ← List.map_const']
    exact List.map_map
  refine ⟨rfl, rfl, ?_, hkind, hfilled.quiet, fun i hi => ?_, nofun⟩
  · rw [hstandings]
    exact .start _
  · have hnone : i ∈ store.asleep := hi
    rw [hfilled.asleep] at hnone
    cases hnone

/-- With room for one more in each count, every move keeps the balance. -/
theorem Balanced.step (h : Balanced b l c) (hsum : (c.taken.map Block.size).sum < UInt64.size)
    (hkind : b.mix.usesGetWhen = true → b.population.kind.supportsGetWhen = true) {move : Move}
    (hs : l.step b keys values move = some m) : ∃ d, Balanced b m d := by
  have hreads : l.drawn.count .getWhen < UInt64.size := by
    have hle := List.count_le_length (a := Action.getWhen) (l := l.drawn)
    have hleft := h.books.left
    omega
  cases move with
  | claim i =>
      obtain ⟨r, hr, hm⟩ := Option.bind_eq_some_iff.mp hs
      cases hm
      obtain ⟨d, results, phase, hd, hold, hissued, hstore, hstandings, hattended, hunfailed, hsizes, hstays⟩ :=
        Run.claim_effect h.attended h.issued h.books.running (Claims.after_run h.ran).nodup hr
      refine ⟨d, Claims.run_snoc.mpr ⟨c, h.ran, hd⟩, hissued.symm, ?_, hstore ▸ h.kind, hstore ▸ h.quiet, hattended,
        h.weighted⟩
      rw [hstandings]
      refine h.books.set hold nofun hstays ?_ hunfailed fun _ _ => rfl
      rw [hsizes]
      change l.drawn.length + phase.left + _ = l.drawn.length + 0 + _
      omega
  | operate i tries nanos =>
      obtain ⟨action, haction, hs⟩ := Option.bind_eq_some_iff.mp hs
      obtain ⟨⟨ended, u⟩, ho, hm⟩ := Option.bind_eq_some_iff.mp hs
      cases hm
      obtain ⟨left, results, _, t, haction', huses, hold, ht, hissued, hkind', hquiet, hstandings, hattended⟩ :=
        Run.operate_effect nanos h.attended h.quiet hreads (h.kind ▸ hkind) ho
      obtain rfl := Option.some.inj (haction.symm.trans haction')
      refine ⟨c, h.ran, ?_, ?_, ?_, ?_, ?_, fun hdrawn => ?_⟩
      · rw [h.issued, ht, hissued]
      · rw [ht, hstandings]
        exact h.books.draw hold hsum action nanos
      · rw [ht, hkind', h.kind]
      · rw [ht, List.count_append, List.count_singleton]
        simpa using hquiet
      · rw [ht]
        exact hattended
      · rcases List.mem_append.mp hdrawn with hdrawn | hdrawn
        · exact h.weighted hdrawn
        · exact huses (List.mem_singleton.mp hdrawn).symm
  | write entries =>
      cases hs
      obtain ⟨hissued, hkind', hquiet, hstandings, hattended⟩ := Run.write_effect h.attended h.quiet hreads entries
      exact ⟨c, h.ran, h.issued.trans hissued.symm, hstandings ▸ h.books, hkind'.trans h.kind, hquiet, hattended,
        h.weighted⟩

end Balance

section Runs

variable {b keys values} {l m : Ledger ρ} {c : Claims}

theorem after_cons {move : Move} {moves : List Move} : l.after b keys values (move :: moves) = some m ↔
    ∃ k, l.step b keys values move = some k ∧ k.after b keys values moves = some m := by
  simp [after, Option.bind_eq_some_iff]

theorem after_snoc {moves : List Move} {move : Move} : l.after b keys values (moves ++ [move]) = some m ↔
    ∃ k, l.after b keys values moves = some k ∧ k.step b keys values move = some m := by
  simp [after, List.foldlM_append, Option.bind_eq_some_iff]

/-- The balance is kept from beginning to end if the counter stays past the operations. -/
theorem Balanced.after (h : Balanced b l c) (hb : 0 < b.workload.blockSize) (hw : 0 < b.workload.workers)
    (ho : b.workload.operations < UInt64.size)
    (hs : StaysPast b.workload.blockSize b.workload.operations b.workload.workers)
    (hkind : b.mix.usesGetWhen = true → b.population.kind.supportsGetWhen = true) {moves : List Move}
    (hm : l.after b keys values moves = some m) : ∃ d, Balanced b m d := by
  induction moves using List.reverseRecOn generalizing m with
  | nil =>
      cases hm
      exact ⟨c, h⟩
  | append_singleton moves move ih =>
      obtain ⟨k, hk, hstep⟩ := after_snoc.mp hm
      obtain ⟨e, he⟩ := ih hk
      have hsum := (Claims.shared_of_run hb ho hw hs he.ran).sum_sizes
      exact he.step (by omega) hkind hstep

theorem exists_step_of_advance {tries : Nat} {latency : UInt64} {r : Run ρ}
    (h : l.run.advance tries latency b keys values = some r) :
    ∃ move m, l.step b keys values move = some m ∧ m.run = r := by
  unfold Run.advance at h
  split at h
  · cases h
    exact ⟨.write _, _, rfl, (Run.unlock_eq_write l.run).symm⟩
  next i hi =>
    split at h
    next t hclaim =>
      cases h
      exact ⟨.claim i, _, Option.bind_eq_some_iff.mpr ⟨r, hclaim, rfl⟩, rfl⟩
    next hclaim =>
      obtain ⟨⟨ended, t⟩, ho, h⟩ := Option.bind_eq_some_iff.mp h
      cases h
      obtain ⟨action, haction⟩ := Run.exists_action? ho
      exact ⟨.operate i tries latency, _, Option.bind_eq_some_iff.mpr
        ⟨action, haction, Option.bind_eq_some_iff.mpr ⟨(ended, t), ho, rfl⟩⟩, rfl⟩

theorem exists_after_of_finish {tries fuel : Nat} {latency : Nat → UInt64} {r : Run ρ}
    (h : l.run.finish tries latency b keys values fuel = some r) :
    ∃ moves m, l.after b keys values moves = some m ∧ m.run = r ∧ r.ended = true := by
  induction fuel generalizing l with
  | zero => cases h
  | succ fuel ih =>
      unfold Run.finish at h
      split at h
      next hended =>
        cases h
        exact ⟨[], l, rfl, rfl, hended⟩
      next hgoes =>
        obtain ⟨t, ht, h⟩ := Option.bind_eq_some_iff.mp h
        obtain ⟨move, k, hk, rfl⟩ := exists_step_of_advance ht
        obtain ⟨moves, m, hm, hr, hended⟩ := ih h
        exact ⟨move :: moves, m, after_cons.mpr ⟨k, hk, hm⟩, hr, hended⟩

theorem balanced_of_populate {arrangement : Arrangement} {tries : Nat} {source rest : ρ} {p : Populated}
    (hp : (b.population.populate arrangement tries).run source = some (.ok p, rest)) {sources : List ρ}
    (hsources : sources.length = b.workload.workers) (hb : 0 < b.workload.blockSize) (hw : 0 < b.workload.workers)
    (ho : b.workload.operations < UInt64.size)
    (hs : StaysPast b.workload.blockSize b.workload.operations b.workload.workers)
    (hkind : b.mix.usesGetWhen = true → b.population.kind.supportsGetWhen = true) {moves : List Move}
    (hm : (start p.store sources).after b p.keys p.values moves = some m) :
    ∃ c, Balanced b m c ∧
      Claims.Shared b.workload.blockSize b.workload.operations b.workload.workers m.claimed c := by
  obtain ⟨hstore, pairs, hfilled⟩ := Population.filled_of_populate hp
  have hstart : Balanced b (start p.store sources) _ := balanced_start hsources hstore hfilled
  obtain ⟨c, h⟩ := hstart.after hb hw ho hs hkind hm
  exact ⟨c, h, Claims.shared_of_run hb ho hw hs h.ran⟩

end Runs

end Ledger

section Totals

variable {ρ : Type} {r : Run ρ}

theorem length_eq_counts (drawn : List Action) :
    (Action.timed.map fun a => drawn.count a).sum + drawn.count .getWhen = drawn.length := by
  induction drawn with
  | nil => rfl
  | cons action drawn ih =>
      simp only [Action.timed, List.map_cons, List.map_nil, List.sum_cons, List.sum_nil, List.count_cons,
        List.length_cons] at ih ⊢
      cases action <;> simp <;> omega

theorem count_merge (results other : Results) (a : Action) :
    ((results.merge other).samples a).count = (results.samples a).count + (other.samples a).count := by
  cases a <;> rfl

theorem count_foldl_merge (all : List Results) (total : Results) (a : Action) :
    ((all.foldl Results.merge total).samples a).count =
      (total.samples a).count + UInt64.ofNat (all.map fun r => (r.samples a).count.toNat).sum := by
  induction all generalizing total with
  | nil => simp
  | cons results all ih =>
      rw [List.foldl_cons, ih, count_merge, List.map_cons, List.sum_cons, UInt64.ofNat_add, UInt64.ofNat_toNat,
        UInt64.add_assoc]

theorem foldlM_eq_ok {ε α β : Type} {step : β → α → Except ε β} {next : β → α → β} {items : List α} (total : β)
    (h : ∀ a ∈ items, ∀ total, step total a = .ok (next total a)) :
    items.foldlM step total = .ok (items.foldl next total) := by
  induction items generalizing total with
  | nil => rfl
  | cons a items ih =>
      obtain ⟨ha, hrest⟩ := List.forall_mem_cons.mp h
      rw [List.foldlM_cons, ha]
      exact ih _ hrest

theorem merged_eq (hunfailed : ∀ s ∈ r.standings, ∀ error, s.1 ≠ .failed error) :
    r.merged = .ok ((r.standings.map Prod.snd).foldl Results.merge Results.empty) := by
  have hphase : ∀ w ∈ r.workers, ∀ error, w.phase ≠ .failed error := by
    intro w hw error he
    exact hunfailed _ (List.mem_map_of_mem hw) error (by rw [Worker.standing, he, Phase.awake])
  rw [Run.standings, List.map_map, List.foldl_map]
  refine foldlM_eq_ok Results.empty fun w hw total => ?_
  split
  next error he => exact absurd he (hphase w hw error)
  · rfl

theorem done_of_ended (hended : r.ended = true) (hunfailed : ∀ s ∈ r.standings, ∀ error, s.1 ≠ .failed error) :
    ∀ s ∈ r.standings, s.1 = .done := by
  intro s hs
  obtain ⟨w, hw, rfl⟩ := List.mem_map.mp hs
  have hw' := List.all_eq_true.mp hended w hw
  have hfailed := hunfailed _ hs
  rw [Worker.standing] at hfailed ⊢
  cases hphase : w.phase with
  | done => rfl
  | failed error =>
      rw [hphase] at hfailed
      exact absurd rfl (hfailed error)
  | working left => simp [Run.isWorking, hphase] at hw'
  | asleep left key value => simp [Run.isWorking, hphase, Phase.slot?] at hw'

/-- All operations were drawn, and of each action as many are counted as were drawn, conditional reads apart. -/
structure Totals (b : Benchmark) (drawn : List Action) (results : Results) : Prop where
  all : drawn.length = b.workload.operations
  each : ∀ a ∈ Action.timed, (results.samples a).count.toNat = drawn.count a
  timed : (Action.timed.map fun a => (results.samples a).count.toNat).sum =
    b.workload.operations - drawn.count .getWhen
  unweighted : b.mix.usesGetWhen = false → drawn.count .getWhen = 0

theorem Ledger.Balanced.length_drawn_le {ρ : Type} {b : Benchmark} {l : Ledger ρ} {c : Claims} (h : l.Balanced b c)
    (hshared : Claims.Shared b.workload.blockSize b.workload.operations b.workload.workers l.claimed c) :
    l.drawn.length ≤ b.workload.operations := by
  have hleft := h.books.left
  have hsizes := hshared.sum_sizes
  omega

theorem Ledger.Balanced.totals {ρ : Type} {b : Benchmark} {l : Ledger ρ} {c : Claims} (h : l.Balanced b c)
    (hshared : Claims.Shared b.workload.blockSize b.workload.operations b.workload.workers l.claimed c)
    (ho : b.workload.operations < UInt64.size) (hdone : ∀ s ∈ l.run.standings, s.1 = .done) :
    ∃ results, l.run.merged = .ok results ∧ Totals b l.drawn results := by
  have hstopped : c.running = [] := by
    refine List.eq_nil_iff_forall_not_mem.mpr fun i hi => ?_
    obtain ⟨s, hs, hne⟩ := (h.books.running i).mp hi
    exact hne (hdone s (List.mem_of_getElem? hs))
  have hnothing : (l.run.standings.map fun s => s.1.left).sum = 0 := by
    refine List.sum_eq_zero fun n hn => ?_
    obtain ⟨s, hs, rfl⟩ := List.mem_map.mp hn
    rw [hdone s hs, Phase.left]
  have hall : l.drawn.length = b.workload.operations := by
    have hleft := h.books.left
    have hcovers := (hshared.covers hstopped).length_eq
    rw [List.length_range, Block.length_flatMap_places] at hcovers
    omega
  have heach (a : Action) (ha : a ≠ .getWhen) :
      (((l.run.standings.map Prod.snd).foldl Results.merge Results.empty).samples a).count.toNat = l.drawn.count a := by
    have hle := List.count_le_length (a := a) (l := l.drawn)
    have hcounted := h.books.counted a ha
    have hzero : (Results.empty.samples a).count = 0 := by cases a <;> rfl
    rw [count_foldl_merge, hzero, UInt64.zero_add, List.map_map]
    change (UInt64.ofNat (l.run.standings.map fun s => (s.2.samples a).count.toNat).sum).toNat = _
    rw [hcounted]
    exact UInt64.toNat_ofNat_of_lt' (by omega)
  have htimed : ∀ a ∈ Action.timed, a ≠ .getWhen := by decide
  refine ⟨_, merged_eq h.books.unfailed, hall, fun a ha => heach a (htimed a ha), ?_, fun hunused => ?_⟩
  · have hcounts := length_eq_counts l.drawn
    rw [List.map_congr_left fun a ha => heach a (htimed a ha)]
    omega
  · refine List.count_eq_zero.mpr fun hmem => ?_
    rw [h.weighted hmem] at hunused
    cases hunused

end Totals

namespace Benchmark

variable {population : Population} {mix : Mix Float} {workload : Workload} {b : Benchmark}

theorem ofParts_eq_ok_iff : ofParts population mix workload = .ok b ↔
    b = ⟨population, mix, workload⟩ ∧ workload.unusable? population mix = none := by
  unfold ofParts
  split
  next cause hcause => simp [hcause]
  next hnone => simp [hnone, eq_comm]

theorem samples_noteTime (elapsed : Nat) (results : Results) (a : Action) :
    (b.noteTime elapsed results).samples a = results.samples a := by
  unfold noteTime
  split
  · rfl
  · cases a <;> rfl

theorem totals_noteTime {drawn : List Action} {results : Results} (h : Totals b drawn results) (elapsed : Nat) :
    Totals b drawn (b.noteTime elapsed results) := by
  have hsame (a : Action) : ((b.noteTime elapsed results).samples a).count = (results.samples a).count := by
    rw [samples_noteTime]
  exact ⟨h.all, fun a ha => by rw [hsame, h.each a ha], by simp only [hsame, h.timed], h.unweighted⟩

section Run

variable {ρ : Type} [Source ρ] {around : Surroundings ρ} {results : Results}

theorem populate_of_run (h : b.run around = .ok results) : ∃ p rest,
    (b.population.populate .ascending around.tries).run around.source = some (.ok p, rest) ∧
      b.work around p = .ok results := by
  simp only [run] at h
  split at h
  · cases h
  · cases h
  next p rest hp =>
    split at h
    · cases h
    · exact ⟨p, rest, hp, h⟩

omit [Source ρ] in
theorem report_eq_ok_iff {ended : Option (Run ρ)} : b.report around.elapsed ended = .ok results ↔
    ∃ r total, ended = some r ∧ r.merged = .ok total ∧ b.noteTime around.elapsed total = results := by
  cases ended with
  | none => exact iff_of_false nofun (by rintro ⟨r, total, hr, -⟩; cases hr)
  | some r =>
      cases hr : r.merged with
      | error fault =>
          refine iff_of_false (by simp [report, hr]) ?_
          rintro ⟨t, total, ht, htotal, -⟩
          cases ht
          cases hr.symm.trans htotal
      | ok total =>
          simp only [report, hr, Except.ok.injEq]
          constructor
          · intro h
            exact ⟨r, total, rfl, hr, h⟩
          · rintro ⟨t, other, ht, hother, h⟩
            cases ht
            cases hr.symm.trans hother
            exact h

end Run

/-- A benchmark hands out and counts each of its operations once, in whatever order its workers take turns, if and only
if the counter stays past the operations while the workers stop. -/
theorem issues_exactly_iff_staysPast (hb : ofParts population mix workload = .ok b)
    (ho : workload.operations < UInt64.size) :
    (StaysPast workload.blockSize workload.operations workload.workers ↔ ∃ claimed c,
        Claims.run workload.blockSize workload.operations (.start workload.workers) claimed = some c ∧ c.running = [] ∧
          (c.taken.flatMap Block.places).Perm (List.range workload.operations)) ∧
      (StaysPast workload.blockSize workload.operations workload.workers →
        (∀ claimed c, Claims.run workload.blockSize workload.operations (.start workload.workers) claimed = some c →
          Claims.Shared workload.blockSize workload.operations workload.workers claimed c) ∧
        (∀ {ρ : Type} [Source ρ] (arrangement : Arrangement) (tries : Nat) (source rest : ρ) (p : Populated),
          (population.populate arrangement tries).run source = some (.ok p, rest) →
          ∀ sources : List ρ, sources.length = workload.workers → ∀ moves l,
            (Ledger.start p.store sources).after b p.keys p.values moves = some l →
            l.drawn.length ≤ workload.operations ∧
              ((∀ w ∈ l.run.workers, w.phase = .done) →
                ∃ results, l.run.merged = .ok results ∧ Totals b l.drawn results)) ∧
        ∀ {ρ : Type} [Source ρ] (around : Surroundings ρ) (results : Results), b.run around = .ok results →
          ∃ drawn, Totals b drawn results) := by
  obtain ⟨rfl, hnone⟩ := ofParts_eq_ok_iff.mp hb
  obtain ⟨hw, hblock, -, hkind⟩ := Workload.unusable?_eq_none_iff.mp hnone
  refine ⟨Claims.staysPast_iff hblock ho hw, fun hs => ⟨fun _ _ => Claims.shared_of_run hblock ho hw hs, ?_, ?_⟩⟩
  · intro ρ _ arrangement tries source rest p hp sources hsources moves l hl
    obtain ⟨c, h, hshared⟩ :=
      Ledger.balanced_of_populate (b := ⟨population, mix, workload⟩) hp hsources hblock hw ho hs hkind hl
    refine ⟨h.length_drawn_le hshared, fun hdone => h.totals hshared ho fun s hmem => ?_⟩
    obtain ⟨w, hwmem, rfl⟩ := List.mem_map.mp hmem
    rw [Worker.standing, hdone w hwmem, Phase.awake]
  · intro ρ _ around results hrun
    obtain ⟨p, rest, hp, hwork⟩ := populate_of_run hrun
    obtain ⟨r, total, hr, htotal, rfl⟩ := report_eq_ok_iff.mp hwork
    obtain ⟨moves, l, hl, rfl, hended⟩ := Ledger.exists_after_of_finish (l := Ledger.start p.store _) hr
    have hsources := (List.length_map around.workerSource).trans (List.length_range (n := workload.workers))
    obtain ⟨c, h, hshared⟩ := Ledger.balanced_of_populate hp hsources hblock hw ho hs hkind hl
    obtain ⟨counted, hcounted, htotals⟩ := h.totals hshared ho (done_of_ended hended h.books.unfailed)
    obtain rfl := Except.ok.inj (htotal.symm.trans hcounted)
    exact ⟨l.drawn, totals_noteTime htotals around.elapsed⟩

def putsOnly : Mix Float := ⟨Mix.cumulative fun a => if a = .put then 1 else 0⟩

/-- Two workers share three operations out in a whole block and a shorter one. -/
theorem issues_exactly_iff_staysPast_shorter_block :
    let b : Benchmark := ⟨⟨.simple, 16, 8, 4, 4⟩, putsOnly, ⟨2, 3, 2, .ofBounds 0 15, .ofBounds 0 7, .ofBounds 2 4⟩⟩
    ofParts b.population b.mix b.workload = .ok b ∧ StaysPast 2 3 2 ∧
      Claims.Shared 2 3 2 [1, 0, 1, 0] ⟨8, [], [⟨2, 1⟩, ⟨0, 2⟩]⟩ := by
  intro b
  have hb : ofParts b.population b.mix b.workload = .ok b :=
    ofParts_eq_ok_iff.mpr ⟨rfl, Workload.unusable?_eq_none_iff.mpr
      ⟨by decide, by decide, fun _ => by decide, fun _ => rfl⟩⟩
  have hpast : StaysPast 2 3 2 := staysPast_of_le (by decide) (by decide)
  obtain ⟨-, hshares⟩ := issues_exactly_iff_staysPast hb (by decide)
  obtain ⟨hshared, -, -⟩ := hshares hpast
  exact ⟨hb, hpast, hshared [1, 0, 1, 0] _ (by decide)⟩

/-- With blocks of half of all words, the counter of three workers comes back to the start, and each takes all ten
operations. -/
theorem claims_overlap_half_word_blocks :
    let b : Benchmark :=
      ⟨⟨.simple, 16, 8, 4, 4⟩, putsOnly, ⟨3, 10, 2 ^ 63, .ofBounds 0 15, .ofBounds 0 7, .ofBounds 2 4⟩⟩
    ofParts b.population b.mix b.workload = .ok b ∧
      ∃ c, Claims.run (2 ^ 63) 10 (.start 3) [0, 0, 1, 1, 2, 2] = some c ∧ c.running = [] ∧
        c.taken = [⟨0, 10⟩, ⟨0, 10⟩, ⟨0, 10⟩] ∧ ¬ (c.taken.Pairwise fun x y => x.places.Disjoint y.places) ∧
        ¬ (c.taken.flatMap Block.places).Perm (List.range 10) := by
  intro b
  refine ⟨ofParts_eq_ok_iff.mpr ⟨rfl, Workload.unusable?_eq_none_iff.mpr
    ⟨by decide, by decide, fun _ => by decide, fun _ => rfl⟩⟩, ⟨0, [], _⟩, by decide, rfl, rfl, ?_, ?_⟩
  · intro hapart
    have hdisjoint := List.rel_of_pairwise_cons hapart (List.mem_cons_self)
    exact hdisjoint (by decide : 0 ∈ Block.places ⟨0, 10⟩) (by decide)
  · intro hperm
    exact absurd hperm.length_eq (by decide)

end Benchmark

end AwaitStore.Bench
