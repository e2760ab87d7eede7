import AwaitStore.Proofs.Bench.ReportNames
import AwaitStore.Proofs.Bench.Tally

namespace AwaitStore

namespace Decimal

theorem positional_ne_empty (x : Scientific) : x.positional ≠ "" := by
  intro he
  unfold Scientific.positional at he
  split at he
  · have hdigits := congrArg String.toList (String.append_eq_empty_iff.mp he).1
    rw [String.toList_ofList, Nat.toList_repr] at hdigits
    exact Nat.toDigits_ne_nil hdigits
  · have hpoint := congrArg String.toList he
    rw [String.toList_ofList] at hpoint
    exact List.append_ne_nil_of_right_ne_nil _ (List.cons_ne_nil _ _) hpoint

theorem shortest_ne_empty (x : Float) : shortest x ≠ "" := by
  have hsigned (negative : Bool) {text : String} (ht : text ≠ "") : sign negative ++ text ≠ "" :=
    fun he => ht (String.append_eq_empty_iff.mp he).2
  unfold shortest
  split
  · decide
  · exact hsigned _ (by decide)
  · exact hsigned _ (by decide)
  · exact hsigned _ (positional_ne_empty _)

end Decimal

namespace Bench

/-- Whatever is measured of a benchmark is what some run of it reports. -/
def Measured (measure : Benchmark → Except Stop Results) : Prop :=
  ∀ b results, measure b = .ok results →
    ∃ (ρ : Type) (around : Surroundings ρ) (ended : Option (Run ρ)), b.report around.elapsed ended = .ok results

theorem measured_run {ρ : Type} [Source ρ] (around : Benchmark → Surroundings ρ) :
    Measured fun b => b.run (around b) := by
  intro b results h
  obtain ⟨p, rest, -, hwork⟩ := Benchmark.populate_of_run h
  exact ⟨ρ, around b, _, hwork⟩

theorem foldlM_keeps {α β ε : Type} {f : α → β → Except ε α} {P : α → Prop}
    (hstep : ∀ a b c, f a b = .ok c → P a → P c) {l : List β} {a c : α} (h : l.foldlM f a = .ok c) (ha : P a) : P c := by
  induction l generalizing a with
  | nil =>
      cases h
      exact ha
  | cons b l ih =>
      rw [List.foldlM_cons] at h
      cases hb : f a b with
      | error e =>
          rw [hb] at h
          cases h
      | ok d =>
          rw [hb] at h
          exact ih h (hstep a b d hb ha)

theorem Run.time_of_merged {ρ : Type} {r : Run ρ} {total : Results} (h : r.merged = .ok total) : total.time = none := by
  refine foldlM_keeps (P := fun total => total.time = none) (fun total w next hnext ht => ?_) h rfl
  split at hnext
  · cases hnext
  · cases hnext
    exact ht

variable {measure : Benchmark → Except Stop Results}

theorem Measured.isSome_time (h : Measured measure) {b : Benchmark} {results : Results} (hb : measure b = .ok results) :
    results.time.isSome = !b.mix.usesGetWhen := by
  obtain ⟨ρ, around, ended, hreport⟩ := h b results hb
  obtain ⟨r, total, -, htotal, rfl⟩ := Benchmark.report_eq_ok_iff.mp hreport
  have hnone := Run.time_of_merged htotal
  unfold Benchmark.noteTime
  cases b.mix.usesGetWhen <;> simp [hnone]

namespace Suite

variable {s : Suite} {outlet : Outlet} {mixes : List (String × Mix Float)} {c : Cell} {results : Results}

def Gives (s : Suite) (measure : Benchmark → Except Stop Results) (c : Cell) (results : Results) : Prop :=
  ∃ b, s.benchmark c = .ok b ∧ measure b = .ok results

theorem Gives.eq {other : Results} (h : s.Gives measure c results) (h' : s.Gives measure c other) : results = other := by
  obtain ⟨b, hb, hresults⟩ := h
  obtain ⟨b', hb', hother⟩ := h'
  obtain rfl := Except.ok.inj (hb.symm.trans hb')
  exact Except.ok.inj (hresults.symm.trans hother)

theorem benchmark_eq_ok {b : Benchmark} (h : s.benchmark c = .ok b) : b.mix = c.mix ∧ 0 < c.workers := by
  unfold benchmark at h
  generalize Population.check _ = checked at h
  cases checked with
  | error cause => cases h
  | ok population =>
      change Except.mapError Fault.unusable (Benchmark.ofParts population c.mix _) = .ok b at h
      generalize hparts : Benchmark.ofParts population c.mix _ = parts at h
      cases parts with
      | error cause => cases h
      | ok b =>
          cases h
          obtain ⟨rfl, hnone⟩ := Benchmark.ofParts_eq_ok_iff.mp hparts
          exact ⟨rfl, (Workload.unusable?_eq_none_iff.mp hnone).1⟩

def Took (s : Suite) (measure : Benchmark → Except Stop Results) (c : Cell) (t : Timing) : Prop :=
  ∃ results nanos, s.Gives measure c results ∧ results.time = some nanos ∧
    t = ⟨c.mixName, c.workers, c.kind.name, seconds nanos⟩

theorem mem_times_record {p : Progress} (hc : s.Gives measure c results) {t : Timing} :
    t ∈ (s.record c results p).times ↔ t ∈ p.times ∨ s.Took measure c t := by
  rw [record, List.mem_append]
  refine or_congr_right ?_
  simp only [List.mem_map, Option.mem_toList]
  constructor
  · rintro ⟨nanos, htime, rfl⟩
    exact ⟨results, nanos, hc, htime, rfl⟩
  · rintro ⟨other, nanos, hother, htime, rfl⟩
    obtain rfl := hc.eq hother
    exact ⟨nanos, htime, rfl⟩

def Shows (s : Suite) (measure : Benchmark → Except Stop Results) (c : Cell) (report : Report) : Prop :=
  ∃ results, s.Gives measure c results ∧ report = s.report c results

/-- Cells that all came to their end have a report each, in order, and their times are kept. -/
theorem runCells_eq {cells : List Cell} {p q : Progress} (h : s.runCells outlet measure cells p = (q, none)) :
    (∃ reports, List.Forall₂ (s.Shows measure) cells reports ∧ q.reports = p.reports ++ reports) ∧
      (∀ c ∈ cells, ∃ results, s.Gives measure c results) ∧
        ∀ t, t ∈ q.times ↔ t ∈ p.times ∨ ∃ c ∈ cells, s.Took measure c t := by
  induction cells generalizing p with
  | nil =>
      cases h
      exact ⟨⟨[], .nil, (List.append_nil _).symm⟩, nofun, fun t => by simp⟩
  | cons c cells ih =>
      simp only [runCells] at h
      split at h
      · cases h
      next b hb =>
        split at h
        · cases h
        next results hresults =>
          split at h
          · have hc : s.Gives measure c results := ⟨b, hb, hresults⟩
            obtain ⟨⟨reports, hshown, hreports⟩, hall, htimes⟩ := ih h
            refine ⟨⟨s.report c results :: reports, .cons ⟨results, hc, rfl⟩ hshown, ?_⟩,
              List.forall_mem_cons.mpr ⟨⟨results, hc⟩, hall⟩, fun t => ?_⟩
            · rw [hreports, record, List.append_assoc]
              rfl
            · simp only [htimes, mem_times_record hc, or_assoc, List.mem_cons, exists_eq_or_imp]
          · cases h

theorem eq_of_name_eq {kind other : Store.Kind} (hk : kind ∈ s.kinds) (ho : other ∈ s.kinds) (h : kind.name = other.name) :
    kind = other := by
  have hn : (s.kinds.map Store.Kind.name).Nodup := by
    change ["SimpleHashMapBackend", "MultiConditionHashMapBackend", "ShardedHashMapBackend"].Nodup
    decide
  exact List.inj_on_of_nodup_map hn hk ho h

section Tables

variable {times : List Timing} {counts : List Nat} {name : String} {time : Nat → Store.Kind → Float}

theorem timeRows_eq (hne : counts ≠ []) (hmem : ∀ t, t ∈ times ↔
      ∃ n ∈ counts, ∃ kind ∈ s.kinds, t = ⟨name, n, kind.name, time n kind⟩) :
    s.timeRows times = ("THREADS" :: s.kinds.map Store.Kind.name) ::
      (Std.ExtTreeSet.ofList counts compare).toList.map fun n =>
        toString n :: s.kinds.map fun kind => Decimal.shortest (time n kind) := by
  obtain ⟨first, hfirst⟩ := List.exists_mem_of_ne_nil counts hne
  have hnames : (s.kinds.map Store.Kind.name).filter (fun name => times.any fun t => t.storeName == name) =
      s.kinds.map Store.Kind.name := by
    refine List.filter_eq_self.mpr fun name hname => ?_
    obtain ⟨kind, hkind, rfl⟩ := List.mem_map.mp hname
    exact List.any_eq_true.mpr ⟨_, (hmem _).mpr ⟨first, hfirst, kind, hkind, rfl⟩, by simp⟩
  have hcounts : Std.ExtTreeSet.ofList (times.map Timing.workers) compare = Std.ExtTreeSet.ofList counts compare := by
    refine Std.ExtTreeSet.ext_mem fun n => ?_
    simp only [Std.ExtTreeSet.mem_ofList, List.contains_iff_mem, List.mem_map, hmem]
    constructor
    · rintro ⟨_, ⟨m, hm, kind, -, rfl⟩, rfl⟩
      exact hm
    · intro hn
      exact ⟨_, ⟨n, hn, .simple, List.mem_cons_self, rfl⟩, rfl⟩
  have hcell {n : Nat} (hn : n ∈ counts) {kind : Store.Kind} (hkind : kind ∈ s.kinds) :
      ∃ t, times.reverse.find? (fun t => t.workers == n && t.storeName == kind.name) = some t ∧
        t.seconds = time n kind := by
    cases hf : times.reverse.find? (fun t => t.workers == n && t.storeName == kind.name) with
    | none =>
        have hmine := (hmem _).mpr ⟨n, hn, kind, hkind, rfl⟩
        have hnot := List.find?_eq_none.mp hf _ (List.mem_reverse.mpr hmine)
        simp at hnot
    | some t =>
        have hfound := List.find?_some hf
        rw [Bool.and_eq_true, beq_iff_eq, beq_iff_eq] at hfound
        obtain ⟨m, -, other, hother, rfl⟩ := (hmem t).mp (List.mem_reverse.mp (List.mem_of_find?_eq_some hf))
        obtain ⟨rfl, hname⟩ := hfound
        obtain rfl := eq_of_name_eq hother hkind hname
        exact ⟨_, rfl, rfl⟩
  simp only [timeRows, hnames, hcounts]
  refine congrArg _ (List.map_congr_left fun n hn => congrArg _ ?_)
  have hn : n ∈ counts := by simpa using hn
  rw [List.map_map]
  refine List.map_congr_left fun kind hkind => ?_
  obtain ⟨t, hfind, htime⟩ := hcell hn hkind
  simp only [Function.comp_apply, hfind, htime]

end Tables

theorem mixes_of_accepted (h : accepted = .ok mixes) :
    mixes.map (fun mix => (fileStem mix.1, mix.2.usesGetWhen)) = mixStems := by
  have hall : (accepted.toOption.getD []).map (fun mix => (fileStem mix.1, mix.2.usesGetWhen)) = mixStems := by
    decide +kernel
  rw [h] at hall
  exact hall

theorem eq_of_fst_eq (h : accepted = .ok mixes) {mix other : String × Mix Float} (hmix : mix ∈ mixes)
    (hother : other ∈ mixes) (he : mix.1 = other.1) : mix = other := by
  have hn : (mixes.map fun mix => fileStem mix.1).Nodup := by
    have hstems := congrArg (List.map Prod.fst) (mixes_of_accepted h)
    rw [List.map_map] at hstems
    change mixes.map (fun mix => fileStem mix.1) = _ at hstems
    rw [hstems]
    decide
  exact List.inj_on_of_nodup_map hn hmix hother (congrArg fileStem he)

theorem mem_grid : c ∈ s.grid mixes ↔ ∃ n ∈ s.settings.workerCounts, ∃ mix ∈ mixes, ∃ kind ∈ s.kinds,
    (!mix.2.usesGetWhen || kind.supportsGetWhen) = true ∧ c = ⟨n, mix.1, mix.2, kind⟩ := by
  simp only [grid, row, List.mem_flatMap, List.mem_map, List.mem_filter, and_assoc, eq_comm]

theorem Took.plain (hm : Measured measure) {t : Timing} (h : s.Took measure c t) : c.mix.usesGetWhen = false := by
  obtain ⟨results, nanos, ⟨b, hb, hresults⟩, htime, -⟩ := h
  have hsome := hm.isSome_time hresults
  rw [htime, (benchmark_eq_ok hb).1] at hsome
  simpa using hsome.symm

theorem Took.eq {t u : Timing} (h : s.Took measure c t) (h' : s.Took measure c u) : t = u := by
  obtain ⟨results, nanos, hresults, htime, rfl⟩ := h
  obtain ⟨other, nanos', hother, htime', rfl⟩ := h'
  obtain rfl := hresults.eq hother
  obtain rfl := Option.some.inj (htime.symm.trans htime')
  rfl

/-- The table of a mix. It has a row for each number of workers, ascending, and in it the time of each kind of store. -/
def Tabulates (s : Suite) (measure : Benchmark → Except Stop Results) (mix : String × Mix Float) (report : Report) :
    Prop :=
  ∃ (counts : List Nat) (cell : Nat → Store.Kind → String),
    report = ⟨inDirectory s.outputDir (fileStem mix.1 ++ ".csv"), ("THREADS" :: s.kinds.map Store.Kind.name) ::
      counts.map fun n => toString n :: s.kinds.map (cell n)⟩ ∧
    counts.Perm s.settings.workerCounts ∧ counts.Pairwise (· < ·) ∧
    ∀ n ∈ counts, ∀ kind ∈ s.kinds, cell n kind ≠ "" ∧ ∃ results nanos,
      s.Gives measure ⟨n, mix.1, mix.2, kind⟩ results ∧ results.time = some nanos ∧
        cell n kind = Decimal.shortest (seconds nanos)

def tabled (s : Suite) (mixes : List (String × Mix Float)) : List (String × Mix Float) :=
  if s.settings.workerCounts = [] then [] else mixes.filter fun mix => !mix.2.usesGetWhen

theorem ordered_counts (hn : s.settings.workerCounts.Nodup) :
    (Std.ExtTreeSet.ofList s.settings.workerCounts compare).toList.Perm s.settings.workerCounts ∧
      (Std.ExtTreeSet.ofList s.settings.workerCounts compare).toList.Pairwise (· < ·) := by
  have hlt : (Std.ExtTreeSet.ofList s.settings.workerCounts compare).toList.Pairwise (· < ·) :=
    Std.ExtTreeSet.ordered_toList.imp Nat.compare_eq_lt.mp
  refine ⟨(List.perm_ext_iff_of_nodup (hlt.imp Nat.ne_of_lt) hn).mpr fun n => ?_, hlt⟩
  simp [Std.ExtTreeSet.mem_ofList]

section Tabled

variable {times : List Timing} {mix : String × Mix Float}
  (ha : accepted = .ok mixes) (hm : Measured measure) (hn : s.settings.workerCounts.Nodup)
  (hall : ∀ c ∈ s.grid mixes, ∃ results, s.Gives measure c results)
  (htimes : ∀ t, t ∈ times ↔ ∃ c ∈ s.grid mixes, s.Took measure c t) (hmix : mix ∈ mixes)

include ha htimes hmix in
theorem mem_own {t : Timing} : t ∈ times.filter (fun t => t.mixName == mix.1) ↔
    ∃ n ∈ s.settings.workerCounts, ∃ kind ∈ s.kinds, (!mix.2.usesGetWhen || kind.supportsGetWhen) = true ∧
      s.Took measure ⟨n, mix.1, mix.2, kind⟩ t := by
  rw [List.mem_filter, htimes, beq_iff_eq]
  constructor
  · rintro ⟨⟨c, hc, htook⟩, hname⟩
    obtain ⟨n, hn, other, hother, kind, hkind, hsupports, rfl⟩ := mem_grid.mp hc
    have hown : t.mixName = other.1 := by
      obtain ⟨results, nanos, -, -, rfl⟩ := htook
      rfl
    obtain rfl := eq_of_fst_eq ha hother hmix (hown.symm.trans hname)
    exact ⟨n, hn, kind, hkind, hsupports, htook⟩
  · rintro ⟨n, hn, kind, hkind, hsupports, htook⟩
    refine ⟨⟨_, mem_grid.mpr ⟨n, hn, mix, hmix, kind, hkind, hsupports, rfl⟩, htook⟩, ?_⟩
    obtain ⟨results, nanos, -, -, rfl⟩ := htook
    rfl

include hm hall hmix in
theorem exists_time (hplain : mix.2.usesGetWhen = false) :
    ∀ n ∈ s.settings.workerCounts, ∀ kind ∈ s.kinds, ∃ nanos, ∃ results,
      s.Gives measure ⟨n, mix.1, mix.2, kind⟩ results ∧ results.time = some nanos := by
  intro n hn kind hkind
  obtain ⟨results, b, hb, hresults⟩ := hall _ (mem_grid.mpr ⟨n, hn, mix, hmix, kind, hkind, by simp [hplain], rfl⟩)
  have hsome := hm.isSome_time hresults
  rw [(benchmark_eq_ok hb).1, hplain, Bool.not_false, Option.isSome_iff_exists] at hsome
  obtain ⟨nanos, hnanos⟩ := hsome
  exact ⟨nanos, results, ⟨b, hb, hresults⟩, hnanos⟩

include ha hm hall htimes hmix in
theorem own_eq_nil_iff : times.filter (fun t => t.mixName == mix.1) = [] ↔
    s.settings.workerCounts = [] ∨ mix.2.usesGetWhen = true := by
  constructor
  · intro hown
    by_contra hnot
    obtain ⟨hne, hplain⟩ := not_or.mp hnot
    obtain ⟨n, hn⟩ := List.exists_mem_of_ne_nil _ hne
    rw [Bool.not_eq_true] at hplain
    obtain ⟨nanos, results, hresults, htime⟩ := exists_time hm hall hmix hplain n hn .simple List.mem_cons_self
    have hmem := (mem_own ha htimes hmix).mpr ⟨n, hn, .simple, List.mem_cons_self, by simp [hplain], results, nanos,
      hresults, htime, rfl⟩
    rw [hown] at hmem
    cases hmem
  · refine fun h => List.eq_nil_iff_forall_not_mem.mpr fun t ht => ?_
    obtain ⟨n, hn, kind, -, -, htook⟩ := (mem_own ha htimes hmix).mp ht
    rcases h with h | h
    · rw [h] at hn
      cases hn
    · exact absurd (htook.plain hm) (by simp [h])

include ha hm hn hall htimes hmix in
theorem tabulates_of_plain (hplain : mix.2.usesGetWhen = false) (hne : s.settings.workerCounts ≠ []) :
    s.Tabulates measure mix ⟨inDirectory s.outputDir (fileStem mix.1 ++ ".csv"),
      s.timeRows (times.filter fun t => t.mixName == mix.1)⟩ := by
  have htime := exists_time hm hall hmix hplain
  choose! nanos hnanos using htime
  obtain ⟨hperm, hlt⟩ := ordered_counts hn
  have hown (t : Timing) : t ∈ (times.filter fun t => t.mixName == mix.1) ↔
      ∃ n ∈ s.settings.workerCounts, ∃ kind ∈ s.kinds, t = ⟨mix.1, n, kind.name, seconds (nanos n kind)⟩ := by
    rw [mem_own ha htimes hmix]
    refine exists_congr fun n => and_congr_right fun hn => exists_congr fun kind => and_congr_right fun hkind => ?_
    obtain ⟨results, hresults, hnanos⟩ := hnanos n hn kind hkind
    have htook : s.Took measure ⟨n, mix.1, mix.2, kind⟩ ⟨mix.1, n, kind.name, seconds (nanos n kind)⟩ :=
      ⟨results, _, hresults, hnanos, rfl⟩
    rw [hplain, Bool.not_false, Bool.true_or, and_iff_right rfl]
    exact ⟨fun h => h.eq htook, fun h => h ▸ htook⟩
  refine ⟨_, fun n kind => Decimal.shortest (seconds (nanos n kind)), ?_, hperm, hlt, fun n hn kind hkind => ?_⟩
  · rw [timeRows_eq hne hown]
  · obtain ⟨results, hresults, htime⟩ := hnanos n (hperm.mem_iff.mp hn) kind hkind
    exact ⟨Decimal.shortest_ne_empty _, results, _, hresults, htime, rfl⟩

include ha hm hn hall htimes in
theorem timeReports_tabulates :
    List.Forall₂ (s.Tabulates measure) (s.tabled mixes) (s.timeReports mixes times) := by
  -- One mix after another; those before play no part.
  suffices hsome : ∀ some ⊆ mixes, List.Forall₂ (s.Tabulates measure) (s.tabled some) (s.timeReports some times) from
    hsome mixes (List.Subset.refl _)
  intro some hsome
  induction some with
  | nil =>
      unfold tabled timeReports
      split <;> exact .nil
  | cons mix some ih =>
      obtain ⟨hmix, hsome⟩ := List.cons_subset.mp hsome
      have hrest := ih hsome
      have hown := own_eq_nil_iff ha hm hall htimes hmix
      by_cases hnone : s.settings.workerCounts = [] ∨ mix.2.usesGetWhen = true
      · have hskip : s.tabled (mix :: some) = s.tabled some := by
          unfold tabled
          split
          · rfl
          next hne => rw [List.filter_cons_of_neg (by simp [hnone.resolve_left hne])]
        rw [hskip]
        simpa only [timeReports, List.filterMap_cons, hown.mpr hnone] using hrest
      · obtain ⟨hne, hplain⟩ := not_or.mp hnone
        rw [Bool.not_eq_true] at hplain
        have htable := tabulates_of_plain ha hm hn hall htimes hmix hplain hne
        rw [tabled, if_neg hne] at hrest ⊢
        rw [List.filter_cons_of_pos (by simp [hplain])]
        obtain ⟨t, own, he⟩ := List.exists_cons_of_ne_nil (mt hown.mp hnone)
        rw [he] at htable
        simp only [timeReports, List.filterMap_cons, he]
        exact .cons htable hrest

end Tabled

/-- What a grid has written when it has come to its end: the report of each benchmark, in order, and then the tables, all
under different names in one directory. -/
structure Reported (s : Suite) (measure : Benchmark → Except Stop Results) (mixes : List (String × Mix Float))
    (reports : List Report) : Prop where
  mixes_eq : accepted = .ok mixes
  paths : reports.map Report.path = (s.resultsNames ++ s.tableNames).map (inDirectory s.outputDir)
  apart : (reports.map Report.path).Nodup
  together : ∀ name ∈ s.resultsNames ++ s.tableNames, '/' ∉ name.toList
  contents : ∃ results tables, reports = results ++ tables ∧
    List.Forall₂ (s.Shows measure) (s.grid mixes) results ∧ List.Forall₂ (s.Tabulates measure) (s.tabled mixes) tables

theorem map_eq_of_forall₂ {α β γ : Type} {f : α → γ} {g : β → γ} {as : List α} {bs : List β}
    (h : List.Forall₂ (fun a b => f a = g b) as bs) : as.map f = bs.map g := by
  induction h with
  | nil => rfl
  | cons hab _ ih => rw [List.map_cons, List.map_cons, hab, ih]

theorem map_path_tables (ha : accepted = .ok mixes) {tables : List Report}
    (h : List.Forall₂ (s.Tabulates measure) (s.tabled mixes) tables) :
    s.tableNames.map (inDirectory s.outputDir) = tables.map Report.path := by
  have hpaths : (s.tabled mixes).map (fun mix => inDirectory s.outputDir (fileStem mix.1 ++ ".csv")) =
      tables.map Report.path := by
    refine map_eq_of_forall₂ (h.imp ?_)
    rintro mix _ ⟨counts, cell, rfl, -⟩
    rfl
  rw [← hpaths, tableNames, tabled, ← mixes_of_accepted ha]
  split
  · rfl
  · simp only [List.filter_map, List.map_map, Function.comp_def]

theorem resultsPath_eq (hpos : 0 < c.workers) : s.resultsPath c =
    inDirectory s.outputDir (numberedName s!"{c.kind.name}_{fileStem c.mixName}_" c.workers) := by
  have hunit : "_" ++ ((if c.workers > 1 then "threads" else "thread") ++ ".csv") =
      if c.workers = 1 then "_thread.csv" else "_threads.csv" := by
    by_cases hone : c.workers = 1
    · rw [hone]
      rfl
    · rw [if_pos (by omega), if_neg hone]
      rfl
  rw [numberedName, ← hunit]
  simp only [resultsPath, toString, String.append_assoc]

theorem map_path_results (ha : accepted = .ok mixes) {results : List Report}
    (h : List.Forall₂ (s.Shows measure) (s.grid mixes) results) :
    s.resultsNames.map (inDirectory s.outputDir) = results.map Report.path := by
  have hpaths : (s.grid mixes).map (fun c =>
      inDirectory s.outputDir (numberedName s!"{c.kind.name}_{fileStem c.mixName}_" c.workers)) =
        results.map Report.path := by
    refine map_eq_of_forall₂ (h.imp ?_)
    rintro c _ ⟨results, ⟨b, hb, -⟩, rfl⟩
    exact (resultsPath_eq (benchmark_eq_ok hb).2).symm
  rw [← hpaths]
  simp only [resultsNames, fronts, ← mixes_of_accepted ha, grid, row, List.map_flatMap, List.flatMap_map, List.map_map,
    Function.comp_def]

theorem write_eq {reports written : List Report} (h : outlet.write reports = (written, none)) : written = reports := by
  simp only [Outlet.write, Prod.mk.injEq] at h
  obtain ⟨rfl, hnone⟩ := h
  refine (List.takeWhile_prefix _).eq_of_length ?_
  by_contra hne
  rw [if_neg hne] at hnone
  cases hnone

/-- A grid that runs to its end has written every report, and none in the place of another. -/
theorem reported_of_run {reports : List Report} (hm : Measured measure) (hn : s.settings.workerCounts.Nodup)
    (h : s.run outlet measure = (reports, none)) : ∃ mixes, s.Reported measure mixes reports := by
  simp only [run] at h
  split at h
  · cases h
  split at h
  · cases h
  next mixes ha =>
    split at h
    · cases h
    next p hcells =>
      generalize hwritten : outlet.write (s.timeReports mixes p.times) = written at h
      obtain ⟨tables, stop⟩ := written
      cases h
      obtain rfl := write_eq hwritten
      obtain ⟨⟨results, hshown, hreports⟩, hall, htimes⟩ := runCells_eq hcells
      rw [List.nil_append] at hreports
      have htables := timeReports_tabulates ha hm hn hall fun t => (htimes t).trans (or_iff_right List.not_mem_nil)
      have hpaths : (p.reports ++ s.timeReports mixes p.times).map Report.path =
          (s.resultsNames ++ s.tableNames).map (inDirectory s.outputDir) := by
        rw [hreports, List.map_append, List.map_append, map_path_results ha hshown, map_path_tables ha htables]
      refine ⟨mixes, ha, hpaths, ?_, fun name => slash_notMem_names, p.reports, _, rfl, hreports ▸ hshown, htables⟩
      rw [hpaths]
      exact (nodup_names hn).map fun _ _ => inDirectory_inj

/-- Three workers come before one in the settings, and after it in the tables. -/
theorem reported_of_run_three_before_one :
    let s : Suite := ⟨"out", ⟨[3, 1], 1, 1, 1, 2, 1, 1, 1, 2⟩⟩
    let measure (b : Benchmark) : Except Stop Results :=
      b.run ⟨(⟨0⟩ : SplitMix), fun i => ⟨i.toUInt64⟩, 100, fun _ => 250, b.workload.workers * 2500000000⟩
    ∃ reports mixes, s.run ⟨true, fun _ => true⟩ measure = (reports, none) ∧ s.Reported measure mixes reports ∧
      (reports.drop 16).map Report.lines =
        [["THREADS,SimpleHashMapBackend,MultiConditionHashMapBackend,ShardedHashMapBackend", "1,2.5,2.5,2.5",
            "3,7.5,7.5,7.5"],
          ["THREADS,SimpleHashMapBackend,MultiConditionHashMapBackend,ShardedHashMapBackend", "1,2.5,2.5,2.5",
            "3,7.5,7.5,7.5"]] := by
  intro s measure
  have hended : (s.run ⟨true, fun _ => true⟩ measure).2.isNone = true := by decide +kernel
  have hrun : s.run ⟨true, fun _ => true⟩ measure = ((s.run ⟨true, fun _ => true⟩ measure).1, none) :=
    Prod.ext rfl (Option.isNone_iff_eq_none.mp hended)
  obtain ⟨mixes, hreported⟩ := reported_of_run (measured_run _) (by decide) hrun
  exact ⟨_, mixes, hrun, hreported, by decide +kernel⟩

end Suite

end Bench

end AwaitStore
