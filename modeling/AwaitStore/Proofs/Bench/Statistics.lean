import AwaitStore.Bench.Run
import Mathlib

namespace AwaitStore.Bench

/-- An action and how long it took, in nanoseconds. -/
abbrev Sample := Action × UInt64

def latencies (a : Action) (log : List Sample) : List Nat := (log.filter fun s => s.1 = a).map fun s => s.2.toNat

/-- They can be counted in a word, and the sum of their squares fits its own. -/
structure Fitting (nanos : List Nat) : Prop where
  count : nanos.length < UInt64.size
  squares : (nanos.map (· ^ 2)).sum < 2 ^ 128

namespace Samples

variable {nanos : List Nat} {s : Samples}

def total (nanos : List Nat) : Samples :=
  ⟨BitVec.ofNat 128 nanos.sum, BitVec.ofNat 128 (nanos.map (· ^ 2)).sum, UInt64.ofNat nanos.length⟩

theorem total_nil : total [] = .none := rfl

theorem merge_total (first second : List Nat) : (total first).merge (total second) = total (first ++ second) := by
  simp only [total, merge, List.sum_append, List.map_append, List.length_append, BitVec.ofNat_add, UInt64.ofNat_add]

theorem merge_none (s : Samples) : s.merge .none = s := by
  simp [merge, none]

theorem add_eq_merge (n : UInt64) (s : Samples) : s.add n = s.merge (total [n.toNat]) := by
  simp only [add, merge, total, List.sum_singleton, List.map_singleton, List.length_singleton, pow_two, BitVec.ofNat_mul]
  rfl

theorem total_of_perm {other : List Nat} (h : nanos.Perm other) : total nanos = total other := by
  rw [total, total, h.sum_eq, (h.map _).sum_eq, h.length_eq]

def variance (s : Samples) : Rat := s.sumSquares.toNat / s.count.toNat - (s.sum.toNat / s.count.toNat) ^ 2

structure Sums (s : Samples) (nanos : List Nat) : Prop where
  sum_eq : s.sum.toNat = nanos.sum
  sumSquares_eq : s.sumSquares.toNat = (nanos.map (· ^ 2)).sum
  count_eq : s.count.toNat = nanos.length
  spread : s.sum.toNat * s.sum.toNat ≤ s.count.toNat * s.sumSquares.toNat
  level : ∀ n, (∀ x ∈ nanos, x = n) → s.count.toNat * s.sumSquares.toNat = s.sum.toNat * s.sum.toNat
  variance_nonneg : 0 ≤ s.variance

theorem sum_mul_sum_le (nanos : List Nat) : nanos.sum * nanos.sum ≤ nanos.length * (nanos.map (· ^ 2)).sum := by
  have h := sq_sum_le_card_mul_sum_sq (s := Finset.univ) (f := fun i : Fin nanos.length => nanos[i.1])
  rw [Fin.sum_univ_getElem, Fin.sum_univ_fun_getElem nanos (· ^ 2)] at h
  simpa [pow_two] using h

theorem sum_mul_sum_eq {n : Nat} (h : ∀ x ∈ nanos, x = n) :
    nanos.length * (nanos.map (· ^ 2)).sum = nanos.sum * nanos.sum := by
  rw [List.eq_replicate_of_mem h]
  simp only [List.map_replicate, List.sum_replicate, List.length_replicate, smul_eq_mul]
  ring

theorem variance_nonneg (h : s.sum.toNat * s.sum.toNat ≤ s.count.toNat * s.sumSquares.toNat) : 0 ≤ s.variance := by
  have hle : (s.sum.toNat : Rat) ^ 2 ≤ s.count.toNat * s.sumSquares.toNat := by
    rw [pow_two]
    exact_mod_cast h
  rcases Nat.eq_zero_or_pos s.count.toNat with hzero | hpos
  · simp [variance, hzero]
  · have hcount : (0 : Rat) < s.count.toNat := by exact_mod_cast hpos
    rw [variance, sub_nonneg, div_pow, div_le_div_iff₀ (by positivity) hcount]
    calc (s.sum.toNat : Rat) ^ 2 * s.count.toNat
        ≤ s.count.toNat * s.sumSquares.toNat * s.count.toNat := mul_le_mul_of_nonneg_right hle hcount.le
      _ = s.sumSquares.toNat * s.count.toNat ^ 2 := by ring

theorem sums_total (h : Fitting nanos) (hwords : ∀ n ∈ nanos, n < UInt64.size) : Sums (total nanos) nanos := by
  have hsum : nanos.sum < 2 ^ 128 := by
    have hle := List.sum_le_card_nsmul nanos (UInt64.size - 1) fun n hn => Nat.le_sub_one_of_lt (hwords n hn)
    have hcount := h.count
    rw [smul_eq_mul] at hle
    have hmul : nanos.length * (UInt64.size - 1) ≤ UInt64.size * (UInt64.size - 1) := Nat.mul_le_mul_right _ hcount.le
    exact lt_of_le_of_lt (hle.trans hmul) (by decide)
  have hsumEq : (total nanos).sum.toNat = nanos.sum := Nat.mod_eq_of_lt hsum
  have hsquaresEq : (total nanos).sumSquares.toNat = (nanos.map (· ^ 2)).sum := Nat.mod_eq_of_lt h.squares
  have hcountEq : (total nanos).count.toNat = nanos.length := Nat.mod_eq_of_lt h.count
  have hspread : (total nanos).sum.toNat * (total nanos).sum.toNat ≤
      (total nanos).count.toNat * (total nanos).sumSquares.toNat := by
    rw [hsumEq, hsquaresEq, hcountEq]
    exact sum_mul_sum_le nanos
  refine ⟨hsumEq, hsquaresEq, hcountEq, hspread, fun n hn => ?_, variance_nonneg hspread⟩
  rw [hsumEq, hsquaresEq, hcountEq]
  exact sum_mul_sum_eq hn

end Samples

section Latencies

variable {a : Action} {log : List Sample}

theorem latencies_append (first second : List Sample) :
    latencies a (first ++ second) = latencies a first ++ latencies a second := by
  simp only [latencies, List.filter_append, List.map_append]

theorem latencies_perm {other : List Sample} (h : log.Perm other) : (latencies a log).Perm (latencies a other) :=
  (h.filter _).map _

theorem lt_of_mem_latencies {n : Nat} (h : n ∈ latencies a log) : n < UInt64.size := by
  obtain ⟨s, -, rfl⟩ := List.mem_map.mp h
  exact s.2.toNat_lt

end Latencies

namespace Results

variable {a : Action} {log : List Sample}

theorem samples_merge (r other : Results) (a : Action) :
    (r.merge other).samples a = (r.samples a).merge (other.samples a) := by
  cases a <;> rfl

theorem samples_add (ha : a ≠ .getWhen) (s : Sample) (r : Results) :
    (r.add s.1 s.2).samples a = (r.samples a).merge (.total (latencies a [s])) := by
  obtain ⟨action, nanos⟩ := s
  by_cases he : action = a
  · subst he
    have hsample : latencies action [(action, nanos)] = [nanos.toNat] := by simp [latencies]
    rw [hsample, ← Samples.add_eq_merge]
    cases action <;> first | rfl | exact absurd rfl ha
  · have hnone : latencies a [(action, nanos)] = [] := by simp [latencies, he]
    rw [hnone, Samples.total_nil, Samples.merge_none]
    cases action <;> cases a <;> first | rfl | exact absurd rfl he

def addAll (log : List Sample) (r : Results) : Results := log.foldl (fun r s => r.add s.1 s.2) r

theorem samples_addAll (ha : a ≠ .getWhen) (log : List Sample) :
    (empty.addAll log).samples a = .total (latencies a log) := by
  induction log using List.reverseRecOn with
  | nil => cases a <;> rfl
  | append_singleton log s ih =>
      rw [addAll, List.foldl_append, List.foldl_cons, List.foldl_nil, samples_add ha, ← addAll, ih,
        Samples.merge_total, ← latencies_append]

theorem samples_mergeAll (ha : a ≠ .getWhen) (logs : List (List Sample)) :
    ((logs.map fun log => empty.addAll log).foldl merge empty).samples a = .total (latencies a logs.flatten) := by
  induction logs using List.reverseRecOn with
  | nil => cases a <;> rfl
  | append_singleton logs log ih =>
      rw [List.map_append, List.foldl_append, List.map_singleton, List.foldl_cons, List.foldl_nil, samples_merge, ih,
        samples_addAll ha, Samples.merge_total, ← latencies_append, List.flatten_append, List.flatten_singleton]

theorem samples_congr {r other : Results} (h : ∀ a, a ≠ .getWhen → r.samples a = other.samples a) (a : Action) :
    r.samples a = other.samples a := by
  by_cases ha : a = .getWhen
  · subst ha
    rfl
  · exact h a ha

end Results

/-- How results come about: nothing is in them at first, samples are added and other results merged in, and the time of
the whole run is noted. -/
inductive History where
  | fresh
  | add (sample : Sample) (before : History)
  | merge (target other : History)
  | note (elapsed : Nat) (before : History)

namespace History

variable {a : Action}

def results : History → Results
  | fresh => .empty
  | add sample before => before.results.add sample.1 sample.2
  | merge target other => target.results.merge other.results
  | note elapsed before => { before.results with time := some elapsed }

def log : History → List Sample
  | fresh => []
  | add sample before => before.log ++ [sample]
  | merge target other => target.log ++ other.log
  | note _ before => before.log

theorem samples_results (ha : a ≠ .getWhen) (h : History) : h.results.samples a = .total (latencies a h.log) := by
  induction h with
  | fresh => exact Results.samples_addAll ha []
  | add sample before ih => rw [results, log, Results.samples_add ha, ih, Samples.merge_total, ← latencies_append]
  | merge target other ih ih' =>
      rw [results, log, Results.samples_merge, ih, ih', Samples.merge_total, ← latencies_append]
  | note elapsed before ih =>
      rw [log, ← ih]
      cases a <;> rfl

/-- Only the samples matter, and not in which order they have come together. -/
theorem samples_eq_addAll {h : History} {log : List Sample} (hlog : h.log.Perm log) (a : Action) :
    h.results.samples a = (Results.empty.addAll log).samples a := by
  refine Results.samples_congr (fun a ha => ?_) a
  rw [samples_results ha, Results.samples_addAll ha, Samples.total_of_perm (latencies_perm hlog)]

theorem sums {h : History} (ha : a ≠ .getWhen) (hfits : Fitting (latencies a h.log)) :
    Samples.Sums (h.results.samples a) (latencies a h.log) := by
  rw [samples_results ha]
  exact Samples.sums_total hfits fun _ => lt_of_mem_latencies

end History

section Workers

variable {ρ : Type} {r : Run ρ} {total : Results}

theorem Run.merged_eq_ok (h : r.merged = .ok total) :
    total = (r.workers.map Worker.results).foldl Results.merge Results.empty := by
  rw [List.foldl_map]
  rw [merged] at h
  generalize r.workers = workers at h ⊢
  generalize Results.empty = start at h ⊢
  induction workers generalizing start with
  | nil =>
      cases h
      rfl
  | cons w workers ih =>
      rw [List.foldlM_cons] at h
      cases hphase : w.phase with
      | failed error =>
          simp only [hphase] at h
          cases h
      | working | asleep | done =>
          simp only [hphase] at h
          exact ih _ h

theorem Run.samples_merged (h : r.merged = .ok total) {logs : List (List Sample)}
    (hlogs : r.workers.map Worker.results = logs.map fun log => Results.empty.addAll log) (a : Action) :
    total.samples a = (Results.empty.addAll logs.flatten).samples a := by
  refine Results.samples_congr (fun a ha => ?_) a
  rw [Run.merged_eq_ok h, hlogs, Results.samples_mergeAll ha, Results.samples_addAll ha]

end Workers

/-- The statistics of a run do not depend on who took which samples and in which order the results were merged, and
while the sums fit their words they leave a variance that is not negative, and none if all latencies are equal. -/
theorem statistics_of_samples :
    (∀ (h : History) log, h.log.Perm log → ∀ a, h.results.samples a = (Results.empty.addAll log).samples a) ∧
      (∀ {ρ : Type} (r : Run ρ) (total : Results), r.merged = .ok total → ∀ logs : List (List Sample),
        r.workers.map Worker.results = (logs.map fun log => Results.empty.addAll log) →
          ∀ a, total.samples a = (Results.empty.addAll logs.flatten).samples a) ∧
      (∀ r other : Results, (r.merge other).time = r.time) ∧
      (∀ (r : Results) nanos, r.add .getWhen nanos = r) ∧
      ∀ (h : History) a, a ≠ .getWhen → Fitting (latencies a h.log) →
        Samples.Sums (h.results.samples a) (latencies a h.log) :=
  ⟨fun _ _ hlog => History.samples_eq_addAll hlog, fun _ _ h _ hlogs => Run.samples_merged h hlogs, fun _ _ => rfl,
    fun _ _ => rfl, fun _ _ ha hfits => History.sums ha hfits⟩

/-- Two workers share three writes; the results are those of one, and so are the mean of 4 and the variance of 2/3. -/
theorem statistics_of_samples_two_workers :
    let first : History := .add (.put, 5) (.add (.getWhen, 9) (.add (.put, 4) .fresh))
    let h : History := .merge (.note 100 .fresh) (.merge (.add (.put, 3) .fresh) first)
    h.results.samples .put = (Results.empty.addAll [(.getWhen, 9), (.put, 3), (.put, 4), (.put, 5)]).samples .put ∧
      h.results.time = some 100 ∧ Samples.Sums (h.results.samples .put) [3, 4, 5] ∧
      (h.results.samples .put).variance = 2 / 3 := by
  intro first h
  obtain ⟨hmerged, -, htime, -, hsums⟩ := statistics_of_samples
  refine ⟨hmerged h _ (by decide) .put, htime _ _, ?_, by decide +kernel⟩
  have hlatencies : latencies .put h.log = [3, 4, 5] := by decide
  exact hlatencies ▸ hsums h .put nofun (hlatencies ▸ ⟨by decide, by decide⟩)

end AwaitStore.Bench
