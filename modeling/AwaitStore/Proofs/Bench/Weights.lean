import AwaitStore.Proofs.Bench.KeyRanges

namespace AwaitStore.Bench.Mix

variable {weight : Action → Rat} {m : Mix Rat} {x : Rat} {a : Action} {i n : Nat}

def threshold (weight : Action → Rat) (n : Nat) : Rat := ((Action.all.take n).map weight).sum

/-- No weight is negative, and they add up to one or nearly. -/
structure Acceptable (weight : Action → Rat) : Prop where
  nonneg : ∀ a, 0 ≤ weight a
  near : |1 - threshold weight 5| ≤ 1 / 1000

section Thresholds

theorem threshold_succ (ha : Action.all[i]? = some a) : threshold weight (i + 1) = threshold weight i + weight a := by
  simp [threshold, List.take_add_one, ha]

theorem threshold_le_succ (h : ∀ a, 0 ≤ weight a) (i : Nat) : threshold weight i ≤ threshold weight (i + 1) := by
  cases ha : Action.all[i]? with
  | some a =>
      rw [threshold_succ ha]
      exact le_add_of_nonneg_right (h a)
  | none => simp [threshold, List.take_add_one, ha]

theorem threshold_mono (h : ∀ a, 0 ≤ weight a) : Monotone (threshold weight) :=
  monotone_nat_of_le_succ (threshold_le_succ h)

theorem exists_between (h0 : 0 ≤ x) (hx : x < threshold weight n) :
    ∃ i < n, threshold weight i ≤ x ∧ x < threshold weight (i + 1) := by
  induction n with
  | zero => exact absurd hx (not_lt_of_ge h0)
  | succ n ih =>
      by_cases hn : x < threshold weight n
      · obtain ⟨i, hi, hbetween⟩ := ih hn
        exact ⟨i, Nat.lt_succ_of_lt hi, hbetween⟩
      · exact ⟨n, Nat.lt_succ_self n, not_lt.mp hn, hx⟩

theorem cumulative_eq (ha : Action.all[i]? = some a) : cumulative weight a = threshold weight (i + 1) := by
  have hlt : i < 5 := (List.getElem?_eq_some_iff.mp ha).1
  interval_cases i <;> cases ha <;>
    simp only [threshold, cumulative, Action.all, List.take_succ_cons, List.take_zero, List.map_cons, List.map_nil,
      List.sum_cons, List.sum_nil] <;>
    ring

end Thresholds

section Accepted

theorem ofWeights_eq_ok_iff : ofWeights weight = .ok m ↔ Acceptable weight ∧ m = ⟨cumulative weight⟩ := by
  have hall (a : Action) : a ∈ Action.all := by cases a <;> decide
  have hnegative : (Action.all.any fun a => decide (weight a < Weight.zero) || !Weight.finite (weight a)) = false ↔
      ∀ a, 0 ≤ weight a := by
    simp only [List.any_eq_false, Bool.or_eq_true, decide_eq_true_eq, not_or]
    exact ⟨fun h a => not_lt.mp (h a (hall a)).1, fun h a _ => ⟨not_lt.mpr (h a), nofun⟩⟩
  have hnear : Weight.nearOne (cumulative weight .getWhen) = true ↔ |1 - threshold weight 5| ≤ 1 / 1000 := by
    rw [cumulative_eq (i := 4) rfl, abs_le]
    refine decide_eq_true_iff.trans ⟨fun ⟨hlow, hhigh⟩ => ⟨?_, ?_⟩, fun ⟨hlow, hhigh⟩ => ⟨?_, ?_⟩⟩ <;> linarith
  rw [ofWeights, ite_eq_iff]
  simp only [Bool.or_eq_true, Bool.not_eq_true', not_or, Bool.not_eq_true, Bool.not_eq_false, hnegative, hnear,
    reduceCtorEq, and_false, false_or, Except.ok.injEq]
  exact ⟨fun ⟨⟨h, hsum⟩, he⟩ => ⟨⟨h, hsum⟩, he.symm⟩, fun ⟨⟨h, hsum⟩, he⟩ => ⟨⟨h, hsum⟩, he.symm⟩⟩

theorem weight_of_ofWeights (h : ofWeights weight = .ok m) (a : Action) : m.weight a = weight a := by
  obtain ⟨-, rfl⟩ := ofWeights_eq_ok_iff.mp h
  cases a <;> simp only [Mix.weight, cumulative] <;> ring

theorem draws_iff (h : ofWeights weight = .ok m) : m.draws a = true ↔ 0 < weight a := by
  rw [draws, weight_of_ofWeights h, decide_eq_true_eq]
  rfl

end Accepted

section Draws

theorem getElem?_timed : Action.timed[i]? = some a ↔ i < 4 ∧ Action.all[i]? = some a := by
  have htimed : Action.timed = Action.all.take 4 := rfl
  rw [htimed, List.getElem?_take]
  split <;> simp [*]

theorem actionAt_of_between (h : ofWeights weight = .ok m) (ha : Action.timed[i]? = some a)
    (hlow : threshold weight i ≤ x) (hhigh : x < threshold weight (i + 1)) : m.actionAt x = a := by
  obtain ⟨hnonneg, rfl⟩ := ofWeights_eq_ok_iff.mp h
  have hupTo {j : Nat} {b : Action} (hb : Action.timed[j]? = some b) : cumulative weight b = threshold weight (j + 1) :=
    cumulative_eq (getElem?_timed.mp hb).2
  obtain ⟨hi, he⟩ := List.getElem?_eq_some_iff.mp ha
  have hfind : (Action.timed.find? fun b => x < cumulative weight b) = some a := by
    refine List.find?_eq_some_iff_getElem.mpr ⟨?_, i, hi, he, fun j hj => ?_⟩
    · rw [hupTo ha]
      exact decide_eq_true hhigh
    · have hle : threshold weight (j + 1) ≤ x := le_trans (threshold_mono hnonneg.nonneg hj) hlow
      rw [hupTo (List.getElem?_eq_getElem (Nat.lt_trans hj hi)), Bool.not_eq_true']
      exact decide_eq_false (not_lt.mpr hle)
  rw [actionAt, hfind, Option.getD_some]

theorem actionAt_of_beyond (h : ofWeights weight = .ok m) (hx : threshold weight 4 ≤ x) : m.actionAt x = m.last := by
  obtain ⟨hnonneg, rfl⟩ := ofWeights_eq_ok_iff.mp h
  have hfind : (Action.timed.find? fun b => x < cumulative weight b) = none := by
    refine List.find?_eq_none.mpr fun b hb => ?_
    obtain ⟨j, hj⟩ := List.mem_iff_getElem?.mp hb
    obtain ⟨hlt, hall⟩ := getElem?_timed.mp hj
    rw [cumulative_eq hall, decide_eq_true_eq]
    exact not_lt.mpr (le_trans (threshold_mono hnonneg.nonneg hlt) hx)
  rw [actionAt, hfind, Option.getD_none]

theorem last_eq (h : ofWeights weight = .ok m) : (Action.all.filter fun a => 0 < weight a).getLast? = some m.last := by
  obtain ⟨hacceptable, -⟩ := ofWeights_eq_ok_iff.mp h
  have hsome : ∃ a ∈ Action.all, 0 < weight a := by
    by_contra hnone
    have hzero : threshold weight 5 = 0 := by
      refine List.sum_eq_zero fun w hw => ?_
      obtain ⟨a, ha, rfl⟩ := List.mem_map.mp hw
      exact le_antisymm (not_lt.mp fun hpos => hnone ⟨a, ha, hpos⟩) (hacceptable.nonneg a)
    have hnear := hacceptable.near
    rw [hzero] at hnear
    norm_num at hnear
  have hdraws : (fun a => decide (0 < weight a)) = m.draws := by
    funext a
    rw [Bool.eq_iff_iff, decide_eq_true_eq, draws_iff h]
  obtain ⟨a, ha, hpos⟩ := hsome
  rw [hdraws, List.getLast?_filter, last]
  cases hfind : Action.all.reverse.find? m.draws with
  | some b => rfl
  | none =>
      have hnot := List.find?_eq_none.mp hfind a (List.mem_reverse.mpr ha)
      exact absurd ((draws_iff h).mpr hpos) hnot

end Draws

/-- What is drawn at a number: below the last threshold the action whose stretch it lies in, from there on the last
action with a weight. -/
structure DrawnAt (weight : Action → Rat) (m : Mix Rat) (x : Rat) : Prop where
  inside : x < threshold weight 4 → ∀ i a, Action.timed[i]? = some a →
    (m.actionAt x = a ↔ threshold weight i ≤ x ∧ x < threshold weight (i + 1))
  measured : x < threshold weight 4 → m.actionAt x ∈ Action.timed
  beyond : threshold weight 4 ≤ x → (Action.all.filter fun a => 0 < weight a).getLast? = some (m.actionAt x)

theorem drawnAt_of_ofWeights (h : ofWeights weight = .ok m) (h0 : 0 ≤ x) : DrawnAt weight m x := by
  have hinside (hx : x < threshold weight 4) : ∃ i a, Action.timed[i]? = some a ∧ m.actionAt x = a ∧
      threshold weight i ≤ x ∧ x < threshold weight (i + 1) := by
    obtain ⟨i, hi, hlow, hhigh⟩ := exists_between h0 hx
    obtain ⟨a, ha⟩ : ∃ a, Action.timed[i]? = some a := ⟨_, List.getElem?_eq_getElem hi⟩
    exact ⟨i, a, ha, actionAt_of_between h ha hlow hhigh, hlow, hhigh⟩
  refine ⟨fun hx i a ha => ⟨?_, fun ⟨hlow, hhigh⟩ => actionAt_of_between h ha hlow hhigh⟩, fun hx => ?_, fun hx => ?_⟩
  · rintro rfl
    obtain ⟨j, b, hb, he, hbetween⟩ := hinside hx
    have hlt := (List.getElem?_eq_some_iff.mp ha).1
    have hij : i = j := (List.getElem?_inj hlt (by decide)).mp (ha.trans (he ▸ hb.symm))
    exact hij ▸ hbetween
  · obtain ⟨j, b, hb, he, -⟩ := hinside hx
    exact he ▸ List.mem_of_getElem? hb
  · rw [actionAt_of_beyond h hx]
    exact last_eq h

theorem DrawnAt.weighted (h : DrawnAt weight m x) : 0 < weight (m.actionAt x) := by
  rcases lt_or_ge x (threshold weight 4) with hx | hx
  · obtain ⟨i, hi⟩ := List.mem_iff_getElem?.mp (h.measured hx)
    obtain ⟨hlow, hhigh⟩ := (h.inside hx i _ hi).mp rfl
    have hsucc : threshold weight (i + 1) = threshold weight i + weight (m.actionAt x) :=
      threshold_succ (getElem?_timed.mp hi).2
    linarith
  · have hmem := List.mem_of_getLast? (h.beyond hx)
    simpa using (List.mem_filter.mp hmem).2

/-- A mix draws every action as often as its weight says, and none without a weight. So a workload that is usable with
the mix can carry out whatever is drawn. -/
theorem drawn_by_weight (weight : Action → Rat) :
    ((∃ m, ofWeights weight = .ok m) ↔ Acceptable weight) ∧
      ∀ m, ofWeights weight = .ok m → (∀ a, m.weight a = weight a) ∧
        ∀ x, 0 ≤ x → DrawnAt weight m x ∧ 0 < weight (m.actionAt x) ∧
          (m.actionAt x = .getWhen → m.usesGetWhen = true) ∧
          (m.actionAt x = .multiPut ∨ m.actionAt x = .multiGet → m.usesMultiKey = true) ∧
          ∀ p w, Workload.unusable? p m w = none →
            (m.actionAt x = .getWhen → p.kind.supportsGetWhen = true) ∧
            (m.actionAt x = .multiPut ∨ m.actionAt x = .multiGet →
              ∀ count ∈ w.multiCount.places p.keys, count ≤ w.keys.reachable p.keys) := by
  refine ⟨⟨fun ⟨m, h⟩ => (ofWeights_eq_ok_iff.mp h).1, fun h => ⟨_, ofWeights_eq_ok_iff.mpr ⟨h, rfl⟩⟩⟩, ?_⟩
  intro m h
  refine ⟨weight_of_ofWeights h, fun x h0 => ?_⟩
  have hdrawn := drawnAt_of_ofWeights h h0
  have hdraws : m.draws (m.actionAt x) = true := (draws_iff h).mpr hdrawn.weighted
  have hreads : m.actionAt x = .getWhen → m.usesGetWhen = true := by
    intro he
    rwa [he] at hdraws
  have hkeys : m.actionAt x = .multiPut ∨ m.actionAt x = .multiGet → m.usesMultiKey = true := by
    rw [usesMultiKey, Bool.or_eq_true]
    exact Or.imp (fun he => he ▸ hdraws) fun he => he ▸ hdraws
  refine ⟨hdrawn, hdrawn.weighted, hreads, hkeys, fun p w hw => ?_⟩
  obtain ⟨-, -, hcounts, hkind⟩ := Workload.unusable?_eq_none_iff.mp hw
  exact ⟨fun he => hkind (hreads he), fun he => Workload.forall_places_le_iff.mpr (hcounts (hkeys he))⟩

/-- The weights stop short of one; at 0.4995 the second part begins, and above 0.9995 it goes on. -/
theorem drawn_by_weight_gap :
    let weight : Action → Rat := fun a => if a = .put then 4995 / 10000 else if a = .multiPut then 1 / 2 else 0
    let m : Mix Rat := ⟨cumulative weight⟩
    ofWeights weight = .ok m ∧ m.actionAt (4994 / 10000) = .put ∧ m.actionAt (4995 / 10000) = .multiPut ∧
      m.actionAt (9999 / 10000) = .multiPut ∧ m.usesMultiKey = true ∧ m.usesGetWhen = false := by
  intro weight m
  have hnonneg (a : Action) : 0 ≤ weight a := by cases a <;> decide +kernel
  have hm : ofWeights weight = .ok m := ofWeights_eq_ok_iff.mpr ⟨⟨hnonneg, by decide +kernel⟩, rfl⟩
  obtain ⟨-, hdraws⟩ := drawn_by_weight weight
  obtain ⟨-, hdrawn⟩ := hdraws m hm
  obtain ⟨hfirst, -⟩ := hdrawn (4994 / 10000) (by decide +kernel)
  obtain ⟨hsecond, -, -, hkeys, -⟩ := hdrawn (4995 / 10000) (by decide +kernel)
  obtain ⟨hgap, -⟩ := hdrawn (9999 / 10000) (by decide +kernel)
  have hput := (hfirst.inside (by decide +kernel) 0 .put rfl).mpr (by decide +kernel)
  have hmultiPut := (hsecond.inside (by decide +kernel) 2 .multiPut rfl).mpr (by decide +kernel)
  have hlast : (Action.all.filter fun a => 0 < weight a).getLast? = some .multiPut := by decide +kernel
  have hbeyond := hgap.beyond (by decide +kernel)
  rw [hlast] at hbeyond
  exact ⟨hm, hput, hmultiPut, (Option.some.inj hbeyond).symm, hkeys (.inl hmultiPut), by decide +kernel⟩

end AwaitStore.Bench.Mix
