import AwaitStore.Bench.Population
import AwaitStore.Proofs.Bench.Drawing

namespace AwaitStore.Bench

theorem fits_iff {alphabet count capacity length : Nat} (ha : 0 < alphabet) (hc : count < UInt64.size) :
    fits alphabet count capacity length = true ↔ count ≤ capacity * alphabet ^ length := by
  induction length generalizing capacity with
  | zero => simp [fits]
  | succ length ih =>
      have hpow : 0 < alphabet ^ length := Nat.pow_pos ha
      have hword : count ≤ largestWord := Nat.le_sub_one_of_lt hc
      -- nothing is lost where the product is cut off, as there is room enough already
      have hcut (n : Nat) : count ≤ min n largestWord * alphabet ^ length ↔ count ≤ n * alphabet ^ length := by
        rcases Nat.le_total n largestWord with hle | hle
        · rw [Nat.min_eq_left hle]
        · rw [Nat.min_eq_right hle]
          have hroom : count ≤ largestWord * alphabet ^ length := Nat.le_trans hword (Nat.le_mul_of_pos_right _ hpow)
          exact ⟨fun h => Nat.le_trans h (Nat.mul_le_mul_right _ hle), fun _ => hroom⟩
      have hstop : count ≤ min (capacity * alphabet) largestWord →
          count ≤ min (capacity * alphabet) largestWord * alphabet ^ length :=
        fun h => Nat.le_trans h (Nat.le_mul_of_pos_right _ hpow)
      rw [fits, Bool.or_eq_true, decide_eq_true_eq, ih, ge_iff_le, or_iff_right_of_imp hstop, hcut, Nat.pow_succ',
        Nat.mul_assoc]

example : fits 62 (UInt64.size - 1) 1 10 = false ∧ fits 62 (UInt64.size - 1) 1 11 = true := by decide

namespace Population

structure Satisfiable (p : Population) : Prop where
  some_keys : 1 ≤ p.keys
  some_values : 1 ≤ p.values
  enough_keys : p.keys ≤ 62 ^ p.keyLength
  enough_values : p.values ≤ 256 ^ p.valueLength

theorem one_le_of_check {p q : Population} (h : p.check = .ok q) : 1 ≤ p.keys ∧ 1 ≤ p.values := by
  unfold check at h
  split at h
  · cases h
  next hnone => omega

theorem check_eq_ok_iff {p q : Population} (hkeys : p.keys < UInt64.size) (hvalues : p.values < UInt64.size) :
    p.check = .ok q ↔ q = p ∧ p.Satisfiable := by
  have hfitKeys : fits Draw.letters.length p.keys 1 p.keyLength = true ↔ p.keys ≤ 62 ^ p.keyLength := by
    rw [fits_iff (by decide) hkeys, Nat.one_mul]
    rfl
  have hfitValues : fits 256 p.values 1 p.valueLength = true ↔ p.values ≤ 256 ^ p.valueLength := by
    rw [fits_iff (by decide) hvalues, Nat.one_mul]
  constructor
  · intro h
    simp only [check, Bool.not_eq_true'] at h
    split at h
    · cases h
    next hnone =>
      split at h
      · cases h
      next hfit =>
        split at h
        · cases h
        next hfit' =>
          cases h
          rw [Bool.not_eq_false] at hfit hfit'
          exact ⟨rfl, by omega, by omega, hfitKeys.mp hfit, hfitValues.mp hfit'⟩
  · rintro ⟨rfl, h⟩
    have hnone : ¬ (q.keys = 0 ∨ q.values = 0) := by
      have hone := h.some_keys
      have hone' := h.some_values
      omega
    simp only [check, if_neg hnone, hfitKeys.mpr h.enough_keys, hfitValues.mpr h.enough_values]
    rfl

/-- The test tells the populations that can be drawn from those that cannot. -/
theorem check_exact (p : Population) (hkeys : p.keys < UInt64.size) (hvalues : p.values < UInt64.size) :
    (∀ q, p.check = .ok q ↔ q = p ∧ p.Satisfiable) ∧
      (p.check = .ok p → ∀ tries, 0 < tries →
        Draw.Unstuck (Draw.text tries p.keyLength) p.keys ∧ Draw.Unstuck (Draw.bytes p.valueLength) p.values) ∧
      (p.check ≠ .ok p → 0 < p.keys → 0 < p.values → ∀ tries, 0 < tries →
        Draw.Endless (Draw.text tries p.keyLength) (Draw.texts p.keyLength) p.keys ∨
          Draw.Endless (Draw.bytes p.valueLength) (Draw.byteStrings p.valueLength) p.values) := by
  obtain ⟨hfinite, hncard⟩ := Draw.ncard_texts p.keyLength
  obtain ⟨hfinite', hncard'⟩ := Draw.ncard_byteStrings p.valueLength
  refine ⟨fun q => check_eq_ok_iff hkeys hvalues, fun hok tries ht => ?_, fun hbad hpos hpos' tries ht => ?_⟩
  · obtain ⟨-, h⟩ := (check_eq_ok_iff hkeys hvalues).mp hok
    exact ⟨(Draw.from_text ht).unstuck (hncard ▸ h.enough_keys), Draw.from_bytes.unstuck (hncard' ▸ h.enough_values)⟩
  · have hnot : ¬ p.Satisfiable := fun h => hbad ((check_eq_ok_iff hkeys hvalues).mpr ⟨rfl, h⟩)
    rcases Nat.lt_or_ge (62 ^ p.keyLength) p.keys with hlt | hge
    · exact .inl ((Draw.from_text ht).endless hfinite (hncard ▸ hlt))
    rcases Nat.lt_or_ge (256 ^ p.valueLength) p.values with hlt | hge'
    · exact .inr (Draw.from_bytes.endless hfinite' (hncard' ▸ hlt))
    · exact absurd ⟨hpos, hpos', hge, hge'⟩ hnot

/-- All texts of one letter can be keys; one key more, and there is no end to looking for it. -/
theorem check_exact_one_letter :
    let full : Population := ⟨.simple, 62, 256, 1, 1⟩
    let crowded : Population := ⟨.simple, 63, 256, 1, 1⟩
    full.check = .ok full ∧ Draw.Unstuck (Draw.text 1 1) 62 ∧ Draw.Unstuck (Draw.bytes 1) 256 ∧
      crowded.check = .error (.fewKeys 63 1) ∧ Draw.Endless (Draw.text 1 1) (Draw.texts 1) 63 := by
  intro full crowded
  have hfull : full.check = .ok full := by decide
  have hcrowded : crowded.check = .error (.fewKeys 63 1) := by decide
  obtain ⟨-, haccepted, -⟩ := check_exact full (by decide) (by decide)
  obtain ⟨hkeys, hvalues⟩ := haccepted hfull 1 (by decide)
  obtain ⟨-, -, hrejected⟩ := check_exact crowded (by decide) (by decide)
  refine ⟨hfull, hkeys, hvalues, hcrowded, ?_⟩
  have hbad : crowded.check ≠ .ok crowded := by
    rw [hcrowded]
    exact nofun
  refine (hrejected hbad (by decide) (by decide) 1 (by decide)).resolve_right fun h => ?_
  -- there are 256 byte strings of one byte
  obtain ⟨chosen, words, -, hwords⟩ := hvalues.ends ∅ 256 (Nat.zero_le _) (Nat.le_add_left _ _)
  have hnone := h.never (Recorded.ofWords words) 256
  have hsome := hwords (Recorded.ofWords (words ++ [])) _ (Recorded.gives words [] ⟨0⟩)
  rw [List.append_nil, hnone] at hsome
  cases hsome

end Population

end AwaitStore.Bench
