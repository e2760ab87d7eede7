import AwaitStore.Bench.Run
import AwaitStore.Proofs.Bench.Drawing

namespace AwaitStore.Bench

section Places

variable {index : Int64} {length p : Nat} {r : IndexRange}

theorem clampIndex_lt (index : Int64) (h : 0 < length) : clampIndex index length < length := by
  have hle : clampIndex index length ≤ length - 1 := Nat.min_le_right _ _
  omega

theorem clampIndex_mono {a b : Int64} (h : a ≤ b) : clampIndex a length ≤ clampIndex b length := by
  have hle := Int64.le_iff_toInt_le.mp h
  simp only [clampIndex]
  omega

namespace IndexRange

def indices (r : IndexRange) : Set Int64 := {i | r.low ≤ i ∧ i ≤ r.high}

def places (r : IndexRange) (length : Nat) : Set Nat := (clampIndex · length) '' r.indices

theorem mem_places_iff : p ∈ r.places length ↔ clampIndex r.low length ≤ p ∧ p ≤ clampIndex r.high length := by
  constructor
  · rintro ⟨i, ⟨hlow, hhigh⟩, rfl⟩
    exact ⟨clampIndex_mono hlow, clampIndex_mono hhigh⟩
  · rintro ⟨hlow, hhigh⟩
    rcases Nat.eq_or_lt_of_le hlow with rfl | hlow
    · exact ⟨r.low, ⟨Int64.le_refl _, r.low_le_high⟩, rfl⟩
    rcases Nat.eq_or_lt_of_le hhigh with rfl | hhigh
    · exact ⟨r.high, ⟨r.low_le_high, Int64.le_refl _⟩, rfl⟩
    have hmax := r.high.toInt_lt
    simp only [clampIndex] at hlow hhigh
    have hindex : (Int64.ofNat p).toInt = p := Int64.toInt_ofNat_of_lt (by omega)
    refine ⟨Int64.ofNat p, ⟨?_, ?_⟩, ?_⟩
    · rw [Int64.le_iff_toInt_le, hindex]
      omega
    · rw [Int64.le_iff_toInt_le, hindex]
      omega
    · simp only [clampIndex, hindex]
      omega

theorem places_eq : r.places length = Set.Icc (clampIndex r.low length) (clampIndex r.high length) :=
  Set.ext fun _ => mem_places_iff

theorem finite_places : (r.places length).Finite := places_eq ▸ Set.finite_Icc _ _

/-- The number that the test computes. -/
theorem ncard_places : (r.places length).ncard = r.reachable length := by
  have hle : clampIndex r.low length ≤ clampIndex r.high length := clampIndex_mono r.low_le_high
  rw [places_eq, ← Finset.coe_Icc, Set.ncard_coe_finset, Nat.card_Icc, reachable]
  omega

end IndexRange

end Places

section Indices

variable {r : IndexRange} {index : Int64} {tries : Nat}

theorem bmod_emod_size (n : Int) : n.bmod (2 ^ 64) % 2 ^ 64 = n % 2 ^ 64 := Int.bmod_emod (m := 2 ^ 64)

theorem toNat_toUInt64 (i : Int64) : (i.toUInt64.toNat : Int) = i.toInt % 2 ^ 64 := by
  have hint : i.toInt = Int.bmod i.toUInt64.toNat (2 ^ 64) := BitVec.toInt_eq_toNat_bmod _
  rw [hint, bmod_emod_size]
  exact (Int.emod_eq_of_lt (Int.natCast_nonneg _) (by exact_mod_cast i.toUInt64.toNat_lt)).symm

namespace IndexRange

def offset (r : IndexRange) (index : Int64) : UInt64 := index.toUInt64 - r.low.toUInt64

theorem low_add_offset : r.low + (r.offset index).toInt64 = index := by
  rw [offset, UInt64.toInt64_sub, Int64.toInt64_toUInt64, Int64.toInt64_toUInt64, Int64.add_comm, Int64.sub_add_cancel]

theorem offset_le_iff : r.offset index ≤ r.offset r.high ↔ index ∈ r.indices := by
  have htoNat (i : Int64) : ((r.offset i).toNat : Int) = (i.toInt - r.low.toInt) % 2 ^ 64 := by
    rw [offset, ← Int64.toUInt64_sub, toNat_toUInt64, Int64.toInt_sub, bmod_emod_size]
  have hi := htoNat index
  have hh := htoNat r.high
  have hle := Int64.le_iff_toInt_le.mp r.low_le_high
  have h₁ := Int64.le_toInt index
  have h₂ := Int64.toInt_lt index
  have h₃ := Int64.le_toInt r.low
  have h₄ := Int64.toInt_lt r.high
  rw [UInt64.le_iff_toNat_le, indices, Set.mem_ofPred_eq, Int64.le_iff_toInt_le, Int64.le_iff_toInt_le]
  omega

theorem offset_low_add (n : UInt64) : r.offset (r.low + n.toInt64) = n := by
  rw [offset, Int64.toUInt64_add, UInt64.toUInt64_toInt64, UInt64.add_comm, UInt64.add_sub_cancel]

theorem toNat_size : r.size.toNat = ((r.offset r.high).toNat + 1) % 2 ^ 64 := UInt64.toNat_add _ _

theorem exists_ofWord? : (∃ w, r.ofWord? w = some index) ↔ index ∈ r.indices := by
  have hsize := r.toNat_size
  have hlast := (r.offset r.high).toNat_lt
  rw [← offset_le_iff, UInt64.le_iff_toNat_le]
  by_cases hs : r.size = 0
  · simp only [ofWord?, if_pos hs, Option.some.injEq]
    rw [hs, UInt64.toNat_zero] at hsize
    have hlt := (r.offset index).toNat_lt
    exact ⟨fun _ => by omega, fun _ => ⟨index.toUInt64, Int64.toInt64_toUInt64 index⟩⟩
  · simp only [ofWord?, if_neg hs, Option.map_eq_some_iff]
    have hpos : r.size.toNat ≠ 0 := fun he => hs (UInt64.toNat_inj.mp he)
    constructor
    · rintro ⟨w, n, hn, rfl⟩
      have hlt := UInt64.lt_iff_toNat_lt.mp (Draw.lt_of_scaled hn hs)
      rw [offset_low_add]
      omega
    · intro hle
      have hlt : r.offset index < r.size := UInt64.lt_iff_toNat_lt.mpr (by omega)
      obtain ⟨w, hw⟩ := Draw.exists_scaled hlt
      exact ⟨w, r.offset index, hw, low_add_offset⟩

theorem from_draw (ht : 0 < tries) : Draw.From (r.draw tries) r.indices where
  only h := exists_ofWord?.mp (Draw.exists_of_accepted h)
  each _ hindex := by
    obtain ⟨w, hw⟩ := exists_ofWord?.mpr hindex
    exact ⟨[w], Draw.yields_accepted hw ht⟩

end IndexRange

end Indices

section Picks

variable {ρ α : Type} {r : IndexRange} {tries : Nat} {items : Array α}

def IndexRange.reached (r : IndexRange) (items : Array α) : Set α := {a | ∃ p ∈ r.places items.size, items[p]? = some a}

theorem pick_eq_some_iff [Source ρ] {source rest : ρ} {a : α} : (pick tries items r).run source = some (a, rest) ↔
    ∃ index, (r.draw tries).run source = some (index, rest) ∧ items[clampIndex index items.size]? = some a := by
  rw [pick, Draw.bind_eq_some_iff]
  constructor
  · rintro ⟨index, between, hindex, h⟩
    split at h
    next b hb =>
      obtain ⟨rfl, rfl⟩ := Draw.pure_eq_some_iff.mp h
      exact ⟨index, hindex, hb⟩
    · cases h
  · rintro ⟨index, hindex, ha⟩
    refine ⟨index, rest, hindex, ?_⟩
    rw [ha]
    rfl

theorem pick_eq_none_iff [Source ρ] (h : 0 < items.size) {source : ρ} :
    (pick tries items r).run source = none ↔ (r.draw tries).run source = none := by
  simp only [Option.eq_none_iff_forall_ne_some, Prod.forall, ne_eq, pick_eq_some_iff]
  constructor
  · intro hnone index rest hindex
    have ha := Array.getElem?_eq_getElem (clampIndex_lt index h)
    exact hnone _ rest ⟨index, hindex, ha⟩
  · rintro hnone a rest ⟨index, hindex, -⟩
    exact hnone index rest hindex

theorem from_pick (ht : 0 < tries) : Draw.From (pick tries items r) (r.reached items) where
  only h := by
    obtain ⟨index, hindex, ha⟩ := pick_eq_some_iff.mp h
    exact ⟨_, ⟨index, (IndexRange.from_draw ht).only hindex, rfl⟩, ha⟩
  each a := by
    rintro ⟨_, ⟨index, hindex, rfl⟩, ha⟩
    have hdraw := IndexRange.from_draw (r := r) ht
    obtain ⟨words, hwords⟩ := hdraw.each index hindex
    refine ⟨words, ?_⟩
    intro ρ _ source rest hgives
    exact pick_eq_some_iff.mpr ⟨index, hwords source rest hgives, ha⟩

theorem ncard_reached (h : 0 < items.size) (hnodup : items.toList.Nodup) :
    (r.reached items).Finite ∧ (r.reached items).ncard = r.reachable items.size := by
  have hlt : ∀ p ∈ r.places items.size, p < items.size := by
    rintro _ ⟨index, -, rfl⟩
    exact clampIndex_lt index h
  have hinj : Set.InjOn (fun p => items[p]?) (r.places items.size) := by
    intro p hp q hq he
    simp only [← Array.getElem?_toList] at he
    exact (List.getElem?_inj (hlt p hp) hnodup).mp he
  have himage : (fun p => items[p]?) '' r.places items.size = some '' r.reached items := by
    ext x
    constructor
    · rintro ⟨p, hp, rfl⟩
      have ha := Array.getElem?_eq_getElem (hlt p hp)
      exact ⟨_, ⟨p, hp, ha⟩, ha.symm⟩
    · rintro ⟨a, ⟨p, hp, ha⟩, rfl⟩
      exact ⟨p, hp, ha⟩
  have hfinite : (some '' r.reached items).Finite := himage ▸ IndexRange.finite_places.image _
  refine ⟨hfinite.of_finite_image (Option.some_injective _).injOn, ?_⟩
  rw [← Set.ncard_image_of_injective _ (Option.some_injective _), ← himage, hinj.ncard_image,
    IndexRange.ncard_places]

end Picks

section Test

variable {α : Type} [Weight α] {p : Population} {mix : Mix α} {w : Workload}

namespace Workload

theorem forall_places_le_iff {m : Nat} :
    (∀ count ∈ w.multiCount.places p.keys, count ≤ m) ↔ w.largestCount p.keys ≤ m := by
  constructor
  · intro h
    exact h _ (IndexRange.mem_places_iff.mpr ⟨clampIndex_mono w.multiCount.low_le_high, Nat.le_refl _⟩)
  · intro h count hcount
    exact Nat.le_trans (IndexRange.mem_places_iff.mp hcount).2 h

theorem unusable?_eq_none_iff : w.unusable? p mix = none ↔ 0 < w.workers ∧ 0 < w.blockSize ∧
    (mix.usesMultiKey = true → w.largestCount p.keys ≤ w.keys.reachable p.keys) ∧
    (mix.usesGetWhen = true → p.kind.supportsGetWhen = true) := by
  simp only [unusable?]
  split
  next hwork => exact iff_of_false nofun fun ⟨hw, hb, _⟩ => by omega
  next hwork =>
    rw [not_or, ← ne_eq, ← ne_eq, ← Nat.pos_iff_ne_zero, ← Nat.pos_iff_ne_zero] at hwork
    rw [and_iff_right hwork.1, and_iff_right hwork.2]
    split
    next hkeys => exact iff_of_false nofun fun ⟨h, _⟩ => Nat.not_lt_of_le (h hkeys.1) hkeys.2
    next hkeys =>
      rw [not_and, Nat.not_lt] at hkeys
      rw [and_iff_right hkeys]
      split
      next hwhen => exact iff_of_false nofun fun h => hwhen.2 (h hwhen.1)
      next hwhen => exact iff_of_true rfl fun h => Decidable.not_not.mp (not_and.mp hwhen h)

theorem exists_narrowKeys_iff (hw : 0 < w.workers) (hb : 0 < w.blockSize) (hm : mix.usesMultiKey = true) :
    (∃ needed reached, w.unusable? p mix = some (.narrowKeys needed reached)) ↔
      w.keys.reachable p.keys < w.largestCount p.keys := by
  have hwork : ¬ (w.workers = 0 ∨ w.blockSize = 0) := by omega
  simp only [unusable?, if_neg hwork]
  split
  next hkeys => exact iff_of_true ⟨_, _, rfl⟩ hkeys.2
  next hkeys =>
    refine iff_of_false ?_ fun hlt => hkeys ⟨hm, hlt⟩
    rintro ⟨needed, reached, h⟩
    split at h <;> cases h

end Workload

namespace Benchmark

variable {ρ : Type} [Source ρ] {b : Benchmark} {tries : Nat} {keys : Array Key} {index : Int64}

theorem exists_drawKeys (ht : 0 < tries) (hindex : index ∈ b.workload.multiCount.indices)
    (hcount : Draw.Unstuck (pick tries keys b.workload.keys) (clampIndex index keys.size))
    (htries : clampIndex index keys.size ≤ tries) :
    ∃ chosen words, chosen.size = clampIndex index keys.size ∧
      ∀ {ρ : Type} [Source ρ], Draw.Yields (b.drawKeys tries keys : Draw ρ KeySet) words chosen := by
  obtain ⟨first, hfirst⟩ := (IndexRange.from_draw ht).each index hindex
  obtain ⟨chosen, words, hsize, hwords⟩ := hcount.ends ∅ tries (Nat.zero_le _) (Nat.le_add_left_of_le htries)
  refine ⟨chosen, first ++ words, hsize, ?_⟩
  intro ρ _
  exact hfirst.bind hwords

/-- The index of a count beyond the keys that are reached leads nowhere. -/
theorem drawKeys_eq_none {w : UInt64} {source rest : ρ} (hw : b.workload.multiCount.ofWord? w = some index)
    (hcount : ∀ tries, 0 < tries → Draw.Endless (pick tries keys b.workload.keys)
      (b.workload.keys.reached keys) (clampIndex index keys.size))
    (hgives : Source.Gives [w] source rest) : (b.drawKeys tries keys).run source = none := by
  refine Option.eq_none_iff_forall_ne_some.mpr fun r h => ?_
  obtain ⟨i, between, hi, h⟩ := Draw.bind_eq_some_iff.mp h
  cases tries with
  | zero => cases hi
  | succ tries =>
      have hdraw := (Draw.yields_accepted hw (Nat.succ_pos tries)) source rest hgives
      rw [IndexRange.draw, hdraw] at hi
      cases hi
      rw [(hcount _ (Nat.succ_pos tries)).never] at h
      cases h

end Benchmark

namespace Workload

/-- The test counts the keys that are reached and compares them with what a call may need. Where it lets the workload
pass no search for keys gets stuck, and where it does not there is a word from which the search has no end. -/
theorem multiKey_test_exact (hkeys : 1 ≤ p.keys) (hw : 0 < w.workers) (hb : 0 < w.blockSize)
    (hm : mix.usesMultiKey = true) :
    (w.keys.places p.keys).ncard = w.keys.reachable p.keys ∧
      (∀ {β : Type} (items : Array β), 0 < items.size → (∀ index, clampIndex index items.size < items.size) ∧
        ∀ {ρ : Type} [Source ρ] (r : IndexRange) (tries : Nat) (source : ρ),
          (pick tries items r).run source = none ↔ (r.draw tries).run source = none) ∧
      (w.unusable? p mix = none ↔ (∀ count ∈ w.multiCount.places p.keys, count ≤ w.keys.reachable p.keys) ∧
        (mix.usesGetWhen = true → p.kind.supportsGetWhen = true)) ∧
      ((∃ needed reached, w.unusable? p mix = some (.narrowKeys needed reached)) ↔
        ∃ count ∈ w.multiCount.places p.keys, w.keys.reachable p.keys < count) ∧
      ∀ keys : Array Key, keys.size = p.keys → keys.toList.Nodup → ∀ b : Benchmark, b.workload = w →
        (w.unusable? p mix = none → ∀ tries, 0 < tries → ∀ index ∈ w.multiCount.indices,
          Draw.Unstuck (pick tries keys w.keys) (clampIndex index p.keys) ∧
            (clampIndex index p.keys ≤ tries → ∃ chosen words, chosen.size = clampIndex index p.keys ∧
              ∀ {ρ : Type} [Source ρ], Draw.Yields (b.drawKeys tries keys : Draw ρ KeySet) words chosen)) ∧
        ((∃ needed reached, w.unusable? p mix = some (.narrowKeys needed reached)) →
          ∃ index ∈ w.multiCount.indices, ∃ word, w.multiCount.ofWord? word = some index ∧
            ∀ tries, 0 < tries →
              Draw.Endless (pick tries keys w.keys) (w.keys.reached keys) (clampIndex index p.keys) ∧
              ∀ {ρ : Type} [Source ρ] (source rest : ρ), Source.Gives [word] source rest →
                (b.drawKeys tries keys).run source = none) := by
  have hnone : w.unusable? p mix = none ↔ w.largestCount p.keys ≤ w.keys.reachable p.keys ∧
      (mix.usesGetWhen = true → p.kind.supportsGetWhen = true) := by
    rw [unusable?_eq_none_iff, and_iff_right hw, and_iff_right hb, imp_iff_right hm]
  have hnarrow := exists_narrowKeys_iff (p := p) hw hb hm
  refine ⟨IndexRange.ncard_places, fun items h => ⟨fun index => clampIndex_lt index h, fun _ _ _ => pick_eq_none_iff h⟩,
    ?_, ?_, ?_⟩
  · rw [hnone, forall_places_le_iff]
  · rw [hnarrow, ← not_iff_not, Nat.not_lt, ← forall_places_le_iff]
    simp only [not_exists, not_and, Nat.not_lt]
  · rintro keys hsize hnodup b rfl
    obtain ⟨hfinite, hncard⟩ := ncard_reached (r := b.workload.keys) (hsize ▸ hkeys) hnodup
    rw [hsize] at hncard
    refine ⟨fun hok tries ht index hindex => ?_, fun hbad => ?_⟩
    · have hcount := forall_places_le_iff.mpr (hnone.mp hok).1 _ ⟨index, hindex, rfl⟩
      have hunstuck : Draw.Unstuck (pick tries keys b.workload.keys) (clampIndex index p.keys) :=
        (from_pick ht).unstuck (hncard ▸ hcount)
      refine ⟨hunstuck, fun htries => ?_⟩
      rw [← hsize] at hunstuck htries ⊢
      exact Benchmark.exists_drawKeys ht hindex hunstuck htries
    · have hhigh : b.workload.multiCount.high ∈ b.workload.multiCount.indices :=
        ⟨b.workload.multiCount.low_le_high, Int64.le_refl _⟩
      obtain ⟨word, hword⟩ := IndexRange.exists_ofWord?.mpr hhigh
      have hendless (tries : Nat) (ht : 0 < tries) : Draw.Endless (pick tries keys b.workload.keys)
          (b.workload.keys.reached keys) (clampIndex b.workload.multiCount.high p.keys) :=
        (from_pick ht).endless hfinite (hncard ▸ hnarrow.mp hbad)
      refine ⟨_, hhigh, word, hword, fun tries ht => ⟨hendless tries ht, fun source rest hgives => ?_⟩⟩
      rw [← hsize] at hendless
      exact Benchmark.drawKeys_eq_none hword hendless hgives

/-- Of three keys, a reversed range across both ends reaches all, and one below the first key reaches only that. -/
theorem multiKey_test_exact_reversed :
    let p : Population := ⟨.simple, 3, 1, 1, 1⟩
    let mix : Mix Rat := ⟨fun a => if a = .multiGet ∨ a = .getWhen then 1 else 0⟩
    let wide : Workload := ⟨1, 1, 1, .ofBounds 9 (-9), .ofBounds 0 0, .ofBounds 2 7⟩
    let narrow : Workload := ⟨1, 1, 1, .ofBounds (-5) (-9), .ofBounds 0 0, .ofBounds 1 2⟩
    wide.unusable? p mix = none ∧ Draw.Unstuck (pick 2 #["a", "b", "c"] wide.keys) 2 ∧
      narrow.unusable? p mix = some (.narrowKeys 2 1) ∧
      ∃ index, Draw.Endless (pick 2 #["a", "b", "c"] narrow.keys) (narrow.keys.reached #["a", "b", "c"])
        (clampIndex index 3) := by
  intro p mix wide narrow
  have hm : mix.usesMultiKey = true := by decide +kernel
  have hwide : wide.unusable? p mix = none := by decide +kernel
  have hnarrow : narrow.unusable? p mix = some (.narrowKeys 2 1) := by decide +kernel
  have hnodup : (#["a", "b", "c"] : Array Key).toList.Nodup := by decide
  obtain ⟨-, -, -, -, hkeys⟩ := multiKey_test_exact (p := p) (w := wide) (by decide) (by decide) (by decide) hm
  obtain ⟨hunstuck, -⟩ := hkeys #["a", "b", "c"] rfl hnodup ⟨p, ⟨fun _ => 0⟩, wide⟩ rfl
  obtain ⟨-, -, -, -, hkeys'⟩ := multiKey_test_exact (p := p) (w := narrow) (by decide) (by decide) (by decide) hm
  obtain ⟨-, hendless⟩ := hkeys' #["a", "b", "c"] rfl hnodup ⟨p, ⟨fun _ => 0⟩, narrow⟩ rfl
  obtain ⟨index, -, word, -, hend⟩ := hendless ⟨2, 1, hnarrow⟩
  refine ⟨hwide, (hunstuck hwide 2 (by decide) 2 ⟨by decide, by decide⟩).1, hnarrow, index, (hend 2 (by decide)).1⟩

end Workload

end Test

end AwaitStore.Bench
