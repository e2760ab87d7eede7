import AwaitStore.Bench.Draw
import Mathlib

namespace AwaitStore.Bench

variable {ρ α β : Type}

/-- These words come next from the source, and this is what is left of it after them. -/
inductive Source.Gives [Source ρ] : List UInt64 → ρ → ρ → Prop where
  | nothing (source : ρ) : Gives [] source source
  | word {source rest : ρ} {words : List UInt64} (later : Gives words (Source.next source).2 rest) :
      Gives ((Source.next source).1 :: words) source rest

theorem Source.gives_append [Source ρ] {first second : List UInt64} {source rest : ρ} :
    Gives (first ++ second) source rest ↔ ∃ between, Gives first source between ∧ Gives second between rest := by
  constructor
  · intro h
    induction first generalizing source with
    | nil => exact ⟨source, .nothing source, h⟩
    | cons w first ih =>
        cases h with
        | word later =>
            obtain ⟨between, hfirst, hsecond⟩ := ih later
            exact ⟨between, .word hfirst, hsecond⟩
  · rintro ⟨between, hfirst, hsecond⟩
    induction hfirst with
    | nothing source => exact hsecond
    | word later ih => exact .word (ih hsecond)

theorem Recorded.gives (words more : List UInt64) (rest : SplitMix) :
    Source.Gives words (⟨words ++ more, rest⟩ : Recorded) ⟨more, rest⟩ := by
  induction words with
  | nil => exact .nothing _
  | cons w words ih =>
      have hlater : Source.Gives words (Source.next (⟨w :: (words ++ more), rest⟩ : Recorded)).2 ⟨more, rest⟩ := ih
      exact .word hlater

namespace Draw

theorem bind_eq_some_iff {item : Draw ρ α} {next : α → Draw ρ β} {source : ρ} {r : β × ρ} :
    (item >>= next).run source = some r ↔
      ∃ a rest, item.run source = some (a, rest) ∧ (next a).run rest = some r := by
  rw [StateT.run_bind]
  change (item.run source).bind _ = _ ↔ _
  rw [Option.bind_eq_some_iff]
  exact Prod.exists

theorem pure_eq_some_iff {a b : α} {source rest : ρ} :
    (pure a : Draw ρ α).run source = some (b, rest) ↔ b = a ∧ rest = source := by
  change some (a, source) = some (b, rest) ↔ _
  rw [Option.some.injEq, Prod.mk.injEq, eq_comm, @eq_comm _ source]

section Yields

variable [Source ρ] {item : Draw ρ α}

/-- From any source that gives these words next, this is drawn, and no word more is used. -/
def Yields (item : Draw ρ α) (words : List UInt64) (a : α) : Prop :=
  ∀ source rest, Source.Gives words source rest → item.run source = some (a, rest)

theorem yields_pure (a : α) : Yields (pure a : Draw ρ α) [] a := by
  rintro source rest ⟨⟩
  rfl

theorem Yields.bind {next : α → Draw ρ β} {first second : List UInt64} {a : α} {b : β} (h : Yields item first a)
    (hnext : Yields (next a) second b) : Yields (item >>= next) (first ++ second) b := by
  intro source rest hgives
  obtain ⟨between, hfirst, hsecond⟩ := Source.gives_append.mp hgives
  exact bind_eq_some_iff.mpr ⟨a, between, h source between hfirst, hnext between rest hsecond⟩

theorem Yields.map {words : List UInt64} {a : α} (h : Yields item words a) (f : α → β) :
    Yields (item >>= fun a => pure (f a)) words (f a) := by
  have hnext : Yields (pure (f a) : Draw ρ β) [] (f a) := yields_pure (f a)
  rw [← List.append_nil words]
  exact h.bind hnext

theorem yields_word (w : UInt64) : Yields (word : Draw ρ UInt64) [w] w := by
  intro source rest hgives
  cases hgives with
  | word later =>
      cases later
      rfl

end Yields

section Accepted

variable [Source ρ] {accept : UInt64 → Option α} {tries : Nat}

theorem exists_of_accepted {source rest : ρ} {a : α} (h : (accepted accept tries).run source = some (a, rest)) :
    ∃ w, accept w = some a := by
  induction tries generalizing source with
  | zero => cases h
  | succ tries ih =>
      obtain ⟨w, source, -, h⟩ := bind_eq_some_iff.mp h
      split at h
      next b hb =>
        obtain ⟨rfl, -⟩ := pure_eq_some_iff.mp h
        exact ⟨w, hb⟩
      · exact ih h

theorem yields_accepted {w : UInt64} {a : α} (h : accept w = some a) (ht : 0 < tries) :
    Yields (accepted accept tries : Draw ρ α) [w] a := by
  obtain ⟨tries, rfl⟩ := Nat.exists_eq_succ_of_ne_zero (Nat.ne_of_gt ht)
  intro source rest hgives
  cases hgives with
  | word later =>
      cases later
      refine bind_eq_some_iff.mpr ⟨(Source.next source).1, (Source.next source).2, rfl, ?_⟩
      rw [h]
      rfl

end Accepted

section Scaled

variable {range zone w n : UInt64}

theorem scaled_eq_some_iff : scaled range zone w = some n ↔
    w.toNat * range.toNat % UInt64.size ≤ zone.toNat ∧ w.toNat * range.toNat / UInt64.size = n.toNat := by
  have hupper : w.toNat * range.toNat / UInt64.size < UInt64.size :=
    Nat.div_lt_of_lt_mul (Nat.mul_lt_mul'' w.toNat_lt_size range.toNat_lt_size)
  have hword : ((w.toNat * range.toNat / UInt64.size).toUInt64).toNat = w.toNat * range.toNat / UInt64.size :=
    UInt64.toNat_ofNat_of_lt' hupper
  simp only [scaled]
  split
  next hzone => rw [Option.some.injEq, ← UInt64.toNat_inj, hword, and_iff_right hzone]
  next hzone => simp [hzone]

theorem lt_of_scaled (h : scaled range zone w = some n) (hr : range ≠ 0) : n < range := by
  have hpos : 0 < range.toNat := Nat.pos_of_ne_zero fun he => hr (UInt64.toNat_inj.mp he)
  rw [UInt64.lt_iff_toNat_lt, ← (scaled_eq_some_iff.mp h).2]
  exact Nat.div_lt_of_lt_mul (Nat.mul_lt_mul_of_pos_right w.toNat_lt_size hpos)

theorem le_exactZone (hr : range ≠ 0) : range.toNat ≤ (exactZone range).toNat + 1 := by
  have hpos : 0 < range.toNat := Nat.pos_of_ne_zero fun he => hr (UInt64.toNat_inj.mp he)
  have hlt := range.toNat_lt_size
  have hsize : UInt64.size = 2 ^ 64 := rfl
  have hsub (a : UInt64) : (0xffffffffffffffff - a).toNat = UInt64.size - 1 - a.toNat :=
    UInt64.toNat_sub_of_le _ _ (UInt64.le_iff_toNat_le.mpr (Nat.le_of_lt_succ a.toNat_lt_size))
  have hrest : (0xffffffffffffffff - range + 1).toNat = UInt64.size - range.toNat := by
    rw [UInt64.toNat_add, hsub, UInt64.toNat_one]
    exact (Nat.mod_eq_of_lt (by omega)).trans (by omega)
  have hle : UInt64.size % range.toNat + range.toNat ≤ UInt64.size := by
    have hdiv := Nat.mod_add_div UInt64.size range.toNat
    have hone : range.toNat * 1 ≤ range.toNat * (UInt64.size / range.toNat) :=
      Nat.mul_le_mul_left _ (Nat.div_pos (Nat.le_of_lt hlt) hpos)
    omega
  rw [exactZone, hsub, UInt64.toNat_mod, hrest, ← Nat.mod_eq_sub_mod (Nat.le_of_lt hlt)]
  omega

/-- The first multiple of the range that comes up to so many rounds of the size passes them by less than the range. -/
theorem exists_multiple {n range size : Nat} (hn : n < range) (hr : range < size) :
    ∃ k d, k < size ∧ d < range ∧ k * range = d + n * size := by
  have hmul : n * size + size ≤ range * size := by
    rw [← Nat.succ_mul]
    exact Nat.mul_le_mul_right _ hn
  obtain ⟨k, hk⟩ : ∃ k, k = (n * size + (range - 1)) / range := ⟨_, rfl⟩
  have hle : k * range ≤ n * size + (range - 1) := hk ▸ Nat.div_mul_le_self _ _
  have hgt : n * size + (range - 1) < k * range + range := by
    rw [hk]
    exact Nat.lt_div_mul_add (Nat.zero_lt_of_lt hn)
  clear hk
  have hlt : k * range < size * range := by
    rw [Nat.mul_comm size]
    omega
  exact ⟨k, k * range - n * size, Nat.lt_of_mul_lt_mul_right hlt, by omega, by omega⟩

theorem exists_scaled (hn : n < range) : ∃ w, scaled range (exactZone range) w = some n := by
  have hnonzero : range ≠ 0 := by
    rintro rfl
    exact UInt64.not_lt_zero hn
  have hzone := le_exactZone hnonzero
  have hr := range.toNat_lt_size
  obtain ⟨k, d, hk, hd, he⟩ := exists_multiple (UInt64.lt_iff_toNat_lt.mp hn) hr
  have hword : (UInt64.ofNat k).toNat = k := UInt64.toNat_ofNat_of_lt' hk
  have hlt := Nat.lt_trans hd hr
  refine ⟨UInt64.ofNat k, scaled_eq_some_iff.mpr ?_⟩
  rw [hword, he, Nat.add_mul_mod_self_right, Nat.add_mul_div_right _ _ (Nat.zero_lt_of_lt hr), Nat.mod_eq_of_lt hlt,
    Nat.div_eq_of_lt hlt, Nat.zero_add]
  exact ⟨Nat.le_of_lt_succ (Nat.lt_of_lt_of_le hd hzone), rfl⟩

end Scaled

/-- What a draw gives, from whatever source: one of these items, and each of them for some words. -/
structure From (item : ∀ {ρ : Type} [Source ρ], Draw ρ α) (items : Set α) : Prop where
  only : ∀ {ρ : Type} [Source ρ] {source rest : ρ} {a : α}, item.run source = some (a, rest) → a ∈ items
  each : ∀ a ∈ items, ∃ words, ∀ {ρ : Type} [Source ρ], Yields (item : Draw ρ α) words a

section Text

variable {tries length : Nat}

def texts (length : Nat) : Set String := {s | s.length = length ∧ ∀ c ∈ s.toList, c.isAlphanum = true}

theorem mem_letters_iff {c : Char} : c ∈ letters ↔ c.isAlphanum = true := by
  have hsound : letters.all Char.isAlphanum = true := by decide
  have hcomplete : ∀ n < 128, (Char.ofNat n).isAlphanum = true → Char.ofNat n ∈ letters := by decide +kernel
  refine ⟨List.all_eq_true.mp hsound c, fun h => ?_⟩
  have hranges : ((65 ≤ c.toNat ∧ c.toNat ≤ 90) ∨ (97 ≤ c.toNat ∧ c.toNat ≤ 122)) ∨ (48 ≤ c.toNat ∧ c.toNat ≤ 57) := by
    simpa [Char.isAlphanum, Char.isAlpha, Char.isUpper, Char.isLower, Char.isDigit, UInt32.le_iff_toNat_le] using h
  have hc := hcomplete c.toNat (by omega)
  rw [Char.ofNat_toNat] at hc
  exact hc h

theorem from_letter (ht : 0 < tries) : From (accepted letter? tries) {c | c.isAlphanum = true} where
  only h := by
    obtain ⟨w, hw⟩ := exists_of_accepted h
    exact mem_letters_iff.mp (List.mem_of_getElem? hw)
  each c hc := by
    obtain ⟨i, hi, rfl⟩ := List.getElem_of_mem (mem_letters_iff.mpr hc)
    have hword : ∀ i < 62, ((UInt64.ofNat (i <<< 26)).toUInt32 >>> 26).toNat = i := by decide
    refine ⟨[UInt64.ofNat (i <<< 26)], yields_accepted ?_ ht⟩
    rw [letter?, hword i hi]
    exact List.getElem?_eq_getElem hi

theorem from_characters (ht : 0 < tries) :
    From (characters tries length) {cs | cs.length = length ∧ ∀ c ∈ cs, c.isAlphanum = true} where
  only {ρ _ source rest cs} h := by
    induction length generalizing source rest cs with
    | zero =>
        obtain ⟨rfl, -⟩ := pure_eq_some_iff.mp h
        exact ⟨rfl, nofun⟩
    | succ length ih =>
        obtain ⟨c, between, hc, h⟩ := bind_eq_some_iff.mp h
        obtain ⟨later, end', hlater, h⟩ := bind_eq_some_iff.mp h
        obtain ⟨rfl, -⟩ := pure_eq_some_iff.mp h
        obtain ⟨rfl, hall⟩ := ih hlater
        exact ⟨rfl, List.forall_mem_cons.mpr ⟨(from_letter ht).only hc, hall⟩⟩
  each := by
    rintro cs ⟨rfl, hall⟩
    induction cs with
    | nil => exact ⟨[], yields_pure []⟩
    | cons c cs ih =>
        obtain ⟨hc, hcs⟩ := List.forall_mem_cons.mp hall
        obtain ⟨first, hfirst⟩ := (from_letter ht).each c hc
        obtain ⟨words, hwords⟩ := ih hcs
        exact ⟨first ++ words, hfirst.bind (hwords.map (c :: ·))⟩

theorem from_text (ht : 0 < tries) : From (text tries length) (texts length) where
  only h := by
    obtain ⟨cs, between, hcs, h⟩ := bind_eq_some_iff.mp h
    obtain ⟨rfl, -⟩ := pure_eq_some_iff.mp h
    obtain ⟨hlength, hall⟩ := (from_characters ht).only hcs
    exact ⟨by rw [String.length_ofList, hlength], by rwa [String.toList_ofList]⟩
  each s hs := by
    obtain ⟨words, hwords⟩ := (from_characters ht).each s.toList ⟨by rw [String.length_toList, hs.1], hs.2⟩
    have htext : ∀ {ρ : Type} [Source ρ], Yields (text tries length : Draw ρ String) words (String.ofList s.toList) :=
      hwords.map String.ofList
    exact ⟨words, by rwa [String.ofList_toList] at htext⟩

theorem ncard_length (α : Type) [Finite α] (n : Nat) : {l : List α | l.length = n}.ncard = Nat.card α ^ n := by
  have := Fintype.ofFinite α
  rw [Nat.card_eq_fintype_card, ← card_vector, ← Nat.card_eq_fintype_card]
  exact (Nat.card_coe_set_eq _).symm

theorem ncard_texts (length : Nat) : (texts length).Finite ∧ (texts length).ncard = 62 ^ length := by
  have hletters : Nat.card {c // c ∈ letters} = 62 := by
    rw [Nat.card_eq_fintype_card]
    rfl
  have hinjective : Function.Injective fun l : List {c // c ∈ letters} => String.ofList (l.map Subtype.val) := by
    intro l l' h
    exact List.map_injective_iff.mpr Subtype.val_injective (String.ofList_injective h)
  have himage : texts length =
      (fun l : List {c // c ∈ letters} => String.ofList (l.map Subtype.val)) '' {l | l.length = length} := by
    ext s
    constructor
    · rintro ⟨rfl, hall⟩
      refine ⟨s.toList.attachWith (· ∈ letters) fun c hc => mem_letters_iff.mpr (hall c hc), ?_, ?_⟩
      · simpa using String.length_toList
      · simp
    · rintro ⟨l, rfl, rfl⟩
      refine ⟨by simp, fun c hc => ?_⟩
      rw [String.toList_ofList] at hc
      obtain ⟨⟨d, hd⟩, -, rfl⟩ := List.mem_map.mp hc
      exact mem_letters_iff.mp hd
  rw [himage]
  refine ⟨(List.finite_length_eq _ length).image _, ?_⟩
  rw [Set.ncard_image_of_injective _ hinjective, ncard_length, hletters]

end Text

section Bytes

variable {length : Nat}

def byteStrings (length : Nat) : Set (List UInt8) := {bs | bs.length = length}

theorem length_littleEndian (w : UInt64) : (littleEndian w).length = 8 := rfl

theorem toNat_getElem_littleEndian {w : UInt64} {i : Nat} (h : i < (littleEndian w).length) :
    ((littleEndian w)[i]).toNat = w.toNat / 256 ^ i % 256 := by
  have hi : i < 8 := h
  have hshift : ((8 * i).toUInt64).toNat % 64 = 8 * i := by
    change (UInt64.ofNat (8 * i)).toNat % 64 = 8 * i
    rw [UInt64.toNat_ofNat_of_lt' (by rw [UInt64.size]; omega)]
    omega
  simp only [littleEndian, List.getElem_map, List.getElem_range]
  rw [UInt64.toNat_toUInt8, UInt64.toNat_shiftRight, hshift, Nat.shiftRight_eq_div_pow, Nat.pow_mul]

theorem exists_take_littleEndian {bs : List UInt8} (h : bs.length ≤ 8) :
    ∃ w, (littleEndian w).take bs.length = bs := by
  have hsmall : ∀ d ∈ bs.map UInt8.toNat, d < 256 := by
    intro d hd
    obtain ⟨b, -, rfl⟩ := List.mem_map.mp hd
    exact b.toNat_lt
  have hlt : Nat.ofDigits 256 (bs.map UInt8.toNat) < UInt64.size := by
    refine Nat.lt_of_lt_of_le (Nat.ofDigits_lt_base_pow_length (by decide) hsmall) ?_
    rw [List.length_map]
    exact Nat.pow_le_pow_right (by decide) h
  refine ⟨UInt64.ofNat (Nat.ofDigits 256 (bs.map UInt8.toNat)), List.ext_getElem ?_ fun i hi hi' => ?_⟩
  · rw [List.length_take, length_littleEndian, Nat.min_eq_left h]
  · rw [List.getElem_take, ← UInt8.toNat_inj, toNat_getElem_littleEndian, UInt64.toNat_ofNat_of_lt' hlt,
      Nat.ofDigits_div_pow_eq_ofDigits_drop i (by decide) _ hsmall, ← List.map_drop,
      List.drop_eq_getElem_cons hi', List.map_cons, Nat.ofDigits_cons, Nat.add_mul_mod_self_left]
    exact Nat.mod_eq_of_lt (bs[i]).toNat_lt

theorem from_bytes : From (bytes length) (byteStrings length) where
  only {ρ _ source rest bs} h := by
    induction length using bytes.induct generalizing source rest bs with
    | case1 length ih =>
        obtain ⟨w, between, -, h⟩ := bind_eq_some_iff.mp h
        obtain ⟨later, end', hlater, h⟩ := bind_eq_some_iff.mp h
        obtain ⟨rfl, -⟩ := pure_eq_some_iff.mp h
        have hlength : later.length = length := ih hlater
        change (littleEndian w ++ later).length = length + 8
        rw [List.length_append, length_littleEndian, hlength, Nat.add_comm]
    | case2 =>
        obtain ⟨rfl, -⟩ := pure_eq_some_iff.mp h
        rfl
    | case3 length hlong hzero =>
        rw [bytes.eq_3 length hlong hzero] at h
        obtain ⟨w, between, -, h⟩ := bind_eq_some_iff.mp h
        obtain ⟨rfl, -⟩ := pure_eq_some_iff.mp h
        have hle : length ≤ 8 := Nat.le_of_not_lt fun hlt => hlong (length - 8) (by omega)
        exact List.length_take_of_le hle
  each bs hbs := by
    induction length using bytes.induct generalizing bs with
    | case1 length ih =>
        have hbs' : bs.length = length + 8 := hbs
        have hrest : (bs.drop 8).length = length := by rw [List.length_drop, hbs', Nat.add_sub_cancel]
        obtain ⟨words, hwords⟩ := ih (bs.drop 8) hrest
        have hfront : (bs.take 8).length = 8 := List.length_take_of_le (by omega)
        obtain ⟨w, hw⟩ := exists_take_littleEndian (Nat.le_of_eq hfront)
        rw [hfront, List.take_of_length_le (Nat.le_of_eq (length_littleEndian w))] at hw
        have hyields : ∀ {ρ : Type} [Source ρ], Yields (bytes (length + 8) : Draw ρ _) ([w] ++ words)
            (littleEndian w ++ bs.drop 8) :=
          (yields_word w).bind (hwords.map (littleEndian w ++ ·))
        rw [hw, List.take_append_drop] at hyields
        exact ⟨_, hyields⟩
    | case2 =>
        obtain rfl := List.eq_nil_of_length_eq_zero hbs
        exact ⟨[], yields_pure []⟩
    | case3 length hlong hzero =>
        obtain rfl : bs.length = length := hbs
        have hle : bs.length ≤ 8 := Nat.le_of_not_lt fun hlt => hlong (bs.length - 8) (by omega)
        obtain ⟨w, hw⟩ := exists_take_littleEndian hle
        refine ⟨[w], ?_⟩
        intro ρ _
        have hyields := (yields_word (ρ := ρ) w).map fun w => (littleEndian w).take bs.length
        rwa [hw, ← bytes.eq_3 bs.length hlong hzero] at hyields

theorem ncard_byteStrings (length : Nat) : (byteStrings length).Finite ∧ (byteStrings length).ncard = 256 ^ length := by
  have hinjective : UInt8.toFin.Injective := fun a b h => UInt8.toFin_inj.mp h
  have hfinite : Finite UInt8 := Finite.of_injective _ hinjective
  have hcard : Nat.card UInt8 = 256 := by
    rw [Nat.card_eq_of_bijective UInt8.toFin ⟨hinjective, fun i => ⟨UInt8.ofFin i, rfl⟩⟩, Nat.card_fin]
  exact ⟨List.finite_length_eq UInt8 length, hcard ▸ ncard_length UInt8 length⟩

end Bytes

section Different

variable [Ord α] [Std.TransOrd α] {count tries : Nat} {found : Std.ExtTreeSet α}

section Rounds

variable {item : Draw ρ α}

theorem different_of_le (h : count ≤ found.size) : different item count tries found = pure found := by
  cases tries <;> rw [different, if_pos h]

theorem different_succ (h : found.size < count) : different item count (tries + 1) found =
    item >>= fun a => different item count tries (found.insert a) := by
  rw [different, if_neg (Nat.not_le_of_lt h)]

theorem different_cases {source rest : ρ} {chosen : Std.ExtTreeSet α}
    (h : (different item count tries found).run source = some (chosen, rest)) :
    count ≤ found.size ∧ chosen = found ∨
      found.size < count ∧ ∃ left a between, tries = left + 1 ∧ item.run source = some (a, between) ∧
        (different item count left (found.insert a)).run between = some (chosen, rest) := by
  rcases Nat.lt_or_ge found.size count with hlt | hge
  · right
    cases tries with
    | zero =>
        rw [different, if_neg (Nat.not_le_of_lt hlt)] at h
        cases h
    | succ tries =>
        rw [different_succ hlt] at h
        obtain ⟨a, between, ha, h⟩ := bind_eq_some_iff.mp h
        exact ⟨hlt, tries, a, between, rfl, ha, h⟩
  · rw [different_of_le hge] at h
    exact .inl ⟨hge, (pure_eq_some_iff.mp h).1⟩

end Rounds

theorem size_insert_le (a : α) : (found.insert a).size ≤ found.size + 1 := by
  rw [Std.ExtTreeSet.size_insert]
  split <;> omega

theorem size_insert {a : α} (h : a ∉ found) : (found.insert a).size = found.size + 1 := by
  rw [Std.ExtTreeSet.size_insert, if_neg (by simpa using h)]

variable [Std.LawfulEqOrd α] {item : ∀ {ρ : Type} [Source ρ], Draw ρ α} {items : Set α}

theorem mem_insert_iff {a b : α} : b ∈ found.insert a ↔ a = b ∨ b ∈ found := by
  rw [Std.ExtTreeSet.mem_insert, Std.LawfulEqCmp.compare_eq_iff_eq]

theorem nodup_toList (found : Std.ExtTreeSet α) : found.toList.Nodup :=
  Std.ExtTreeSet.distinct_toList.imp fun h he => h (Std.LawfulEqCmp.compare_eq_iff_eq.mpr he)

theorem ncard_mem (found : Std.ExtTreeSet α) :
    {a | a ∈ found}.Finite ∧ {a | a ∈ found}.ncard = found.size := by
  classical
  have hset : {a | a ∈ found} = found.toList.toFinset := by
    ext a
    simp
  rw [hset]
  refine ⟨Finset.finite_toSet _, ?_⟩
  rw [Set.ncard_coe_finset, List.toFinset_card_of_nodup (nodup_toList found), Std.ExtTreeSet.length_toList]

/-- The loop ends with as many items as were asked for, each of them drawn or found before. -/
theorem From.of_different (h : From item items) [Source ρ] {source rest : ρ} {chosen : Std.ExtTreeSet α}
    (hfound : found.size ≤ count) (hknown : ∀ a ∈ found, a ∈ items)
    (hd : (different (item : Draw ρ α) count tries found).run source = some (chosen, rest)) :
    chosen.size = count ∧ ∀ a ∈ chosen, a ∈ items := by
  induction tries generalizing source found with
  | zero =>
      obtain ⟨hge, rfl⟩ | ⟨-, left, -, -, hleft, -⟩ := different_cases hd
      · exact ⟨Nat.le_antisymm hfound hge, hknown⟩
      · cases hleft
  | succ tries ih =>
      obtain ⟨hge, rfl⟩ | ⟨hlt, left, a, between, hleft, ha, hd⟩ := different_cases hd
      · exact ⟨Nat.le_antisymm hfound hge, hknown⟩
      · cases hleft
        refine ih (Nat.le_trans (size_insert_le a) hlt) (fun b hb => ?_) hd
        rcases mem_insert_iff.mp hb with rfl | hb
        · exact h.only ha
        · exact hknown b hb

theorem From.exists_new (h : From item items) (hlt : found.size < items.ncard) :
    ∃ a words, a ∉ found ∧ ∀ {ρ : Type} [Source ρ], Yields (item : Draw ρ α) words a := by
  obtain ⟨hfinite, hncard⟩ := ncard_mem found
  obtain ⟨a, ha, hnew⟩ := Set.exists_mem_notMem_of_ncard_lt_ncard (hncard ▸ hlt) hfinite
  obtain ⟨words, hwords⟩ := h.each a ha
  exact ⟨a, words, hnew, hwords⟩

theorem From.exists_different (h : From item items) (hle : count ≤ items.ncard) (hfound : found.size ≤ count)
    (htries : count ≤ found.size + tries) : ∃ chosen words, chosen.size = count ∧
      ∀ {ρ : Type} [Source ρ], Yields (different (item : Draw ρ α) count tries found) words chosen := by
  induction tries generalizing found with
  | zero =>
      refine ⟨found, [], Nat.le_antisymm hfound htries, ?_⟩
      intro ρ _
      rw [different_of_le htries]
      exact yields_pure found
  | succ tries ih =>
      rcases Nat.lt_or_ge found.size count with hlt | hge
      · obtain ⟨a, first, hnew, hfirst⟩ := h.exists_new (Nat.lt_of_lt_of_le hlt hle)
        have hsize := size_insert hnew
        obtain ⟨chosen, words, hchosen, hwords⟩ := @ih (found.insert a) (by omega) (by omega)
        refine ⟨chosen, first ++ words, hchosen, ?_⟩
        intro ρ _
        rw [different_succ hlt]
        exact hfirst.bind hwords
      · refine ⟨found, [], Nat.le_antisymm hfound hge, ?_⟩
        intro ρ _
        rw [different_of_le hge]
        exact yields_pure found

/-- The search for so many items never gets stuck: some words bring one that is missing, and some bring them all. -/
structure Unstuck (item : ∀ {ρ : Type} [Source ρ], Draw ρ α) (count : Nat) : Prop where
  goes_on : ∀ found : Std.ExtTreeSet α, found.size < count →
    ∃ a words, a ∉ found ∧ ∀ {ρ : Type} [Source ρ], Yields (item : Draw ρ α) words a
  ends : ∀ (found : Std.ExtTreeSet α) (tries : Nat), found.size ≤ count → count ≤ found.size + tries →
    ∃ chosen words, chosen.size = count ∧
      ∀ {ρ : Type} [Source ρ], Yields (different (item : Draw ρ α) count tries found) words chosen

theorem From.unstuck (h : From item items) (hle : count ≤ items.ncard) : Unstuck item count :=
  ⟨fun _ hlt => h.exists_new (Nat.lt_of_lt_of_le hlt hle), fun _ _ => h.exists_different hle⟩

/-- There are no such items, as many as that, and the search for them has no end. -/
structure Endless (item : ∀ {ρ : Type} [Source ρ], Draw ρ α) (items : Set α) (count : Nat) : Prop where
  few : ∀ some : List α, some.Nodup → (∀ a ∈ some, a ∈ items) → some.length < count
  never : ∀ {ρ : Type} [Source ρ] (source : ρ) (tries : Nat), (different (item : Draw ρ α) count tries ∅).run source = none

theorem From.endless (h : From item items) (hfinite : items.Finite) (hlt : items.ncard < count) :
    Endless item items count where
  few some hnodup hsome := by
    classical
    rw [← List.toFinset_card_of_nodup hnodup, ← Set.ncard_coe_finset]
    refine Nat.lt_of_le_of_lt (Set.ncard_le_ncard (fun a ha => hsome a ?_) hfinite) hlt
    simpa using ha
  never {ρ _} source tries := by
    refine Option.eq_none_iff_forall_ne_some.mpr ?_
    rintro ⟨chosen, rest⟩ hd
    obtain ⟨hsize, hall⟩ := h.of_different (Nat.zero_le count) (by simp) hd
    have hle : chosen.size ≤ items.ncard := by
      rw [← (ncard_mem chosen).2]
      exact Set.ncard_le_ncard hall hfinite
    omega

end Different

end Draw

end AwaitStore.Bench
