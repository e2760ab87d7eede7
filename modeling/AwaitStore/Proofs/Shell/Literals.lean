import AwaitStore.Proofs.Shell.Words

namespace AwaitStore

namespace Text

theorem isDigit_eq (c : Char) : isDigit c = c.isDigit := by
  rfl

theorem le_ofDigitChars (ds : Chars) (n : Nat) : n ≤ Nat.ofDigitChars 10 ds n := by
  induction ds generalizing n with
  | nil => exact Nat.le_refl n
  | cons d ds ih =>
      rw [Nat.ofDigitChars_cons]
      have := ih (10 * n + (d.toNat - '0'.toNat))
      omega

theorem digitsUpTo?_eq (max : Nat) (ds : Chars) :
    digitsUpTo? max ds = if Nat.ofDigitChars 10 ds 0 ≤ max then some (Nat.ofDigitChars 10 ds 0) else none := by
  -- The fold starts from a number that has passed the bound already.
  suffices h : ∀ n ≤ max, (ds.foldlM (fun n d =>
      let n := n * 10 + (d.toNat - '0'.toNat)
      if n ≤ max then some n else none) n) =
        if Nat.ofDigitChars 10 ds n ≤ max then some (Nat.ofDigitChars 10 ds n) else none from
    h 0 (Nat.zero_le max)
  induction ds with
  | nil => intro n hn; simp [Nat.ofDigitChars_nil, hn]
  | cons d ds ih =>
      intro n hn
      rw [List.foldlM_cons, Nat.ofDigitChars_cons, Nat.mul_comm 10 n]
      by_cases hd : n * 10 + (d.toNat - '0'.toNat) ≤ max
      · simp only [if_pos hd]
        exact ih _ hd
      · have hle := le_ofDigitChars ds (n * 10 + (d.toNat - '0'.toNat))
        rw [if_neg fun h => hd (Nat.le_trans hle h)]
        simp only [if_neg hd]
        rfl

open Shell.Grammar

theorem number?_eq_some_iff {max n : Nat} {cs : Chars} : number? max cs = some n ↔ cs ∈ digits n ∧ n ≤ max := by
  have hmem : cs ∈ digits n ↔ (cs ≠ [] ∧ ∀ c ∈ cs, c.isDigit) ∧ Nat.ofDigitChars 10 cs 0 = n := and_assoc.symm
  rw [number?, digitsUpTo?_eq, hmem]
  by_cases hcs : cs ≠ [] ∧ ∀ c ∈ cs, c.isDigit
  · have hcond : (!cs.isEmpty && cs.all isDigit) = true := by simpa [isDigit_eq] using hcs
    rw [if_pos hcond, and_iff_right hcs]
    grind
  · have hcond : ¬ (!cs.isEmpty && cs.all isDigit) = true := by simpa [isDigit_eq] using hcs
    rw [if_neg hcond, iff_false_right fun h => hcs h.1.1]
    nofun

end Text

namespace Shell

open Text

namespace Grammar

theorem not_digit_cons {c : Char} {cs : List Char} {k : Nat} (h : c.isDigit = false) : c :: cs ∉ digits k :=
  fun hcs => absurd (hcs.2.1 c (.head _)) (by simp [h])

theorem minus_cons_mem_number {n : Int} {cs : List Char} :
    '-' :: cs ∈ number n ↔ ∃ k : Nat, n = -k ∧ cs ∈ digits k := by
  constructor
  · rintro ⟨k, ds, hds, ⟨-, rfl | h⟩ | ⟨hn, h⟩⟩
    · exact absurd hds (not_digit_cons rfl)
    · cases h
    · obtain ⟨-, rfl⟩ := List.cons.inj h
      exact ⟨k, hn, hds⟩
  · rintro ⟨k, hn, hcs⟩
    exact ⟨k, cs, hcs, .inr ⟨hn, rfl⟩⟩

theorem plus_cons_mem_number {n : Int} {cs : List Char} :
    '+' :: cs ∈ number n ↔ ∃ k : Nat, n = k ∧ cs ∈ digits k := by
  constructor
  · rintro ⟨k, ds, hds, ⟨hn, rfl | h⟩ | ⟨-, h⟩⟩
    · exact absurd hds (not_digit_cons rfl)
    · obtain ⟨-, rfl⟩ := List.cons.inj h
      exact ⟨k, hn, hds⟩
    · cases h
  · rintro ⟨k, hn, hcs⟩
    exact ⟨k, cs, hcs, .inl ⟨hn, .inr rfl⟩⟩

theorem mem_number_of_unsigned {n : Int} {cs : List Char} (hminus : ∀ ds, cs ≠ '-' :: ds)
    (hplus : ∀ ds, cs ≠ '+' :: ds) : cs ∈ number n ↔ ∃ k : Nat, n = k ∧ cs ∈ digits k := by
  constructor
  · rintro ⟨k, ds, hds, ⟨hn, rfl | h⟩ | ⟨-, h⟩⟩
    · exact ⟨k, hn, hds⟩
    · exact absurd h (hplus ds)
    · exact absurd h (hminus ds)
  · rintro ⟨k, hn, hcs⟩
    exact ⟨k, cs, hcs, .inl ⟨hn, .inl rfl⟩⟩

end Grammar

open Grammar

namespace Literal

theorem ofSigned?_eq_some_iff {n : Int} {b : UInt8} :
    ofSigned? n = some b ↔ (-128 ≤ n ∧ n ≤ 127) ∧ (b.toNat : Int) = n % 256 := by
  have hb : (Int8.ofInt n).toUInt8 = b ↔ (b.toNat : Int) = n % 256 := by
    rw [← UInt8.toNat_inj, ← Int8.toNat_toBitVec, Int8.toBitVec_ofInt, BitVec.toNat_ofInt]
    omega
  rw [ofSigned?]
  by_cases hn : -128 ≤ n ∧ n ≤ 127
  · rw [if_pos hn, Option.some_inj, hb, and_iff_right hn]
  · rw [if_neg hn, iff_false_right (fun h => hn h.1)]
    nofun

theorem natural?_eq_some_iff {ds : Chars} {b : UInt8} :
    ((number? 127 ds).bind fun k => ofSigned? k) = some b ↔
      ∃ n : Int, -128 ≤ n ∧ n ≤ 127 ∧ (b.toNat : Int) = n % 256 ∧ ∃ k : Nat, n = k ∧ ds ∈ digits k := by
  simp only [Option.bind_eq_some_iff, number?_eq_some_iff, ofSigned?_eq_some_iff]
  constructor
  · rintro ⟨k, ⟨hds, -⟩, hbounds, hb⟩
    exact ⟨k, hbounds.1, hbounds.2, hb, k, rfl, hds⟩
  · rintro ⟨_, hlow, hhigh, hb, k, rfl, hds⟩
    exact ⟨k, ⟨hds, by omega⟩, ⟨hlow, hhigh⟩, hb⟩

theorem negative?_eq_some_iff {ds : Chars} {b : UInt8} :
    ((number? 128 ds).bind fun k => ofSigned? (-k)) = some b ↔
      ∃ n : Int, -128 ≤ n ∧ n ≤ 127 ∧ (b.toNat : Int) = n % 256 ∧ ∃ k : Nat, n = -k ∧ ds ∈ digits k := by
  simp only [Option.bind_eq_some_iff, number?_eq_some_iff, ofSigned?_eq_some_iff]
  constructor
  · rintro ⟨k, ⟨hds, -⟩, hbounds, hb⟩
    exact ⟨-k, hbounds.1, hbounds.2, hb, k, rfl, hds⟩
  · rintro ⟨_, hlow, hhigh, hb, k, rfl, hds⟩
    exact ⟨k, ⟨hds, by omega⟩, ⟨hlow, hhigh⟩, hb⟩

theorem byte?_eq_some_iff {cs : Chars} {b : UInt8} :
    byte? cs = some b ↔ ∃ n : Int, -128 ≤ n ∧ n ≤ 127 ∧ (b.toNat : Int) = n % 256 ∧ cs ∈ number n := by
  unfold byte?
  split
  next ds => simp only [minus_cons_mem_number, negative?_eq_some_iff]
  next ds => simp only [plus_cons_mem_number, natural?_eq_some_iff]
  next hminus hplus => simp only [mem_number_of_unsigned hminus hplus, natural?_eq_some_iff]

end Literal

namespace Grammar

theorem solid_of_mem_number {n : Int} {cs : List Char} (h : cs ∈ number n) :
    Solid cs ∧ ∀ c ∈ cs, c.isDigit ∨ c = '+' ∨ c = '-' := by
  obtain ⟨k, ds, ⟨hne, hds, -⟩, hcs⟩ := h
  have hchars : ∀ c ∈ cs, c.isDigit ∨ c = '+' ∨ c = '-' := by grind
  refine ⟨⟨by grind, fun c hc => ?_⟩, hchars⟩
  obtain hc | rfl | rfl := hchars c hc
  · exact not_isBlank_of_isAlphanum (by simp [Char.isAlphanum, hc])
  · decide
  · decide

theorem mem_element {b : UInt8} {cs : List Char} :
    cs ∈ element b ↔
      ∃ n : Int, -128 ≤ n ∧ n ≤ 127 ∧ (b.toNat : Int) = n % 256 ∧
        ∃ front ∈ blanks, ∃ core ∈ number n, ∃ back ∈ blanks, front ++ (core ++ back) = cs :=
  exists_congr fun _ => and_congr_right' (and_congr_right' (and_congr_right' mem_mul_mul))

theorem chars_of_mem_element {b : UInt8} {cs : List Char} (h : cs ∈ element b) :
    ∀ c ∈ cs, isBlank c ∨ c.isDigit ∨ c = '+' ∨ c = '-' := by
  obtain ⟨n, -, -, -, front, hfront, core, hcore, back, hback, rfl⟩ := mem_element.mp h
  simp only [List.forall_mem_append]
  exact ⟨fun c hc => .inl (hfront c hc), fun c hc => .inr ((solid_of_mem_number hcore).2 c hc),
    fun c hc => .inl (hback c hc)⟩

theorem not_mem_of_mem_element {b : UInt8} {cs : List Char} (h : cs ∈ element b) : ',' ∉ cs ∧ ']' ∉ cs :=
  ⟨fun hc => absurd (chars_of_mem_element h _ hc) (by decide),
    fun hc => absurd (chars_of_mem_element h _ hc) (by decide)⟩

theorem not_mem_blanks_of_mem_element {b : UInt8} {cs : List Char} (h : cs ∈ element b) : cs ∉ blanks := by
  obtain ⟨n, -, -, -, front, -, core, hcore, back, -, rfl⟩ := mem_element.mp h
  obtain ⟨⟨hne, hcore⟩, -⟩ := solid_of_mem_number hcore
  obtain ⟨c, core, rfl⟩ := List.exists_cons_of_ne_nil hne
  exact fun hblank => hcore c (.head _) (hblank c (by simp))

theorem mem_items {v : Value} {cs : List Char} :
    cs ∈ items v ↔ v = [] ∧ cs ∈ blanks ∨ v ≠ [] ∧ cs ∈ listed {[',']} element v := by
  cases v <;> simp [items]

theorem mem_array {v : Value} {cs : List Char} : cs ∈ array v ↔ ∃ inner ∈ items v, cs = '[' :: (inner ++ [']']) := by
  constructor
  · rintro ⟨_, ⟨_, rfl, inner, hinner, rfl⟩, _, rfl, rfl⟩
    exact ⟨inner, hinner, rfl⟩
  · rintro ⟨inner, hinner, rfl⟩
    exact ⟨_, ⟨['['], rfl, inner, hinner, rfl⟩, [']'], rfl, rfl⟩

end Grammar

namespace Command

theorem element_eq_ok_iff {verb : Verb} {part : Chars} {b : UInt8} :
    element verb part = .ok b ↔ part ∈ Grammar.element b := by
  have hok : element verb part = .ok b ↔ Literal.byte? (trim part) = some b := by
    simp only [element]
    cases Literal.byte? (trim part) <;> simp
  rw [hok, Literal.byte?_eq_some_iff, mem_element]
  refine exists_congr fun n => and_congr_right' (and_congr_right' (and_congr_right' ?_))
  constructor
  · intro hn
    obtain ⟨-, front, hfront, back, hback, hpart⟩ := trim_eq_iff.mp (Eq.refl (trim part))
    exact ⟨front, hfront, _, hn, back, hback, hpart⟩
  · rintro ⟨front, hfront, core, hn, back, hback, hpart⟩
    rwa [trim_eq_iff.mpr ⟨(solid_of_mem_number hn).1.tight, front, hfront, back, hback, hpart⟩]

theorem inside?_eq_some_iff {cs inner : Chars} : inside? cs = some inner ↔ cs = '[' :: (inner ++ [']']) := by
  unfold inside?
  split
  next rest =>
    simp only [Option.ite_none_right_eq_some, Option.some_inj, List.cons.injEq, true_and, List.getLast?_eq_some_iff]
    constructor
    · rintro ⟨⟨front, rfl⟩, rfl⟩
      rw [List.dropLast_concat]
    · rintro rfl
      exact ⟨⟨inner, rfl⟩, List.dropLast_concat⟩
  next hno => exact ⟨nofun, fun h => absurd h (hno _)⟩

theorem contents_eq_ok_iff {verb : Verb} {inner : Chars} {v : Value} :
    (if (trim inner).isEmpty then .ok [] else (fields ',' inner).mapM (element verb)) = .ok v ↔
      inner ∈ items v := by
  have hempty : (trim inner).isEmpty ↔ inner ∈ blanks := by rw [List.isEmpty_iff, trim_eq_nil_iff]
  rw [mem_items]
  by_cases hblank : inner ∈ blanks
  · rw [if_pos (hempty.mpr hblank)]
    constructor
    · intro h
      exact .inl ⟨(Except.ok.inj h).symm, hblank⟩
    · rintro (⟨rfl, -⟩ | ⟨hne, hlisted⟩)
      · rfl
      · obtain ⟨b, rest, rfl⟩ := List.exists_cons_of_ne_nil hne
        obtain ⟨part, hpart, others, rfl⟩ := exists_append_of_mem_listed hlisted
        exact absurd (append_mem_blanks.mp hblank).1 (not_mem_blanks_of_mem_element hpart)
  · rw [if_neg fun h => hblank (hempty.mp h), mapM_eq_ok_iff, fields_eq_splitOn]
    simp only [element_eq_ok_iff]
    constructor
    · intro h
      refine .inr ⟨?_, mem_listed_iff.mpr ⟨_, h, mem_listed_singletons.mpr (List.intercalate_splitOn ',').symm⟩⟩
      rintro rfl
      exact List.splitOn_ne_nil ',' inner (List.forall₂_nil_right_iff.mp h)
    · rintro (⟨-, hinner⟩ | ⟨hne, hlisted⟩)
      · exact absurd hinner hblank
      · obtain ⟨parts, hparts, hinner⟩ := mem_listed_iff.mp hlisted
        have hcomma : ∀ part ∈ parts, ',' ∉ part :=
          ((List.forall₂_and_left _ _).mp (hparts.imp fun _ _ h => ⟨(not_mem_of_mem_element h).1, h⟩)).1
        rw [mem_listed_singletons.mp hinner, List.splitOn_intercalate ',' hcomma]
        · exact hparts
        · rintro rfl
          exact hne (List.forall₂_nil_left_iff.mp hparts)

theorem value_eq_ok_iff {verb : Verb} {cs : Chars} {v : Value} : value verb cs = .ok v ↔ cs ∈ array v := by
  simp only [mem_array, ← inside?_eq_some_iff]
  cases hinside : inside? cs with
  | none => simp [value, hinside]
  | some inner => simp only [value, hinside, contents_eq_ok_iff, Option.some_inj, exists_eq_right']

end Command

end Shell

end AwaitStore
