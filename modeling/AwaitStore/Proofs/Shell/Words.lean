import AwaitStore.Proofs.Shell.Grammar

namespace AwaitStore

namespace Shell.Grammar

variable {α : Type} {separator : Language Char} {item : α → Language Char}

theorem mem_singleton {cs ds : List Char} : cs ∈ ({ds} : Language Char) ↔ cs = ds := Iff.rfl

theorem nil_mem_blanks : [] ∈ blanks := nofun

theorem append_mem_blanks {cs ds : List Char} : cs ++ ds ∈ blanks ↔ cs ∈ blanks ∧ ds ∈ blanks :=
  List.forall_mem_append

theorem mem_mul_mul {l m k : Language Char} {cs : List Char} :
    cs ∈ l * m * k ↔ ∃ xs ∈ l, ∃ ys ∈ m, ∃ zs ∈ k, xs ++ (ys ++ zs) = cs := by
  rw [mul_assoc]
  constructor
  · rintro ⟨xs, hxs, _, ⟨ys, hys, zs, hzs, rfl⟩, rfl⟩
    exact ⟨xs, hxs, ys, hys, zs, hzs, rfl⟩
  · rintro ⟨xs, hxs, ys, hys, zs, hzs, rfl⟩
    exact ⟨xs, hxs, _, ⟨ys, hys, zs, hzs, rfl⟩, rfl⟩

theorem listed_singleton (a : α) : listed separator item [a] = item a := mul_one _

theorem mem_listed_cons_cons {a b : α} {rest : List α} {cs : List Char} :
    cs ∈ listed separator item (a :: b :: rest) ↔
      ∃ xs ∈ item a, ∃ ys ∈ separator, ∃ zs ∈ listed separator item (b :: rest), xs ++ (ys ++ zs) = cs := by
  have hcons : listed separator item (a :: b :: rest) = item a * separator * listed separator item (b :: rest) := by
    simp only [listed, List.map_cons, List.prod_cons, mul_assoc]
  rw [hcons, mem_mul_mul]

theorem exists_append_of_mem_listed {a : α} {rest : List α} {cs : List Char}
    (h : cs ∈ listed separator item (a :: rest)) : ∃ xs ∈ item a, ∃ ys, xs ++ ys = cs := by
  obtain ⟨xs, hxs, ys, -, rfl⟩ := h
  exact ⟨xs, hxs, ys, rfl⟩

theorem mem_listed_iff {cs : List Char} {as : List α} :
    cs ∈ listed separator item as ↔
      ∃ parts, List.Forall₂ (fun part a => part ∈ item a) parts as ∧ cs ∈ listed separator ({·}) parts := by
  induction as generalizing cs with
  | nil => simp [List.forall₂_nil_right_iff, listed]
  | cons a rest ih =>
      cases rest with
      | nil => simp [List.forall₂_cons_right_iff, List.forall₂_nil_right_iff, listed_singleton, mem_singleton]
      | cons b rest =>
          rw [mem_listed_cons_cons]
          constructor
          · rintro ⟨xs, hxs, ys, hys, zs, hzs, rfl⟩
            obtain ⟨_, hparts, hzs⟩ := ih.mp hzs
            obtain ⟨part, parts, hpart, hrest, rfl⟩ := List.forall₂_cons_right_iff.mp hparts
            exact ⟨_, .cons hxs (.cons hpart hrest), mem_listed_cons_cons.mpr ⟨_, rfl, ys, hys, zs, hzs, rfl⟩⟩
          · rintro ⟨_, hparts, hcs⟩
            obtain ⟨_, _, hxs, hrest, rfl⟩ := List.forall₂_cons_right_iff.mp hparts
            obtain ⟨part, parts, -, -, rfl⟩ := List.forall₂_cons_right_iff.mp hrest
            obtain ⟨xs, rfl, ys, hys, zs, hzs, rfl⟩ := mem_listed_cons_cons.mp hcs
            exact ⟨xs, hxs, ys, hys, zs, ih.mpr ⟨_, hrest, hzs⟩, rfl⟩

theorem mem_listed_singletons {sep : Char} {parts : List (List Char)} {cs : List Char} :
    cs ∈ listed {[sep]} ({·}) parts ↔ cs = [sep].intercalate parts := by
  induction parts generalizing cs with
  | nil => rfl
  | cons part parts ih =>
      cases parts with
      | nil => rw [listed_singleton, List.intercalate_singleton, mem_singleton]
      | cons other parts =>
          rw [mem_listed_cons_cons, List.intercalate_cons_cons]
          constructor
          · rintro ⟨_, rfl, _, rfl, zs, hzs, rfl⟩
            rw [ih.mp hzs, List.append_assoc]
          · rintro rfl
            exact ⟨part, rfl, [sep], rfl, _, ih.mpr rfl, (List.append_assoc ..).symm⟩

theorem mapM_eq_ok_iff {β ε : Type} {read : β → Except ε α} {parts : List β} {as : List α} :
    parts.mapM read = .ok as ↔ List.Forall₂ (fun part a => read part = .ok a) parts as := by
  induction parts generalizing as with
  | nil =>
      rw [List.forall₂_nil_left_iff]
      exact ⟨fun h => (Except.ok.inj h).symm, fun h => congrArg Except.ok h.symm⟩
  | cons part parts ih =>
      rw [List.mapM_cons, List.forall₂_cons_left_iff]
      simp only [← ih]
      cases hpart : read part with
      | error e => simp [bind, Except.bind]
      | ok a =>
          cases hparts : parts.mapM read with
          | error e => simp [bind, Except.bind]
          | ok rest => simp [bind, Except.bind, pure, Except.pure, eq_comm]

end Shell.Grammar

namespace Text

open Shell.Grammar

theorem not_isBlank_of_isAlphanum {c : Char} (h : c.isAlphanum) : ¬ isBlank c := by
  simp only [Char.isAlphanum, Char.isAlpha, Char.isUpper, Char.isLower, Char.isDigit, Bool.or_eq_true,
    Bool.and_eq_true, decide_eq_true_eq, UInt32.le_iff_toNat_le, ge_iff_le, Char.toNat_val, Char.reduceToNat] at h
  simp only [isBlank, Bool.or_eq_true, Bool.and_eq_true, decide_eq_true_eq, beq_iff_eq]
  omega

structure Tight (cs : Chars) : Prop where
  starts : ∀ c ∈ cs.head?, ¬ isBlank c
  ends : ∀ c ∈ cs.getLast?, ¬ isBlank c

theorem tight_nil : Tight [] := ⟨nofun, nofun⟩

theorem trimStart_eq_iff {cs core : Chars} :
    trimStart cs = core ↔ (∀ c ∈ core.head?, ¬ isBlank c) ∧ ∃ front ∈ blanks, front ++ core = cs := by
  constructor
  · rintro rfl
    refine ⟨fun c hc => ?_, cs.takeWhile isBlank, fun c => List.mem_takeWhile_imp, List.takeWhile_append_dropWhile⟩
    have := List.head?_dropWhile_not isBlank cs
    rw [trimStart] at hc
    rw [hc] at this
    simp [this]
  · rintro ⟨hcore, front, hfront, rfl⟩
    rw [trimStart, List.dropWhile_append_of_pos hfront]
    cases core with
    | nil => rfl
    | cons c rest => exact List.dropWhile_cons_of_neg (hcore c rfl)

theorem trimEnd_eq_iff {cs core : Chars} :
    trimEnd cs = core ↔ (∀ c ∈ core.getLast?, ¬ isBlank c) ∧ ∃ back ∈ blanks, core ++ back = cs := by
  have h := @trimStart_eq_iff cs.reverse core.reverse
  rw [List.head?_reverse] at h
  rw [trimEnd, List.reverse_eq_iff]
  refine h.trans (and_congr_right fun _ => ?_)
  constructor
  · rintro ⟨front, hfront, hcs⟩
    exact ⟨front.reverse, fun c hc => hfront c (List.mem_reverse.mp hc), by
      rw [← List.reverse_inj, List.reverse_append, List.reverse_reverse, hcs]⟩
  · rintro ⟨back, hback, rfl⟩
    exact ⟨back.reverse, fun c hc => hback c (List.mem_reverse.mp hc), List.reverse_append.symm⟩

theorem trim_eq_iff {cs core : Chars} :
    trim cs = core ↔ Tight core ∧ ∃ front ∈ blanks, ∃ back ∈ blanks, front ++ (core ++ back) = cs := by
  constructor
  · intro h
    obtain ⟨hstart, front, hfront, hcs⟩ := trimStart_eq_iff.mp (Eq.refl (trimStart cs))
    obtain ⟨hend, back, hback, hrest⟩ := trimEnd_eq_iff.mp h
    refine ⟨⟨fun c hc => hstart c ?_, hend⟩, front, hfront, back, hback, ?_⟩
    · rw [← hrest, List.head?_append, hc]
      rfl
    · rw [hrest, hcs]
  · rintro ⟨hcore, front, hfront, back, hback, rfl⟩
    by_cases hnil : core = []
    · have hall : trimStart (front ++ (core ++ back)) = [] :=
        trimStart_eq_iff.mpr ⟨nofun, front ++ back, append_mem_blanks.mpr ⟨hfront, hback⟩, by simp [hnil]⟩
      rw [trim, hall, hnil]
      rfl
    · have hleft : trimStart (front ++ (core ++ back)) = core ++ back := by
        refine trimStart_eq_iff.mpr ⟨?_, front, hfront, rfl⟩
        rw [List.head?_append_of_ne_nil _ hnil]
        exact hcore.starts
      rw [trim, hleft]
      exact trimEnd_eq_iff.mpr ⟨hcore.ends, back, hback, rfl⟩

theorem Tight.trim_eq {cs : Chars} (h : Tight cs) : trim cs = cs :=
  trim_eq_iff.mpr ⟨h, [], nil_mem_blanks, [], nil_mem_blanks, List.append_nil _⟩

theorem trim_eq_nil_iff {cs : Chars} : trim cs = [] ↔ cs ∈ blanks := by
  rw [trim_eq_iff]
  constructor
  · rintro ⟨-, front, hfront, back, hback, rfl⟩
    exact append_mem_blanks.mpr ⟨hfront, hback⟩
  · intro h
    exact ⟨tight_nil, cs, h, [], nil_mem_blanks, List.append_nil _⟩

theorem Tight.eq_nil_of_append {front back : Chars} (h : Tight (front ++ back)) (hback : back ∈ blanks) :
    back = [] := by
  by_contra hne
  refine h.ends (back.getLast hne) ?_ (hback _ (List.getLast_mem hne))
  rw [List.getLast?_append_of_ne_nil _ hne, List.getLast?_eq_some_getLast hne]
  rfl

theorem Tight.ends_of_append {front back : Chars} (h : Tight (front ++ back)) :
    ∀ c ∈ back.getLast?, ¬ isBlank c := by
  intro c hc
  refine h.ends c ?_
  rw [List.getLast?_append, hc]
  rfl

def Solid (cs : Chars) : Prop := cs ≠ [] ∧ ∀ c ∈ cs, ¬ isBlank c

theorem Solid.tight {cs : Chars} (h : Solid cs) : Tight cs :=
  ⟨fun c hc => h.2 c (List.mem_of_mem_head? hc), fun c hc => h.2 c (List.mem_of_mem_getLast? hc)⟩

theorem Solid.starts_append {word : Chars} (h : Solid word) (rest : Chars) :
    ∀ c ∈ (word ++ rest).head?, ¬ isBlank c := by
  rw [List.head?_append_of_ne_nil _ h.1]
  exact h.tight.starts

theorem Solid.trimStart_append {word : Chars} (h : Solid word) (rest : Chars) :
    trimStart (word ++ rest) = word ++ rest :=
  trimStart_eq_iff.mpr ⟨h.starts_append rest, [], nil_mem_blanks, rfl⟩

theorem Solid.splitWord_eq {word : Chars} (h : Solid word) : splitWord word = (word, []) := by
  have htrim := h.trimStart_append []
  rw [List.append_nil] at htrim
  have hall : ∀ c ∈ word, (!isBlank c) = true := by simpa using h.2
  simp only [splitWord, htrim, List.takeWhile_eq_self_iff.mpr hall, List.dropWhile_eq_nil_iff.mpr hall]
  rfl

theorem Solid.splitWord_append {word between rest : Chars} (h : Solid word) (hbetween : between ∈ gap)
    (hrest : ∀ c ∈ rest.head?, ¬ isBlank c) : splitWord (word ++ (between ++ rest)) = (word, rest) := by
  obtain ⟨hne, hblank⟩ := hbetween
  have hall : ∀ c ∈ word, (!isBlank c) = true := by simpa using h.2
  obtain ⟨b, between', rfl⟩ := List.exists_cons_of_ne_nil hne
  have hb : (!isBlank b) = false := by simpa using hblank b (.head _)
  have htail : trimStart (b :: (between' ++ rest)) = rest :=
    trimStart_eq_iff.mpr ⟨hrest, b :: between', hblank, rfl⟩
  simp only [splitWord, h.trimStart_append, List.takeWhile_append_of_pos hall,
    List.dropWhile_append_of_pos hall, List.cons_append, List.takeWhile_cons, List.dropWhile_cons, hb,
    htail, Bool.false_eq_true, if_false, List.append_nil]

theorem Tight.splitWord_whole {cs word rest : Chars} (h : Tight cs) (hsplit : splitWord cs = (word, rest)) :
    (∀ c ∈ word, ¬ isBlank c) ∧ (∀ c ∈ rest.head?, ¬ isBlank c) ∧
      ∃ between ∈ blanks, cs = word ++ (between ++ rest) ∧ (rest ≠ [] → word ≠ [] ∧ between ≠ []) := by
  have htrim : trimStart cs = cs := trimStart_eq_iff.mpr ⟨h.starts, [], nil_mem_blanks, rfl⟩
  simp only [splitWord, htrim, Prod.mk.injEq] at hsplit
  obtain ⟨rfl, hrest⟩ := hsplit
  obtain ⟨hstart, between, hbetween, htail⟩ := trimStart_eq_iff.mp hrest
  refine ⟨fun c hc => by simpa using List.mem_takeWhile_imp hc, hstart, between, hbetween, ?_, fun hne => ?_⟩
  · rw [htail, List.takeWhile_append_dropWhile]
  · obtain ⟨c, rest', rfl⟩ := List.exists_cons_of_ne_nil hne
    constructor
    · rintro hnil
      cases cs with
      | nil => simp at htail
      | cons d cs => simp [h.starts d rfl] at hnil
    · rintro rfl
      have := List.head?_dropWhile_not (fun c => !isBlank c) cs
      rw [← htail] at this
      exact hstart c rfl (by simpa using this)

theorem Tight.splitWord_eq_iff {cs word rest : Chars} (h : Tight cs) (hne : rest ≠ []) :
    splitWord cs = (word, rest) ↔
      Solid word ∧ Tight rest ∧ ∃ between ∈ gap, cs = word ++ (between ++ rest) := by
  constructor
  · intro hsplit
    obtain ⟨hword, hstart, between, hbetween, rfl, hparts⟩ := h.splitWord_whole hsplit
    obtain ⟨hword', hbetween'⟩ := hparts hne
    refine ⟨⟨hword', hword⟩, ⟨hstart, ?_⟩, between, ⟨hbetween', hbetween⟩, rfl⟩
    rw [← List.append_assoc] at h
    exact h.ends_of_append
  · rintro ⟨hword, hrest, between, hbetween, rfl⟩
    exact hword.splitWord_append hbetween hrest.starts

theorem Tight.splitWord_eq_last_iff {cs word : Chars} (h : Tight cs) :
    splitWord cs = (word, []) ↔ cs = word ∧ ∀ c ∈ word, ¬ isBlank c := by
  constructor
  · intro hsplit
    obtain ⟨hword, -, between, hbetween, rfl, -⟩ := h.splitWord_whole hsplit
    rw [List.append_nil] at h ⊢
    rw [h.eq_nil_of_append hbetween, List.append_nil]
    exact ⟨rfl, hword⟩
  · rintro ⟨rfl, hword⟩
    by_cases hne : cs = []
    · rw [hne]
      rfl
    · exact Solid.splitWord_eq ⟨hne, hword⟩

theorem Tight.splitWord_snd {cs : Chars} (h : Tight cs) : Tight (splitWord cs).2 := by
  by_cases hne : (splitWord cs).2 = []
  · rw [hne]
    exact tight_nil
  · exact ((h.splitWord_eq_iff hne).mp rfl).2.1

theorem wordsUpTo_nil (fuel : Nat) : wordsUpTo fuel [] = [] := by
  cases fuel <;> rfl

/-- One step for each character is enough to find all the words. -/
theorem mem_listed_wordsUpTo {fuel : Nat} {cs : Chars} (h : Tight cs) (hfuel : cs.length ≤ fuel) :
    (∀ w ∈ wordsUpTo fuel cs, Solid w) ∧ cs ∈ listed gap ({·}) (wordsUpTo fuel cs) := by
  induction fuel generalizing cs with
  | zero => exact ⟨nofun, List.length_eq_zero_iff.mp (Nat.le_zero.mp hfuel)⟩
  | succ fuel ih =>
      cases hsplit : splitWord cs with
      | mk word rest =>
          by_cases hrest : rest = []
          · subst hrest
            obtain ⟨rfl, hword⟩ := h.splitWord_eq_last_iff.mp hsplit
            cases cs with
            | nil => exact ⟨nofun, rfl⟩
            | cons c cs =>
                simp only [wordsUpTo, hsplit, wordsUpTo_nil, List.forall_mem_singleton, listed_singleton]
                exact ⟨⟨nofun, hword⟩, rfl⟩
          · obtain ⟨hword, htight, between, hbetween, rfl⟩ := (h.splitWord_eq_iff hrest).mp hsplit
            obtain ⟨c, word, rfl⟩ := List.exists_cons_of_ne_nil hword.1
            have hlen : rest.length ≤ fuel := by
              simp only [List.length_append, List.length_cons] at hfuel
              omega
            obtain ⟨hsolid, hlisted⟩ := ih htight hlen
            simp only [wordsUpTo, hsplit, List.forall_mem_cons]
            refine ⟨⟨hword, hsolid⟩, ?_⟩
            cases hws : wordsUpTo fuel rest with
            | nil =>
                rw [hws] at hlisted
                exact absurd hlisted hrest
            | cons w ws =>
                rw [hws] at hlisted
                exact mem_listed_cons_cons.mpr ⟨_, rfl, between, hbetween, rest, hlisted, rfl⟩

theorem wordsUpTo_eq {fuel : Nat} {cs : Chars} {ws : List Chars} (hws : ∀ w ∈ ws, Solid w)
    (hcs : cs ∈ listed gap ({·}) ws) (hfuel : cs.length ≤ fuel) : wordsUpTo fuel cs = ws := by
  induction ws generalizing fuel cs with
  | nil =>
      obtain rfl : cs = [] := hcs
      exact wordsUpTo_nil fuel
  | cons word ws ih =>
      obtain ⟨hword, hothers⟩ := List.forall_mem_cons.mp hws
      obtain ⟨c, word, rfl⟩ := List.exists_cons_of_ne_nil hword.1
      cases fuel with
      | zero =>
          obtain ⟨_, rfl, ys, rfl⟩ := exists_append_of_mem_listed hcs
          simp at hfuel
      | succ fuel =>
          cases ws with
          | nil =>
              obtain rfl : cs = c :: word := by rwa [listed_singleton] at hcs
              simp only [wordsUpTo, hword.splitWord_eq, wordsUpTo_nil]
          | cons next ws =>
              obtain ⟨_, rfl, between, hbetween, rest, hrest, rfl⟩ := mem_listed_cons_cons.mp hcs
              have hstart : ∀ c ∈ rest.head?, ¬ isBlank c := by
                obtain ⟨second, rfl, ys, rfl⟩ := exists_append_of_mem_listed hrest
                exact (hothers second (.head _)).starts_append ys
              have hlen : rest.length ≤ fuel := by
                simp only [List.length_append, List.length_cons] at hfuel
                omega
              simp only [wordsUpTo, hword.splitWord_append hbetween hstart, ih hothers hrest hlen]

theorem words_eq_iff {cs : Chars} {ws : List Chars} (h : Tight cs) :
    words cs = ws ↔ (∀ w ∈ ws, Solid w) ∧ cs ∈ listed gap ({·}) ws := by
  constructor
  · rintro rfl
    exact mem_listed_wordsUpTo h (Nat.le_refl _)
  · rintro ⟨hws, hcs⟩
    exact wordsUpTo_eq hws hcs (Nat.le_refl _)

theorem fields_eq_splitOn (sep : Char) (cs : Chars) : fields sep cs = cs.splitOn sep := by
  induction cs with
  | nil => rfl
  | cons c cs ih =>
      rw [fields, List.splitOn_cons_eq_if_modifyHead, ih]
      cases hrest : cs.splitOn sep with
      | nil => exact absurd hrest (List.splitOn_ne_nil sep cs)
      | cons first others => simp

end Text

end AwaitStore
