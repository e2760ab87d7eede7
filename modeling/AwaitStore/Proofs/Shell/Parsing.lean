import AwaitStore.Proofs.Shell.Arguments

namespace AwaitStore.Shell

open Text

namespace Grammar

theorem closed_of_mem_listed {α : Type} {separator : Language Char} {item : α → Language Char}
    (h : ∀ a, ∀ cs ∈ item a, Closed cs) {as : List α} (hne : as ≠ []) {cs : List Char}
    (hcs : cs ∈ listed separator item as) : Closed cs := by
  induction as generalizing cs with
  | nil => exact absurd rfl hne
  | cons a rest ih =>
      cases rest with
      | nil =>
          rw [listed_singleton] at hcs
          exact h a cs hcs
      | cons b rest =>
          obtain ⟨xs, -, ys, -, zs, hzs, rfl⟩ := mem_listed_cons_cons.mp hcs
          exact ((ih nofun hzs).append ys).append xs

theorem closed_of_mem_arguments {op : Operation} {cs : List Char} (h : cs ∈ arguments op) : Closed cs := by
  have hgroup : ∀ entry, ∀ cs ∈ group entry, Closed cs := by
    rintro entry _ ⟨front, -, back, hback, rfl⟩
    exact (closed_of_mem_array hback).append front
  cases op with
  | put k v => exact hgroup (k, v) cs h
  | get k => exact closed_of_mem_key h
  | multiPut table =>
      obtain ⟨entries, hne, -, hcs⟩ := h
      exact closed_of_mem_listed hgroup hne hcs
  | multiGet set =>
      obtain ⟨keys, hne, -, hcs⟩ := h
      exact closed_of_mem_listed (fun _ _ => closed_of_mem_key) hne hcs
  | getWhen wish =>
      obtain ⟨front, -, back, hback, rfl⟩ := h
      exact (closed_of_mem_array hback).append front

theorem starts_of_mem_arguments {op : Operation} {cs : List Char} (h : cs ∈ arguments op) :
    cs ≠ [] ∧ ∀ c ∈ cs.head?, ¬ isBlank c := by
  -- Whatever the operation, a key stands first.
  suffices hkey : ∃ k, ∃ l, cs ∈ key k * l by
    obtain ⟨k, l, hcs⟩ := hkey
    exact starts_of_mem_key_mul hcs
  cases op with
  | put k v =>
      rw [arguments, mul_assoc] at h
      exact ⟨k, _, h⟩
  | get k => exact ⟨k, 1, by rwa [mul_one]⟩
  | multiPut table =>
      obtain ⟨entries, hne, -, hcs⟩ := h
      obtain ⟨entry, rest, rfl⟩ := List.exists_cons_of_ne_nil hne
      rw [listed, group, mul_assoc, mul_assoc] at hcs
      exact ⟨_, _, hcs⟩
  | multiGet set =>
      obtain ⟨keys, hne, -, hcs⟩ := h
      obtain ⟨k, rest, rfl⟩ := List.exists_cons_of_ne_nil hne
      exact ⟨k, _, hcs⟩
  | getWhen wish =>
      rw [arguments, mul_assoc, mul_assoc, mul_assoc] at h
      exact ⟨wish.key, _, h⟩

theorem toUpper_eq_iff {c letter : Char} (h : letter.isUpper) :
    c.toUpper = letter ↔ c = letter ∨ c = letter.toLower := by
  constructor
  · rintro rfl
    by_cases hc : c.isLower
    · rw [Char.toLower_toUpper_eq_toLower, Char.toLower_eq_of_not_isUpper (Char.not_isUpper_of_isLower hc)]
      exact .inr rfl
    · exact .inl (Char.toUpper_eq_of_not_isLower hc).symm
  · have hup : letter.toUpper = letter := Char.toUpper_eq_of_not_isLower (Char.not_isLower_of_isUpper h)
    rintro (rfl | rfl)
    · exact hup
    · rw [Char.toUpper_toLower_eq_toUpper, hup]

theorem forall₂_iff_eq_map_toUpper {letters cs : List Char} (h : ∀ letter ∈ letters, letter.isUpper) :
    List.Forall₂ (fun c letter => c = letter ∨ c = letter.toLower) cs letters ↔ letters = cs.map Char.toUpper := by
  induction letters generalizing cs with
  | nil => rw [List.forall₂_nil_right_iff, eq_comm (a := []), List.map_eq_nil_iff]
  | cons letter letters ih =>
      obtain ⟨hletter, hrest⟩ := List.forall_mem_cons.mp h
      cases cs with
      | nil => simp [List.forall₂_nil_left_iff]
      | cons c cs =>
          rw [List.forall₂_cons, List.map_cons, List.cons.injEq, ← toUpper_eq_iff hletter, ih hrest,
            eq_comm (a := c.toUpper)]

theorem isUpper_of_mem_name {verb : Verb} : ∀ letter ∈ verb.name.toList, letter.isUpper := by
  rw [← List.all_eq_true]
  cases verb <;> rfl

theorem mem_name {verb : Verb} {cs : List Char} : cs ∈ name verb ↔ verb.name.toList = cs.map Char.toUpper :=
  forall₂_iff_eq_map_toUpper isUpper_of_mem_name

theorem solid_of_mem_name {verb : Verb} {cs : List Char} (h : cs ∈ name verb) : Solid cs := by
  rw [mem_name] at h
  constructor
  · rintro rfl
    cases verb <;> cases h
  · intro c hc
    have hup := isUpper_of_mem_name c.toUpper (h ▸ List.mem_map_of_mem hc)
    rw [Char.isUpper_toUpper_eq_isAlpha] at hup
    exact not_isBlank_of_isAlphanum (by simp [Char.isAlphanum, hup])

theorem mem_operation {op : Operation} {cs : List Char} :
    cs ∈ operation op ↔
      ∃ word ∈ name op.verb, ∃ between ∈ gap, ∃ rest ∈ arguments op, word ++ (between ++ rest) = cs :=
  mem_mul_mul

theorem closed_of_mem_operation {op : Operation} {cs : List Char} (h : cs ∈ operation op) : Closed cs := by
  obtain ⟨word, -, between, -, rest, hrest, rfl⟩ := mem_operation.mp h
  exact ((closed_of_mem_arguments hrest).append between).append word

theorem tight_of_mem_operation {op : Operation} {cs : List Char} (h : cs ∈ operation op) : Tight cs := by
  refine ⟨?_, fun c hc => ((closed_of_mem_operation h).ends.2 c hc).1⟩
  obtain ⟨word, hword, between, -, rest, -, rfl⟩ := mem_operation.mp h
  exact (solid_of_mem_name hword).starts_append _

theorem mem_ampersand_true {cs : List Char} : cs ∈ ampersand true ↔ ∃ blank ∈ blanks, blank ++ ['&'] = cs := by
  constructor
  · rintro ⟨blank, hblank, _, rfl, rfl⟩
    exact ⟨blank, hblank, rfl⟩
  · rintro ⟨blank, hblank, rfl⟩
    exact ⟨blank, hblank, ['&'], rfl, rfl⟩

theorem mem_ampersand_false {cs : List Char} : cs ∈ ampersand false ↔ cs = [] := Iff.rfl

theorem tight_append_ampersand {cs back : List Char} {background : Bool} (h : Tight cs) (hne : cs ≠ [])
    (hback : back ∈ ampersand background) : Tight (cs ++ back) := by
  cases background with
  | true =>
      obtain ⟨blank, -, rfl⟩ := mem_ampersand_true.mp hback
      refine ⟨?_, fun c hc => ?_⟩
      · rw [List.head?_append_of_ne_nil _ hne]
        exact h.starts
      · rw [← List.append_assoc, List.getLast?_concat] at hc
        cases hc
        decide
  | false =>
      rw [mem_ampersand_false.mp hback, List.append_nil]
      exact h

theorem mem_line {c : Command} {cs : List Char} :
    cs ∈ line c ↔
      ∃ front ∈ blanks, ∃ core ∈ operation c.operation, ∃ back ∈ ampersand c.background, ∃ blank ∈ blanks,
        front ++ (core ++ back ++ blank) = cs := by
  rw [line, mul_assoc, mul_assoc, ← mul_assoc (operation _)]
  constructor
  · rintro ⟨front, hfront, _, ⟨_, ⟨core, hcore, back, hback, rfl⟩, blank, hblank, rfl⟩, rfl⟩
    exact ⟨front, hfront, core, hcore, back, hback, blank, hblank, rfl⟩
  · rintro ⟨front, hfront, core, hcore, back, hback, blank, hblank, rfl⟩
    exact ⟨front, hfront, _, ⟨_, ⟨core, hcore, back, hback, rfl⟩, blank, hblank, rfl⟩, rfl⟩

end Grammar

open Grammar

theorem Verb.ofWord?_eq_some_iff {word : Chars} {verb : Verb} : ofWord? word = some verb ↔ word ∈ Grammar.name verb := by
  rw [mem_name, ofWord?]
  constructor
  · intro h
    simpa using List.find?_some h
  · intro h
    rw [← h]
    cases verb <;> decide

namespace Command

theorem operationOf_eq_ok_iff {verb : Verb} {cs : Chars} {op : Operation} (h : Tight cs) :
    operationOf verb cs = .ok op ↔ op.verb = verb ∧ cs ∈ arguments op := by
  cases verb with
  | put => exact put_eq_ok_iff h
  | get => exact get_eq_ok_iff h
  | multiPut => exact multiPut_eq_ok_iff h
  | multiGet => exact multiGet_eq_ok_iff h
  | getWhen => exact getWhen_eq_ok_iff h

theorem mem_operation_iff {cs : Chars} {op : Operation} (h : Tight cs) :
    cs ∈ Grammar.operation op ↔
      ∃ verb, Verb.ofWord? (splitWord cs).1 = some verb ∧ operationOf verb (splitWord cs).2 = .ok op := by
  simp only [Verb.ofWord?_eq_some_iff, operationOf_eq_ok_iff h.splitWord_snd]
  constructor
  · intro hcs
    obtain ⟨word, hword, between, hbetween, rest, hrest, rfl⟩ := mem_operation.mp hcs
    rw [(solid_of_mem_name hword).splitWord_append hbetween (starts_of_mem_arguments hrest).2]
    exact ⟨_, hword, rfl, hrest⟩
  · rintro ⟨_, hword, rfl, hrest⟩
    obtain ⟨-, -, between, hbetween, hcs⟩ := (h.splitWord_eq_iff (starts_of_mem_arguments hrest).1).mp rfl
    exact mem_operation.mpr ⟨_, hword, between, hbetween, _, hrest, hcs.symm⟩

theorem splitBackground_eq_iff {cs core : Chars} {background : Bool} (h : Tight cs) :
    splitBackground cs = (core, background) ↔
      Tight core ∧ (background = false → core.getLast? ≠ some '&') ∧
        ∃ back ∈ ampersand background, core ++ back = cs := by
  rw [splitBackground]
  by_cases hlast : cs.getLast? = some '&'
  · rw [if_pos hlast]
    obtain ⟨front, rfl⟩ := List.getLast?_eq_some_iff.mp hlast
    rw [List.dropLast_concat]
    constructor
    · rintro hsplit
      cases hsplit
      obtain ⟨hend, blank, hblank, hfront⟩ := trimEnd_eq_iff.mp (Eq.refl (trimEnd front))
      refine ⟨⟨fun c hc => h.starts c ?_, hend⟩, nofun, _, mem_ampersand_true.mpr ⟨blank, hblank, rfl⟩, ?_⟩
      · rw [← hfront, List.append_assoc, List.head?_append, hc]
        rfl
      · rw [← List.append_assoc, hfront]
    · rintro ⟨hcore, hno, back, hback, hcs⟩
      cases background with
      | true =>
          obtain ⟨blank, hblank, rfl⟩ := mem_ampersand_true.mp hback
          rw [← List.append_assoc] at hcs
          rw [trimEnd_eq_iff.mpr ⟨hcore.ends, blank, hblank, List.append_cancel_right hcs⟩]
      | false =>
          rw [mem_ampersand_false.mp hback, List.append_nil] at hcs
          rw [hcs] at hno
          exact absurd hlast (hno rfl)
  · rw [if_neg hlast]
    constructor
    · rintro hsplit
      cases hsplit
      exact ⟨h, fun _ => hlast, [], rfl, List.append_nil _⟩
    · rintro ⟨hcore, hno, back, hback, rfl⟩
      cases background with
      | true =>
          obtain ⟨blank, hblank, rfl⟩ := mem_ampersand_true.mp hback
          rw [← List.append_assoc, List.getLast?_concat] at hlast
          exact absurd rfl hlast
      | false => rw [mem_ampersand_false.mp hback, List.append_nil]

theorem parseChars_eq_ok_iff {text : Chars} {c : Command} :
    parseChars text = .ok c ↔
      ∃ core, splitBackground (trim text) = (core, c.background) ∧
        ∃ verb, Verb.ofWord? (splitWord core).1 = some verb ∧ operationOf verb (splitWord core).2 = .ok c.operation := by
  obtain ⟨op, background⟩ := c
  cases hsplit : splitBackground (trim text) with
  | mk core bg =>
      simp only [parseChars, hsplit, Prod.mk.injEq]
      cases hword : Verb.ofWord? (splitWord core).1 with
      | none =>
          refine ⟨nofun, ?_⟩
          rintro ⟨_, ⟨rfl, -⟩, verb, hverb, -⟩
          rw [hword] at hverb
          cases hverb
      | some verb =>
          simp only [bind_eq_ok_iff, pure, Except.pure, Except.ok.injEq, Command.mk.injEq]
          constructor
          · rintro ⟨_, hop, rfl, rfl⟩
            exact ⟨core, ⟨rfl, rfl⟩, verb, hword, hop⟩
          · rintro ⟨_, ⟨rfl, rfl⟩, verb', hverb, hop⟩
            rw [hword] at hverb
            cases hverb
            exact ⟨op, hop, rfl, rfl⟩

theorem mem_line_of_parseChars {text : Chars} {c : Command} (h : parseChars text = .ok c) : text ∈ line c := by
  obtain ⟨core, hsplit, hop⟩ := parseChars_eq_ok_iff.mp h
  obtain ⟨htight, front, hfront, blank, hblank, htext⟩ := trim_eq_iff.mp (Eq.refl (trim text))
  obtain ⟨hcore, -, back, hback, htrim⟩ := (splitBackground_eq_iff htight).mp hsplit
  refine mem_line.mpr ⟨front, hfront, core, (mem_operation_iff hcore).mpr hop, back, hback, blank, hblank, ?_⟩
  rw [htrim, htext]

theorem parseChars_of_mem_line {text : Chars} {c : Command} (h : text ∈ line c) : parseChars text = .ok c := by
  obtain ⟨front, hfront, core, hcore, back, hback, blank, hblank, htext⟩ := mem_line.mp h
  have htight := tight_of_mem_operation hcore
  obtain ⟨hne, hends⟩ := (closed_of_mem_operation hcore).ends
  have hwhole := tight_append_ampersand htight hne hback
  have htrim : trim text = core ++ back := trim_eq_iff.mpr ⟨hwhole, front, hfront, blank, hblank, htext⟩
  refine parseChars_eq_ok_iff.mpr ⟨core, ?_, (mem_operation_iff htight).mp hcore⟩
  rw [htrim, splitBackground_eq_iff hwhole]
  -- No command ends with an ampersand of its own.
  exact ⟨htight, fun _ hlast => (hends '&' hlast).2 rfl, back, hback, rfl⟩

/-- Exactly the lines of the language are read, and each to the command that it is a line of. -/
theorem parse_eq_ok_iff (text : String) (c : Command) : parse text = .ok c ↔ text.toList ∈ line c :=
  ⟨mem_line_of_parseChars, parseChars_of_mem_line⟩

end Command

end AwaitStore.Shell
