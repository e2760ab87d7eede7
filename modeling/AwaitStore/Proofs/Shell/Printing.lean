import AwaitStore.Proofs.Shell.Parsing
import AwaitStore.Shell.Report

namespace AwaitStore

/-- A key that stands on a command line. -/
def Key.Typable (k : Key) : Prop := k ≠ "" ∧ ∀ c ∈ k.toList, c.isAlphanum

def Operation.Typable : Operation → Prop
  | .put k _ => Key.Typable k
  | .get k => Key.Typable k
  | .multiPut table => table ≠ ∅ ∧ ∀ k ∈ table, Key.Typable k
  | .multiGet set => set ≠ ∅ ∧ ∀ k ∈ set, Key.Typable k
  | .getWhen wish => Key.Typable wish.key ∧ Key.Typable wish.keyCond

namespace Shell

open Text

namespace Grammar

theorem toList_mem_key {k : Key} (h : Key.Typable k) : k.toList ∈ key k :=
  ⟨rfl, mt String.toList_eq_nil_iff.mp h.1, h.2⟩

theorem name_mem_name (verb : Verb) : verb.name.toList ∈ name verb :=
  List.forall₂_same.mpr fun _ _ => .inl rfl

theorem space_mem_gap : [' '] ∈ gap := ⟨nofun, List.forall_mem_singleton.mpr rfl⟩

theorem append_space_mem {l m : Language Char} {xs ys : List Char} (hxs : xs ∈ l) (hys : ys ∈ m) :
    xs ++ [' '] ++ ys ∈ l * gap * m :=
  Language.append_mem_mul (Language.append_mem_mul hxs space_mem_gap) hys

theorem mem_listed_intercalate {α : Type} {separator : Language Char} {item : α → Language Char}
    {between : List Char} {text : α → List Char} {as : List α} (hbetween : between ∈ separator)
    (h : ∀ a ∈ as, text a ∈ item a) : between.intercalate (as.map text) ∈ listed separator item as := by
  induction as with
  | nil => rfl
  | cons a rest ih =>
      obtain ⟨ha, hrest⟩ := List.forall_mem_cons.mp h
      cases rest with
      | nil =>
          rw [listed_singleton, List.map_singleton, List.intercalate_singleton]
          exact ha
      | cons b rest =>
          rw [List.map_cons, List.map_cons, List.intercalate_cons_cons, List.append_assoc]
          exact mem_listed_cons_cons.mpr ⟨_, ha, _, hbetween, _, ih hrest, rfl⟩

theorem toDigits_mem_digits (n : Nat) : Nat.toDigits 10 n ∈ digits n :=
  ⟨Nat.toDigits_ne_nil, fun _ hc => Nat.isDigit_of_mem_toDigits (by decide) (by decide) hc,
    Nat.ofDigitChars_ten_toDigits⟩

theorem repr_mem_number (n : Int) : n.repr.toList ∈ number n := by
  rw [Int.repr_eq_if]
  split
  next hn =>
    rw [Nat.repr_eq_ofList_toDigits, String.toList_ofList]
    exact ⟨n.toNat, _, toDigits_mem_digits _, .inl ⟨(Int.toNat_of_nonneg hn).symm, .inl rfl⟩⟩
  next hn =>
    simp only [String.toList_append, Nat.repr_eq_ofList_toDigits, String.toList_ofList]
    exact ⟨(-n).toNat, _, toDigits_mem_digits _, .inr ⟨by omega, rfl⟩⟩

theorem signed_eq (b : UInt8) : Literal.signed b = (b.toNat : Int).bmod 256 :=
  BitVec.toInt_eq_toNat_bmod b.toBitVec

theorem repr_mem_element (b : UInt8) : (Literal.signed b).repr.toList ∈ element b := by
  have hb := b.toNat_lt
  have hsigned := signed_eq b
  refine mem_element.mpr ⟨Literal.signed b, ?_, ?_, ?_, [], nil_mem_blanks, _, repr_mem_number _, [],
    nil_mem_blanks, List.append_nil _⟩
  · exact b.toInt8.le_toInt
  · exact Int.le_of_lt_add_one b.toInt8.toInt_lt
  · rw [hsigned]
    change _ = (b.toNat : Int).bmod 256 % (256 : Nat)
    rw [Int.bmod_emod]
    omega

theorem blank_cons_mem_element {b : UInt8} {cs : List Char} (h : cs ∈ element b) : ' ' :: cs ∈ element b := by
  obtain ⟨n, hlow, hhigh, hb, front, hfront, core, hcore, back, hback, rfl⟩ := mem_element.mp h
  exact mem_element.mpr ⟨n, hlow, hhigh, hb, [' '] ++ front, append_mem_blanks.mpr ⟨space_mem_gap.2, hfront⟩, core,
    hcore, back, hback, rfl⟩

theorem blank_cons_mem_listed {b : UInt8} {rest : Value} {cs : List Char}
    (h : cs ∈ listed {[',']} element (b :: rest)) : ' ' :: cs ∈ listed {[',']} element (b :: rest) := by
  obtain ⟨first, hfirst, others, hothers, rfl⟩ := h
  exact ⟨' ' :: first, blank_cons_mem_element hfirst, others, hothers, rfl⟩

theorem intercalate_mem_listed (b : UInt8) (rest : Value) :
    [',', ' '].intercalate ((b :: rest).map fun b => (Literal.signed b).repr.toList) ∈
      listed {[',']} element (b :: rest) := by
  induction rest generalizing b with
  | nil =>
      rw [List.map_singleton, List.intercalate_singleton, listed_singleton]
      exact repr_mem_element b
  | cons b' rest ih =>
      rw [List.map_cons, List.map_cons, List.intercalate_cons_cons, List.append_assoc]
      -- The blank behind the comma belongs to the element that follows.
      exact mem_listed_cons_cons.mpr ⟨_, repr_mem_element b, [','], rfl, _, blank_cons_mem_listed (ih b'), rfl⟩

theorem bytes_mem_array (v : Value) : (Literal.bytes v).toList ∈ array v := by
  simp only [Literal.bytes, String.toList_append, String.toList_intercalate, toString, List.map_map]
  refine Language.append_mem_mul (Language.append_mem_mul rfl ?_) rfl
  cases v with
  | nil => exact nil_mem_blanks
  | cons b rest => exact intercalate_mem_listed b rest

theorem entryText_mem_group {entry : Key × Value} (h : Key.Typable entry.1) :
    (entryText entry).toList ∈ group entry := by
  simp only [entryText, String.toList_append, toString]
  exact append_space_mem (toList_mem_key h) (bytes_mem_array _)

theorem commandText_mem_operation {op : Operation} (h : op.Typable) : (commandText op).toList ∈ operation op := by
  cases op with
  | put k v =>
      simp only [commandText, String.toList_append, toString]
      rw [operation, arguments, ← mul_assoc, ← mul_assoc]
      exact append_space_mem (append_space_mem (name_mem_name .put) (toList_mem_key h)) (bytes_mem_array v)
  | get k =>
      simp only [commandText, String.toList_append, toString]
      exact append_space_mem (name_mem_name .get) (toList_mem_key h)
  | multiPut table =>
      obtain ⟨hne, hkeys⟩ := h
      simp only [commandText, String.toList_append, String.toList_intercalate, toString, List.map_map]
      refine append_space_mem (name_mem_name .multiPut)
        ⟨table.toList, ?_, Table.ofPairs_eq_iff.mp (Table.ofPairs_of_perm .rfl), mem_listed_intercalate space_mem_gap.2 ?_⟩
      · rwa [ne_eq, Std.ExtTreeMap.toList_eq_nil_iff]
      · intro entry hentry
        rw [Std.ExtTreeMap.mem_toList_iff_getElem?_eq_some] at hentry
        refine entryText_mem_group (hkeys entry.1 ?_)
        rw [Std.ExtTreeMap.mem_iff_isSome_getElem?, hentry]
        rfl
  | multiGet set =>
      obtain ⟨hne, hkeys⟩ := h
      simp only [commandText, String.toList_append, String.toList_intercalate, toString]
      refine append_space_mem (name_mem_name .multiGet)
        ⟨set.toList, ?_, fun _ => Std.ExtTreeSet.mem_toList.symm, mem_listed_intercalate space_mem_gap ?_⟩
      · rwa [ne_eq, Std.ExtTreeSet.toList_eq_nil_iff]
      · exact fun k hk => toList_mem_key (hkeys k (Std.ExtTreeSet.mem_toList.mp hk))
  | getWhen wish =>
      obtain ⟨hkey, hcond⟩ := h
      simp only [commandText, String.toList_append, toString]
      rw [operation, arguments, ← mul_assoc, ← mul_assoc, ← mul_assoc, ← mul_assoc]
      exact append_space_mem (append_space_mem (append_space_mem (name_mem_name .getWhen) (toList_mem_key hkey))
        (toList_mem_key hcond)) (bytes_mem_array _)

end Grammar

open Grammar

theorem parse_append {text suffix : String} {op : Operation} {background : Bool}
    (h : text.toList ∈ operation op) (hsuffix : suffix.toList ∈ ampersand background) :
    Command.parse (text ++ suffix) = .ok ⟨op, background⟩ := by
  refine Command.parseChars_of_mem_line (mem_line.mpr ⟨[], nil_mem_blanks, _, h, _, hsuffix, [], nil_mem_blanks, ?_⟩)
  rw [List.append_nil, String.toList_append]
  rfl

/-- A command is typed again as it is shown, and a value as it is shown is read to the same value. -/
theorem shown_typed_back :
    (∀ op : Operation, op.Typable →
        (∀ answer, ∃ result, completedText op answer = commandText op ++ " completed" ++ result) ∧
          Command.parse (commandText op) = .ok ⟨op, false⟩ ∧
          Command.parse (commandText op ++ " &") = .ok ⟨op, true⟩ ∧
          Command.parse (commandText op ++ "&") = .ok ⟨op, true⟩) ∧
      (∀ verb v, Command.value verb (Literal.render (some v)).toList = .ok v) ∧
      Function.Injective Literal.render := by
  have hvalue : ∀ verb v, Command.value verb (Literal.render (some v)).toList = .ok v :=
    fun verb v => Command.value_eq_ok_iff.mpr (bytes_mem_array v)
  refine ⟨fun op hop => ⟨fun answer => ⟨answerText op answer, rfl⟩, ?_, ?_, ?_⟩, hvalue, ?_⟩
  · have h : Command.parse (commandText op ++ "") = .ok ⟨op, false⟩ :=
      parse_append (commandText_mem_operation hop) rfl
    rwa [String.append_empty] at h
  · exact parse_append (commandText_mem_operation hop) (mem_ampersand_true.mpr ⟨[' '], space_mem_gap.2, rfl⟩)
  · exact parse_append (commandText_mem_operation hop) (mem_ampersand_true.mpr ⟨[], nil_mem_blanks, rfl⟩)
  · have hnull : ∀ v, Literal.render none ≠ Literal.render (some v) := by
      intro v h
      have := hvalue .put v
      rw [← h] at this
      cases this
    rintro (_ | v) (_ | w) h
    · rfl
    · exact absurd h (hnull w)
    · exact absurd h.symm (hnull v)
    · have hv := hvalue .put v
      rw [h, hvalue .put w] at hv
      rw [Except.ok.inj hv]

theorem shown_typed_back_signed :
    Operation.Typable (.getWhen ⟨"k1", "b", [0, 128, 255]⟩) ∧
      Command.parse "GETWHEN k1 b [0, -128, -1] &" = .ok ⟨.getWhen ⟨"k1", "b", [0, 128, 255]⟩, true⟩ := by
  have h : Operation.Typable (.getWhen ⟨"k1", "b", [0, 128, 255]⟩) := by
    simp [Operation.Typable, Key.Typable, Char.isAlphanum, Char.isAlpha, Char.isLower, Char.isDigit]
  exact ⟨h, (shown_typed_back.1 _ h).2.2.1⟩

end Shell

end AwaitStore
