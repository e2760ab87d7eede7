import AwaitStore.Proofs.Shell.Literals
import AwaitStore.Proofs.Wire.Collections

namespace AwaitStore

namespace Table

theorem isEmpty_ofPairs (entries : List (Key × Value)) : (ofPairs entries).isEmpty ↔ entries = [] := by
  rw [Std.ExtTreeMap.isEmpty_iff]
  constructor
  · intro h
    cases entries with
    | nil => rfl
    | cons entry rest =>
        have hlook := ofPairs_eq_iff.mp h entry.1
        rw [Std.ExtTreeMap.getElem?_empty, eq_comm, List.lookup_eq_none_iff] at hlook
        simpa using hlook entry
  · rintro rfl
    rfl

end Table

namespace Text

theorem cutAfter_eq_some_iff {c : Char} {cs front rest : Chars} :
    cutAfter c cs = some (front, rest) ↔ ∃ inner, c ∉ inner ∧ front = inner ++ [c] ∧ cs = front ++ rest := by
  constructor
  · intro h
    refine ⟨front.dropLast, ?_⟩
    induction cs generalizing front with
    | nil => cases h
    | cons d cs ih =>
        rw [cutAfter] at h
        split at h
        next hd =>
          cases h
          exact ⟨nofun, by rw [hd]; rfl, rfl⟩
        next hd =>
          obtain ⟨⟨front, _⟩, hcut, h⟩ := Option.map_eq_some_iff.mp h
          cases h
          obtain ⟨hmem, hfront, hcs⟩ := ih hcut
          have hne := cutAfter_ne_nil hcut
          refine ⟨?_, ?_, ?_⟩ <;> grind
  · rintro ⟨inner, hinner, rfl, rfl⟩
    induction inner with
    | nil => simp [cutAfter]
    | cons d inner ih =>
        obtain ⟨hd, hinner⟩ := not_or.mp (mt List.mem_cons.mpr hinner)
        simp only [List.cons_append, cutAfter, if_neg (Ne.symm hd), ih hinner, Option.map_some]

end Text

namespace Shell

open Text

namespace Grammar

theorem solid_of_mem_key {k : Key} {cs : List Char} (h : cs ∈ key k) : Solid cs :=
  ⟨h.2.1, fun c hc => not_isBlank_of_isAlphanum (h.2.2 c hc)⟩

def Closed (cs : List Char) : Prop := ∃ front c, cs = front ++ [c] ∧ (c.isAlphanum ∨ c = ']')

theorem Closed.append {back : List Char} (h : Closed back) (front : List Char) : Closed (front ++ back) := by
  obtain ⟨front', c, rfl, hc⟩ := h
  exact ⟨front ++ front', c, (List.append_assoc ..).symm, hc⟩

theorem Closed.ends {cs : List Char} (h : Closed cs) : cs ≠ [] ∧ ∀ c ∈ cs.getLast?, ¬ isBlank c ∧ c ≠ '&' := by
  obtain ⟨front, c, rfl, hc⟩ := h
  rw [List.getLast?_concat]
  refine ⟨by simp, ?_⟩
  rintro _ ⟨⟩
  obtain hc | rfl := hc
  · exact ⟨not_isBlank_of_isAlphanum hc, by rintro rfl; exact absurd hc (by decide)⟩
  · decide

theorem closed_of_mem_key {k : Key} {cs : List Char} (h : cs ∈ key k) : Closed cs :=
  ⟨cs.dropLast, cs.getLast h.2.1, (List.dropLast_concat_getLast h.2.1).symm, .inl (h.2.2 _ (List.getLast_mem h.2.1))⟩

theorem closed_of_mem_array {v : Value} {cs : List Char} (h : cs ∈ array v) : Closed cs := by
  obtain ⟨inner, -, rfl⟩ := mem_array.mp h
  exact ⟨'[' :: inner, ']', rfl, .inr rfl⟩

theorem not_mem_of_mem_items {v : Value} {cs : List Char} (h : cs ∈ items v) : ']' ∉ cs := by
  obtain ⟨-, hcs⟩ | ⟨-, hcs⟩ := mem_items.mp h
  · exact fun hc => absurd (hcs _ hc) (by decide)
  · clear h
    induction v generalizing cs with
    | nil =>
        obtain rfl : cs = [] := hcs
        nofun
    | cons b rest ih =>
        cases rest with
        | nil =>
            rw [listed_singleton] at hcs
            exact (not_mem_of_mem_element hcs).2
        | cons b' rest =>
            obtain ⟨xs, hxs, _, rfl, zs, hzs, rfl⟩ := mem_listed_cons_cons.mp hcs
            simpa using ⟨(not_mem_of_mem_element hxs).2, ih hzs⟩

theorem exists_of_mem_array {v : Value} {cs : List Char} (h : cs ∈ array v) :
    ∃ inner, ']' ∉ inner ∧ cs = inner ++ [']'] := by
  obtain ⟨inner, hinner, rfl⟩ := mem_array.mp h
  exact ⟨'[' :: inner, by simpa using not_mem_of_mem_items hinner, rfl⟩

theorem mem_group {entry : Key × Value} {cs : List Char} :
    cs ∈ group entry ↔
      ∃ word ∈ key entry.1, ∃ between ∈ gap, ∃ bracketed ∈ array entry.2, word ++ (between ++ bracketed) = cs :=
  mem_mul_mul

theorem starts_of_mem_array {v : Value} {cs : List Char} (h : cs ∈ array v) :
    cs ≠ [] ∧ ∀ c ∈ cs.head?, ¬ isBlank c := by
  obtain ⟨inner, -, rfl⟩ := mem_array.mp h
  exact ⟨nofun, by rintro _ ⟨⟩; decide⟩

theorem starts_of_mem_key_mul {k : Key} {l : Language Char} {cs : List Char} (h : cs ∈ key k * l) :
    cs ≠ [] ∧ ∀ c ∈ cs.head?, ¬ isBlank c := by
  obtain ⟨word, hword, rest, -, rfl⟩ := h
  have hsolid := solid_of_mem_key hword
  exact ⟨List.append_ne_nil_of_left_ne_nil hsolid.1 rest, hsolid.starts_append rest⟩

theorem mem_key_gap_iff {k : Key} {l : Language Char} {cs : List Char} (h : Tight cs)
    (hl : ∀ rest ∈ l, rest ≠ [] ∧ ∀ c ∈ rest.head?, ¬ isBlank c) :
    cs ∈ key k * (gap * l) ↔ (splitWord cs).1 ∈ key k ∧ (splitWord cs).2 ∈ l := by
  constructor
  · rintro ⟨word, hword, _, ⟨between, hbetween, rest, hrest, rfl⟩, rfl⟩
    dsimp only
    rw [(solid_of_mem_key hword).splitWord_append hbetween (hl rest hrest).2]
    exact ⟨hword, hrest⟩
  · rintro ⟨hword, hrest⟩
    obtain ⟨-, -, between, hbetween, hcs⟩ := (h.splitWord_eq_iff (hl _ hrest).1).mp rfl
    exact ⟨_, hword, _, ⟨between, hbetween, _, hrest, rfl⟩, hcs.symm⟩

end Grammar

open Grammar

theorem isKeyChar_eq (c : Char) : isKeyChar c = c.isAlphanum := by
  rw [Bool.eq_iff_iff]
  simp only [isKeyChar, Char.isAlphanum, Char.isAlpha, Char.isUpper, Char.isLower, Char.isDigit, Bool.or_eq_true,
    Bool.and_eq_true, decide_eq_true_eq]
  exact or_congr_left or_comm

theorem bind_eq_ok_iff {ε α β : Type} {x : Except ε α} {f : α → Except ε β} {b : β} :
    (x >>= f) = .ok b ↔ ∃ a, x = .ok a ∧ f a = .ok b := by
  cases x <;> simp [bind, Except.bind]

theorem unless_error_eq_ok_iff {ε α : Type} {p : Prop} [Decidable p] {e : ε} {f : PUnit → Except ε α}
    {rest : Except ε α} {a : α} :
    (if p then (.error e : Except ε PUnit) >>= f else rest) = .ok a ↔ ¬ p ∧ rest = .ok a := by
  by_cases h : p <;> simp [h, bind, Except.bind]

namespace Command

theorem key_eq_ok_iff {verb : Verb} {role : Role} {word : Chars} {k : Key} :
    key verb role word = .ok k ↔ word ∈ Grammar.key k := by
  have hall : word.all isKeyChar ↔ ∀ c ∈ word, c.isAlphanum := by simp only [List.all_eq_true, isKeyChar_eq]
  simp only [key, hall, Grammar.key]
  by_cases hword : word ≠ [] ∧ ∀ c ∈ word, c.isAlphanum
  · rw [if_pos hword]
    constructor
    · intro h
      obtain rfl := Except.ok.inj h
      exact ⟨String.toList_ofList.symm, hword⟩
    · rintro ⟨rfl, -⟩
      rw [String.ofList_toList]
  · rw [if_neg hword]
    exact ⟨nofun, fun h => absurd h.2 hword⟩

theorem put_eq_ok_iff {cs : Chars} {op : Operation} (h : Tight cs) :
    put cs = .ok op ↔ op.verb = .put ∧ cs ∈ arguments op := by
  have hgroup : ∀ k v, cs ∈ Grammar.key k * gap * array v ↔
      (splitWord cs).1 ∈ Grammar.key k ∧ (splitWord cs).2 ∈ array v := by
    intro k v
    rw [mul_assoc, mem_key_gap_iff h fun _ => starts_of_mem_array]
  simp only [put, unless_error_eq_ok_iff, bind_eq_ok_iff, key_eq_ok_iff, value_eq_ok_iff, pure, Except.pure,
    Except.ok.injEq]
  constructor
  · rintro ⟨-, k, hk, v, hv, rfl⟩
    exact ⟨rfl, (hgroup k v).mpr ⟨hk, hv⟩⟩
  · rintro ⟨hverb, hcs⟩
    cases op with
    | put k v =>
        obtain ⟨hk, hv⟩ := (hgroup k v).mp hcs
        refine ⟨?_, k, hk, v, hv, rfl⟩
        rw [List.isEmpty_iff]
        exact (starts_of_mem_array hv).1
    | _ => cases hverb

theorem get_eq_ok_iff {cs : Chars} {op : Operation} (h : Tight cs) :
    get cs = .ok op ↔ op.verb = .get ∧ cs ∈ arguments op := by
  simp only [get, unless_error_eq_ok_iff, bind_eq_ok_iff, key_eq_ok_iff, pure, Except.pure, Except.ok.injEq]
  constructor
  · rintro ⟨hcond, k, hk, rfl⟩
    have hlast : (splitWord cs).2 = [] := by
      simpa using fun hne : (splitWord cs).2 ≠ [] => hcond (by simp [hne])
    exact ⟨rfl, (h.splitWord_eq_last_iff.mp (Prod.ext rfl hlast)).1 ▸ hk⟩
  · rintro ⟨hverb, hcs⟩
    cases op with
    | get k =>
        have hsplit := (solid_of_mem_key hcs).splitWord_eq
        refine ⟨?_, k, ?_, rfl⟩
        · simpa [hsplit] using (solid_of_mem_key hcs).1
        · rw [hsplit]
          exact hcs
    | _ => cases hverb

theorem getWhen_eq_ok_iff {cs : Chars} {op : Operation} (h : Tight cs) :
    getWhen cs = .ok op ↔ op.verb = .getWhen ∧ cs ∈ arguments op := by
  have hgroup : ∀ wish : Wish, cs ∈ arguments (.getWhen wish) ↔
      (splitWord cs).1 ∈ Grammar.key wish.key ∧ (splitWord (splitWord cs).2).1 ∈ Grammar.key wish.keyCond ∧
        (splitWord (splitWord cs).2).2 ∈ array wish.valueCond := by
    intro wish
    rw [arguments, mul_assoc, mul_assoc, mul_assoc, mem_key_gap_iff h fun _ => starts_of_mem_key_mul,
      mem_key_gap_iff h.splitWord_snd fun _ => starts_of_mem_array]
  simp only [getWhen, unless_error_eq_ok_iff, bind_eq_ok_iff, key_eq_ok_iff, value_eq_ok_iff, pure, Except.pure,
    Except.ok.injEq]
  constructor
  · rintro ⟨-, k, hk, keyCond, hcond, v, hv, rfl⟩
    exact ⟨rfl, (hgroup _).mpr ⟨hk, hcond, hv⟩⟩
  · rintro ⟨hverb, hcs⟩
    cases op with
    | getWhen wish =>
        obtain ⟨hk, hcond, hv⟩ := (hgroup wish).mp hcs
        refine ⟨?_, wish.key, hk, wish.keyCond, hcond, wish.valueCond, hv, rfl⟩
        simp [(solid_of_mem_key hcond).1, (starts_of_mem_array hv).1]
    | _ => cases hverb

theorem multiGet_eq_ok_iff {cs : Chars} {op : Operation} (h : Tight cs) :
    multiGet cs = .ok op ↔ op.verb = .multiGet ∧ cs ∈ arguments op := by
  have hwords : ∀ keys : List Key, List.Forall₂ (fun word k => word ∈ Grammar.key k) (words cs) keys ↔
      cs ∈ listed gap Grammar.key keys := by
    intro keys
    rw [mem_listed_iff]
    constructor
    · exact fun hkeys => ⟨_, hkeys, ((words_eq_iff h).mp rfl).2⟩
    · rintro ⟨ws, hkeys, hcs⟩
      have hsolid : ∀ w ∈ ws, Solid w :=
        ((List.forall₂_and_left _ _).mp (hkeys.imp fun _ _ hw => ⟨solid_of_mem_key hw, hw⟩)).1
      rwa [(words_eq_iff h).mpr ⟨hsolid, hcs⟩]
  simp only [multiGet, unless_error_eq_ok_iff, bind_eq_ok_iff, mapM_eq_ok_iff, key_eq_ok_iff, pure, Except.pure,
    Except.ok.injEq, hwords, List.isEmpty_iff]
  constructor
  · rintro ⟨keys, hkeys, hne, rfl⟩
    exact ⟨rfl, keys, hne, KeySet.ofKeys_eq_iff.mp rfl, hkeys⟩
  · rintro ⟨hverb, hcs⟩
    cases op with
    | multiGet set =>
        obtain ⟨keys, hne, hset, hkeys⟩ := hcs
        exact ⟨keys, hkeys, hne, congrArg _ (KeySet.ofKeys_eq_iff.mpr hset)⟩
    | _ => cases hverb

theorem pairs_group {entry : Key × Value} {front blank rest : Chars} (found : Table)
    (hfront : front ∈ group entry) (hblank : blank ∈ blanks) (hrest : ∀ c ∈ rest.head?, ¬ isBlank c) :
    pairs (front ++ (blank ++ rest)) found = pairs rest (found.insert entry.1 entry.2) := by
  obtain ⟨word, hk, between, hbetween, bracketed, hv, rfl⟩ := mem_group.mp hfront
  have hsolid := solid_of_mem_key hk
  have hstart := starts_of_mem_array hv
  obtain ⟨inner, hinner, rfl⟩ := exists_of_mem_array hv
  have htight : Tight (inner ++ [']']) := ⟨hstart.2, fun c hc => ((closed_of_mem_array hv).ends.2 c hc).1⟩
  have hsplit : splitWord (word ++ (between ++ (inner ++ [']'])) ++ (blank ++ rest)) =
      (word, inner ++ [']'] ++ (blank ++ rest)) := by
    rw [List.append_assoc, List.append_assoc]
    refine hsolid.splitWord_append hbetween ?_
    rw [List.head?_append_of_ne_nil _ hstart.1]
    exact hstart.2
  have hcut : cutAfter ']' (inner ++ [']'] ++ (blank ++ rest)) = some (inner ++ [']'], blank ++ rest) :=
    cutAfter_eq_some_iff.mpr ⟨inner, hinner, rfl, rfl⟩
  have htrim : trimStart (blank ++ rest) = rest := trimStart_eq_iff.mpr ⟨hrest, blank, hblank, rfl⟩
  rw [pairs]
  have hne : (word ++ (between ++ (inner ++ [']'])) ++ (blank ++ rest)).isEmpty = false := by
    simp [hsolid.1]
  simp only [hne, hsplit, key_eq_ok_iff.mpr hk, Bool.false_eq_true, if_false]
  rw [if_neg (by simp)]
  split
  next hnone =>
    rw [hsplit, hcut] at hnone
    cases hnone
  next array after hsome =>
    rw [hsplit, hcut] at hsome
    cases hsome
    rw [htight.trim_eq, value_eq_ok_iff.mpr hv, htrim]

theorem listed_of_pairs {cs : Chars} {found table : Table} (h : Tight cs) (hok : pairs cs found = .ok table) :
    ∃ entries, found.putAll entries = table ∧ cs ∈ listed blanks group entries := by
  fun_induction pairs cs found with
  | case1 cs found hcs =>
      rw [List.isEmpty_iff] at hcs
      exact ⟨[], Except.ok.inj hok, hcs⟩
  | case6 cs found hcs parts hmore k hk bracketed after hcut v hv ih =>
      have hne : parts.2 ≠ [] := by simpa using hmore
      obtain ⟨-, hrest, between, hbetween, hwhole⟩ := (h.splitWord_eq_iff hne).mp rfl
      obtain ⟨inner, -, hinner, hparts⟩ := cutAfter_eq_some_iff.mp hcut
      obtain ⟨hstart, blank, hblank, hafter⟩ := trimStart_eq_iff.mp (Eq.refl (trimStart after))
      change Tight parts.2 at hrest
      rw [hparts] at hrest
      have hv : bracketed ∈ array v := by
        have htight : Tight bracketed := by
          rw [hinner] at hrest ⊢
          refine ⟨fun c hc => hrest.starts c ?_, fun c hc => ?_⟩
          · rw [List.head?_append, hc]
            rfl
          · rw [List.getLast?_concat] at hc
            cases hc
            decide
        rw [htight.trim_eq] at hv
        exact value_eq_ok_iff.mp hv
      have hfront : parts.1 ++ (between ++ bracketed) ∈ group (k, v) :=
        mem_group.mpr ⟨_, key_eq_ok_iff.mp hk, between, hbetween, _, hv, rfl⟩
      rw [← hafter, ← List.append_assoc] at hrest
      obtain ⟨entries, htable, hlisted⟩ := ih ⟨hstart, hrest.ends_of_append⟩ hok
      refine ⟨(k, v) :: entries, htable, ?_⟩
      change cs = parts.1 ++ (between ++ parts.2) at hwhole
      rw [hwhole, hparts, ← hafter]
      cases entries with
      | nil =>
          have hnil : trimStart after = [] := hlisted
          rw [hnil, List.append_nil] at hrest ⊢
          rw [hrest.eq_nil_of_append hblank, List.append_nil, listed_singleton]
          exact hfront
      | cons entry entries =>
          refine mem_listed_cons_cons.mpr ⟨_, hfront, blank, hblank, _, hlisted, ?_⟩
          simp only [List.append_assoc]
  | _ => cases hok

theorem pairs_of_listed {cs : Chars} {entries : List (Key × Value)} (found : Table)
    (h : cs ∈ listed blanks group entries) : pairs cs found = .ok (found.putAll entries) := by
  induction entries generalizing cs found with
  | nil =>
      obtain rfl : cs = [] := h
      rw [pairs]
      rfl
  | cons entry rest ih =>
      cases rest with
      | nil =>
          rw [listed_singleton] at h
          have hgroup : pairs (cs ++ ([] ++ [])) found = pairs [] (found.insert entry.1 entry.2) :=
            pairs_group found h nil_mem_blanks nofun
          rw [List.append_nil, List.append_nil] at hgroup
          rw [hgroup]
          exact ih _ rfl
      | cons next rest =>
          obtain ⟨front, hfront, blank, hblank, zs, hzs, rfl⟩ := mem_listed_cons_cons.mp h
          have hstart : ∀ c ∈ zs.head?, ¬ isBlank c := by
            obtain ⟨xs, hxs, ys, rfl⟩ := exists_append_of_mem_listed hzs
            obtain ⟨word, hk, between, -, bracketed, -, rfl⟩ := mem_group.mp hxs
            rw [List.append_assoc]
            exact (solid_of_mem_key hk).starts_append _
          rw [pairs_group found hfront hblank hstart]
          exact ih _ hzs

theorem multiPut_eq_ok_iff {cs : Chars} {op : Operation} (h : Tight cs) :
    multiPut cs = .ok op ↔ op.verb = .multiPut ∧ cs ∈ arguments op := by
  simp only [multiPut, unless_error_eq_ok_iff, bind_eq_ok_iff, pure, Except.pure, Except.ok.injEq, h.trim_eq]
  constructor
  · rintro ⟨table, hok, hne, rfl⟩
    obtain ⟨entries, rfl, hcs⟩ := listed_of_pairs h hok
    exact ⟨rfl, entries, fun he => hne ((Table.isEmpty_ofPairs entries).mpr he), Table.ofPairs_eq_iff.mp rfl, hcs⟩
  · rintro ⟨hverb, hcs⟩
    cases op with
    | multiPut table =>
        obtain ⟨entries, hne, htable, hcs⟩ := hcs
        obtain rfl := Table.ofPairs_eq_iff.mpr htable
        exact ⟨_, pairs_of_listed ∅ hcs, fun he => hne ((Table.isEmpty_ofPairs entries).mp he), rfl⟩
    | _ => cases hverb

end Command

end Shell

end AwaitStore
