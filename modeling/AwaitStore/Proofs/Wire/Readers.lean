import AwaitStore.Proofs.Wire.Collections
import AwaitStore.Proofs.Wire.Grammar
import AwaitStore.Wire.Decode

namespace AwaitStore.Wire

namespace Read

def Reads {α : Type} (r : Read α) (f : α → Language UInt8) : Prop :=
  ∀ c a d, r c = .ok (a, d) ↔
    ∃ front ∈ f a, c.rest = front ++ d.rest ∧ d.offset = c.offset + front.length

variable {α β : Type} {r : Read α} {f g : α → Language UInt8}

theorem Reads.congr (h : Reads r f) (hfg : ∀ a bs, bs ∈ f a ↔ bs ∈ g a) : Reads r g := by
  intro c a d
  simp only [h c a d, hfg]

theorem bind_eq_ok {k : α → Read β} {c d : Cursor} {b : β} :
    (r >>= k) c = .ok (b, d) ↔ ∃ a e, r c = .ok (a, e) ∧ k a e = .ok (b, d) := by
  change (r c >>= fun p => k p.1 p.2) = .ok (b, d) ↔ _
  cases h : r c with
  | error fault => simp [bind, Except.bind]
  | ok p =>
      obtain ⟨a, e⟩ := p
      simp [bind, Except.bind]

theorem pure_eq_ok {a b : α} {c d : Cursor} : (pure a : Read α) c = .ok (b, d) ↔ a = b ∧ c = d := by
  change Except.ok (a, c) = .ok (b, d) ↔ _
  simp

theorem reads_pure {a : α} {p : α → Prop} (hp : ∀ b, p b ↔ a = b) :
    Reads (pure a) fun b => ⨆ _ : p b, 1 := by
  intro c b d
  rw [pure_eq_ok, ← hp]
  constructor
  · rintro ⟨hb, rfl⟩
    exact ⟨[], Language.mem_iSup.mpr ⟨hb, rfl⟩, rfl, rfl⟩
  · rintro ⟨front, hfront, hrest, hoff⟩
    obtain ⟨hb, rfl⟩ := Language.mem_iSup.mp hfront
    obtain ⟨rest, offset⟩ := c
    cases hrest
    cases hoff
    exact ⟨hb, rfl⟩

theorem reads_fail {p : α → Prop} (hp : ∀ b, ¬ p b) (fault : BodyFault) :
    Reads (fail fault) fun b => ⨆ _ : p b, 1 := by
  intro c b d
  constructor
  · intro h
    cases h
  · rintro ⟨front, hfront, -⟩
    obtain ⟨hb, -⟩ := Language.mem_iSup.mp hfront
    exact absurd hb (hp b)

theorem Reads.bind_of_mem {k : α → Read β} {g : α → β → Language UInt8} (hr : Reads r f)
    (hk : ∀ a, ∀ front ∈ f a, Reads (k a) (g a)) : Reads (r >>= k) fun b => ⨆ a, f a * g a b := by
  intro c b d
  rw [bind_eq_ok]
  constructor
  · rintro ⟨a, e, ha, hb⟩
    obtain ⟨xs, hxs, hrest, hoff⟩ := (hr c a e).mp ha
    obtain ⟨ys, hys, hrest', hoff'⟩ := (hk a xs hxs e b d).mp hb
    refine ⟨xs ++ ys, Language.mem_iSup.mpr ⟨a, Language.append_mem_mul hxs hys⟩, ?_, ?_⟩
    · rw [hrest, hrest', List.append_assoc]
    · rw [hoff', hoff, List.length_append, Nat.add_assoc]
  · rintro ⟨front, hfront, hrest, hoff⟩
    obtain ⟨a, xs, hxs, ys, hys, rfl⟩ := Language.mem_iSup.mp hfront
    refine ⟨a, ⟨ys ++ d.rest, c.offset + xs.length⟩, (hr _ _ _).mpr ⟨xs, hxs, ?_, rfl⟩,
      (hk a xs hxs _ _ _).mpr ⟨ys, hys, rfl, ?_⟩⟩
    · rw [hrest, List.append_assoc]
    · rw [hoff, List.length_append, Nat.add_assoc]

theorem Reads.bind {k : α → Read β} {g : α → β → Language UInt8} (hr : Reads r f)
    (hk : ∀ a, Reads (k a) (g a)) : Reads (r >>= k) fun b => ⨆ a, f a * g a b :=
  hr.bind_of_mem fun a _ _ => hk a

theorem reads_take (n : Nat) : Reads (take n) fun bs => ⨆ _ : bs.length = n, {bs} := by
  intro c bs d
  simp only [take, List.splitAt_eq, Language.mem_iSup]
  constructor
  · intro h
    split at h
    next hlen =>
      cases h
      exact ⟨_, ⟨hlen, rfl⟩, (List.take_append_drop n c.rest).symm, by rw [hlen]⟩
    next => cases h
  · rintro ⟨_, ⟨hlen, rfl⟩, hrest, hoff⟩
    rw [hrest, List.take_left' hlen, List.drop_left' hlen, if_pos hlen, ← hlen, ← hoff]

theorem take_eq_ok {n : Nat} {c d : Cursor} {bs : Bytes} :
    take n c = .ok (bs, d) ↔ bs.length = n ∧ c.rest = bs ++ d.rest ∧ d.offset = c.offset + bs.length := by
  rw [reads_take n c bs d]
  simp only [Language.mem_iSup]
  constructor
  · rintro ⟨_, ⟨hlen, rfl⟩, h⟩
    exact ⟨hlen, h⟩
  · rintro ⟨hlen, h⟩
    exact ⟨bs, ⟨hlen, rfl⟩, h⟩

theorem reads_int32 : Reads int32 Grammar.int32 := by
  intro c n d
  rw [int32, bind_eq_ok]
  constructor
  · rintro ⟨bs, e, htake, hn⟩
    obtain ⟨hlen, hrest, hoff⟩ := take_eq_ok.mp htake
    match bs, hlen with
    | [b₃, b₂, b₁, b₀], _ =>
        obtain ⟨rfl, rfl⟩ := pure_eq_ok.mp hn
        exact ⟨_, Grammar.mem_int32.mpr (word32_ofWord32 b₃ b₂ b₁ b₀).symm, hrest, hoff⟩
  · rintro ⟨bs, hbs, hrest, hoff⟩
    obtain rfl := Grammar.mem_int32.mp hbs
    refine ⟨_, d, take_eq_ok.mpr ⟨rfl, hrest, hoff⟩, ?_⟩
    change (pure (ofWord32 _ _ _ _).toInt32 : Read Int32) d = _
    rw [ofWord32_word32]
    rfl

theorem reads_length (field : Field) (n : Int32) :
    Reads (length field n) fun k => ⨆ _ : n.toInt = k, 1 := by
  have hn := Int32.lt_iff_toInt_lt (x := n) (y := 0)
  rw [Int32.toInt_zero] at hn
  unfold length
  split
  next hneg =>
    apply reads_fail
    intro k
    have := hn.mp hneg
    omega
  next hpos =>
    apply reads_pure
    intro k
    have := mt hn.mpr hpos
    omega

theorem reads_count (field : Field) : Reads (int32 >>= length field) Grammar.count := by
  refine (reads_int32.bind (reads_length field)).congr fun k bs => ?_
  simp only [Language.mul_iSup, mul_one, Language.mem_iSup, exists_prop]
  exact Grammar.mem_count_iff_exists_int32.symm

theorem reads_sized (field : Field) (n : Int32) :
    Reads (length field n >>= take) fun value => ⨆ _ : n.toInt = value.length, {value} := by
  refine ((reads_length field n).bind reads_take).congr fun value bs => ?_
  simp only [Language.mul_iSup, Language.iSup_mul, one_mul, Language.mem_iSup, exists_prop,
    exists_eq_left']

theorem mem_iSup_sized {value bs : Bytes} :
    (bs ∈ ⨆ n : Int32, Grammar.int32 n * ⨆ _ : n.toInt = value.length, {value}) ↔
      bs ∈ Grammar.bytes value := by
  simp only [Grammar.bytes, Language.mul_iSup, Language.mem_iSup, Language.mem_mul,
    Grammar.mem_count_iff_exists_int32]
  constructor
  · rintro ⟨n, hn, front, hfront, h⟩
    exact ⟨front, ⟨n, hn, hfront⟩, h⟩
  · rintro ⟨front, ⟨n, hn, hfront⟩, h⟩
    exact ⟨n, hn, front, hfront, h⟩

theorem reads_bytes (field : Field) : Reads (bytes field) Grammar.bytes :=
  (reads_int32.bind (reads_sized field)).congr fun _ _ => mem_iSup_sized

theorem reads_optionalBytes (field : Field) : Reads (optionalBytes field) Grammar.optionalBytes := by
  refine (reads_int32.bind (g := fun n => fun
    | none => ⨆ _ : n = -1, 1
    | some v => ⨆ _ : n.toInt = v.length, {v}) fun n => ?_).congr fun value bs => ?_
  · split
    next hn =>
      refine (reads_pure (p := (· = none)) fun _ => eq_comm).congr fun value bs => ?_
      cases value with
      | none => simp only [hn]
      | some v =>
          -- Minus one is the length of no value.
          have hv : n.toInt ≠ v.length := by
            rw [hn, show (-1 : Int32).toInt = -1 from rfl]
            omega
          simp only [hv, reduceCtorEq, iSup_false]
    next hn =>
      have h := (reads_sized field n).bind fun v => reads_pure fun o => eq_comm (a := o) (b := some v)
      rw [bind_assoc] at h
      refine h.congr fun value bs => ?_
      cases value with
      | none =>
          simp only [hn, reduceCtorEq, Language.mul_iSup, Language.mem_iSup, exists_prop, false_and,
            exists_false]
      | some v => simp only [Option.some.injEq, Language.mul_iSup, mul_one, iSup_iSup_eq_right]
  · cases value with
    | none =>
        simp only [Language.mul_iSup, mul_one, Language.mem_iSup, exists_prop, exists_eq_left]
        rfl
    | some v => exact mem_iSup_sized

theorem ofUtf8_eq_ok {bs : Bytes} {s : String} : Text.ofUtf8 bs = .ok s ↔ bs = Text.utf8 s := by
  have hraw : bs = Text.utf8 s ↔ (⟨bs.toArray⟩ : ByteArray) = s.toByteArray := by
    rw [ByteArray.ext_iff, ← Array.toList_inj]
    rfl
  rw [hraw, Text.ofUtf8, String.fromUTF8?]
  split
  next t ht =>
    split at ht
    next hv =>
      cases ht
      simp only [Except.ok.injEq, ← String.toByteArray_inj]
      rfl
    next => cases ht
  next hnone =>
    split at hnone
    next => cases hnone
    next hv =>
      constructor
      · intro h
        cases h
      · intro h
        rw [h] at hv
        exact absurd s.isValidUTF8 hv

theorem reads_utf8 (field : Field) (n : Nat) :
    Reads (do
      match Text.ofUtf8 (← take n) with
      | .ok s => return s
      | .error fault => fail (.invalid field (.utf8 fault)))
    fun s => ⨆ _ : s.utf8ByteSize = n, {Text.utf8 s} := by
  refine ((reads_take n).bind (g := fun bs s => ⨆ _ : bs = Text.utf8 s, 1) fun bs => ?_).congr fun s bs => ?_
  · split
    next t ht => exact reads_pure fun s => by rw [← ofUtf8_eq_ok, ht, Except.ok.injEq]
    next fault he => exact reads_fail (fun s => by rw [← ofUtf8_eq_ok, he]; nofun) _
  · simp only [Language.mul_iSup, mul_one, iSup_iSup_eq_left, Text.length_utf8]

theorem reads_text (field : Field) : Reads (text field) Grammar.text := by
  refine ((reads_take 2).bind_of_mem (g := fun front s =>
    ⨆ _ : Grammar.bigEndian front = s.utf8ByteSize, {Text.utf8 s}) fun front bs hbs => ?_).congr fun s bs => ?_
  · -- Only after two bytes is the rest of the reader the one for a text.
    obtain ⟨hlen, -⟩ := Language.mem_iSup.mp hbs
    match front, hlen with
    | [b₁, b₀], _ =>
        refine (reads_utf8 field _).congr fun s bs => ?_
        rw [← word16_ofWord16, Grammar.bigEndian_word16]
        simp only [eq_comm]
  · simp only [Language.mul_iSup, Language.iSup_mul, Language.mem_iSup, Grammar.text, Language.mem_mul]
    constructor
    · rintro ⟨front, hsize, hlen, _, rfl, h⟩
      exact ⟨_, ⟨hlen, hsize⟩, h⟩
    · rintro ⟨front, ⟨hlen, hsize⟩, h⟩
      exact ⟨front, hsize, hlen, front, rfl, h⟩

theorem reads_status : Reads status fun s => Grammar.int32 s.code := by
  refine (reads_int32.bind (g := fun n s => ⨆ _ : n = s.code, 1) fun n => ?_).congr fun s bs => ?_
  · split
    next t ht => exact reads_pure fun s => by rw [← AuthStatus.ofCode?_eq_some_iff, ht, Option.some.injEq]
    next hnone => exact reads_fail (fun s => by rw [← AuthStatus.ofCode?_eq_some_iff, hnone]; nofun) _
  · simp only [Language.mul_iSup, mul_one, Language.mem_iSup, exists_prop, exists_eq_left]

theorem reads_loop {σ : Type} {item : Read α} (loop : Nat → σ → Read σ) (add : σ → α → σ)
    (hitem : Reads item f) (hzero : ∀ s, loop 0 s = pure s)
    (hsucc : ∀ n s, loop (n + 1) s = item >>= fun a => loop n (add s a)) (n : Nat) (s : σ) :
    Reads (loop n s) fun t => ⨆ as : List α, ⨆ _ : as.length = n ∧ as.foldl add s = t, (as.map f).prod := by
  induction n generalizing s with
  | zero =>
      rw [hzero]
      refine (reads_pure fun _ => Iff.rfl).congr fun t bs => ?_
      simp only [List.length_eq_zero_iff, Language.mem_iSup]
      constructor
      · rintro ⟨ht, hbs⟩
        exact ⟨[], ⟨rfl, ht⟩, hbs⟩
      · rintro ⟨_, ⟨rfl, ht⟩, hbs⟩
        exact ⟨ht, hbs⟩
  | succ n ih =>
      rw [hsucc]
      refine (hitem.bind fun a => ih (add s a)).congr fun t bs => ?_
      simp only [Language.mul_iSup, Language.mem_iSup]
      constructor
      · rintro ⟨a, as, ⟨hlen, ht⟩, hbs⟩
        exact ⟨a :: as, ⟨congrArg (· + 1) hlen, ht⟩, by rwa [List.map_cons, List.prod_cons]⟩
      · rintro ⟨as, ⟨hlen, ht⟩, hbs⟩
        obtain ⟨a, as, rfl⟩ := List.exists_cons_of_length_eq_add_one hlen
        rw [List.map_cons, List.prod_cons] at hbs
        exact ⟨a, as, ⟨Nat.succ.inj hlen, ht⟩, hbs⟩

theorem count_eq_ok {field : Field} {least n : Nat} {c d : Cursor} :
    count field least c = .ok (n, d) ↔
      (∃ front ∈ Grammar.count n, c.rest = front ++ d.rest ∧ d.offset = c.offset + front.length) ∧
        n ≤ d.rest.length / least := by
  have hguard : ∀ m e, (do
      let c ← get
      if m > c.rest.length / least then fail (.truncated c.offset)
      return m : Read Nat) e = .ok (n, d) ↔ (m = n ∧ e = d) ∧ n ≤ d.rest.length / least := by
    intro m e
    change (if m > e.rest.length / least then (do fail _; return m) else return m : Read Nat) e = _ ↔ _
    split
    next hgt =>
      constructor
      · intro h
        cases h
      · rintro ⟨⟨rfl, rfl⟩, hle⟩
        omega
    next hle =>
      rw [pure_eq_ok, iff_self_and]
      rintro ⟨rfl, rfl⟩
      omega
  rw [← reads_count field c n d, count, ← bind_assoc, bind_eq_ok]
  simp only [hguard]
  constructor
  · rintro ⟨m, e, hm, ⟨rfl, rfl⟩, hle⟩
    exact ⟨hm, hle⟩
  · rintro ⟨hn, hle⟩
    exact ⟨n, d, hn, ⟨rfl, rfl⟩, hle⟩

theorem length_le_of_mem_prod {least : Nat} (hleast : ∀ a, ∀ bs ∈ f a, least ≤ bs.length) {as : List α}
    {bs : Bytes} (h : bs ∈ (as.map f).prod) : as.length * least ≤ bs.length := by
  induction as generalizing bs with
  | nil => simp
  | cons a as ih =>
      rw [List.map_cons, List.prod_cons] at h
      obtain ⟨xs, hxs, ys, hys, rfl⟩ := Language.mem_mul.mp h
      have hhead := hleast a xs hxs
      have htail := ih hys
      rw [List.length_cons, List.length_append, Nat.succ_mul]
      omega

/-- No number of entries that stands in front of as many entries is refused. -/
theorem count_of_listed {field : Field} {least : Nat} (hpos : 0 < least)
    (hleast : ∀ a, ∀ bs ∈ f a, least ≤ bs.length) {as : List α} {front body rest : Bytes} {c : Cursor}
    (hfront : front ∈ Grammar.count as.length) (hbody : body ∈ (as.map f).prod)
    (hrest : c.rest = front ++ (body ++ rest)) :
    count field least c = .ok (as.length, ⟨body ++ rest, c.offset + front.length⟩) := by
  have hlen := length_le_of_mem_prod hleast hbody
  refine count_eq_ok.mpr ⟨⟨front, hfront, hrest, rfl⟩, ?_⟩
  rw [Nat.le_div_iff_mul_le hpos, List.length_append]
  omega

theorem reads_collection {σ : Type} {loop : Nat → σ → Read σ} {add : σ → α → σ} {s : σ} {least : Nat}
    (field : Field) (hpos : 0 < least) (hleast : ∀ a, ∀ bs ∈ f a, least ≤ bs.length)
    (hloop : ∀ n, Reads (loop n s) fun t =>
      ⨆ as : List α, ⨆ _ : as.length = n ∧ as.foldl add s = t, (as.map f).prod) :
    Reads (count field least >>= fun n => loop n s) fun t =>
      ⨆ as : List α, ⨆ _ : as.foldl add s = t, Grammar.listed f as := by
  intro c t d
  rw [bind_eq_ok]
  simp only [hloop _ _ t d, Language.mem_iSup]
  constructor
  · rintro ⟨n, e, hcount, body, ⟨as, ⟨rfl, ht⟩, hbody⟩, hrest', hoff'⟩
    obtain ⟨⟨front, hfront, hrest, hoff⟩, -⟩ := count_eq_ok.mp hcount
    refine ⟨front ++ body, ⟨as, ht, Language.append_mem_mul hfront hbody⟩, ?_, ?_⟩
    · rw [hrest, hrest', List.append_assoc]
    · rw [hoff', hoff, List.length_append, Nat.add_assoc]
  · rintro ⟨_, ⟨as, ht, front, hfront, body, hbody, rfl⟩, hrest, hoff⟩
    rw [List.append_assoc] at hrest
    refine ⟨as.length, _, count_of_listed hpos hleast hfront hbody hrest, body, ⟨as, ⟨rfl, ht⟩, hbody⟩, rfl, ?_⟩
    rw [hoff, List.length_append, Nat.add_assoc]

theorem two_le_length_text (s : String) (bs : Bytes) (h : bs ∈ Grammar.text s) : 2 ≤ bs.length := by
  obtain ⟨-, rfl⟩ := Grammar.mem_text.mp h
  rw [List.length_append, length_word16]
  omega

theorem six_le_length_pair (entry : Key × Value) (bs : Bytes) (h : bs ∈ Grammar.pair entry) :
    6 ≤ bs.length := by
  obtain ⟨xs, hxs, ys, hys, rfl⟩ := Language.mem_mul.mp h
  have hkey := two_le_length_text entry.1 xs hxs
  obtain ⟨-, rfl⟩ := Grammar.mem_bytes.mp hys
  rw [List.length_append, List.length_append, length_word32]
  omega

theorem reads_pair : Reads (do return (← text .key, ← bytes .value)) Grammar.pair := by
  refine ((reads_text .key).bind fun key => (reads_bytes .value).bind fun value =>
    reads_pure fun _ => Iff.rfl).congr fun entry bs => ?_
  obtain ⟨key, value⟩ := entry
  simp [Grammar.pair, Language.mul_iSup, Language.mem_iSup]

theorem reads_pairs : Reads pairs Grammar.pairs := by
  have hloop := reads_loop entries (fun t e => t.insert e.1 e.2) reads_pair (fun _ => rfl)
    fun _ _ => by simp [entries]
  refine (reads_collection .pairs (by decide) six_le_length_pair (hloop · ∅)).congr fun table bs => ?_
  simp only [Language.mem_iSup, exists_prop]
  exact exists_congr fun entries => and_congr_left fun _ => Table.ofPairs_eq_iff

theorem reads_keys : Reads keys Grammar.keys := by
  have hloop := reads_loop members (fun s k => s.insert k) (reads_text .key) (fun _ => rfl)
    fun _ _ => rfl
  refine (reads_collection .keys (by decide) two_le_length_text (hloop · ∅)).congr fun set bs => ?_
  simp only [Language.mem_iSup, exists_prop]
  exact exists_congr fun entries => and_congr_left fun _ => KeySet.ofKeys_eq_iff

end Read

end AwaitStore.Wire
