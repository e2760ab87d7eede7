import AwaitStore.Proofs.Wire.RoundTrip

namespace AwaitStore.Wire

namespace Read

variable {α β : Type} {r : Read α}

/-- More bytes are asked for than are left, and the place where this happens has been come to. -/
def RunsOut (r : Read α) (c : Cursor) : Prop :=
  ∃ offset, c.offset ≤ offset ∧ offset ≤ c.offset + c.rest.length ∧ r c = .error (.truncated offset)

/-- A reader takes just these bytes. In front of another rest it takes the same or runs out, as it may look at how many
bytes are left, and of a part of them alone it runs out. -/
structure Takes (r : Read α) (offset : Nat) (front : Bytes) (a : α) : Prop where
  again : ∀ rest, r ⟨front ++ rest, offset⟩ = .ok (a, ⟨rest, offset + front.length⟩) ∨ RunsOut r ⟨front ++ rest, offset⟩
  short : ∀ part, part <+: front → part ≠ front → RunsOut r ⟨part, offset⟩

def Steady (r : Read α) : Prop :=
  ∀ c a d, r c = .ok (a, d) →
    ∃ front, c.rest = front ++ d.rest ∧ d.offset = c.offset + front.length ∧ Takes r c.offset front a

theorem bind_of_ok {k : α → Read β} {c d : Cursor} {a : α} (h : r c = .ok (a, d)) : (r >>= k) c = k a d := by
  change (r c >>= fun p => k p.1 p.2) = _
  rw [h]
  rfl

theorem RunsOut.bind {c : Cursor} (h : RunsOut r c) (k : α → Read β) : RunsOut (r >>= k) c := by
  obtain ⟨offset, hlow, hhigh, he⟩ := h
  refine ⟨offset, hlow, hhigh, ?_⟩
  change (r c >>= fun p => k p.1 p.2) = _
  rw [he]
  rfl

theorem RunsOut.after {k : α → Read β} {a : α} {front rest : Bytes} {offset : Nat}
    (h : RunsOut (k a) ⟨rest, offset + front.length⟩)
    (hr : r ⟨front ++ rest, offset⟩ = .ok (a, ⟨rest, offset + front.length⟩)) :
    RunsOut (r >>= k) ⟨front ++ rest, offset⟩ := by
  obtain ⟨o, hlow, hhigh, he⟩ := h
  refine ⟨o, ?_, ?_, (bind_of_ok hr).trans he⟩
  · exact Nat.le_trans (Nat.le_add_right _ _) hlow
  · simp only [List.length_append] at hhigh ⊢
    omega

theorem Takes.bind {k : α → Read β} {a : α} {b : β} {front next : Bytes} {offset : Nat}
    (h : Takes r offset front a) (hk : Takes (k a) (offset + front.length) next b) :
    Takes (r >>= k) offset (front ++ next) b := by
  constructor
  · intro rest
    rw [List.append_assoc]
    rcases h.again (next ++ rest) with hr | hr
    · rcases hk.again rest with hnext | hnext
      · refine .inl ((bind_of_ok hr).trans ?_)
        rw [hnext, List.length_append, Nat.add_assoc]
      · exact .inr (hnext.after hr)
    · exact .inr (hr.bind k)
  · intro part hpart hne
    -- The cut is either behind the front, in what is read next, or within it.
    by_cases hfront : front <+: part
    · obtain ⟨rest, rfl⟩ := hfront
      have hrest : RunsOut (k a) ⟨rest, offset + front.length⟩ :=
        hk.short rest ((List.prefix_append_right_inj front).mp hpart) fun he => hne (he ▸ rfl)
      rcases h.again rest with hr | hr
      · exact hrest.after hr
      · exact hr.bind k
    · have hshort := (List.prefix_or_prefix_of_prefix hpart (List.prefix_append front next)).resolve_right hfront
      exact (h.short part hshort fun he => hfront (he ▸ List.prefix_refl _)).bind k

theorem Steady.bind {k : α → Read β} (hr : Steady r) (hk : ∀ a, Steady (k a)) : Steady (r >>= k) := by
  intro c b d h
  obtain ⟨a, e, ha, hb⟩ := bind_eq_ok.mp h
  obtain ⟨front, hrest, hoffset, htakes⟩ := hr c a e ha
  obtain ⟨next, hrest', hoffset', htakes'⟩ := hk a e b d hb
  refine ⟨front ++ next, ?_, ?_, htakes.bind (hoffset ▸ htakes')⟩
  · rw [hrest, hrest', List.append_assoc]
  · rw [hoffset', hoffset, List.length_append, Nat.add_assoc]

theorem steady_pure (a : α) : Steady (pure a) := by
  intro c b d h
  obtain ⟨rfl, rfl⟩ := pure_eq_ok.mp h
  exact ⟨[], rfl, rfl, fun rest => .inl rfl, fun part hpart hne => absurd (List.prefix_nil.mp hpart) hne⟩

theorem steady_fail (fault : BodyFault) : Steady (fail fault : Read α) := by
  intro c a d h
  cases h

theorem take_of_lt {n : Nat} {c : Cursor} (h : c.rest.length < n) : take n c = .error (.truncated c.offset) := by
  have hne : (c.rest.take n).length ≠ n := by
    rw [List.length_take]
    omega
  simp only [take, List.splitAt_eq, if_neg hne]

theorem steady_take (n : Nat) : Steady (take n) := by
  intro c bs d h
  obtain ⟨rfl, hrest, hoffset⟩ := take_eq_ok.mp h
  refine ⟨bs, hrest, hoffset, fun rest => .inl (take_eq_ok.mpr ⟨rfl, rfl, rfl⟩), fun part hpart hne => ?_⟩
  have hlt : part.length < bs.length :=
    Nat.lt_of_le_of_ne hpart.length_le fun he => hne (hpart.eq_of_length he)
  exact ⟨c.offset, Nat.le_refl _, Nat.le_add_right _ _, take_of_lt hlt⟩

theorem steady_int32 : Steady int32 := by
  refine (steady_take 4).bind fun bs => ?_
  split <;> exact steady_pure _

theorem steady_length (field : Field) (n : Int32) : Steady (length field n) := by
  unfold length
  split
  · exact steady_fail _
  · exact steady_pure _

theorem steady_text (field : Field) : Steady (text field) := by
  refine (steady_take 2).bind fun bs => ?_
  split
  · refine (steady_take _).bind fun bs => ?_
    split
    · exact steady_pure _
    · exact steady_fail _
  · exact steady_pure _

theorem steady_bytes (field : Field) : Steady (bytes field) :=
  steady_int32.bind fun n => (steady_length field n).bind steady_take

theorem steady_optionalBytes (field : Field) : Steady (optionalBytes field) := by
  refine steady_int32.bind fun n => ?_
  split
  · exact steady_pure _
  · exact (steady_length field n).bind fun k => (steady_take k).bind fun bs => steady_pure _

/-- Nothing is read where the number of entries is compared with the bytes that are left. -/
theorem steady_room (least n : Nat) : Steady (do
    let c ← get
    if n > c.rest.length / least then fail (.truncated c.offset)
    return n : Read Nat) := by
  have hroom : ∀ c, (do
      let c ← get
      if n > c.rest.length / least then fail (.truncated c.offset)
      return n : Read Nat) c = if n > c.rest.length / least then .error (.truncated c.offset) else .ok (n, c) := by
    intro c
    change (if n > c.rest.length / least then (do fail _; return n) else return n : Read Nat) c = _
    split <;> rfl
  intro c m d h
  rw [hroom] at h
  split at h
  · cases h
  next hle =>
    cases h
    refine ⟨[], rfl, rfl, fun rest => ?_, fun part hpart hne => absurd (List.prefix_nil.mp hpart) hne⟩
    by_cases hgt : n > rest.length / least
    · exact .inr ⟨c.offset, Nat.le_refl _, Nat.le_add_right _ _, (hroom _).trans (if_pos hgt)⟩
    · exact .inl ((hroom _).trans (if_neg hgt))

theorem steady_count (field : Field) (least : Nat) : Steady (count field least) :=
  steady_int32.bind fun n => (steady_length field n).bind fun k => steady_room least k

theorem steady_entries (n : Nat) (table : Table) : Steady (entries n table) := by
  induction n generalizing table with
  | zero => exact steady_pure table
  | succ n ih => exact (steady_text .key).bind fun key => (steady_bytes .value).bind fun value => ih _

theorem steady_members (n : Nat) (set : KeySet) : Steady (members n set) := by
  induction n generalizing set with
  | zero => exact steady_pure set
  | succ n ih => exact (steady_text .key).bind fun key => ih _

theorem steady_pairs : Steady pairs := (steady_count .pairs 6).bind fun n => steady_entries n ∅

theorem steady_keys : Steady keys := (steady_count .keys 2).bind fun n => steady_members n ∅

theorem steady_status : Steady status := by
  refine steady_int32.bind fun code => ?_
  split
  · exact steady_pure _
  · exact steady_fail _

end Read

open Read

theorem Kind.steady_read (kind : Kind) : Steady kind.read := by
  cases kind with
  | putRequest =>
      exact steady_int32.bind fun id => (steady_text .key).bind fun key => (steady_bytes .value).bind fun value =>
        steady_pure _
  | getRequest => exact steady_int32.bind fun id => (steady_text .key).bind fun key => steady_pure _
  | multiPutRequest | multiGetResponse => exact steady_int32.bind fun id => steady_pairs.bind fun pairs => steady_pure _
  | multiGetRequest => exact steady_int32.bind fun id => steady_keys.bind fun keys => steady_pure _
  | getWhenRequest =>
      exact steady_int32.bind fun id => (steady_text .key).bind fun key => (steady_text .keyCond).bind fun keyCond =>
        (steady_bytes .valueCond).bind fun valueCond => steady_pure _
  | putResponse => exact steady_int32.bind fun id => steady_pure _
  | getResponse => exact steady_int32.bind fun id => (steady_optionalBytes .value).bind fun value => steady_pure _
  | authRequest =>
      exact (steady_text .username).bind fun username => (steady_text .password).bind fun password => steady_pure _
  | authResponse => exact steady_status.bind fun status => steady_pure _
  | errorResponse => exact steady_int32.bind fun id => (steady_text .message).bind fun message => steady_pure _

theorem read_of_decode {b : Bytes} {m : Message} (h : decode b = .ok m) :
    ∃ payload, b = m.kind.tag :: payload ∧ m.kind.read ⟨payload, 0⟩ = .ok (m, ⟨[], payload.length⟩) := by
  obtain ⟨payload, hpayload, rfl⟩ := Message.mem_body.mp (decode_eq_ok_iff.mp h)
  exact ⟨payload, rfl, (m.kind.reads_read _ _ _).mpr
    ⟨payload, Language.mem_iSup.mpr ⟨rfl, hpayload⟩, (List.append_nil payload).symm, (Nat.zero_add _).symm⟩⟩

theorem decode_of_error {kind : Kind} {payload : Bytes} {fault : BodyFault}
    (h : kind.readWhole ⟨payload, 0⟩ = .error fault) : decode (kind.tag :: payload) = .error (.body kind fault) := by
  simp only [decode, Kind.ofTag?_tag, h]

section Bodies

variable {b : Bytes} {m : Message}

theorem decode_of_cut (h : decode b = .ok m) {part : Bytes} (hpart : part <+: b) (hnil : part ≠ []) (hne : part ≠ b) :
    ∃ offset ≤ part.tail.length, decode part = .error (.body m.kind (.truncated offset)) := by
  obtain ⟨payload, rfl, hread⟩ := read_of_decode h
  obtain ⟨tag, part, rfl⟩ := List.exists_cons_of_ne_nil hnil
  obtain ⟨rfl, hshort⟩ := List.cons_prefix_cons.mp hpart
  obtain ⟨front, hrest, -, htakes⟩ := m.kind.steady_read _ _ _ hread
  obtain rfl : payload = front := hrest.trans (List.append_nil front)
  have hout : RunsOut m.kind.readWhole ⟨part, 0⟩ := (htakes.short part hshort fun he => hne (he ▸ rfl)).bind _
  obtain ⟨offset, -, hle, he⟩ := hout
  exact ⟨offset, Nat.zero_add part.length ▸ hle, decode_of_error he⟩

theorem decode_of_more (h : decode b = .ok m) {extra : Bytes} (hnil : extra ≠ []) :
    decode (b ++ extra) = .error (.body m.kind (.trailing extra.length)) := by
  obtain ⟨payload, rfl, hread⟩ := read_of_decode h
  obtain ⟨front, hfront, hrest, hoffset⟩ := (m.kind.reads_read _ _ _).mp hread
  obtain rfl : payload = front := hrest.trans (List.append_nil front)
  have hmore : m.kind.read ⟨payload ++ extra, 0⟩ = .ok (m, ⟨extra, payload.length⟩) :=
    (m.kind.reads_read _ _ _).mpr ⟨payload, hfront, rfl, hoffset⟩
  have hleft : (extra.isEmpty) = false := by simpa using hnil
  refine decode_of_error ((bind_of_ok hmore).trans ?_)
  change (done ⟨extra, payload.length⟩ >>= _) = _
  simp only [done, hleft]
  rfl

theorem eq_of_prefix_of_decode (h : decode b = .ok m) {b' : Bytes} {m' : Message} (h' : decode b' = .ok m')
    (hb : b <+: b') : b = b' := by
  obtain ⟨extra, rfl⟩ := hb
  by_cases hnil : extra = []
  · rw [hnil, List.append_nil]
  · rw [decode_of_more h hnil] at h'
    cases h'

end Bodies

/-- Whatever an encoded body loses at its end or gains there, the fault that is reported is the one it has, and says of
which kind the body was. -/
theorem damage_reported (listing : Listing) (m : Message) (b : Bytes) (h : m.encode listing = .ok b) :
    (∀ part, part <+: b → part ≠ [] → part ≠ b →
      ∃ offset ≤ part.tail.length, decode part = .error (.body m.kind (.truncated offset))) ∧
    (∀ extra, extra ≠ [] → decode (b ++ extra) = .error (.body m.kind (.trailing extra.length))) ∧
    ∀ listing' m' b', Message.encode listing' m' = .ok b' → b <+: b' → b = b' := by
  have hb := Message.decode_encode h
  exact ⟨fun _ => decode_of_cut hb, fun _ => decode_of_more hb,
    fun _ _ _ h' => eq_of_prefix_of_decode hb (Message.decode_encode h')⟩

/-- A cut inside a character of the last key, and one more byte than there should be. -/
theorem damage_reported_two_keys :
    let m : Message := .multiGetRequest 1 (KeySet.ofKeys ["é", "a"])
    let b : Bytes := [4, 0, 0, 0, 1, 0, 0, 0, 2, 0, 1, 97, 0, 2, 195, 169]
    m.encode .ascending = .ok b ∧
      (∃ offset ≤ 14, decode [4, 0, 0, 0, 1, 0, 0, 0, 2, 0, 1, 97, 0, 2, 195] =
        .error (.body .multiGetRequest (.truncated offset))) ∧
      decode (b ++ [0]) = .error (.body .multiGetRequest (.trailing 1)) := by
  intro m b
  have hm : m.encode .ascending = .ok b := by rfl
  obtain ⟨hcut, hmore, -⟩ := damage_reported .ascending m b hm
  exact ⟨hm, hcut [4, 0, 0, 0, 1, 0, 0, 0, 2, 0, 1, 97, 0, 2, 195] (by decide) (by decide) (by decide),
    hmore [0] (by decide)⟩

end AwaitStore.Wire
