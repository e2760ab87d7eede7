import AwaitStore.Proofs.Wire.Decoding
import AwaitStore.Proofs.Wire.Writers

namespace AwaitStore.Wire

def TextFits (s : String) : Prop := s.utf8ByteSize ≤ 65535

def CountFits (n : Nat) : Prop := n ≤ 2 ^ 31 - 1

def TableFits (table : Table) : Prop :=
  CountFits table.size ∧ ∀ key value, table[key]? = some value → TextFits key ∧ CountFits value.length

def KeysFit (set : KeySet) : Prop := CountFits set.size ∧ ∀ key ∈ set, TextFits key

def Message.Fits : Message → Prop
  | putRequest _ key value => TextFits key ∧ CountFits value.length
  | getRequest _ key => TextFits key
  | multiPutRequest _ table | multiGetResponse _ table => TableFits table
  | multiGetRequest _ set => KeysFit set
  | getWhenRequest _ key keyCond valueCond => TextFits key ∧ TextFits keyCond ∧ CountFits valueCond.length
  | putResponse _ | authResponse _ => True
  | getResponse _ value => ∀ v ∈ value, CountFits v.length
  | authRequest username password => TextFits username ∧ TextFits password
  | errorResponse _ message => TextFits message

namespace Grammar

theorem exists_mem_mul {l m : Language UInt8} : (∃ bs, bs ∈ l * m) ↔ (∃ bs, bs ∈ l) ∧ ∃ bs, bs ∈ m := by
  constructor
  · rintro ⟨_, xs, hxs, ys, hys, rfl⟩
    exact ⟨⟨xs, hxs⟩, ⟨ys, hys⟩⟩
  · rintro ⟨⟨xs, hxs⟩, ⟨ys, hys⟩⟩
    exact ⟨_, Language.append_mem_mul hxs hys⟩

theorem exists_mem_int32 (n : Int32) : ∃ bs, bs ∈ int32 n := ⟨_, mem_int32.mpr rfl⟩

theorem exists_mem_count {n : Nat} : (∃ bs, bs ∈ count n) ↔ CountFits n := by
  simp only [mem_count, exists_and_left, exists_eq, and_true]
  rfl

theorem exists_mem_text {s : String} : (∃ bs, bs ∈ text s) ↔ TextFits s := by
  simp only [mem_text, exists_and_left, exists_eq, and_true]
  rfl

theorem exists_mem_bytes {value : Bytes} : (∃ bs, bs ∈ bytes value) ↔ CountFits value.length := by
  simp only [mem_bytes, exists_and_left, exists_eq, and_true]
  rfl

theorem exists_mem_optionalBytes {value : Option Bytes} :
    (∃ bs, bs ∈ optionalBytes value) ↔ ∀ v ∈ value, CountFits v.length := by
  cases value with
  | none => simp [optionalBytes, exists_mem_int32]
  | some v => simp [optionalBytes, exists_mem_bytes]

theorem exists_mem_listed {α : Type} {item : α → Language UInt8} {entries : List α} :
    (∃ bs, bs ∈ listed item entries) ↔
      CountFits entries.length ∧ ∀ a ∈ entries, ∃ bs, bs ∈ item a := by
  rw [listed, exists_mem_mul, exists_mem_count]
  refine and_congr Iff.rfl ?_
  induction entries with
  | nil => simp
  | cons a rest ih => rw [List.map_cons, List.prod_cons, exists_mem_mul, ih, List.forall_mem_cons]

theorem exists_mem_listed_pairs {listing : Listing} {table : Table} :
    (∃ bs, bs ∈ listed pair (listing.pairs table)) ↔ TableFits table := by
  have hperm := listing.pairs_perm table
  have hpair : ∀ entry, (∃ bs, bs ∈ pair entry) ↔ TextFits entry.1 ∧ CountFits entry.2.length := by
    intro entry
    rw [pair, exists_mem_mul, exists_mem_text, exists_mem_bytes]
  simp only [exists_mem_listed, hpair, hperm.length_eq, hperm.mem_iff, Std.ExtTreeMap.length_toList,
    Prod.forall, Std.ExtTreeMap.mem_toList_iff_getElem?_eq_some]
  rfl

theorem exists_mem_listed_keys {listing : Listing} {set : KeySet} :
    (∃ bs, bs ∈ listed text (listing.keys set)) ↔ KeysFit set := by
  have hperm := listing.keys_perm set
  simp only [exists_mem_listed, exists_mem_text, hperm.length_eq, hperm.mem_iff,
    Std.ExtTreeSet.length_toList, Std.ExtTreeSet.mem_toList]
  rfl

end Grammar

namespace Message

open Grammar

theorem exists_mem_written (listing : Listing) {m : Message} : (∃ bs, bs ∈ m.written listing) ↔ m.Fits := by
  cases m <;> simp only [written, layout, Fits, exists_mem_mul, exists_mem_int32, exists_mem_text,
    exists_mem_bytes, exists_mem_optionalBytes, exists_mem_listed_pairs, exists_mem_listed_keys,
    true_and, and_assoc]

theorem layout_mono {pairs pairs' : Table → Language UInt8} {keys keys' : KeySet → Language UInt8}
    (hp : ∀ table, pairs table ≤ pairs' table) (hk : ∀ set, keys set ≤ keys' set) (m : Message) :
    m.layout pairs keys ≤ m.layout pairs' keys' := by
  cases m with
  | multiPutRequest id table => exact mul_le_mul_right (hp table) _
  | multiGetRequest id set => exact mul_le_mul_right (hk set) _
  | multiGetResponse id table => exact mul_le_mul_right (hp table) _
  | _ => exact le_rfl

theorem written_le_payload (listing : Listing) (m : Message) : m.written listing ≤ m.payload := by
  apply layout_mono
  · intro table bs hbs
    exact ⟨_, Table.ofPairs_eq_iff.mp (Table.ofPairs_of_perm (listing.pairs_perm table)), hbs⟩
  · intro set bs hbs
    exact ⟨_, KeySet.ofKeys_eq_iff.mp (KeySet.ofKeys_of_perm (listing.keys_perm set)), hbs⟩

theorem exists_encode_iff_fits (listing : Listing) {m : Message} :
    (∃ b, m.encode listing = .ok b) ↔ m.Fits := by
  rw [← exists_mem_written listing]
  simp only [encode_eq_ok]
  constructor
  · rintro ⟨_, rest, hrest, -⟩
    exact ⟨rest, hrest⟩
  · rintro ⟨rest, hrest⟩
    exact ⟨_, rest, hrest, rfl⟩

theorem decode_encode {listing : Listing} {m : Message} {b : Bytes} (h : m.encode listing = .ok b) :
    decode b = .ok m := by
  obtain ⟨rest, hrest, hb⟩ := encode_eq_ok.mp h
  exact decode_eq_ok_iff.mpr (mem_body.mpr ⟨rest, written_le_payload listing m hrest, hb⟩)

end Message

/-- What fits is encoded and comes back; an absent value and an empty one are kept apart, and wherever
an encoded collection stands, its number of entries is let through. -/
theorem encode_round_trip (listing : Listing) (m : Message) :
    ((∃ b, m.encode listing = .ok b) ↔ m.Fits) ∧
      (∀ b, m.encode listing = .ok b → decode b = .ok m) ∧
      (∀ id, (Message.getResponse id none).encode listing ≠ (Message.getResponse id (some [])).encode listing) ∧
      (∀ table bs rest offset, Encode.pairs (listing.pairs table) = .ok bs →
        ∃ c, Read.count .pairs 6 ⟨bs ++ rest, offset⟩ = .ok (table.size, c)) ∧
      (∀ set bs rest offset, Encode.keys (listing.keys set) = .ok bs →
        ∃ c, Read.count .keys 2 ⟨bs ++ rest, offset⟩ = .ok (set.size, c)) := by
  refine ⟨Message.exists_encode_iff_fits listing, fun b => Message.decode_encode, ?_, ?_, ?_⟩
  · intro id he
    have hfits : (Message.getResponse id none).Fits := by simp [Message.Fits]
    obtain ⟨b, hb⟩ := (Message.exists_encode_iff_fits listing).mpr hfits
    have hnone := Message.decode_encode hb
    have hsome := Message.decode_encode (he ▸ hb)
    rw [hnone] at hsome
    simp at hsome
  · intro table bs rest offset h
    obtain ⟨front, hfront, body, hbody, rfl⟩ := (Encode.writes_pairs _ _).mp h
    rw [← Std.ExtTreeMap.length_toList, ← (listing.pairs_perm table).length_eq, List.append_assoc]
    exact ⟨_, Read.count_of_listed (by decide) Read.six_le_length_pair hfront hbody rfl⟩
  · intro set bs rest offset h
    obtain ⟨front, hfront, body, hbody, rfl⟩ := (Encode.writes_keys _ _).mp h
    rw [← Std.ExtTreeSet.length_toList, ← (listing.keys_perm set).length_eq, List.append_assoc]
    exact ⟨_, Read.count_of_listed (by decide) Read.two_le_length_text hfront hbody rfl⟩

/-- The entries are written by ascending key, not in the order in which they were put in. -/
theorem encode_round_trip_two_entries :
    ∃ b, (Message.multiPutRequest 7 (Table.ofPairs [("é", [1, 2]), ("", [])])).encode .ascending = .ok b ∧
      b = [3, 0, 0, 0, 7, 0, 0, 0, 2, 0, 0, 0, 0, 0, 0, 0, 2, 195, 169, 0, 0, 0, 2, 1, 2] ∧
      decode b = .ok (Message.multiPutRequest 7 (Table.ofPairs [("é", [1, 2]), ("", [])])) :=
  have hb : (Message.multiPutRequest 7 (Table.ofPairs [("é", [1, 2]), ("", [])])).encode .ascending =
    .ok [3, 0, 0, 0, 7, 0, 0, 0, 2, 0, 0, 0, 0, 0, 0, 0, 2, 195, 169, 0, 0, 0, 2, 1, 2] := by rfl
  ⟨_, hb, rfl, (encode_round_trip .ascending _).2.1 _ hb⟩

end AwaitStore.Wire
