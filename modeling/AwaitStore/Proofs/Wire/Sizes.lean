import AwaitStore.Proofs.Wire.Acceptance
import AwaitStore.Proofs.Wire.RoundTrip
import AwaitStore.Proofs.Wire.Streams

namespace AwaitStore.Wire

def textSize (s : String) : Nat := 2 + s.utf8ByteSize

def bytesSize (value : Bytes) : Nat := 4 + value.length

def pairSize (entry : Key × Value) : Nat := textSize entry.1 + bytesSize entry.2

def tableSize (table : Table) : Nat := 4 + (table.toList.map pairSize).sum

def keysSize (set : KeySet) : Nat := 4 + (set.toList.map textSize).sum

namespace Message

def payloadSize : Message → Nat
  | putRequest _ key value => 4 + textSize key + bytesSize value
  | getRequest _ key => 4 + textSize key
  | multiPutRequest _ table => 4 + tableSize table
  | multiGetRequest _ set => 4 + keysSize set
  | getWhenRequest _ key keyCond valueCond => 4 + textSize key + textSize keyCond + bytesSize valueCond
  | putResponse _ => 4
  | getResponse _ value => 4 + bytesSize (value.getD [])
  | multiGetResponse _ table => 4 + tableSize table
  | authRequest username password => textSize username + textSize password
  | authResponse _ => 4
  | errorResponse _ message => 4 + textSize message

def bodySize (m : Message) : Nat := 1 + m.payloadSize

end Message

namespace Grammar

def AllOfLength (n : Nat) (l : Language UInt8) : Prop := ∀ bs ∈ l, bs.length = n

variable {l m : Language UInt8} {n k : Nat}

theorem AllOfLength.mul (hl : AllOfLength n l) (hm : AllOfLength k m) : AllOfLength (n + k) (l * m) := by
  rintro _ ⟨xs, hxs, ys, hys, rfl⟩
  rw [List.length_append, hl xs hxs, hm ys hys]

theorem allOfLength_int32 (n : Int32) : AllOfLength 4 (int32 n) := fun _ h => h.1

theorem allOfLength_count (n : Nat) : AllOfLength 4 (count n) := fun _ h => h.1

theorem allOfLength_text (s : String) : AllOfLength (textSize s) (text s) := by
  intro bs h
  obtain ⟨-, rfl⟩ := mem_text.mp h
  rw [List.length_append, Text.length_utf8]
  rfl

theorem allOfLength_bytes (value : Bytes) : AllOfLength (bytesSize value) (bytes value) := by
  intro bs h
  obtain ⟨-, rfl⟩ := mem_bytes.mp h
  rw [List.length_append]
  rfl

theorem allOfLength_optionalBytes (value : Option Bytes) :
    AllOfLength (bytesSize (value.getD [])) (optionalBytes value) := by
  cases value with
  | none => exact allOfLength_int32 (-1)
  | some v => exact allOfLength_bytes v

theorem allOfLength_pair (entry : Key × Value) : AllOfLength (pairSize entry) (pair entry) :=
  (allOfLength_text _).mul (allOfLength_bytes _)

theorem allOfLength_listed {α : Type} {item : α → Language UInt8} {size : α → Nat}
    (h : ∀ a, AllOfLength (size a) (item a)) (entries : List α) :
    AllOfLength (4 + (entries.map size).sum) (listed item entries) := by
  refine (allOfLength_count _).mul ?_
  induction entries with
  | nil =>
      rintro _ rfl
      rfl
  | cons a rest ih =>
      simp only [List.map_cons, List.prod_cons, List.sum_cons]
      exact (h a).mul ih

theorem allOfLength_pairs (listing : Listing) (table : Table) :
    AllOfLength (tableSize table) (listed pair (listing.pairs table)) := by
  rw [tableSize, ← ((listing.pairs_perm table).map pairSize).sum_eq]
  exact allOfLength_listed allOfLength_pair _

theorem allOfLength_keys (listing : Listing) (set : KeySet) :
    AllOfLength (keysSize set) (listed text (listing.keys set)) := by
  rw [keysSize, ← ((listing.keys_perm set).map textSize).sum_eq]
  exact allOfLength_listed allOfLength_text _

end Grammar

namespace Message

open Grammar

theorem allOfLength_written (listing : Listing) (m : Message) : AllOfLength m.payloadSize (m.written listing) := by
  cases m with
  | putRequest id key value =>
      exact ((allOfLength_int32 id).mul (allOfLength_text key)).mul (allOfLength_bytes value)
  | getRequest id key => exact (allOfLength_int32 id).mul (allOfLength_text key)
  | multiPutRequest id table => exact (allOfLength_int32 id).mul (allOfLength_pairs listing table)
  | multiGetRequest id set => exact (allOfLength_int32 id).mul (allOfLength_keys listing set)
  | getWhenRequest id key keyCond valueCond =>
      exact (((allOfLength_int32 id).mul (allOfLength_text key)).mul (allOfLength_text keyCond)).mul
        (allOfLength_bytes valueCond)
  | putResponse id => exact allOfLength_int32 id
  | getResponse id value => exact (allOfLength_int32 id).mul (allOfLength_optionalBytes value)
  | multiGetResponse id table => exact (allOfLength_int32 id).mul (allOfLength_pairs listing table)
  | authRequest username password => exact (allOfLength_text username).mul (allOfLength_text password)
  | authResponse status => exact allOfLength_int32 status.code
  | errorResponse id message => exact (allOfLength_int32 id).mul (allOfLength_text message)

theorem length_encode {listing : Listing} {m : Message} {body : Bytes} (h : m.encode listing = .ok body) :
    body.length = m.bodySize := by
  obtain ⟨rest, hrest, rfl⟩ := encode_eq_ok.mp h
  rw [List.length_cons, Nat.add_comm, allOfLength_written listing m rest hrest, bodySize]

theorem fits_of_decode {body : Bytes} {m : Message} (h : decode body = .ok m) :
    m.Fits ∧ m.bodySize ≤ body.length := by
  obtain ⟨rest, hrest, rfl⟩ := mem_body.mp (decode_eq_ok_iff.mp h)
  obtain ⟨xs, hxs, hle⟩ := m.shortens_written .ascending rest hrest
  refine ⟨(exists_mem_written .ascending).mp ⟨xs, hxs⟩, ?_⟩
  rw [bodySize, ← allOfLength_written .ascending m xs hxs, List.length_cons]
  omega

end Message

theorem fits_of_front {limit : Nat} {bytes rest : Bytes} {result : Except WireError Message} {m : Message}
    (hf : Front limit bytes result rest) (h : result = .ok m) : m.Fits ∧ m.bodySize ≤ limit := by
  cases hf with
  | whole _ _ fits body_length =>
      obtain ⟨hfits, hle⟩ := Message.fits_of_decode h
      exact ⟨hfits, Nat.le_trans hle (body_length ▸ fits)⟩
  | _ => cases h

end AwaitStore.Wire
