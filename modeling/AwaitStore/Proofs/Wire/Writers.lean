import AwaitStore.Proofs.Wire.Grammar
import AwaitStore.Wire.Encode

namespace AwaitStore.Wire

def Writes (w : Except BodyFault Bytes) (l : Language UInt8) : Prop := ∀ bs, w = .ok bs ↔ bs ∈ l

variable {w x : Except BodyFault Bytes} {l m : Language UInt8}

theorem writes_pure (bs : Bytes) : Writes (pure bs) {bs} := by
  intro xs
  rw [show (pure bs : Except BodyFault Bytes) = .ok bs from rfl, Except.ok.injEq, eq_comm]
  rfl

theorem writes_guard {p : Prop} [Decidable p] {bs : Bytes} (fault : BodyFault)
    (h : ∀ xs, xs ∈ l ↔ p ∧ xs = bs) : Writes (if p then .ok bs else .error fault) l := by
  intro xs
  rw [h]
  split
  next hp => simp [hp, eq_comm]
  next hp => simp [hp]

theorem Writes.append (hw : Writes w l) (hx : Writes x m) : Writes (do return (← w) ++ (← x)) (l * m) := by
  intro bs
  rw [Language.mem_mul]
  simp only [← hw _, ← hx _]
  cases w with
  | error fault => simp [bind, Except.bind]
  | ok xs =>
      cases x with
      | error fault => simp [bind, Except.bind]
      | ok ys => simp [bind, Except.bind, pure, Except.pure]

namespace Encode

theorem writes_int32 (n : Int32) : Writes (pure (int32 n)) (Grammar.int32 n) := by
  intro bs
  rw [Grammar.mem_int32]
  exact writes_pure (int32 n) bs

theorem writes_count (field : Field) (n : Nat) : Writes (count field n) (Grammar.count n) :=
  writes_guard _ fun _ => Grammar.mem_count

theorem writes_text (field : Field) (s : String) : Writes (text field s) (Grammar.text s) :=
  writes_guard _ fun _ => Grammar.mem_text

theorem writes_bytes (field : Field) (value : Bytes) : Writes (bytes field value) (Grammar.bytes value) := by
  have h := (writes_count field value.length).append (writes_pure value)
  simpa [bytes, Grammar.bytes] using h

theorem writes_optionalBytes (field : Field) (value : Option Bytes) :
    Writes (optionalBytes field value) (Grammar.optionalBytes value) := by
  cases value with
  | none => exact writes_int32 (-1)
  | some v => exact writes_bytes field v

theorem writes_pair (entry : Key × Value) : Writes (pair entry) (Grammar.pair entry) :=
  (writes_text .key entry.1).append (writes_bytes .value entry.2)

theorem writes_mapM {α : Type} {item : α → Except BodyFault Bytes} {f : α → Language UInt8}
    (h : ∀ a, Writes (item a) (f a)) (entries : List α) :
    Writes (do return (← entries.mapM item).flatten) (entries.map f).prod := by
  induction entries with
  | nil => exact writes_pure []
  | cons a rest ih =>
      have hcons := (h a).append ih
      simpa using hcons

theorem writes_pairs (entries : List (Key × Value)) :
    Writes (pairs entries) (Grammar.listed Grammar.pair entries) := by
  have h := (writes_count .pairs entries.length).append (writes_mapM writes_pair entries)
  simpa [pairs, Grammar.listed] using h

theorem writes_keys (entries : List Key) : Writes (keys entries) (Grammar.listed Grammar.text entries) := by
  have h := (writes_count .keys entries.length).append (writes_mapM (writes_text .key) entries)
  simpa [keys, Grammar.listed] using h

end Encode

namespace Message

open Encode

/-- The fields with every collection in the order of one listing. -/
def written (listing : Listing) (m : Message) : Language UInt8 :=
  m.layout (fun table => Grammar.listed Grammar.pair (listing.pairs table))
    fun set => Grammar.listed Grammar.text (listing.keys set)

theorem writes_fields (listing : Listing) (m : Message) : Writes (m.fields listing) (m.written listing) := by
  cases m with
  | putRequest id key value =>
      have h := ((writes_int32 id).append (writes_text .key key)).append (writes_bytes .value value)
      simpa only [fields, written, layout, bind_assoc, pure_bind] using h
  | getRequest id key =>
      have h := (writes_int32 id).append (writes_text .key key)
      simpa only [fields, written, layout, bind_assoc, pure_bind] using h
  | multiPutRequest id table =>
      have h := (writes_int32 id).append (writes_pairs (listing.pairs table))
      simpa only [fields, written, layout, bind_assoc, pure_bind] using h
  | multiGetRequest id set =>
      have h := (writes_int32 id).append (writes_keys (listing.keys set))
      simpa only [fields, written, layout, bind_assoc, pure_bind] using h
  | getWhenRequest id key keyCond valueCond =>
      have h := (((writes_int32 id).append (writes_text .key key)).append (writes_text .keyCond keyCond)).append
        (writes_bytes .valueCond valueCond)
      simpa only [fields, written, layout, bind_assoc, pure_bind] using h
  | putResponse id => exact writes_int32 id
  | getResponse id value =>
      have h := (writes_int32 id).append (writes_optionalBytes .value value)
      simpa only [fields, written, layout, bind_assoc, pure_bind] using h
  | multiGetResponse id table =>
      have h := (writes_int32 id).append (writes_pairs (listing.pairs table))
      simpa only [fields, written, layout, bind_assoc, pure_bind] using h
  | authRequest username password =>
      have h := (writes_text .username username).append (writes_text .password password)
      simpa only [fields, written, layout, bind_assoc, pure_bind] using h
  | authResponse status => exact writes_int32 status.code
  | errorResponse id message =>
      have h := (writes_int32 id).append (writes_text .message message)
      simpa only [fields, written, layout, bind_assoc, pure_bind] using h

theorem encode_eq_ok {listing : Listing} {m : Message} {b : Bytes} :
    m.encode listing = .ok b ↔ ∃ rest ∈ m.written listing, b = m.kind.tag :: rest := by
  simp only [← writes_fields listing m _, encode]
  cases m.fields listing with
  | error fault => simp
  | ok rest => simp [eq_comm]

end Message

end AwaitStore.Wire
