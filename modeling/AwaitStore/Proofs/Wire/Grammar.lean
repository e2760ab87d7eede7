import AwaitStore.Wire.Fault
import AwaitStore.Wire.Word
import Mathlib

namespace AwaitStore.Wire

namespace Grammar

def bigEndian (bs : Bytes) : Nat := bs.foldl (fun n b => n * 256 + b.toNat) 0

def int32 (n : Int32) : Language UInt8 :=
  {bs | bs.length = 4 ∧ (bigEndian bs : Int) = n.toInt % 4294967296}

def count (n : Nat) : Language UInt8 :=
  {bs | bs.length = 4 ∧ bigEndian bs = n ∧ n ≤ maxCount}

def textLength (n : Nat) : Language UInt8 := {bs | bs.length = 2 ∧ bigEndian bs = n}

def text (s : String) : Language UInt8 := textLength s.utf8ByteSize * {Text.utf8 s}

def bytes (value : Bytes) : Language UInt8 := count value.length * {value}

def optionalBytes : Option Bytes → Language UInt8
  | some value => bytes value
  | none => int32 (-1)

def pair (entry : Key × Value) : Language UInt8 := text entry.1 * bytes entry.2

def listed {α : Type} (item : α → Language UInt8) (entries : List α) : Language UInt8 :=
  count entries.length * (entries.map item).prod

/-- Any order will do and a key may be repeated: the table has the last value of each key. -/
def pairs (table : Table) : Language UInt8 :=
  {bs | ∃ entries : List (Key × Value), (∀ key, table[key]? = entries.reverse.lookup key) ∧
    bs ∈ listed pair entries}

def keys (set : KeySet) : Language UInt8 :=
  {bs | ∃ entries : List Key, (∀ key, key ∈ set ↔ key ∈ entries) ∧ bs ∈ listed text entries}

end Grammar

namespace Message

open Grammar

/-- The fields in order, for given layouts of the collections. -/
def layout (pairs : Table → Language UInt8) (keys : KeySet → Language UInt8) : Message → Language UInt8
  | putRequest id key value => int32 id * text key * bytes value
  | getRequest id key => int32 id * text key
  | multiPutRequest id table => int32 id * pairs table
  | multiGetRequest id set => int32 id * keys set
  | getWhenRequest id key keyCond valueCond => int32 id * text key * text keyCond * bytes valueCond
  | putResponse id => int32 id
  | getResponse id value => int32 id * optionalBytes value
  | multiGetResponse id table => int32 id * pairs table
  | authRequest username password => text username * text password
  | authResponse status => int32 status.code
  | errorResponse id message => int32 id * text message

def payload (m : Message) : Language UInt8 := m.layout Grammar.pairs Grammar.keys

def body (m : Message) : Language UInt8 := {[m.kind.tag]} * m.payload

theorem mem_body {m : Message} {bs : Bytes} :
    bs ∈ m.body ↔ ∃ rest ∈ m.payload, bs = m.kind.tag :: rest := by
  simp only [body, Language.mem_mul]
  constructor
  · rintro ⟨_, rfl, rest, hrest, rfl⟩
    exact ⟨rest, hrest, rfl⟩
  · rintro ⟨rest, hrest, rfl⟩
    exact ⟨_, rfl, rest, hrest, rfl⟩

end Message

namespace Grammar

theorem bigEndian_word32 (w : UInt32) : bigEndian (word32 w) = w.toNat := by
  have := w.toNat_lt
  simp only [bigEndian, word32, List.foldl_cons, List.foldl_nil, UInt8.toNat_ofNat']
  omega

theorem bigEndian_word16 (w : UInt16) : bigEndian (word16 w) = w.toNat := by
  have := w.toNat_lt
  simp only [bigEndian, word16, List.foldl_cons, List.foldl_nil, UInt8.toNat_ofNat']
  omega

theorem exists_word32 {bs : Bytes} (h : bs.length = 4) : ∃ w, bs = word32 w := by
  match bs, h with
  | [b₃, b₂, b₁, b₀], _ => exact ⟨_, (word32_ofWord32 b₃ b₂ b₁ b₀).symm⟩

theorem exists_word16 {bs : Bytes} (h : bs.length = 2) : ∃ w, bs = word16 w := by
  match bs, h with
  | [b₁, b₀], _ => exact ⟨_, (word16_ofWord16 b₁ b₀).symm⟩

theorem mem_int32 {n : Int32} {bs : Bytes} : bs ∈ int32 n ↔ bs = word32 n.toUInt32 := by
  have hn : (n.toUInt32.toNat : Int) = n.toInt % 4294967296 := by
    change (n.toBitVec.toNat : Int) = n.toBitVec.toInt % 4294967296
    rw [BitVec.toInt_eq_toNat_bmod]
    have := n.toBitVec.isLt
    change _ = (n.toBitVec.toNat : Int).bmod 4294967296 % (4294967296 : Nat)
    rw [Int.bmod_emod]
    omega
  constructor
  · rintro ⟨hlen, hbs⟩
    obtain ⟨w, rfl⟩ := exists_word32 hlen
    rw [bigEndian_word32, ← hn] at hbs
    rw [UInt32.toNat_inj.mp (Int.ofNat_inj.mp hbs)]
  · rintro rfl
    exact ⟨rfl, by rw [bigEndian_word32, hn]⟩

theorem mem_count {n : Nat} {bs : Bytes} :
    bs ∈ count n ↔ n ≤ maxCount ∧ bs = word32 (UInt32.ofNat n) := by
  constructor
  · rintro ⟨hlen, hbs, hn⟩
    obtain ⟨w, rfl⟩ := exists_word32 hlen
    rw [bigEndian_word32] at hbs
    rw [← hbs, UInt32.ofNat_toNat]
    exact ⟨hbs ▸ hn, rfl⟩
  · rintro ⟨hn, rfl⟩
    have : maxCount < UInt32.size := by decide
    exact ⟨rfl, by rw [bigEndian_word32, UInt32.toNat_ofNat_of_lt' (by omega)], hn⟩

theorem mem_count_iff_exists_int32 {k : Nat} {bs : Bytes} :
    bs ∈ count k ↔ ∃ n : Int32, n.toInt = k ∧ bs ∈ int32 n := by
  constructor
  · rintro ⟨hlen, hbs, hk⟩
    unfold maxCount at hk
    have hn : (Int32.ofNat k).toInt = k := Int32.toInt_ofNat_of_lt (by omega)
    refine ⟨_, hn, hlen, ?_⟩
    rw [hn, hbs]
    omega
  · rintro ⟨n, hn, hlen, hbs⟩
    have hlt := n.toInt_lt
    rw [hn] at hbs hlt
    exact ⟨hlen, by omega, by unfold maxCount; omega⟩

theorem mem_textLength {n : Nat} {bs : Bytes} :
    bs ∈ textLength n ↔ n ≤ maxTextLength ∧ bs = word16 (UInt16.ofNat n) := by
  constructor
  · rintro ⟨hlen, hbs⟩
    obtain ⟨w, rfl⟩ := exists_word16 hlen
    rw [bigEndian_word16] at hbs
    rw [← hbs, UInt16.ofNat_toNat]
    exact ⟨Nat.le_of_lt_succ w.toNat_lt, rfl⟩
  · rintro ⟨hn, rfl⟩
    have : maxTextLength < UInt16.size := by decide
    exact ⟨rfl, by rw [bigEndian_word16, UInt16.toNat_ofNat_of_lt' (by omega)]⟩

theorem mem_text {s : String} {bs : Bytes} :
    bs ∈ text s ↔ s.utf8ByteSize ≤ maxTextLength ∧
      bs = word16 (UInt16.ofNat s.utf8ByteSize) ++ Text.utf8 s := by
  simp only [text, Language.mem_mul, mem_textLength]
  constructor
  · rintro ⟨_, ⟨hs, rfl⟩, _, rfl, rfl⟩
    exact ⟨hs, rfl⟩
  · rintro ⟨hs, rfl⟩
    exact ⟨_, ⟨hs, rfl⟩, _, rfl, rfl⟩

theorem mem_bytes {value bs : Bytes} :
    bs ∈ bytes value ↔ value.length ≤ maxCount ∧ bs = word32 (UInt32.ofNat value.length) ++ value := by
  simp only [bytes, Language.mem_mul, mem_count]
  constructor
  · rintro ⟨_, ⟨hv, rfl⟩, _, rfl, rfl⟩
    exact ⟨hv, rfl⟩
  · rintro ⟨hv, rfl⟩
    exact ⟨_, ⟨hv, rfl⟩, _, rfl, rfl⟩

end Grammar

end AwaitStore.Wire
