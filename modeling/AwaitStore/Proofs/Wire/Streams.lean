import AwaitStore.Proofs.Wire.Grammar
import AwaitStore.Wire.FrameReader

namespace AwaitStore.Wire

open Grammar

/-- What the front of a stream gives, and what is left of the stream behind it. -/
inductive Front (limit : Nat) : Bytes → Except WireError Message → Bytes → Prop where
  | noHeader {s : Bytes} (cut : s.length < headerLength) : Front limit s (.error .endOfStream) []
  | empty {header rest : Bytes} (header_length : header.length = headerLength) (zero : bigEndian header = 0) :
      Front limit (header ++ rest) (.error .emptyFrame) rest
  | tooLarge {header rest : Bytes} (header_length : header.length = headerLength)
      (excess : limit < bigEndian header) :
      Front limit (header ++ rest) (.error (.frameTooLarge (bigEndian header) limit)) rest
  | noBody {header part : Bytes} (header_length : header.length = headerLength) (pos : 0 < bigEndian header)
      (fits : bigEndian header ≤ limit) (cut : part.length < bigEndian header) :
      Front limit (header ++ part) (.error .endOfStream) []
  | whole {header body rest : Bytes} (header_length : header.length = headerLength) (pos : 0 < bigEndian header)
      (fits : bigEndian header ≤ limit) (body_length : body.length = bigEndian header) :
      Front limit (header ++ (body ++ rest)) (decode body) rest

theorem readFrame_of_short {limit : Nat} {s : Bytes} (h : s.length < headerLength) :
    readFrame limit s = (.error .endOfStream, []) := by
  match s, h with
  | [], _ | [_], _ | [_, _], _ | [_, _, _], _ => rfl

theorem toNat_ofWord32 (b₃ b₂ b₁ b₀ : UInt8) : (ofWord32 b₃ b₂ b₁ b₀).toNat = bigEndian [b₃, b₂, b₁, b₀] := by
  rw [← word32_ofWord32, bigEndian_word32]

theorem readFrame_append {limit : Nat} {header : Bytes} (h : header.length = headerLength) (s : Bytes) :
    readFrame limit (header ++ s) =
      match checkLength (bigEndian header) limit with
      | .error e => (.error e, s)
      | .ok () =>
          if bigEndian header ≤ s.length then (decode (s.take (bigEndian header)), s.drop (bigEndian header))
          else (.error .endOfStream, []) := by
  match header, h with
  | [b₃, b₂, b₁, b₀], _ =>
      cases hcheck : checkLength (bigEndian [b₃, b₂, b₁, b₀]) limit <;>
        simp [readFrame, toNat_ofWord32, List.splitAt_eq, hcheck]

theorem exists_header {s : Bytes} (h : headerLength ≤ s.length) :
    ∃ header stream, s = header ++ stream ∧ header.length = headerLength :=
  ⟨s.take headerLength, s.drop headerLength, (List.take_append_drop _ s).symm, List.length_take_of_le h⟩

theorem front_readFrame (limit : Nat) (s : Bytes) : Front limit s (readFrame limit s).1 (readFrame limit s).2 := by
  by_cases hs : s.length < headerLength
  · rw [readFrame_of_short hs]
    exact .noHeader hs
  · obtain ⟨header, stream, rfl, hlen⟩ := exists_header (Nat.le_of_not_lt hs)
    rw [readFrame_append hlen, checkLength]
    by_cases hzero : bigEndian header = 0
    · rw [if_pos hzero]
      exact .empty hlen hzero
    rw [if_neg hzero]
    by_cases hover : bigEndian header > limit
    · rw [if_pos hover]
      exact .tooLarge hlen hover
    rw [if_neg hover]
    have hpos := Nat.pos_of_ne_zero hzero
    have hfits := Nat.le_of_not_lt hover
    by_cases hbody : bigEndian header ≤ stream.length
    · simp only [if_pos hbody]
      have hwhole : Front limit _ _ (stream.drop (bigEndian header)) :=
        .whole hlen hpos hfits (List.length_take_of_le hbody)
      rwa [List.take_append_drop] at hwhole
    · simp only [if_neg hbody]
      exact .noBody hlen hpos hfits (Nat.lt_of_not_le hbody)

theorem length_lt_of_front {limit : Nat} {s t : Bytes} {result : Except WireError Message}
    (h : Front limit s result t) (hs : s ≠ []) : t.length < s.length := by
  have hpos := List.length_pos_iff.mpr hs
  cases h with
  | noHeader | noBody => exact hpos
  | empty hlen | tooLarge hlen | whole hlen =>
      simp only [List.length_append, hlen, headerLength]
      omega

def readFrames (limit : Nat) : Nat → Bytes → List (Except WireError Message)
  | 0, _ => []
  | k + 1, s => (readFrame limit s).1 :: readFrames limit k (readFrame limit s).2

def leftBy (limit : Nat) : Nat → Bytes → Bytes
  | 0, s => s
  | k + 1, s => leftBy limit k (readFrame limit s).2

def readToEnd (limit : Nat) (s : Bytes) : List (Except WireError Message) :=
  if s = [] then [] else (readFrame limit s).1 :: readToEnd limit (readFrame limit s).2
termination_by s.length
decreasing_by exact length_lt_of_front (front_readFrame limit s) ‹_›

theorem readToEnd_nil (limit : Nat) : readToEnd limit [] = [] := by rw [readToEnd, if_pos rfl]

theorem readToEnd_of_ne_nil {limit : Nat} {s : Bytes} (h : s ≠ []) :
    readToEnd limit s = (readFrame limit s).1 :: readToEnd limit (readFrame limit s).2 := by
  rw [readToEnd, if_neg h]

theorem readFrame_nil (limit : Nat) : readFrame limit [] = (.error .endOfStream, []) := rfl

theorem readFrames_eq (limit : Nat) {k n : Nat} (h : k ≤ n) (s : Bytes) :
    readFrames limit k s = List.take k (readToEnd limit s ++ List.replicate n (.error .endOfStream)) := by
  induction k generalizing s with
  | zero => simp [readFrames]
  | succ k ih =>
      rw [readFrames, ih (Nat.le_of_succ_le h)]
      by_cases hs : s = []
      · subst hs
        simp [readFrame_nil, readToEnd_nil, List.take_replicate, h, Nat.le_of_succ_le, List.replicate_succ]
      · rw [readToEnd_of_ne_nil hs, List.cons_append, List.take_succ_cons]

theorem leftBy_nil (limit k : Nat) : leftBy limit k [] = [] := by
  induction k with
  | zero => rfl
  | succ k ih => rw [leftBy, readFrame_nil, ih]

theorem leftBy_eq_nil_iff (limit k : Nat) (s : Bytes) : leftBy limit k s = [] ↔ (readToEnd limit s).length ≤ k := by
  induction k generalizing s with
  | zero =>
      by_cases hs : s = []
      · simp [hs, leftBy, readToEnd_nil]
      · simp [hs, leftBy, readToEnd_of_ne_nil]
  | succ k ih =>
      by_cases hs : s = []
      · simp [hs, leftBy_nil, readToEnd_nil]
      · simp [leftBy, ih, readToEnd_of_ne_nil hs]

namespace FrameReader

@[simp] theorem unread_ofPieces (limit : Nat) (pieces : List Bytes) :
    (ofPieces limit pieces).unread = pieces.flatten := rfl

theorem flatten_dropWhile_isEmpty (pieces : List Bytes) : (pieces.dropWhile List.isEmpty).flatten = pieces.flatten := by
  induction pieces with
  | nil => rfl
  | cons piece rest ih => cases piece <;> simp [ih]

@[simp] theorem limit_fill (r : FrameReader) : r.fill.limit = r.limit := by
  unfold fill
  split
  · rfl
  · split <;> rfl

@[simp] theorem unread_fill (r : FrameReader) : r.fill.unread = r.unread := by
  unfold fill
  split
  · rfl
  next hb =>
    have hflat := flatten_dropWhile_isEmpty r.arriving
    split
    next hd => simp [unread, hb, ← hflat, hd]
    next piece rest hd => simp [unread, hb, ← hflat, hd]

theorem buffered_fill_eq_nil (r : FrameReader) : r.fill.buffered = [] ↔ r.unread = [] := by
  rw [← unread_fill]
  unfold fill
  split
  next hb => simp [unread, hb]
  · split
    next => simp [unread]
    next piece rest hd =>
      have hne : ¬ piece.isEmpty := by
        have hhead := List.head_dropWhile_not List.isEmpty (l := r.arriving) (by simp [hd])
        simpa [hd] using hhead
      simp [unread, List.isEmpty_iff.not.mp hne]

theorem takeFrom_of_le {n : Nat} {buffered : Bytes} (h : n ≤ buffered.length) (arriving : List Bytes) :
    takeFrom n buffered arriving = (some (buffered.take n), buffered.drop n, arriving) := by
  cases arriving <;> simp [takeFrom, h]

theorem takeFrom_nil_of_lt {n : Nat} {buffered : Bytes} (h : buffered.length < n) :
    takeFrom n buffered [] = (none, [], []) := by
  simp [takeFrom, h]

theorem takeFrom_cons_of_lt {n : Nat} {buffered : Bytes} (h : buffered.length < n) (piece : Bytes)
    (arriving : List Bytes) :
    takeFrom n buffered (piece :: arriving) =
      ((takeFrom (n - buffered.length) piece arriving).1.map (buffered ++ ·),
        (takeFrom (n - buffered.length) piece arriving).2) := by
  have hle := Nat.le_of_lt h
  simp only [takeFrom, List.splitAt_eq, List.take_of_length_le hle, if_neg (Nat.ne_of_lt h)]
  rcases takeFrom (n - buffered.length) piece arriving with ⟨_ | more, rest⟩ <;> rfl

theorem takeFrom_eq (n : Nat) {buffered s : Bytes} {arriving : List Bytes} (h : buffered ++ arriving.flatten = s) :
    (takeFrom n buffered arriving).1 = (if n ≤ s.length then some (s.take n) else none) ∧
      (takeFrom n buffered arriving).2.1 ++ (takeFrom n buffered arriving).2.2.flatten =
        if n ≤ s.length then s.drop n else [] := by
  induction arriving generalizing n buffered s with
  | nil =>
      obtain rfl : buffered = s := by simpa using h
      by_cases hn : n ≤ buffered.length
      · simp [takeFrom_of_le hn, hn]
      · simp [takeFrom_nil_of_lt (Nat.lt_of_not_le hn), hn]
  | cons piece arriving ih =>
      subst h
      generalize ht : (piece :: arriving).flatten = t
      by_cases hn : n ≤ buffered.length
      · have hle : n ≤ (buffered ++ t).length := hn.trans (List.sublist_append_left _ _).length_le
        rw [takeFrom_of_le hn, if_pos hle, if_pos hle, List.take_append_of_le_length hn,
          List.drop_append_of_le_length hn, ht]
        exact ⟨rfl, rfl⟩
      · have hlt := Nat.lt_of_not_le hn
        obtain ⟨hfront, hrest⟩ := ih (n - buffered.length) ht
        have hiff : n ≤ (buffered ++ t).length ↔ n - buffered.length ≤ t.length := by
          rw [List.length_append]
          omega
        rw [takeFrom_cons_of_lt hlt, hfront, hrest, List.take_append, List.drop_append,
          List.take_of_length_le hlt.le, List.drop_of_length_le hlt.le, List.nil_append]
        exact ⟨by simp only [hiff]; split <;> rfl, by simp only [hiff]⟩

theorem take_fst (n : Nat) (r : FrameReader) :
    (r.take n).1 = if n ≤ r.unread.length then some (r.unread.take n) else none := (takeFrom_eq n rfl).1

theorem unread_take (n : Nat) (r : FrameReader) :
    (r.take n).2.unread = if n ≤ r.unread.length then r.unread.drop n else [] := (takeFrom_eq n rfl).2

theorem take_eq {n : Nat} {r : FrameReader} {front rest : Bytes} (h : r.unread = front ++ rest)
    (hn : front.length = n) : ∃ t, r.take n = (some front, t) ∧ t.unread = rest ∧ t.limit = r.limit := by
  have hle : n ≤ (front ++ rest).length := by
    rw [List.length_append]
    omega
  have hfst := take_fst n r
  have hleft := unread_take n r
  rw [h, if_pos hle] at hfst hleft
  rw [List.take_left' hn] at hfst
  rw [List.drop_left' hn] at hleft
  exact ⟨(r.take n).2, Prod.ext hfst rfl, hleft, rfl⟩

theorem take_eq_none {n : Nat} {r : FrameReader} (h : r.unread.length < n) :
    ∃ t, r.take n = (none, t) ∧ t.unread = [] ∧ t.limit = r.limit := by
  have hfst := take_fst n r
  have hleft := unread_take n r
  rw [if_neg (Nat.not_le_of_lt h)] at hfst hleft
  exact ⟨(r.take n).2, Prod.ext hfst rfl, hleft, rfl⟩

theorem readMessage_eq (r : FrameReader) (h : r.unread ≠ []) :
    r.readMessage.1 = (readFrame r.limit r.unread).1.map some ∧
      r.readMessage.2.unread = (readFrame r.limit r.unread).2 ∧ r.readMessage.2.limit = r.limit := by
  have hbuf : r.fill.buffered.isEmpty = false := by
    rw [List.isEmpty_eq_false_iff, Ne, buffered_fill_eq_nil]
    exact h
  by_cases hs : r.unread.length < headerLength
  · obtain ⟨t, ht, hleft, hlimit⟩ := take_eq_none (r := r.fill) (by rwa [unread_fill])
    rw [readFrame_of_short hs]
    simp only [readMessage, hbuf, ht]
    exact ⟨rfl, hleft, hlimit.trans r.limit_fill⟩
  · obtain ⟨header, stream, hsplit, hlen⟩ := exists_header (Nat.le_of_not_lt hs)
    obtain ⟨t, ht, hleft, hlimit⟩ := take_eq (r.unread_fill.trans hsplit) hlen
    rw [limit_fill] at hlimit
    rw [hsplit, readFrame_append hlen]
    match header, hlen with
    | [b₃, b₂, b₁, b₀], _ =>
      simp only [readMessage, hbuf, ht, toNat_ofWord32, hlimit]
      cases checkLength (bigEndian [b₃, b₂, b₁, b₀]) r.limit with
      | error e => exact ⟨rfl, hleft, hlimit⟩
      | ok =>
        by_cases hbody : bigEndian [b₃, b₂, b₁, b₀] ≤ stream.length
        · have hstream := hleft.trans (List.take_append_drop (bigEndian [b₃, b₂, b₁, b₀]) stream).symm
          obtain ⟨u, hu, hrest, hlimit'⟩ := take_eq hstream (List.length_take_of_le hbody)
          simp only [hu, if_pos hbody]
          exact ⟨rfl, hrest, hlimit'.trans hlimit⟩
        · obtain ⟨u, hu, hrest, hlimit'⟩ := take_eq_none (hleft ▸ Nat.lt_of_not_le hbody)
          simp only [hu, if_neg hbody]
          exact ⟨rfl, hrest, hlimit'.trans hlimit⟩

theorem readMessage_of_unread_eq_nil {r : FrameReader} (h : r.unread = []) : r.readMessage = (.ok none, r.fill) := by
  simp [readMessage, (buffered_fill_eq_nil r).mpr h]

inductive Ask where
  | message
  | closed
  deriving DecidableEq

def after (r : FrameReader) : List Ask → FrameReader
  | [] => r
  | .message :: rest => r.readMessage.2.after rest
  | .closed :: rest => r.closed.2.after rest

def messages (r : FrameReader) : List Ask → List (Except WireError (Option Message))
  | [] => []
  | .message :: rest => r.readMessage.1 :: r.readMessage.2.messages rest
  | .closed :: rest => r.closed.2.messages rest

theorem after_eq (r : FrameReader) (asks : List Ask) :
    (r.after asks).unread = leftBy r.limit (asks.count .message) r.unread ∧ (r.after asks).limit = r.limit := by
  induction asks generalizing r with
  | nil => exact ⟨rfl, rfl⟩
  | cons ask rest ih =>
      cases ask with
      | closed => simpa [after, closed] using ih r.closed.2
      | message =>
          obtain ⟨hleft, hlimit⟩ := ih r.readMessage.2
          rw [after, List.count_cons_self, leftBy, hleft, hlimit]
          by_cases h : r.unread = []
          · simp [readMessage_of_unread_eq_nil h, h, readFrame_nil]
          · obtain ⟨-, hunread, hlimit'⟩ := r.readMessage_eq h
            rw [hunread, hlimit']
            exact ⟨rfl, rfl⟩

theorem messages_eq (r : FrameReader) {asks : List Ask} {n : Nat} (hn : asks.count .message ≤ n) :
    r.messages asks = List.take (asks.count .message)
      ((readToEnd r.limit r.unread).map (Except.map some) ++ List.replicate n (.ok none)) := by
  induction asks generalizing r with
  | nil => simp [messages]
  | cons ask rest ih =>
      cases ask with
      | closed => simpa [messages, closed] using ih r.closed.2 (by simpa using hn)
      | message =>
          rw [List.count_cons_self] at hn
          rw [messages, List.count_cons_self, ih _ (Nat.le_of_succ_le hn)]
          by_cases h : r.unread = []
          · simp [readMessage_of_unread_eq_nil h, h, readToEnd_nil, List.take_replicate, hn, Nat.le_of_succ_le,
              List.replicate_succ]
          · obtain ⟨hresult, hunread, hlimit⟩ := r.readMessage_eq h
            rw [hresult, hunread, hlimit, readToEnd_of_ne_nil h, List.map_cons, List.cons_append,
              List.take_succ_cons]

theorem closed_fst (r : FrameReader) : r.closed.1 = true ↔ r.unread = [] := by
  rw [closed, List.isEmpty_iff, buffered_fill_eq_nil]

/-- Where a reader stands that gets the stream `s` in pieces, after `k` calls for messages, and what they gave. -/
structure ReadsAsWhole (limit k : Nat) (s : Bytes) (r : FrameReader)
    (given : List (Except WireError (Option Message))) : Prop where
  /-- Read as a whole, the stream gives its results, and behind its end nothing but missing headers. -/
  whole : readFrames limit k s = List.take k (readToEnd limit s ++ List.replicate k (.error .endOfStream))
  /-- In pieces it gives the same results, and behind its end the word that it is over. -/
  in_pieces : given = List.take k ((readToEnd limit s).map (Except.map some) ++ List.replicate k (.ok none))
  ended_iff : leftBy limit k s = [] ↔ (readToEnd limit s).length ≤ k
  aligned : r.unread = leftBy limit k s
  front_whole : Front limit r.unread (readFrame limit r.unread).1 (readFrame limit r.unread).2
  front_in_pieces : r.unread ≠ [] →
    ∃ result, r.readMessage.1 = result.map some ∧ Front limit r.unread result r.readMessage.2.unread
  closed_iff : r.closed.1 = true ↔ r.unread = []
  closed_unread : r.closed.2.unread = r.unread

/-- However a stream is cut into pieces and whatever it holds, it is read as if it were all there. -/
theorem pieces_read_as_whole (limit : Nat) (pieces : List Bytes) (asks : List Ask) :
    ReadsAsWhole limit (asks.count .message) pieces.flatten ((ofPieces limit pieces).after asks)
      ((ofPieces limit pieces).messages asks) := by
  obtain ⟨hunread, hlimit⟩ := (ofPieces limit pieces).after_eq asks
  refine ⟨readFrames_eq _ le_rfl _, messages_eq _ le_rfl, leftBy_eq_nil_iff _ _ _, hunread, front_readFrame limit _, ?_,
    closed_fst _, unread_fill _⟩
  intro hne
  obtain ⟨hresult, hrest, -⟩ := readMessage_eq _ hne
  refine ⟨_, hresult, ?_⟩
  rw [hrest, hlimit]
  exact front_readFrame limit _

example : (ofPieces 4 [[0], [0, 0, 0], [0, 0, 0, 9, 0, 0, 0], [], [1, 255, 0, 0]]).messages
    [.message, .closed, .message, .message, .message, .closed, .message] =
      [.error .emptyFrame, .error (.frameTooLarge 9 4), .error (.unknownTag 255), .error .endOfStream, .ok none] :=
  rfl

end FrameReader

end AwaitStore.Wire
