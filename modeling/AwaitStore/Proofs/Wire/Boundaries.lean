import AwaitStore.Proofs.Wire.RoundTrip
import AwaitStore.Proofs.Wire.Streams
import AwaitStore.Wire.FrameWriter

namespace AwaitStore.Wire

open Grammar

theorem frame_eq_ok {listing : Listing} {m : Message} {f : Bytes} :
    frame listing m = .ok f ↔
      ∃ body, m.encode listing = .ok body ∧ body.length ≤ maxFrameLength ∧
        f = word32 (UInt32.ofNat body.length) ++ body := by
  unfold frame
  cases m.encode listing with
  | error e => simp
  | ok body =>
      by_cases hle : body.length ≤ maxFrameLength
      · simp [hle, eq_comm]
      · simp [hle]

structure FrameOf (limit : Nat) (m : Message) (header body : Bytes) : Prop where
  header_length : header.length = headerLength
  announced : bigEndian header = body.length
  pos : 0 < body.length
  fits : body.length ≤ limit
  decoded : decode body = .ok m

namespace FrameOf

variable {limit : Nat} {m : Message} {header body : Bytes}

theorem checkLength_eq (h : FrameOf limit m header body) : checkLength (bigEndian header) limit = .ok () := by
  rw [h.announced, checkLength, if_neg h.pos.ne', if_neg h.fits.not_gt]

theorem readFrame_append (h : FrameOf limit m header body) (rest : Bytes) :
    readFrame limit ((header ++ body) ++ rest) = (.ok m, rest) := by
  rw [List.append_assoc, Wire.readFrame_append h.header_length, h.checkLength_eq, h.announced]
  simp [h.decoded]

theorem readFrame_take (h : FrameOf limit m header body) {j : Nat} (hj : j < (header ++ body).length) :
    readFrame limit ((header ++ body).take j) = (.error .endOfStream, []) := by
  by_cases hhead : j < headerLength
  · apply readFrame_of_short
    rw [List.length_take]
    exact (Nat.min_le_left _ _).trans_lt hhead
  · have hcut : ¬ body.length ≤ (body.take (j - header.length)).length := by
      rw [List.length_append] at hj
      rw [List.length_take]
      have := h.header_length
      omega
    have hall : header.take j = header := List.take_of_length_le (h.header_length ▸ Nat.le_of_not_lt hhead)
    rw [List.take_append, hall, Wire.readFrame_append h.header_length, h.checkLength_eq, h.announced]
    simp only [if_neg hcut]

theorem ne_nil (h : FrameOf limit m header body) : header ++ body ≠ [] := by
  rw [Ne, List.append_eq_nil_iff, ← List.length_eq_zero_iff, h.header_length]
  rintro ⟨hlength, -⟩
  cases hlength

theorem readToEnd_append (h : FrameOf limit m header body) (rest : Bytes) :
    readToEnd limit ((header ++ body) ++ rest) = .ok m :: readToEnd limit rest := by
  rw [readToEnd_of_ne_nil (List.append_ne_nil_of_left_ne_nil h.ne_nil rest), h.readFrame_append]

theorem readToEnd_take (h : FrameOf limit m header body) {j : Nat} (hj : j < (header ++ body).length) :
    readToEnd limit ((header ++ body).take j) = if j = 0 then [] else [.error .endOfStream] := by
  split
  next hj₀ => rw [hj₀, List.take_zero, readToEnd_nil]
  next hj₀ =>
    have hne : (header ++ body).take j ≠ [] := fun hnil => by
      rcases List.take_eq_nil_iff.mp hnil with hzero | hempty
      · exact hj₀ hzero
      · exact h.ne_nil hempty
    rw [readToEnd_of_ne_nil hne, h.readFrame_take hj, readToEnd_nil]

end FrameOf

theorem frameOf_of_frame {limit : Nat} {listing : Listing} {m : Message} {f : Bytes} (h : frame listing m = .ok f)
    (hlimit : ∀ body, m.encode listing = .ok body → body.length ≤ maxFrameLength → body.length ≤ limit) :
    ∃ header body, f = header ++ body ∧ FrameOf limit m header body := by
  obtain ⟨body, hbody, hmax, rfl⟩ := frame_eq_ok.mp h
  have hpos : 0 < body.length := by
    obtain ⟨rest, -, rfl⟩ := Message.encode_eq_ok.mp hbody
    exact Nat.succ_pos _
  have hsize : body.length < UInt32.size := Nat.lt_of_le_of_lt hmax (by decide)
  refine ⟨_, body, rfl, rfl, ?_, hpos, hlimit body hbody hmax, Message.decode_encode hbody⟩
  rw [bigEndian_word32, UInt32.toNat_ofNat_of_lt' hsize]

def framed (messages : List (Listing × Message)) : List (Message × Bytes) :=
  messages.filterMap fun e => (frame e.1 e.2).toOption.map (Prod.mk e.2)

def streamOf (frames : List (Message × Bytes)) : Bytes := frames.flatMap Prod.snd

theorem frameOf_of_mem_framed {limit : Nat} {messages : List (Listing × Message)}
    (hlimit : ∀ e ∈ messages, ∀ body, e.2.encode e.1 = .ok body → body.length ≤ maxFrameLength → body.length ≤ limit) :
    ∀ p ∈ framed messages, ∃ header body, p.2 = header ++ body ∧ FrameOf limit p.1 header body := by
  intro p hp
  obtain ⟨⟨listing, m⟩, he, hf⟩ := List.mem_filterMap.mp hp
  obtain ⟨f, hf, rfl⟩ := Option.map_eq_some_iff.mp hf
  cases h : frame listing m with
  | error e => simp [h, Except.toOption] at hf
  | ok g =>
      obtain rfl : g = f := by simpa [h, Except.toOption] using hf
      exact frameOf_of_frame h (hlimit _ he)

def ends : Nat → List (Message × Bytes) → List (Message × Nat)
  | _, [] => []
  | start, (m, f) :: rest => (m, start + f.length) :: ends (start + f.length) rest

theorem le_of_mem_ends {start : Nat} {frames : List (Message × Bytes)} {e : Message × Nat}
    (h : e ∈ ends start frames) : start ≤ e.2 := by
  induction frames generalizing start with
  | nil => cases h
  | cons p rest ih =>
      rcases List.mem_cons.mp h with rfl | h
      · exact Nat.le_add_right _ _
      · exact (Nat.le_add_right _ _).trans (ih h)

def boundaries (start : Nat) (frames : List (Message × Bytes)) : List Nat :=
  start :: (ends start frames).map Prod.snd

def inside (n : Nat) (ends : List (Message × Nat)) : List Message :=
  (ends.filter fun e => e.2 ≤ n).map Prod.fst

theorem inside_cons (n stop : Nat) (m : Message) (rest : List (Message × Nat)) :
    inside n ((m, stop) :: rest) = if stop ≤ n then m :: inside n rest else inside n rest := by
  by_cases h : stop ≤ n <;> simp [inside, h]

theorem inside_eq_nil {n start : Nat} (h : n < start) (frames : List (Message × Bytes)) :
    inside n (ends start frames) = [] := by
  rw [inside, List.map_eq_nil_iff, List.filter_eq_nil_iff]
  intro e he
  have := le_of_mem_ends he
  simp only [decide_eq_true_eq]
  omega

theorem le_of_mem_boundaries {start n : Nat} {frames : List (Message × Bytes)} (h : n ∈ boundaries start frames) :
    start ≤ n := by
  rcases List.mem_cons.mp h with rfl | h
  · exact Nat.le_refl _
  · obtain ⟨e, he, rfl⟩ := List.mem_map.mp h
    exact le_of_mem_ends he

theorem boundaries_cons (start : Nat) (m : Message) (f : Bytes) (rest : List (Message × Bytes)) :
    boundaries start ((m, f) :: rest) = start :: boundaries (start + f.length) rest := rfl

theorem readToEnd_take {limit : Nat} {frames : List (Message × Bytes)}
    (hf : ∀ p ∈ frames, ∃ header body, p.2 = header ++ body ∧ FrameOf limit p.1 header body) (start : Nat) {j : Nat}
    (hj : j ≤ (streamOf frames).length) :
    readToEnd limit ((streamOf frames).take j) =
      (inside (start + j) (ends start frames)).map .ok ++
        if start + j ∈ boundaries start frames then [] else [.error .endOfStream] := by
  induction frames generalizing start j with
  | nil =>
      obtain rfl : j = 0 := Nat.le_zero.mp hj
      simp [readToEnd_nil, inside, ends, boundaries]
  | cons p rest ih =>
      obtain ⟨m, f⟩ := p
      obtain ⟨header, body, hsplit, hframe⟩ := hf (m, f) List.mem_cons_self
      obtain rfl : f = header ++ body := hsplit
      have hpos : 0 < (header ++ body).length := List.length_pos_iff.mpr hframe.ne_nil
      rw [show streamOf ((m, header ++ body) :: rest) = (header ++ body) ++ streamOf rest from List.flatMap_cons] at hj ⊢
      rw [boundaries_cons, ends, inside_cons]
      rcases Nat.lt_or_ge j (header ++ body).length with hcut | hwhole
      · have hbefore : start + j < start + (header ++ body).length := Nat.add_lt_add_left hcut start
        have hnot : start + j ∉ boundaries (start + (header ++ body).length) rest := fun hmem =>
          hbefore.not_ge (le_of_mem_boundaries hmem)
        rw [List.take_append_of_le_length hcut.le, hframe.readToEnd_take hcut, if_neg hbefore.not_ge,
          inside_eq_nil hbefore]
        simp only [List.map_nil, List.nil_append, List.mem_cons, Nat.add_eq_left, hnot, or_false]
      · have hrest : j - (header ++ body).length ≤ (streamOf rest).length := by
          rw [List.length_append] at hj
          omega
        have hsum : start + (header ++ body).length + (j - (header ++ body).length) = start + j := by omega
        have hstart : start + j ≠ start := by omega
        rw [List.take_append, List.take_of_length_le hwhole, hframe.readToEnd_append,
          ih (fun p hp => hf p (List.mem_cons_of_mem _ hp)) (start + (header ++ body).length) hrest, hsum,
          if_pos (Nat.add_le_add_left hwhole start)]
        simp only [List.map_cons, List.cons_append, List.mem_cons, hstart, false_or]

theorem streamOf_framed_cons (e : Listing × Message) (rest : List (Listing × Message)) :
    streamOf (framed (e :: rest)) = streamOf (framed [e]) ++ streamOf (framed rest) := by
  rw [framed, framed, framed, ← List.singleton_append, List.filterMap_append]
  exact List.flatMap_append

def verdict (e : Listing × Message) : Except WireError Unit := (frame e.1 e.2).map fun _ => ()

theorem writeFrame_eq (listing : Listing) (m : Message) (stream : Bytes) :
    writeFrame listing m stream = (verdict (listing, m), stream ++ streamOf (framed [(listing, m)])) := by
  unfold writeFrame verdict framed
  cases h : frame listing m <;> simp [h, Except.map, Except.toOption, streamOf]

def writeAll (stream : Bytes) : List (Listing × Message) → List (Except WireError Unit) × Bytes
  | [] => ([], stream)
  | e :: rest =>
      let (result, after) := writeFrame e.1 e.2 stream
      let (more, last) := writeAll after rest
      (result :: more, last)

theorem writeAll_eq (stream : Bytes) (messages : List (Listing × Message)) :
    writeAll stream messages = (messages.map verdict, stream ++ streamOf (framed messages)) := by
  induction messages generalizing stream with
  | nil => simp [writeAll, framed, streamOf]
  | cons e rest ih =>
      rw [writeAll, writeFrame_eq]
      simp only [ih, List.map_cons]
      rw [streamOf_framed_cons e rest, List.append_assoc]

namespace FrameWriter

inductive Step where
  | write (listing : Listing) (m : Message)
  | handOn (n : Nat)

def passed : List Step → List (Listing × Message)
  | [] => []
  | .write listing m :: rest => (listing, m) :: passed rest
  | .handOn _ :: rest => passed rest

def run (w : FrameWriter) : List Step → List (Except WireError Unit) × FrameWriter
  | [] => ([], w)
  | .write listing m :: rest =>
      let (result, after) := w.writeMessage listing m
      let (more, last) := after.run rest
      (result :: more, last)
  | .handOn n :: rest => (w.handOn n).run rest

theorem written_handOn (w : FrameWriter) (n : Nat) : (w.handOn n).written = w.written := by
  simp [written, handOn]

theorem sent_flush (w : FrameWriter) : w.flush.sent = w.written := by
  simp [flush, written, handOn]

theorem run_eq (w : FrameWriter) (steps : List Step) :
    (w.run steps).1 = (passed steps).map verdict ∧
      (w.run steps).2.written = w.written ++ streamOf (framed (passed steps)) := by
  induction steps generalizing w with
  | nil => simp [run, passed, framed, streamOf]
  | cons step rest ih =>
      cases step with
      | handOn n => rw [run, passed, (ih _).1, (ih _).2, written_handOn]; exact ⟨rfl, rfl⟩
      | write listing m =>
          simp only [run, passed, writeMessage, writeFrame_eq, List.map_cons]
          rw [(ih _).1, (ih _).2, streamOf_framed_cons (listing, m) (passed rest)]
          simp [written]

end FrameWriter

theorem fst_writeFrames (listing : Listing) (messages : List Message) :
    (writeFrames listing messages).1 = streamOf (framed (messages.map (Prod.mk listing))) := by
  induction messages with
  | nil => rfl
  | cons m rest ih =>
      rw [List.map_cons, streamOf_framed_cons, ← ih, writeFrames]
      cases h : frame listing m <;> simp [framed, streamOf, h, Except.toOption]

theorem take_append_replicate {α : Type} {k n : Nat} (h : k ≤ n) (l : List α) (a : α) :
    List.take k (l ++ List.replicate n a) = List.take k (l ++ List.replicate k a) := by
  simp only [List.take_append, List.take_replicate]
  congr 2
  omega

/-- What messages show that are written one after another, and read again with this limit. -/
structure KeepsBoundaries (limit : Nat) (messages : List (Listing × Message)) : Prop where
  written : ∀ steps, FrameWriter.passed steps = messages →
    (FrameWriter.new.run steps).1 = messages.map verdict ∧
      (FrameWriter.new.run steps).2.written = streamOf (framed messages) ∧
      (FrameWriter.new.run steps).2.flush.sent = streamOf (framed messages)
  written_at_once : ∀ stream, writeAll stream messages = (messages.map verdict, stream ++ streamOf (framed messages))
  written_together : ∀ listing ms, ms.map (Prod.mk listing) = messages →
    (writeFrames listing ms).1 = streamOf (framed messages)
  /-- A prefix that comes in pieces is read as the messages whose frames it holds. If it ends inside a frame that is met
  next, and from there on nothing more comes. -/
  in_pieces : ∀ pieces asks, pieces.flatten <+: streamOf (framed messages) →
    (FrameReader.ofPieces limit pieces).messages asks = List.take (asks.count FrameReader.Ask.message)
      ((inside pieces.flatten.length (ends 0 (framed messages))).map (fun m => Except.ok (some m)) ++
        (if pieces.flatten.length ∈ boundaries 0 (framed messages) then [] else [.error .endOfStream]) ++
          List.replicate asks.length (.ok none))
  whole : ∀ part k, part <+: streamOf (framed messages) → readFrames limit k part = List.take k
    ((inside part.length (ends 0 (framed messages))).map Except.ok ++ List.replicate k (.error .endOfStream))

/-- Of messages written one after another those that have a frame leave it whole, the others leave nothing. Wherever the
stream is cut and however it comes, what is read are the messages before the cut. -/
theorem frames_keep_boundaries {limit : Nat} {messages : List (Listing × Message)}
    (hlimit : ∀ e ∈ messages, ∀ body, e.2.encode e.1 = .ok body → body.length ≤ maxFrameLength → body.length ≤ limit) :
    KeepsBoundaries limit messages := by
  have hend : ∀ part, part <+: streamOf (framed messages) →
      readToEnd limit part = (inside part.length (ends 0 (framed messages))).map .ok ++
        if part.length ∈ boundaries 0 (framed messages) then [] else [.error .endOfStream] := by
    intro part hpart
    have h := readToEnd_take (frameOf_of_mem_framed hlimit) 0 hpart.length_le
    rwa [← List.prefix_iff_eq_take.mp hpart, Nat.zero_add] at h
  refine ⟨?_, fun stream => writeAll_eq stream messages, ?_, ?_, ?_⟩
  · rintro steps rfl
    obtain ⟨hverdicts, hwritten⟩ := FrameWriter.new.run_eq steps
    exact ⟨hverdicts, hwritten, (FrameWriter.sent_flush _).trans hwritten⟩
  · rintro listing ms rfl
    exact fst_writeFrames listing ms
  · intro pieces asks hpart
    rw [FrameReader.messages_eq _ List.count_le_length, FrameReader.unread_ofPieces, FrameReader.ofPieces, hend _ hpart,
      List.map_append, List.map_map, apply_ite (List.map (Except.map some))]
    rfl
  · intro part k hpart
    rw [readFrames_eq _ le_rfl, hend part hpart]
    split
    · rw [List.append_nil]
    · rw [List.append_assoc, List.singleton_append, ← List.replicate_succ, take_append_replicate (Nat.le_succ k)]

theorem utf8ByteSize_replicate (n : Nat) (c : Char) :
    (String.ofList (List.replicate n c)).utf8ByteSize = n * c.utf8Size := by
  rw [String.utf8ByteSize_ofList]
  induction n with
  | zero => simp
  | succ n ih => rw [List.replicate_succ, String.utf8Len_cons, ih, Nat.succ_mul]

/-- The key in the middle is one byte too long, and the stream is cut in the last frame. -/
theorem frames_keep_boundaries_long_key :
    let messages : List (Listing × Message) :=
      [(.ascending, .putResponse 7), (.ascending, .getRequest 1 (String.ofList (List.replicate 65536 'k'))),
        (.ascending, .getResponse 2 (some [9]))]
    (∀ e ∈ messages, ∀ body, e.2.encode e.1 = .ok body → body.length ≤ maxFrameLength → body.length ≤ 10) ∧
      streamOf (framed messages) =
        [0, 0, 0, 5, 6, 0, 0, 0, 7, 0, 0, 0, 10, 7, 0, 0, 0, 2, 0, 0, 0, 1, 9] ∧
      (FrameReader.ofPieces 10 [[0, 0], [], [0, 5, 6, 0, 0, 0, 7, 0, 0, 0, 10, 7]]).messages
          [.message, .closed, .message, .message] =
        [.ok (some (.putResponse 7)), .error .endOfStream, .ok none] := by
  -- Of the key no more than its size is needed.
  obtain ⟨key, hkey, hsize⟩ :
      ∃ key, String.ofList (List.replicate 65536 'k') = key ∧ maxTextLength < key.utf8ByteSize := by
    refine ⟨_, rfl, ?_⟩
    rw [utf8ByteSize_replicate]
    decide
  rw [hkey]
  intro messages
  have hlong : ∀ body, (Message.getRequest 1 key).encode .ascending ≠ .ok body := by
    intro body hbody
    have hfits := (Message.exists_encode_iff_fits .ascending).mp ⟨body, hbody⟩
    exact absurd hfits hsize.not_ge
  have hlimit : ∀ e ∈ messages, ∀ body, e.2.encode e.1 = .ok body → body.length ≤ maxFrameLength →
      body.length ≤ 10 := by
    intro e he body hbody hmax
    simp only [messages, List.mem_cons, List.not_mem_nil, or_false] at he
    rcases he with rfl | rfl | rfl
    · cases hbody
      decide
    · exact absurd hbody (hlong body)
    · cases hbody
      decide
  have hframed : framed messages =
      [(.putResponse 7, [0, 0, 0, 5, 6, 0, 0, 0, 7]),
        (.getResponse 2 (some [9]), [0, 0, 0, 10, 7, 0, 0, 0, 2, 0, 0, 0, 1, 9])] := by
    cases hframe : frame .ascending (.getRequest 1 key) with
    | ok f =>
        obtain ⟨body, hbody, -⟩ := frame_eq_ok.mp hframe
        exact absurd hbody (hlong body)
    | error e =>
        simp only [messages, framed, List.filterMap_cons, hframe]
        rfl
  have hstream : streamOf (framed messages) =
      [0, 0, 0, 5, 6, 0, 0, 0, 7, 0, 0, 0, 10, 7, 0, 0, 0, 2, 0, 0, 0, 1, 9] := by
    rw [hframed]
    rfl
  refine ⟨hlimit, hstream, ?_⟩
  have hread := (frames_keep_boundaries hlimit).in_pieces [[0, 0], [], [0, 5, 6, 0, 0, 0, 7, 0, 0, 0, 10, 7]]
    [.message, .closed, .message, .message] (hstream ▸ ⟨_, rfl⟩)
  rw [hread, hframed]
  rfl

end AwaitStore.Wire
