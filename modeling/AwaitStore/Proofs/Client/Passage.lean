import AwaitStore.Client.Remote
import AwaitStore.Proofs.Calls
import AwaitStore.Proofs.Wire.Boundaries

namespace AwaitStore

/-- What a caller on the far side of a connection learns of an outcome. -/
def Outcome.afar : Outcome → Outcome
  | .ok answer => .ok answer
  | .error e => .error (.server e.message)

def Return.afar (r : Return) : Return := ⟨r.call, r.outcome.afar⟩

theorem Operation.outcome_reply {op : Operation} {outcome : Outcome} (h : op.Suits outcome) (id : Wire.RequestId) :
    op.outcome (outcome.reply id) = outcome.afar := by
  cases outcome with
  | error e => cases op <;> rfl
  | ok answer =>
      cases op <;> cases answer <;> first | rfl | exact h.elim

namespace Wire

/-- The message has a frame, and a reader with this limit lets it through. -/
def Passes (listing : Listing) (limit : Nat) (m : Message) : Prop :=
  ∃ bytes, frame listing m = .ok bytes ∧ bytes.length ≤ headerLength + limit

section Passes

variable {listing : Listing} {limit : Nat} {m : Message}

theorem frameOf_of_length_le {bytes : Bytes} (h : frame listing m = .ok bytes)
    (hlen : bytes.length ≤ headerLength + limit) :
    ∃ header body, bytes = header ++ body ∧ FrameOf limit m header body := by
  apply frameOf_of_frame h
  intro body hbody _
  obtain ⟨_, hbody', _, rfl⟩ := frame_eq_ok.mp h
  cases hbody.symm.trans hbody'
  simp only [List.length_append, headerLength, word32, List.length_cons, List.length_nil] at hlen
  omega

theorem readFrame_of_length_lt {bytes : Bytes} (h : frame listing m = .ok bytes)
    (hlen : headerLength + limit < bytes.length) : ∃ e, (readFrame limit bytes).1 = .error e := by
  obtain ⟨body, _, hmax, rfl⟩ := frame_eq_ok.mp h
  have hsize : body.length < UInt32.size := Nat.lt_of_le_of_lt hmax (by decide)
  have hlimit : limit < body.length := by
    simp only [List.length_append, headerLength, word32, List.length_cons, List.length_nil] at hlen
    omega
  refine ⟨.frameTooLarge body.length limit, ?_⟩
  rw [readFrame_append rfl, Grammar.bigEndian_word32, UInt32.toNat_ofNat_of_lt' hsize, checkLength,
    if_neg (Nat.ne_zero_of_lt hlimit), if_pos hlimit]

theorem Incoming.readMessage_eq (limit : Nat) {s : Incoming} (h : s.bytes ≠ []) :
    s.readMessage limit = ((readFrame limit s.bytes).1.map some, { s with bytes := (readFrame limit s.bytes).2 }) := by
  have hunread : (FrameReader.ofPieces limit [s.bytes]).unread = s.bytes := by simp
  obtain ⟨hresult, hrest, -⟩ := (FrameReader.ofPieces limit [s.bytes]).readMessage_eq (hunread.symm ▸ h)
  rw [hunread] at hresult hrest
  exact Prod.ext hresult (congrArg (Incoming.mk · s.ended) hrest)

theorem Incoming.bytes_ne_nil {s t : Incoming} (h : s.readMessage limit = (.ok (some m), t)) : s.bytes ≠ [] := by
  intro hnil
  have hread := FrameReader.readMessage_of_unread_eq_nil (r := .ofPieces limit [s.bytes]) (by simp [hnil])
  simp only [readMessage, hread] at h
  cases h

theorem Incoming.length_readMessage_lt (limit : Nat) {s : Incoming} (h : s.bytes ≠ []) :
    (s.readMessage limit).2.bytes.length < s.bytes.length := by
  rw [readMessage_eq limit h]
  exact length_lt_of_front (front_readFrame limit s.bytes) h

theorem Incoming.length_readMessage_le (limit : Nat) (s : Incoming) :
    (s.readMessage limit).2.bytes.length ≤ s.bytes.length := by
  by_cases h : s.bytes = []
  · have hunread : (FrameReader.ofPieces limit [s.bytes]).unread = [] := by simp [h]
    have hleft : (s.readMessage limit).2.bytes = [] := by
      simp only [readMessage, FrameReader.readMessage_of_unread_eq_nil hunread, FrameReader.unread_fill, hunread]
    simp [hleft]
  · exact Nat.le_of_lt (length_readMessage_lt limit h)

theorem Incoming.isReady_of_frame {f : Bytes} (h : frame listing m = .ok f) (limit : Nat) (rest : Bytes)
    (ended : Bool) :
    (Incoming.mk (f ++ rest) ended).isReady limit = true := by
  obtain ⟨body, -, hmax, rfl⟩ := frame_eq_ok.mp h
  have hsize : body.length < UInt32.size := Nat.lt_of_le_of_lt hmax (by decide)
  simp only [isReady, word32, List.cons_append, List.nil_append, ofWord32_word32, Bool.or_eq_true]
  rw [UInt32.toNat_ofNat_of_lt' hsize]
  right
  split
  · rfl
  · simp

def Headed (listing : Listing) (f : RequestId → Message) : Prop :=
  ∃ rest : Except BodyFault Bytes, ∀ id, (f id).fields listing = rest.map (Encode.int32 id ++ ·)

theorem Headed.passes {f : RequestId → Message} (h : Headed listing f) {id : RequestId}
    (hp : Passes listing limit (f id)) (other : RequestId) : Passes listing limit (f other) := by
  obtain ⟨rest, hrest⟩ := h
  obtain ⟨bytes, hbytes, hlen⟩ := hp
  obtain ⟨body, hbody, hmax, rfl⟩ := frame_eq_ok.mp hbytes
  rw [Message.encode, hrest id] at hbody
  cases rest with
  | error fault => cases hbody
  | ok rest =>
      cases hbody
      refine ⟨_, frame_eq_ok.mpr ⟨_, by rw [Message.encode, hrest other]; rfl, ?_, rfl⟩, ?_⟩
      · simpa [Encode.int32, word32] using hmax
      · simpa [Encode.int32, word32] using hlen

end Passes

end Wire

namespace Wire

open Encode

theorem headed_request (listing : Listing) (op : Operation) : Headed listing fun id => op.request id := by
  cases op with
  | put key value =>
      refine ⟨do return (← text .key key) ++ (← bytes .value value), fun id => ?_⟩
      simp only [Operation.request, Message.fields]
      cases text .key key <;> cases bytes .value value <;>
        simp [bind, Except.bind, pure, Except.pure, Except.map]
  | get key => exact ⟨text .key key, fun id => rfl⟩
  | multiPut table => exact ⟨pairs (listing.pairs table), fun id => rfl⟩
  | multiGet set => exact ⟨keys (listing.keys set), fun id => rfl⟩
  | getWhen wish =>
      refine ⟨do
        return (← text .key wish.key) ++ (← text .keyCond wish.keyCond) ++ (← bytes .valueCond wish.valueCond),
        fun id => ?_⟩
      simp only [Operation.request, Message.fields]
      cases text .key wish.key <;> cases text .keyCond wish.keyCond <;> cases bytes .valueCond wish.valueCond <;>
        simp [bind, Except.bind, pure, Except.pure, Except.map]

theorem headed_reply (listing : Listing) (outcome : Outcome) : Headed listing fun id => outcome.reply id := by
  match outcome with
  | .ok .stored => exact ⟨.ok [], fun id => congrArg Except.ok (List.append_nil _).symm⟩
  | .ok (.value value) => exact ⟨optionalBytes .value value, fun id => rfl⟩
  | .ok (.values table) => exact ⟨pairs (listing.pairs table), fun id => rfl⟩
  | .error e => exact ⟨text .message e.message, fun id => rfl⟩

end Wire

namespace Client

open Wire (RequestId)

namespace Channel

variable (ch : Channel)

/-- The operation can be encoded, and the server lets its frame through. -/
def Takes (op : Operation) : Prop := ∃ id, Wire.Passes ch.requestListing ch.serverLimit (op.request id)

def Returns (outcome : Outcome) : Prop := ∃ id, Wire.Passes ch.replyListing ch.clientLimit (outcome.reply id)

variable {ch} {id : RequestId} {op : Operation} {outcome : Outcome}

theorem asked_of_frame {bytes : Bytes} (h : Wire.frame ch.requestListing (op.request id) = .ok bytes) :
    ch.asked bytes = if bytes.length ≤ Wire.headerLength + ch.serverLimit then some (id, op) else none := by
  have hne : ((Wire.Incoming.empty.arrive bytes).bytes) ≠ [] := by
    obtain ⟨body, -, -, rfl⟩ := Wire.frame_eq_ok.mp h
    simp [Wire.Incoming.arrive, Wire.word32]
  have hread := Wire.Incoming.readMessage_eq ch.serverLimit hne
  have harrived : (Wire.Incoming.empty.arrive bytes).bytes = bytes := rfl
  rw [harrived] at hread
  split
  next hlen =>
    obtain ⟨header, body, rfl, hf⟩ := Wire.frameOf_of_length_le h hlen
    have hfront := hf.readFrame_append []
    rw [List.append_nil] at hfront
    simp only [asked, hread, hfront, Except.map]
    exact Operation.ofRequest?_request id op
  next hlen =>
    obtain ⟨e, he⟩ := Wire.readFrame_of_length_lt h (Nat.lt_of_not_le hlen)
    simp only [asked, hread, he, Except.map]

theorem Takes.asked (h : ch.Takes op) (id : RequestId) :
    ∃ bytes, Wire.frame ch.requestListing (op.request id) = .ok bytes ∧ ch.asked bytes = some (id, op) := by
  obtain ⟨_, hp⟩ := h
  obtain ⟨bytes, hbytes, hlen⟩ := (Wire.headed_request ch.requestListing op).passes hp id
  exact ⟨bytes, hbytes, (asked_of_frame hbytes).trans (if_pos hlen)⟩

theorem Returns.answered (h : ch.Returns outcome) (id : RequestId) :
    ch.answered id outcome = .ok (outcome.reply id) := by
  obtain ⟨_, hp⟩ := h
  obtain ⟨bytes, hbytes, hlen⟩ := (Wire.headed_reply ch.replyListing outcome).passes hp id
  obtain ⟨header, body, rfl, hf⟩ := Wire.frameOf_of_length_le hbytes hlen
  have hfront := hf.readFrame_append []
  rw [List.append_nil] at hfront
  simp only [Channel.answered, hbytes, hfront, bind, Except.bind]

end Channel

end Client

end AwaitStore
