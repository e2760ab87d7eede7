import AwaitStore.Proofs.Client.Callers
import AwaitStore.Proofs.Client.Passage

namespace AwaitStore.Client

open Wire (AuthStatus Listing Message RequestId)

/-- A reply to this request: it has the id of the request, or is the status of a login. -/
def answers (request reply : Message) : Bool :=
  match request, reply with
  | .authRequest .., .authResponse _ => true
  | request, reply => request.id?.isSome && request.id? == reply.requestId?

/-- What has happened on a link, each time with the call that it has happened to. -/
structure Log where
  numbered : List (Nat × RequestId)
  /-- The requests that were sent. After a write that failed the server may have the request or not. -/
  asked : List (Nat × Message)
  /-- Logins that were sent while no write had failed. -/
  prompt : List Nat
  read : List (Nat × Message)
  unread : List (Nat × Message)
  failed : Bool

namespace Log

def empty : Log := ⟨[], [], [], [], [], false⟩

def given (log : Log) : List (Nat × Message) := log.read ++ log.unread

def hear (log : Log) : Log :=
  match log.unread with
  | [] => log
  | answer :: rest => { log with read := log.read ++ [answer], unread := rest }

def note (listing : Listing) (l next : Link) (log : Log) : Step → Log
  | .number n => if l.broken then log else { log with numbered := log.numbered ++ [(n, l.nextId)] }
  | .send n written =>
      match l.outgoing? n with
      | none => log
      | some (message, id) =>
          match Wire.frame listing message with
          | .error _ => log
          | .ok _ =>
              { log with
                asked := log.asked ++ [(n, message)]
                prompt := if id.isNone && !log.failed then log.prompt ++ [n] else log.prompt
                failed := if written then log.failed else true }
  | .read => if next.reading then log.hear else log
  | .call .. | .look _ | .wake _ | .arrive _ | .hangUp | .notify _ => log

end Log

structure Exchange where
  link : Link
  log : Log
  onTheWay : Bytes

inductive Event where
  | client (step : Step)
  | answer (call : Nat) (reply : Message)
  | deliver (count : Nat)
  | hangUp

namespace Exchange

def connect (l : Link) : Exchange := ⟨l, .empty, []⟩

/-- A call has a number of its own, and what arrives comes from the server. -/
def allows (x : Exchange) : Step → Bool
  | .call n _ => (x.link.find? n).isNone
  | .arrive _ | .hangUp => false
  | .number _ | .send .. | .look _ | .wake _ | .read | .notify _ => true

/-- The client's collections are listed by `listing`, the server's by `peer`. -/
def step (listing peer : Listing) (x : Exchange) : Event → Option Exchange
  | .client a =>
      if x.allows a then
        (x.link.step listing a).map fun link => { x with link, log := x.log.note listing x.link link a }
      else none
  | .answer n reply =>
      match x.log.asked.lookup n, Wire.frame peer reply with
      | some request, .ok bytes =>
          if answers request reply ∧ n ∉ x.log.given.map Prod.fst then
            some
              { x with
                log := { x.log with unread := x.log.unread ++ [(n, reply)] }
                onTheWay := x.onTheWay ++ bytes }
          else none
      | _, _ => none
  | .deliver count =>
      if x.link.incoming.ended then none
      else
        some
          { x with
            link := { x.link with incoming := x.link.incoming.arrive (x.onTheWay.take count) }
            onTheWay := x.onTheWay.drop count }
  | .hangUp => some { x with link := { x.link with incoming := x.link.incoming.finish } }

def run (listing peer : Listing) (x : Exchange) (events : List Event) : Option Exchange :=
  events.foldlM (step listing peer) x

variable {listing peer : Listing} {x y z : Exchange}

theorem run_append {front back : List Event} :
    x.run listing peer (front ++ back) = some z ↔
      ∃ y, x.run listing peer front = some y ∧ y.run listing peer back = some z := by
  simp [run, List.foldlM_append, Option.bind_eq_some_iff]

theorem run_snoc {events : List Event} {e : Event} :
    x.run listing peer (events ++ [e]) = some z ↔
      ∃ y, x.run listing peer events = some y ∧ y.step listing peer e = some z := by
  rw [run_append]
  simp [run]

end Exchange

/-- What matters for the way of a reply to its caller. -/
structure View where
  call : Nat → Option (Request × Standing)
  nextId : RequestId
  replies : RequestId → Option Message
  loginReply : Option AuthStatus
  broken : Bool
  reading : Bool
  log : Log

namespace View

def stand (n : Nat) (request : Request) (s : Standing) (v : View) : View :=
  { v with call := Function.update v.call n (some (request, s)) }

inductive Sends (v : View) (n : Nat) : Request → Message → Option RequestId → Prop
  | perform {op : Operation} {id : RequestId} (before : v.call n = some (.perform op, .numbered id)) :
      Sends v n (.perform op) (op.request id) (some id)
  | logIn {username password : String} (before : v.call n = some (.logIn username password, .new))
      (alone : ∀ m username password id, v.call m ≠ some (.logIn username password, .waiting id)) :
      Sends v n (.logIn username password) (.authRequest username password) none

end View

namespace Exchange

def view (x : Exchange) : View :=
  ⟨x.link.standing, x.link.nextId, fun id => x.link.replies.lookup id, x.link.loginReply, x.link.broken, x.link.reading,
    x.log⟩

end Exchange

inductive Change (listing : Listing) (v : View) : Event → View → Prop
  | kept {e : Event} : Change listing v e v
  | called {n : Nat} {request : Request} (before : v.call n = none) :
      Change listing v (.client (.call n request)) (v.stand n request .new)
  | numbered {n : Nat} {op : Operation} (before : v.call n = some (.perform op, .new)) (up : v.broken = false) :
      Change listing v (.client (.number n))
        ({ v with
            nextId := idAfter v.nextId
            log := { v.log with numbered := v.log.numbered ++ [(n, v.nextId)] } }.stand n (.perform op)
          (.numbered v.nextId))
  | refused {n : Nat} {op : Operation} (before : v.call n = some (.perform op, .new)) (down : v.broken = true) :
      Change listing v (.client (.number n)) (v.stand n (.perform op) (.ended (.failed .connectionBroken)))
  | unencodable {n : Nat} {written : Bool} {request : Request} {m : Message} {id : Option RequestId}
      {error : Wire.WireError} (sends : v.Sends n request m id) (unframed : Wire.frame listing m = .error error) :
      Change listing v (.client (.send n written)) (v.stand n request (.ended (.failed (.wire error))))
  | sent {n : Nat} {request : Request} {m : Message} {id : Option RequestId} (sends : v.Sends n request m id) :
      Change listing v (.client (.send n true))
        ({ v with
            log :=
              { v.log with
                asked := v.log.asked ++ [(n, m)]
                prompt := if id.isNone && !v.log.failed then v.log.prompt ++ [n] else v.log.prompt } }.stand n request
          (.waiting id))
  | failed {n : Nat} {request : Request} {m : Message} {id : Option RequestId} (sends : v.Sends n request m id) :
      Change listing v (.client (.send n false))
        ({ v with
            broken := true
            log :=
              { v.log with
                asked := v.log.asked ++ [(n, m)]
                prompt := if id.isNone && !v.log.failed then v.log.prompt ++ [n] else v.log.prompt
                failed := true } }.stand n request
          (.ended (.failed .connectionFailed)))
  | taken {n : Nat} {op : Operation} {id : RequestId} {reply : Message}
      (before : v.call n = some (.perform op, .waiting (some id))) (found : v.replies id = some reply) :
      Change listing v (.client (.look n))
        ({ v with replies := Function.update v.replies id none }.stand n (.perform op)
          (.ended (.outcome (op.outcome reply))))
  | welcomed {n : Nat} {username password : String} {status : AuthStatus}
      (before : v.call n = some (.logIn username password, .waiting none)) (found : v.loginReply = some status) :
      Change listing v (.client (.look n))
        ({ v with loginReply := none }.stand n (.logIn username password) (.ended (.status status)))
  | gaveUp {n : Nat} {request : Request} {id : Option RequestId} (before : v.call n = some (request, .waiting id))
      (nothing : ∀ i, id = some i → v.replies i = none) (quiet : id = none → v.loginReply = none)
      (down : v.broken = true) :
      Change listing v (.client (.look n)) (v.stand n request (.ended (.failed .connectionBroken)))
  | heard {n : Nat} {id : RequestId} {reply : Message} {rest : List (Nat × Message)}
      (first : v.log.unread = (n, reply) :: rest) (answer : reply.requestId? = some id) (reading : v.reading = true) :
      Change listing v (.client .read)
        { v with
          replies := Function.update v.replies id (some reply)
          log := { v.log with read := v.log.read ++ [(n, reply)], unread := rest } }
  | greeted {n : Nat} {status : AuthStatus} {rest : List (Nat × Message)}
      (first : v.log.unread = (n, .authResponse status) :: rest) (reading : v.reading = true) :
      Change listing v (.client .read)
        { v with
          loginReply := some status
          log := { v.log with read := v.log.read ++ [(n, .authResponse status)], unread := rest } }
  | lost : Change listing v (.client .read) { v with broken := true, reading := false }
  | answered {n : Nat} {m reply : Message} (asked : (n, m) ∈ v.log.asked) (once : n ∉ v.log.given.map Prod.fst)
      (answer : answers m reply) :
      Change listing v (.answer n reply)
        { v with log := { v.log with unread := v.log.unread ++ [(n, reply)] } }

section Read

variable {limit : Nat} {listing : Listing} {m m' : Message} {bytes rest f more left : Bytes}

theorem readFrame_front (h : Wire.frame listing m = .ok f) (hs : bytes ++ rest = f ++ more)
    (hr : Wire.readFrame limit bytes = (.ok m', left)) : m' = m ∧ left ++ rest = more := by
  obtain ⟨body, hbody, hmax, rfl⟩ := Wire.frame_eq_ok.mp h
  have hfront : Wire.Front limit bytes (.ok m') left := by
    have hfront := Wire.front_readFrame limit bytes
    rwa [hr] at hfront
  generalize hresult : Except.ok m' = result at hfront
  cases hfront with
  | noHeader | empty | tooLarge | noBody => cases hresult
  | @whole header body' _ hlen hpos hfits hbody' =>
      simp only [List.append_assoc] at hs
      obtain ⟨rfl, hbodies⟩ := List.append_inj hs (hlen.trans (Wire.length_word32 _).symm)
      have hsize : body.length < UInt32.size := Nat.lt_of_le_of_lt hmax (by decide)
      rw [Wire.Grammar.bigEndian_word32, UInt32.toNat_ofNat_of_lt' hsize] at hbody'
      obtain ⟨rfl, hrest⟩ := List.append_inj hbodies hbody'
      exact ⟨Except.ok.inj (hresult.trans (Wire.Message.decode_encode hbody)), hrest⟩

end Read

def stream (peer : Listing) (given : List (Nat × Message)) : Bytes :=
  given.flatMap fun a =>
    match Wire.frame peer a.2 with
    | .ok bytes => bytes
    | .error _ => []

namespace Exchange

/-- While the client reads, it has the front of what it has not read, and the rest is still to come. -/
structure Streamed (peer : Listing) (x : Exchange) : Prop where
  framed : ∀ a ∈ x.log.unread, ∃ bytes, Wire.frame peer a.2 = .ok bytes
  reply : ∀ a ∈ x.log.unread, (∃ status, a.2 = .authResponse status) ∨ ∃ id, a.2.requestId? = some id
  rest : x.link.reading = true → ∃ rest, x.link.incoming.bytes ++ rest = stream peer x.log.unread ∧
    (x.link.incoming.ended = false → rest = x.onTheWay)

end Exchange

section Lookup

variable (replies : List (RequestId × Message)) {id i : RequestId} (m : Message)

theorem lookup_cons_of_ne (h : i ≠ id) : ((id, m) :: replies).lookup i = replies.lookup i := by
  rw [List.lookup_cons, beq_false_of_ne h]

theorem lookup_filter (id i : RequestId) :
    (replies.filter fun r => r.1 != id).lookup i = if i = id then none else replies.lookup i := by
  induction replies with
  | nil => simp
  | cons r replies ih =>
      obtain ⟨k, m⟩ := r
      by_cases hk : k = id
      · subst hk
        rw [List.filter_cons_of_neg (by simp), ih]
        split
        · rfl
        next hi => exact (lookup_cons_of_ne replies m hi).symm
      · rw [List.filter_cons_of_pos (by simpa using hk)]
        by_cases hi : i = k
        · subst hi
          rw [List.lookup_cons_self, List.lookup_cons_self, if_neg hk]
        · rw [lookup_cons_of_ne _ m hi, lookup_cons_of_ne _ m hi, ih]

theorem lookup_remove (id : RequestId) :
    (fun i => (replies.filter fun r => r.1 != id).lookup i) =
      Function.update (fun i => replies.lookup i) id none := by
  funext i
  rw [lookup_filter, Function.update_apply]

theorem lookup_store (id : RequestId) (m : Message) :
    (fun i => ((id, m) :: replies.filter fun r => r.1 != id).lookup i) =
      Function.update (fun i => replies.lookup i) id (some m) := by
  funext i
  rw [Function.update_apply]
  split
  next hi => rw [hi, List.lookup_cons_self]
  next hi => rw [lookup_cons_of_ne _ m hi, lookup_filter, if_neg hi]

end Lookup

namespace Exchange

variable {listing peer : Listing} {x y : Exchange} {l : Link}

theorem stream_cons {a : Nat × Message} {bytes : Bytes} (h : Wire.frame peer a.2 = .ok bytes)
    (rest : List (Nat × Message)) : stream peer (a :: rest) = bytes ++ stream peer rest := by
  simp [stream, h]

theorem stream_append (first second : List (Nat × Message)) :
    stream peer (first ++ second) = stream peer first ++ stream peer second := by
  simp [stream]

theorem Streamed.first (h : Streamed peer x) (reading : x.link.reading = true) {m : Message} {incoming : Wire.Incoming}
    (read : x.link.incoming.readMessage Wire.defaultMaxFrame = (.ok (some m), incoming)) :
    ∃ n unread, x.log.unread = (n, m) :: unread ∧ incoming.ended = x.link.incoming.ended ∧
      ∀ rest, x.link.incoming.bytes ++ rest = stream peer x.log.unread →
        incoming.bytes ++ rest = stream peer unread := by
  have hne := Wire.Incoming.bytes_ne_nil read
  rw [Wire.Incoming.readMessage_eq _ hne] at read
  obtain ⟨hm, rfl⟩ := Prod.mk.inj read
  obtain ⟨result, hresult, rfl⟩ : ∃ result, (Wire.readFrame Wire.defaultMaxFrame x.link.incoming.bytes).1 = .ok result ∧
      result = m := by
    cases he : (Wire.readFrame Wire.defaultMaxFrame x.link.incoming.bytes).1 with
    | error e => simp [he, Except.map] at hm
    | ok result => exact ⟨result, rfl, by simpa [he, Except.map] using hm⟩
  obtain ⟨rest, hrest, -⟩ := h.rest reading
  cases hu : x.log.unread with
  | nil =>
      rw [hu] at hrest
      exact absurd (List.append_eq_nil_iff.mp hrest).1 hne
  | cons a unread =>
      obtain ⟨bytes, hbytes⟩ := h.framed a (hu ▸ List.mem_cons_self)
      have hfront {rest : Bytes} (hrest : x.link.incoming.bytes ++ rest = stream peer (a :: unread)) :=
        readFrame_front hbytes (hrest.trans (stream_cons hbytes unread)) (Prod.ext hresult rfl)
      obtain ⟨rfl, -⟩ := hfront (hu ▸ hrest)
      exact ⟨a.1, unread, rfl, rfl, fun rest hrest => (hfront hrest).2⟩

section View

variable {n : Nat} {request : Request} {before : Phase}

theorem view_setPhase (h : l.find? n = some ⟨n, request, before⟩) (phase : Phase) (log : Log) (bytes : Bytes) :
    view ⟨l.setPhase n phase, log, bytes⟩ = (view ⟨l, log, bytes⟩).stand n request phase.standing := by
  simp only [view, View.stand, Link.standing_setPhase h]
  rfl

theorem view_setPhase_of_eq (h : l.find? n = some ⟨n, request, before⟩) (phase : Phase)
    (he : phase.standing = before.standing) (log : Log) (bytes : Bytes) :
    view ⟨l.setPhase n phase, log, bytes⟩ = view ⟨l, log, bytes⟩ := by
  simp only [view, Link.standing_setPhase_of_eq h he]
  rfl

theorem view_call (h : l.find? n = some ⟨n, request, before⟩) (log : Log) (bytes : Bytes) :
    (view ⟨l, log, bytes⟩).call n = some (request, before.standing) := by
  simp [view, Link.standing, h]

theorem view_store_reply {m : Message} {id : RequestId} (h : m.requestId? = some id) (l : Link) (log : Log)
    (bytes : Bytes) :
    view ⟨l.store m, log, bytes⟩ =
      { view ⟨l, log, bytes⟩ with
        replies := Function.update (view ⟨l, log, bytes⟩).replies id (some m) } := by
  have hstore : l.store m =
      { l with
        replies := (id, m) :: l.replies.filter fun r => r.1 != id
        notices := l.notices ++ [l.conditionOf id] } := by
    cases m <;> cases h <;> rfl
  rw [hstore]
  simp only [view, lookup_store]
  rfl

theorem sends_of_outgoing {x : Exchange} {m : Message} {id : Option RequestId} (h : x.link.outgoing? n = some (m, id)) :
    ∃ request phase, x.link.find? n = some ⟨n, request, phase⟩ ∧ x.view.Sends n request m id := by
  unfold Link.outgoing? at h
  split at h
  next op id hc =>
    cases h
    have hc := Link.find?_number_eq hc
    exact ⟨_, _, hc, .perform (view_call hc _ _)⟩
  next username password hc =>
    split at h
    · cases h
    next halone =>
      cases h
      have hc := Link.find?_number_eq hc
      refine ⟨_, _, hc, .logIn (view_call hc _ _) ?_⟩
      intro k username' password' id hk
      obtain ⟨⟨number, request, phase⟩, hcall, he⟩ := Option.map_eq_some_iff.mp hk
      obtain ⟨rfl, hphase⟩ := Prod.mk.inj he
      apply halone
      apply List.any_eq_true.mpr
      refine ⟨_, Link.mem_of_find? hcall, ?_⟩
      cases phase with
      | awake | asleep => rfl
      | start | numbered | returned => cases hphase
  · cases h

theorem note_store (reading : x.link.reading = true) {incoming : Wire.Incoming} {m : Message} {answer : Nat × Message}
    {unread : List (Nat × Message)} (hu : x.log.unread = answer :: unread) :
    x.log.note listing x.link ({ x.link with incoming }.store m) .read =
      { x.log with read := x.log.read ++ [answer], unread } := by
  have hreading : ({ x.link with incoming }.store m).reading = true := (congrArg Link.reading (Link.store_eq m _)).trans reading
  simp only [Log.note, hreading, if_true, Log.hear, hu]

theorem change_of_turn (hs : Streamed peer x) {a : Step} (ha : x.allows a = true) (h : Link.Turn listing x.link a l) :
    Change listing x.view (.client a) (view ⟨l, x.log.note listing x.link l a, x.onTheWay⟩) := by
  cases h with
  | call n request =>
      change Change listing x.view _ { x.view with call := Link.standing _ }
      have hnew : x.link.standing n = none := by
        rw [Link.standing, Option.isNone_iff_eq_none.mp ha, Option.map_none]
      rw [Link.standing_call, if_pos hnew]
      exact .called hnew
  | @number n op before up =>
      rw [view_setPhase (l := { x.link with nextId := idAfter x.link.nextId }) before]
      have hlog (l : Link) : x.log.note listing x.link l (.number n) =
          { x.log with numbered := x.log.numbered ++ [(n, x.link.nextId)] } := by simp [Log.note, up]
      rw [hlog]
      exact .numbered (view_call before _ _) up
  | @refuse n op before down =>
      rw [view_setPhase before]
      simp only [Log.note, down, if_true]
      exact .refused (view_call before _ _) down
  | unencodable out unframed =>
      obtain ⟨request, phase, before, sends⟩ := sends_of_outgoing out
      rw [view_setPhase before]
      simp only [Log.note, out, unframed]
      exact .unencodable sends unframed
  | @send n m id bytes out framed =>
      obtain ⟨request, phase, before, sends⟩ := sends_of_outgoing out
      rw [view_setPhase (l := { x.link with sent := x.link.sent ++ [m] }) before]
      simp only [Log.note, out, framed]
      exact .sent sends
  | @fail n m id bytes out framed =>
      obtain ⟨request, phase, before, sends⟩ := sends_of_outgoing out
      rw [view_setPhase (l := x.link.lose) before]
      simp only [Log.note, out, framed]
      exact .failed sends
  | @take n op id reply before found =>
      rw [view_setPhase (l := { x.link with replies := x.link.replies.filter fun r => r.1 != id }) before]
      have hreplies : view ⟨{ x.link with replies := x.link.replies.filter fun r => r.1 != id }, x.log, x.onTheWay⟩ =
          { x.view with replies := Function.update x.view.replies id none } := by
        simp only [view, lookup_remove]
        rfl
      exact hreplies ▸ .taken (view_call before _ _) found
  | @welcome n username password status before found =>
      rw [view_setPhase (l := { x.link with loginReply := none, loggedIn := _ }) before]
      exact .welcomed (view_call before _ _) found
  | @giveUp n request id before nothing down =>
      rw [view_setPhase before]
      refine .gaveUp (view_call before _ _) ?_ ?_ down
      · rintro i rfl
        cases hr : x.link.replies.lookup i with
        | none => exact hr
        | some m => simp [Link.hasReply, hr] at nothing
      · rintro rfl
        exact Option.not_isSome_iff_eq_none.mp (Bool.eq_false_iff.mp nothing)
  | @sleep n request id before nothing up =>
      rw [view_setPhase_of_eq before (.asleep id) rfl]
      exact .kept
  | @wake n request id before =>
      rw [view_setPhase_of_eq before (.awake id) rfl]
      exact .kept
  | arrive bytes | hangUp => exact .kept
  | @store m incoming reading read =>
      obtain ⟨n, unread, hu, -, -⟩ := hs.first reading read
      rw [note_store reading hu]
      rcases hs.reply (n, m) (hu ▸ List.mem_cons_self) with ⟨status, rfl⟩ | ⟨id, hid⟩
      · exact .greeted hu reading
      · rw [view_store_reply hid]
        exact .heard hu hid reading
  | lose reading read =>
      exact .lost
  | @notify condition due =>
      change Change listing x.view _ { x.view with call := Link.standing _ }
      rw [Link.standing_wakeSleepers]
      exact .kept

theorem Streamed.turn (hs : Streamed peer x) {a : Step} (ha : x.allows a = true) (h : Link.Turn listing x.link a l) :
    Streamed peer ⟨l, x.log.note listing x.link l a, x.onTheWay⟩ := by
  have hkeep (hincoming : l.incoming = x.link.incoming) (hreading : l.reading = x.link.reading)
      (hunread : (x.log.note listing x.link l a).unread = x.log.unread) :
      Streamed peer ⟨l, x.log.note listing x.link l a, x.onTheWay⟩ := by
    refine ⟨?_, ?_, ?_⟩ <;> simp only [hincoming, hreading, hunread]
    · exact hs.framed
    · exact hs.reply
    · exact hs.rest
  cases h with
  | call | take | welcome | giveUp | sleep | wake | notify => exact hkeep rfl rfl rfl
  | number before up =>
      refine hkeep rfl rfl ?_
      simp only [Log.note]
      split <;> rfl
  | refuse before down =>
      refine hkeep rfl rfl ?_
      simp only [Log.note, down, if_true]
  | unencodable out framed | send out framed | fail out framed =>
      refine hkeep rfl rfl ?_
      simp only [Log.note, out, framed]
  | arrive | hangUp => cases ha
  | @store m incoming reading read =>
      obtain ⟨n, unread, hu, hended, hrest⟩ := hs.first reading read
      rw [note_store reading hu]
      have hincoming := congrArg Link.incoming (Link.store_eq m { x.link with incoming })
      have hmem (a) (ha : a ∈ unread) : a ∈ x.log.unread := hu ▸ List.mem_cons_of_mem _ ha
      refine ⟨fun a ha => hs.framed a (hmem a ha), fun a ha => hs.reply a (hmem a ha), fun _ => ?_⟩
      obtain ⟨rest, hstream, hway⟩ := hs.rest reading
      simp only [hincoming]
      exact ⟨rest, hrest rest hstream, fun he => hway (hended ▸ he)⟩
  | lose reading read => exact ⟨hs.framed, hs.reply, fun hoff => nomatch hoff⟩

theorem requestId?_of_answers {request reply : Message} (h : answers request reply = true) :
    (∃ status, reply = .authResponse status) ∨ ∃ id, request.id? = some id ∧ reply.requestId? = some id := by
  unfold answers at h
  split at h
  · exact .inl ⟨_, rfl⟩
  · obtain ⟨hid, he⟩ := Bool.and_eq_true_iff.mp h
    obtain ⟨id, hid⟩ := Option.isSome_iff_exists.mp hid
    exact .inr ⟨id, hid, (eq_of_beq he).symm.trans hid⟩

theorem step_eq_some {e : Event} (h : x.step listing peer e = some y) :
    (∃ a l, e = .client a ∧ x.allows a = true ∧ Link.Turn listing x.link a l ∧
      y = ⟨l, x.log.note listing x.link l a, x.onTheWay⟩) ∨
    (∃ n request reply bytes, e = .answer n reply ∧ (n, request) ∈ x.log.asked ∧ n ∉ x.log.given.map Prod.fst ∧
      answers request reply ∧ Wire.frame peer reply = .ok bytes ∧
      y = ⟨x.link, { x.log with unread := x.log.unread ++ [(n, reply)] }, x.onTheWay ++ bytes⟩) ∨
    (∃ count, e = .deliver count ∧ x.link.incoming.ended = false ∧
      y = ⟨{ x.link with incoming := x.link.incoming.arrive (x.onTheWay.take count) }, x.log, x.onTheWay.drop count⟩) ∨
    e = .hangUp ∧ y = ⟨{ x.link with incoming := x.link.incoming.finish }, x.log, x.onTheWay⟩ := by
  cases e with
  | client a =>
      left
      simp only [step] at h
      split at h
      next ha =>
        obtain ⟨l, hl, rfl⟩ := Option.map_eq_some_iff.mp h
        exact ⟨a, l, rfl, ha, Link.turn_of_step hl, rfl⟩
      · cases h
  | answer n reply =>
      right
      left
      simp only [step] at h
      split at h
      next request bytes hasked hframe =>
        split at h
        next hok =>
          cases h
          obtain ⟨front, back, he, -⟩ := List.lookup_eq_some_iff.mp hasked
          exact ⟨n, request, reply, bytes, rfl, by simp [he], hok.2, hok.1, hframe, rfl⟩
        · cases h
      · cases h
  | deliver count =>
      right
      right
      left
      simp only [step] at h
      split at h
      · cases h
      next hended =>
        cases h
        exact ⟨count, rfl, by simpa using hended, rfl⟩
  | hangUp =>
      cases h
      exact .inr (.inr (.inr ⟨rfl, rfl⟩))

theorem Streamed.step (hs : Streamed peer x) {e : Event} (h : x.step listing peer e = some y) : Streamed peer y := by
  rcases step_eq_some h with ⟨a, l, rfl, ha, ht, rfl⟩ |
    ⟨n, request, reply, bytes, rfl, hasked, hnew, hanswers, hframe, rfl⟩ | ⟨count, rfl, hended, rfl⟩ | ⟨rfl, rfl⟩
  · exact hs.turn ha ht
  · refine ⟨?_, ?_, ?_⟩
    · intro a ha
      rcases List.mem_append.mp ha with ha | ha
      · exact hs.framed a ha
      · cases List.mem_singleton.mp ha
        exact ⟨bytes, hframe⟩
    · intro a ha
      rcases List.mem_append.mp ha with ha | ha
      · exact hs.reply a ha
      · cases List.mem_singleton.mp ha
        rcases requestId?_of_answers hanswers with hstatus | ⟨id, -, hid⟩
        · exact .inl hstatus
        · exact .inr ⟨id, hid⟩
    · intro reading
      obtain ⟨rest, hrest, hway⟩ := hs.rest reading
      refine ⟨rest ++ bytes, ?_, fun hended => congrArg (· ++ bytes) (hway hended)⟩
      have hlast : stream peer [(n, reply)] = bytes := by simp [stream, hframe]
      rw [stream_append, ← hrest, hlast, List.append_assoc]
  · refine ⟨hs.framed, hs.reply, fun reading => ?_⟩
    obtain ⟨rest, hrest, hway⟩ := hs.rest reading
    refine ⟨x.onTheWay.drop count, ?_, fun _ => rfl⟩
    rw [← hrest, hway hended]
    simp [Wire.Incoming.arrive]
  · refine ⟨hs.framed, hs.reply, fun reading => ?_⟩
    obtain ⟨rest, hrest, -⟩ := hs.rest reading
    exact ⟨rest, hrest, fun hopen => by cases hopen⟩

theorem change_of_step (hs : Streamed peer x) {e : Event} (h : x.step listing peer e = some y) :
    Change listing x.view e y.view := by
  rcases step_eq_some h with ⟨a, l, rfl, ha, ht, rfl⟩ |
    ⟨n, request, reply, bytes, rfl, hasked, hnew, hanswers, hframe, rfl⟩ | ⟨count, rfl, hended, rfl⟩ | ⟨rfl, rfl⟩
  · exact change_of_turn hs ha ht
  · exact .answered hasked hnew hanswers
  · exact .kept
  · exact .kept

end View

end Exchange

end AwaitStore.Client
