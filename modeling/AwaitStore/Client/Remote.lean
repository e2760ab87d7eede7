import AwaitStore.Client.Link

namespace AwaitStore.Client

open Wire (Incoming Listing Message RequestId WireError)

structure Channel where
  requestListing : Listing
  replyListing : Listing
  serverLimit : Nat
  clientLimit : Nat

namespace Channel

def asked (bytes : Bytes) (ch : Channel) : Option (RequestId × Operation) :=
  match ((Incoming.empty.arrive bytes).readMessage ch.serverLimit).1 with
  | .ok (some message) => Operation.ofRequest? message
  | .ok none | .error _ => none

def answered (id : RequestId) (outcome : Outcome) (ch : Channel) : Except WireError Message := do
  let bytes ← Wire.frame ch.replyListing (outcome.reply id)
  (Wire.readFrame ch.clientLimit bytes).1

end Channel

structure Waiting where
  call : Nat
  id : RequestId
  operation : Operation

/-- A database behind a connection. Each call becomes a frame, the server reads the frame and asks its
own database, and the reply comes back as a frame. Others may ask that database at its own side. -/
structure Remote (σ : Type) where
  channel : Channel
  server : σ
  nextId : RequestId
  waiting : List Waiting
  broken : Bool

namespace Remote

variable {σ : Type} [Database σ]

omit [Database σ] in
def connect (channel : Channel) (server : σ) : Remote σ := ⟨channel, server, firstId, [], false⟩

omit [Database σ] in
def await (call : Nat) (id : RequestId) (op : Operation) (r : Remote σ) : Remote σ :=
  { r with waiting := r.waiting ++ [⟨call, id, op⟩] }

omit [Database σ] in
def lose (r : Remote σ) : Remote σ × List Return :=
  ({ r with waiting := [], broken := true }, r.waiting.map fun w => ⟨w.call, .error .connectionBroken⟩)

omit [Database σ] in
/-- What nobody waits for behind the connection was asked at the server's own side. -/
def receive (acc : Remote σ × List Return) (ret : Return) : Remote σ × List Return :=
  let (r, returns) := acc
  match r.waiting.find? fun w => w.call == ret.call with
  | none => (r, returns ++ [ret])
  | some w =>
      match r.channel.answered w.id ret.outcome with
      | .ok reply =>
          ({ r with waiting := r.waiting.filter fun w => w.call != ret.call },
            returns ++ [⟨ret.call, w.operation.outcome reply⟩])
      | .error _ =>
          let (r, lost) := r.lose
          (r, returns ++ lost)

def performThere (call : Nat) (op : Operation) (r : Remote σ) : Remote σ × List Return :=
  let (server, returns) := Database.perform call op r.server
  returns.foldl receive ({ r with server }, [])

def perform (call : Nat) (op : Operation) (r : Remote σ) : Remote σ × List Return :=
  if r.broken then (r, [⟨call, .error .connectionBroken⟩])
  else
    let id := r.nextId
    let r := { r with nextId := idAfter id }
    match Wire.frame r.channel.requestListing (op.request id) with
    | .error e => (r, [⟨call, .error (.wire e)⟩])
    | .ok bytes =>
        match r.channel.asked bytes with
        | none => (r.await call id op).lose
        | some (id, asked) => (r.await call id op).performThere call asked

instance : Database (Remote σ) := ⟨perform⟩

end Remote

end AwaitStore.Client
