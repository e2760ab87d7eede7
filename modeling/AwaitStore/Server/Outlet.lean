import AwaitStore.Wire.Frame

namespace AwaitStore.Server

open Wire (Message)

inductive Outlet where
  /-- What has been flushed, what is written and not flushed yet, and what is still to be written. -/
  | writing (flushed written queued : List Message)
  /-- A write has failed. The writer is gone, and with it whoever could receive what is sent now. -/
  | stopped (outbox lost : List Message)

namespace Outlet

def new : Outlet := writing [] [] []

def outbox : Outlet → List Message
  | writing flushed written queued => flushed ++ written ++ queued
  | stopped outbox _ => outbox

def lost : Outlet → List Message
  | writing .. => []
  | stopped _ lost => lost

def written : Outlet → List Message
  | writing _ written _ => written
  | stopped .. => []

def queued : Outlet → List Message
  | writing _ _ queued => queued
  | stopped .. => []

def isWriting : Outlet → Bool
  | writing .. => true
  | stopped .. => false

def sent (o : Outlet) : List Message := o.outbox ++ o.lost

def send (message : Message) : Outlet → Outlet
  | writing flushed written queued => writing flushed written (queued ++ [message])
  | stopped outbox lost => stopped outbox (lost ++ [message])

def stop (o : Outlet) : Outlet := stopped o.outbox o.lost

inductive Step where
  /-- The writer takes the next message. One that does not fit in a frame stops it. -/
  | write
  | flush
  | breakOff
  deriving DecidableEq

def step (o : Outlet) (a : Step) : Option Outlet :=
  match o with
  | stopped .. => none
  | writing flushed written queued =>
      match a with
      | .write =>
          match queued with
          | [] => none
          | message :: rest =>
              match Wire.frame .ascending message with
              | .ok _ => some (writing flushed (written ++ [message]) rest)
              | .error _ => some o.stop
      | .flush => if written.isEmpty || !queued.isEmpty then none else some (writing (flushed ++ written) [] [])
      | .breakOff => if written.isEmpty && queued.isEmpty then none else some o.stop

/-- No step looks at what is over. -/
def forget : Outlet → Outlet
  | writing _ written queued => writing [] written queued
  | stopped .. => stopped [] []

end Outlet

end AwaitStore.Server
