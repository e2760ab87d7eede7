import AwaitStore.Wire.Frame

namespace AwaitStore.Wire

def writeFrame (listing : Listing) (m : Message) (stream : Bytes) : Except WireError Unit × Bytes :=
  match frame listing m with
  | .ok f => (.ok (), stream ++ f)
  | .error e => (.error e, stream)

/-- May keep bytes back for a while, and hands them on from the front, in portions of any size. -/
structure FrameWriter where
  sent : Bytes
  buffered : Bytes

namespace FrameWriter

def new : FrameWriter := ⟨[], []⟩

def written (w : FrameWriter) : Bytes := w.sent ++ w.buffered

def writeMessage (listing : Listing) (m : Message) (w : FrameWriter) : Except WireError Unit × FrameWriter :=
  let (result, buffered) := writeFrame listing m w.buffered
  (result, { w with buffered })

def handOn (n : Nat) (w : FrameWriter) : FrameWriter := ⟨w.sent ++ w.buffered.take n, w.buffered.drop n⟩

def flush (w : FrameWriter) : FrameWriter := w.handOn w.buffered.length

end FrameWriter

end AwaitStore.Wire
