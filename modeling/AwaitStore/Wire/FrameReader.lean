import AwaitStore.Wire.Frame

namespace AwaitStore.Wire

/-- `arriving` are the pieces still to come, in order; after the last one the stream ends. -/
structure FrameReader where
  limit : Nat
  buffered : Bytes
  arriving : List Bytes

namespace FrameReader

def ofPieces (limit : Nat) (pieces : List Bytes) : FrameReader := ⟨limit, [], pieces⟩

def unread (r : FrameReader) : Bytes := r.buffered ++ r.arriving.flatten

def fill (r : FrameReader) : FrameReader :=
  match r.buffered with
  | _ :: _ => r
  | [] =>
      match r.arriving.dropWhile List.isEmpty with
      | [] => ⟨r.limit, [], []⟩
      | piece :: rest => ⟨r.limit, piece, rest⟩

def takeFrom (n : Nat) : Bytes → List Bytes → Option Bytes × Bytes × List Bytes
  | buffered, [] =>
      let (front, rest) := buffered.splitAt n
      if front.length = n then (some front, rest, []) else (none, [], [])
  | buffered, piece :: arriving =>
      let (front, rest) := buffered.splitAt n
      if front.length = n then (some front, rest, piece :: arriving)
      else
        match takeFrom (n - front.length) piece arriving with
        | (some more, rest, arriving) => (some (front ++ more), rest, arriving)
        | (none, rest, arriving) => (none, rest, arriving)

def take (n : Nat) (r : FrameReader) : Option Bytes × FrameReader :=
  let (front, buffered, arriving) := takeFrom n r.buffered r.arriving
  (front, ⟨r.limit, buffered, arriving⟩)

/-- The next message, `none` if the stream ends between two frames. -/
def readMessage (r : FrameReader) : Except WireError (Option Message) × FrameReader :=
  let r := r.fill
  if r.buffered.isEmpty then (.ok none, r)
  else
    match r.take headerLength with
    | (some [b₃, b₂, b₁, b₀], r) =>
        let length := (ofWord32 b₃ b₂ b₁ b₀).toNat
        match checkLength length r.limit with
        | .error e => (.error e, r)
        | .ok () =>
            match r.take length with
            | (some body, r) => ((decode body).map some, r)
            | (none, r) => (.error .endOfStream, r)
    | (_, r) => (.error .endOfStream, r)

/-- Whether the peer has closed the stream and left nothing to read. No byte is consumed, and while
there are unread bytes the answer stays open. -/
def closed (r : FrameReader) : Bool × FrameReader :=
  let r := r.fill
  (r.buffered.isEmpty, r)

end FrameReader

end AwaitStore.Wire
