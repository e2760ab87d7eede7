import AwaitStore.Server.Outlet

namespace AwaitStore.Server.Outlet

variable {o p : Outlet}

theorem sent_send (m : Wire.Message) (o : Outlet) : (o.send m).sent = o.sent ++ [m] := by
  cases o <;> simp [send, sent, outbox, lost]

theorem outbox_send (m : Wire.Message) (o : Outlet) :
    (o.send m).outbox = if o.isWriting then o.outbox ++ [m] else o.outbox := by
  cases o <;> simp [send, outbox, isWriting]

@[simp] theorem isWriting_send (m : Wire.Message) (o : Outlet) : (o.send m).isWriting = o.isWriting := by
  cases o <;> rfl

theorem lost_of_isWriting (h : o.isWriting = true) : o.lost = [] := by
  cases o with
  | writing => rfl
  | stopped => cases h

/-- The writer stops at a message that does not fit in a frame, or because the stream takes no more. -/
inductive Fails (o : Outlet) : Step → Prop
  | unframed {message : Wire.Message} {rest : List Wire.Message} {e : Wire.WireError}
      (next : o.queued = message :: rest) (frame : Wire.frame .ascending message = .error e) : Fails o .write
  | brokenOff : Fails o .breakOff

theorem step_eq_some {a : Step} (h : o.step a = some p) :
    o.isWriting = true ∧ p.outbox = o.outbox ∧ p.lost = o.lost ∧ (p.isWriting = false → o.Fails a) := by
  cases o with
  | stopped => cases h
  | writing flushed written queued =>
      refine ⟨rfl, ?_⟩
      cases a with
      | write =>
          cases queued with
          | nil => cases h
          | cons message queued =>
              simp only [step] at h
              split at h
              next =>
                cases h
                exact ⟨by simp [outbox], rfl, nofun⟩
              next hf =>
                cases h
                exact ⟨rfl, rfl, fun _ => .unframed rfl hf⟩
      | flush =>
          simp only [step] at h
          split at h
          · cases h
          next hq =>
            cases h
            rw [Bool.or_eq_true, not_or] at hq
            obtain rfl : queued = [] := by simpa using hq.2
            exact ⟨by simp [outbox], rfl, nofun⟩
      | breakOff =>
          simp only [step] at h
          split at h
          · cases h
          · cases h
            exact ⟨rfl, rfl, fun _ => .brokenOff⟩

theorem sent_step {a : Step} (h : o.step a = some p) : p.sent = o.sent := by
  obtain ⟨-, houtbox, hlost, -⟩ := step_eq_some h
  rw [sent, houtbox, hlost, sent]

end AwaitStore.Server.Outlet
