import AwaitStore.Proofs.Client.Logins

namespace AwaitStore.Client

open Wire (Listing Message RequestId)

namespace View

/-- What has become of a call that waited for the reply to its operation while this much was read. -/
inductive Fate (earlier : Log) (v : View) (n : Nat) (op : Operation) (id : RequestId) : Prop
  | waiting (call : v.call n = some (.perform op, .waiting (some id)))
  | returned {reply : Message} (read : (n, reply) ∈ v.log.read)
      (call : v.call n = some (.perform op, .ended (.outcome (op.outcome reply))))
  | gaveUp (unread : ∀ reply, (n, reply) ∉ earlier.read) (down : v.broken = true)
      (call : v.call n = some (.perform op, .ended (.failed .connectionBroken)))

end View

variable {listing : Listing} {events : List Event} {e : Event} {v w : View} {n k : Nat} {op : Operation}
  {id : RequestId} {request : Request} {s t : Standing}

inductive Moves (v w : View) (n : Nat) : Prop
  | new (before : v.call n = none)
  | on {request : Request} {s : Standing} (before : v.call n = some (request, s)) (unended : s.isEnded = false)
      (waiting : ∀ id, s ≠ .waiting (some id))
  | taken {op : Operation} {id : RequestId} {reply : Message}
      (before : v.call n = some (.perform op, .waiting (some id))) (found : v.replies id = some reply)
      (after : w.call n = some (.perform op, .ended (.outcome (op.outcome reply))))
  | gaveUp {request : Request} {id : RequestId} (before : v.call n = some (request, .waiting (some id)))
      (nothing : v.replies id = none) (down : v.broken = true)
      (after : w.call n = some (request, .ended (.failed .connectionBroken)))

theorem Change.moves (hc : Change listing v e w) (n : Nat) : w.call n = v.call n ∨ Moves v w n := by
  by_cases hn : e.caller? = some n
  · cases hc with
    | kept => exact .inl rfl
    | called before =>
        cases hn
        exact .inr (.new before)
    | numbered before | refused before =>
        cases hn
        exact .inr (.on (s := .new) before rfl (by simp))
    | unencodable sends | sent sends | failed sends =>
        cases hn
        cases sends with
        | perform before => exact .inr (.on (s := .numbered _) before rfl (by simp))
        | logIn before => exact .inr (.on (s := .new) before rfl (by simp))
    | taken before found =>
        cases hn
        exact .inr (.taken before found (Function.update_self n _ v.call))
    | welcomed before =>
        cases hn
        exact .inr (.on (s := .waiting none) before rfl (by simp))
    | @gaveUp k request id before nothing quiet down =>
        cases hn
        cases id with
        | none => exact .inr (.on before rfl (by simp))
        | some id => exact .inr (.gaveUp before (nothing id rfl) down (Function.update_self n _ v.call))
    | heard | greeted | lost | answered => cases hn
  · exact .inl (hc.untouched hn).call

theorem Change.read_subset (hc : Change listing v e w) : v.log.read ⊆ w.log.read := by
  cases hc with
  | kept | called | numbered | refused | unencodable | sent | failed | taken | welcomed | gaveUp | lost | answered =>
      exact List.Subset.refl _
  | heard | greeted => exact List.subset_append_left _ _

theorem Change.broken_of_broken (hc : Change listing v e w) (h : v.broken = true) : w.broken = true := by
  cases hc with
  | kept | called | numbered | refused | unencodable | sent | taken | welcomed | gaveUp | heard | greeted | answered =>
      exact h
  | failed | lost => rfl

theorem ended_change (hc : Change listing v e w) (h : v.call n = some (request, s)) (hs : s.isEnded = true) :
    w.call n = some (request, s) := by
  have hended {s' : Standing} {request' : Request} (before : v.call n = some (request', s')) : s'.isEnded = true := by
    obtain ⟨-, rfl⟩ := Prod.mk.inj (Option.some.inj (h.symm.trans before))
    exact hs
  rcases hc.moves n with hkeep | hmoves
  · exact hkeep.trans h
  · cases hmoves with
    | new before => cases before.symm.trans h
    | on before unended => cases unended.symm.trans (hended before)
    | taken before | gaveUp before => cases hended before

theorem fate_change {earlier : Log} (h : v.Fate earlier n op id) (hearlier : earlier.read ⊆ v.log.read)
    (ha : ∀ n, v.Accounted listing events n) (hr : v.Routed) (hc : Change listing v e w) : w.Fate earlier n op id := by
  cases h with
  | waiting call =>
      rcases hc.moves n with hkeep | hmoves
      · exact .waiting (hkeep.trans call)
      · cases hmoves with
        | new before => cases before.symm.trans call
        | on before _ hwaiting =>
            obtain ⟨-, rfl⟩ := Prod.mk.inj (Option.some.inj (before.symm.trans call))
            exact absurd rfl (hwaiting id)
        | taken before found after =>
            cases call.symm.trans before
            exact .returned (hc.read_subset (hr.mem_read ha call found)) after
        | gaveUp before nothing down after =>
            cases call.symm.trans before
            obtain ⟨i, hi, hid⟩ := (ha n).waiting call
            cases hi
            refine .gaveUp (fun reply hreply => ?_) (hc.broken_of_broken down) after
            cases nothing.symm.trans (hr.found n _ id reply call hid (hearlier hreply))
  | returned read call => exact .returned (hc.read_subset read) (ended_change hc call rfl)
  | gaveUp unread down call => exact .gaveUp unread (hc.broken_of_broken down) (ended_change hc call rfl)

theorem asked_once_change (h : (v.log.asked.map Prod.fst).Nodup) (ha : ∀ n, v.Accounted listing events n)
    (hc : Change listing v e w) : (w.log.asked.map Prod.fst).Nodup := by
  have hask {n : Nat} {request : Request} {m : Message} {id : Option RequestId} (sends : v.Sends n request m id) :
      ((v.log.asked ++ [(n, m)]).map Prod.fst).Nodup := by
    obtain ⟨-, -, hasked, -⟩ := (ha n).sends sends
    rw [List.map_append]
    refine List.nodup_append.mpr ⟨h, List.nodup_singleton _, fun k hk k' hk' he => ?_⟩
    obtain rfl : k' = n := List.mem_singleton.mp hk'
    obtain ⟨⟨k, q⟩, hq, rfl⟩ := List.mem_map.mp hk
    exact hasked q (he ▸ hq)
  cases hc with
  | kept | called | numbered | refused | unencodable | taken | welcomed | gaveUp | heard | greeted | lost | answered =>
      exact h
  | sent sends | failed sends => exact hask sends

end AwaitStore.Client
