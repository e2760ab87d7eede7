import AwaitStore.Proofs.Client.Exchange

namespace AwaitStore.Client

open Wire (Listing Message RequestId)

namespace Standing

def isSettled : Standing → Bool
  | .new | .numbered _ => false
  | .waiting _ | .ended _ => true

def isEnded : Standing → Bool
  | .ended _ => true
  | .new | .numbered _ | .waiting _ => false

def isFailed : Standing → Bool
  | .ended (.failed _) => true
  | _ => false

end Standing

def Log.Own (log : Log) (n : Nat) : Request → Message → Prop
  | .perform op, m => ∃ id, (n, id) ∈ log.numbered ∧ m = op.request id
  | .logIn username password, m => m = .authRequest username password

def Event.caller? : Event → Option Nat
  | .client (.call n _) | .client (.number n) | .client (.send n _) | .client (.look n) => some n
  | _ => none

namespace View

inductive Fails (listing : Listing) (events : List Event) (v : View) (n : Nat) (request : Request) : StoreError → Prop
  | broken (down : v.broken = true) : Fails listing events v n request .connectionBroken
  | unsent (down : v.broken = true) (write : .client (.send n false) ∈ events) :
      Fails listing events v n request .connectionFailed
  | unencodable {m : Message} {error : Wire.WireError} (own : v.log.Own n request m)
      (unframed : Wire.frame listing m = .error error) (unasked : ∀ m, (n, m) ∉ v.log.asked) :
      Fails listing events v n request (.wire error)

def Fits (listing : Listing) (events : List Event) (v : View) (n : Nat) (request : Request) : Standing → Prop
  | .new => (∀ id, (n, id) ∉ v.log.numbered) ∧ ∀ m, (n, m) ∉ v.log.asked
  | .numbered id => (∃ op, request = .perform op) ∧ (n, id) ∈ v.log.numbered ∧ ∀ m, (n, m) ∉ v.log.asked
  | .waiting id => ∃ m, v.log.Own n request m ∧ (n, m) ∈ v.log.asked ∧ m.id? = id
  | .ended (.outcome outcome) => ∃ op id reply, request = .perform op ∧ (n, id) ∈ v.log.numbered ∧
      (n, op.request id) ∈ v.log.asked ∧ (n, reply) ∈ v.log.read ∧ outcome = op.outcome reply
  | .ended (.status _) => ∃ username password, request = .logIn username password ∧
      (n, .authRequest username password) ∈ v.log.asked
  | .ended (.failed e) => v.Fails listing events n request e

structure Accounted (listing : Listing) (events : List Event) (v : View) (n : Nat) : Prop where
  numbered : ∀ id, (n, id) ∈ v.log.numbered → ∃ op s, v.call n = some (.perform op, s) ∧ s ≠ .new
  numbered_once : ∀ id id', (n, id) ∈ v.log.numbered → (n, id') ∈ v.log.numbered → id = id'
  asked : ∀ m, (n, m) ∈ v.log.asked → ∃ request s, v.call n = some (request, s) ∧ v.log.Own n request m ∧
    s.isSettled = true
  given : ∀ reply, (n, reply) ∈ v.log.given → ∃ m, (n, m) ∈ v.log.asked ∧ answers m reply = true
  fits : ∀ request s, v.call n = some (request, s) → v.Fits listing events n request s
  held : v.broken = false → ∀ m, (n, m) ∈ v.log.asked → ∀ request s, v.call n = some (request, s) → s.isFailed = false

structure Untouched (n : Nat) (v w : View) : Prop where
  call : w.call n = v.call n
  numbered : ∀ id, (n, id) ∈ w.log.numbered ↔ (n, id) ∈ v.log.numbered
  asked : ∀ m, (n, m) ∈ w.log.asked ↔ (n, m) ∈ v.log.asked
  read : ∀ m, (n, m) ∈ v.log.read → (n, m) ∈ w.log.read
  broken : v.broken = true → w.broken = true

end View

open View

variable {listing : Listing} {events : List Event} {e : Event} {v w : View} {n k : Nat} {request : Request}
  {s t : Standing}

theorem View.accounted_empty (hcall : ∀ n, v.call n = none) (hlog : v.log = .empty) (n : Nat) :
    v.Accounted listing events n := by
  have hnumbered (id : RequestId) : (n, id) ∉ v.log.numbered := hlog ▸ List.not_mem_nil
  have hasked (m : Message) : (n, m) ∉ v.log.asked := hlog ▸ List.not_mem_nil
  have hgiven (m : Message) : (n, m) ∉ v.log.given := hlog ▸ List.not_mem_nil
  exact {
    numbered := fun id hid => absurd hid (hnumbered id)
    numbered_once := fun id _ hid => absurd hid (hnumbered id)
    asked := fun m hm => absurd hm (hasked m)
    given := fun m hm => absurd hm (hgiven m)
    fits := fun _ _ hc => by cases (hcall n).symm.trans hc
    held := fun _ m hm => absurd hm (hasked m) }

theorem View.Untouched.own (h : Untouched n v w) {m : Message} (ho : v.log.Own n request m) :
    w.log.Own n request m := by
  cases request with
  | perform op =>
      obtain ⟨id, hid, rfl⟩ := ho
      exact ⟨id, (h.numbered id).mpr hid, rfl⟩
  | logIn username password => exact ho

theorem View.Untouched.fits (h : Untouched n v w) (hf : v.Fits listing events n request s) :
    w.Fits listing (events ++ [e]) n request s := by
  cases s with
  | new => exact ⟨fun id hid => hf.1 id ((h.numbered id).mp hid), fun m hm => hf.2 m ((h.asked m).mp hm)⟩
  | numbered id =>
      exact ⟨hf.1, (h.numbered id).mpr hf.2.1, fun m hm => hf.2.2 m ((h.asked m).mp hm)⟩
  | waiting id =>
      obtain ⟨m, ho, hm, hid⟩ := hf
      exact ⟨m, h.own ho, (h.asked m).mpr hm, hid⟩
  | ended result =>
      cases result with
      | outcome outcome =>
          obtain ⟨op, id, reply, hop, hid, hm, hreply, ho⟩ := hf
          exact ⟨op, id, reply, hop, (h.numbered id).mpr hid, (h.asked _).mpr hm, h.read _ hreply, ho⟩
      | status status =>
          obtain ⟨username, password, hop, hm⟩ := hf
          exact ⟨username, password, hop, (h.asked _).mpr hm⟩
      | failed error =>
          cases hf with
          | broken down => exact .broken (h.broken down)
          | unsent down write => exact .unsent (h.broken down) (List.mem_append_left _ write)
          | unencodable own unframed unasked =>
              exact .unencodable (h.own own) unframed fun m hm => unasked m ((h.asked m).mp hm)

theorem View.Untouched.accounted (h : Untouched n v w) (ha : v.Accounted listing events n)
    (hgiven : ∀ reply, (n, reply) ∈ w.log.given →
      (n, reply) ∈ v.log.given ∨ ∃ m, (n, m) ∈ v.log.asked ∧ answers m reply = true) :
    w.Accounted listing (events ++ [e]) n where
  numbered id hid := h.call ▸ ha.numbered id ((h.numbered id).mp hid)
  numbered_once id id' hid hid' := ha.numbered_once id id' ((h.numbered id).mp hid) ((h.numbered id').mp hid')
  asked m hm := by
    obtain ⟨request, s, hcall, hown, hs⟩ := ha.asked m ((h.asked m).mp hm)
    exact ⟨request, s, h.call ▸ hcall, h.own hown, hs⟩
  given reply hreply := by
    obtain ⟨m, hm, hanswers⟩ := (hgiven reply hreply).elim (ha.given reply) id
    exact ⟨m, (h.asked m).mpr hm, hanswers⟩
  fits request s hcall := h.fits (ha.fits request s (h.call ▸ hcall))
  held hup m hm request s hcall := by
    have hup : v.broken = false := by
      cases hb : v.broken with
      | false => rfl
      | true => exact absurd (h.broken hb) (by simp [hup])
    exact ha.held hup m ((h.asked m).mp hm) request s (h.call ▸ hcall)

theorem View.Accounted.advance (h : v.Accounted listing events n) (before : v.call n = some (request, s))
    (hlog : w.log = v.log) (hcall : w.call n = some (request, t)) (ht : t.isSettled = true)
    (fits : w.Fits listing (events ++ [e]) n request t)
    (held : w.broken = false → ∀ m, (n, m) ∈ v.log.asked → t.isFailed = false) :
    w.Accounted listing (events ++ [e]) n where
  numbered id hid := by
    obtain ⟨op, s', hop, -⟩ := h.numbered id (hlog ▸ hid)
    obtain ⟨rfl, rfl⟩ := Prod.mk.inj (Option.some.inj (before.symm.trans hop))
    exact ⟨op, t, hcall, fun hnew => by simp [hnew, Standing.isSettled] at ht⟩
  numbered_once id id' hid hid' := h.numbered_once id id' (hlog ▸ hid) (hlog ▸ hid')
  asked m hm := by
    obtain ⟨request', s', hop, hown, -⟩ := h.asked m (hlog ▸ hm)
    obtain ⟨rfl, rfl⟩ := Prod.mk.inj (Option.some.inj (before.symm.trans hop))
    exact ⟨request, t, hcall, hlog ▸ hown, ht⟩
  given reply hreply := hlog ▸ h.given reply (hlog ▸ hreply)
  fits request' s' he := by
    obtain ⟨rfl, rfl⟩ := Prod.mk.inj (Option.some.inj (hcall.symm.trans he))
    exact fits
  held hup m hm request' s' he := by
    obtain ⟨rfl, rfl⟩ := Prod.mk.inj (Option.some.inj (hcall.symm.trans he))
    exact held hup m (hlog ▸ hm)

theorem View.Untouched.of_eq (hcall : w.call = v.call) (hlog : w.log = v.log) (hb : v.broken = true → w.broken = true) :
    Untouched n v w :=
  ⟨congrFun hcall n, fun _ => hlog ▸ Iff.rfl, fun _ => hlog ▸ Iff.rfl, fun _ hm => hlog ▸ hm, hb⟩

theorem View.Untouched.stand {u : View} (h : Untouched n v u) (hne : n ≠ k) (request : Request) (s : Standing) :
    Untouched n v (u.stand k request s) :=
  ⟨(Function.update_of_ne hne _ _).trans h.call, h.numbered, h.asked, h.read, h.broken⟩

theorem View.Untouched.number (hne : n ≠ k) (nextId id : RequestId) :
    Untouched n v { v with nextId, log := { v.log with numbered := v.log.numbered ++ [(k, id)] } } :=
  ⟨rfl, by simp [hne], fun _ => Iff.rfl, fun _ hm => hm, fun hb => hb⟩

theorem View.Untouched.ask (hne : n ≠ k) (m : Message) (prompt : List Nat) (broken failed : Bool)
    (hb : v.broken = true → broken = true) :
    Untouched n v { v with broken, log := { v.log with asked := v.log.asked ++ [(k, m)], prompt, failed } } :=
  ⟨rfl, fun _ => Iff.rfl, by simp [hne], fun _ => id, hb⟩

theorem View.Accounted.sends (h : v.Accounted listing events n) {m : Message} {id : Option RequestId}
    (hs : v.Sends n request m id) :
    (∃ s, v.call n = some (request, s) ∧ s.isEnded = false) ∧ v.log.Own n request m ∧
      (∀ m, (n, m) ∉ v.log.asked) ∧ m.id? = id := by
  cases hs with
  | @perform op id before =>
      obtain ⟨-, hid, hasked⟩ := h.fits _ _ before
      exact ⟨⟨_, before, rfl⟩, ⟨id, hid, rfl⟩, hasked, by cases op <;> rfl⟩
  | logIn before alone =>
      obtain ⟨-, hasked⟩ := h.fits _ _ before
      exact ⟨⟨_, before, rfl⟩, rfl, hasked, rfl⟩

theorem View.Accounted.notMem_read (h : v.Accounted listing events n) (hn : ∀ m, (n, m) ∉ v.log.asked) (m : Message) :
    (n, m) ∉ v.log.read := by
  intro hm
  obtain ⟨q, hq, -⟩ := h.given m (List.mem_append_left _ hm)
  exact hn q hq

theorem View.Accounted.called (h : v.Accounted listing events n) (before : v.call n = none) (request : Request) :
    (v.stand n request .new).Accounted listing (events ++ [e]) n := by
  have hnumbered (id : RequestId) : (n, id) ∉ v.log.numbered := fun hid => by
    obtain ⟨op, s, hcall, -⟩ := h.numbered id hid
    cases before.symm.trans hcall
  have hasked (m : Message) : (n, m) ∉ v.log.asked := fun hm => by
    obtain ⟨request, s, hcall, -⟩ := h.asked m hm
    cases before.symm.trans hcall
  constructor
  · exact fun id hid => absurd hid (hnumbered id)
  · exact fun id _ hid => absurd hid (hnumbered id)
  · exact fun m hm => absurd hm (hasked m)
  · exact h.given
  · intro request' s he
    cases (Function.update_self n _ v.call).symm.trans he
    exact ⟨hnumbered, hasked⟩
  · exact fun _ m hm => absurd hm (hasked m)

theorem View.Accounted.number (h : v.Accounted listing events n) {op : Operation}
    (before : v.call n = some (.perform op, .new)) (nextId id : RequestId) :
    ({ v with nextId, log := { v.log with numbered := v.log.numbered ++ [(n, id)] } }.stand n (.perform op)
      (.numbered id)).Accounted listing (events ++ [e]) n := by
  obtain ⟨hnumbered, hasked⟩ := h.fits _ _ before
  have hmem (i : RequestId) (hi : (n, i) ∈ v.log.numbered ++ [(n, id)]) : i = id := by
    simpa [hnumbered i] using hi
  constructor
  · exact fun i hi => ⟨op, .numbered id, Function.update_self n _ v.call, nofun⟩
  · exact fun i i' hi hi' => (hmem i hi).trans (hmem i' hi').symm
  · exact fun m hm => absurd hm (hasked m)
  · exact h.given
  · intro request s he
    cases (Function.update_self n _ v.call).symm.trans he
    exact ⟨⟨op, rfl⟩, List.mem_append_right _ (List.mem_singleton.mpr rfl), hasked⟩
  · exact fun _ m hm => absurd hm (hasked m)

theorem View.Accounted.ask (h : v.Accounted listing events n) {m : Message} {id : Option RequestId}
    (hs : v.Sends n request m id) (prompt : List Nat) (broken failed : Bool) (ht : t.isSettled = true)
    (fits : ({ v with broken, log := { v.log with asked := v.log.asked ++ [(n, m)], prompt, failed } }.stand n request t).Fits
      listing (events ++ [e]) n request t) (held : broken = false → t.isFailed = false) :
    ({ v with broken, log := { v.log with asked := v.log.asked ++ [(n, m)], prompt, failed } }.stand n request t).Accounted
      listing (events ++ [e]) n := by
  obtain ⟨⟨s, before, -⟩, hown, hasked, hid⟩ := h.sends hs
  have hmem (q : Message) (hq : (n, q) ∈ v.log.asked ++ [(n, m)]) : q = m := by
    simpa [hasked q] using hq
  have hself : Function.update v.call n (some (request, t)) n = some (request, t) := Function.update_self n _ v.call
  constructor
  · intro i hi
    obtain ⟨op, s', hcall, -⟩ := h.numbered i hi
    cases before.symm.trans hcall
    exact ⟨op, t, hself, fun hnew => by simp [hnew, Standing.isSettled] at ht⟩
  · exact h.numbered_once
  · exact fun q hq => ⟨request, t, hself, (hmem q hq).symm ▸ hown, ht⟩
  · intro reply hreply
    obtain ⟨q, hq, hanswers⟩ := h.given reply hreply
    exact absurd hq (hasked q)
  · intro request' s' he
    cases hself.symm.trans he
    exact fits
  · intro hup q hq request' s' he
    cases hself.symm.trans he
    exact held hup

theorem View.Accounted.fail (h : v.Accounted listing events n) (before : v.call n = some (request, s))
    (down : v.broken = true) :
    (v.stand n request (.ended (.failed .connectionBroken))).Accounted listing (events ++ [e]) n := by
  refine h.advance (w := v.stand n request _) before rfl (Function.update_self ..) rfl (.broken down) fun hup => ?_
  cases down.symm.trans hup

theorem View.Untouched.refl (n : Nat) (v : View) : Untouched n v v := .of_eq rfl rfl fun hb => hb

theorem Change.untouched (hc : Change listing v e w) (hne : e.caller? ≠ some n) : Untouched n v w := by
  have hother {k : Nat} (hk : some k ≠ some n) : n ≠ k := fun he => hk (congrArg some he.symm)
  cases hc with
  | kept => exact .refl n v
  | called | refused | unencodable | gaveUp => exact (Untouched.refl n v).stand (hother hne) _ _
  | numbered => exact (Untouched.number (hother hne) _ _).stand (hother hne) _ _
  | sent => exact (Untouched.ask (hother hne) _ _ _ _ fun hb => hb).stand (hother hne) _ _
  | failed => exact (Untouched.ask (hother hne) _ _ _ _ fun _ => rfl).stand (hother hne) _ _
  | @taken k op id reply =>
      have hu : Untouched n v { v with replies := Function.update v.replies id none } := .of_eq rfl rfl fun hb => hb
      exact hu.stand (hother hne) _ _
  | welcomed =>
      have hu : Untouched n v { v with loginReply := none } := .of_eq rfl rfl fun hb => hb
      exact hu.stand (hother hne) _ _
  | heard | greeted =>
      exact ⟨rfl, fun _ => Iff.rfl, fun _ => Iff.rfl, fun _ hm => List.mem_append_left _ hm, fun hb => hb⟩
  | lost => exact .of_eq rfl rfl fun _ => rfl
  | answered => exact ⟨rfl, fun _ => Iff.rfl, fun _ => Iff.rfl, fun _ hm => hm, fun hb => hb⟩

theorem Change.given (hc : Change listing v e w) {reply : Message} (h : (n, reply) ∈ w.log.given) :
    (n, reply) ∈ v.log.given ∨ ∃ m, (n, m) ∈ v.log.asked ∧ answers m reply = true := by
  cases hc with
  | kept | called | numbered | refused | unencodable | sent | failed | taken | welcomed | gaveUp | lost => exact .inl h
  | heard first | greeted first =>
      left
      simpa [Log.given, first] using h
  | @answered k m reply asked once answer =>
      rw [Log.given, ← List.append_assoc] at h
      rcases List.mem_append.mp h with h | h
      · exact .inl h
      · cases List.mem_singleton.mp h
        exact .inr ⟨m, asked, answer⟩

/-- Each event keeps the record of each call, if a reply that a caller finds is the answer to its request. -/
theorem accounted_change (h : ∀ n, v.Accounted listing events n) (hc : Change listing v e w)
    (hfound : ∀ n op id reply, v.call n = some (.perform op, .waiting (some id)) → v.replies id = some reply →
      (n, reply) ∈ v.log.read) (n : Nat) : w.Accounted listing (events ++ [e]) n := by
  by_cases hn : e.caller? = some n
  · cases hc with
    | kept => exact (Untouched.refl n v).accounted (h n) fun _ => .inl
    | called before =>
        cases hn
        exact (h n).called before _
    | numbered before =>
        cases hn
        exact (h n).number before _ _
    | refused before down | gaveUp before _ _ down =>
        cases hn
        exact (h n).fail before down
    | unencodable sends unframed =>
        cases hn
        obtain ⟨⟨s, before, -⟩, hown, hasked, -⟩ := (h n).sends sends
        exact (h n).advance before rfl (Function.update_self ..) rfl (.unencodable hown unframed hasked)
          fun _ m hm => absurd hm (hasked m)
    | @sent k request m id sends =>
        cases hn
        obtain ⟨-, hown, -, hid⟩ := (h n).sends sends
        exact (h n).ask sends _ v.broken v.log.failed rfl
          ⟨m, hown, List.mem_append_right _ (List.mem_singleton.mpr rfl), hid⟩ fun _ => rfl
    | failed sends =>
        cases hn
        refine (h n).ask sends _ true true rfl (.unsent rfl (List.mem_append_right _ (List.mem_singleton.mpr rfl))) ?_
        exact fun hup => by cases hup
    | @taken k op id reply before found =>
        cases hn
        obtain ⟨m, ⟨i, hi, rfl⟩, hasked, -⟩ := (h n).fits _ _ before
        exact (h n).advance before rfl (Function.update_self ..) rfl
          ⟨op, i, reply, rfl, hi, hasked, hfound n op id reply before found, rfl⟩ fun _ _ _ => rfl
    | @welcomed k username password status before =>
        cases hn
        obtain ⟨m, rfl, hasked, -⟩ := (h n).fits _ _ before
        exact (h n).advance before rfl (Function.update_self ..) rfl ⟨username, password, rfl, hasked⟩ fun _ _ _ => rfl
    | heard | greeted | lost | answered => cases hn
  · exact (hc.untouched hn).accounted (h n) fun _ => hc.given

end AwaitStore.Client
