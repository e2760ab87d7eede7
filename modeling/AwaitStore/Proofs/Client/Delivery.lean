import AwaitStore.Proofs.Client.Fates
import AwaitStore.Proofs.Client.Rest
import Mathlib.Data.List.Induction

namespace AwaitStore.Client

open Wire (Listing Message RequestId)

def Event.isOwn : Event → Bool
  | .client a => a.isOwn
  | .answer .. | .deliver _ | .hangUp => false

namespace Exchange

variable {listing peer : Listing} {x y z : Exchange} {l : Link} {events : List Event} {e : Event}
  {n conditions : Nat} {op : Operation} {id : RequestId}

/-- Along the run fewer ids are handed out than there are while a call goes on. -/
def KeepsRoom (listing peer : Listing) (x : Exchange) (events : List Event) : Prop :=
  ∀ front back y, events = front ++ back → x.run listing peer front = some y → y.view.Roomy

theorem KeepsRoom.of_append {more : List Event} (h : x.KeepsRoom listing peer (events ++ more)) :
    x.KeepsRoom listing peer events := by
  rintro front back y rfl hr
  exact h front (back ++ more) y (List.append_assoc ..) hr

theorem KeepsRoom.roomy (h : x.KeepsRoom listing peer events) (hr : x.run listing peer events = some y) :
    y.view.Roomy :=
  h events [] y (List.append_nil events).symm hr

section Numbered

theorem length_numbered_note (log : Log) (l next : Link) (a : Step) :
    (log.note listing l next a).numbered.length ≤ log.numbered.length + 1 := by
  cases a with
  | number n =>
      rw [Log.note]
      split <;> simp
  | send n written =>
      rw [Log.note]
      split
      · exact Nat.le_succ _
      · split <;> exact Nat.le_succ _
  | read =>
      rw [Log.note]
      split
      · rw [Log.hear]
        split <;> exact Nat.le_succ _
      · exact Nat.le_succ _
  | call | look | wake | arrive | hangUp | notify => exact Nat.le_succ _

theorem length_numbered_run (h : x.run listing peer events = some y) :
    y.log.numbered.length ≤ x.log.numbered.length + events.length := by
  induction events using List.reverseRecOn generalizing y with
  | nil =>
      cases h
      exact Nat.le_refl _
  | append_singleton events e ih =>
      obtain ⟨z, hz, hs⟩ := run_snoc.mp h
      have hle := ih hz
      have hstep : y.log.numbered.length ≤ z.log.numbered.length + 1 := by
        rcases step_eq_some hs with ⟨a, l, rfl, ha, ht, rfl⟩ | ⟨n, request, reply, bytes, rfl, -, -, -, -, rfl⟩ |
          ⟨count, rfl, -, rfl⟩ | ⟨rfl, rfl⟩
        · exact length_numbered_note _ _ _ _
        · exact Nat.le_succ _
        · exact Nat.le_succ _
        · exact Nat.le_succ _
      rw [List.length_append, List.length_singleton]
      omega

theorem keepsRoom_of_length_le (h : events.length ≤ 2147483647) : (connect l).KeepsRoom listing peer events := by
  rintro first rest y rfl hr front n id back he -
  have hlength := length_numbered_run hr
  have hnone : (connect l).log.numbered.length = 0 := rfl
  have hnumbered : y.log.numbered = front ++ (n, id) :: back := he
  rw [hnumbered, hnone, List.length_append, List.length_cons] at hlength
  rw [List.length_append] at h
  omega

end Numbered

structure Sound (listing peer : Listing) (events : List Event) (x : Exchange) : Prop where
  streamed : Streamed peer x
  accounted : ∀ n, x.view.Accounted listing events n
  asked_once : (x.log.asked.map Prod.fst).Nodup
  routed : x.view.Routed
  greeted : x.view.Greeted
  watched : x.link.Watched
  numbers : x.link.numbers.Nodup
  stopped : x.link.reading = false → x.link.broken = true

theorem sound_connect (h : Link.connect true conditions = .ok l) : (connect l).Sound listing peer [] := by
  simp only [Link.connect] at h
  split at h
  · cases h
  next hpositive =>
    cases h
    generalize hl : Link.mk .. = l
    have hcall (n : Nat) : l.standing n = none := hl ▸ rfl
    exact {
      streamed := ⟨List.forall_mem_nil _, List.forall_mem_nil _, fun _ => ⟨[], hl ▸ rfl, fun _ => rfl⟩⟩
      accounted := View.accounted_empty hcall rfl
      asked_once := List.nodup_nil
      routed := View.routed_empty rfl (hl ▸ rfl) (fun _ => hl ▸ rfl) hcall
      greeted := View.greeted_empty rfl (hl ▸ rfl) (hl ▸ rfl) hcall
      watched := by
        refine ⟨hl ▸ Nat.pos_of_ne_zero fun he => hpositive (.inl he), fun n c id hc => ?_⟩
        have hnone : l.find? n = none := hl ▸ rfl
        cases hnone.symm.trans hc
      numbers := hl ▸ List.nodup_nil
      stopped := fun hoff => by
        rw [← hl] at hoff
        cases hoff }

theorem link_of_step (h : x.step listing peer e = some y) :
    y.link = x.link ∨
      ∃ a, Link.Turn listing x.link a y.link ∧ ∀ n request, a = .call n request → x.link.find? n = none := by
  rcases step_eq_some h with ⟨a, l, rfl, ha, ht, rfl⟩ | ⟨n, request, reply, bytes, rfl, -, -, -, -, rfl⟩ |
    ⟨count, rfl, -, rfl⟩ | ⟨rfl, rfl⟩
  · refine .inr ⟨a, ht, ?_⟩
    rintro n request rfl
    exact Option.isNone_iff_eq_none.mp ha
  · exact .inl rfl
  · exact .inr ⟨_, .arrive _, fun _ _ he => nomatch he⟩
  · exact .inr ⟨_, .hangUp, fun _ _ he => nomatch he⟩

theorem stopped_turn {k : Link} {a : Step} (h : l.reading = false → l.broken = true) (ht : Link.Turn listing l a k) :
    k.reading = false → k.broken = true := by
  cases ht with
  | call | number | refuse | unencodable | send | take | welcome | giveUp | sleep | wake | arrive | hangUp | notify =>
      exact h
  | fail | lose => exact fun _ => rfl
  | @store m incoming reading =>
      intro hoff
      cases reading.symm.trans ((congrArg Link.reading (Link.store_eq m { l with incoming })).symm.trans hoff)

theorem Sound.step (h : x.Sound listing peer events) (hs : x.step listing peer e = some y) (hroom : y.view.Roomy) :
    y.Sound listing peer (events ++ [e]) := by
  have hc := change_of_step h.streamed hs
  refine ⟨h.streamed.step hs, accounted_change h.accounted hc fun n op id reply hcall hreply =>
      h.routed.mem_read h.accounted hcall hreply,
    asked_once_change h.asked_once h.accounted hc, routed_change h.routed h.accounted hc hroom,
    greeted_change h.greeted h.accounted h.routed hc, ?_, ?_, ?_⟩
  all_goals rcases link_of_step hs with hlink | ⟨a, ht, hnew⟩
  · exact hlink ▸ h.watched
  · exact h.watched.turn ht
  · exact hlink ▸ h.numbers
  · exact Link.nodup_numbers_turn h.numbers ht hnew
  · exact hlink ▸ h.stopped
  · exact stopped_turn h.stopped ht

theorem sound_run (hl : Link.connect true conditions = .ok l) (hr : (connect l).run listing peer events = some y)
    (hroom : (connect l).KeepsRoom listing peer events) : y.Sound listing peer events := by
  induction events using List.reverseRecOn generalizing y with
  | nil =>
      cases hr
      exact sound_connect hl
  | append_singleton events e ih =>
      obtain ⟨x, hx, hs⟩ := run_snoc.mp hr
      exact (ih hx hroom.of_append).step hs (hroom.roomy hr)

/-- What holds at some point of a run holds later, if every event keeps it. -/
theorem later_of_run {P : Exchange → Prop} {front back : List Event} (hl : Link.connect true conditions = .ok l)
    (hx : (connect l).run listing peer front = some x) (hy : x.run listing peer back = some y)
    (hroom : (connect l).KeepsRoom listing peer (front ++ back)) (h : P x)
    (hstep : ∀ events y e z, y.Sound listing peer events → y.step listing peer e = some z → P y → P z) : P y := by
  induction back using List.reverseRecOn generalizing y with
  | nil =>
      cases hy
      exact h
  | append_singleton back e ih =>
      obtain ⟨z, hz, hs⟩ := run_snoc.mp hy
      rw [← List.append_assoc] at hroom
      exact hstep _ z e y (sound_run hl (run_append.mpr ⟨x, hx, hz⟩) hroom.of_append) hs (ih hz hroom.of_append)

theorem read_eq_of_stopped (h : x.link.reading = false) (hs : x.step listing peer e = some y) :
    y.link.reading = false ∧ y.log.read = x.log.read := by
  rcases step_eq_some hs with ⟨a, l, rfl, -, ht, rfl⟩ | ⟨n, request, reply, bytes, rfl, -, -, -, -, rfl⟩ |
    ⟨count, rfl, -, rfl⟩ | ⟨rfl, rfl⟩
  · cases ht with
    | store reading | lose reading => cases h.symm.trans reading
    | number | refuse =>
        refine ⟨h, ?_⟩
        simp only [Log.note]
        split <;> rfl
    | unencodable out framed | send out framed | fail out framed =>
        refine ⟨h, ?_⟩
        simp only [Log.note, out, framed]
    | call | take | welcome | giveUp | sleep | wake | arrive | hangUp | notify => exact ⟨h, rfl⟩
  · exact ⟨h, rfl⟩
  · exact ⟨h, rfl⟩
  · exact ⟨h, rfl⟩

theorem effort_run (hd : x.link.numbers.Nodup) (hr : x.run listing peer events = some y)
    (hown : ∀ e ∈ events, e.isOwn = true) : y.link.effort + events.length ≤ x.link.effort ∧ y.link.numbers.Nodup := by
  induction events using List.reverseRecOn generalizing y with
  | nil =>
      cases hr
      exact ⟨Nat.le_refl _, hd⟩
  | append_singleton events e ih =>
      obtain ⟨z, hz, hs⟩ := run_snoc.mp hr
      obtain ⟨hle, hz⟩ := ih hz fun e he => hown e (List.mem_append_left _ he)
      have he : e.isOwn = true := hown e (List.mem_append_right _ (List.mem_singleton.mpr rfl))
      rcases step_eq_some hs with ⟨a, l, rfl, -, ht, rfl⟩ | ⟨n, request, reply, bytes, rfl, -⟩ | ⟨count, rfl, -⟩ |
        ⟨rfl, -⟩
      · have hlt : l.effort < z.link.effort := Link.effort_turn hz ht he
        refine ⟨?_, Link.nodup_numbers_own hz ht he⟩
        rw [List.length_append, List.length_singleton]
        change l.effort + _ ≤ _
        omega
      · cases he
      · cases he
      · cases he

theorem step_client {a : Step} (ha : x.allows a = true) (hs : x.link.step listing a = some l) :
    x.step listing peer (.client a) = some ⟨l, x.log.note listing x.link l a, x.onTheWay⟩ := by
  simp [step, ha, hs]

section Guarantees

variable (h : y.Sound listing peer events)
include h

theorem Sound.suits {n : Nat} {c : Call} (hc : y.link.find? n = some c) : c.phase.standing.Suits c.request := by
  have hcall : y.view.call n = some (c.request, c.phase.standing) := by simp [view, Link.standing, hc]
  have hfits := (h.accounted n).fits _ _ hcall
  generalize c.phase.standing = s at hfits ⊢
  cases hrequest : c.request with
  | perform op =>
      cases s with
      | waiting id =>
          rw [hrequest] at hcall hfits
          obtain ⟨m, ⟨i, -, rfl⟩, -, rfl⟩ := hfits
          cases op <;> trivial
      | new | numbered | ended => trivial
  | logIn username password =>
      rw [hrequest] at hfits
      cases s with
      | waiting id =>
          obtain ⟨m, rfl, -, rfl⟩ := hfits
          trivial
      | numbered id =>
          obtain ⟨⟨op, hop⟩, -⟩ := hfits
          cases hop
      | new | ended => trivial

theorem Sound.unread (hrest : y.link.AtRest listing) (up : y.link.broken = false) (hway : y.onTheWay = []) :
    y.log.unread = [] := by
  have hreading : y.link.reading = true := by
    cases hr : y.link.reading with
    | true => rfl
    | false => cases up.symm.trans (h.stopped hr)
  have hready := hrest.not_isReady hreading
  obtain ⟨rest, hstream, hcome⟩ := h.streamed.rest hreading
  have hended : y.link.incoming.ended = false := by
    cases he : y.link.incoming.ended with
    | false => rfl
    | true => simp [Wire.Incoming.isReady, he] at hready
  rw [hcome hended, hway, List.append_nil] at hstream
  cases hu : y.log.unread with
  | nil => rfl
  | cons answer unread =>
      obtain ⟨bytes, hbytes⟩ := h.streamed.framed answer (hu ▸ List.mem_cons_self)
      rw [hu, stream_cons hbytes] at hstream
      have hthere := Wire.Incoming.isReady_of_frame hbytes Wire.defaultMaxFrame (stream peer unread)
        y.link.incoming.ended
      rw [← hstream] at hthere
      cases hready.symm.trans hthere

theorem Sound.returned_of_given (hrest : y.link.AtRest listing) (up : y.link.broken = false) (hway : y.onTheWay = [])
    {s : Standing} {reply : Message} (hcall : y.link.standing n = some (.perform op, s))
    (hreply : (n, reply) ∈ y.log.given) : s = .ended (.outcome (op.outcome reply)) := by
  have hview : y.view.call n = some (.perform op, s) := hcall
  have hread : (n, reply) ∈ y.log.read := by
    simpa [Log.given, h.unread hrest up hway] using hreply
  obtain ⟨m, hm, -⟩ := (h.accounted n).given reply hreply
  have hfits := (h.accounted n).fits _ _ hview
  cases s with
  | new => exact absurd hm (hfits.2 m)
  | numbered id => exact absurd hm (hfits.2.2 m)
  | waiting id =>
      obtain ⟨i, rfl, hi⟩ := (h.accounted n).waiting hview
      have hfound := h.routed.found n _ i reply hview hi hread
      obtain ⟨c, hc, he⟩ := Option.map_eq_some_iff.mp hcall
      obtain ⟨-, hphase⟩ := Prod.mk.inj he
      rcases hrest.cases_of_find? h.watched hc (h.suits hc) with ⟨result, hp⟩ | ⟨id, hp, hnothing, -⟩ | ⟨_, _, -, hp, -⟩
      · rw [hp] at hphase
        cases hphase
      · rw [hp] at hphase
        cases hphase
        have hlookup : y.link.replies.lookup i = some reply := hfound
        simp [Link.hasReply, hlookup] at hnothing
      · rw [hp] at hphase
        cases hphase
  | ended result =>
      cases result with
      | outcome outcome =>
          obtain ⟨op', id, reply', hop, -, -, hread', rfl⟩ := hfits
          cases hop
          have hsame := List.inj_on_of_nodup_map h.routed.given_once (List.mem_append_left _ hread') hreply rfl
          obtain ⟨-, rfl⟩ := Prod.mk.inj hsame
          rfl
      | status status =>
          obtain ⟨username, password, hlogin, -⟩ := hfits
          cases hlogin
      | failed error => cases (h.accounted n).held up m hm _ _ hview

end Guarantees

theorem woken_of_due {condition : Condition} (due : condition ∈ y.link.notices) :
    ∃ z, y.step listing peer (.client (.notify condition)) = some z ∧
      ∀ n c id, y.link.find? n = some c → c.phase = .asleep id → y.link.awaited id = condition →
        z.link.find? n = some { c with phase := .awake id } := by
  have hs : y.link.notify condition =
      some ({ y.link with notices := y.link.notices.erase condition }.wakeSleepers condition) := if_pos due
  refine ⟨_, step_client rfl hs, fun n c id hc hp hcondition => ?_⟩
  refine (Link.find?_notify hs n).trans ?_
  rw [hc, Option.map_some]
  rcases y.link.summoned_cases condition c with ⟨-, i, hi, he⟩ | ⟨hsleeps, -⟩
  · cases hp.symm.trans hi
    rw [he]
  · cases hsleeps.symm.trans (Link.sleepsOn_eq_true.mpr ⟨id, hp, hcondition⟩)

theorem refused_of_unencodable {written : Bool} {m : Message} {i : Option RequestId} {error : Wire.WireError}
    (out : y.link.outgoing? n = some (m, i)) (unframed : Wire.frame listing m = .error error) :
    ∃ z, y.step listing peer (.client (.send n written)) = some z ∧
      z.link.result? n = some (.failed (.wire error)) ∧ (∀ k, k ≠ n → z.link.find? k = y.link.find? k) ∧
      z = { y with link := { y.link with calls := z.link.calls } } := by
  obtain ⟨request, phase, before, -⟩ := sends_of_outgoing out
  have hs : y.link.send listing n written = some (y.link.setPhase n (.returned (.failed (.wire error)))) := by
    simp only [Link.send, out, unframed]
  have hlog (next : Link) : y.log.note listing y.link next (.send n written) = y.log := by
    simp only [Log.note, out, unframed]
  refine ⟨_, step_client rfl hs, ?_, fun k hk => Link.find?_setPhase_of_ne hk _, ?_⟩
  · simp only [Link.result?, Link.find?_setPhase_self before]
  · rw [hlog]
    rfl

/-- What holds after a run that has begun with a new link. -/
structure Delivers (listing peer : Listing) (l : Link) (events : List Event) (y : Exchange) : Prop where
  /-- A call sends one request, its own. -/
  asked_once : (y.log.asked.map Prod.fst).Nodup
  asked_own : ∀ n m, (n, m) ∈ y.log.asked → ∃ request s, y.link.standing n = some (request, s) ∧ y.log.Own n request m
  /-- The ids come in turn and again after the greatest, but not while a call has them. -/
  ids : ∀ k n id, y.log.numbered[k]? = some (n, id) → id = idAt k
  numbered_once : ∀ n id id', (n, id) ∈ y.log.numbered → (n, id') ∈ y.log.numbered → id = id'
  apart : ∀ n n' id, (n, id) ∈ y.log.numbered → (n', id) ∈ y.log.numbered →
    (∃ request s, y.link.standing n = some (request, s) ∧ s.isEnded = false) →
    (∃ request s, y.link.standing n' = some (request, s) ∧ s.isEnded = false) → n = n'
  /-- It gets one answer. -/
  given_once : (y.log.given.map Prod.fst).Nodup
  given_own : ∀ n reply, (n, reply) ∈ y.log.given → ∃ m, (n, m) ∈ y.log.asked ∧ answers m reply = true
  /-- An operation returns what the answer to its own request says. -/
  outcome : ∀ n op outcome, y.link.standing n = some (.perform op, .ended (.outcome outcome)) →
    ∃ id reply, (n, op.request id) ∈ y.log.asked ∧ (n, reply) ∈ y.log.read ∧ outcome = op.outcome reply
  /-- A login that was sent while no write had failed returns its own status. -/
  status : ∀ n ∈ y.log.prompt, ∀ request status, y.link.standing n = some (request, .ended (.status status)) →
    (n, .authResponse status) ∈ y.log.read
  failure : ∀ n request error, y.link.standing n = some (request, .ended (.failed error)) →
    y.view.Fails listing events n request error
  /-- A reply that is stored has not been taken, and a caller finds its own. -/
  stored : ∀ id reply, y.link.replies.lookup id = some reply → ∃ n, (n, id) ∈ y.log.numbered ∧ (n, reply) ∈ y.log.read ∧
    ∀ request outcome, y.link.standing n ≠ some (request, .ended (.outcome outcome))
  found : ∀ n op id reply, y.link.standing n = some (.perform op, .waiting (some id)) →
    (y.link.replies.lookup id = some reply ↔ (n, reply) ∈ y.log.read)
  /-- What a call has returned remains, and one that waited for its reply has taken it or has given up without. -/
  kept : ∀ front back x, events = front ++ back → (connect l).run listing peer front = some x →
    ∀ n request result, x.link.standing n = some (request, .ended result) →
      y.link.standing n = some (request, .ended result)
  fate : ∀ front back x, events = front ++ back → (connect l).run listing peer front = some x →
    ∀ n op id, x.link.standing n = some (.perform op, .waiting (some id)) → y.view.Fate x.log n op id
  last : ∀ front back x, events = front ++ back → (connect l).run listing peer front = some x → x.link.reading = false →
    y.log.read = x.log.read
  /-- Who sleeps beside a reply that is there, or on a broken connection, is still to be called, and is woken then. -/
  due : ∀ n c id, y.link.find? n = some c → c.phase = .asleep id → y.link.hasReply id = true ∨ y.link.broken = true →
    y.link.awaited id ∈ y.link.notices
  woken : ∀ condition ∈ y.link.notices, ∃ z, y.step listing peer (.client (.notify condition)) = some z ∧
    ∀ n c id, y.link.find? n = some c → c.phase = .asleep id → y.link.awaited id = condition →
      z.link.find? n = some { c with phase := .awake id }
  /-- A request that cannot be encoded ends its call and does nothing else. -/
  unencodable : ∀ n written m id error, y.link.outgoing? n = some (m, id) → Wire.frame listing m = .error error →
    ∃ z, y.step listing peer (.client (.send n written)) = some z ∧
      z.link.result? n = some (.failed (.wire error)) ∧ (∀ k, k ≠ n → z.link.find? k = y.link.find? k) ∧
      z = { y with link := { y.link with calls := z.link.calls } }
  /-- Left to itself the client comes to rest. -/
  tires : ∀ more z, y.run listing peer more = some z → (∀ e ∈ more, e.isOwn = true) → more.length ≤ y.link.work
  /-- Then who has not returned sleeps, his request sent and nothing there for him, or waits for another login. -/
  waiting_at_rest : y.link.AtRest listing → ∀ n c, y.link.find? n = some c → (∃ result, c.phase = .returned result) ∨
    (∃ id m, c.phase = .asleep id ∧ (n, m) ∈ y.log.asked ∧ y.link.hasReply id = false ∧ y.link.broken = false) ∨
    (∃ username password, c.request = .logIn username password ∧ c.phase = .start ∧ y.link.loginInFlight = true)
  /-- Everybody has returned if the connection is broken, and everybody who has been answered if it holds. -/
  returned_of_broken : y.link.AtRest listing → y.link.broken = true →
    ∀ n c, y.link.find? n = some c → ∃ result, c.phase = .returned result
  returned_of_given : y.link.AtRest listing → y.link.broken = false → y.onTheWay = [] →
    ∀ n op s reply, y.link.standing n = some (.perform op, s) → (n, reply) ∈ y.log.given →
      s = .ended (.outcome (op.outcome reply))

/-- Replies reach their callers: after every run of a new link in which no id comes again while a call still has it. -/
theorem delivers_of_run (hl : Link.connect true conditions = .ok l)
    (hr : (connect l).run listing peer events = some y) (hroom : (connect l).KeepsRoom listing peer events) :
    y.Delivers listing peer l events := by
  have h := sound_run hl hr hroom
  have hback {front back : List Event} {x : Exchange} (he : events = front ++ back)
      (hx : (connect l).run listing peer front = some x) : x.run listing peer back = some y := by
    obtain ⟨x', hx', hy⟩ := run_append.mp (he ▸ hr)
    cases hx.symm.trans hx'
    exact hy
  exact {
    asked_once := h.asked_once
    asked_own := by
      intro n m hm
      obtain ⟨request, s, hcall, hown, -⟩ := (h.accounted n).asked m hm
      exact ⟨request, s, hcall, hown⟩
    ids := h.routed.ids
    numbered_once := fun n => (h.accounted n).numbered_once
    apart := by
      rintro n n' id hid hid' ⟨request, s, hs, hon⟩ ⟨request', s', hs', hon'⟩
      exact h.routed.apart n n' id hid hid' ⟨request, s, hs, .inl hon⟩ ⟨request', s', hs', .inl hon'⟩
    given_once := h.routed.given_once
    given_own := fun n => (h.accounted n).given
    outcome := by
      intro n op outcome hcall
      obtain ⟨op', id, reply, hop, -, hasked, hread, ho⟩ := (h.accounted n).fits _ _ hcall
      cases hop
      exact ⟨id, reply, hasked, hread, ho⟩
    status := h.greeted.own
    failure := fun n request error hcall => (h.accounted n).fits _ _ hcall
    stored := h.routed.stored
    found := by
      intro n op id reply hcall
      obtain ⟨i, hi, hid⟩ := (h.accounted n).waiting hcall
      cases hi
      exact ⟨h.routed.mem_read h.accounted hcall, h.routed.found n _ id reply hcall hid⟩
    kept := by
      rintro front back x rfl hx n request result hcall
      exact later_of_run (P := fun y => y.view.call n = some (request, .ended result)) hl hx (hback rfl hx) hroom hcall
        fun _ _ _ _ hs ht hended => ended_change (change_of_step hs.streamed ht) hended rfl
    fate := by
      rintro front back x rfl hx n op id hcall
      have hlater := later_of_run (P := fun y => y.view.Fate x.log n op id ∧ x.log.read ⊆ y.log.read) hl hx
        (hback rfl hx) hroom ⟨.waiting hcall, List.Subset.refl _⟩ fun events y e z hs ht hf =>
          have hc := change_of_step hs.streamed ht
          ⟨fate_change hf.1 hf.2 hs.accounted hs.routed hc, List.Subset.trans hf.2 hc.read_subset⟩
      exact hlater.1
    last := by
      rintro front back x rfl hx hstopped
      have hlater := later_of_run (P := fun y => y.link.reading = false ∧ y.log.read = x.log.read) hl hx (hback rfl hx)
        hroom ⟨hstopped, rfl⟩ fun _ _ _ _ _ ht hy =>
          have hkept := read_eq_of_stopped hy.1 ht
          ⟨hkept.1, hkept.2.trans hy.2⟩
      exact hlater.2
    due := h.watched.due
    woken := fun condition => woken_of_due
    unencodable := fun n written m id error => refused_of_unencodable
    tires := by
      intro more z hz hown
      obtain ⟨hle, -⟩ := effort_run h.numbers hz hown
      have hwork := y.link.effort_le_work
      omega
    waiting_at_rest := by
      intro hrest n c hc
      refine (hrest.cases_of_find? h.watched hc (h.suits hc)).imp_right (Or.imp_left ?_)
      rintro ⟨id, hp, hnothing, hup⟩
      have hcall : y.view.call n = some (c.request, .waiting id) := by simp [view, Link.standing, hc, hp, Phase.standing]
      obtain ⟨m, -, hasked, -⟩ := (h.accounted n).fits _ _ hcall
      exact ⟨id, m, hp, hasked, hnothing, hup⟩
    returned_of_broken := fun hrest down n c hc => hrest.returned h.watched h.numbers (fun _ _ => h.suits) down hc
    returned_of_given := fun hrest up hway n op s reply => h.returned_of_given hrest up hway }

/-- Two callers share a condition, the replies come in the other order, and the connection breaks before one is
taken. -/
def overtaken : List Event :=
  [.client (.call 0 (.perform (.get "a"))), .client (.call 1 (.perform (.get "b"))), .client (.number 0),
    .client (.number 1), .client (.send 1 true), .client (.send 0 true), .client (.look 0), .client (.look 1),
    .client (.wake 1), .client (.look 1), .answer 1 (.getResponse 2 (some [7])), .answer 0 (.getResponse 1 none),
    .deliver 100, .client .read, .client (.notify (.reply 0)), .client (.look 0), .client .read, .hangUp, .client .read,
    .client (.notify (.reply 0)), .client (.look 0), .client (.look 1), .client (.call 2 (.perform (.get "c"))),
    .client (.number 2)]

theorem delivers_of_run_overtaken :
    ∃ l y, Link.connect true 1 = .ok l ∧ (connect l).run .ascending .ascending overtaken = some y ∧
      y.link.broken = true ∧ y.link.result? 0 = some (.outcome (.ok (.value none))) ∧
      y.link.result? 1 = some (.outcome (.ok (.value (some [7])))) ∧
      y.link.result? 2 = some (.failed .connectionBroken) ∧ y.Delivers .ascending .ascending l overtaken := by
  have hl : Link.connect true 1 = .ok _ := rfl
  have hr : (connect ⟨1, firstId, [], none, false, false, [], [], [], .empty, true⟩).run .ascending .ascending
      overtaken = some _ := rfl
  exact ⟨_, _, rfl, hr, rfl, rfl, rfl, rfl, delivers_of_run hl hr (keepsRoom_of_length_le (by decide))⟩

end Exchange

end AwaitStore.Client
