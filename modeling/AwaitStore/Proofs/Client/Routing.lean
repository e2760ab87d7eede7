import AwaitStore.Proofs.Client.Accounts

namespace AwaitStore.Client

open Wire (AuthStatus Listing Message RequestId)

def idAt (k : Nat) : RequestId := Int32.ofNat (1 + k % 2147483647)

theorem toInt_idAt (k : Nat) : (idAt k).toInt = 1 + (k % 2147483647 : Nat) := by
  rw [idAt, Int32.toInt_ofNat_of_lt (by omega)]
  omega

theorem idAfter_idAt (k : Nat) : idAfter (idAt k) = idAt (k + 1) := by
  have hmax : (Int32.maxValue).toInt = 2147483647 := by decide
  have hk := toInt_idAt k
  have hnext := toInt_idAt (k + 1)
  unfold idAfter
  split
  next h =>
    rw [h, hmax] at hk
    apply Int32.toInt_inj.mp
    rw [hnext]
    change (1 : Int) = _
    omega
  next h =>
    have hne : (idAt k).toInt ≠ 2147483647 := fun he => h (Int32.toInt_inj.mp (he.trans hmax.symm))
    apply Int32.toInt_inj.mp
    have hone : Int32.toInt 1 = 1 := rfl
    rw [Int32.toInt_add, hone, hnext, Int.bmod_eq_of_le (by omega) (by omega)]
    omega

theorem le_of_idAt_eq {j k : Nat} (hlt : j < k) (h : idAt j = idAt k) : 2147483647 ≤ k - j := by
  have hj := toInt_idAt j
  have hk := toInt_idAt k
  rw [h, hk] at hj
  omega

namespace View

/-- A reply to the call may still be stored, or is. -/
def Live (v : View) (n : Nat) : Prop :=
  ∃ request s, v.call n = some (request, s) ∧ (s.isEnded = false ∨ s.isFailed = true ∧ ∃ m, (n, m) ∈ v.log.asked)

def Roomy (v : View) : Prop :=
  ∀ front n id back, v.log.numbered = front ++ (n, id) :: back →
    (∃ request s, v.call n = some (request, s) ∧ s.isEnded = false) → back.length < 2147483647

structure Routed (v : View) : Prop where
  next : v.nextId = idAt v.log.numbered.length
  ids : ∀ k n id, v.log.numbered[k]? = some (n, id) → id = idAt k
  given_once : (v.log.given.map Prod.fst).Nodup
  stored : ∀ id m, v.replies id = some m → ∃ n, (n, id) ∈ v.log.numbered ∧ (n, m) ∈ v.log.read ∧
    ∀ request outcome, v.call n ≠ some (request, .ended (.outcome outcome))
  found : ∀ n request id m, v.call n = some (request, .waiting (some id)) → (n, id) ∈ v.log.numbered →
    (n, m) ∈ v.log.read → v.replies id = some m
  apart : ∀ n n' id, (n, id) ∈ v.log.numbered → (n', id) ∈ v.log.numbered → v.Live n → v.Live n' → n = n'

end View

open View

variable {listing : Listing} {events : List Event} {e : Event} {v w : View} {n k : Nat} {request : Request}
  {s t : Standing}

theorem View.routed_empty (hlog : v.log = .empty) (hnext : v.nextId = firstId) (hreplies : ∀ id, v.replies id = none)
    (hcall : ∀ n, v.call n = none) : v.Routed where
  next := by
    rw [hlog]
    exact hnext
  ids k n id hid := by
    rw [hlog] at hid
    cases hid
  given_once := hlog ▸ List.nodup_nil
  stored id m hm := by cases (hreplies id).symm.trans hm
  found n request id m hc := by cases (hcall n).symm.trans hc
  apart n n' id hid := by
    rw [hlog] at hid
    cases hid

theorem View.Routed.keep (h : v.Routed) (hnext : w.nextId = v.nextId) (hnumbered : w.log.numbered = v.log.numbered)
    (hgiven : (w.log.given.map Prod.fst).Nodup) (hreplies : w.replies = v.replies)
    (hread : ∀ n id m, (n, id) ∈ v.log.numbered → ((n, m) ∈ w.log.read ↔ (n, m) ∈ v.log.read))
    (houtcome : ∀ n request outcome, w.call n = some (request, .ended (.outcome outcome)) →
      v.call n = some (request, .ended (.outcome outcome)))
    (hwaits : ∀ n request id, w.call n = some (request, .waiting (some id)) →
      v.call n = some (request, .waiting (some id)) ∨ ∀ m, (n, m) ∉ v.log.read)
    (hlive : ∀ n id, (n, id) ∈ v.log.numbered → w.Live n → v.Live n) : w.Routed where
  next := by rw [hnext, hnumbered, h.next]
  ids := hnumbered ▸ h.ids
  given_once := hgiven
  stored id m hm := by
    obtain ⟨n, hid, hread', hcall⟩ := h.stored id m (hreplies ▸ hm)
    exact ⟨n, hnumbered ▸ hid, (hread n id m hid).mpr hread', fun request outcome he =>
      hcall request outcome (houtcome n request outcome he)⟩
  found n request id m hcall hid hm := by
    rw [hnumbered] at hid
    rw [hread n id m hid] at hm
    rw [hreplies]
    rcases hwaits n request id hcall with hcall | hnone
    · exact h.found n request id m hcall hid hm
    · exact absurd hm (hnone m)
  apart n n' id hn hn' hl hl' := by
    rw [hnumbered] at hn hn'
    exact h.apart n n' id hn hn' (hlive n id hn hl) (hlive n' id hn' hl')

def View.Unanswered (v : View) (n : Nat) : Standing → Prop
  | .ended (.outcome _) => False
  | .waiting (some _) => ∀ m, (n, m) ∉ v.log.read
  | _ => True

theorem View.Routed.stand (h : v.Routed) {loginReply : Option AuthStatus} {broken failed : Bool}
    {asked : List (Nat × Message)} {prompt : List Nat}
    (hasked : ∀ n m, n ≠ k → (n, m) ∈ asked → (n, m) ∈ v.log.asked)
    (hlive : (∀ id, (k, id) ∉ v.log.numbered) ∨ v.Live k) (ht : v.Unanswered k t) (request : Request) :
    ({ v with loginReply, broken, log := { v.log with asked, prompt, failed } }.stand k request t).Routed := by
  generalize hw : View.stand k request t _ = w
  have hself : w.call k = some (request, t) := hw ▸ Function.update_self k _ v.call
  have hother {n : Nat} (hne : n ≠ k) : w.call n = v.call n := hw ▸ Function.update_of_ne hne _ v.call
  refine h.keep (hw ▸ rfl) (hw ▸ rfl) (hw ▸ h.given_once) (hw ▸ rfl) (fun _ _ _ _ => hw ▸ Iff.rfl) ?_ ?_ ?_
  · intro n request' outcome he
    by_cases hne : n = k
    · rw [hne, hself] at he
      obtain ⟨-, rfl⟩ := Prod.mk.inj (Option.some.inj he)
      exact ht.elim
    · exact (hother hne).symm.trans he
  · intro n request' id he
    by_cases hne : n = k
    · rw [hne, hself] at he
      obtain ⟨-, rfl⟩ := Prod.mk.inj (Option.some.inj he)
      exact .inr (hne ▸ ht)
    · exact .inl ((hother hne).symm.trans he)
  · rintro n id hid ⟨request', s, he, hs⟩
    by_cases hne : n = k
    · subst hne
      exact hlive.elim (fun hnone => absurd hid (hnone id)) fun hl => hl
    · refine ⟨request', s, (hother hne).symm.trans he, ?_⟩
      rcases hs with hs | ⟨hs, m, hm⟩
      · exact .inl hs
      · exact .inr ⟨hs, m, hasked n m hne (by rwa [← hw] at hm)⟩

theorem View.Accounted.waiting (h : v.Accounted listing events n) {op : Operation} {id : Option RequestId}
    (hcall : v.call n = some (.perform op, .waiting id)) : ∃ i, id = some i ∧ (n, i) ∈ v.log.numbered := by
  obtain ⟨m, ⟨i, hi, rfl⟩, -, rfl⟩ := h.fits _ _ hcall
  exact ⟨i, by cases op <;> rfl, hi⟩

theorem View.Routed.notMem_read (h : v.Routed) {m : Message} (hm : (n, m) ∈ v.log.unread) (m' : Message) :
    (n, m') ∉ v.log.read := by
  intro hm'
  have hn := h.given_once
  rw [Log.given, List.map_append] at hn
  exact (List.nodup_append.mp hn).2.2 n (List.mem_map_of_mem hm') n (List.mem_map_of_mem hm) rfl

theorem View.Accounted.live (h : v.Accounted listing events n) {id : RequestId} (hid : (n, id) ∈ v.log.numbered)
    {m : Message} (hm : (n, m) ∈ v.log.asked)
    (hcall : ∀ request outcome, v.call n ≠ some (request, .ended (.outcome outcome))) : v.Live n := by
  obtain ⟨request, s, hs, -, hsettled⟩ := h.asked m hm
  refine ⟨request, s, hs, ?_⟩
  cases s with
  | new | numbered | waiting => exact .inl rfl
  | ended result =>
      cases result with
      | outcome outcome => exact absurd hs (hcall request outcome)
      | failed error => exact .inr ⟨rfl, m, hm⟩
      | status status =>
          obtain ⟨username, password, rfl, -⟩ := h.fits _ _ hs
          obtain ⟨op, s, hop, -⟩ := h.numbered id hid
          cases hs.symm.trans hop

theorem View.Routed.mem_read (h : v.Routed) (ha : ∀ n, v.Accounted listing events n) {op : Operation} {id : RequestId}
    {reply : Message} (hcall : v.call n = some (.perform op, .waiting (some id)))
    (hreply : v.replies id = some reply) : (n, reply) ∈ v.log.read := by
  obtain ⟨i, hi, hid⟩ := (ha n).waiting hcall
  cases hi
  obtain ⟨n', hid', hread, houtcome⟩ := h.stored id reply hreply
  obtain ⟨m, hm, -⟩ := (ha n').given reply (List.mem_append_left _ hread)
  have hlive : v.Live n' := (ha n').live hid' hm houtcome
  obtain rfl := h.apart n n' id hid hid' ⟨_, _, hcall, .inl rfl⟩ hlive
  exact hread

theorem View.Routed.number (h : v.Routed) (ha : ∀ n, v.Accounted listing events n) {op : Operation}
    (before : v.call n = some (.perform op, .new)) (up : v.broken = false)
    (hroom : ({ v with
        nextId := idAfter v.nextId
        log := { v.log with numbered := v.log.numbered ++ [(n, v.nextId)] } }.stand n (.perform op)
      (.numbered v.nextId)).Roomy) :
    ({ v with
        nextId := idAfter v.nextId
        log := { v.log with numbered := v.log.numbered ++ [(n, v.nextId)] } }.stand n (.perform op)
      (.numbered v.nextId)).Routed := by
  generalize hw : View.stand n (.perform op) (.numbered v.nextId) _ = w at hroom ⊢
  have hnumbered : w.log.numbered = v.log.numbered ++ [(n, v.nextId)] := hw ▸ rfl
  have hself : w.call n = some (.perform op, .numbered v.nextId) := hw ▸ Function.update_self n _ v.call
  have hother {m : Nat} (hne : m ≠ n) : w.call m = v.call m := hw ▸ Function.update_of_ne hne _ v.call
  have hreplies : w.replies = v.replies := hw ▸ rfl
  have hasked : w.log.asked = v.log.asked := hw ▸ rfl
  have hread : w.log.read = v.log.read := hw ▸ rfl
  have hnew := ((ha n).fits _ _ before).1
  have hlive {m : Nat} (hne : m ≠ n) (hl : w.Live m) : v.Live m := by
    obtain ⟨request, s, hs, hl⟩ := hl
    exact ⟨request, s, (hother hne).symm.trans hs, hasked ▸ hl⟩
  -- A call that can still get a reply goes on, since the connection holds.
  have hfar {m : Nat} (hm : (m, v.nextId) ∈ v.log.numbered) (hne : m ≠ n) (hl : w.Live m) : False := by
    obtain ⟨front, back, he⟩ := List.append_of_mem hm
    have hid := h.ids front.length m v.nextId (by simp [he])
    rw [h.next] at hid
    have hlen : v.log.numbered.length = front.length + (back.length + 1) := by simp [he]
    have hle := le_of_idAt_eq (by omega) hid.symm
    obtain ⟨request, s, hs, hl⟩ := hlive hne hl
    have hon : s.isEnded = false := by
      rcases hl with hl | ⟨hfailed, q, hq⟩
      · exact hl
      · simp [(ha m).held up q hq request s hs] at hfailed
    have hlt := hroom front m v.nextId (back ++ [(n, v.nextId)]) (by simp [hnumbered, he])
      ⟨request, s, (hother hne).trans hs, hon⟩
    rw [List.length_append, List.length_singleton] at hlt
    omega
  constructor
  · have hnext : w.nextId = idAfter v.nextId := hw ▸ rfl
    rw [hnext, hnumbered, h.next, idAfter_idAt, List.length_append, List.length_singleton]
  · intro k m id hk
    rw [hnumbered, List.getElem?_append] at hk
    split at hk
    next hlt => exact h.ids k m id hk
    next hle =>
      rw [List.getElem?_singleton] at hk
      split at hk
      next hk₀ =>
        cases hk
        rw [h.next]
        congr 1
        omega
      · cases hk
  · exact hw ▸ h.given_once
  · intro id m hm
    obtain ⟨k, hid, hr, hcall⟩ := h.stored id m (hreplies ▸ hm)
    have hne : k ≠ n := fun he => hnew id (he ▸ hid)
    exact ⟨k, hnumbered ▸ List.mem_append_left _ hid, hread ▸ hr, (hother hne) ▸ hcall⟩
  · intro k request id m hcall hid hm
    have hne : k ≠ n := fun he => by
      rw [he, hself] at hcall
      cases hcall
    have hid : (k, id) ∈ v.log.numbered := by simpa [hnumbered, hne] using hid
    rw [hreplies]
    exact h.found k request id m ((hother hne).symm.trans hcall) hid (hread ▸ hm)
  · intro a b id hida hidb hla hlb
    have hold {k : Nat} (hk : (k, id) ∈ w.log.numbered) (hne : k ≠ n) : (k, id) ∈ v.log.numbered := by
      simpa [hnumbered, hne] using hk
    have hlast (hk : (n, id) ∈ w.log.numbered) : id = v.nextId := by
      simpa [hnumbered, hnew id] using hk
    by_cases hna : a = n
    · by_cases hnb : b = n
      · exact hna.trans hnb.symm
      · obtain rfl := hlast (hna ▸ hida)
        exact (hfar (hold hidb hnb) hnb hlb).elim
    · by_cases hnb : b = n
      · obtain rfl := hlast (hnb ▸ hidb)
        exact (hfar (hold hida hna) hna hla).elim
      · exact h.apart a b id (hold hida hna) (hold hidb hnb) (hlive hna hla) (hlive hnb hlb)

theorem View.Routed.take (h : v.Routed) (ha : ∀ n, v.Accounted listing events n) {op : Operation} {id : RequestId}
    (before : v.call n = some (.perform op, .waiting (some id))) (outcome : Outcome) :
    ({ v with replies := Function.update v.replies id none }.stand n (.perform op)
      (.ended (.outcome outcome))).Routed := by
  obtain ⟨i, hi, hid⟩ := (ha n).waiting before
  cases hi
  generalize hw : View.stand n (.perform op) (.ended (.outcome outcome)) _ = w
  have hself : w.call n = some (.perform op, .ended (.outcome outcome)) := hw ▸ Function.update_self n _ v.call
  have hother {m : Nat} (hne : m ≠ n) : w.call m = v.call m := hw ▸ Function.update_of_ne hne _ v.call
  have hreplies : w.replies = Function.update v.replies id none := hw ▸ rfl
  have hlog : w.log = v.log := hw ▸ rfl
  constructor
  · rw [hlog, ← h.next]
    exact hw ▸ rfl
  · exact hlog ▸ h.ids
  · exact hlog ▸ h.given_once
  · intro i m hm
    rw [hreplies, Function.update_apply] at hm
    split at hm
    · cases hm
    next hne =>
      obtain ⟨k, hk, hr, hcall⟩ := h.stored i m hm
      have hkn : k ≠ n := fun he => hne ((ha n).numbered_once i id (he ▸ hk) hid)
      exact ⟨k, hlog ▸ hk, hlog ▸ hr, (hother hkn) ▸ hcall⟩
  · intro k request i m hcall hk hm
    have hkn : k ≠ n := fun he => by
      rw [he, hself] at hcall
      cases hcall
    rw [hlog] at hk hm
    rw [hother hkn] at hcall
    have hne : i ≠ id := fun he =>
      hkn (h.apart k n id (he ▸ hk) hid ⟨_, _, hcall, .inl rfl⟩ ⟨_, _, before, .inl rfl⟩)
    rw [hreplies, Function.update_of_ne hne]
    exact h.found k request i m hcall hk hm
  · have hlive {k : Nat} (hl : w.Live k) : v.Live k := by
      obtain ⟨request, s, hs, hl⟩ := hl
      by_cases hkn : k = n
      · rw [hkn, hself] at hs
        cases hs
        rcases hl with hl | ⟨hl, -⟩ <;> cases hl
      · exact ⟨request, s, (hother hkn).symm.trans hs, hlog ▸ hl⟩
    intro a b i hia hib hla hlb
    rw [hlog] at hia hib
    exact h.apart a b i hia hib (hlive hla) (hlive hlb)

theorem View.Routed.hear (h : v.Routed) (ha : ∀ n, v.Accounted listing events n) {id : RequestId} {reply : Message}
    {rest : List (Nat × Message)} (first : v.log.unread = (n, reply) :: rest) (answer : reply.requestId? = some id) :
    { v with
      replies := Function.update v.replies id (some reply)
      log := { v.log with read := v.log.read ++ [(n, reply)], unread := rest } }.Routed := by
  have hunread : (n, reply) ∈ v.log.unread := first ▸ List.mem_cons_self
  have hnone := h.notMem_read hunread
  obtain ⟨q, hq, hanswers⟩ := (ha n).given reply (List.mem_append_right _ hunread)
  -- The reply has the id of the request of its call.
  have hid : (n, id) ∈ v.log.numbered := by
    obtain ⟨request, s, -, hown, -⟩ := (ha n).asked q hq
    rcases Exchange.requestId?_of_answers hanswers with ⟨status, rfl⟩ | ⟨i, hi, hreply⟩
    · cases answer
    cases answer.symm.trans hreply
    cases request with
    | perform op =>
        obtain ⟨i, hmem, rfl⟩ := hown
        obtain rfl : i = id := by cases op <;> exact Option.some.inj hi
        exact hmem
    | logIn username password =>
        obtain rfl := hown
        cases hi
  have houtcome (request : Request) (outcome : Outcome) : v.call n ≠ some (request, .ended (.outcome outcome)) := by
    intro hcall
    obtain ⟨op, i, r, -, -, -, hr, -⟩ := (ha n).fits _ _ hcall
    exact hnone r hr
  have hlive := (ha n).live hid hq houtcome
  constructor
  · exact h.next
  · exact h.ids
  · simpa [Log.given, first] using h.given_once
  · intro i m hm
    change Function.update v.replies id (some reply) i = some m at hm
    rw [Function.update_apply] at hm
    split at hm
    next he =>
      cases hm
      exact ⟨n, he ▸ hid, List.mem_append_right _ (List.mem_singleton.mpr rfl), houtcome⟩
    · obtain ⟨k, hk, hr, hcall⟩ := h.stored i m hm
      exact ⟨k, hk, List.mem_append_left _ hr, hcall⟩
  · intro k request i m hcall hk hm
    change Function.update v.replies id (some reply) i = some m
    rw [Function.update_apply]
    rcases List.mem_append.mp hm with hm | hm
    · have hne : i ≠ id := fun he => by
        have hkn := h.apart k n id (he ▸ hk) hid ⟨_, _, hcall, .inl rfl⟩ hlive
        exact hnone m (hkn ▸ hm)
      rw [if_neg hne]
      exact h.found k request i m hcall hk hm
    · cases List.mem_singleton.mp hm
      rw [if_pos ((ha n).numbered_once i id hk hid)]
  · exact h.apart

/-- Each event keeps the replies apart, if there is room for the ids. -/
theorem routed_change (h : v.Routed) (ha : ∀ n, v.Accounted listing events n) (hc : Change listing v e w)
    (hroom : w.Roomy) : w.Routed := by
  have hother {n k : Nat} {q : Message} (m : Message) (hne : k ≠ n) (hq : (k, q) ∈ v.log.asked ++ [(n, m)]) :
      (k, q) ∈ v.log.asked := by simpa [hne] using hq
  cases hc with
  | kept => exact h
  | @called n request before =>
      refine h.stand (t := .new) (fun _ _ _ hm => hm) (.inl fun id hid => ?_) trivial request
      obtain ⟨op, s, hcall, -⟩ := (ha n).numbered id hid
      cases before.symm.trans hcall
  | numbered before up => exact h.number ha before up hroom
  | refused before down =>
      exact h.stand (t := .ended (.failed _)) (fun _ _ _ hm => hm) (.inl ((ha _).fits _ _ before).1) trivial _
  | unencodable sends unframed =>
      obtain ⟨⟨s, before, hs⟩, -⟩ := (ha _).sends sends
      exact h.stand (t := .ended (.failed _)) (fun _ _ _ hm => hm) (.inr ⟨_, s, before, .inl hs⟩) trivial _
  | @sent n request m id sends =>
      obtain ⟨⟨s, before, hs⟩, -, hasked, -⟩ := (ha _).sends sends
      refine h.stand (fun _ _ => hother m) (.inr ⟨_, s, before, .inl hs⟩) ?_ _
      cases id with
      | none => trivial
      | some id => exact (ha n).notMem_read hasked
  | @failed n request m id sends =>
      obtain ⟨⟨s, before, hs⟩, -⟩ := (ha _).sends sends
      exact h.stand (t := .ended (.failed _)) (fun _ _ => hother m) (.inr ⟨_, s, before, .inl hs⟩) trivial _
  | taken before found => exact h.take ha before _
  | welcomed before found =>
      exact h.stand (t := .ended (.status _)) (fun _ _ _ hm => hm) (.inr ⟨_, _, before, .inl rfl⟩) trivial _
  | gaveUp before =>
      exact h.stand (t := .ended (.failed _)) (fun _ _ _ hm => hm) (.inr ⟨_, _, before, .inl rfl⟩) trivial _
  | heard first answer => exact h.hear ha first answer
  | @greeted n status rest first reading =>
      -- The answer to a login is stored under no id.
      have hlogin (id : RequestId) : (n, id) ∉ v.log.numbered := fun hid => by
        have hunread : (n, .authResponse status) ∈ v.log.unread := first ▸ List.mem_cons_self
        obtain ⟨m, hm, hanswers⟩ := (ha n).given _ (List.mem_append_right _ hunread)
        obtain ⟨request, s, hcall, hown, -⟩ := (ha n).asked m hm
        obtain ⟨op, s, hop, -⟩ := (ha n).numbered id hid
        cases hcall.symm.trans hop
        obtain ⟨i, -, rfl⟩ := hown
        cases op <;> cases hanswers
      refine h.keep rfl rfl (by simpa [Log.given, first] using h.given_once) rfl (fun k id m hid => ?_)
        (fun _ _ _ he => he) (fun _ _ _ he => .inl he) fun _ _ _ hl => hl
      have hne : k ≠ n := fun he => hlogin id (he ▸ hid)
      simp [hne]
  | lost =>
      exact h.keep rfl rfl h.given_once rfl (fun _ _ _ _ => Iff.rfl) (fun _ _ _ he => he) (fun _ _ _ he => .inl he)
        fun _ _ _ hl => hl
  | @answered n m reply asked once answer =>
      refine h.keep rfl rfl ?_ rfl (fun _ _ _ _ => Iff.rfl) (fun _ _ _ he => he) (fun _ _ _ he => .inl he)
        fun _ _ _ hl => hl
      rw [Log.given, ← List.append_assoc, List.map_append]
      exact List.nodup_append.mpr ⟨h.given_once, List.nodup_singleton _, fun k hk k' hk' he => by
        obtain rfl : k' = n := List.mem_singleton.mp hk'
        exact once (he ▸ hk)⟩

end AwaitStore.Client
