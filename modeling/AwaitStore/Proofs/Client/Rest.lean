import AwaitStore.Proofs.Client.Wakeups
import Mathlib.Algebra.BigOperators.Group.List.Basic

namespace AwaitStore.Client

open Wire (Incoming Listing Message RequestId)

/-- How many moves a call has before it at most, if nobody wakes it. -/
def Phase.weight : Phase → Nat
  | .start => 3
  | .numbered _ => 2
  | .awake _ => 1
  | .asleep _ | .returned _ => 0

def Step.isOwn : Step → Bool
  | .number _ | .send _ true | .look _ | .read | .notify _ => true
  | .call .. | .send _ false | .wake _ | .arrive _ | .hangUp => false

def Standing.Suits : Request → Standing → Prop
  | .perform _, .waiting none | .logIn .., .numbered _ | .logIn .., .waiting (some _) => False
  | _, _ => True

namespace Link

variable {l k : Link} {listing : Listing} {a : Step} {n : Nat} {request : Request} {before phase : Phase}
  {condition : Condition}

def numbers (l : Link) : List Nat := l.calls.map Call.number

def weight (l : Link) : Nat := (l.calls.map fun c => c.phase.weight).sum

/-- What may still wake somebody. A frame is longer than its notice, and breaking the connection needs one notice for
each condition. -/
def pending (l : Link) : Nat :=
  l.notices.length + 2 * l.incoming.bytes.length + if l.reading then l.conditions + 2 else 0

def effort (l : Link) : Nat := l.weight + (l.calls.length + 1) * l.pending

def AtRest (listing : Listing) (l : Link) : Prop := ∀ a, a.isOwn = true → l.step listing a = none

theorem find?_of_mem (hd : l.numbers.Nodup) {c : Call} (hc : c ∈ l.calls) : l.find? c.number = some c := by
  cases hf : l.find? c.number with
  | none => exact absurd (List.find?_eq_none.mp hf c hc) (by simp)
  | some found => rw [List.inj_on_of_nodup_map hd (mem_of_find? hf) hc (number_of_find? hf)]

theorem numbers_setPhase (l : Link) (n : Nat) (phase : Phase) : (l.setPhase n phase).numbers = l.numbers := by
  simp only [numbers, setPhase, List.map_map]
  refine List.map_congr_left fun c _ => ?_
  simp only [Function.comp_apply]
  split <;> rfl

theorem numbers_wakeSleepers (condition : Condition) (l : Link) : (l.wakeSleepers condition).numbers = l.numbers := by
  have hcalls : (l.wakeSleepers condition).calls = l.calls.map (l.summoned condition) := rfl
  rw [numbers, hcalls, List.map_map]
  refine List.map_congr_left fun c _ => ?_
  rcases l.summoned_cases condition c with ⟨-, id, -, he⟩ | ⟨-, he⟩ <;> rw [Function.comp_apply, he]

theorem numbers_turn (ht : Turn listing l a k) : k.numbers = l.numbers ∨ ∃ n request, a = .call n request ∧
    k.numbers = l.numbers ++ [n] := by
  cases ht with
  | call n request => exact .inr ⟨n, request, rfl, by simp [numbers]⟩
  | number | refuse | unencodable | send | fail | take | welcome | giveUp | sleep | wake =>
      exact .inl (numbers_setPhase _ _ _)
  | arrive | hangUp | lose => exact .inl rfl
  | store => exact .inl (congrArg numbers (store_eq _ _) :)
  | notify => exact .inl (numbers_wakeSleepers _ _)

theorem nodup_numbers_turn (hd : l.numbers.Nodup) (ht : Turn listing l a k)
    (hnew : ∀ n request, a = .call n request → l.find? n = none) : k.numbers.Nodup := by
  rcases numbers_turn ht with he | ⟨n, request, rfl, he⟩
  · exact he ▸ hd
  · rw [he]
    refine List.nodup_append.mpr ⟨hd, List.nodup_singleton n, fun m hm m' hm' hmm => ?_⟩
    obtain rfl : m' = n := List.mem_singleton.mp hm'
    obtain ⟨c, hc, hcm⟩ := List.mem_map.mp hm
    exact absurd (beq_iff_eq.mpr (hcm.trans hmm)) (List.find?_eq_none.mp (hnew m' request rfl) c hc)

theorem nodup_numbers_own (hd : l.numbers.Nodup) (ht : Turn listing l a k) (ha : a.isOwn = true) : k.numbers.Nodup := by
  refine nodup_numbers_turn hd ht ?_
  rintro n request rfl
  cases ha

theorem weight_setPhase (hd : l.numbers.Nodup) (hn : l.find? n = some ⟨n, request, before⟩) (phase : Phase) :
    (l.setPhase n phase).weight + before.weight = l.weight + phase.weight := by
  obtain ⟨front, back, he⟩ := List.append_of_mem (mem_of_find? hn)
  have hsame (cs : List Call) (hcs : n ∉ cs.map Call.number) :
      (cs.map fun c => if c.number == n then { c with phase } else c) = cs := by
    refine (List.map_congr_left fun c hc => ?_).trans (List.map_id cs)
    have hne : c.number ≠ n := fun h => hcs (h ▸ List.mem_map_of_mem hc)
    simp [hne]
  rw [numbers, he, List.map_append, List.map_cons] at hd
  have hfront : n ∉ front.map Call.number := fun hmem =>
    (List.nodup_append.mp hd).2.2 n hmem n List.mem_cons_self rfl
  have hback : n ∉ back.map Call.number := (List.nodup_cons.mp (List.nodup_append.mp hd).2.1).1
  simp only [weight, setPhase, he, List.map_append, List.map_cons, hsame front hfront, hsame back hback,
    beq_self_eq_true, if_true, List.sum_append, List.sum_cons]
  omega

theorem weight_wakeSleepers (condition : Condition) (l : Link) :
    (l.wakeSleepers condition).weight ≤ l.weight + l.calls.length := by
  have hcalls : (l.wakeSleepers condition).calls = l.calls.map (l.summoned condition) := rfl
  rw [weight, weight, hcalls, List.map_map]
  induction l.calls with
  | nil => exact Nat.le_refl 0
  | cons c cs ih =>
      have hc : (l.summoned condition c).phase.weight ≤ c.phase.weight + 1 := by
        rcases l.summoned_cases condition c with ⟨-, id, hp, he⟩ | ⟨-, he⟩
        · simp [he, hp, Phase.weight]
        · simp [he]
      simp only [List.map_cons, List.sum_cons, List.length_cons, Function.comp_apply]
      simp only [Function.comp_def] at ih ⊢
      omega

theorem effort_setPhase (hd : l.numbers.Nodup) (hn : l.find? n = some ⟨n, request, before⟩)
    (hlt : phase.weight < before.weight) : (l.setPhase n phase).effort < l.effort := by
  have hweight := weight_setPhase hd hn phase
  have hlength : (l.setPhase n phase).calls.length = l.calls.length := List.length_map _
  have hpending : (l.setPhase n phase).pending = l.pending := rfl
  rw [effort, effort, hlength, hpending]
  omega

/-- Each thing that is pending wakes nobody twice. -/
theorem effort_lt_of_pending_lt (hlength : k.calls.length = l.calls.length)
    (hweight : k.weight ≤ l.weight + l.calls.length) (h : k.pending < l.pending) : k.effort < l.effort := by
  have hmul := Nat.mul_le_mul_left (l.calls.length + 1) h
  rw [Nat.mul_succ] at hmul
  rw [effort, effort, hlength]
  omega

theorem outgoing?_weight {m : Message} {id : Option RequestId} (h : l.outgoing? n = some (m, id)) :
    ∃ request before, l.find? n = some ⟨n, request, before⟩ ∧ 1 < before.weight := by
  unfold outgoing? at h
  split at h
  next hc => exact ⟨_, _, find?_number_eq hc, Nat.lt_succ_self 1⟩
  next hc => exact ⟨_, _, find?_number_eq hc, Nat.lt_of_sub_eq_succ rfl⟩
  · cases h

/-- Each move of its own brings the client closer to rest. -/
theorem effort_turn (hd : l.numbers.Nodup) (ht : Turn listing l a k) (ha : a.isOwn = true) : k.effort < l.effort := by
  cases ht with
  | call | wake | arrive | hangUp | fail => cases ha
  | number before => exact effort_setPhase (l := { l with nextId := _ }) hd before (Nat.lt_succ_self 2)
  | refuse before => exact effort_setPhase hd before (Nat.zero_lt_succ 2)
  | unencodable out =>
      obtain ⟨request, phase, before, hlt⟩ := outgoing?_weight out
      exact effort_setPhase hd before (Nat.zero_lt_of_lt hlt)
  | @send n m id bytes out =>
      obtain ⟨request, phase, before, hlt⟩ := outgoing?_weight out
      exact effort_setPhase (l := { l with sent := l.sent ++ [m] }) hd before hlt
  | @take n op id reply before =>
      exact effort_setPhase (l := { l with replies := l.replies.filter fun r => r.1 != id }) hd before Nat.one_pos
  | welcome before =>
      exact effort_setPhase (l := { l with loginReply := none, loggedIn := _ }) hd before Nat.one_pos
  | giveUp before => exact effort_setPhase hd before Nat.one_pos
  | sleep before => exact effort_setPhase hd before Nat.one_pos
  | @store m incoming reading read =>
      have hlt := Incoming.length_readMessage_lt Wire.defaultMaxFrame (Incoming.bytes_ne_nil read)
      simp only [read] at hlt
      obtain ⟨more, hnotices, hmore⟩ := notices_store m { l with incoming }
      rw [store_eq m]
      refine effort_lt_of_pending_lt rfl (Nat.le_add_right _ _) ?_
      simp only [pending, hnotices, List.length_append]
      omega
  | @lose incoming reading read =>
      have hle := Incoming.length_readMessage_le Wire.defaultMaxFrame l.incoming
      rw [read] at hle
      refine effort_lt_of_pending_lt rfl (Nat.le_add_right _ _) ?_
      simp only [pending, lose, reading, List.length_append, List.length_map, List.length_range, List.length_singleton,
        if_true, Bool.false_eq_true, if_false]
      omega
  | @notify condition due =>
      have hlength := List.length_erase_of_mem due
      have hpos := List.length_pos_of_mem due
      refine effort_lt_of_pending_lt (List.length_map _) (weight_wakeSleepers condition { l with notices := _ }) ?_
      have hnotices : ({ l with notices := l.notices.erase condition }.wakeSleepers condition).pending =
          (l.notices.erase condition).length + 2 * l.incoming.bytes.length +
            if l.reading then l.conditions + 2 else 0 := rfl
      rw [hnotices, pending]
      omega

theorem effort_le_work (l : Link) : l.effort ≤ l.work := by
  have hweight : l.weight ≤ 3 * l.calls.length := by
    rw [weight]
    induction l.calls with
    | nil => exact Nat.le_refl 0
    | cons c cs ih =>
        have hc : c.phase.weight ≤ 3 := by cases c.phase <;> simp [Phase.weight]
        simp only [List.map_cons, List.sum_cons, List.length_cons]
        omega
  have hpending : l.pending ≤ 2 * (l.incoming.bytes.length + l.notices.length + l.conditions + 1) := by
    rw [pending]
    split <;> omega
  have hmul := Nat.mul_le_mul_left (l.calls.length + 1) hpending
  rw [effort, work]
  nlinarith

theorem isOwn_of_mem_moves (h : a ∈ l.moves) : a.isOwn = true := by
  simp only [moves, List.mem_append, List.mem_map, List.mem_singleton] at h
  rcases h with (((⟨n, -, rfl⟩ | ⟨n, -, rfl⟩) | ⟨n, -, rfl⟩) | ⟨c, -, rfl⟩) | rfl <;> rfl

theorem numbers_of_find? {c : Call} (hc : l.find? n = some c) : ∃ c ∈ l.calls, c.number = n :=
  ⟨c, mem_of_find? hc, number_of_find? hc⟩

theorem atRest_of_moves (h : ∀ a ∈ l.moves, l.step listing a = none) : l.AtRest listing := by
  intro a ha
  -- A step of a call that is not there is not possible either.
  have hcall {f : Nat → Step} (hmem : ∀ n, (∃ c ∈ l.calls, c.number = n) → f n ∈ l.moves)
      (hnone : ∀ n, l.find? n = none → l.step listing (f n) = none) (n : Nat) : l.step listing (f n) = none := by
    cases hf : l.find? n with
    | none => exact hnone n hf
    | some c => exact h _ (hmem n (numbers_of_find? hf))
  cases a with
  | number n =>
      exact hcall (fun n hn => by simp [moves, hn]) (fun n hf => by simp [step, giveNumber, hf]) n
  | send n written =>
      cases written with
      | false => cases ha
      | true =>
          exact hcall (f := (.send · true)) (fun n hn => by simp [moves, hn])
            (fun n hf => by simp [step, send, outgoing?, hf]) n
  | look n => exact hcall (fun n hn => by simp [moves, hn]) (fun n hf => by simp [step, look, hf]) n
  | read => exact h .read (by simp [moves])
  | notify condition =>
      cases hn : l.notices with
      | nil => simp [step, Link.notify, hn]
      | cons first rest =>
          have hs := h (.notify first) (by simp [moves, hn])
          simp [step, Link.notify, hn] at hs
  | call | wake | arrive | hangUp => cases ha

theorem atRest_settleFor (hd : l.numbers.Nodup) {fuel : Nat} (h : l.effort ≤ fuel) :
    (l.settleFor listing fuel).AtRest listing := by
  induction fuel generalizing l with
  | zero =>
      intro a ha
      cases hs : l.step listing a with
      | none => exact hs
      | some k => exact absurd (effort_turn hd (turn_of_step hs) ha) (by omega)
  | succ fuel ih =>
      rw [settleFor]
      cases hs : l.moves.findSome? (l.step listing) with
      | none => exact atRest_of_moves (List.findSome?_eq_none_iff.mp hs)
      | some k =>
          obtain ⟨a, ha, hk⟩ := List.exists_of_findSome?_eq_some hs
          have hown := isOwn_of_mem_moves ha
          have ht := turn_of_step hk
          have hlt := effort_turn hd ht hown
          exact ih (nodup_numbers_own hd ht hown) (by omega)

theorem atRest_settle (hd : l.numbers.Nodup) (listing : Listing) : (l.settle listing).AtRest listing :=
  atRest_settleFor hd l.effort_le_work

namespace AtRest

variable (h : l.AtRest listing)
include h

theorem notices : l.notices = [] := by
  cases hn : l.notices with
  | nil => rfl
  | cons condition rest =>
      have hs := h (.notify condition) rfl
      simp [step, Link.notify, hn] at hs

theorem not_isReady (hr : l.reading = true) : l.incoming.isReady Wire.defaultMaxFrame = false := by
  have hs : l.read = none := h .read rfl
  cases hready : l.incoming.isReady Wire.defaultMaxFrame with
  | false => rfl
  | true => simp [read, hr, hready] at hs

theorem cases_of_find? (hw : l.Watched) {c : Call} (hc : l.find? n = some c) (hs : c.phase.standing.Suits c.request) :
    (∃ result, c.phase = .returned result) ∨
      (∃ id, c.phase = .asleep id ∧ l.hasReply id = false ∧ l.broken = false) ∨
      (∃ username password, c.request = .logIn username password ∧ c.phase = .start ∧ l.loginInFlight = true) := by
  have hgive : l.giveNumber n = none := h (.number n) rfl
  have hsend : l.send listing n true = none := h (.send n true) rfl
  have hlook : l.look n = none := h (.look n) rfl
  obtain ⟨number, request, phase⟩ := c
  cases phase with
  | returned result => exact .inl ⟨result, rfl⟩
  | start =>
      cases request with
      | perform op => simp [giveNumber, hc] at hgive
      | logIn username password =>
          refine .inr (.inr ⟨username, password, rfl, rfl, ?_⟩)
          cases hflight : l.loginInFlight with
          | true => rfl
          | false => simp [send, outgoing?, hc, hflight] at hsend
  | numbered id =>
      cases request with
      | perform op => simp [send, outgoing?, hc] at hsend
      | logIn => exact hs.elim
  | awake id =>
      cases request with
      | perform op =>
          cases id with
          | none => exact hs.elim
          | some id => simp [look, hc] at hlook
      | logIn =>
          cases id with
          | none => simp [look, hc] at hlook
          | some id => exact hs.elim
  | asleep id =>
      -- A notice would still be pending.
      have hnone (hthere : l.hasReply id = true ∨ l.broken = true) : False := by
        have hdue := hw.due n _ id hc rfl hthere
        rw [h.notices] at hdue
        cases hdue
      refine .inr (.inl ⟨id, rfl, ?_, ?_⟩)
      · exact Bool.eq_false_iff.mpr fun hreply => hnone (.inl hreply)
      · exact Bool.eq_false_iff.mpr fun hdown => hnone (.inr hdown)

theorem returned (hw : l.Watched) (hd : l.numbers.Nodup)
    (hs : ∀ n c, l.find? n = some c → c.phase.standing.Suits c.request) (down : l.broken = true) {c : Call}
    (hc : l.find? n = some c) : ∃ result, c.phase = .returned result := by
  rcases h.cases_of_find? hw hc (hs n c hc) with hr | ⟨id, -, -, hup⟩ | ⟨username, password, -, -, hflight⟩
  · exact hr
  · cases hup.symm.trans down
  · obtain ⟨other, hmem, hother⟩ := List.any_eq_true.mp hflight
    have hfind := find?_of_mem hd hmem
    rcases h.cases_of_find? hw hfind (hs _ _ hfind) with ⟨result, hp⟩ | ⟨id, -, -, hup⟩ | ⟨_, _, -, hp, -⟩
    · simp [hp] at hother
    · cases hup.symm.trans down
    · simp [hp] at hother

end AtRest

end Link

end AwaitStore.Client
