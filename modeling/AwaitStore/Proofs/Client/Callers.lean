import AwaitStore.Client.Link
import Mathlib.Logic.Function.Basic

namespace AwaitStore.Client

open Wire (AuthStatus Incoming Listing Message RequestId)

/-- How far a call has come. Whether its caller sleeps makes no difference. -/
inductive Standing where
  | new
  | numbered (id : RequestId)
  | waiting (id : Option RequestId)
  | ended (result : Result)

def Phase.standing : Phase → Standing
  | .start => .new
  | .numbered id => .numbered id
  | .awake id | .asleep id => .waiting id
  | .returned result => .ended result

namespace Link

variable {l : Link}

def standing (l : Link) (n : Nat) : Option (Request × Standing) :=
  (l.find? n).map fun c => (c.request, c.phase.standing)

theorem number_of_find? {n : Nat} {c : Call} (h : l.find? n = some c) : c.number = n := by
  simpa using List.find?_some h

theorem mem_of_find? {n : Nat} {c : Call} (h : l.find? n = some c) : c ∈ l.calls := List.mem_of_find?_eq_some h

theorem find?_map (l : Link) {f : Call → Call} (hf : ∀ c, (f c).number = c.number) (n : Nat) :
    { l with calls := l.calls.map f }.find? n = (l.find? n).map f := by
  simp only [find?, List.find?_map, Function.comp_def, hf]

theorem find?_setPhase (l : Link) (n : Nat) (phase : Phase) (m : Nat) :
    (l.setPhase n phase).find? m = (l.find? m).map fun c => if c.number == n then { c with phase } else c := by
  apply find?_map
  intro c
  split <;> rfl

theorem find?_setPhase_of_ne {n m : Nat} (h : m ≠ n) (phase : Phase) : (l.setPhase n phase).find? m = l.find? m := by
  rw [find?_setPhase]
  cases hc : l.find? m with
  | none => rfl
  | some c =>
      have hne : c.number ≠ n := number_of_find? hc ▸ h
      simp [hne]

theorem find?_setPhase_self {n k : Nat} {request : Request} {before : Phase} (h : l.find? n = some ⟨k, request, before⟩)
    (phase : Phase) : (l.setPhase n phase).find? n = some ⟨k, request, phase⟩ := by
  have hk : k = n := number_of_find? h
  simp [find?_setPhase, h, hk]

theorem standing_setPhase {n k : Nat} {request : Request} {before : Phase}
    (h : l.find? n = some ⟨k, request, before⟩) (phase : Phase) :
    (l.setPhase n phase).standing = Function.update l.standing n (some (request, phase.standing)) := by
  funext m
  by_cases hm : m = n
  · subst hm
    simp [standing, find?_setPhase_self h]
  · simp [standing, find?_setPhase_of_ne hm, hm]

theorem standing_setPhase_of_eq {n k : Nat} {request : Request} {before phase : Phase}
    (h : l.find? n = some ⟨k, request, before⟩) (he : phase.standing = before.standing) :
    (l.setPhase n phase).standing = l.standing := by
  rw [standing_setPhase h, he]
  apply Function.update_eq_self_iff.mpr
  simp [standing, h]

def summoned (condition : Condition) (l : Link) (c : Call) : Call :=
  if l.sleepsOn condition c then
    match c.phase with
    | .asleep id => { c with phase := .awake id }
    | _ => c
  else c

theorem summoned_cases (condition : Condition) (l : Link) (c : Call) :
    (l.sleepsOn condition c = true ∧ ∃ id, c.phase = .asleep id ∧
      l.summoned condition c = { c with phase := .awake id }) ∨
    (l.sleepsOn condition c = false ∧ l.summoned condition c = c) := by
  cases hs : l.sleepsOn condition c with
  | false =>
      right
      simp [summoned, hs]
  | true =>
      left
      obtain ⟨number, request, phase⟩ := c
      cases phase with
      | asleep id => exact ⟨rfl, id, rfl, by simp [summoned, hs]⟩
      | start | numbered | awake | returned => cases hs

theorem find?_wakeSleepers (condition : Condition) (l : Link) (n : Nat) :
    (l.wakeSleepers condition).find? n = (l.find? n).map (l.summoned condition) := by
  refine find?_map l (f := l.summoned condition) (fun c => ?_) n
  rcases l.summoned_cases condition c with ⟨-, id, -, he⟩ | ⟨-, he⟩ <;> rw [he]

theorem standing_wakeSleepers (condition : Condition) (l : Link) :
    (l.wakeSleepers condition).standing = l.standing := by
  funext n
  rw [standing, find?_wakeSleepers, Option.map_map]
  cases hc : l.find? n with
  | none => simp [standing, hc]
  | some c =>
      rcases l.summoned_cases condition c with ⟨-, id, hp, he⟩ | ⟨-, he⟩
      · simp [standing, hc, he, hp, Phase.standing]
      · simp [standing, hc, he]

theorem find?_call (l : Link) (n : Nat) (request : Request) (m : Nat) :
    Link.find? m { l with calls := l.calls ++ [(⟨n, request, .start⟩ : Call)] } =
      (l.find? m).or (if n = m then some ⟨n, request, .start⟩ else none) := by
  simp only [find?, List.find?_append, List.find?_singleton, beq_iff_eq]

theorem standing_call (l : Link) (n : Nat) (request : Request) :
    Link.standing { l with calls := l.calls ++ [(⟨n, request, .start⟩ : Call)] } =
      if l.standing n = none then Function.update l.standing n (some (request, .new)) else l.standing := by
  funext m
  rw [standing, find?_call]
  by_cases hm : m = n
  · subst hm
    cases hc : l.find? m <;> simp [standing, hc, Phase.standing]
  · rw [if_neg (Ne.symm hm), Option.or_none]
    split
    · rw [Function.update_of_ne hm, standing]
    · rfl

theorem store_eq (m : Message) (l : Link) :
    l.store m =
      { l with
        replies := (l.store m).replies
        loginReply := (l.store m).loginReply
        notices := (l.store m).notices } := by
  unfold store
  split
  · rfl
  · split <;> rfl

theorem notices_store (m : Message) (l : Link) :
    ∃ more, (l.store m).notices = l.notices ++ more ∧ more.length ≤ 1 := by
  unfold store
  split
  · exact ⟨_, rfl, Nat.le_refl 1⟩
  · split
    · exact ⟨_, rfl, Nat.le_refl 1⟩
    · exact ⟨[], (List.append_nil _).symm, Nat.zero_le 1⟩

def hasReply (l : Link) : Option RequestId → Bool
  | some id => (l.replies.lookup id).isSome
  | none => l.loginReply.isSome

inductive Turn (listing : Listing) (l : Link) : Step → Link → Prop
  | call (n : Nat) (request : Request) :
      Turn listing l (.call n request) { l with calls := l.calls ++ [(⟨n, request, .start⟩ : Call)] }
  | number {n : Nat} {op : Operation} (before : l.find? n = some ⟨n, .perform op, .start⟩) (up : l.broken = false) :
      Turn listing l (.number n) ({ l with nextId := idAfter l.nextId }.setPhase n (.numbered l.nextId))
  | refuse {n : Nat} {op : Operation} (before : l.find? n = some ⟨n, .perform op, .start⟩) (down : l.broken = true) :
      Turn listing l (.number n) (l.setPhase n (.returned (.failed .connectionBroken)))
  | unencodable {n : Nat} {written : Bool} {m : Message} {id : Option RequestId} {error : Wire.WireError}
      (out : l.outgoing? n = some (m, id)) (unframed : Wire.frame listing m = .error error) :
      Turn listing l (.send n written) (l.setPhase n (.returned (.failed (.wire error))))
  | send {n : Nat} {m : Message} {id : Option RequestId} {bytes : Bytes} (out : l.outgoing? n = some (m, id))
      (framed : Wire.frame listing m = .ok bytes) :
      Turn listing l (.send n true) ({ l with sent := l.sent ++ [m] }.setPhase n (.awake id))
  | fail {n : Nat} {m : Message} {id : Option RequestId} {bytes : Bytes} (out : l.outgoing? n = some (m, id))
      (framed : Wire.frame listing m = .ok bytes) :
      Turn listing l (.send n false) (l.lose.setPhase n (.returned (.failed .connectionFailed)))
  | take {n : Nat} {op : Operation} {id : RequestId} {reply : Message}
      (before : l.find? n = some ⟨n, .perform op, .awake (some id)⟩) (found : l.replies.lookup id = some reply) :
      Turn listing l (.look n)
        ({ l with replies := l.replies.filter fun r => r.1 != id }.setPhase n
          (.returned (.outcome (op.outcome reply))))
  | welcome {n : Nat} {username password : String} {status : AuthStatus}
      (before : l.find? n = some ⟨n, .logIn username password, .awake none⟩) (found : l.loginReply = some status) :
      Turn listing l (.look n)
        ({ l with loginReply := none, loggedIn := l.loggedIn || status.isSuccess }.setPhase n
          (.returned (.status status)))
  | giveUp {n : Nat} {request : Request} {id : Option RequestId}
      (before : l.find? n = some ⟨n, request, .awake id⟩) (nothing : l.hasReply id = false) (down : l.broken = true) :
      Turn listing l (.look n) (l.setPhase n (.returned (.failed .connectionBroken)))
  | sleep {n : Nat} {request : Request} {id : Option RequestId}
      (before : l.find? n = some ⟨n, request, .awake id⟩) (nothing : l.hasReply id = false) (up : l.broken = false) :
      Turn listing l (.look n) (l.setPhase n (.asleep id))
  | wake {n : Nat} {request : Request} {id : Option RequestId} (before : l.find? n = some ⟨n, request, .asleep id⟩) :
      Turn listing l (.wake n) (l.setPhase n (.awake id))
  | arrive (bytes : Bytes) : Turn listing l (.arrive bytes) { l with incoming := l.incoming.arrive bytes }
  | hangUp : Turn listing l .hangUp { l with incoming := l.incoming.finish }
  | store {m : Message} {incoming : Incoming} (reading : l.reading = true)
      (read : l.incoming.readMessage Wire.defaultMaxFrame = (.ok (some m), incoming)) :
      Turn listing l .read ({ l with incoming }.store m)
  | lose {incoming : Incoming} (reading : l.reading = true)
      (read : (l.incoming.readMessage Wire.defaultMaxFrame).2 = incoming) :
      Turn listing l .read { l with incoming, reading := false }.lose
  | notify {condition : Condition} (due : condition ∈ l.notices) :
      Turn listing l (.notify condition) ({ l with notices := l.notices.erase condition }.wakeSleepers condition)

theorem find?_number_eq {n : Nat} {c : Call} (h : l.find? n = some c) : l.find? n = some ⟨n, c.request, c.phase⟩ := by
  obtain ⟨k, request, phase⟩ := c
  obtain rfl : k = n := number_of_find? h
  exact h

theorem turn_of_look {listing : Listing} {n : Nat} {l' : Link} (h : l.look n = some l') :
    Turn listing l (.look n) l' := by
  unfold look at h
  split at h
  next op id hc =>
    have hc := find?_number_eq hc
    cases h
    unfold lookReply
    split
    next reply hr => exact .take hc hr
    next hr =>
      have hnothing : l.hasReply (some id) = false := by simp [hasReply, hr]
      split
      next hb => exact .giveUp hc hnothing hb
      next hb => exact .sleep hc hnothing (by simpa using hb)
  next username password hc =>
    have hc := find?_number_eq hc
    cases h
    unfold lookLogin
    split
    next status hs => exact .welcome hc hs
    next hs =>
      have hnothing : l.hasReply none = false := by simp [hasReply, hs]
      split
      next hb => exact .giveUp hc hnothing hb
      next hb => exact .sleep hc hnothing (by simpa using hb)
  · cases h

theorem turn_of_step {listing : Listing} {a : Step} {l' : Link} (h : l.step listing a = some l') :
    Turn listing l a l' := by
  cases a with
  | call n request =>
      cases h
      exact .call n request
  | number n =>
      simp only [step, giveNumber] at h
      split at h
      next op hc =>
        have hc := find?_number_eq hc
        cases h
        split
        next hb => exact .refuse hc hb
        next hb => exact .number hc (by simpa using hb)
      · cases h
  | send n written =>
      simp only [step, send] at h
      split at h
      · cases h
      next m id out =>
        cases h
        split
        next e he => exact .unencodable out he
        next bytes hb =>
          cases written with
          | true => exact .send out hb
          | false => exact .fail out hb
  | look n => exact turn_of_look h
  | wake n =>
      simp only [step, wake] at h
      split at h
      next hc =>
        cases h
        exact .wake (find?_number_eq hc)
      · cases h
  | arrive bytes =>
      cases h
      exact .arrive bytes
  | hangUp =>
      cases h
      exact .hangUp
  | read =>
      simp only [step, read] at h
      split at h
      · cases h
      next hready =>
        have hreading : l.reading = true := by
          by_contra hoff
          exact hready (.inl (by simpa using hoff))
        cases h
        split
        next m hm => exact .store hreading (Prod.ext hm rfl)
        · exact .lose hreading rfl
        · exact .lose hreading rfl
  | notify condition =>
      simp only [step, notify] at h
      split at h
      next hd =>
        cases h
        exact .notify hd
      · cases h

end Link

end AwaitStore.Client
