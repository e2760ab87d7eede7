import AwaitStore.Proofs.Client.Passage
import AwaitStore.Proofs.Store.Returns

namespace AwaitStore.Client.Remote

variable {σ : Type}

section Serve

variable [Database σ]

def serve (far : Nat → Bool) (r : Remote σ) (ask : Nat × Operation) : Remote σ × List Return :=
  if far ask.1 then r.perform ask.1 ask.2 else r.performThere ask.1 ask.2

def serveAll (far : Nat → Bool) (r : Remote σ) (asks : List (Nat × Operation)) : Remote σ :=
  asks.foldl (fun r ask => (r.serve far ask).1) r

end Serve

def callers (r : Remote σ) : List Nat := r.waiting.map Waiting.call

def dismiss (calls : List Nat) (r : Remote σ) : Remote σ :=
  { r with waiting := r.waiting.filter fun w => w.call ∉ calls }

def seen (r : Remote σ) (ret : Return) : Return := if ret.call ∈ r.callers then ret.afar else ret

def Reaches (r : Remote σ) (ret : Return) : Prop :=
  ∀ w ∈ r.waiting, w.call = ret.call → w.operation.Suits ret.outcome ∧ r.channel.Returns ret.outcome

section Receive

variable {r : Remote σ}

theorem notMem_callers {call : Nat} (h : r.waiting.find? (fun w => w.call == call) = none) : call ∉ r.callers := by
  intro hc
  obtain ⟨w, hw, rfl⟩ := List.mem_map.mp hc
  simpa using List.find?_eq_none.mp h w hw

theorem dismiss_of_notMem {call : Nat} (h : call ∉ r.callers) : r.dismiss [call] = r := by
  have hall : r.waiting.filter (fun w => w.call ∉ [call]) = r.waiting := by
    apply List.filter_eq_self.mpr
    intro w hw
    simpa using fun he : w.call = call => h (he ▸ List.mem_map_of_mem hw)
  rw [dismiss, hall]

theorem waiting_dismiss (call : Nat) : (r.dismiss [call]).waiting = r.waiting.filter fun w => w.call != call := by
  apply List.filter_congr
  intro w _
  by_cases h : w.call = call <;> simp [h]

theorem dismiss_dismiss (call : Nat) (calls : List Nat) :
    (r.dismiss [call]).dismiss calls = r.dismiss (call :: calls) := by
  have hsame : (r.waiting.filter fun w => w.call ∉ [call]).filter (fun w => w.call ∉ calls) =
      r.waiting.filter fun w => w.call ∉ call :: calls := by
    rw [List.filter_filter]
    exact List.filter_congr fun w _ => by simp [Bool.and_comm]
  simp only [dismiss, hsame]

theorem mem_callers_dismiss {calls : List Nat} {call : Nat} :
    call ∈ (r.dismiss calls).callers ↔ call ∈ r.callers ∧ call ∉ calls := by
  simp only [callers, dismiss, List.mem_map, List.mem_filter, decide_eq_true_eq]
  constructor
  · rintro ⟨w, ⟨hw, hnot⟩, rfl⟩
    exact ⟨⟨w, hw, rfl⟩, hnot⟩
  · rintro ⟨⟨w, hw, rfl⟩, hnot⟩
    exact ⟨w, ⟨hw, hnot⟩, rfl⟩

theorem receive_eq {ret : Return} (h : r.Reaches ret) (returns : List Return) :
    receive (r, returns) ret = (r.dismiss [ret.call], returns ++ [r.seen ret]) := by
  simp only [receive]
  split
  next hnone =>
    have hnot := notMem_callers hnone
    rw [dismiss_of_notMem hnot, seen, if_neg hnot]
  next w hsome =>
    have hw := List.mem_of_find?_eq_some hsome
    have he : w.call = ret.call := by simpa using List.find?_some hsome
    obtain ⟨hsuits, hreturns⟩ := h w hw he
    have hmem : ret.call ∈ r.callers := he ▸ List.mem_map_of_mem hw
    simp only [hreturns.answered, Operation.outcome_reply hsuits, ← waiting_dismiss, seen, if_pos hmem]
    rfl

theorem receive_foldl {returns : List Return} (hn : (returns.map Return.call).Nodup)
    (h : ∀ ret ∈ returns, r.Reaches ret) (early : List Return) :
    returns.foldl receive (r, early) = (r.dismiss (returns.map Return.call), early ++ returns.map r.seen) := by
  induction returns generalizing r early with
  | nil => simp [dismiss]
  | cons ret returns ih =>
      obtain ⟨hfirst, hn⟩ := List.nodup_cons.mp hn
      rw [List.foldl_cons, receive_eq (h ret List.mem_cons_self), ih hn]
      · have hseen : returns.map (r.dismiss [ret.call]).seen = returns.map r.seen := by
          apply List.map_congr_left
          intro other ho
          have hne : other.call ≠ ret.call := fun he => hfirst (he ▸ List.mem_map_of_mem ho)
          simp only [seen, mem_callers_dismiss, List.mem_singleton, hne, not_false_eq_true, and_true]
        rw [hseen, dismiss_dismiss]
        simp
      · intro other ho w hw
        exact h other (List.mem_cons_of_mem ret ho) w (List.mem_filter.mp hw).1

theorem receive_foldl_cases (returns : List Return) (r : Remote σ) (early : List Return) :
    (returns.foldl receive (r, early)).1 = r.dismiss (returns.map Return.call) ∨
      (returns.foldl receive (r, early)).1 = r.lose.1 := by
  have hfirst (r : Remote σ) (early : List Return) (ret : Return) :
      (receive (r, early) ret).1 = r.dismiss [ret.call] ∨ (receive (r, early) ret).1 = r.lose.1 := by
    simp only [receive]
    split
    next hnone =>
      left
      rw [dismiss_of_notMem (notMem_callers hnone)]
    · split
      · left
        simp only [← waiting_dismiss]
        rfl
      · exact .inr rfl
  induction returns generalizing r early with
  | nil =>
      left
      simp [dismiss]
  | cons ret returns ih =>
      rw [List.foldl_cons]
      rcases hfirst r early ret with he | he
      · rcases ih (receive (r, early) ret).1 (receive (r, early) ret).2 with hrest | hrest
        · left
          rw [hrest, he, dismiss_dismiss]
          rfl
        · exact .inr (by rw [hrest, he]; rfl)
      · right
        rcases ih (receive (r, early) ret).1 (receive (r, early) ret).2 with hrest | hrest <;> rw [hrest, he] <;> rfl

end Receive

section Serve

variable [Database σ] {far : Nat → Bool} {call : Nat} {op : Operation} {r : Remote σ}

theorem performThere_cases (r : Remote σ) (call : Nat) (op : Operation) :
    (r.performThere call op).1 =
        { r with server := (Database.perform call op r.server).1 }.dismiss
          ((Database.perform call op r.server).2.map Return.call) ∨
      (r.performThere call op).1 = { r with server := (Database.perform call op r.server).1 }.lose.1 :=
  receive_foldl_cases _ _ []

theorem perform_of_takes (hup : r.broken = false) (h : r.channel.Takes op) :
    r.perform call op =
      ({ r with nextId := idAfter r.nextId }.await call r.nextId op).performThere call op := by
  obtain ⟨bytes, hframe, hasked⟩ := h.asked r.nextId
  rw [perform, if_neg (by simp [hup])]
  simp only [hframe, hasked]

theorem channel_performThere : (r.performThere call op).1.channel = r.channel := by
  rcases r.performThere_cases call op with he | he <;> rw [he] <;> rfl

theorem channel_serve (ask : Nat × Operation) : (r.serve far ask).1.channel = r.channel := by
  unfold Remote.serve
  split
  · unfold perform
    split
    · rfl
    · simp only
      split
      · rfl
      · split
        · rfl
        · exact channel_performThere
  · exact channel_performThere

theorem channel_serveAll (asks : List (Nat × Operation)) : (r.serveAll far asks).channel = r.channel := by
  induction asks generalizing r with
  | nil => rfl
  | cons ask asks ih => exact ih.trans (channel_serve ask)

end Serve

/-- What is known between two calls of the callers behind the connection. -/
structure Kept (asleep : σ → List Nat) (far : Nat → Bool) (calls : List Nat) (r : Remote σ) : Prop where
  nodup : (asleep r.server).Nodup
  asked : ∀ n ∈ asleep r.server, n ∈ calls
  waiting : ∀ w ∈ r.waiting, w.call ∈ calls ∧ far w.call = true
  waits : r.broken = false → ∀ n ∈ asleep r.server, far n = true → n ∈ r.callers
  conditional : ∀ w ∈ r.waiting, w.call ∈ asleep r.server → w.operation.isConditional = true

/-- What is known of them when the database is about to be asked for `op`. -/
structure Ready (asleep : σ → List Nat) (far : Nat → Bool) (calls : List Nat) (call : Nat) (op : Operation)
    (r : Remote σ) : Prop where
  nodup : (call :: asleep r.server).Nodup
  asked : ∀ n ∈ asleep r.server, n ∈ calls
  waiting : ∀ w ∈ r.waiting, w.call ∈ calls ++ [call] ∧ far w.call = true
  waits : r.broken = false → ∀ n ∈ call :: asleep r.server, far n = true → n ∈ r.callers
  own : ∀ w ∈ r.waiting, w.call = call → w.operation = op
  conditional : ∀ w ∈ r.waiting, w.call ∈ asleep r.server → w.operation.isConditional = true

section Invariant

variable {asleep : σ → List Nat} {far : Nat → Bool} {calls : List Nat} {call : Nat} {op : Operation} {r : Remote σ}

theorem Kept.ready (h : Kept asleep far calls r) (hnew : call ∉ calls) (hnear : far call = false) :
    Ready asleep far calls call op r where
  nodup := List.nodup_cons.mpr ⟨fun hc => hnew (h.asked call hc), h.nodup⟩
  asked := h.asked
  waiting w hw := ⟨List.mem_append_left _ (h.waiting w hw).1, (h.waiting w hw).2⟩
  waits hup n hn hfar := by
    rcases List.mem_cons.mp hn with rfl | hn
    · simp [hnear] at hfar
    · exact h.waits hup n hn hfar
  own w hw he := absurd (he ▸ (h.waiting w hw).1) hnew
  conditional := h.conditional

theorem Kept.ready_await (h : Kept asleep far calls r) (hnew : call ∉ calls) (hfar : far call = true)
    (op : Operation) (id : Wire.RequestId) : Ready asleep far calls call op (r.await call id op) where
  nodup := List.nodup_cons.mpr ⟨fun hc => hnew (h.asked call hc), h.nodup⟩
  asked := h.asked
  waiting w hw := by
    rcases List.mem_append.mp hw with hw | hw
    · exact ⟨List.mem_append_left _ (h.waiting w hw).1, (h.waiting w hw).2⟩
    · cases List.mem_singleton.mp hw
      exact ⟨List.mem_append_right _ (List.mem_singleton.mpr rfl), hfar⟩
  waits hup n hn hfar := by
    rw [callers, await, List.map_append]
    rcases List.mem_cons.mp hn with rfl | hn
    · exact List.mem_append_right _ (List.mem_singleton.mpr rfl)
    · exact List.mem_append_left _ (h.waits hup n hn hfar)
  own w hw he := by
    rcases List.mem_append.mp hw with hw | hw
    · exact absurd (he ▸ (h.waiting w hw).1) hnew
    · cases List.mem_singleton.mp hw
      rfl
  conditional w hw hs := by
    rcases List.mem_append.mp hw with hw | hw
    · exact h.conditional w hw hs
    · cases List.mem_singleton.mp hw
      exact absurd (h.asked _ hs) hnew

theorem Kept.number (h : Kept asleep far calls r) (nextId : Wire.RequestId) :
    Kept asleep far calls { r with nextId } :=
  ⟨h.nodup, h.asked, h.waiting, h.waits, h.conditional⟩

theorem Kept.snoc (h : Kept asleep far calls r) (call : Nat) : Kept asleep far (calls ++ [call]) r where
  nodup := h.nodup
  asked n hn := List.mem_append_left _ (h.asked n hn)
  waiting w hw := ⟨List.mem_append_left _ (h.waiting w hw).1, (h.waiting w hw).2⟩
  waits := h.waits
  conditional := h.conditional

theorem Kept.lose (hn : (asleep r.server).Nodup) (ha : ∀ n ∈ asleep r.server, n ∈ calls) :
    Kept asleep far calls r.lose.1 where
  nodup := hn
  asked := ha
  waiting _ hw := nomatch hw
  waits hup := nomatch hup
  conditional _ hw := nomatch hw

variable [Database σ] (db : Database.Orderly asleep)
include db

theorem Ready.nodup_perform (h : Ready asleep far calls call op r) :
    ((Database.perform call op r.server).2.map Return.call ++
      asleep (Database.perform call op r.server).1).Nodup := by
  obtain ⟨kept, hperm, hsub⟩ := db.once call op r.server
  exact hperm.nodup_iff.mp (hsub.nodup h.nodup)

theorem Ready.kept (h : Ready asleep far calls call op r) :
    Kept asleep far (calls ++ [call]) (r.performThere call op).1 := by
  have hnodup := h.nodup_perform db
  have hnow : ∀ n ∈ asleep (Database.perform call op r.server).1, n ∈ call :: asleep r.server :=
    fun n hn => (db.once call op r.server).subset (List.mem_append_right _ hn)
  have hasked : ∀ n ∈ asleep (Database.perform call op r.server).1, n ∈ calls ++ [call] := by
    intro n hn
    rcases List.mem_cons.mp (hnow n hn) with rfl | hn
    · simp
    · exact List.mem_append_left _ (h.asked n hn)
  rcases r.performThere_cases call op with he | he
  · rw [he]
    constructor
    · exact (List.nodup_append.mp hnodup).2.1
    · exact hasked
    · exact fun w hw => h.waiting w (List.mem_filter.mp hw).1
    · intro hup n hn hfar
      refine mem_callers_dismiss.mpr ⟨h.waits hup n (hnow n hn) hfar, fun hret => ?_⟩
      exact (List.nodup_append.mp hnodup).2.2 n hret n hn rfl
    · intro w hw hs
      have hw := (List.mem_filter.mp hw).1
      rcases db.conditional call op r.server _ hs with hs | ⟨hcall, hop⟩
      · exact h.conditional w hw hs
      · exact (h.own w hw hcall).symm ▸ hop
  · rw [he]
    exact .lose (List.nodup_append.mp hnodup).2.1 hasked

theorem Ready.reaches (h : Ready asleep far calls call op r)
    (hback : ∀ ret ∈ (Database.perform call op r.server).2, far ret.call = true → r.channel.Returns ret.outcome) :
    ∀ ret ∈ (Database.perform call op r.server).2, r.Reaches ret := by
  intro ret hret w hw he
  refine ⟨?_, hback ret hret (he ▸ (h.waiting w hw).2)⟩
  rcases db.suits call op r.server ret hret with ⟨hcall, hsuits⟩ | ⟨hasleep, value, hvalue⟩
  · exact (h.own w hw (he.trans hcall)).symm ▸ hsuits
  · rw [hvalue]
    have hop := h.conditional w hw (he.symm ▸ hasleep)
    cases ho : w.operation with
    | getWhen wish => trivial
    | put key value | get key | multiPut pairs | multiGet keys => simp [ho, Operation.isConditional] at hop

theorem Ready.seen_eq (h : Ready asleep far calls call op r) (hup : r.broken = false) :
    ∀ ret ∈ (Database.perform call op r.server).2, r.seen ret = if far ret.call then ret.afar else ret := by
  intro ret hret
  have hmem : ret.call ∈ call :: asleep r.server :=
    (db.once call op r.server).subset (List.mem_append_left _ (List.mem_map_of_mem hret))
  have hiff : ret.call ∈ r.callers ↔ far ret.call = true := by
    refine ⟨fun hc => ?_, h.waits hup ret.call hmem⟩
    obtain ⟨w, hw, he⟩ := List.mem_map.mp hc
    exact he ▸ (h.waiting w hw).2
  simp only [seen, hiff]

theorem Ready.performThere_eq (h : Ready asleep far calls call op r) (hup : r.broken = false)
    (hback : ∀ ret ∈ (Database.perform call op r.server).2, far ret.call = true → r.channel.Returns ret.outcome) :
    r.performThere call op =
      ({ r with server := (Database.perform call op r.server).1 }.dismiss
          ((Database.perform call op r.server).2.map Return.call),
        (Database.perform call op r.server).2.map fun ret => if far ret.call then ret.afar else ret) := by
  have hnodup := (List.nodup_append.mp (h.nodup_perform db)).1
  have hfold := receive_foldl (r := { r with server := (Database.perform call op r.server).1 }) hnodup
    (h.reaches db hback) []
  rw [← List.map_congr_left (h.seen_eq db hup)]
  exact hfold

theorem Kept.serve (h : Kept asleep far calls r) (hnew : call ∉ calls) (op : Operation) :
    Kept asleep far (calls ++ [call]) (r.serve far (call, op)).1 := by
  unfold Remote.serve
  split
  next hfar =>
    simp only [perform]
    split
    · exact h.snoc call
    · split
      · exact (h.number (idAfter r.nextId)).snoc call
      next bytes hframe =>
        rw [Channel.asked_of_frame hframe]
        split
        next hnone => exact .lose h.nodup fun n hn => List.mem_append_left _ (h.asked n hn)
        next id asked hsome =>
          split at hsome
          · cases hsome
            exact ((h.number (idAfter r.nextId)).ready_await hnew hfar op r.nextId).kept db
          · cases hsome
  next hnear => exact (h.ready hnew (by simpa using hnear)).kept db

theorem kept_serveAll (ch : Channel) {s : σ} (hs : asleep s = []) {asks : List (Nat × Operation)}
    (hn : (asks.map Prod.fst).Nodup) (far : Nat → Bool) :
    Kept asleep far (asks.map Prod.fst) ((connect ch s).serveAll far asks) := by
  induction asks using List.reverseRecOn with
  | nil =>
      constructor <;> simp [serveAll, connect, hs]
  | append_singleton asks ask ih =>
      rw [List.map_append] at hn ⊢
      have hnew : ask.1 ∉ asks.map Prod.fst := fun hc =>
        (List.nodup_append.mp hn).2.2 _ hc _ (List.mem_singleton.mpr rfl) rfl
      rw [serveAll, List.foldl_append]
      exact (ih (List.nodup_append.mp hn).1).serve db hnew ask.2

theorem Kept.serve_eq (h : Kept asleep far calls r) (hnew : call ∉ calls) (hup : r.broken = false)
    (htake : far call = true → r.channel.Takes op)
    (hback : ∀ ret ∈ (Database.perform call op r.server).2, far ret.call = true → r.channel.Returns ret.outcome) :
    (r.serve far (call, op)).1.server = (Database.perform call op r.server).1 ∧
      (r.serve far (call, op)).1.broken = false ∧
        (r.serve far (call, op)).2 =
          (Database.perform call op r.server).2.map fun ret => if far ret.call then ret.afar else ret := by
  by_cases hfar : far call = true
  · have hready := (h.number (idAfter r.nextId)).ready_await hnew hfar op r.nextId
    rw [Remote.serve, if_pos hfar, perform_of_takes hup (htake hfar), hready.performThere_eq db hup hback]
    exact ⟨rfl, hup, rfl⟩
  · have hnear : far call = false := by simpa using hfar
    rw [Remote.serve, if_neg hfar, (h.ready hnew hnear).performThere_eq db hup hback]
    exact ⟨rfl, hup, rfl⟩

end Invariant

open Store in
/-- A call through a connection that holds does to the store what the same call does at the store's own side, whatever
has been called on both sides before, and whoever hears of it from afar hears the same, an error by its message. -/
theorem serve_alike {kind : Kind} {b : Backend} (hb : kind.build = .ok b) (ch : Channel) (far : Nat → Bool)
    (asks : List (Nat × Operation)) (call : Nat) (op : Operation) (hn : ((asks ++ [(call, op)]).map Prod.fst).Nodup)
    (hup : ((connect ch b).serveAll far asks).broken = false) (htake : far call = true → ch.Takes op)
    (hback : ∀ ret ∈ (Database.perform call op ((connect ch b).serveAll far asks).server).2,
      far ret.call = true → ch.Returns ret.outcome) :
    let direct := Database.perform call op ((connect ch b).serveAll far asks).server
    let remote := ((connect ch b).serveAll far asks).serve far (call, op)
    remote.1.server = direct.1 ∧ remote.1.broken = false ∧
      remote.2 = direct.2.map (fun ret => if far ret.call then ret.afar else ret) ∧
        ∀ ret ∈ remote.2, far ret.call = true → ∀ kind, ret.outcome ≠ .error (.unexpectedReply kind) := by
  have hempty : b.asleep = [] := by
    cases kind with
    | simple | multiCondition =>
        cases hb
        rfl
    | sharded shards =>
        cases shards with
        | zero => cases hb
        | succ n =>
            simp only [Kind.build] at hb
            split at hb <;> cases hb
            rfl
  rw [List.map_append] at hn
  have hkept := kept_serveAll Backend.orderly ch hempty (List.nodup_append.mp hn).1 far
  have hnew : call ∉ asks.map Prod.fst := fun hc =>
    (List.nodup_append.mp hn).2.2 _ hc _ (List.mem_singleton.mpr rfl) rfl
  have hch : ((connect ch b).serveAll far asks).channel = ch := channel_serveAll asks
  obtain ⟨hserver, hbroken, hreturns⟩ := hkept.serve_eq Backend.orderly hnew hup (hch.symm ▸ htake) (hch.symm ▸ hback)
  refine ⟨hserver, hbroken, hreturns, ?_⟩
  intro ret hret hfar kind he
  rw [hreturns] at hret
  obtain ⟨own, -, rfl⟩ := List.mem_map.mp hret
  cases hown : far own.call with
  | false => simp [hown] at hfar
  | true =>
      simp only [hown, if_true, Return.afar] at he
      cases ho : own.outcome <;> simp [ho, Outcome.afar] at he

open Store in
/-- The first call sleeps behind the connection while the second is made at the store's own side, and it returns when
the third writes what it waits for. -/
theorem serve_alike_awaited :
    ∃ r, r = (connect ⟨.ascending, .ascending, 100, 200⟩ (Backend.simple .empty)).serveAll (· != 2)
        [(1, .getWhen ⟨"a", "b", [7]⟩), (2, .put "a" [5])] ∧
      r.server.asleep = [1] ∧
        (r.serve (· != 2) (3, .put "b" [7])).1.server = (Database.perform 3 (.put "b" [7]) r.server).1 ∧
          (r.serve (· != 2) (3, .put "b" [7])).2 = [⟨3, .ok .stored⟩, ⟨1, .ok (.value (some [5]))⟩] := by
  refine ⟨_, rfl, rfl, ?_⟩
  have hreturns : (Database.perform 3 (.put "b" [7])
      ((connect ⟨.ascending, .ascending, 100, 200⟩ (Backend.simple .empty)).serveAll (· != 2)
        [(1, .getWhen ⟨"a", "b", [7]⟩), (2, .put "a" [5])]).server).2 =
          [⟨3, .ok .stored⟩, ⟨1, .ok (.value (some [5]))⟩] := rfl
  have h := serve_alike (show Kind.simple.build = .ok _ from rfl) ⟨.ascending, .ascending, 100, 200⟩ (· != 2)
    [(1, .getWhen ⟨"a", "b", [7]⟩), (2, .put "a" [5])] 3 (.put "b" [7]) (by decide) rfl
    (fun _ => ⟨1, _, rfl, by decide⟩) (by
      rw [hreturns]
      simp only [List.forall_mem_cons]
      exact ⟨fun _ => ⟨1, _, rfl, by decide⟩, fun _ => ⟨1, _, rfl, by decide⟩, nofun⟩)
  refine ⟨h.1, h.2.2.1.trans ?_⟩
  rw [hreturns]
  rfl

end AwaitStore.Client.Remote
