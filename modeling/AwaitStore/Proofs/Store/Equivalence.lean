import AwaitStore.Proofs.Store.Summons
import AwaitStore.Proofs.Store.Turns
import AwaitStore.Proofs.Store.WaiterIds
import AwaitStore.Proofs.Transitions

namespace AwaitStore.Store

def conditionals (requests : List (Nat × Operation)) : Nat := requests.countP fun r => r.2.isConditional

/-- When a conditional read comes, no call still waits that came 2 ^ 64 conditional reads before it. -/
def NoneLapped (requests : List (Nat × Operation)) : Prop :=
  ∀ front call wish middle other wish' back,
    requests = front ++ (call, .getWhen wish) :: (middle ++ (other, .getWhen wish') :: back) →
      call ∈ (AtomicStore.empty.run (front ++ (call, .getWhen wish) :: middle)).waiting.map Prod.fst →
        conditionals middle + 1 < UInt64.size

theorem noneLapped_of_lt {requests : List (Nat × Operation)} (h : conditionals requests < UInt64.size) :
    NoneLapped requests := by
  rintro front call wish middle other wish' back rfl -
  simp only [conditionals, List.countP_append, List.countP_cons, Operation.isConditional, if_true] at h ⊢
  omega

namespace SingleLock

/-- These calls can be made of an empty store in such a way that this is what shows of it. -/
def Shows (σ : Type) [Triggers σ] (requests : List (Nat × Operation)) (seen : List Observation) : Prop :=
  ∃ turns s, turns.map Turn.request = requests ∧
    runSteps SingleLock.turn (empty : SingleLock σ) turns = some (s, seen)

section Course

open Bookkeeping

variable {σ : Type} [Triggers σ] [Calling σ] {requests : List (Nat × Operation)}
  {Known : List (Nat × Operation) → SingleLock σ → Prop}

structure Course (Known : List (Nat × Operation) → SingleLock σ → Prop) (requests : List (Nat × Operation))
    (s : SingleLock σ) : Prop where
  exact : s.Exact
  due_eq : s.due = []
  atomic_eq : s.atomic = AtomicStore.empty.run requests
  known : Known requests s

structure Provides (Known : List (Nat × Operation) → SingleLock σ → Prop)
    (requests : List (Nat × Operation)) : Prop where
  empty : Known [] SingleLock.empty
  turn : ∀ {front : List (Nat × Operation)} {s t : SingleLock σ} {a : Turn} {seen : Option Observation},
    Known front s → s.turn a = some (t, seen) → Known (front ++ [a.request]) t
  fresh : ∀ {front call wish back}, requests = front ++ (call, .getWhen wish) :: back →
    call ∉ front.map Prod.fst
  room : ∀ {front call wish back} {s : SingleLock σ}, requests = front ++ (call, .getWhen wish) :: back →
    Course Known front s → Room s.live s.triggers

theorem Provides.course_empty (hp : Provides Known requests) : Course Known [] SingleLock.empty :=
  ⟨exact_empty, rfl, rfl, hp.empty⟩

theorem Course.mem_of_mem_sleeping {s : SingleLock σ} (h : Course Known requests s) {call : Nat}
    (hc : call ∈ s.sleeping) : call ∈ requests.map Prod.fst := by
  rw [← atomic_waiting, h.atomic_eq] at hc
  exact AtomicStore.mem_of_mem_waiting_run hc

theorem Course.allows {front back : List (Nat × Operation)} {s : SingleLock σ} (h : Course Known front s)
    (hp : Provides Known requests) {call : Nat} {op : Operation} (he : requests = front ++ (call, op) :: back) :
    s.Allows call op := by
  rintro wish rfl
  exact ⟨fun hc => hp.fresh he (h.mem_of_mem_sleeping hc), hp.room he h⟩

theorem Course.turn {front back : List (Nat × Operation)} {s t : SingleLock σ} (h : Course Known front s)
    (hp : Provides Known requests) {a : Turn} (he : requests = front ++ a.request :: back)
    {seen : Option Observation} (ht : s.turn a = some (t, seen)) :
    Course Known (front ++ [a.request]) t ∧
      ∃ o, seen = some o ∧ o.Alike ((AtomicStore.empty.run front).observe a.call a.operation) := by
  obtain ⟨hexact, hdue, hatomic, ho⟩ := h.exact.turn h.due_eq (h.allows hp he) ht
  rw [h.atomic_eq] at hatomic ho
  exact ⟨⟨hexact, hdue, hatomic.trans (AtomicStore.run_snoc .empty front a.request).symm, hp.turn h.known ht⟩, ho⟩

theorem Course.alike {front : List (Nat × Operation)} {s t : SingleLock σ} (h : Course Known front s)
    (hp : Provides Known requests) {turns : List Turn} (he : requests = front ++ turns.map Turn.request)
    {seen : List Observation} (hr : runSteps SingleLock.turn s turns = some (t, seen)) :
    List.Forall₂ Observation.Alike seen
      ((AtomicStore.empty.run front).history (turns.map Turn.request)) := by
  induction turns generalizing front s seen with
  | nil =>
      cases hr
      exact .nil
  | cons a turns ih =>
      obtain ⟨u, first, more, hs, hrest, rfl⟩ := runSteps_cons.mp hr
      obtain ⟨hu, o, rfl, ho⟩ := h.turn hp he hs
      have hmore := ih hu (by simp [he]) hrest
      rw [AtomicStore.run_snoc] at hmore
      exact .cons ho hmore

theorem Course.exists_run {front back : List (Nat × Operation)} {s : SingleLock σ} (h : Course Known front s)
    (hp : Provides Known requests) (he : requests = front ++ back) :
    ∃ turns t seen, turns.map Turn.request = back ∧ runSteps SingleLock.turn s turns = some (t, seen) := by
  induction back generalizing front s with
  | nil => exact ⟨[], s, [], rfl, rfl⟩
  | cons r back ih =>
      obtain ⟨call, op⟩ := r
      obtain ⟨wakes, ht⟩ := h.exact.turn_perform h.due_eq (h.allows hp he)
      obtain ⟨hu, -⟩ := h.turn (a := ⟨call, op, .ascending, wakes⟩) hp he ht
      obtain ⟨turns, t, seen, hturns, hr⟩ := ih hu (by simp [he, Turn.request])
      exact ⟨⟨call, op, .ascending, wakes⟩ :: turns, t, _, congrArg ((call, op) :: ·) hturns,
        runSteps_cons.mpr ⟨_, _, _, ht, hr, rfl⟩⟩

theorem Provides.exists_shows (hp : Provides Known requests) : ∃ seen, Shows σ requests seen := by
  obtain ⟨turns, t, seen, hturns, hr⟩ := hp.course_empty.exists_run hp (List.nil_append _).symm
  exact ⟨seen, turns, t, hturns, hr⟩

theorem Provides.alike (hp : Provides Known requests) {seen : List Observation} (h : Shows σ requests seen) :
    List.Forall₂ Observation.Alike seen (AtomicStore.empty.history requests) := by
  obtain ⟨turns, t, rfl, hr⟩ := h
  exact hp.course_empty.alike hp rfl hr

end Course

theorem fresh_of_nodup {front back : List (Nat × Operation)} {call : Nat} {op : Operation}
    (hn : ((front ++ (call, op) :: back).map Prod.fst).Nodup) : call ∉ front.map Prod.fst := by
  rw [List.map_append, List.map_cons] at hn
  exact fun hc => (List.nodup_middle.mp hn).notMem (List.mem_append_left _ hc)

theorem provides_shared {requests : List (Nat × Operation)} (hn : (requests.map Prod.fst).Nodup) :
    Provides (fun _ (_ : SingleLock SharedCondition) => True) requests where
  empty := trivial
  turn := fun _ _ => trivial
  fresh := fun he => fresh_of_nodup (he ▸ hn)
  room := fun _ _ => trivial

theorem provides_unconditional {requests : List (Nat × Operation)}
    (hr : ∀ r ∈ requests, r.2.isConditional = false) :
    Provides (fun _ (_ : SingleLock SharedCondition) => True) requests where
  empty := trivial
  turn := fun _ _ => trivial
  fresh := by
    rintro front call wish back rfl
    cases hr (call, .getWhen wish) (by simp)
  room := fun _ _ => trivial

/-- The id of a caller is the number of the conditional reads that came before its own. -/
structure Numbered (requests : List (Nat × Operation)) (s : SingleLock PerKeyConditions) : Prop where
  nextId_eq : s.triggers.nextId = UInt64.ofNat (conditionals requests)
  id_eq : ∀ v ∈ s.asleep, ∃ front wish back, requests = front ++ (v.call, .getWhen wish) :: back ∧
    v.ticket.id = UInt64.ofNat (conditionals front)

section Numbered

variable {requests : List (Nat × Operation)} {s t : SingleLock PerKeyConditions}

theorem conditionals_append (first second : List (Nat × Operation)) :
    conditionals (first ++ second) = conditionals first + conditionals second :=
  List.countP_append

theorem Numbered.snoc (h : Numbered requests s) (call : Nat) {op : Operation} (ho : op.isConditional = false) :
    Numbered (requests ++ [(call, op)]) s where
  nextId_eq := by simpa [conditionals, ho] using h.nextId_eq
  id_eq v hv := by
    obtain ⟨front, wish, back, rfl, hid⟩ := h.id_eq v hv
    exact ⟨front, wish, back ++ [(call, op)], by simp, hid⟩

theorem Numbered.step (h : Numbered requests s) {a : Step} (hc : calls [a] = []) {r : Option Woken}
    (hs : s.step a = some (t, r)) : Numbered requests t where
  nextId_eq := by
    rw [nextId_step hs, hc]
    exact (UInt64.add_zero _).trans h.nextId_eq
  id_eq v hv := by
    rcases ticket_step hs hv with ⟨w, hw, hcall, hid⟩ | ⟨wish, rfl, -⟩
    · rw [← hcall, ← hid]
      exact h.id_eq w hw
    · cases hc

theorem Numbered.wakes (h : Numbered requests s) {wakes : List Nat} {woken : List Woken}
    (hr : s.run (wakes.map .wake) = some (t, woken)) : Numbered requests t := by
  induction wakes generalizing s woken with
  | nil =>
      cases hr
      exact h
  | cons call wakes ih =>
      obtain ⟨u, first, more, hs, hrest, -⟩ := run_cons.mp hr
      exact ih (h.step rfl hs) hrest

theorem Numbered.start (h : Numbered requests s) {call : Nat} {wish : Wish} {r : Option Woken}
    (hs : s.step (.getWhen call wish) = some (t, r)) : Numbered (requests ++ [(call, .getWhen wish)]) t where
  nextId_eq := by
    rw [nextId_step hs, h.nextId_eq, conditionals_append, UInt64.ofNat_add]
    rfl
  id_eq v hv := by
    rcases ticket_step hs hv with ⟨w, hw, hcall, hid⟩ | ⟨wish', he, hid⟩
    · obtain ⟨front, wish', back, rfl, hw⟩ := h.id_eq w hw
      exact ⟨front, wish', back ++ [(call, .getWhen wish)], by simp [hcall], hid ▸ hw⟩
    · cases he
      exact ⟨requests, wish, [], rfl, hid.trans h.nextId_eq⟩

theorem Numbered.turn (h : Numbered requests s) {a : Turn} {seen : Option Observation}
    (ht : s.turn a = some (t, seen)) : Numbered (requests ++ [a.request]) t := by
  obtain ⟨u, own, woken, hi, hr, -, -⟩ := turn_eq_some ht
  suffices hu : Numbered (requests ++ [a.request]) u from hu.wakes hr
  obtain ⟨call, op, order, wakes⟩ := a
  rcases issue_cases hi with ⟨ho, rfl⟩ | ⟨ho, entries, hw⟩ | ⟨wish, rfl, rfl⟩
  · exact h.snoc call ho
  · exact (h.step (a := .write entries) rfl (congrArg (Option.map fun s => (s, none)) hw)).snoc call ho
  · exact h.start rfl

end Numbered

theorem provides_perKey {requests : List (Nat × Operation)} (hn : (requests.map Prod.fst).Nodup)
    (hl : NoneLapped requests) : Provides Numbered requests where
  empty := ⟨rfl, by simp [SingleLock.empty]⟩
  turn := fun h ht => h.turn ht
  fresh := fun he => fresh_of_nodup (he ▸ hn)
  room := by
    rintro whole other wish' back s he hs w hw
    obtain ⟨v, hv, rfl⟩ := List.mem_map.mp hw
    obtain ⟨front, wish, middle, rfl, hid⟩ := hs.known.id_eq v hv
    have hwaits : v.call ∈ (AtomicStore.empty.run (front ++ (v.call, .getWhen wish) :: middle)).waiting.map Prod.fst := by
      rw [← hs.atomic_eq, atomic_waiting]
      exact List.mem_map_of_mem hv
    -- Its id was given out fewer than 2 ^ 64 conditional reads ago.
    have hlt := hl front v.call wish middle other wish' back (by simp [he]) hwaits
    change v.ticket.id ≠ s.triggers.nextId
    rw [hid, hs.known.nextId_eq, conditionals_append]
    have hone : conditionals ((v.call, .getWhen wish) :: middle) = conditionals middle + 1 := by
      simp [conditionals, Operation.isConditional]
    exact ofNat_ne_ofNat (by omega) (by omega)

/-- Two stores of which one condition for all callers or one for each awaited key summons those who wait cannot
be told apart: whatever is called of them, all of it can be done by both, and after each call the same calls
have returned with the same outcomes, the tables are equal and the same calls are asleep. -/
theorem observed_alike (requests : List (Nat × Operation)) (hn : (requests.map Prod.fst).Nodup) :
    (∃ seen, Shows SharedCondition requests seen) ∧
      (NoneLapped requests →
        (∃ seen, Shows PerKeyConditions requests seen) ∧
          ∀ seen seen', Shows SharedCondition requests seen → Shows PerKeyConditions requests seen' →
            List.Forall₂ Observation.Alike seen seen') := by
  have hshared := provides_shared hn
  refine ⟨hshared.exists_shows, fun hl => ?_⟩
  have hperKey := provides_perKey hn hl
  exact ⟨hperKey.exists_shows, fun seen seen' h h' =>
    Observation.forall₂_alike_of_common (hshared.alike h) (hperKey.alike h')⟩

/-- The third call is woken up by a write that does not help it, in the one store with the others, in the other
with its group; the writes after that wake the sleeping calls up in different orders. -/
theorem observed_alike_two_writes :
    let requests : List (Nat × Operation) :=
      [(1, .getWhen ⟨"x", "a", [1]⟩), (2, .getWhen ⟨"b", "b", [2]⟩), (3, .getWhen ⟨"a", "b", [3]⟩),
        (4, .put "b" [2]), (5, .multiPut (Table.ofPairs [("a", [1]), ("b", [3])]))]
    ∃ seen seen', Shows SharedCondition requests seen ∧ Shows PerKeyConditions requests seen' ∧
      seen.map Observation.asleep = [[1], [1, 2], [1, 2, 3], [1, 3], []] ∧
      List.Forall₂ Observation.Alike seen seen' := by
  intro requests
  have hshared : Shows SharedCondition requests _ :=
    ⟨[⟨1, .getWhen ⟨"x", "a", [1]⟩, .ascending, []⟩, ⟨2, .getWhen ⟨"b", "b", [2]⟩, .ascending, [1]⟩,
      ⟨3, .getWhen ⟨"a", "b", [3]⟩, .ascending, []⟩, ⟨4, .put "b" [2], .ascending, [3, 1, 2, 1]⟩,
      ⟨5, .multiPut (Table.ofPairs [("a", [1]), ("b", [3])]), .ascending, [3, 1]⟩], _, rfl, rfl⟩
  have hperKey : Shows PerKeyConditions requests _ :=
    ⟨[⟨1, .getWhen ⟨"x", "a", [1]⟩, .ascending, []⟩, ⟨2, .getWhen ⟨"b", "b", [2]⟩, .ascending, []⟩,
      ⟨3, .getWhen ⟨"a", "b", [3]⟩, .ascending, [2]⟩, ⟨4, .put "b" [2], .ascending, [1, 2, 3]⟩,
      ⟨5, .multiPut (Table.ofPairs [("a", [1]), ("b", [3])]), .ascending, [1, 3]⟩], _, rfl, rfl⟩
  exact ⟨_, _, hshared, hperKey, rfl,
    ((observed_alike requests (by decide)).2 (noneLapped_of_lt (by decide))).2 _ _ hshared hperKey⟩

section Lap

variable {σ : Type} [Triggers σ] {s t : SingleLock σ} {after : Nat → SingleLock σ} {wish : Wish}

def readTurns (first n : Nat) (wish : Wish) : List Turn :=
  (List.range' first n).map fun call => ⟨call, .getWhen wish, .ascending, []⟩

theorem turn_of_start {call : Nat} {woken : Woken} (hs : s.start call wish = (t, some woken)) (hd : t.due = []) :
    s.turn ⟨call, .getWhen wish, .ascending, []⟩ = some (t, some (t.observe (returned [woken]))) := by
  have hi : s.issue .ascending call (.getWhen wish) = some (t, returned [woken]) := by
    rw [issue, hs]
    rfl
  rw [turn_of_issue hi rfl hd]
  rfl

theorem runSteps_readTurns (h : Passes after wish) (hd : ∀ n, (after n).due = []) (first n : Nat) :
    ∃ seen, runSteps SingleLock.turn (after 0) (readTurns first n wish) = some (after n, seen) := by
  induction n generalizing first after with
  | zero => exact ⟨[], rfl⟩
  | succ n ih =>
      obtain ⟨value, hs⟩ := h 0 first
      obtain ⟨seen, hr⟩ := ih h.succ (fun n => hd (n + 1)) (first + 1)
      exact ⟨_, runSteps_cons.mpr ⟨after 1, _, _, turn_of_start hs (hd 1), hr, rfl⟩⟩

theorem passes_shared {s : SingleLock SharedCondition} (hh : wish.holds s.contents = true) :
    Passes (fun _ => s) wish :=
  fun _ _ => ⟨_, by rw [start_eq, if_pos hh]; rfl⟩

def lapRequests : List (Nat × Operation) :=
  [(0, .put "b" [1]), (1, .getWhen ⟨"x", "a", [1]⟩)] ++
    ((List.range' 2 lap).map (fun call => (call, .getWhen ⟨"x", "b", [1]⟩)) ++
      [(namesake, .getWhen ⟨"x", "a", [2]⟩), (namesake + 1, .put "a" [1]), (namesake + 2, .put "a" [2])])

theorem numbers_lapRequests : lapRequests.map Prod.fst = List.range (lap + 5) := by
  rw [range_lap, lapRequests, List.map_append, List.map_append, List.map_map]
  exact congrArg ([0, 1] ++ ·) (congrArg (· ++ [lap + 2, lap + 3, lap + 4]) (List.map_id _))

theorem exists_lap_turns (wakes : List Nat) {early late : List Observation}
    (hpasses : Passes after ⟨"x", "b", [1]⟩) (hd : ∀ n, (after n).due = [])
    (hfirst : runSteps SingleLock.turn empty
      [⟨0, .put "b" [1], .ascending, []⟩, ⟨1, .getWhen ⟨"x", "a", [1]⟩, .ascending, []⟩] = some (after 0, early))
    (hlast : runSteps SingleLock.turn (after lap)
      [⟨namesake, .getWhen ⟨"x", "a", [2]⟩, .ascending, []⟩, ⟨namesake + 1, .put "a" [1], .ascending, [1, namesake]⟩,
        ⟨namesake + 2, .put "a" [2], .ascending, wakes⟩] = some (t, late))
    (hasleep : (late.map Observation.asleep).getLast? = some t.sleeping) :
    ∃ turns seen, turns.map Turn.request = lapRequests ∧ runSteps SingleLock.turn empty turns = some (t, seen) ∧
      (seen.map Observation.asleep).getLast? = some t.sleeping := by
  obtain ⟨middle, hlap⟩ := runSteps_readTurns hpasses hd 2 lap
  refine ⟨_, early ++ (middle ++ late), ?_, runSteps_append.mpr ⟨_, _, _, hfirst,
    runSteps_append.mpr ⟨_, _, _, hlap, hlast, rfl⟩, rfl⟩, ?_⟩
  · simp only [lapRequests, readTurns, List.map_append, List.map_map]
    rfl
  · rw [List.map_append, List.map_append, List.getLast?_append, List.getLast?_append, hasleep]
    rfl

/-- Where each awaited key has its own condition the namesake misses the last write, and returns only if it happens to
wake up. -/
theorem exists_lap_perKey : ∃ (turns turns' : List Turn) (s s' : SingleLock PerKeyConditions) (seen seen' : _),
    turns.map Turn.request = lapRequests ∧ runSteps SingleLock.turn empty turns = some (s, seen) ∧
      (seen.map Observation.asleep).getLast? = some [namesake] ∧ s.sleeping = [namesake] ∧
    turns'.map Turn.request = lapRequests ∧ runSteps SingleLock.turn empty turns' = some (s', seen') ∧
      s'.sleeping = [] := by
  have hpasses : Passes lone.lapped ⟨"x", "b", [1]⟩ := passes_lapped rfl rfl
  obtain ⟨turns, seen, hturns, hr, hlast⟩ := exists_lap_turns [] hpasses (fun _ => rfl) rfl rfl rfl
  obtain ⟨turns', seen', hturns', hr', -⟩ := exists_lap_turns [namesake] hpasses (fun _ => rfl) rfl rfl rfl
  exact ⟨turns, turns', _, _, seen, seen', hturns, hr, hlast, rfl, hturns', hr', rfl⟩

theorem map_asleep_of_alike {seen seen' : List Observation} (h : List.Forall₂ Observation.Alike seen seen') :
    seen.map Observation.asleep = seen'.map Observation.asleep := by
  induction h with
  | nil => rfl
  | cons ha _ ih => rw [List.map_cons, List.map_cons, ha.asleep, ih]

/-- The same calls of the two stores. With one condition for all callers the namesake returns with the last write. -/
theorem shown_apart_after_lap :
    ¬∀ requests : List (Nat × Operation), (requests.map Prod.fst).Nodup →
      ∀ seen seen', Shows SharedCondition requests seen → Shows PerKeyConditions requests seen' →
        List.Forall₂ Observation.Alike seen seen' := by
  intro h
  obtain ⟨turns, seen, hturns, hr, hnobody⟩ := exists_lap_turns [namesake]
    (passes_shared (s := ⟨(∅ : Table).insert "b" [1], ⟨0, 1, 0⟩, [⟨1, ⟨"x", "a", [1]⟩, ⟨0⟩, false⟩]⟩) rfl)
    (fun _ => rfl) rfl rfl rfl
  obtain ⟨turns', -, s', -, seen', -, hturns', hr', hlast, -⟩ := exists_lap_perKey
  have hn : (lapRequests.map Prod.fst).Nodup := by
    rw [numbers_lapRequests]
    exact List.nodup_range
  have halike := h _ hn seen seen' ⟨turns, _, hturns, hr⟩ ⟨turns', s', hturns', hr'⟩
  rw [map_asleep_of_alike halike, hlast] at hnobody
  cases hnobody

end Lap

end SingleLock

end AwaitStore.Store
