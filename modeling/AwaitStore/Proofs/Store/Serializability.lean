import AwaitStore.Proofs.Store.Interleaving

namespace AwaitStore.Store.LockedShards

variable {n : Nat} {hash : Key → UInt64} {n_pos : 0 < n} {s t : LockedShards n}

theorem exists_explains {steps : List (Bool × LockStep)} (h : (LockedShards.empty n_pos).run hash steps = some s) :
    ∃ order, Explains hash n_pos order s ∧
      ∀ first t, first <+: steps → (LockedShards.empty n_pos).run hash first = some t →
        ∃ before, before <+: order ∧ Explains hash n_pos before t := by
  induction steps using List.reverseRecOn generalizing s with
  | nil =>
      cases h
      refine ⟨[], .empty, fun first t hfirst ht => ⟨[], List.nil_prefix, ?_⟩⟩
      rw [List.prefix_nil.mp hfirst] at ht
      cases ht
      exact .empty
  | append_singleton front a ih =>
      obtain ⟨t, ht, hlast⟩ := run_append.mp h
      obtain ⟨u, hu, hnil⟩ := run_cons.mp hlast
      cases hnil
      obtain ⟨order, horder, hbefore⟩ := ih ht
      obtain ⟨more, hmore⟩ := horder.change (Disciplined.empty.run ht) (change_of_step hu)
      refine ⟨order ++ more, hmore, fun first v hfirst hv => ?_⟩
      rcases List.prefix_concat_iff.mp hfirst with rfl | hfirst
      · rw [h] at hv
        cases hv
        exact ⟨_, List.prefix_refl _, hmore⟩
      · obtain ⟨before, hprefix, hexplains⟩ := hbefore first v hfirst hv
        exact ⟨before, hprefix.trans (List.prefix_append _ _), hexplains⟩

def calledIn (steps : List (Bool × LockStep)) : List (Nat × ShardCall) :=
  steps.filterMap fun a =>
    match a.2 with
    | .call number request => some (number, request)
    | .take _ | .visit _ | .release _ => none

theorem requests_replace (hd : Disciplined hash n_pos s) {c c' : Caller n} (hc : c ∈ s.callers)
    (hn : c.number = c'.number) (hrequest : c.request = c'.request) :
    requests (s.replace c').callers = requests s.callers := by
  obtain ⟨front, back, hsplit, hreplace⟩ := hd.exists_split hc
  rw [hreplace c' hn, hsplit]
  simp only [requests, List.map_append, List.map_cons, hn, hrequest]

theorem requests_change (hd : Disciplined hash n_pos s) {a : LockStep} (hc : Change hash s a t)
    (writersFirst : Bool) : requests t.callers = requests s.callers ++ calledIn [(writersFirst, a)] := by
  cases hc with
  | called fresh => exact List.map_append
  | taken mem next free =>
      refine Eq.trans ?_ (List.append_nil _).symm
      exact requests_replace hd mem rfl rfl
  | visited mem locked next =>
      refine Eq.trans ?_ (List.append_nil _).symm
      exact requests_replace (hd.withStore _) mem rfl rfl
  | released mem locked done next =>
      refine Eq.trans ?_ (List.append_nil _).symm
      exact requests_replace hd mem rfl rfl

theorem requests_run {steps : List (Bool × LockStep)} (hd : Disciplined hash n_pos s) (h : s.run hash steps = some t) :
    requests t.callers = requests s.callers ++ calledIn steps := by
  induction steps generalizing s with
  | nil =>
      cases h
      exact (List.append_nil _).symm
  | cons a rest ih =>
      obtain ⟨u, hu, hrest⟩ := run_cons.mp h
      have hchange := change_of_step hu
      have hsplit : calledIn (a :: rest) = calledIn [a] ++ calledIn rest := List.filterMap_append (l := [a])
      rw [ih (hd.change hchange) hrest, requests_change hd hchange a.1, List.append_assoc, hsplit]

theorem InOrder.wanted_eq_nil {c : Caller n} (h : InOrder hash n_pos c) (hahead : c.ahead = []) : c.wanted = [] := by
  by_contra hwanted
  have hshards := ShardCall.shards_eq_nil ((h.unvisited hwanted).1 ▸ hahead)
  rw [← h.all (.inl hwanted)] at hshards
  exact hwanted (List.append_eq_nil_iff.mp hshards).2

theorem mem_of_answer? {number : Nat} {answer : ShardAnswer} (h : s.answer? number = some answer) :
    ∃ c ∈ s.callers, c.number = number ∧ c.ended = true ∧ c.request.answer c.seen = answer := by
  unfold answer? at h
  split at h
  next c hc =>
    obtain ⟨hmem, hn⟩ := mem_of_find? hc
    split at h
    next hended => exact ⟨c, hmem, hn, hended, Option.some.inj h⟩
    next => cases h
  next => cases h

section Serial

variable (hash n_pos)

/-- What shows of a run is what these calls show when they are made one at a time, in this order. -/
structure Serial (steps : List (Bool × LockStep)) (s : LockedShards n) (order : List (Nat × ShardCall)) : Prop where
  distinct : (order.map Prod.fst).Nodup
  /-- A call that counts has made all its visits. If it has not ended it has only locks to give back. -/
  made : ∀ e ∈ order, e ∈ calledIn steps ∧
    ∃ c ∈ s.callers, (c.number, c.request) = e ∧ c.wanted = [] ∧ c.ahead = []
  answered : ∀ number answer, s.answer? number = some answer → (number, answer) ∈ answers hash n_pos order
  /-- What a call has found is what one table holds after the calls before it, each of them as a whole. What is stored
  together is there for it together or not at all. -/
  whole : ∀ c ∈ s.callers, c.ended = true → ∃ before after, order = before ++ (c.number, c.request) :: after ∧
    c.request.answer c.seen = (c.request.onTable (inTurn ShardCall.onTable ∅ before).1).2
  stored : ∀ i, (∀ c ∈ s.callers, Spares i c) → s.store.shard i = (contents hash n_pos order).shard i
  real_time : ∀ first t a b, first <+: steps → (LockedShards.empty n_pos).run hash first = some t →
    (t.answer? a).isSome → t.find? b = none → b ∈ order.map Prod.fst → [a, b].Sublist (order.map Prod.fst)
  at_end : (∀ c ∈ s.callers, c.ended = true) → order.Perm (calledIn steps) ∧ s.store = contents hash n_pos order
  one_table : answers hash n_pos order = (inTurn ShardCall.onTable ∅ order).2 ∧
    (contents hash n_pos order).Holds hash (inTurn ShardCall.onTable ∅ order).1

end Serial

namespace Explains

variable {order : List (Nat × ShardCall)}

theorem mem_order (h : Explains hash n_pos order s) {e : Nat × ShardCall} :
    e ∈ order ↔ ∃ c ∈ s.callers, c.ahead = [] ∧ (c.number, c.request) = e :=
  h.calls.mem_iff.trans mem_decided

theorem distinct (h : Explains hash n_pos order s) (hd : Disciplined hash n_pos s) : (order.map Prod.fst).Nodup := by
  have hsub : ((decided s.callers).map Prod.fst).Sublist (s.callers.map Caller.number) := by
    rw [decided, requests, List.map_map]
    exact List.filter_sublist.map _
  exact (h.calls.map Prod.fst).nodup_iff.mpr (hd.numbers.sublist hsub)

theorem one_table (order : List (Nat × ShardCall)) :
    answers hash n_pos order = (inTurn ShardCall.onTable ∅ order).2 ∧
      (contents hash n_pos order).Holds hash (inTurn ShardCall.onTable ∅ order).1 :=
  ((Sharded.holds_empty n_pos).inTurn order).symm

theorem whole (h : Explains hash n_pos order s) (hd : Disciplined hash n_pos s) {c : Caller n} (hc : c ∈ s.callers)
    (hahead : c.ahead = []) : ∃ before after, order = before ++ (c.number, c.request) :: after ∧
      c.request.answer c.seen = (c.request.onTable (inTurn ShardCall.onTable ∅ before).1).2 := by
  have hanswer := h.answered c hc hahead
  rw [(one_table order).1] at hanswer
  obtain ⟨before, request, after, hsplit, hanswer⟩ := mem_inTurn hanswer
  have hmem : (c.number, request) ∈ order := hsplit ▸ List.mem_append_right _ List.mem_cons_self
  obtain ⟨d, hdmem, -, he⟩ := h.mem_order.mp hmem
  obtain rfl : d = c := hd.eq_of_number hdmem hc (congrArg Prod.fst he)
  obtain rfl : d.request = request := congrArg Prod.snd he
  exact ⟨before, after, hsplit, hanswer⟩

theorem mem_numbers_of_answer? (h : Explains hash n_pos order s) {number : Nat} (ha : (s.answer? number).isSome) :
    number ∈ order.map Prod.fst := by
  obtain ⟨answer, hanswer⟩ := Option.isSome_iff_exists.mp ha
  obtain ⟨c, hc, rfl, hended, -⟩ := mem_of_answer? hanswer
  exact List.mem_map.mpr ⟨_, h.mem_order.mpr ⟨c, hc, (ended_iff.mp hended).2.2, rfl⟩, rfl⟩

theorem notMem_numbers_of_find? (h : Explains hash n_pos order s) {number : Nat} (hf : s.find? number = none) :
    number ∉ order.map Prod.fst := by
  intro hmem
  obtain ⟨e, he, rfl⟩ := List.mem_map.mp hmem
  obtain ⟨c, hc, -, rfl⟩ := h.mem_order.mp he
  exact List.find?_eq_none.mp hf c hc (beq_self_eq_true _)

end Explains

/-- Whatever calls are made of locked shards, however many, and however their steps interleave: there is an order in
which the calls that have ended, and with them some that have only locks to give back, show what they show when each is
made as a whole after the one before. -/
theorem serializable {steps : List (Bool × LockStep)} (h : (LockedShards.empty n_pos).run hash steps = some s) :
    ∃ order, Serial hash n_pos steps s order := by
  obtain ⟨order, horder, hbefore⟩ := exists_explains h
  have hd := Disciplined.empty.run h
  have hrequests : requests s.callers = calledIn steps := requests_run Disciplined.empty h
  refine ⟨order, horder.distinct hd, ?_, ?_, ?_, horder.settled, ?_, ?_, Explains.one_table order⟩
  · intro e he
    obtain ⟨c, hc, hahead, rfl⟩ := horder.mem_order.mp he
    refine ⟨hrequests ▸ List.mem_map_of_mem hc, c, hc, rfl, (hd.in_order c hc).wanted_eq_nil hahead, hahead⟩
  · intro number answer hanswer
    obtain ⟨c, hc, rfl, hended, rfl⟩ := mem_of_answer? hanswer
    exact horder.answered c hc (ended_iff.mp hended).2.2
  · exact fun c hc hended => horder.whole hd hc (ended_iff.mp hended).2.2
  · intro first t a b hfirst ht ha hb hmem
    obtain ⟨before, ⟨after, rfl⟩, hexplains⟩ := hbefore first t hfirst ht
    rw [List.map_append] at hmem ⊢
    have hafter := (List.mem_append.mp hmem).resolve_left (hexplains.notMem_numbers_of_find? hb)
    exact (List.singleton_sublist.mpr (hexplains.mem_numbers_of_answer? ha)).append (List.singleton_sublist.mpr hafter)
  · intro hended
    have hahead : ∀ c ∈ s.callers, c.ahead = [] := fun c hc => (ended_iff.mp (hended c hc)).2.2
    have hall : decided s.callers = calledIn steps := by
      rw [decided, List.filter_eq_self.mpr fun c hc => decide_eq_true (hahead c hc), hrequests]
    refine ⟨hall ▸ horder.calls, Sharded.ext_shard fun i => horder.settled i ?_⟩
    exact fun c hc hsome => absurd (hahead c hc) hsome

/-- The first call waits for the second in the middle of its locks. The fourth finds what the first has stored before
that has ended, and the third waits for the first with one lock in its hands. -/
theorem serializable_before_end :
    let hash : Key → UInt64 := fun key => if key = "a" then 4 else 7
    let steps : List (Bool × LockStep) :=
      [(false, .call 1 (.multiPut [("b", [1]), ("a", [1])])), (false, .take 1), (false, .call 2 (.put "b" [9])),
        (false, .take 2), (false, .visit 2), (false, .release 2), (true, .take 1), (false, .visit 1), (false, .visit 1),
        (false, .release 1), (true, .call 3 (.multiGet ["b", "a"])), (true, .take 3), (true, .call 4 (.get "a")),
        (true, .take 4), (true, .visit 4), (true, .release 4)]
    ∃ s, (LockedShards.empty (show 0 < 2 by decide)).run hash steps = some s ∧
      s.answer? 1 = none ∧ s.answer? 2 = some .stored ∧ s.answer? 3 = none ∧ s.answer? 4 = some (.value (some [1])) ∧
      s.callers.map (fun c => (c.held, c.wanted)) = [([1], []), ([], []), ([0], [1]), ([], [])] ∧
      ∃ order, Serial hash (show 0 < 2 by decide) steps s order := by
  refine ⟨_, (Option.some_get rfl).symm, rfl, rfl, rfl, rfl, rfl, ?_⟩
  exact serializable (Option.some_get rfl).symm

end AwaitStore.Store.LockedShards
