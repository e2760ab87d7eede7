import AwaitStore.Proofs.Store.InTurn
import AwaitStore.Proofs.Store.LockOrder

namespace AwaitStore.Store

variable {n : Nat} {hash : Key → UInt64} {n_pos : 0 < n}

namespace LockedShards

variable {s t : LockedShards n}

def requests (callers : List (Caller n)) : List (Nat × ShardCall) := callers.map fun c => (c.number, c.request)

def decided (callers : List (Caller n)) : List (Nat × ShardCall) := requests (callers.filter fun c => c.ahead = [])

theorem mem_decided {callers : List (Caller n)} {e : Nat × ShardCall} :
    e ∈ decided callers ↔ ∃ c ∈ callers, c.ahead = [] ∧ (c.number, c.request) = e := by
  simp [decided, requests, and_assoc]

theorem decided_append (front back : List (Caller n)) : decided (front ++ back) = decided front ++ decided back := by
  simp [decided, requests]

theorem decided_cons_of_ne_nil {c : Caller n} (h : c.ahead ≠ []) (callers : List (Caller n)) :
    decided (c :: callers) = decided callers := by
  simp [decided, requests, h]

theorem decided_cons_of_eq_nil {c : Caller n} (h : c.ahead = []) (callers : List (Caller n)) :
    decided (c :: callers) = (c.number, c.request) :: decided callers := by
  simp [decided, requests, h]

section Order

variable (hash n_pos)

def contents (order : List (Nat × ShardCall)) : Sharded n :=
  (inTurn (ShardCall.alone hash) (Sharded.empty n_pos) order).1

def answers (order : List (Nat × ShardCall)) : List (Nat × ShardAnswer) :=
  (inTurn (ShardCall.alone hash) (Sharded.empty n_pos) order).2

/-- A call that has made some of its visits has met, in all shards that it has locked, what it would have met had it
begun now. -/
def UnderWay (table store : Sharded n) (c : Caller n) : Prop :=
  ∃ made, c.request.visits hash n_pos = made ++ c.ahead ∧ (c.wanted ≠ [] → made = []) ∧
    Alike c.held (makeVisits made (table, ⟨∅, 0⟩)) (store, c.seen)

/-- A call that is not about to write this shard: it does not hold it, or it only reads, or it has done. -/
def Spares (i : Fin n) (c : Caller n) : Prop := c.ahead ≠ [] → c.request.mode = .writing → i ∉ c.held

structure Explains (order : List (Nat × ShardCall)) (s : LockedShards n) : Prop where
  calls : order.Perm (decided s.callers)
  answered : ∀ c ∈ s.callers, c.ahead = [] → (c.number, c.request.answer c.seen) ∈ answers hash n_pos order
  settled : ∀ i, (∀ c ∈ s.callers, Spares i c) → s.store.shard i = (contents hash n_pos order).shard i
  under_way : ∀ c ∈ s.callers, c.ahead ≠ [] → UnderWay hash n_pos (contents hash n_pos order) s.store c

end Order

theorem contents_concat (order : List (Nat × ShardCall)) (number : Nat) (request : ShardCall) :
    contents hash n_pos (order ++ [(number, request)]) =
      (makeVisits (request.visits hash n_pos) (contents hash n_pos order, ⟨∅, 0⟩)).1 := by
  rw [contents, inTurn_concat]
  exact (makeVisits_visits request _).1.symm

theorem answers_concat (order : List (Nat × ShardCall)) (number : Nat) (request : ShardCall) :
    answers hash n_pos (order ++ [(number, request)]) = answers hash n_pos order ++
      [(number, request.answer (makeVisits (request.visits hash n_pos) (contents hash n_pos order, ⟨∅, 0⟩)).2)] := by
  rw [answers, inTurn_concat]
  exact congrArg (fun a => answers hash n_pos order ++ [(number, a)]) (makeVisits_visits request _).2.symm

theorem Disciplined.shard_makeVisits_of_held (hd : Disciplined hash n_pos s) {c d : Caller n} (hc : c ∈ s.callers)
    (hmem : d ∈ s.callers) (hne : d.number ≠ c.number) (hheld : c.held = c.request.shards hash n_pos)
    {visits : List (Visit n)} (hv : ∀ v ∈ visits, v ∈ c.request.visits hash n_pos) {j : Fin n} (hj : j ∈ d.held)
    (p : Sharded n × Seen) : (makeVisits visits p).1.shard j = p.1.shard j := by
  by_cases hjc : j ∈ c.held
  · obtain ⟨hmode, -⟩ := hd.apart c hc d hmem hne.symm j hjc hj
    rw [fst_makeVisits_of_reading hmode hv]
  · apply shard_makeVisits_of_ne
    intro v hmade hvj
    exact hjc (hheld ▸ hvj ▸ ShardCall.shard_mem_shards (hv v hmade))

theorem UnderWay.visit {table store : Sharded n} {c : Caller n} (h : UnderWay hash n_pos table store c)
    (hin : InOrder hash n_pos c) {v : Visit n} {ahead : List (Visit n)} (locked : c.wanted = [])
    (next : c.ahead = v :: ahead) :
    ∃ made, c.request.visits hash n_pos = made ++ ahead ∧ v ∈ c.request.visits hash n_pos ∧ v.shard ∈ c.held ∧
      Alike c.held (makeVisits made (table, ⟨∅, 0⟩)) (makeVisit v store c.seen) := by
  obtain ⟨made, hmade, -, halike⟩ := h
  have hv : v ∈ c.request.visits hash n_pos := by
    rw [hmade, next]
    exact List.mem_append_right _ List.mem_cons_self
  have hshard : v.shard ∈ c.held := by
    rw [hin.held_eq locked (next ▸ List.cons_ne_nil _ _)]
    exact ShardCall.shard_mem_shards hv
  refine ⟨made ++ [v], ?_, hv, hshard, ?_⟩
  · rw [hmade, next, List.append_assoc, List.singleton_append]
  · rw [makeVisits_append]
    exact halike.makeVisit hshard

theorem UnderWay.congr {table table' store store' : Sharded n} {c : Caller n} (h : UnderWay hash n_pos table store c)
    (hin : InOrder hash n_pos c) (hahead : c.ahead ≠ []) (htable : ∀ j ∈ c.held, table'.shard j = table.shard j)
    (hstore : ∀ j ∈ c.held, store'.shard j = store.shard j) : UnderWay hash n_pos table' store' c := by
  obtain ⟨made, hmade, hfirst, halike⟩ := h
  have hinside : ∀ v ∈ made, v.shard ∈ c.held := by
    intro v hv
    have hlocked : c.wanted = [] := by
      by_contra hwanted
      exact absurd (hfirst hwanted ▸ hv) List.not_mem_nil
    rw [hin.held_eq hlocked hahead]
    exact ShardCall.shard_mem_shards (hmade ▸ List.mem_append_left _ hv)
  have hbegin : Alike c.held (table', ⟨∅, 0⟩) (table, ⟨∅, 0⟩) := ⟨rfl, htable⟩
  have hend : Alike c.held (store, c.seen) (store', c.seen) := ⟨rfl, fun j hj => (hstore j hj).symm⟩
  exact ⟨made, hmade, hfirst, (hbegin.makeVisits hinside).trans (halike.trans hend)⟩

theorem perm_decided_replace {order : List (Nat × ShardCall)} (h : order.Perm (decided s.callers))
    (hd : Disciplined hash n_pos s) {c c' : Caller n} (hc : c ∈ s.callers) (hn : c.number = c'.number)
    (hrequest : c.request = c'.request) (hahead : c.ahead = [] ↔ c'.ahead = []) :
    order.Perm (decided (s.replace c').callers) := by
  obtain ⟨front, back, hsplit, hreplace⟩ := hd.exists_split hc
  rw [hsplit, decided_append] at h
  rw [hreplace c' hn, decided_append]
  by_cases hdone : c.ahead = []
  · rw [decided_cons_of_eq_nil hdone] at h
    rwa [decided_cons_of_eq_nil (hahead.mp hdone), ← hn, ← hrequest]
  · rw [decided_cons_of_ne_nil hdone] at h
    rwa [decided_cons_of_ne_nil (mt hahead.mpr hdone)]

theorem perm_decided_concat {order : List (Nat × ShardCall)} (h : order.Perm (decided s.callers))
    (hd : Disciplined hash n_pos s) {c c' : Caller n} (hc : c ∈ s.callers) (hn : c.number = c'.number)
    (hrequest : c.request = c'.request) (hahead : c.ahead ≠ []) (hdone : c'.ahead = []) :
    (order ++ [(c.number, c.request)]).Perm (decided (s.replace c').callers) := by
  obtain ⟨front, back, hsplit, hreplace⟩ := hd.exists_split hc
  rw [hsplit, decided_append, decided_cons_of_ne_nil hahead] at h
  rw [hreplace c' hn, decided_append, decided_cons_of_eq_nil hdone, ← hn, ← hrequest]
  exact (List.perm_append_singleton _ _).trans ((h.cons _).trans List.perm_middle.symm)

section Replace

variable {P : Caller n → Prop} {c c' : Caller n}

theorem forall_mem_of_replace (h : ∀ d ∈ (s.replace c').callers, P d) (hd : Disciplined hash n_pos s)
    (hc : c ∈ s.callers) (hn : c.number = c'.number) (hback : P c' → P c) : ∀ d ∈ s.callers, P d := by
  intro d hmem
  by_cases hne : d.number = c.number
  · rw [hd.eq_of_number hmem hc hne]
    exact hback (h c' ((mem_replace ⟨c, hc, hn⟩).mpr (.inl rfl)))
  · exact h d ((mem_replace ⟨c, hc, hn⟩).mpr (.inr ⟨hmem, hn ▸ hne⟩))

end Replace

namespace Explains

variable {order : List (Nat × ShardCall)} {c : Caller n} {i : Fin n}

theorem empty : Explains hash n_pos [] (LockedShards.empty n_pos) :=
  ⟨.refl _, fun _ hc => absurd hc List.not_mem_nil, fun _ _ => rfl, fun _ hc => absurd hc List.not_mem_nil⟩

theorem take (h : Explains hash n_pos order s) (hd : Disciplined hash n_pos s) {wanted : List (Fin n)}
    (mem : c ∈ s.callers) (next : c.wanted = i :: wanted)
    (free : ∀ d ∈ s.callers, d.number ≠ c.number → i ∈ d.held → c.request.mode = .reading ∧ d.request.mode = .reading) :
    Explains hash n_pos order (s.replace { c with wanted, held := c.held ++ [i] }) := by
  -- Nobody writes the shard that is locked now.
  have hspared : ∀ d ∈ s.callers, Spares i d := by
    intro d hmem _ hwriting hheld
    by_cases hn : d.number = c.number
    · rw [hd.eq_of_number hmem mem hn] at hheld
      exact lt_irrefl i ((hd.in_order c mem).lt_of_wanted hheld (by rw [next, List.head?_cons]))
    · rw [(free d hmem hn hheld).2] at hwriting
      cases hwriting
  constructor
  · exact perm_decided_replace h.calls hd mem rfl rfl Iff.rfl
  · exact forall_mem_replace mem rfl (h.answered c mem) fun d hmem _ => h.answered d hmem
  · intro j hj
    apply h.settled j
    refine forall_mem_of_replace hj hd mem rfl ?_
    exact fun hspare hahead hwriting hheld => hspare hahead hwriting (List.mem_append_left _ hheld)
  · refine forall_mem_replace mem rfl ?_ fun d hmem _ => h.under_way d hmem
    intro hahead
    obtain ⟨made, hmade, hfirst, halike⟩ := h.under_way c mem hahead
    obtain rfl : made = [] := hfirst (next ▸ List.cons_ne_nil _ _)
    refine ⟨[], hmade, fun _ => rfl, halike.1, fun j hj => ?_⟩
    rcases List.mem_append.mp hj with hj | hj
    · exact halike.2 j hj
    · rw [List.mem_singleton.mp hj]
      exact (h.settled i hspared).symm

theorem release (h : Explains hash n_pos order s) (hd : Disciplined hash n_pos s) {held : List (Fin n)}
    (mem : c ∈ s.callers) (done : c.ahead = []) : Explains hash n_pos order (s.replace { c with held }) := by
  constructor
  · exact perm_decided_replace h.calls hd mem rfl rfl Iff.rfl
  · exact forall_mem_replace mem rfl (h.answered c mem) fun d hmem _ => h.answered d hmem
  · intro j hj
    apply h.settled j
    exact forall_mem_of_replace hj hd mem rfl fun _ hahead => absurd done hahead
  · exact forall_mem_replace mem rfl (fun hahead => absurd done hahead) fun d hmem _ => h.under_way d hmem

theorem join (h : Explains hash n_pos order s) {order' : List (Nat × ShardCall)}
    (hcalls : order'.Perm (decided (s.callers ++ [c])))
    (hcontents : contents hash n_pos order' = contents hash n_pos order)
    (hanswers : answers hash n_pos order ⊆ answers hash n_pos order')
    (hanswered : c.ahead = [] → (c.number, c.request.answer c.seen) ∈ answers hash n_pos order')
    (hunder : c.ahead ≠ [] → UnderWay hash n_pos (contents hash n_pos order) s.store c) :
    Explains hash n_pos order' { s with callers := s.callers ++ [c] } := by
  refine ⟨hcalls, ?_, ?_, ?_⟩
  · intro d hd hahead
    rcases List.mem_append.mp hd with hd | hd
    · exact hanswers (h.answered d hd hahead)
    · rw [List.mem_singleton.mp hd] at hahead ⊢
      exact hanswered hahead
  · intro i hi
    rw [hcontents]
    exact h.settled i fun d hd => hi d (List.mem_append_left _ hd)
  · rw [hcontents]
    intro d hd hahead
    rcases List.mem_append.mp hd with hd | hd
    · exact h.under_way d hd hahead
    · rw [List.mem_singleton.mp hd] at hahead ⊢
      exact hunder hahead

theorem call (h : Explains hash n_pos order s) (number : Nat) (request : ShardCall) :
    ∃ more, Explains hash n_pos (order ++ more) (s.call hash number request) := by
  by_cases hv : request.visits hash n_pos = []
  · -- Without keys there is nothing to be done, and the call is as good as made.
    refine ⟨[(number, request)], h.join ?_ ?_ ?_ ?_ (absurd hv)⟩
    · rw [decided_append, decided_cons_of_eq_nil hv]
      exact h.calls.append_right _
    · rw [contents_concat, hv]
      rfl
    · rw [answers_concat]
      exact List.subset_append_left _ _
    · rw [answers_concat, hv]
      exact fun _ => List.mem_append_right _ (List.mem_singleton_self _)
  · refine ⟨[], ?_⟩
    rw [List.append_nil]
    refine h.join ?_ rfl (List.Subset.refl _) (fun hahead => absurd hahead hv) fun _ => ?_
    · rw [decided_append, decided_cons_of_ne_nil hv]
      exact h.calls.trans (.of_eq (List.append_nil _).symm)
    · exact ⟨[], rfl, fun _ => rfl, rfl, fun i hi => absurd hi List.not_mem_nil⟩

theorem visit_more (h : Explains hash n_pos order s) (hd : Disciplined hash n_pos s) {v : Visit n}
    {ahead : List (Visit n)} (mem : c ∈ s.callers) (locked : c.wanted = []) (next : c.ahead = v :: ahead)
    (hmore : ahead ≠ []) :
    Explains hash n_pos order ({ s with store := (makeVisit v s.store c.seen).1 }.replace
      { c with ahead, seen := (makeVisit v s.store c.seen).2 }) := by
  have hahead : c.ahead ≠ [] := next ▸ List.cons_ne_nil _ _
  have hheld := (hd.in_order c mem).held_eq locked hahead
  obtain ⟨made, hmade, hv, hshard, hstep⟩ := (h.under_way c mem hahead).visit (hd.in_order c mem) locked next
  refine ⟨?_, ?_, ?_, ?_⟩
  · refine perm_decided_replace h.calls (hd.withStore _) mem rfl rfl ?_
    simp only [hahead, hmore]
  · exact forall_mem_replace mem rfl (fun hdone => absurd hdone hmore) fun d hmem _ => h.answered d hmem
  · intro i hi
    have hold : ∀ d ∈ s.callers, Spares i d :=
      forall_mem_of_replace hi (hd.withStore _) mem rfl fun hspare _ => hspare hmore
    refine Eq.trans ?_ (h.settled i hold)
    cases hmode : c.request.mode with
    | reading => exact congrArg (·.shard i) (fst_makeVisit_of_reading hmode hv)
    | writing => exact shard_makeVisit_of_ne fun hi => hold c mem hahead hmode (hi ▸ hshard)
  · refine forall_mem_replace mem rfl ?_ ?_
    · exact fun _ => ⟨made, hmade, fun hw => absurd locked hw, hstep⟩
    · intro d hmem hne hdahead
      refine (h.under_way d hmem hdahead).congr (hd.in_order d hmem) hdahead (fun _ _ => rfl) fun j hj => ?_
      exact hd.shard_makeVisits_of_held mem hmem hne hheld (List.forall_mem_singleton.mpr hv) hj (s.store, c.seen)

theorem visit_last (h : Explains hash n_pos order s) (hd : Disciplined hash n_pos s) {v : Visit n}
    (mem : c ∈ s.callers) (locked : c.wanted = []) (next : c.ahead = [v]) :
    Explains hash n_pos (order ++ [(c.number, c.request)])
      ({ s with store := (makeVisit v s.store c.seen).1 }.replace
        { c with ahead := [], seen := (makeVisit v s.store c.seen).2 }) := by
  have hahead : c.ahead ≠ [] := next ▸ List.cons_ne_nil _ _
  have hheld := (hd.in_order c mem).held_eq locked hahead
  obtain ⟨made, hmade, hv, hshard, hstep⟩ := (h.under_way c mem hahead).visit (hd.in_order c mem) locked next
  rw [List.append_nil] at hmade
  rw [← hmade] at hstep
  refine ⟨?_, ?_, ?_, ?_⟩
  · exact perm_decided_concat h.calls (hd.withStore _) mem rfl rfl hahead rfl
  · rw [answers_concat]
    refine forall_mem_replace mem rfl ?_ fun d hmem _ hdone => List.mem_append_left _ (h.answered d hmem hdone)
    intro _
    rw [hstep.1]
    exact List.mem_append_right _ (List.mem_singleton_self _)
  · intro i hi
    rw [contents_concat]
    by_cases hic : i ∈ c.held
    · exact (hstep.2 i hic).symm
    · have hold : ∀ d ∈ s.callers, Spares i d :=
        forall_mem_of_replace hi (hd.withStore _) mem rfl fun _ _ _ => hic
      have hne : ∀ w ∈ c.request.visits hash n_pos, w.shard ≠ i := by
        rintro w hw rfl
        exact hic (hheld ▸ ShardCall.shard_mem_shards hw)
      rw [shard_makeVisits_of_ne hne, ← h.settled i hold]
      exact shard_makeVisit_of_ne fun hvi => hic (hvi ▸ hshard)
  · rw [contents_concat]
    refine forall_mem_replace mem rfl (fun hdone => absurd rfl hdone) ?_
    intro d hmem hne hdahead
    refine (h.under_way d hmem hdahead).congr (hd.in_order d hmem) hdahead (fun j hj => ?_) fun j hj => ?_
    · exact hd.shard_makeVisits_of_held mem hmem hne hheld (fun _ => id) hj _
    · exact hd.shard_makeVisits_of_held mem hmem hne hheld (List.forall_mem_singleton.mpr hv) hj (s.store, c.seen)

theorem change (h : Explains hash n_pos order s) (hd : Disciplined hash n_pos s) {a : LockStep}
    (hc : Change hash s a t) : ∃ more, Explains hash n_pos (order ++ more) t := by
  cases hc with
  | called fresh => exact h.call _ _
  | taken mem next free => exact ⟨[], (List.append_nil order).symm ▸ h.take hd mem next free⟩
  | @visited c v ahead mem locked next =>
      by_cases hmore : ahead = []
      · subst hmore
        exact ⟨_, h.visit_last hd mem locked next⟩
      · exact ⟨[], (List.append_nil order).symm ▸ h.visit_more hd mem locked next hmore⟩
  | released mem locked done next => exact ⟨[], (List.append_nil order).symm ▸ h.release hd mem done⟩

end Explains

end LockedShards

end AwaitStore.Store
