import AwaitStore.Proofs.Store.Lap
import AwaitStore.Proofs.Store.SharedRecords
import AwaitStore.Proofs.Store.WaiterIds

namespace AwaitStore.Store.SingleLock

open Bookkeeping

variable {σ : Type} [Triggers σ]

def Awaits (s : SingleLock σ) (call : Nat) (wish : Wish) : Prop :=
  ∃ w ∈ s.asleep, w.call = call ∧ w.wish = wish

/-- What a conditional read does in the course of these steps, which lead from its start in `s` to `t`
with the reads in `ended` coming to their ends. The tables are numbered from the one at its start. -/
structure ReadsFirstMatch (s : SingleLock σ) (call : Nat) (wish : Wish) (steps : List Step)
    (t : SingleLock σ) (ended : List Woken) : Prop where
  /-- It returns at most once, and what the first table that fits has under its key. -/
  value :
    values call ended = [] ∨
      ∃ table, (tables s.contents steps).find? wish.holds = some table ∧
        values call ended = [table[wish.key]?]
  /-- Before anything is written over a table that fits it has returned. -/
  before_write :
    ∀ front entries back, steps = front ++ .write entries :: back →
      ∀ table, (tables s.contents front).find? wish.holds = some table →
        ∃ u early, s.run (.getWhen call wish :: front) = some (u, early) ∧
          values call early = [table[wish.key]?]
  /-- Once a table fits and until it has returned, it is notified, its next wake-up is its return, and
  nothing can be written. -/
  due :
    ∀ table, (tables s.contents steps).find? wish.holds = some table → values call ended = [] →
      (∃ w ∈ t.asleep, w.call = call ∧ w.notified = true) ∧
        (∃ u, t.wake call = some (u, some ⟨call, table[wish.key]?⟩)) ∧
        ∀ entries, t.write entries = none

theorem wake_cases {s t : SingleLock σ} (hn : s.sleeping.Nodup) {call : Nat} {r : Option Woken}
    (h : s.wake call = some (t, r)) :
    ∃ wish, s.Awaits call wish ∧ t.contents = s.contents ∧
      (∀ other wish', other ≠ call → s.Awaits other wish' → t.Awaits other wish') ∧
      (∀ other ∈ t.sleeping, other ∈ s.sleeping) ∧
      (∀ other, call ≠ other → values other r.toList = []) ∧
      if wish.holds s.contents then call ∉ t.sleeping ∧ r = some ⟨call, s.contents[wish.key]?⟩
      else t.Awaits call wish ∧ r = none := by
  obtain ⟨front, w, back, he, rfl, hw⟩ := exists_sleeper hn (mem_sleeping_of_wake h)
  have hother (v) (hv : v ∈ s.asleep) (hne : v.call ≠ w.call) : v ∈ front ++ back := by
    rcases List.mem_cons.mp (List.perm_middle.mem_iff.mp (he ▸ hv)) with rfl | hv
    · exact absurd rfl hne
    · exact hv
  have hcalls (v) (hv : v ∈ front ++ back) : v ∈ s.asleep :=
    he ▸ List.perm_middle.mem_iff.mpr (List.mem_cons_of_mem w hv)
  refine ⟨w.wish, ⟨w, by simp [he], rfl, rfl⟩, ?_⟩
  rw [wake_eq he hw] at h
  split at h
  next hh =>
    cases h
    refine ⟨rfl, ?_, ?_, fun other hne => values_cons_of_ne hne _ _, ?_⟩
    · rintro _ _ hne ⟨v, hv, rfl, rfl⟩
      exact ⟨v, hother v hv hne, rfl, rfl⟩
    · intro other ho
      obtain ⟨v, hv, rfl⟩ := List.mem_map.mp ho
      exact List.mem_map_of_mem (hcalls v hv)
    · rw [if_pos hh]
      exact ⟨hw, rfl⟩
  next hh =>
    cases h
    refine ⟨rfl, ?_, ?_, fun _ _ => rfl, ?_⟩
    · rintro _ _ hne ⟨v, hv, rfl, rfl⟩
      exact ⟨v, List.perm_middle.mem_iff.mpr (List.mem_cons_of_mem _ (hother v hv hne)), rfl, rfl⟩
    · intro other ho
      simpa [sleeping, he] using ho
    · rw [if_neg hh]
      exact ⟨⟨_, List.mem_append_right front List.mem_cons_self, rfl, rfl⟩, rfl⟩

theorem Awaits.start {s : SingleLock σ} {call : Nat} {wish : Wish} (h : s.Awaits call wish)
    (other : Nat) (wish' : Wish) : (s.start other wish').1.Awaits call wish := by
  obtain ⟨w, hw, hc⟩ := h
  rw [start_eq]
  split
  · exact ⟨w, hw, hc⟩
  · exact ⟨w, List.mem_append_left _ hw, hc⟩

theorem Awaits.write {s t : SingleLock σ} {call : Nat} {wish : Wish} (h : s.Awaits call wish)
    {entries : List (Key × Value)} (hw : s.write entries = some t) : t.Awaits call wish := by
  obtain ⟨w, hw', hc⟩ := h
  obtain ⟨-, rfl⟩ := write_eq_some hw
  exact ⟨_, List.mem_map_of_mem hw', by simpa using hc⟩

theorem Awaits.mem_sleeping {s : SingleLock σ} {call : Nat} {wish : Wish} (h : s.Awaits call wish) :
    call ∈ s.sleeping := by
  obtain ⟨w, hw, rfl, -⟩ := h
  exact List.mem_map_of_mem hw

theorem Awaits.unique {s : SingleLock σ} (hn : s.sleeping.Nodup) {call : Nat} {wish wish' : Wish}
    (h : s.Awaits call wish) (h' : s.Awaits call wish') : wish = wish' := by
  obtain ⟨v, hv, hc, rfl⟩ := h
  obtain ⟨w, hw, hc', rfl⟩ := h'
  rw [List.inj_on_of_nodup_map hn hv hw (hc.trans hc'.symm)]

theorem step_getWhen_values {s t : SingleLock σ} {other : Nat} {wish : Wish} {r : Option Woken}
    (h : s.step (.getWhen other wish) = some (t, r)) {call : Nat} (hne : other ≠ call) :
    t.contents = s.contents ∧ values call r.toList = [] ∧ (call ∉ s.sleeping → call ∉ t.sleeping) := by
  have he := step_getWhen h
  rw [start_eq] at he
  split at he
  · cases he
    exact ⟨rfl, values_cons_of_ne hne _ _, id⟩
  · cases he
    refine ⟨rfl, rfl, fun hc => ?_⟩
    simpa [sleeping, Ne.symm hne] using hc

theorem find?_tables {table : Table} {wish : Wish} (h : wish.holds table) (steps : List Step) :
    (tables table steps).find? wish.holds = some table := by
  induction steps with
  | nil => simp [tables, h]
  | cons a rest ih =>
      cases a with
      | write entries => simp [tables, h]
      | getWhen call wish' => exact ih
      | wake call => exact ih

variable [Bookkeeping σ]

theorem values_eq_nil {s t : SingleLock σ} (hs : s.Sound) {steps : List Step} (ha : s.Admitted steps)
    {ended : List Woken} (hr : s.run steps = some (t, ended)) {call : Nat} (hc : call ∉ s.sleeping)
    (hn : call ∉ calls steps) : values call ended = [] := by
  induction steps generalizing s ended with
  | nil =>
      cases hr
      rfl
  | cons a rest ih =>
      obtain ⟨u, first, more, hstep, hrest, rfl⟩ := run_cons.mp hr
      have hu := hs.step ha.1 hstep
      have hau := ha.2 u first hstep
      cases a with
      | getWhen other wish =>
          simp only [calls, List.mem_cons, not_or] at hn
          obtain ⟨-, hv, hsl⟩ := step_getWhen_values hstep (Ne.symm hn.1)
          rw [values_append, hv, ih hu hau hrest (hsl hc) hn.2, List.append_nil]
      | write entries =>
          obtain ⟨hw, rfl⟩ := step_write hstep
          exact ih hu hau hrest (sleeping_write hw ▸ hc) hn
      | wake other =>
          obtain ⟨wish, hw, -, -, hsub, hv, -⟩ := wake_cases hs.calls_nodup hstep
          have hne : other ≠ call := fun h => hc (h ▸ hw.mem_sleeping)
          rw [values_append, hv call hne, ih hu hau hrest (fun h => hc (hsub call h)) hn, List.append_nil]

/-- In a sound store a sleeping caller whose condition holds has been notified, nothing can be written
before it wakes up, and then it returns. -/
theorem Sound.due {s : SingleLock σ} (h : s.Sound) {call : Nat} {wish : Wish} (hw : s.Awaits call wish)
    (hh : wish.holds s.contents) :
    (∃ w ∈ s.asleep, w.call = call ∧ w.notified = true) ∧
      (∃ u, s.wake call = some (u, some ⟨call, s.contents[wish.key]?⟩)) ∧
      ∀ entries, s.write entries = none := by
  obtain ⟨w, hw, rfl, rfl⟩ := hw
  have ho := h.owes_of_holds w hw hh
  have hp : Triggers.pending s.triggers = true :=
    (pending_iff h.agrees).mpr ⟨registration w, List.mem_map_of_mem hw, ho⟩
  obtain ⟨front, v, back, he, hc, hn⟩ := exists_sleeper h.calls_nodup (List.mem_map_of_mem hw)
  obtain rfl : v = w := List.inj_on_of_nodup_map h.calls_nodup (he ▸ by simp) hw hc
  refine ⟨⟨v, hw, rfl, h.notified_of_owes v hw ho⟩, ?_, ?_⟩
  · rw [wake_eq he hn, if_pos hh]
    exact ⟨_, rfl⟩
  · intro entries
    simp [SingleLock.write, hp]

theorem Sound.reads {s t : SingleLock σ} (hs : s.Sound) {steps : List Step} (ha : s.Admitted steps)
    {ended : List Woken} (hr : s.run steps = some (t, ended)) {call : Nat} {wish : Wish}
    (hw : s.Awaits call wish) (hn : call ∉ calls steps) :
    (values call ended = [] ∧ t.Awaits call wish ∧
        ∀ table, (tables s.contents steps).find? wish.holds = some table → table = t.contents) ∨
      ∃ table, (tables s.contents steps).find? wish.holds = some table ∧
        values call ended = [table[wish.key]?] := by
  induction steps generalizing s ended with
  | nil =>
      cases hr
      refine .inl ⟨rfl, hw, fun table ht => ?_⟩
      simpa [tables] using List.mem_of_find?_eq_some ht
  | cons a rest ih =>
      obtain ⟨u, first, more, hstep, hrest, rfl⟩ := run_cons.mp hr
      have hu := hs.step ha.1 hstep
      have hau := ha.2 u first hstep
      cases a with
      | getWhen other wish' =>
          simp only [calls, List.mem_cons, not_or] at hn
          obtain ⟨hc, hv, -⟩ := step_getWhen_values hstep (Ne.symm hn.1)
          have hwu : u.Awaits call wish := by
            have := hw.start other wish'
            rwa [step_getWhen hstep] at this
          rw [values_append, hv, List.nil_append, tables, ← hc]
          exact ih hu hau hrest hwu hn.2
      | write entries =>
          obtain ⟨hwrite, rfl⟩ := step_write hstep
          obtain ⟨hp, hu'⟩ := write_eq_some hwrite
          obtain ⟨w, hmem, -, hwish⟩ := id hw
          have hnot := hwish ▸ (hs.not_holds hp w hmem).2
          have hc : u.contents = s.contents.putAll entries := by rw [hu']
          rw [values_append, Option.toList_none, values_nil, List.nil_append, tables,
            List.find?_cons_of_neg hnot, ← hc]
          exact ih hu hau hrest (hw.write hwrite) hn
      | wake other =>
          obtain ⟨wish', hw', hc, hothers, -, hv, hcase⟩ := wake_cases hs.calls_nodup hstep
          rw [tables]
          by_cases he : other = call
          · subst he
            obtain rfl := hw.unique hs.calls_nodup hw'
            split at hcase
            next hh =>
              obtain ⟨hgone, rfl⟩ := hcase
              refine .inr ⟨s.contents, find?_tables hh rest, ?_⟩
              rw [Option.toList_some, List.singleton_append, values_cons_self,
                values_eq_nil hu hau hrest hgone hn]
            next hh =>
              obtain ⟨hwu, rfl⟩ := hcase
              rw [← hc]
              exact ih hu hau hrest hwu hn
          · rw [values_append, hv call he, List.nil_append, ← hc]
            exact ih hu hau hrest (hothers call wish (Ne.symm he) hw) hn

theorem Sound.getWhen_reads {s t : SingleLock σ} (hs : s.Sound) {call : Nat} {wish : Wish}
    {steps : List Step} (ha : s.Admitted (.getWhen call wish :: steps)) (hn : call ∉ calls steps)
    {ended : List Woken} (hr : s.run (.getWhen call wish :: steps) = some (t, ended)) :
    (values call ended = [] ∧ t.Awaits call wish ∧
        ∀ table, (tables s.contents steps).find? wish.holds = some table → table = t.contents) ∨
      ∃ table, (tables s.contents steps).find? wish.holds = some table ∧
        values call ended = [table[wish.key]?] := by
  obtain ⟨u, first, more, hstep, hrest, rfl⟩ := run_cons.mp hr
  have hu := hs.step ha.1 hstep
  have hau := ha.2 u first hstep
  have he := step_getWhen hstep
  rw [start_eq] at he
  split at he
  next hh =>
    cases he
    refine .inr ⟨s.contents, find?_tables hh steps, ?_⟩
    rw [Option.toList_some, List.singleton_append, values_cons_self,
      values_eq_nil hu hau hrest ha.1.1 hn]
  next hh =>
    cases he
    exact hu.reads hau hrest ⟨_, List.mem_append_right _ (List.mem_singleton_self _), rfl, rfl⟩ hn

theorem Admitted.left {s : SingleLock σ} {first second : List Step} (h : s.Admitted (first ++ second)) :
    s.Admitted first := by
  induction first generalizing s with
  | nil => trivial
  | cons a rest ih => exact ⟨h.1, fun t r hs => ih (h.2 t r hs)⟩

theorem Admitted.right {s t : SingleLock σ} {first second : List Step} (h : s.Admitted (first ++ second))
    {ended : List Woken} (hr : s.run first = some (t, ended)) : t.Admitted second := by
  induction first generalizing s ended with
  | nil =>
      cases hr
      exact h
  | cons a rest ih =>
      obtain ⟨u, r, more, hs, hrest, -⟩ := run_cons.mp hr
      exact ih (h.2 u r hs) hrest

theorem Sound.readsFirstMatch {s t : SingleLock σ} (hs : s.Sound) {call : Nat} {wish : Wish}
    {steps : List Step} (ha : s.Admitted (.getWhen call wish :: steps)) (hn : call ∉ calls steps)
    {ended : List Woken} (hr : s.run (.getWhen call wish :: steps) = some (t, ended)) :
    ReadsFirstMatch s call wish steps t ended where
  value := by
    rcases hs.getWhen_reads ha hn hr with ⟨hv, -⟩ | hv
    · exact .inl hv
    · exact .inr hv
  before_write := by
    rintro front entries back rfl table ht
    rw [← List.cons_append] at ha hr
    have ha' := ha.left
    obtain ⟨u, early, late, hfront, hback, -⟩ := run_append.mp hr
    refine ⟨u, early, hfront, ?_⟩
    rw [calls_append, List.mem_append, not_or] at hn
    rcases hs.getWhen_reads ha' hn.1 hfront with ⟨-, hw, hlast⟩ | ⟨table', ht', hv⟩
    · -- It still sleeps and its condition holds, so the write cannot have been let in.
      have hh : wish.holds u.contents := hlast table ht ▸ List.find?_some ht
      obtain ⟨v, first, more, hstep, -, -⟩ := run_cons.mp hback
      have hnone := ((hs.run ha' hfront).due hw hh).2.2 entries
      rw [(step_write hstep).1] at hnone
      cases hnone
    · rw [ht] at ht'
      cases ht'
      exact hv
  due := by
    intro table ht hv
    rcases hs.getWhen_reads ha hn hr with ⟨-, hw, hlast⟩ | ⟨table', ht', hv'⟩
    · obtain rfl := hlast table ht
      exact (hs.run ha hr).due hw (List.find?_some ht)
    · rw [hv] at hv'
      cases hv'

theorem admitted_of_nodup {s : SingleLock σ} {steps : List Step} (hs : ∀ call ∈ s.sleeping, call ∉ calls steps)
    (hn : (calls steps).Nodup)
    (hroom : ∀ front call wish back, steps = front ++ .getWhen call wish :: back →
      ∀ u early, s.run front = some (u, early) → Room u.live u.triggers) : s.Admitted steps := by
  induction steps generalizing s with
  | nil => trivial
  | cons a rest ih =>
      have hcalls : calls (a :: rest) = calls [a] ++ calls rest := calls_append [a] rest
      rw [hcalls] at hs hn
      refine ⟨?_, fun t r hstep => ih ?_ hn.of_append_right ?_⟩
      · cases a with
        | getWhen call wish =>
            exact ⟨fun hc => hs call hc (by simp [calls]), hroom [] call wish rest rfl s [] rfl⟩
        | write entries | wake call => trivial
      · intro call hc
        rcases mem_sleeping_step hstep hc with hc | hc
        · exact fun h => hs call hc (List.mem_append_right _ h)
        · exact List.disjoint_of_nodup_append hn hc
      · intro front call wish back he u early hr
        exact hroom (a :: front) call wish back (by rw [he]; rfl) u _ (run_cons.mpr ⟨t, r, early, hstep, hr, rfl⟩)

theorem not_mem_calls_of_nodup {before steps : List Step} {call : Nat} {wish : Wish}
    (hn : (calls (before ++ .getWhen call wish :: steps)).Nodup) : call ∉ calls steps := by
  rw [calls_append, calls] at hn
  exact (List.nodup_cons.mp hn.of_append_right).1

/-- Whatever is started, written and woken up in whatever order, a conditional read returns what the
first table that fits has under its key, and nothing is written over that table before. -/
theorem getWhen_reads_first_match (before steps : List Step) (call : Nat) (wish : Wish)
    (hn : (calls (before ++ .getWhen call wish :: steps)).Nodup) :
    (∀ (s t : SingleLock SharedCondition) (early ended : List Woken), empty.run before = some (s, early) →
        s.run (.getWhen call wish :: steps) = some (t, ended) →
          ReadsFirstMatch s call wish steps t ended) ∧
      (IdsLast (before ++ .getWhen call wish :: steps) →
        ∀ (s t : SingleLock PerKeyConditions) (early ended : List Woken), empty.run before = some (s, early) →
          s.run (.getWhen call wish :: steps) = some (t, ended) →
            ReadsFirstMatch s call wish steps t ended) := by
  have hcall := not_mem_calls_of_nodup hn
  constructor
  · intro s t early ended hb hr
    have ha : (empty : SingleLock SharedCondition).Admitted (before ++ .getWhen call wish :: steps) :=
      admitted_of_nodup (by simp [sleeping, empty]) hn fun _ _ _ _ _ _ _ _ => trivial
    exact (sound_empty.run ha.left hb).readsFirstMatch (ha.right hb) hcall hr
  · intro hids s t early ended hb hr
    have ha : (empty : SingleLock PerKeyConditions).Admitted (before ++ .getWhen call wish :: steps) :=
      admitted_of_nodup (by simp [sleeping, empty]) hn fun _ _ _ _ he _ _ hrun => hids.room he hrun
    exact (sound_empty.run ha.left hb).readsFirstMatch (ha.right hb) hcall hr

/-- A burst of writes: the awaited value stands for one write only, and the read returns what was
written together with it. -/
theorem getWhen_reads_first_match_burst :
    ∃ (s t : SingleLock PerKeyConditions) (early ended : List Woken),
      empty.run [.write [("b", [7])]] = some (s, early) ∧
        s.run [.getWhen 1 ⟨"b", "a", [1]⟩, .write [("a", [0])], .wake 1, .write [("b", [8]), ("a", [1])],
          .getWhen 2 ⟨"b", "c", [3]⟩, .wake 1, .write [("a", [2])]] = some (t, ended) ∧
        values 1 ended = [some [8]] ∧
        ReadsFirstMatch s 1 ⟨"b", "a", [1]⟩ [.write [("a", [0])], .wake 1, .write [("b", [8]), ("a", [1])],
          .getWhen 2 ⟨"b", "c", [3]⟩, .wake 1, .write [("a", [2])]] t ended :=
  ⟨_, _, _, _, rfl, rfl, rfl,
    (getWhen_reads_first_match [.write [("b", [7])]] _ 1 _ (by decide)).2
      (idsLast_of_length (by decide)) _ _ _ _ rfl rfl⟩

/-- A caller that sleeps until the ids have come around gets a namesake in its group. The group ends with the first of
the two that returns, and later writes do not wait for the other: here it misses the table that it waits for. -/
theorem read_missed_after_lap :
    ¬∀ (before steps : List Step) (call : Nat) (wish : Wish),
      (calls (before ++ .getWhen call wish :: steps)).Nodup →
        ∀ (s t : SingleLock PerKeyConditions) (early ended : List Woken), empty.run before = some (s, early) →
          s.run (.getWhen call wish :: steps) = some (t, ended) → ReadsFirstMatch s call wish steps t ended := by
  intro h
  have hfirst : empty.run [.write [("b", [1])], .getWhen 1 ⟨"x", "a", [1]⟩] = some (lone, []) := rfl
  have hpasses : Passes lone.lapped ⟨"x", "b", [1]⟩ := passes_lapped rfl rfl
  obtain ⟨ended, hlap⟩ := run_reads hpasses 2 lap
  rw [lapped_zero] at hlap
  have hbefore := run_append.mpr ⟨_, _, _, hfirst, hlap, rfl⟩
  have hmissed : (lone.lapped lap).run [.getWhen namesake ⟨"x", "a", [2]⟩, .write [("a", [1])], .wake 1,
      .wake namesake, .write [("a", [2])]] = some (_, [⟨1, none⟩]) := rfl
  have hover : (lone.lapped lap).run [.getWhen namesake ⟨"x", "a", [2]⟩, .write [("a", [1])], .wake 1,
      .wake namesake, .write [("a", [2])], .write [("a", [3])]] = some (_, [⟨1, none⟩]) := rfl
  have hreads := h _ _ namesake _ ?_ _ _ _ _ hbefore hover
  · obtain ⟨u, early, hr, hv⟩ := hreads.before_write [.write [("a", [1])], .wake 1, .wake namesake, .write [("a", [2])]]
      [("a", [3])] [] rfl _ rfl
    rw [hmissed] at hr
    cases hr
    rw [values_cons_of_ne (by decide)] at hv
    cases hv
  · have hrange := List.nodup_range (n := lap + 5)
    rw [range_lap, List.nodup_cons, List.append_cons, ← List.cons_append] at hrange
    simp only [calls_append, calls_reads, calls, List.append_assoc, List.singleton_append]
    exact hrange.2.of_append_left

end AwaitStore.Store.SingleLock
