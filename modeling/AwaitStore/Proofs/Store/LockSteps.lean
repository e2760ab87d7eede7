import AwaitStore.Store.ShardLocks
import Mathlib.Data.List.Nodup

namespace AwaitStore.Store.LockedShards

variable {n : Nat} {hash : Key → UInt64} {n_pos : 0 < n} {s t : LockedShards n}

/-- Steps taken in turn. Whether readers stand back for waiting writers may change from step to step. -/
def run (hash : Key → UInt64) (s : LockedShards n) (steps : List (Bool × LockStep)) : Option (LockedShards n) :=
  steps.foldlM (fun s a => s.step hash a.1 a.2) s

theorem run_append {first second : List (Bool × LockStep)} {u : LockedShards n} :
    s.run hash (first ++ second) = some u ↔ ∃ t, s.run hash first = some t ∧ t.run hash second = some u := by
  rw [run, List.foldlM_append]
  exact Option.bind_eq_some_iff

theorem run_cons {a : Bool × LockStep} {rest : List (Bool × LockStep)} {u : LockedShards n} :
    s.run hash (a :: rest) = some u ↔ ∃ t, s.step hash a.1 a.2 = some t ∧ t.run hash rest = some u := by
  rw [run, List.foldlM_cons]
  exact Option.bind_eq_some_iff

section Replace

variable {c c' d : Caller n}

theorem mem_replace (hc : ∃ e ∈ s.callers, e.number = c.number) :
    d ∈ (s.replace c).callers ↔ d = c ∨ d ∈ s.callers ∧ d.number ≠ c.number := by
  simp only [replace, List.mem_map]
  constructor
  · rintro ⟨e, he, rfl⟩
    by_cases hn : e.number = c.number
    · exact .inl (if_pos (beq_iff_eq.mpr hn))
    · rw [if_neg (mt beq_iff_eq.mp hn)]
      exact .inr ⟨he, hn⟩
  · rintro (rfl | ⟨hd, hn⟩)
    · obtain ⟨e, he, hn⟩ := hc
      exact ⟨e, he, if_pos (beq_iff_eq.mpr hn)⟩
    · exact ⟨d, hd, if_neg (mt beq_iff_eq.mp hn)⟩

theorem forall_mem_replace {P : Caller n → Prop} (hc : c ∈ s.callers) (hn : c.number = c'.number) (hnew : P c')
    (hold : ∀ d ∈ s.callers, d.number ≠ c.number → P d) : ∀ d ∈ (s.replace c').callers, P d := by
  intro d hd
  rcases (mem_replace ⟨c, hc, hn⟩).mp hd with rfl | ⟨hd, hne⟩
  · exact hnew
  · exact hold d hd (hn ▸ hne)

theorem numbers_replace : (s.replace c).callers.map Caller.number = s.callers.map Caller.number := by
  simp only [replace, List.map_map]
  apply List.map_congr_left
  intro d _
  by_cases hn : d.number = c.number <;> simp [hn]

end Replace

inductive Change (hash : Key → UInt64) (s : LockedShards n) : LockStep → LockedShards n → Prop
  | called {number : Nat} {request : ShardCall} (fresh : ∀ c ∈ s.callers, c.number ≠ number) :
      Change hash s (.call number request) (s.call hash number request)
  | taken {c : Caller n} {i : Fin n} {wanted : List (Fin n)} (mem : c ∈ s.callers) (next : c.wanted = i :: wanted)
      (free : ∀ d ∈ s.callers, d.number ≠ c.number → i ∈ d.held →
        c.request.mode = .reading ∧ d.request.mode = .reading) :
      Change hash s (.take c.number) (s.replace { c with wanted, held := c.held ++ [i] })
  | visited {c : Caller n} {v : Visit n} {ahead : List (Visit n)} (mem : c ∈ s.callers) (locked : c.wanted = [])
      (next : c.ahead = v :: ahead) :
      Change hash s (.visit c.number)
        ({ s with store := (makeVisit v s.store c.seen).1 }.replace
          { c with ahead, seen := (makeVisit v s.store c.seen).2 })
  | released {c : Caller n} {i : Fin n} {held : List (Fin n)} (mem : c ∈ s.callers) (locked : c.wanted = [])
      (done : c.ahead = []) (next : c.held = i :: held) :
      Change hash s (.release c.number) (s.replace { c with held })

theorem isTaken_eq_false {mode : LockMode} {i : Fin n} {c : Caller n} :
    s.isTaken mode i c = false ↔
      ∀ d ∈ s.callers, d.number ≠ c.number → i ∈ d.held → mode = .reading ∧ d.request.mode = .reading := by
  have hreading (m : LockMode) : m ≠ .writing ↔ m = .reading := by cases m <;> decide
  simp only [isTaken, List.any_eq_false, Bool.and_eq_true, Bool.or_eq_true, bne_iff_ne, beq_iff_eq,
    List.contains_iff_mem, not_and, not_or, and_imp, ← hreading]

theorem mem_of_find? {number : Nat} {c : Caller n} (h : s.find? number = some c) :
    c ∈ s.callers ∧ c.number = number :=
  ⟨List.mem_of_find?_eq_some h, by simpa using List.find?_some h⟩

theorem change_of_step {writersFirst : Bool} {a : LockStep} (h : s.step hash writersFirst a = some t) :
    Change hash s a t := by
  cases a with
  | call number request =>
      simp only [step] at h
      split at h
      · cases h
      next hfresh =>
        cases h
        exact .called fun c hc hn => hfresh (List.find?_isSome.mpr ⟨c, hc, beq_iff_eq.mpr hn⟩)
  | take number =>
      simp only [step, take] at h
      split at h
      · cases h
      next c hc =>
        obtain ⟨hmem, rfl⟩ := mem_of_find? hc
        split at h
        · cases h
        next i wanted hw =>
          split at h
          · cases h
          next hfree =>
            split at h
            · cases h
            · cases h
              exact .taken hmem hw (isTaken_eq_false.mp (Bool.eq_false_iff.mpr hfree))
  | visit number =>
      simp only [step, visit] at h
      split at h
      · cases h
      next c hc =>
        obtain ⟨hmem, rfl⟩ := mem_of_find? hc
        split at h
        next v ahead hw hv =>
          cases h
          exact .visited hmem hw hv
        · cases h
  | release number =>
      simp only [step, release] at h
      split at h
      · cases h
      next c hc =>
        obtain ⟨hmem, rfl⟩ := mem_of_find? hc
        split at h
        next i held hw hv hh =>
          cases h
          exact .released hmem hw hv hh
        · cases h

theorem ended_iff {c : Caller n} : c.ended = true ↔ c.wanted = [] ∧ c.held = [] ∧ c.ahead = [] := by
  simp [Caller.ended, and_assoc]

/-- A call takes the locks of its shards in their order, then makes its visits, then gives the locks back. -/
structure InOrder (hash : Key → UInt64) (n_pos : 0 < n) (c : Caller n) : Prop where
  suffix : c.held ++ c.wanted <:+ c.request.shards hash n_pos
  all : c.wanted ≠ [] ∨ c.ahead ≠ [] → c.held ++ c.wanted = c.request.shards hash n_pos
  unvisited : c.wanted ≠ [] → c.ahead = c.request.visits hash n_pos ∧ c.seen = ⟨∅, 0⟩

theorem InOrder.held_eq {c : Caller n} (h : InOrder hash n_pos c) (locked : c.wanted = []) (hahead : c.ahead ≠ []) :
    c.held = c.request.shards hash n_pos := by
  rw [← h.all (.inr hahead), locked, List.append_nil]

structure Disciplined (hash : Key → UInt64) (n_pos : 0 < n) (s : LockedShards n) : Prop where
  numbers : (s.callers.map Caller.number).Nodup
  in_order : ∀ c ∈ s.callers, InOrder hash n_pos c
  apart : ∀ c ∈ s.callers, ∀ d ∈ s.callers, c.number ≠ d.number → ∀ i ∈ c.held, i ∈ d.held →
    c.request.mode = .reading ∧ d.request.mode = .reading

namespace Disciplined

theorem empty : Disciplined hash n_pos (LockedShards.empty n_pos) :=
  ⟨List.nodup_nil, fun _ hc => absurd hc List.not_mem_nil, fun _ hc => absurd hc List.not_mem_nil⟩

theorem withStore (h : Disciplined hash n_pos s) (store : Sharded n) : Disciplined hash n_pos { s with store } :=
  ⟨h.numbers, h.in_order, h.apart⟩

theorem eq_of_number (h : Disciplined hash n_pos s) {c d : Caller n} (hc : c ∈ s.callers) (hd : d ∈ s.callers)
    (hn : c.number = d.number) : c = d :=
  List.inj_on_of_nodup_map h.numbers hc hd hn

theorem find?_eq (h : Disciplined hash n_pos s) {c : Caller n} (hc : c ∈ s.callers) :
    s.find? c.number = some c := by
  cases hf : s.find? c.number with
  | none => exact absurd (beq_self_eq_true _) (List.find?_eq_none.mp hf c hc)
  | some d =>
      obtain ⟨hd, hn⟩ := mem_of_find? hf
      rw [h.eq_of_number hd hc hn]

theorem exists_split (h : Disciplined hash n_pos s) {c : Caller n} (hc : c ∈ s.callers) :
    ∃ front back, s.callers = front ++ c :: back ∧
      ∀ c' : Caller n, c.number = c'.number → (s.replace c').callers = front ++ c' :: back := by
  obtain ⟨front, back, hsplit⟩ := List.append_of_mem hc
  refine ⟨front, back, hsplit, fun c' hn => ?_⟩
  have hother : ∀ d ∈ front ++ back, d.number ≠ c'.number := by
    have hnodup := h.numbers
    rw [hsplit, List.map_append, List.map_cons, List.nodup_middle, ← List.map_append] at hnodup
    intro d hd he
    exact (List.nodup_cons.mp hnodup).1 (List.mem_map.mpr ⟨d, hd, he.trans hn.symm⟩)
  have hsame : ∀ part ⊆ front ++ back, part.map (fun d => if d.number == c'.number then c' else d) = part := by
    intro part hpart
    refine (List.map_congr_left fun d hd => ?_).trans (List.map_id' part)
    exact if_neg (mt beq_iff_eq.mp (hother d (hpart hd)))
  rw [LockedShards.replace, hsplit, List.map_append, List.map_cons, hsame _ (List.subset_append_left _ _),
    hsame _ (List.subset_append_right _ _), if_pos (beq_iff_eq.mpr hn)]

theorem replace (h : Disciplined hash n_pos s) {c c' : Caller n} (hc : c ∈ s.callers) (hn : c.number = c'.number)
    (hin : InOrder hash n_pos c')
    (hapart : ∀ d ∈ s.callers, d.number ≠ c.number → ∀ i ∈ c'.held, i ∈ d.held →
      c'.request.mode = .reading ∧ d.request.mode = .reading) : Disciplined hash n_pos (s.replace c') := by
  constructor
  · rw [numbers_replace]
    exact h.numbers
  · exact forall_mem_replace hc hn hin fun d hd _ => h.in_order d hd
  · refine forall_mem_replace hc hn ?_ ?_
    · exact forall_mem_replace hc hn (fun hne => absurd rfl hne) fun d hd hne _ => hapart d hd hne
    · intro d hd hdn
      exact forall_mem_replace hc hn (fun _ i hi hi' => (hapart d hd hdn i hi' hi).symm) fun e he _ => h.apart d hd e he

theorem change (h : Disciplined hash n_pos s) {a : LockStep} (hc : Change hash s a t) : Disciplined hash n_pos t := by
  cases hc with
  | @called number request fresh =>
      have hmem : ∀ d ∈ (s.call hash number request).callers, d ∈ s.callers ∨ d.held = [] ∧ InOrder hash n_pos d := by
        intro d hd
        rcases List.mem_append.mp hd with hd | hd
        · exact .inl hd
        · rw [List.mem_singleton.mp hd]
          exact .inr ⟨rfl, List.suffix_refl _, fun _ => rfl, fun _ => ⟨rfl, rfl⟩⟩
      constructor
      · have hnew : number ∉ s.callers.map Caller.number := fun hold => by
          obtain ⟨c, hc, hn⟩ := List.mem_map.mp hold
          exact fresh c hc hn
        rw [call, List.map_append, List.map_singleton]
        refine List.nodup_append.mpr ⟨h.numbers, List.nodup_singleton _, ?_⟩
        rintro k hk l hl rfl
        obtain rfl : k = number := List.mem_singleton.mp hl
        exact hnew hk
      · intro d hd
        exact (hmem d hd).elim (h.in_order d) And.right
      · intro d hd e he hne i hi hi'
        rcases hmem d hd with hd | ⟨hheld, -⟩
        · rcases hmem e he with he | ⟨hheld, -⟩
          · exact h.apart d hd e he hne i hi hi'
          · exact absurd (hheld ▸ hi') List.not_mem_nil
        · exact absurd (hheld ▸ hi) List.not_mem_nil
  | @taken c i wanted mem next free =>
      have hin := h.in_order c mem
      have hsame : (c.held ++ [i]) ++ wanted = c.held ++ c.wanted := by
        rw [next, List.append_assoc, List.singleton_append]
      have hsome : c.wanted ≠ [] := next ▸ List.cons_ne_nil _ _
      refine h.replace mem rfl ⟨hsame ▸ hin.suffix, fun _ => hsame ▸ hin.all (.inl hsome), fun _ => hin.unvisited hsome⟩ ?_
      intro d hd hne j hj hj'
      rcases List.mem_append.mp hj with hj | hj
      · exact h.apart c mem d hd hne.symm j hj hj'
      · exact free d hd hne (List.mem_singleton.mp hj ▸ hj')
  | @visited c v ahead mem locked next =>
      have hin := h.in_order c mem
      have hsome : c.ahead ≠ [] := next ▸ List.cons_ne_nil _ _
      refine (h.withStore _).replace mem rfl ⟨hin.suffix, fun _ => hin.all (.inr hsome), fun hw => absurd locked hw⟩ ?_
      exact fun d hd hne => h.apart c mem d hd hne.symm
  | @released c i held mem locked done next =>
      have hin := h.in_order c mem
      have hsuffix : held ++ c.wanted <:+ c.request.shards hash n_pos :=
        (List.suffix_cons i _).trans (by simpa [next] using hin.suffix)
      refine h.replace mem rfl ⟨hsuffix, ?_, fun hw => absurd locked hw⟩ ?_
      · rintro (hw | hv)
        · exact absurd locked hw
        · exact absurd done hv
      · intro d hd hne j hj hj'
        exact h.apart c mem d hd hne.symm j (next ▸ List.mem_cons_of_mem i hj) hj'

theorem run (h : Disciplined hash n_pos s) {steps : List (Bool × LockStep)} (hr : s.run hash steps = some t) :
    Disciplined hash n_pos t := by
  induction steps generalizing s with
  | nil =>
      cases hr
      exact h
  | cons a rest ih =>
      obtain ⟨u, hu, hrest⟩ := run_cons.mp hr
      exact ih (h.change (change_of_step hu)) hrest

end Disciplined

end AwaitStore.Store.LockedShards
