import AwaitStore.Proofs.Transitions
import AwaitStore.Store.SingleLock
import Mathlib.Data.List.Nodup

namespace AwaitStore.Store.SingleLock

variable {σ : Type} [Triggers σ]

/-- Takes the steps in turn and lists the conditional reads that end in between. There is no such run
if one of the steps is not possible when its turn comes. -/
def run (s : SingleLock σ) : List Step → Option (SingleLock σ × List Woken)
  | [] => some (s, [])
  | a :: rest =>
      match s.step a with
      | none => none
      | some (t, ended) =>
          match t.run rest with
          | none => none
          | some (u, more) => some (u, ended.toList ++ more)

def calls : List Step → List Nat
  | [] => []
  | .getWhen call _ :: rest => call :: calls rest
  | .write _ :: rest | .wake _ :: rest => calls rest

/-- The table at the beginning and the one after each write. -/
def tables (table : Table) : List Step → List Table
  | [] => [table]
  | .write entries :: rest => table :: tables (table.putAll entries) rest
  | .getWhen .. :: rest | .wake _ :: rest => tables table rest

def values (call : Nat) (ended : List Woken) : List (Option Value) :=
  (ended.filter (fun w => w.call = call)).map Woken.value

def sleeping (s : SingleLock σ) : List Nat := s.asleep.map Sleeper.call

def registration (w : Sleeper (Triggers.Ticket σ)) : Key × Triggers.Ticket σ := (w.wish.keyCond, w.ticket)

/-- The callers that are registered between two steps: those that sleep. -/
def live (s : SingleLock σ) : List (Key × Triggers.Ticket σ) := s.asleep.map registration

theorem run_eq_runSteps (s : SingleLock σ) (steps : List Step) : s.run steps = runSteps step s steps := by
  induction steps generalizing s with
  | nil => rfl
  | cons a rest ih =>
      rw [run, runSteps]
      cases s.step a with
      | none => rfl
      | some p =>
          simp only [← ih p.1]
          cases p.1.run rest <;> rfl

theorem run_cons {s u : SingleLock σ} {a : Step} {rest : List Step} {ended : List Woken} :
    s.run (a :: rest) = some (u, ended) ↔
      ∃ t first more, s.step a = some (t, first) ∧ t.run rest = some (u, more) ∧
        ended = first.toList ++ more := by
  simp only [run_eq_runSteps]
  exact runSteps_cons

theorem run_append {s u : SingleLock σ} {first second : List Step} {ended : List Woken} :
    s.run (first ++ second) = some (u, ended) ↔
      ∃ t early late, s.run first = some (t, early) ∧ t.run second = some (u, late) ∧
        ended = early ++ late := by
  simp only [run_eq_runSteps]
  exact runSteps_append

theorem calls_append (first second : List Step) : calls (first ++ second) = calls first ++ calls second := by
  induction first with
  | nil => rfl
  | cons a rest ih => cases a <;> simp [calls, ih]

@[simp] theorem values_nil (call : Nat) : values call [] = [] := rfl

@[simp] theorem values_append (call : Nat) (first second : List Woken) :
    values call (first ++ second) = values call first ++ values call second := by
  simp [values]

@[simp] theorem values_cons_self (call : Nat) (value : Option Value) (rest : List Woken) :
    values call (⟨call, value⟩ :: rest) = value :: values call rest := by
  simp [values]

theorem values_cons_of_ne {call other : Nat} (h : other ≠ call) (value : Option Value)
    (rest : List Woken) : values call (⟨other, value⟩ :: rest) = values call rest := by
  simp [values, h]

theorem start_eq (s : SingleLock σ) (call : Nat) (wish : Wish) :
    s.start call wish =
      if wish.holds s.contents then
        ({ s with
            triggers :=
              Triggers.unregister wish.keyCond (Triggers.register wish.keyCond s.triggers).1
                (Triggers.register wish.keyCond s.triggers).2 },
          some ⟨call, s.contents[wish.key]?⟩)
      else
        ({ s with
            triggers := (Triggers.register wish.keyCond s.triggers).2
            asleep :=
              s.asleep ++ [⟨call, wish, (Triggers.register wish.keyCond s.triggers).1, false⟩] },
          none) := rfl

theorem step_getWhen {s t : SingleLock σ} {call : Nat} {wish : Wish} {r : Option Woken}
    (h : s.step (.getWhen call wish) = some (t, r)) : s.start call wish = (t, r) := Option.some.inj h

theorem step_write {s t : SingleLock σ} {entries : List (Key × Value)} {r : Option Woken}
    (h : s.step (.write entries) = some (t, r)) : s.write entries = some t ∧ r = none := by
  obtain ⟨u, hu, he⟩ := Option.map_eq_some_iff.mp h
  cases he
  exact ⟨hu, rfl⟩

theorem write_eq_some {s t : SingleLock σ} {entries : List (Key × Value)} (h : s.write entries = some t) :
    Triggers.pending s.triggers = false ∧
      t = ⟨s.contents.putAll entries, (Triggers.summon (entries.map Prod.fst) s.triggers).1,
        s.asleep.map (notify (Triggers.summon (entries.map Prod.fst) s.triggers).2)⟩ := by
  simp only [write] at h
  split at h
  · cases h
  next hp => cases h; exact ⟨by simpa using hp, rfl⟩

@[simp] theorem notify_call (conditions : List Condition) (w : Sleeper (Triggers.Ticket σ)) :
    (notify conditions w).call = w.call := by
  unfold notify
  split <;> rfl

@[simp] theorem notify_wish (conditions : List Condition) (w : Sleeper (Triggers.Ticket σ)) :
    (notify conditions w).wish = w.wish := by
  unfold notify
  split <;> rfl

@[simp] theorem notify_ticket (conditions : List Condition) (w : Sleeper (Triggers.Ticket σ)) :
    (notify conditions w).ticket = w.ticket := by
  unfold notify
  split <;> rfl

@[simp] theorem registration_notify (conditions : List Condition) (w : Sleeper (Triggers.Ticket σ)) :
    registration (notify conditions w) = registration w := by
  simp [registration]

theorem notify_notified {conditions : List Condition} {w : Sleeper (Triggers.Ticket σ)}
    (h : Triggers.condition w.ticket ∈ conditions) : (notify conditions w).notified = true := by
  simp [notify, h]

theorem sleeping_write {s t : SingleLock σ} {entries : List (Key × Value)} (h : s.write entries = some t) :
    t.sleeping = s.sleeping := by
  obtain ⟨-, rfl⟩ := write_eq_some h
  simp [sleeping, Function.comp_def]

theorem exists_sleeper {s : SingleLock σ} (hn : s.sleeping.Nodup) {call : Nat} (hc : call ∈ s.sleeping) :
    ∃ front w back, s.asleep = front ++ w :: back ∧ w.call = call ∧
      call ∉ (front ++ back).map Sleeper.call := by
  obtain ⟨w, hw, rfl⟩ := List.mem_map.mp hc
  obtain ⟨front, back, he⟩ := List.append_of_mem hw
  refine ⟨front, w, back, he, rfl, ?_⟩
  simp only [sleeping, he, List.map_append, List.map_cons, List.nodup_middle, List.nodup_cons] at hn
  simpa using hn.1

theorem wake_eq {s : SingleLock σ} {front back : List (Sleeper (Triggers.Ticket σ))}
    {w : Sleeper (Triggers.Ticket σ)} (he : s.asleep = front ++ w :: back)
    (hw : w.call ∉ (front ++ back).map Sleeper.call) :
    s.wake w.call =
      if w.wish.holds s.contents then
        some
          (⟨s.contents,
              Triggers.unregister w.wish.keyCond (Triggers.acknowledge w.ticket s.triggers).2.1
                (Triggers.acknowledge w.ticket s.triggers).2.2,
              front ++ back⟩,
            some ⟨w.call, s.contents[w.wish.key]?⟩)
      else
        some
          (⟨s.contents, (Triggers.acknowledge w.ticket s.triggers).2.2,
              front ++
                { w with ticket := (Triggers.acknowledge w.ticket s.triggers).2.1, notified := false } ::
                  back⟩,
            none) := by
  have hne (v) (hv : v ∈ front ++ back) : v.call ≠ w.call := fun h =>
    hw (h ▸ List.mem_map_of_mem hv)
  have hfront (v) (hv : v ∈ front) : v.call ≠ w.call := hne v (by simp [hv])
  have hback (v) (hv : v ∈ back) : v.call ≠ w.call := hne v (by simp [hv])
  have hfind : s.asleep.find? (fun v => v.call == w.call) = some w := by
    rw [he, List.find?_append, List.find?_eq_none.mpr (by simpa using hfront)]
    simp
  have hfilter : s.asleep.filter (fun v => v.call != w.call) = front ++ back := by
    rw [he, List.filter_append, List.filter_cons_of_neg (by simp),
      List.filter_eq_self.mpr (by simpa using hfront), List.filter_eq_self.mpr (by simpa using hback)]
  have hmap (f : Sleeper (Triggers.Ticket σ) → Sleeper (Triggers.Ticket σ)) :
      s.asleep.map (fun v => if v.call == w.call then f v else v) = front ++ f w :: back := by
    have hid (l : List (Sleeper (Triggers.Ticket σ))) (hl : ∀ v ∈ l, v.call ≠ w.call) :
        l.map (fun v => if v.call == w.call then f v else v) = l := by
      rw [List.map_congr_left (fun v hv => if_neg (by simpa using hl v hv)), List.map_id']
    rw [he, List.map_append, List.map_cons, hid front hfront, hid back hback]
    simp
  simp only [wake, hfind, hfilter, hmap]

theorem wake_eq_some {s t : SingleLock σ} {call : Nat} {r : Option Woken} (h : s.wake call = some (t, r)) :
    ∃ w ∈ s.asleep, w.call = call ∧
      ((t = ⟨s.contents,
            Triggers.unregister w.wish.keyCond (Triggers.acknowledge w.ticket s.triggers).2.1
              (Triggers.acknowledge w.ticket s.triggers).2.2,
            s.asleep.filter (fun v => v.call != call)⟩) ∨
        t = ⟨s.contents, (Triggers.acknowledge w.ticket s.triggers).2.2,
          s.asleep.map (fun v =>
            if v.call == call then
              { v with ticket := (Triggers.acknowledge w.ticket s.triggers).2.1, notified := false }
            else v)⟩) := by
  simp only [wake] at h
  split at h
  · cases h
  next w hw =>
    refine ⟨w, List.mem_of_find?_eq_some hw, by simpa using List.find?_some hw, ?_⟩
    split at h
    · cases h
      exact .inl rfl
    · cases h
      exact .inr rfl

theorem mem_sleeping_of_wake {s t : SingleLock σ} {call : Nat} {r : Option Woken}
    (h : s.wake call = some (t, r)) : call ∈ s.sleeping := by
  obtain ⟨w, hw, rfl, -⟩ := wake_eq_some h
  exact List.mem_map_of_mem hw

theorem mem_sleeping_step {s t : SingleLock σ} {a : Step} {r : Option Woken} (h : s.step a = some (t, r))
    {call : Nat} (hc : call ∈ t.sleeping) : call ∈ s.sleeping ∨ call ∈ calls [a] := by
  cases a with
  | getWhen other wish =>
      have he := step_getWhen h
      rw [start_eq] at he
      split at he
      · cases he
        exact .inl hc
      · cases he
        simpa [sleeping, calls] using hc
  | write entries => exact .inl (sleeping_write (step_write h).1 ▸ hc)
  | wake other =>
      left
      obtain ⟨w, -, -, rfl | rfl⟩ := wake_eq_some h
      · exact (List.filter_sublist.map Sleeper.call).mem hc
      · obtain ⟨_, hv, rfl⟩ := List.mem_map.mp hc
        obtain ⟨u, hu, rfl⟩ := List.mem_map.mp hv
        exact List.mem_map.mpr ⟨u, hu, by split <;> rfl⟩

theorem run_snoc {s u : SingleLock σ} {steps : List Step} {a : Step} {ended : List Woken} :
    s.run (steps ++ [a]) = some (u, ended) ↔
      ∃ t early last, s.run steps = some (t, early) ∧ t.step a = some (u, last) ∧
        ended = early ++ last.toList := by
  simp only [run_eq_runSteps]
  exact runSteps_snoc

end AwaitStore.Store.SingleLock
