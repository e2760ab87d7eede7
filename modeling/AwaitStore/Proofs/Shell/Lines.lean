import AwaitStore.Proofs.Shell.Notes
import AwaitStore.Proofs.Store.Outcomes

namespace AwaitStore.Shell

open Store (Backend Kind NoneLapped)

/-- A line, and whether the host can spawn a thread when it is read. -/
abbrev Input := String × Bool

inductive Reading where
  | refused (error : CommandError)
  /-- There is no thread for the command. -/
  | unspawned (command : Command)
  | carried (command : Command)
  deriving DecidableEq

namespace Reading

def command? : Reading → Option Command
  | carried command => some command
  | refused _ | unspawned _ => none

def note? : Reading → Option Note
  | unspawned _ => some .unspawned
  | refused _ | carried _ => none

end Reading

def Input.reading (input : Input) : Reading :=
  match Command.parse input.1 with
  | .error e => .refused e
  | .ok command => if command.background && !input.2 then .unspawned command else .carried command

def commandsOf (inputs : List Input) : List Command := inputs.filterMap fun input => input.reading.command?

def unspawnedNotes (inputs : List Input) : List Note := inputs.filterMap fun input => input.reading.note?

def operationsOf (commands : List Command) : List Operation := commands.map Command.operation

def backgroundNote (n : Nat) (command : Command) : List Note :=
  if command.background then [.backgrounded n] else []

/-- What one line may come to. A command in the foreground returns before the next line is read. -/
inductive Line (input : Input) (r : Runner Backend) : List Note → Runner Backend → Prop where
  | refused {e : CommandError} (h : input.reading = .refused e) : Line input r [] r
  | unspawned {command : Command} (h : input.reading = .unspawned command) :
      Line input r [.unspawned] (r.take .unspawned)
  | command {command : Command} {order : Wire.Listing} {wakes : List Nat} {returned : List Return} {b : Backend}
      {notes : List Note} (h : input.reading = .carried command)
      (served : Backend.Served ⟨r.started, command.operation, order, wakes⟩ r.database returned b)
      (foreground : command.background = false → r.started ∈ returned.map Return.call)
      (notes_perm : notes.Perm (backgroundNote r.started command ++ returned.map Note.ended)) :
      Line input r notes
        (notes.foldl Runner.take ⟨b, r.started + 1, r.running ++ [(r.started, command.operation)], r.console⟩)

inductive Lines : List Input → Runner Backend → List Note → Runner Backend → Prop where
  | nil {r : Runner Backend} : Lines [] r [] r
  | cons {input : Input} {inputs : List Input} {r s t : Runner Backend} {notes more : List Note}
      (first : Line input r notes s) (rest : Lines inputs s more t) : Lines (input :: inputs) r (notes ++ more) t

def Runner.runLines {σ : Type} [Database σ] (inputs : List Input) (r : Runner σ) : Runner σ :=
  inputs.foldl (fun r input => (r.read input.2 input.1).2) r

def numbered (ops : List Operation) : List (Nat × Operation) := ops.zipIdx.map Prod.swap

theorem numbered_append_cons (ops : List Operation) (op : Operation) (later : List Operation) :
    ∃ back, numbered (ops ++ op :: later) = numbered ops ++ (ops.length, op) :: back :=
  ⟨_, by rw [numbered, List.zipIdx_append, List.zipIdx_cons, List.map_append, List.map_cons, Nat.zero_add]; rfl⟩

theorem numbered_snoc (ops : List Operation) (op : Operation) :
    numbered (ops ++ [op]) = numbered ops ++ [(ops.length, op)] := by
  simp [numbered, List.zipIdx_append]

theorem nodup_numbered (ops : List Operation) : ((numbered ops).map Prod.fst).Nodup := by
  have hrange : (numbered ops).map Prod.fst = List.range' 0 ops.length := by
    rw [numbered, List.map_map]
    exact List.zipIdx_map_snd 0 ops
  rw [hrange]
  exact List.nodup_range'

theorem mem_numbered {ops : List Operation} {w : Nat × Operation} : w ∈ numbered ops ↔ ops[w.1]? = some w.2 :=
  (List.mem_map_swap w.2 w.1 ops.zipIdx).trans List.mk_mem_zipIdx_iff_getElem?

section Expected

variable (kind : Kind)

def tableAfter (table : Table) (commands : List Command) : Table :=
  (operationsOf commands).foldl (fun t op => op.leaves t) table

/-- What is reported of these commands, the first of them the `n`-th, on a store that holds this table. -/
def notesOf (n : Nat) (table : Table) : List Command → List Note
  | [] => []
  | command :: later =>
      let after := command.operation.leaves table
      backgroundNote n command ++
        (([(n, command.operation)].filterMap (kind.finally? after (operationsOf later))).map Note.ended ++
          notesOf (n + 1) after later)

def waitingOf (n : Nat) (table : Table) : List Command → List (Nat × Operation)
  | [] => []
  | command :: later =>
      let after := command.operation.leaves table
      [(n, command.operation)].filter (fun w => (kind.eventually? after w.2 (operationsOf later)).isNone) ++
        waitingOf (n + 1) after later

def noneBlocks (table : Table) : List Command → Bool
  | [] => true
  | command :: later =>
      (command.background || (kind.outcome? table command.operation).isSome) &&
        noneBlocks (command.operation.leaves table) later

end Expected

/-- A shell between two lines, after these operations. -/
structure InStep (kind : Kind) (ops : List Operation) (r : Runner Backend) : Prop where
  kind_eq : r.database.kind = kind
  after : r.database.After (numbered ops)
  started_eq : r.started = ops.length
  running_eq : r.running = r.database.calls
  asked : r.running.Sublist (numbered ops)
  waits : ∀ w ∈ r.running, kind.outcome? r.database.contents w.2 = none

/-- What a command does, `all` being the operations of the whole run. -/
structure Does (kind : Kind) (all : List Operation) (command : Command) (r : Runner Backend) (notes : List Note)
    (t : Runner Backend) : Prop where
  contents_eq : t.database.contents = command.operation.leaves r.database.contents
  running_eq : t.running = (r.running ++ [(r.started, command.operation)]).filter fun w =>
    (kind.outcome? t.database.contents w.2).isNone
  notes_perm : notes.Perm (backgroundNote r.started command ++
    ((r.running ++ [(r.started, command.operation)]).filterMap (kind.return? t.database.contents)).map Note.ended)
  console_eq : t.console = notes.foldl (Note.write all) r.console

variable {kind : Kind} {all ops later : List Operation} {r s t : Runner Backend} {command : Command}
  {notes lost : List Note} {input : Input} {inputs : List Input}

theorem returns_backgroundNote (n : Nat) (command : Command) : returns (backgroundNote n command) = [] := by
  unfold backgroundNote
  split <;> rfl

theorem returns_ended (returned : List Return) : returns (returned.map Note.ended) = returned := by
  rw [returns, List.filterMap_map]
  exact List.filterMap_some

theorem returns_append (first second : List Note) : returns (first ++ second) = returns first ++ returns second :=
  List.filterMap_append

theorem foldl_take_of_returns {b : Backend} {n : Nat} {pending : List (Nat × Operation)} {console : Console}
    {table : Table} (hn : (pending.map Prod.fst).Nodup) (hops : ∀ w ∈ pending, all[w.1]? = some w.2)
    (h : (returns notes).Perm (pending.filterMap (kind.return? table))) :
    notes.foldl Runner.take ⟨b, n, pending, console⟩ =
      ⟨b, n, pending.filter (fun w => (kind.outcome? table w.2).isNone), notes.foldl (Note.write all) console⟩ := by
  have hcalls := h.map Return.call
  have hdone := Kind.map_call_sublist kind table pending
  have hmem : ∀ ret ∈ returns notes, ret.call ∈ pending.map Prod.fst := fun ret hret =>
    hdone.mem (hcalls.mem_iff.mp (List.mem_map_of_mem hret))
  have hleft : pending.filter (fun w => !((returns notes).map Return.call).contains w.1) =
      pending.filter fun w => (kind.outcome? table w.2).isNone := by
    refine List.filter_congr fun w hw => ?_
    rw [← Option.not_isSome, Bool.not_inj_iff, Bool.eq_iff_iff, List.contains_iff_mem, hcalls.mem_iff]
    exact Kind.mem_map_call_iff hn hw
  rw [Runner.foldl_take (hcalls.nodup_iff.mpr (hdone.nodup hn)) hmem hops, hleft]

theorem InStep.exists_whole (h : InStep kind ops r) (he : all = ops ++ command.operation :: later) :
    ∃ back, numbered all = numbered ops ++ (r.started, command.operation) :: back := by
  rw [he, h.started_eq]
  exact numbered_append_cons ops command.operation later

/-- Whatever wakes up first and is written first, a command does the same and leaves the shell in step. -/
theorem InStep.serve (h : InStep kind ops r) (he : all = ops ++ command.operation :: later)
    (hl : kind = .multiCondition → NoneLapped (numbered all)) {order : Wire.Listing} {wakes : List Nat}
    {returned : List Return} {b : Backend}
    (hs : Backend.Served ⟨r.started, command.operation, order, wakes⟩ r.database returned b)
    (hnotes : notes.Perm (backgroundNote r.started command ++ returned.map Note.ended)) :
    let t := notes.foldl Runner.take
      ⟨b, r.started + 1, r.running ++ [(r.started, command.operation)], r.console⟩
    InStep kind (ops ++ [command.operation]) t ∧ Does kind all command r notes t := by
  obtain ⟨back, hwhole⟩ := h.exists_whole he
  obtain ⟨hafter, hsame, hcontents, hcalls, hreturned⟩ :=
    h.after.served hwhole (nodup_numbered all) (h.kind_eq ▸ hl) hs
  rw [← h.running_eq, h.kind_eq] at hcalls hreturned
  -- All calls under way have been made, and each once.
  have hsnoc : numbered (ops ++ [command.operation]) = numbered ops ++ [(r.started, command.operation)] := by
    rw [numbered_snoc, h.started_eq]
  have hasked : (r.running ++ [(r.started, command.operation)]).Sublist (numbered (ops ++ [command.operation])) :=
    hsnoc ▸ h.asked.append (.refl _)
  have hops : ∀ w ∈ r.running ++ [(r.started, command.operation)], all[w.1]? = some w.2 := by
    intro w hw
    rw [← mem_numbered, hwhole, List.append_cons, ← hsnoc]
    exact List.mem_append_left _ (hasked.mem hw)
  have hreturns : (returns notes).Perm returned := by
    have hall := hnotes.filterMap Note.ended?
    rwa [List.filterMap_append, ← returns, ← returns, ← returns, returns_backgroundNote, returns_ended,
      List.nil_append] at hall
  intro t
  have ht : t = ⟨b, r.started + 1, b.calls, notes.foldl (Note.write all) r.console⟩ := by
    rw [hcalls]
    exact foldl_take_of_returns ((hasked.map Prod.fst).nodup (nodup_numbered _)) hops (hreturns.trans hreturned)
  rw [ht]
  constructor
  · refine ⟨hsame.trans h.kind_eq, hsnoc ▸ hafter, by simp [h.started_eq], rfl, ?_, fun w hw => ?_⟩
    · change b.calls.Sublist _
      rw [hcalls]
      exact List.filter_sublist.trans hasked
    · change w ∈ b.calls at hw
      rw [hcalls] at hw
      exact Option.isNone_iff_eq_none.mp (List.mem_filter.mp hw).2
  · exact ⟨hcontents, hcalls, hnotes.trans ((hreturned.map Note.ended).append_left _), rfl⟩

theorem read_eq (input : Input) {σ : Type} [Database σ] (r : Runner σ) :
    (r.read input.2 input.1).2 =
      match input.reading with
      | .refused _ => r
      | .unspawned _ => r.take .unspawned
      | .carried command => r.run command := by
  unfold Input.reading Runner.read
  cases Command.parse input.1 with
  | error e => rfl
  | ok command =>
      dsimp only [Runner.start]
      cases command.background && !input.2 <;> rfl

theorem commandsOf_cons (input : Input) (inputs : List Input) :
    commandsOf (input :: inputs) = input.reading.command?.toList ++ commandsOf inputs := by
  rw [commandsOf, List.filterMap_cons, commandsOf]
  cases input.reading.command? <;> rfl

theorem unspawnedNotes_cons (input : Input) (inputs : List Input) :
    unspawnedNotes (input :: inputs) = input.reading.note?.toList ++ unspawnedNotes inputs := by
  rw [unspawnedNotes, List.filterMap_cons, unspawnedNotes]
  cases input.reading.note? <;> rfl

theorem returns_unspawnedNotes (inputs : List Input) : returns (unspawnedNotes inputs) = [] := by
  induction inputs with
  | nil => rfl
  | cons input inputs ih =>
      rw [unspawnedNotes_cons, returns_append, ih]
      cases input.reading <;> rfl

/-- What a run of lines does with these commands among them, and what it lets those return who waited before. The
notes of the commands without a thread are `lost`. -/
structure Carries (kind : Kind) (all : List Operation) (commands : List Command) (lost : List Note)
    (r : Runner Backend) (notes : List Note) (t : Runner Backend) : Prop where
  inStep : InStep kind all t
  contents_eq : t.database.contents = tableAfter r.database.contents commands
  running_eq : t.running =
    r.running.filter (fun w => (kind.eventually? r.database.contents w.2 (operationsOf commands)).isNone) ++
      waitingOf kind r.started r.database.contents commands
  notes_perm : notes.Perm
    ((r.running.filterMap (kind.finally? r.database.contents (operationsOf commands))).map Note.ended ++
      notesOf kind r.started r.database.contents commands ++ lost)
  console_eq : t.console = notes.foldl (Note.write all) r.console

theorem InStep.carries_nil (h : InStep kind ops r) : Carries kind ops [] [] r [] r := by
  have hstay : r.running.filter (fun w => (kind.eventually? r.database.contents w.2 []).isNone) = r.running := by
    refine List.filter_eq_self.mpr fun w hw => ?_
    rw [Kind.eventually?_nil, h.waits w hw]
    rfl
  have hnobody : r.running.filterMap (kind.finally? r.database.contents []) = [] := by
    refine List.filterMap_eq_nil_iff.mpr fun w hw => ?_
    rw [Kind.finally?, Kind.eventually?_nil, h.waits w hw]
    rfl
  refine ⟨h, rfl, ?_, ?_, rfl⟩
  · exact ((List.append_nil _).trans hstay).symm
  · change [].Perm ((r.running.filterMap (kind.finally? r.database.contents [])).map Note.ended ++ [] ++ [])
    rw [hnobody]
    exact .refl _

theorem Does.carries {commands : List Command} {more : List Note} (hr : InStep kind ops r)
    (hs : InStep kind (ops ++ [command.operation]) s) (h : Does kind all command r notes s)
    (hrest : Carries kind all commands lost s more t) :
    Carries kind all (command :: commands) lost r (notes ++ more) t := by
  have hstarted : s.started = r.started + 1 := by simp [hs.started_eq, hr.started_eq]
  -- Who waited before the command waits for the table that it leaves.
  have hlate (w : Nat × Operation) (hw : w ∈ r.running) :
      kind.eventually? r.database.contents w.2 (operationsOf (command :: commands)) =
        kind.eventually? s.database.contents w.2 (operationsOf commands) := by
    rw [h.contents_eq]
    exact Kind.eventually?_of_none (hr.waits w hw) _ _
  refine ⟨hrest.inStep, ?_, ?_, ?_, ?_⟩
  · rw [hrest.contents_eq, h.contents_eq]
    rfl
  · rw [hrest.running_eq, h.running_eq, Kind.filter_isNone_outcome?, List.filter_append, List.append_assoc,
      waitingOf, hstarted, h.contents_eq]
    refine congrArg (· ++ _) (List.filter_congr fun w hw => ?_)
    rw [hlate w hw, h.contents_eq]
  · have hmore := hrest.notes_perm
    rw [h.running_eq, hstarted] at hmore
    have hlater : r.running.filterMap (kind.finally? r.database.contents (operationsOf (command :: commands))) =
        r.running.filterMap (kind.finally? s.database.contents (operationsOf commands)) :=
      List.filterMap_congr fun w hw => congrArg (Option.map (Return.mk w.1)) (hlate w hw)
    -- Those return who need not wait on this table, and those who need not wait on a later one.
    have hreturn := (Kind.finally?_perm kind s.database.contents (r.running ++ [(r.started, command.operation)])
      (operationsOf commands)).map Note.ended
    rw [List.filterMap_append (f := kind.finally? _ _), List.map_append, List.map_append] at hreturn
    rw [notesOf, ← h.contents_eq, hlater]
    refine (h.notes_perm.append hmore).trans ?_
    rw [← List.append_assoc]
    refine List.Perm.append_right lost ?_
    rw [List.append_assoc, ← List.append_assoc (List.map _ _)]
    refine ((hreturn.symm.append_right _).append_left _).trans ?_
    rw [List.append_assoc]
    exact List.perm_append_comm_assoc ..
  · rw [hrest.console_eq, h.console_eq, List.foldl_append]

theorem InStep.lose (h : InStep kind ops r) : InStep kind ops (r.take .unspawned) :=
  ⟨h.kind_eq, h.after, h.started_eq, h.running_eq, h.asked, h.waits⟩

theorem Carries.lose {commands : List Command} {more : List Note}
    (h : Carries kind all commands lost (r.take .unspawned) more t) :
    Carries kind all commands (.unspawned :: lost) r ([.unspawned] ++ more) t :=
  ⟨h.inStep, h.contents_eq, h.running_eq, (h.notes_perm.cons _).trans List.perm_middle.symm, h.console_eq⟩

/-- What a run of lines does depends on its commands alone. -/
theorem Lines.carries (h : Lines inputs r notes t) (hr : InStep kind ops r)
    (he : all = ops ++ operationsOf (commandsOf inputs)) (hl : kind = .multiCondition → NoneLapped (numbered all)) :
    Carries kind all (commandsOf inputs) (unspawnedNotes inputs) r notes t := by
  induction h generalizing ops with
  | nil =>
      obtain rfl : all = ops := he.trans (List.append_nil ops)
      exact hr.carries_nil
  | cons first _ ih =>
      cases first with
      | refused hp =>
          rw [commandsOf_cons, hp] at he ⊢
          rw [unspawnedNotes_cons, hp]
          exact ih hr he
      | unspawned hp =>
          rw [commandsOf_cons, hp] at he ⊢
          rw [unspawnedNotes_cons, hp]
          exact (ih hr.lose he).lose
      | command hp served _ hnotes =>
          rw [commandsOf_cons, hp] at he ⊢
          rw [unspawnedNotes_cons, hp]
          obtain ⟨hs, hdoes⟩ := hr.serve he hl served hnotes
          exact hdoes.carries hr hs (ih hs (by rw [he, List.append_assoc]; rfl))

theorem run_eq (command : Command) (r : Runner Backend) :
    r.run command = (backgroundNote r.started command ++
        (r.database.perform r.started command.operation).2.map Note.ended).foldl Runner.take
      ⟨(r.database.perform r.started command.operation).1, r.started + 1,
        r.running ++ [(r.started, command.operation)], r.console⟩ := by
  rw [List.foldl_append, List.foldl_map, backgroundNote, Runner.run]
  cases command.background <;> rfl

theorem InStep.exists_line (h : InStep kind ops r) (he : all = ops ++ command.operation :: later)
    (hl : kind = .multiCondition → NoneLapped (numbered all)) (hp : input.reading = .carried command)
    (hb : (command.background || (kind.outcome? r.database.contents command.operation).isSome) = true) :
    ∃ notes, Line input r notes (r.run command) ∧ InStep kind (ops ++ [command.operation]) (r.run command) ∧
      Does kind all command r notes (r.run command) := by
  obtain ⟨back, hwhole⟩ := h.exists_whole he
  have hl' : r.database.kind = .multiCondition → NoneLapped (numbered all) := h.kind_eq ▸ hl
  obtain ⟨wakes, hs⟩ := h.after.served_perform hwhole (nodup_numbered all) hl'
  obtain ⟨-, hanswers⟩ :=
    h.after.served (a := ⟨r.started, command.operation, .ascending, wakes⟩) hwhole (nodup_numbered all) hl' hs
  have hforeground (hf : command.background = false) :
      r.started ∈ (r.database.perform r.started command.operation).2.map Return.call := by
    rw [hf, Bool.false_or, ← h.kind_eq, Option.isSome_iff_exists] at hb
    obtain ⟨outcome, ho⟩ := hb
    exact List.mem_map_of_mem (hanswers.mem_returns ho)
  rw [run_eq]
  exact ⟨_, .command hp hs hforeground (.refl _), h.serve he hl hs (.refl _)⟩

theorem InStep.exists_lines (h : InStep kind ops r) (he : all = ops ++ operationsOf (commandsOf inputs))
    (hl : kind = .multiCondition → NoneLapped (numbered all))
    (hb : noneBlocks kind r.database.contents (commandsOf inputs) = true) :
    ∃ notes, Lines inputs r notes (r.runLines inputs) := by
  induction inputs generalizing r ops with
  | nil => exact ⟨[], .nil⟩
  | cons input inputs ih =>
      rw [Runner.runLines, List.foldl_cons, ← Runner.runLines, read_eq]
      rw [commandsOf_cons] at he hb
      cases hp : input.reading with
      | refused e =>
          rw [hp] at he hb
          obtain ⟨notes, hlines⟩ := ih h he hb
          exact ⟨_, .cons (.refused hp) hlines⟩
      | unspawned command =>
          rw [hp] at he hb
          obtain ⟨notes, hlines⟩ := ih h.lose he hb
          exact ⟨_, .cons (.unspawned hp) hlines⟩
      | carried command =>
          rw [hp] at he hb
          obtain ⟨hfirst, hrest⟩ := Bool.and_eq_true_iff.mp hb
          obtain ⟨notes, hline, hstep, hdoes⟩ := h.exists_line he hl hp hfirst
          rw [← hdoes.contents_eq] at hrest
          obtain ⟨more, hlines⟩ := ih hstep (by rw [he, List.append_assoc]; rfl) hrest
          exact ⟨_, .cons hline hlines⟩

section Expected

variable {n : Nat} {table : Table} {commands : List Command}

theorem once_of_notesOf : ((returns (notesOf kind n table commands)).map Return.call ++
    (waitingOf kind n table commands).map Prod.fst).Perm (List.range' n commands.length) := by
  induction commands generalizing n table with
  | nil => exact .refl _
  | cons command later ih =>
      have hrest := @ih (n + 1) (command.operation.leaves table)
      rw [notesOf, waitingOf, returns_append, returns_append, returns_backgroundNote, returns_ended, List.nil_append,
        List.length_cons, List.range'_succ]
      cases ho : kind.eventually? (command.operation.leaves table) command.operation (operationsOf later) with
      | some outcome =>
          have hreturn : kind.finally? (command.operation.leaves table) (operationsOf later) (n, command.operation) =
              some ⟨n, outcome⟩ := congrArg (Option.map _) ho
          rw [List.filterMap_cons_some hreturn, List.filter_singleton, ho]
          exact hrest.cons n
      | none =>
          have hreturn : kind.finally? (command.operation.leaves table) (operationsOf later) (n, command.operation) =
              none := congrArg (Option.map _) ho
          rw [List.filterMap_cons_none hreturn, List.filter_singleton, ho]
          exact List.perm_middle.trans (hrest.cons n)

theorem background_of_mem_waitingOf (h : noneBlocks kind table commands = true) {w : Nat × Operation}
    (hw : w ∈ waitingOf kind n table commands) :
    ∃ i command, w.1 = n + i ∧ commands[i]? = some command ∧ command.background = true := by
  induction commands generalizing n table with
  | nil => cases hw
  | cons command later ih =>
      obtain ⟨hfirst, hrest⟩ := Bool.and_eq_true_iff.mp h
      rw [waitingOf, List.mem_append] at hw
      rcases hw with hw | hw
      · obtain ⟨hw, hnone⟩ := List.mem_filter.mp hw
        obtain rfl := List.mem_singleton.mp hw
        refine ⟨0, command, rfl, rfl, ?_⟩
        by_contra hforeground
        rw [Bool.not_eq_true] at hforeground
        -- In the foreground it need not wait.
        rw [hforeground, Bool.false_or, ← Kind.outcome?_leaves, Option.isSome_iff_exists] at hfirst
        obtain ⟨outcome, ho⟩ := hfirst
        rw [Kind.eventually?_of_some ho] at hnone
        cases hnone
      · obtain ⟨i, other, hi, hother, hbackground⟩ := ih hrest hw
        exact ⟨i + 1, other, by rw [hi, Nat.add_assoc, Nat.add_comm 1], hother, hbackground⟩

theorem mem_notesOf {i : Nat} {outcome : Outcome} (h : commands[i]? = some command)
    (ho : kind.outcome? (tableAfter table (commands.take i)) command.operation = some outcome) :
    Note.ended ⟨n + i, outcome⟩ ∈ notesOf kind n table commands := by
  induction commands generalizing n table i with
  | nil => cases h
  | cons first later ih =>
      rw [notesOf, List.mem_append, List.mem_append]
      cases i with
      | zero =>
          cases h
          change kind.outcome? table command.operation = some outcome at ho
          rw [← Kind.outcome?_leaves] at ho
          have hreturn := congrArg (Option.map (Return.mk n)) (Kind.eventually?_of_some ho (operationsOf later))
          exact .inr (.inl (List.mem_map_of_mem (List.mem_filterMap.mpr ⟨_, List.mem_singleton_self _, hreturn⟩)))
      | succ i =>
          have hrest := @ih (n + 1) (first.operation.leaves table) i h ho
          rw [Nat.add_assoc, Nat.add_comm 1] at hrest
          exact .inr (.inr hrest)

end Expected

/-- What a shell has told after these commands, and after those without a thread whose notes are `lost`, and what there
is in its store. -/
structure Told (kind : Kind) (prompt : String) (failing : Nat → Bool) (commands : List Command) (lost : List Note)
    (notes : List Note) (r : Runner Backend) : Prop where
  notes_perm : notes.Perm (notesOf kind 0 ∅ commands ++ lost)
  contents_eq : r.database.contents = tableAfter ∅ commands
  running_eq : r.running = waitingOf kind 0 ∅ commands
  asleep_eq : r.database.asleep = r.running.map Prod.fst
  /-- Each command has returned once, or still sleeps. -/
  once : ((returns notes).map Return.call ++ r.database.asleep).Perm (List.range commands.length)
  /-- Those which still sleep are in the background. -/
  background : ∀ i ∈ r.database.asleep, ∃ command, commands[i]? = some command ∧ command.background = true
  /-- Each note is written once, to one of the two outputs. -/
  one_output : ∀ note ∈ notes, (note.text? (operationsOf commands)).isSome = !note.complaint?.isSome
  attempts_eq : r.console.attempts = (notes.filterMap (Note.text? (operationsOf commands))).length
  out_eq : r.console.out =
    prompted prompt (delivered failing 0 (notes.filterMap (Note.text? (operationsOf commands))))
  err_eq : r.console.err = prompted prompt (notes.filterMap Note.complaint?)
  /-- A read of several keys shows each of them once, in ascending order, with its value or without. -/
  gathered : ∀ (i : Nat) (keys : KeySet), (operationsOf commands)[i]? = some (.multiGet keys) →
    keys.toList.Pairwise (· < ·) ∧ ∃ found, Note.ended ⟨i, .ok (.values found)⟩ ∈ notes ∧
      completedText (.multiGet keys) (.values found) =
        commandText (.multiGet keys) ++ " completed:" ++ String.join (keys.toList.map fun key =>
          "\n  " ++ key ++ ": " ++ Literal.render (tableAfter ∅ (commands.take i))[key]?)

theorem completedText_multiGet (keys : KeySet) (table : Table) :
    completedText (.multiGet keys) (.values (table.collect keys.toList)) =
      commandText (.multiGet keys) ++ " completed:" ++
        String.join (keys.toList.map fun key => "\n  " ++ key ++ ": " ++ Literal.render table[key]?) := by
  have hshown : (keys.toList.map fun key => s!"\n  {key}: {Literal.render (table.collect keys.toList)[key]?}") =
      keys.toList.map fun key => "\n  " ++ key ++ ": " ++ Literal.render table[key]? := by
    refine List.map_congr_left fun key hkey => ?_
    rw [Table.getElem?_collect, if_pos hkey]
    rfl
  rw [completedText, answerText, hshown]
  change commandText (.multiGet keys) ++ " completed" ++ (":" ++ _) =
    commandText (.multiGet keys) ++ (" completed" ++ ":") ++ _
  rw [← String.append_assoc, ← String.append_assoc]

theorem Carries.told {b : Backend} {commands : List Command} {prompt : String} {failing : Nat → Bool}
    (hcontents : b.contents = ∅) (hb : noneBlocks kind ∅ commands = true) (hlost : returns lost = [])
    (h : Carries kind (operationsOf commands) commands lost (.new b (.new prompt failing)) notes r) :
    Told kind prompt failing commands lost notes r := by
  have hnotes : notes.Perm (notesOf kind 0 ∅ commands ++ lost) := hcontents ▸ h.notes_perm
  have hrunning : r.running = waitingOf kind 0 ∅ commands := hcontents ▸ h.running_eq
  have hasleep : r.database.asleep = r.running.map Prod.fst := by
    rw [h.inStep.running_eq, Backend.numbers_calls]
  have hconsole := h.console_eq.trans (foldl_write _ _ _)
  have honce : ((returns notes).map Return.call ++ r.database.asleep).Perm (List.range commands.length) := by
    have hreturns := hnotes.filterMap Note.ended?
    rw [← returns, ← returns, returns_append, hlost, List.append_nil] at hreturns
    rw [hasleep, hrunning, List.range_eq_range']
    exact ((hreturns.map _).append_right _).trans once_of_notesOf
  refine ⟨hnotes, hcontents ▸ h.contents_eq, hrunning, hasleep, honce, ?_, ?_, ?_, ?_, ?_, ?_⟩
  · intro i hi
    rw [hasleep, hrunning] at hi
    obtain ⟨w, hw, rfl⟩ := List.mem_map.mp hi
    obtain ⟨i, command, hi, hcommand, hbackground⟩ := background_of_mem_waitingOf hb hw
    rw [hi, Nat.zero_add]
    exact ⟨command, hcommand, hbackground⟩
  · intro note hnote
    refine Note.isSome_text? fun ret hret => ?_
    have hcall : ret.call ∈ List.range commands.length :=
      honce.mem_iff.mp (List.mem_append_left _ (List.mem_map_of_mem (List.mem_filterMap.mpr ⟨note, hnote, hret⟩)))
    rw [operationsOf, List.length_map]
    exact List.mem_range.mp hcall
  · rw [hconsole]
    exact Nat.zero_add _
  · rw [hconsole]
    rfl
  · rw [hconsole]
    rfl
  · intro i keys hkeys
    rw [operationsOf, List.getElem?_map, Option.map_eq_some_iff] at hkeys
    obtain ⟨command, hcommand, hop⟩ := hkeys
    have houtcome : kind.outcome? (tableAfter ∅ (commands.take i)) command.operation =
        some (.ok (.values ((tableAfter ∅ (commands.take i)).collect keys.toList))) := by
      rw [hop]
      exact Kind.outcome?_of_onTable rfl rfl
    have hnote := mem_notesOf (n := 0) hcommand houtcome
    rw [Nat.zero_add] at hnote
    exact ⟨(Std.ExtTreeSet.ordered_toList (t := keys)).imp compareOfLessAndEq_eq_lt.mp, _,
      hnotes.mem_iff.mpr (List.mem_append_left _ hnote), completedText_multiGet keys _⟩

theorem inStep_new {b : Backend} (h : kind.build = .ok b) (console : Console) : InStep kind [] (.new b console) := by
  obtain ⟨hafter, -, hcalls⟩ := Backend.after_build h
  exact ⟨Backend.kind_build h, hafter, rfl, hcalls.symm, .refl _, nofun⟩

/-- A shell on a new store of any kind. Lines none of which blocks in the foreground can be read one after another, and
however they are, each command for which there is a thread is carried out once, is reported once when it has returned,
and once more when it goes to the background; of one without a thread only that is reported. What returns, what is
stored and who still sleeps is the same for every prompt and for every output, whichever writes fail. A line that is no
command does nothing. -/
theorem told_of_lines {kind : Kind} {b : Backend} {inputs : List Input} (hbuild : kind.build = .ok b)
    (hb : noneBlocks kind ∅ (commandsOf inputs) = true)
    (hl : kind = .multiCondition → NoneLapped (numbered (operationsOf (commandsOf inputs)))) :
    (∀ prompt failing, ∃ notes, Lines inputs (.new b (.new prompt failing)) notes
      (Runner.runLines inputs (.new b (.new prompt failing)))) ∧
    (∀ prompt failing notes r, Lines inputs (.new b (.new prompt failing)) notes r →
      Told kind prompt failing (commandsOf inputs) (unspawnedNotes inputs) notes r) ∧
    (∀ prompt prompt' failing failing' notes notes' r r', Lines inputs (.new b (.new prompt failing)) notes r →
      Lines inputs (.new b (.new prompt' failing')) notes' r' →
        notes.Perm notes' ∧ r.database.contents = r'.database.contents ∧ r.database.asleep = r'.database.asleep ∧
          r.running = r'.running) ∧
    (∀ line e spawns (r : Runner Backend), Command.parse line = .error e →
      r.read spawns line = (.error e, r) ∧ ∀ notes t, Line (line, spawns) r notes t → notes = [] ∧ t = r) ∧
    ∀ line command (r : Runner Backend), Command.parse line = .ok command → command.background = true →
      r.read false line = (.ok command, r.take .unspawned) ∧
        ∀ notes t, Line (line, false) r notes t → notes = [.unspawned] ∧ t = r.take .unspawned := by
  obtain ⟨-, hcontents, -⟩ := Backend.after_build hbuild
  have htold (prompt : String) (failing : Nat → Bool) (notes : List Note) (r : Runner Backend)
      (h : Lines inputs (.new b (.new prompt failing)) notes r) :
      Told kind prompt failing (commandsOf inputs) (unspawnedNotes inputs) notes r :=
    (h.carries (inStep_new hbuild _) (List.nil_append _).symm hl).told hcontents hb (returns_unspawnedNotes inputs)
  refine ⟨fun prompt failing => ?_, htold, ?_, ?_, ?_⟩
  · exact (inStep_new hbuild _).exists_lines (List.nil_append _).symm hl (by rw [← hcontents] at hb; exact hb)
  · intro prompt prompt' failing failing' notes notes' r r' h h'
    have ht := htold _ _ _ _ h
    have ht' := htold _ _ _ _ h'
    have hrunning := ht.running_eq.trans ht'.running_eq.symm
    refine ⟨ht.notes_perm.trans ht'.notes_perm.symm, ht.contents_eq.trans ht'.contents_eq.symm, ?_, hrunning⟩
    rw [ht.asleep_eq, ht'.asleep_eq, hrunning]
  · intro line e spawns r hp
    have hreading : Input.reading (line, spawns) = .refused e := by rw [Input.reading, hp]
    refine ⟨by rw [Runner.read, hp], fun notes t h => ?_⟩
    cases h with
    | refused => exact ⟨rfl, rfl⟩
    | unspawned hc | command hc => cases hreading.symm.trans hc
  · intro line command r hp hbackground
    have hreading : Input.reading (line, false) = .unspawned command := by
      rw [Input.reading, hp]
      exact if_pos (by rw [hbackground]; rfl)
    refine ⟨?_, fun notes t h => ?_⟩
    · rw [Runner.read, hp]
      exact congrArg (Prod.mk _) (if_pos (by rw [hbackground]; rfl))
    · cases h with
      | unspawned => exact ⟨rfl, rfl⟩
      | refused hc | command hc => cases hreading.symm.trans hc

/-- The second write to the output fails, and there is no thread for the second command. The write of the flag lets the
first command return, and the last waits on. -/
theorem told_of_lines_flag :
    let inputs : List Input := [("GETWHEN x flag [1] &", true), ("FLY away", true), ("PUT y [3] &", false),
      ("PUT x [5]", true), ("PUT flag [1]", false), ("MULTIGET y x", true), ("GETWHEN x flag [2] &", true)]
    let new : Runner Backend := .new (.multiCondition .empty) (.new "> " (· == 1))
    Kind.multiCondition.build = .ok (.multiCondition .empty) ∧
      noneBlocks .multiCondition ∅ (commandsOf inputs) = true ∧
      NoneLapped (numbered (operationsOf (commandsOf inputs))) ∧
      (new.runLines inputs).console.out = ["Request backgrounded\n> ", "PUT flag [1] completed\n> ",
        "GETWHEN x flag [1] completed: [5]\n> ", "MULTIGET x y completed:\n  x: [5]\n  y: null\n> ",
        "Request backgrounded\n> "] ∧
      (new.runLines inputs).console.err = ["connection error\n> "] ∧
      ∃ notes, Lines inputs new notes (new.runLines inputs) ∧
        (unspawnedNotes inputs).length = 1 ∧
        Told .multiCondition "> " (· == 1) (commandsOf inputs) (unspawnedNotes inputs) notes (new.runLines inputs) := by
  intro inputs new
  have hb : noneBlocks .multiCondition ∅ (commandsOf inputs) = true := by decide +kernel
  have hl : NoneLapped (numbered (operationsOf (commandsOf inputs))) := Store.noneLapped_of_lt (by decide +kernel)
  obtain ⟨hexists, htold, -⟩ := told_of_lines (b := .multiCondition .empty) rfl hb fun _ => hl
  obtain ⟨notes, hlines⟩ := hexists "> " (· == 1)
  exact ⟨rfl, hb, hl, by decide +kernel, by decide +kernel, notes, hlines, by decide +kernel, htold _ _ _ _ hlines⟩

section Lap

open Store (SingleLock Turn)

theorem database_foldl_take (notes : List Note) (r : Runner Backend) :
    (notes.foldl Runner.take r).database = r.database ∧ (notes.foldl Runner.take r).started = r.started := by
  induction notes generalizing r with
  | nil => exact ⟨rfl, rfl⟩
  | cons note notes ih =>
      obtain ⟨hdatabase, hstarted⟩ := ih (r.take note)
      rw [List.foldl_cons, hdatabase, hstarted]
      cases note with
      | backgrounded | unspawned => exact ⟨rfl, rfl⟩
      | ended ret =>
          simp only [Runner.take, Runner.complete]
          split <;> exact ⟨rfl, rfl⟩

def Sends (inputs : List Input) (ops : List Operation) : Prop :=
  List.Forall₂ (fun input op => input.reading = .carried ⟨op, true⟩) inputs ops

theorem commandsOf_of_sends {ops : List Operation} (h : Sends inputs ops) :
    commandsOf inputs = ops.map fun op => ⟨op, true⟩ := by
  induction h with
  | nil => rfl
  | cons hreading _ ih => rw [commandsOf_cons, hreading, ih]; rfl

theorem noneBlocks_of_background {table : Table} (ops : List Operation) :
    noneBlocks kind table (ops.map fun op => ⟨op, true⟩) = true := by
  induction ops generalizing table with
  | nil => rfl
  | cons op ops ih => exact ih

/-- What a store can show in its turns can become of such lines. -/
theorem exists_lines_of_turns {turns : List Turn} {s t : SingleLock Store.PerKeyConditions} {seen : List Store.Observation}
    (hsends : Sends inputs (turns.map Turn.operation)) (hcalls : turns.map Turn.call = List.range' r.started turns.length)
    (hr : r.database = .multiCondition s) (hrun : runSteps SingleLock.turn s turns = some (t, seen)) :
    ∃ notes u, Lines inputs r notes u ∧ u.database = .multiCondition t := by
  induction turns generalizing inputs r s seen with
  | nil =>
      cases hsends
      cases hrun
      exact ⟨[], r, .nil, hr⟩
  | cons a turns ih =>
      obtain ⟨call, op, order, wakes⟩ := a
      obtain _ | ⟨hreading, hsends⟩ := hsends
      obtain ⟨u, first, more, hturn, hrest, -⟩ := runSteps_cons.mp hrun
      obtain ⟨hcall, hlater⟩ := List.cons_eq_cons.mp hcalls
      replace hcall : call = r.started := hcall
      subst hcall
      obtain ⟨_, own, woken, -, -, -, rfl⟩ := SingleLock.turn_eq_some hturn
      have hserved : Backend.Served ⟨r.started, op, order, wakes⟩ r.database (own ++ SingleLock.returned woken)
          (.multiCondition u) := by
        rw [hr]
        exact .locked (.multiCondition hturn)
      have hline := Line.command hreading hserved nofun (.refl _)
      obtain ⟨hdatabase, hstarted⟩ := database_foldl_take
        (backgroundNote r.started ⟨op, true⟩ ++ (own ++ SingleLock.returned woken).map Note.ended)
        ⟨.multiCondition u, r.started + 1, r.running ++ [(r.started, op)], r.console⟩
      obtain ⟨notes, v, hlines, hv⟩ := ih hsends (hlater.trans (hstarted ▸ rfl)) hdatabase hrest
      exact ⟨_, v, .cons hline hlines, hv⟩

theorem sends_replicate {op : Operation} (n : Nat) (h : input.reading = .carried ⟨op, true⟩) :
    Sends (List.replicate n input) (List.replicate n op) := by
  induction n with
  | zero => exact .nil
  | succ n ih => exact .cons h ih

/-- Two commands of which the later gets the id that the earlier still has. -/
def lapInputs : List Input :=
  [("PUT b [1] &", true), ("GETWHEN x a [1] &", true)] ++
    (List.replicate SingleLock.lap ("GETWHEN x b [1] &", true) ++
      [("GETWHEN x a [2] &", true), ("PUT a [1] &", true), ("PUT a [2] &", true)])

theorem sends_lapInputs : Sends lapInputs (SingleLock.lapRequests.map Prod.snd) := by
  have hlap : (List.range' 2 SingleLock.lap).map (fun _ => Operation.getWhen ⟨"x", "b", [1]⟩) =
      List.replicate SingleLock.lap (.getWhen ⟨"x", "b", [1]⟩) := by
    rw [List.map_const', List.length_range']
  rw [SingleLock.lapRequests, List.map_append, List.map_append, List.map_map]
  refine List.rel_append (.cons (by decide +kernel) (.cons (by decide +kernel) .nil)) (List.rel_append ?_ ?_)
  · exact hlap ▸ sends_replicate _ (by decide +kernel)
  · exact .cons (by decide +kernel) (.cons (by decide +kernel) (.cons (by decide +kernel) .nil))

/-- A command for which there is no thread is not carried out. Where each awaited key has its own condition, who still
sleeps after a lap of ids is not determined by the lines. -/
theorem told_apart :
    (∃ command notes r, Command.parse "PUT a [1] &" = .ok command ∧
      Lines [("PUT a [1] &", false)] (.new (.multiCondition .empty) (.new "> " fun _ => false)) notes r ∧
      command.operation.leaves ∅ ≠ r.database.contents ∧ r.console.out = [] ∧
      r.console.err = ["connection error\n> "]) ∧
    ¬∀ (kind : Kind) (b : Backend) (inputs : List Input), kind.build = .ok b →
      noneBlocks kind ∅ (commandsOf inputs) = true →
        ∀ prompt failing notes notes' r r', Lines inputs (.new b (.new prompt failing)) notes r →
          Lines inputs (.new b (.new prompt failing)) notes' r' → r.database.asleep = r'.database.asleep := by
  constructor
  · have hreading : Input.reading ("PUT a [1] &", false) = .unspawned ⟨.put "a" [1], true⟩ := by decide +kernel
    exact ⟨⟨.put "a" [1], true⟩, _, _, by decide +kernel, .cons (.unspawned hreading) .nil, by decide +kernel, rfl,
      by decide +kernel⟩
  · intro h
    obtain ⟨turns, turns', s, s', seen, seen', hturns, hr, -, hs, hturns', hr', hs'⟩ := SingleLock.exists_lap_perKey
    have hb : noneBlocks .multiCondition ∅ (commandsOf lapInputs) = true := by
      rw [commandsOf_of_sends sends_lapInputs]
      exact noneBlocks_of_background _
    have hlines {turns : List Turn} {s : SingleLock Store.PerKeyConditions} {seen : List Store.Observation}
        (hturns : turns.map Turn.request = SingleLock.lapRequests)
        (hr : runSteps SingleLock.turn .empty turns = some (s, seen)) :
        ∃ notes u, Lines lapInputs (.new (.multiCondition .empty) (.new "> " fun _ => false)) notes u ∧
          u.database = .multiCondition s := by
      refine exists_lines_of_turns ?_ ?_ rfl hr
      · have hoperations : turns.map Turn.operation = (turns.map Turn.request).map Prod.snd := by
          rw [List.map_map]
          rfl
        rw [hoperations, hturns]
        exact sends_lapInputs
      · have hnumbers : turns.map Turn.call = List.range (SingleLock.lap + 5) := by
          rw [← SingleLock.numbers_lapRequests, ← hturns, List.map_map]
          rfl
        have hlength := congrArg List.length hnumbers
        rw [List.length_map, List.length_range] at hlength
        rw [hnumbers, hlength, List.range_eq_range']
        rfl
    obtain ⟨notes, r, hl, hd⟩ := hlines hturns hr
    obtain ⟨notes', r', hl', hd'⟩ := hlines hturns' hr'
    have hsame := h .multiCondition _ lapInputs rfl hb _ _ _ _ _ _ hl hl'
    rw [hd, hd'] at hsame
    change s.sleeping = s'.sleeping at hsame
    rw [hs, hs'] at hsame
    cases hsame

end Lap

end AwaitStore.Shell
