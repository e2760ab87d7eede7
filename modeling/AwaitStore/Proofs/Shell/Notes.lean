import AwaitStore.Shell.Runner
import Mathlib.Data.List.Basic

namespace AwaitStore.Shell

/-- That a call has gone to the background, or has returned, or that there was no thread for a command. -/
inductive Note where
  | backgrounded (call : Nat)
  | ended (ret : Return)
  | unspawned

namespace Note

def ended? : Note → Option Return
  | backgrounded _ | unspawned => none
  | ended ret => some ret

def text? (ops : List Operation) : Note → Option String
  | backgrounded _ => some backgroundedText
  | ended ⟨call, .ok answer⟩ => ops[call]?.map fun op => completedText op answer
  | ended ⟨_, .error _⟩ | unspawned => none

def complaint? : Note → Option String
  | backgrounded _ | ended ⟨_, .ok _⟩ => none
  | ended ⟨_, .error e⟩ => some e.message
  | unspawned => some StoreError.connectionFailed.message

def write (ops : List Operation) (c : Console) (note : Note) : Console :=
  match note.text? ops, note.complaint? with
  | some line, _ => c.write line
  | none, some line => c.writeError line
  | none, none => c

theorem write_ended {ops : List Operation} {ret : Return} {op : Operation} (h : ops[ret.call]? = some op) (c : Console) :
    write ops c (ended ret) = c.report op ret.outcome := by
  obtain ⟨call, e | answer⟩ := ret
  · simp [write, text?, complaint?, Console.report]
  · simp [write, text?, complaint?, Console.report, h]

theorem complaint?_of_text? {ops : List Operation} {note : Note} {line : String} (h : note.text? ops = some line) :
    note.complaint? = none := by
  cases note with
  | backgrounded call => rfl
  | unspawned => cases h
  | ended ret =>
      obtain ⟨call, e | answer⟩ := ret
      · cases h
      · rfl

theorem isSome_text? {ops : List Operation} {note : Note} (h : ∀ ret, note.ended? = some ret → ret.call < ops.length) :
    (note.text? ops).isSome = !note.complaint?.isSome := by
  cases note with
  | backgrounded call | unspawned => rfl
  | ended ret =>
      have hcall := h ret rfl
      obtain ⟨call, e | answer⟩ := ret
      · rfl
      · simpa [text?, complaint?] using hcall

end Note

def returns (notes : List Note) : List Return := notes.filterMap Note.ended?

def prompted (prompt : String) (lines : List String) : List String := lines.map fun line => s!"{line}\n{prompt}"

def delivered (failing : Nat → Bool) (n : Nat) (lines : List String) : List String :=
  ((lines.zipIdx n).filter fun line => !failing line.2).map Prod.fst

theorem delivered_cons (failing : Nat → Bool) (n : Nat) (line : String) (lines : List String) :
    delivered failing n (line :: lines) =
      (if failing n then [] else [line]) ++ delivered failing (n + 1) lines := by
  rw [delivered, List.zipIdx_cons, List.filter_cons]
  cases failing n <;> rfl

/-- Each note makes one write, and a write to the output that fails leaves nothing behind. -/
theorem foldl_write (ops : List Operation) (notes : List Note) (c : Console) :
    notes.foldl (Note.write ops) c =
      { c with
        attempts := c.attempts + (notes.filterMap (Note.text? ops)).length
        out := c.out ++ prompted c.prompt (delivered c.failing c.attempts (notes.filterMap (Note.text? ops)))
        err := c.err ++ prompted c.prompt (notes.filterMap Note.complaint?) } := by
  induction notes generalizing c with
  | nil => simp [prompted, delivered]
  | cons note notes ih =>
      rw [List.foldl_cons, ih, Note.write]
      cases ht : note.text? ops with
      | some line =>
          rw [List.filterMap_cons_some ht, List.filterMap_cons_none (Note.complaint?_of_text? ht), delivered_cons]
          simp only [Console.write]
          split <;> simp [prompted, Nat.add_assoc, Nat.add_comm 1, *]
      | none =>
          rw [List.filterMap_cons_none ht]
          cases hc : note.complaint? with
          | some line => simp [List.filterMap_cons_some hc, Console.writeError, prompted]
          | none => simp [List.filterMap_cons_none hc]

section Runner

variable {σ : Type}

def Runner.take (r : Runner σ) : Note → Runner σ
  | .backgrounded _ => { r with console := r.console.write backgroundedText }
  | .ended ret => r.complete ret
  | .unspawned => { r with console := r.console.writeError StoreError.connectionFailed.message }

theorem exists_lookup {calls : List (Nat × Operation)} {call : Nat} (h : call ∈ calls.map Prod.fst) :
    ∃ op, calls.lookup call = some op ∧ (call, op) ∈ calls := by
  cases hl : calls.lookup call with
  | some op =>
      obtain ⟨front, back, rfl, -⟩ := List.lookup_eq_some_iff.mp hl
      exact ⟨op, rfl, List.mem_append_right _ List.mem_cons_self⟩
  | none =>
      obtain ⟨w, hw, rfl⟩ := List.mem_map.mp h
      simpa using List.lookup_eq_none_iff.mp hl w hw

theorem Runner.foldl_take {ops : List Operation} {notes : List Note} {r : Runner σ}
    (hn : ((returns notes).map Return.call).Nodup)
    (hmem : ∀ ret ∈ returns notes, ret.call ∈ r.running.map Prod.fst)
    (hops : ∀ w ∈ r.running, ops[w.1]? = some w.2) :
    notes.foldl Runner.take r =
      { r with
        running := r.running.filter fun w => !((returns notes).map Return.call).contains w.1
        console := notes.foldl (Note.write ops) r.console } := by
  induction notes generalizing r with
  | nil => simp [returns]
  | cons note notes ih =>
      cases note with
      | backgrounded call | unspawned => exact ih hn hmem hops
      | ended ret =>
          obtain ⟨hfirst, hn⟩ := List.nodup_cons.mp hn
          obtain ⟨hret, hmem⟩ := List.forall_mem_cons.mp hmem
          obtain ⟨op, hlook, hop⟩ := exists_lookup hret
          have hcomplete : r.complete ret =
              { r with
                running := r.running.filter fun c => c.1 != ret.call
                console := r.console.report op ret.outcome } := by
            rw [Runner.complete, hlook]
          have hlater : ∀ other ∈ returns notes,
              other.call ∈ (r.running.filter fun c => c.1 != ret.call).map Prod.fst := by
            intro other ho
            obtain ⟨w, hw, hcall⟩ := List.mem_map.mp (hmem other ho)
            have hne : w.1 ≠ ret.call := fun he => hfirst (List.mem_map.mpr ⟨other, ho, hcall ▸ he⟩)
            exact List.mem_map.mpr ⟨w, List.mem_filter.mpr ⟨hw, by simpa using hne⟩, hcall⟩
          rw [List.foldl_cons, Runner.take, hcomplete, ih hn hlater fun w hw => hops w (List.mem_filter.mp hw).1,
            List.filter_filter, List.foldl_cons, Note.write_ended (hops _ hop)]
          refine congrArg (fun running => Runner.mk _ _ running _) (List.filter_congr fun w _ => ?_)
          change (_ && !(w.1 == ret.call)) = !(ret.call :: (returns notes).map Return.call).contains w.1
          rw [List.contains_cons, Bool.not_or, Bool.and_comm]

end Runner

end AwaitStore.Shell
