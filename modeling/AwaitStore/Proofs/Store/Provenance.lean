import AwaitStore.Proofs.Calls
import AwaitStore.Proofs.Store.Run
import AwaitStore.Proofs.Store.Shards
import AwaitStore.Store.Backend

namespace AwaitStore

variable {P : Key → Value → Prop}

namespace Table

def Only (P : Key → Value → Prop) (table : Table) : Prop := ∀ key value, table[key]? = some value → P key value

theorem only_empty : Only P ∅ := by
  intro key value h
  rw [Std.ExtTreeMap.getElem?_empty] at h
  cases h

theorem Only.putAll {table : Table} (h : table.Only P) {entries : List (Key × Value)}
    (he : ∀ e ∈ entries, P e.1 e.2) : (table.putAll entries).Only P := by
  intro key value hlook
  rw [getElem?_putAll, Option.or_eq_some_iff] at hlook
  obtain hentry | ⟨-, htable⟩ := hlook
  · obtain ⟨before, after, hsplit, -⟩ := List.lookup_eq_some_iff.mp hentry
    refine he (key, value) (List.mem_reverse.mp ?_)
    rw [hsplit]
    exact List.mem_append_right _ List.mem_cons_self
  · exact h key value htable

end Table

def Operation.Puts (P : Key → Value → Prop) (op : Operation) : Prop :=
  ∀ entries, op.writes = some entries → ∀ e ∈ entries, P e.1 e.2

/-- A return that a call may bring about, its own or that of one who has waited. -/
inductive Operation.Brings (P : Key → Value → Prop) (call : Nat) (op : Operation) : Return → Prop where
  | stored : Brings P call op ⟨call, .ok .stored⟩
  | value {n : Nat} {value : Option Value} (held : ∀ v ∈ value, ∃ key, P key v) : Brings P call op ⟨n, .ok (.value value)⟩
  | values {keys : KeySet} {pairs : Table} (asked : op = .multiGet keys)
      (held : ∀ key value, pairs[key]? = some value → key ∈ keys ∧ P key value) :
      Brings P call op ⟨call, .ok (.values pairs)⟩
  | unsupported (shards : Nat) :
      Brings P call op ⟨call, .error (.unsupported (Store.Kind.sharded shards).name "get_when")⟩

namespace Operation

variable {call : Nat} {op : Operation}

theorem brings_look {table : Table} (h : table.Only P) (n : Nat) (key : Key) :
    Brings P call op ⟨n, .ok (.value table[key]?)⟩ :=
  .value fun v hv => ⟨key, h key v hv⟩

theorem brings_collect {table : Table} (h : table.Only P) (keys : KeySet) :
    Brings P call (.multiGet keys) ⟨call, .ok (.values (table.collect keys.toList))⟩ := by
  refine .values rfl fun key value hlook => ?_
  rw [Table.getElem?_collect] at hlook
  split at hlook
  next hkey => exact ⟨Std.ExtTreeSet.mem_toList.mp hkey, h key value hlook⟩
  next => cases hlook

end Operation

namespace Store

open Operation

namespace SingleLock

variable {σ : Type} [Triggers σ] {s t : SingleLock σ} {call : Nat} {op : Operation}

theorem wake_values {n : Nat} {r : Option Woken} (h : s.wake n = some (t, r)) :
    t.contents = s.contents ∧ ∀ w ∈ r, ∃ key : Key, w.value = s.contents[key]? := by
  simp only [wake] at h
  split at h
  · cases h
  next w hw =>
    split at h
    · cases h
      refine ⟨rfl, fun r hr => ⟨w.wish.key, ?_⟩⟩
      rw [← Option.mem_some.mp hr]
    · cases h
      exact ⟨rfl, fun r hr => absurd hr (Option.not_mem_none r)⟩

theorem wakeAll_values (calls : List Nat) (s : SingleLock σ) :
    (s.wakeAll calls).1.contents = s.contents ∧ ∀ w ∈ (s.wakeAll calls).2, ∃ key : Key, w.value = s.contents[key]? := by
  induction calls generalizing s with
  | nil => exact ⟨rfl, nofun⟩
  | cons n calls ih =>
      simp only [wakeAll]
      split
      · exact ih s
      next t r hw =>
        obtain ⟨hcontents, hr⟩ := wake_values hw
        obtain ⟨hrest, hmore⟩ := ih t
        rw [hcontents] at hrest hmore
        refine ⟨hrest, fun w hw => ?_⟩
        obtain hw | hw := List.mem_append.mp hw
        · exact hr w (Option.mem_toList.mp hw)
        · exact hmore w hw

theorem brings_applied (h : s.contents.Only P) {entries : List (Key × Value)} (he : ∀ e ∈ entries, P e.1 e.2) :
    (perform.applied call s entries).1.contents.Only P ∧
      ∀ r ∈ (perform.applied call s entries).2, Brings P call op r := by
  simp only [perform.applied]
  cases hw : s.write entries with
  | none => exact ⟨h, nofun⟩
  | some u =>
      have hu : u.contents = s.contents.putAll entries := by rw [(write_eq_some hw).2]
      obtain ⟨hcontents, hwoken⟩ := wakeAll_values ((u.asleep.filter Sleeper.notified).map Sleeper.call) u
      rw [hu] at hcontents hwoken
      have hputs := h.putAll he
      refine ⟨?_, List.forall_mem_cons.mpr ⟨.stored, fun r hr => ?_⟩⟩
      · change (u.wakeAll _).1.contents.Only P
        rw [hcontents]
        exact hputs
      · obtain ⟨w, hw, rfl⟩ := List.mem_map.mp hr
        obtain ⟨key, hkey⟩ := hwoken w hw
        rw [hkey]
        exact brings_look hputs w.call key

theorem brings_perform (h : s.contents.Only P) (hop : op.Puts P) :
    (s.perform call op).1.contents.Only P ∧ ∀ r ∈ (s.perform call op).2, Brings P call op r := by
  cases op with
  | put key value => exact brings_applied h (hop _ rfl)
  | multiPut pairs => exact brings_applied h (hop _ rfl)
  | get key => exact ⟨h, List.forall_mem_singleton.mpr (brings_look h call key)⟩
  | multiGet keys => exact ⟨h, List.forall_mem_singleton.mpr (brings_collect h keys)⟩
  | getWhen wish =>
      simp only [perform, start_eq]
      split
      · exact ⟨h, List.forall_mem_singleton.mpr (brings_look h call wish.key)⟩
      · exact ⟨h, nofun⟩

end SingleLock

namespace Sharded

variable {n : Nat} {hash : Key → UInt64} {s : Sharded n} {table : Table} {call : Nat} {op : Operation}

theorem brings_perform (hs : s.Holds hash table) (h : table.Only P) (hop : op.Puts P) :
    (∃ after, (s.perform hash call op).1.Holds hash after ∧ after.Only P) ∧
      ∀ r ∈ (s.perform hash call op).2, Brings P call op r := by
  cases op with
  | put key value =>
      exact ⟨⟨_, hs.put key value, h.putAll (hop _ rfl)⟩, List.forall_mem_singleton.mpr .stored⟩
  | multiPut pairs =>
      exact ⟨⟨_, hs.multiPut pairs.toList, h.putAll (hop _ rfl)⟩, List.forall_mem_singleton.mpr .stored⟩
  | get key =>
      refine ⟨⟨table, hs, h⟩, List.forall_mem_singleton.mpr ?_⟩
      rw [hs.get]
      exact brings_look h call key
  | multiGet keys =>
      refine ⟨⟨table, hs, h⟩, List.forall_mem_singleton.mpr ?_⟩
      rw [hs.multiGet]
      exact brings_collect h keys
  | getWhen wish => exact ⟨⟨table, hs, h⟩, List.forall_mem_singleton.mpr (.unsupported n)⟩

end Sharded

namespace Backend

def Keeps (P : Key → Value → Prop) : Backend → Prop
  | simple s => s.contents.Only P
  | multiCondition s => s.contents.Only P
  | sharded _ s => ∃ table, s.Holds SipHash.ofKey table ∧ table.Only P

theorem keeps_build {kind : Kind} {b : Backend} (h : kind.build = .ok b) : b.Keeps P := by
  unfold Kind.build at h
  split at h
  · cases h
    exact Table.only_empty
  · cases h
    exact Table.only_empty
  · cases h
  · split at h
    · cases h
    · cases h
      exact ⟨∅, Sharded.holds_empty _, Table.only_empty⟩

theorem brings_perform {b : Backend} {call : Nat} {op : Operation} (h : b.Keeps P) (hop : op.Puts P) :
    (b.perform call op).1.Keeps P ∧ ∀ r ∈ (b.perform call op).2, Brings P call op r := by
  cases b with
  | simple s => exact SingleLock.brings_perform h hop
  | multiCondition s => exact SingleLock.brings_perform h hop
  | sharded n s =>
      obtain ⟨table, hs, htable⟩ := h
      exact Sharded.brings_perform hs htable hop

theorem brings_consult {b : Backend} (h : b.Keeps P) {asks : List (Nat × Operation)}
    (hasks : ∀ ask ∈ asks, ask.2.Puts P) :
    (Database.consult b asks).1.Keeps P ∧
      ∀ r ∈ (Database.consult b asks).2, ∃ ask ∈ asks, Brings P ask.1 ask.2 r := by
  induction asks using List.reverseRecOn with
  | nil => exact ⟨h, nofun⟩
  | append_singleton front last ih =>
      obtain ⟨call, op⟩ := last
      obtain ⟨hfront, hlast⟩ := List.forall_mem_append.mp hasks
      obtain ⟨hkeeps, hreturns⟩ := ih hfront
      obtain ⟨hafter, hmore⟩ := brings_perform hkeeps (hlast _ List.mem_cons_self)
      rw [Database.consult_snoc]
      refine ⟨hafter, fun r hr => ?_⟩
      obtain hr | hr := List.mem_append.mp hr
      · obtain ⟨ask, hask, hbrings⟩ := hreturns r hr
        exact ⟨ask, List.mem_append_left _ hask, hbrings⟩
      · exact ⟨(call, op), List.mem_append_right _ List.mem_cons_self, hmore r hr⟩

end Backend

end Store

end AwaitStore
