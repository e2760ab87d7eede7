import AwaitStore.Bench.Blocks
import Mathlib

namespace AwaitStore.Bench

def Block.places (b : Block) : List Nat := List.range' b.first b.size

theorem Block.length_flatMap_places (blocks : List Block) :
    (blocks.flatMap Block.places).length = (blocks.map Block.size).sum := by
  rw [List.length_flatMap]
  exact congrArg List.sum (List.map_congr_left fun b _ => List.length_range')

def blockCount (blockSize operations : Nat) : Nat := (operations + blockSize - 1) / blockSize

def countAt (blockSize claims : Nat) : Nat := claims * blockSize % UInt64.size

/-- When all blocks are taken, each worker still adds one. With none of these claims does the counter show an operation
that it has shown before. -/
def StaysPast (blockSize operations workers : Nat) : Prop :=
  ∀ k < workers, operations ≤ countAt blockSize (blockCount blockSize operations + k)

section Blocks

variable {blockSize operations k : Nat}

theorem lt_blockCount_iff (hb : 0 < blockSize) : k < blockCount blockSize operations ↔ k * blockSize < operations := by
  rw [blockCount, Nat.lt_div_iff_mul_lt hb]
  omega

def blockAt (blockSize operations k : Nat) : Option Block :=
  Block.at? blockSize operations (UInt64.ofNat (k * blockSize))

theorem blockAt_eq_none_iff : blockAt blockSize operations k = none ↔ operations ≤ countAt blockSize k := by
  simp only [blockAt, Block.at?, UInt64.toNat_ofNat', countAt, UInt64.size]
  split
  next hlt => simpa using hlt
  next hle => simpa using hle

theorem blockAt_of_lt (hb : 0 < blockSize) (ho : operations < UInt64.size)
    (hk : k < blockCount blockSize operations) :
    blockAt blockSize operations k = some ⟨k * blockSize, min blockSize (operations - k * blockSize)⟩ := by
  have hlt := (lt_blockCount_iff hb).mp hk
  have hword : (UInt64.ofNat (k * blockSize)).toNat = k * blockSize := by
    rw [UInt64.toNat_ofNat']
    exact Nat.mod_eq_of_lt (Nat.lt_trans hlt ho)
  simp only [blockAt, Block.at?, hword, if_pos hlt]

theorem size_pos_of_blockAt (hb : 0 < blockSize) {b : Block} (h : blockAt blockSize operations k = some b) :
    0 < b.size := by
  simp only [blockAt, Block.at?] at h
  split at h
  · cases h
    simp only
    omega
  · cases h

theorem places_blocks (hb : 0 < blockSize) (ho : operations < UInt64.size)
    (hk : k ≤ blockCount blockSize operations) :
    ((List.range k).filterMap (blockAt blockSize operations)).flatMap Block.places =
      List.range (min (k * blockSize) operations) := by
  induction k with
  | zero => simp
  | succ k ih =>
      have hlt := (lt_blockCount_iff hb).mp hk
      have hend : k * blockSize + min blockSize (operations - k * blockSize) =
          min ((k + 1) * blockSize) operations := by
        rw [Nat.succ_mul]
        omega
      rw [List.range_succ, List.filterMap_append, List.flatMap_append, ih (Nat.le_of_lt hk),
        Nat.min_eq_left (Nat.le_of_lt hlt)]
      simp only [List.filterMap_cons, List.filterMap_nil, blockAt_of_lt hb ho hk, List.flatMap_singleton,
        Block.places]
      rw [List.range_eq_range', ← hend, List.range_eq_range', ← List.range'_append_1, Nat.zero_add]

theorem le_blockCount_mul (hb : 0 < blockSize) : operations ≤ blockCount blockSize operations * blockSize :=
  Nat.le_of_not_lt fun hlt => Nat.lt_irrefl _ ((lt_blockCount_iff hb).mpr hlt)

/-- With room in a word for one more block from each worker, the counter does not wrap. -/
theorem staysPast_of_le {workers : Nat} (hb : 0 < blockSize) (h : operations + workers * blockSize ≤ UInt64.size) :
    StaysPast blockSize operations workers := by
  intro k hk
  have hcount : blockCount blockSize operations * blockSize ≤ operations + (blockSize - 1) := by
    rw [blockCount, Nat.add_sub_assoc hb]
    exact Nat.div_mul_le_self _ _
  have hmore : (k + 1) * blockSize ≤ workers * blockSize := Nat.mul_le_mul_right _ hk
  have hlt : (blockCount blockSize operations + k) * blockSize < UInt64.size := by
    rw [Nat.succ_mul] at hmore
    rw [Nat.add_mul]
    omega
  rw [countAt, Nat.mod_eq_of_lt hlt]
  exact Nat.le_trans (le_blockCount_mul hb) (Nat.mul_le_mul_right _ (Nat.le_add_right _ _))

theorem blockAt_eq_none {workers : Nat} (hs : StaysPast blockSize operations workers) (hk : k < workers) :
    blockAt blockSize operations (blockCount blockSize operations + k) = none :=
  blockAt_eq_none_iff.mpr (hs k hk)

theorem places_all (hb : 0 < blockSize) (ho : operations < UInt64.size) :
    ((List.range (blockCount blockSize operations)).filterMap (blockAt blockSize operations)).flatMap Block.places =
      List.range operations := by
  rw [places_blocks hb ho (Nat.le_refl _), Nat.min_eq_right (le_blockCount_mul hb)]

end Blocks

namespace Claims

variable {blockSize operations workers : Nat} {c d : Claims}

def run (blockSize operations : Nat) (c : Claims) (claimed : List Nat) : Option Claims :=
  claimed.foldlM (fun c worker => c.claim blockSize operations worker) c

theorem run_snoc {claimed : List Nat} {worker : Nat} :
    run blockSize operations c (claimed ++ [worker]) = some d ↔
      ∃ e, run blockSize operations c claimed = some e ∧ e.claim blockSize operations worker = some d := by
  simp [run, List.foldlM_append, Option.bind_eq_some_iff]

theorem claim_cases {worker : Nat} (h : c.claim blockSize operations worker = some d) :
    worker ∈ c.running ∧
      ((∃ block, Block.at? blockSize operations c.issued = some block ∧
          d = ⟨c.issued + blockSize.toUInt64, c.running, block :: c.taken⟩) ∨
        Block.at? blockSize operations c.issued = none ∧
          d = ⟨c.issued + blockSize.toUInt64, c.running.erase worker, c.taken⟩) := by
  simp only [claim] at h
  split at h
  next hmem =>
    refine ⟨hmem, ?_⟩
    split at h
    next block hat =>
      cases h
      exact .inl ⟨block, hat, rfl⟩
    next hat =>
      cases h
      exact .inr ⟨hat, rfl⟩
  · cases h

theorem exists_claim {worker : Nat} (h : worker ∈ c.running) : ∃ d, c.claim blockSize operations worker = some d := by
  simp only [claim, if_pos h]
  split <;> exact ⟨_, rfl⟩

structure After (blockSize operations workers claims : Nat) (c : Claims) : Prop where
  issued : c.issued = UInt64.ofNat (claims * blockSize)
  taken : c.taken.reverse = (List.range claims).filterMap (blockAt blockSize operations)
  stopped : c.running.length + (List.range claims).countP (fun k => (blockAt blockSize operations k).isNone) = workers
  nodup : c.running.Nodup

theorem after_start : After blockSize operations workers 0 (start workers) := by
  refine ⟨?_, rfl, ?_, List.nodup_range⟩
  · rw [Nat.zero_mul]
    rfl
  · simp [start]

theorem After.claim {claims : Nat} (h : After blockSize operations workers claims c) {worker : Nat}
    (hc : c.claim blockSize operations worker = some d) : After blockSize operations workers (claims + 1) d := by
  have hissued : c.issued + blockSize.toUInt64 = UInt64.ofNat ((claims + 1) * blockSize) := by
    rw [h.issued, Nat.succ_mul, UInt64.ofNat_add]
  obtain ⟨hmem, ⟨block, hat, rfl⟩ | ⟨hat, rfl⟩⟩ := claim_cases hc
  · have hblock : blockAt blockSize operations claims = some block := by rw [blockAt, ← h.issued, hat]
    refine ⟨hissued, ?_, ?_, h.nodup⟩
    · rw [List.reverse_cons, h.taken, List.range_succ, List.filterMap_append]
      simp [hblock]
    · rw [List.range_succ, List.countP_append]
      simpa [hblock] using h.stopped
  · have hblock : blockAt blockSize operations claims = none := by rw [blockAt, ← h.issued, hat]
    refine ⟨hissued, ?_, ?_, h.nodup.erase worker⟩
    · rw [h.taken, List.range_succ, List.filterMap_append]
      simp [hblock]
    · have hpos := List.length_pos_of_mem hmem
      have hstopped := h.stopped
      rw [List.range_succ, List.countP_append, List.length_erase_of_mem hmem]
      simp only [List.countP_singleton, hblock, Option.isNone_none, if_true]
      omega

theorem after_run {claimed : List Nat} (h : run blockSize operations (start workers) claimed = some c) :
    After blockSize operations workers claimed.length c := by
  induction claimed using List.reverseRecOn generalizing c with
  | nil =>
      cases h
      exact after_start
  | append_singleton claimed worker ih =>
      obtain ⟨d, hd, hc⟩ := run_snoc.mp h
      rw [List.length_append]
      exact (ih hd).claim hc

/-- How the claims share the operations out if the counter stays past them. -/
structure Shared (blockSize operations workers : Nat) (claimed : List Nat) (c : Claims) : Prop where
  bounded : claimed.length ≤ blockCount blockSize operations + workers
  in_turn : c.taken.reverse.flatMap Block.places = List.range (min (claimed.length * blockSize) operations)
  apart : c.taken.Pairwise fun a b => a.places.Disjoint b.places
  goes_on : ∀ worker ∈ c.running, ∃ d, c.claim blockSize operations worker = some d
  stopped_iff : c.running = [] ↔ claimed.length = blockCount blockSize operations + workers
  covers : c.running = [] → (c.taken.flatMap Block.places).Perm (List.range operations)

section Shared

variable {claims : Nat}

theorem stops_eq_zero (hb : 0 < blockSize) (ho : operations < UInt64.size)
    (hk : claims ≤ blockCount blockSize operations) :
    (List.range claims).countP (fun k => (blockAt blockSize operations k).isNone) = 0 := by
  refine List.countP_eq_zero.mpr fun k hmem => ?_
  rw [blockAt_of_lt hb ho (Nat.lt_of_lt_of_le (List.mem_range.mp hmem) hk)]
  simp

theorem stops_eq (hb : 0 < blockSize) (ho : operations < UInt64.size)
    (hs : StaysPast blockSize operations workers) {k : Nat} (hk : k ≤ workers) :
    (List.range (blockCount blockSize operations + k)).countP
      (fun k => (blockAt blockSize operations k).isNone) = k := by
  rw [List.range_add, List.countP_append, stops_eq_zero hb ho (Nat.le_refl _), List.countP_map, Nat.zero_add]
  refine (List.countP_eq_length.mpr fun j hj => ?_).trans List.length_range
  have hj' := Nat.lt_of_lt_of_le (List.mem_range.mp hj) hk
  simp [blockAt_eq_none hs hj']

theorem blocks_eq (hs : StaysPast blockSize operations workers) {k : Nat} (hk : k ≤ workers) :
    (List.range (blockCount blockSize operations + k)).filterMap (blockAt blockSize operations) =
      (List.range (blockCount blockSize operations)).filterMap (blockAt blockSize operations) := by
  have hnone : ((List.range k).map (blockCount blockSize operations + ·)).filterMap
      (blockAt blockSize operations) = [] := by
    refine List.filterMap_eq_nil_iff.mpr fun j hj => ?_
    obtain ⟨i, hi, rfl⟩ := List.mem_map.mp hj
    exact blockAt_eq_none hs (Nat.lt_of_lt_of_le (List.mem_range.mp hi) hk)
  rw [List.range_add, List.filterMap_append, hnone, List.append_nil]

theorem After.length_running (hb : 0 < blockSize) (ho : operations < UInt64.size)
    (hs : StaysPast blockSize operations workers) (h : After blockSize operations workers claims c)
    (hle : claims ≤ blockCount blockSize operations + workers) :
    c.running.length = min workers (blockCount blockSize operations + workers - claims) := by
  have hstopped := h.stopped
  rcases Nat.le_total claims (blockCount blockSize operations) with hk | hk
  · rw [stops_eq_zero hb ho hk] at hstopped
    omega
  · obtain ⟨k, rfl⟩ := Nat.exists_eq_add_of_le hk
    rw [stops_eq hb ho hs (by omega)] at hstopped
    omega

theorem bounded_of_run (hb : 0 < blockSize) (ho : operations < UInt64.size)
    (hs : StaysPast blockSize operations workers) {claimed : List Nat}
    (h : run blockSize operations (start workers) claimed = some c) :
    claimed.length ≤ blockCount blockSize operations + workers := by
  induction claimed using List.reverseRecOn generalizing c with
  | nil => exact Nat.zero_le _
  | append_singleton claimed worker ih =>
      obtain ⟨d, hd, hc⟩ := run_snoc.mp h
      have hpos := List.length_pos_of_mem (claim_cases hc).1
      have hlen := (after_run hd).length_running hb ho hs (ih hd)
      rw [List.length_append, List.length_singleton]
      omega

theorem After.places_eq (hb : 0 < blockSize) (ho : operations < UInt64.size)
    (hs : StaysPast blockSize operations workers) (h : After blockSize operations workers claims c)
    (hle : claims ≤ blockCount blockSize operations + workers) :
    c.taken.reverse.flatMap Block.places = List.range (min (claims * blockSize) operations) := by
  rw [h.taken]
  rcases Nat.le_total claims (blockCount blockSize operations) with hk | hk
  · exact places_blocks hb ho hk
  · obtain ⟨k, rfl⟩ := Nat.exists_eq_add_of_le hk
    have hall : operations ≤ (blockCount blockSize operations + k) * blockSize :=
      Nat.le_trans (le_blockCount_mul hb) (Nat.mul_le_mul_right _ hk)
    rw [blocks_eq hs (by omega), places_all hb ho, Nat.min_eq_right hall]

theorem apart_of_nodup {taken : List Block} (h : (taken.reverse.flatMap Block.places).Nodup) :
    taken.Pairwise fun a b => a.places.Disjoint b.places := by
  have hapart := (List.nodup_flatMap.mp h).2
  rw [List.pairwise_reverse] at hapart
  exact hapart.imp List.Disjoint.symm

theorem shared_of_run (hb : 0 < blockSize) (ho : operations < UInt64.size) (hw : 0 < workers)
    (hs : StaysPast blockSize operations workers) {claimed : List Nat}
    (h : run blockSize operations (start workers) claimed = some c) :
    Shared blockSize operations workers claimed c := by
  have hafter := after_run h
  have hbounded := bounded_of_run hb ho hs h
  have hplaces := hafter.places_eq hb ho hs hbounded
  have hstopped : c.running = [] ↔ claimed.length = blockCount blockSize operations + workers := by
    rw [← List.length_eq_zero_iff, hafter.length_running hb ho hs hbounded]
    omega
  refine ⟨hbounded, hplaces, apart_of_nodup (hplaces ▸ List.nodup_range), fun _ => exists_claim, hstopped, ?_⟩
  intro hnil
  have hall : operations ≤ claimed.length * blockSize := by
    rw [hstopped.mp hnil]
    exact Nat.le_trans (le_blockCount_mul hb) (Nat.mul_le_mul_right _ (Nat.le_add_right _ _))
  rw [Nat.min_eq_right hall] at hplaces
  rw [← hplaces]
  exact (List.reverse_perm c.taken).symm.flatMap_right Block.places

theorem Shared.sum_sizes {claimed : List Nat} (h : Shared blockSize operations workers claimed c) :
    (c.taken.map Block.size).sum = min (claimed.length * blockSize) operations := by
  have hlen := congrArg List.length h.in_turn
  rwa [((List.reverse_perm c.taken).flatMap_right Block.places).length_eq, Block.length_flatMap_places,
    List.length_range] at hlen

theorem exists_run (hb : 0 < blockSize) (ho : operations < UInt64.size) (hw : 0 < workers)
    (hs : StaysPast blockSize operations workers) (hle : claims ≤ blockCount blockSize operations + workers) :
    ∃ claimed c, claimed.length = claims ∧ run blockSize operations (start workers) claimed = some c := by
  induction claims with
  | zero => exact ⟨[], _, rfl, rfl⟩
  | succ claims ih =>
      obtain ⟨claimed, c, rfl, hc⟩ := ih (Nat.le_of_lt hle)
      have hlen := (after_run hc).length_running hb ho hs (Nat.le_of_lt hle)
      cases hrunning : c.running with
      | nil =>
          rw [hrunning, List.length_nil] at hlen
          omega
      | cons worker rest =>
          have hmem : worker ∈ c.running := hrunning ▸ List.mem_cons_self
          obtain ⟨d, hd⟩ : ∃ d, c.claim blockSize operations worker = some d := exists_claim hmem
          exact ⟨claimed ++ [worker], d, by simp, run_snoc.mpr ⟨c, hc, hd⟩⟩

theorem After.no_more (hb : 0 < blockSize) (ho : operations < UInt64.size)
    (h : After blockSize operations workers claims c) (hcovers : (c.taken.flatMap Block.places).Perm (List.range operations)) :
    ∃ k, claims = blockCount blockSize operations + k ∧
      ∀ j < k, blockAt blockSize operations (blockCount blockSize operations + j) = none := by
  have hlen : (c.taken.reverse.flatMap Block.places).length = operations := by
    rw [((List.reverse_perm c.taken).flatMap_right Block.places).length_eq, hcovers.length_eq, List.length_range]
  rw [h.taken] at hlen
  have hle : blockCount blockSize operations ≤ claims := by
    refine Nat.le_of_not_lt fun hlt => ?_
    rw [places_blocks hb ho (Nat.le_of_lt hlt), List.length_range] at hlen
    have hshort := (lt_blockCount_iff hb).mp hlt
    omega
  obtain ⟨k, rfl⟩ := Nat.exists_eq_add_of_le hle
  refine ⟨k, rfl, fun j hj => ?_⟩
  rw [List.range_add, List.filterMap_append, List.flatMap_append, places_all hb ho, List.length_append,
    List.length_range] at hlen
  have hrest := List.eq_nil_of_length_eq_zero (Nat.add_eq_left.mp hlen)
  cases hat : blockAt blockSize operations (blockCount blockSize operations + j) with
  | none => rfl
  | some block =>
      have hmem : block ∈ ((List.range k).map (blockCount blockSize operations + ·)).filterMap
          (blockAt blockSize operations) :=
        List.mem_filterMap.mpr ⟨_, List.mem_map_of_mem (List.mem_range.mpr hj), hat⟩
      have hempty := List.flatMap_eq_nil_iff.mp hrest block hmem
      have hsize := size_pos_of_blockAt hb hat
      rw [Block.places, List.range'_eq_nil_iff] at hempty
      omega

theorem staysPast_iff (hb : 0 < blockSize) (ho : operations < UInt64.size) (hw : 0 < workers) :
    StaysPast blockSize operations workers ↔
      ∃ claimed c, run blockSize operations (start workers) claimed = some c ∧ c.running = [] ∧
        (c.taken.flatMap Block.places).Perm (List.range operations) := by
  constructor
  · intro hs
    obtain ⟨claimed, c, hlen, hc⟩ := exists_run hb ho hw hs (Nat.le_refl _)
    have hshared := shared_of_run hb ho hw hs hc
    have hnil := hshared.stopped_iff.mpr hlen
    exact ⟨claimed, c, hc, hnil, hshared.covers hnil⟩
  · rintro ⟨claimed, c, hc, hnil, hcovers⟩
    have hafter := after_run hc
    obtain ⟨k, hk, hnone⟩ := hafter.no_more hb ho hcovers
    have hstopped := hafter.stopped
    have hcount : ((List.range k).map (blockCount blockSize operations + ·)).countP
        (fun k => (blockAt blockSize operations k).isNone) = k := by
      rw [List.countP_map]
      refine (List.countP_eq_length.mpr fun j hj => ?_).trans List.length_range
      simp [hnone j (List.mem_range.mp hj)]
    rw [hnil, hk, List.range_add, List.countP_append, stops_eq_zero hb ho (Nat.le_refl _), hcount, List.length_nil,
      Nat.zero_add, Nat.zero_add] at hstopped
    subst hstopped
    exact fun j hj => blockAt_eq_none_iff.mp (hnone j hj)

end Shared

end Claims

end AwaitStore.Bench
