import AwaitStore.Proofs.Wire.Decoding
import AwaitStore.Proofs.Wire.Writers

namespace AwaitStore.Wire

namespace Grammar

/-- The second language has a string no longer than any of the first. -/
def Shortens (l m : Language UInt8) : Prop := ∀ bs ∈ l, ∃ xs ∈ m, xs.length ≤ bs.length

theorem Shortens.refl (l : Language UInt8) : Shortens l l := fun bs hbs => ⟨bs, hbs, Nat.le_refl _⟩

theorem Shortens.trans {l m n : Language UInt8} (h : Shortens l m) (h' : Shortens m n) : Shortens l n := by
  intro bs hbs
  obtain ⟨xs, hxs, hle⟩ := h bs hbs
  obtain ⟨ys, hys, hle'⟩ := h' xs hxs
  exact ⟨ys, hys, Nat.le_trans hle' hle⟩

theorem Shortens.mul {l l' m m' : Language UInt8} (h : Shortens l l') (h' : Shortens m m') :
    Shortens (l * m) (l' * m') := by
  rintro _ ⟨xs, hxs, ys, hys, rfl⟩
  obtain ⟨xs', hxs', hle⟩ := h xs hxs
  obtain ⟨ys', hys', hle'⟩ := h' ys hys
  refine ⟨xs' ++ ys', Language.append_mem_mul hxs' hys', ?_⟩
  rw [List.length_append, List.length_append]
  exact Nat.add_le_add hle hle'

theorem shortens_count {k n : Nat} (h : k ≤ n) : Shortens (count n) (count k) := by
  intro bs hbs
  obtain ⟨hn, rfl⟩ := mem_count.mp hbs
  exact ⟨_, mem_count.mpr ⟨Nat.le_trans h hn, rfl⟩, Nat.le_refl 4⟩

variable {α : Type} {item : α → Language UInt8}

theorem shortens_prod_of_sublist {few many : List α} (h : few.Sublist many) :
    Shortens (many.map item).prod (few.map item).prod := by
  induction h with
  | slnil => exact .refl _
  | cons a _ ih =>
      rw [List.map_cons, List.prod_cons]
      rintro _ ⟨xs, hxs, ys, hys, rfl⟩
      obtain ⟨ys', hys', hle⟩ := ih ys hys
      refine ⟨ys', hys', ?_⟩
      rw [List.length_append]
      omega
  | cons_cons a _ ih =>
      rw [List.map_cons, List.prod_cons, List.map_cons, List.prod_cons]
      exact (Shortens.refl _).mul ih

theorem shortens_prod_of_perm {one other : List α} (h : one.Perm other) :
    Shortens (one.map item).prod (other.map item).prod := by
  induction h with
  | nil => exact .refl _
  | cons a _ ih =>
      rw [List.map_cons, List.prod_cons, List.map_cons, List.prod_cons]
      exact (Shortens.refl _).mul ih
  | swap a b rest =>
      simp only [List.map_cons, List.prod_cons]
      rintro _ ⟨xs, hxs, _, ⟨ys, hys, zs, hzs, rfl⟩, rfl⟩
      refine ⟨ys ++ (xs ++ zs), Language.append_mem_mul hys (Language.append_mem_mul hxs hzs), ?_⟩
      simp only [List.length_append]
      omega
  | trans _ _ ih ih' => exact ih.trans ih'

theorem shortens_listed {few many : List α} (h : few.Subperm many) :
    Shortens (listed item many) (listed item few) := by
  obtain ⟨picked, hperm, hsub⟩ := h
  exact (shortens_count (List.Subperm.length_le ⟨picked, hperm, hsub⟩)).mul
    ((shortens_prod_of_sublist hsub).trans (shortens_prod_of_perm hperm))

end Grammar

namespace Message

open Grammar

theorem shortens_written (listing : Listing) (m : Message) : Shortens m.payload (m.written listing) := by
  have hpairs : ∀ table, Shortens (Grammar.pairs table) (listed pair (listing.pairs table)) := by
    rintro table bs ⟨entries, hentries, hbs⟩
    -- Each entry of the table stands in the body, beside those that a later one has replaced.
    have hsub := Table.subperm_toList_ofPairs entries
    rw [Table.ofPairs_eq_iff.mpr hentries] at hsub
    exact shortens_listed ((listing.pairs_perm table).subperm.trans hsub) bs hbs
  have hkeys : ∀ set, Shortens (Grammar.keys set) (listed text (listing.keys set)) := by
    rintro set bs ⟨entries, hentries, hbs⟩
    have hsub := KeySet.subperm_toList_ofKeys entries
    rw [KeySet.ofKeys_eq_iff.mpr hentries] at hsub
    exact shortens_listed ((listing.keys_perm set).subperm.trans hsub) bs hbs
  cases m with
  | multiPutRequest id table => exact (Shortens.refl _).mul (hpairs table)
  | multiGetRequest id set => exact (Shortens.refl _).mul (hkeys set)
  | multiGetResponse id table => exact (Shortens.refl _).mul (hpairs table)
  | _ => exact .refl _

/-- Of the eleven kinds three have a table or a set of keys. -/
def HasCollection (m : Message) : Prop :=
  m.kind = .multiPutRequest ∨ m.kind = .multiGetRequest ∨ m.kind = .multiGetResponse

theorem written_eq_payload {m : Message} (h : ¬ m.HasCollection) (listing : Listing) :
    m.written listing = m.payload := by
  cases m with
  | multiPutRequest => exact absurd (.inl rfl) h
  | multiGetRequest => exact absurd (.inr (.inl rfl)) h
  | multiGetResponse => exact absurd (.inr (.inr rfl)) h
  | _ => rfl

end Message

/-- Exactly the bodies of a message are decoded to it, and it can be encoded again. -/
theorem decode_accepts_bodies (b : Bytes) (m : Message) :
    (decode b = .ok m ↔ b ∈ m.body) ∧
      (decode b = .ok m → ∀ listing, ∃ written, m.encode listing = .ok written ∧
        written.length ≤ b.length ∧ (¬ m.HasCollection → written = b)) := by
  refine ⟨decode_eq_ok_iff, fun h listing => ?_⟩
  obtain ⟨rest, hrest, rfl⟩ := Message.mem_body.mp (decode_eq_ok_iff.mp h)
  by_cases hm : m.HasCollection
  · -- The listing may write the entries in another order, so only the length can be compared.
    obtain ⟨xs, hxs, hle⟩ := m.shortens_written listing rest hrest
    exact ⟨_, Message.encode_eq_ok.mpr ⟨xs, hxs, rfl⟩, Nat.succ_le_succ hle, fun h => absurd hm h⟩
  · rw [← Message.written_eq_payload hm listing] at hrest
    exact ⟨_, Message.encode_eq_ok.mpr ⟨rest, hrest, rfl⟩, Nat.le_refl _, fun _ => rfl⟩

/-- The key stands twice, and its second value counts. -/
theorem decode_accepts_bodies_repeated_key :
    decode [3, 0, 0, 0, 9, 0, 0, 0, 2, 0, 1, 97, 0, 0, 0, 1, 1, 0, 1, 97, 0, 0, 0, 1, 2] =
        .ok (.multiPutRequest 9 (Table.ofPairs [("a", [2])])) ∧
      ∃ written, (Message.multiPutRequest 9 (Table.ofPairs [("a", [2])])).encode .ascending = .ok written ∧
        written.length ≤ 25 := by
  have hb : decode [3, 0, 0, 0, 9, 0, 0, 0, 2, 0, 1, 97, 0, 0, 0, 1, 1, 0, 1, 97, 0, 0, 0, 1, 2] =
        .ok (.multiPutRequest 9 (Table.ofPairs [("a", [2])])) := by rfl
  obtain ⟨written, hw, hle, -⟩ := (decode_accepts_bodies _ _).2 hb .ascending
  exact ⟨hb, written, hw, hle⟩

end AwaitStore.Wire
