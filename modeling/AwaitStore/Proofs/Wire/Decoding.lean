import AwaitStore.Proofs.Wire.Readers

namespace AwaitStore.Wire

open Read

theorem Kind.reads_read (kind : Kind) : Reads kind.read fun m => ⨆ _ : m.kind = kind, m.payload := by
  cases kind with
  | putRequest =>
      refine (reads_int32.bind fun id => (reads_text .key).bind fun key => (reads_bytes .value).bind fun value =>
        reads_pure fun _ => Iff.rfl).congr fun m bs => ?_
      simp only [Language.mul_iSup, mul_one, Language.mem_iSup, exists_prop, ← mul_assoc]
      cases m <;> simp [Message.kind, Message.payload, Message.layout]
  | getRequest =>
      refine (reads_int32.bind fun id => (reads_text .key).bind fun key =>
        reads_pure fun _ => Iff.rfl).congr fun m bs => ?_
      simp only [Language.mul_iSup, mul_one, Language.mem_iSup, exists_prop]
      cases m <;> simp [Message.kind, Message.payload, Message.layout]
  | multiPutRequest =>
      refine (reads_int32.bind fun id => reads_pairs.bind fun pairs =>
        reads_pure fun _ => Iff.rfl).congr fun m bs => ?_
      simp only [Language.mul_iSup, mul_one, Language.mem_iSup, exists_prop]
      cases m <;> simp [Message.kind, Message.payload, Message.layout]
  | multiGetRequest =>
      refine (reads_int32.bind fun id => reads_keys.bind fun keys =>
        reads_pure fun _ => Iff.rfl).congr fun m bs => ?_
      simp only [Language.mul_iSup, mul_one, Language.mem_iSup, exists_prop]
      cases m <;> simp [Message.kind, Message.payload, Message.layout]
  | getWhenRequest =>
      refine (reads_int32.bind fun id => (reads_text .key).bind fun key => (reads_text .keyCond).bind
        fun keyCond => (reads_bytes .valueCond).bind fun valueCond =>
          reads_pure fun _ => Iff.rfl).congr fun m bs => ?_
      simp only [Language.mul_iSup, mul_one, Language.mem_iSup, exists_prop, ← mul_assoc]
      cases m <;> simp [Message.kind, Message.payload, Message.layout]
  | putResponse =>
      refine (reads_int32.bind fun id => reads_pure fun _ => Iff.rfl).congr fun m bs => ?_
      simp only [Language.mul_iSup, mul_one, Language.mem_iSup, exists_prop]
      cases m <;> simp [Message.kind, Message.payload, Message.layout]
  | getResponse =>
      refine (reads_int32.bind fun id => (reads_optionalBytes .value).bind fun value =>
        reads_pure fun _ => Iff.rfl).congr fun m bs => ?_
      simp only [Language.mul_iSup, mul_one, Language.mem_iSup, exists_prop]
      cases m <;> simp [Message.kind, Message.payload, Message.layout]
  | multiGetResponse =>
      refine (reads_int32.bind fun id => reads_pairs.bind fun pairs =>
        reads_pure fun _ => Iff.rfl).congr fun m bs => ?_
      simp only [Language.mul_iSup, mul_one, Language.mem_iSup, exists_prop]
      cases m <;> simp [Message.kind, Message.payload, Message.layout]
  | authRequest =>
      refine ((reads_text .username).bind fun username => (reads_text .password).bind fun password =>
        reads_pure fun _ => Iff.rfl).congr fun m bs => ?_
      simp only [Language.mul_iSup, mul_one, Language.mem_iSup, exists_prop]
      cases m <;> simp [Message.kind, Message.payload, Message.layout]
  | authResponse =>
      refine (reads_status.bind fun status => reads_pure fun _ => Iff.rfl).congr fun m bs => ?_
      simp only [Language.mul_iSup, mul_one, Language.mem_iSup, exists_prop]
      cases m <;> simp [Message.kind, Message.payload, Message.layout]
  | errorResponse =>
      refine (reads_int32.bind fun id => (reads_text .message).bind fun message =>
        reads_pure fun _ => Iff.rfl).congr fun m bs => ?_
      simp only [Language.mul_iSup, mul_one, Language.mem_iSup, exists_prop]
      cases m <;> simp [Message.kind, Message.payload, Message.layout]

theorem done_eq_ok {c d : Cursor} {u : Unit} : done c = .ok (u, d) ↔ c = d ∧ d.rest = [] := by
  rw [done]
  split
  next hnil =>
    rw [Except.ok.injEq, Prod.mk.injEq, and_iff_right rfl, iff_self_and]
    rintro rfl
    exact List.isEmpty_iff.mp hnil
  next hne =>
    constructor
    · intro h
      cases h
    · rintro ⟨rfl, hnil⟩
      exact absurd (List.isEmpty_iff.mpr hnil) hne

theorem readWhole_eq_ok {kind : Kind} {payload : Bytes} {m : Message} {d : Cursor} :
    kind.readWhole ⟨payload, 0⟩ = .ok (m, d) ↔
      (m.kind = kind ∧ payload ∈ m.payload) ∧ d = ⟨[], payload.length⟩ := by
  rw [Kind.readWhole, bind_eq_ok]
  simp only [bind_eq_ok, done_eq_ok, pure_eq_ok, kind.reads_read _ _ _, Language.mem_iSup]
  constructor
  · rintro ⟨_, ⟨rest, offset⟩, ⟨front, ⟨hkind, hfront⟩, hrest, hoff⟩, -, _, ⟨rfl, hnil⟩, rfl, rfl⟩
    obtain rfl : rest = [] := hnil
    obtain rfl : payload = front := by rw [hrest, List.append_nil]
    obtain rfl : offset = payload.length := hoff.trans (Nat.zero_add _)
    exact ⟨⟨hkind, hfront⟩, rfl⟩
  · rintro ⟨⟨hkind, hpayload⟩, rfl⟩
    exact ⟨m, _, ⟨payload, ⟨hkind, hpayload⟩, (List.append_nil payload).symm, (Nat.zero_add _).symm⟩,
      (), _, ⟨rfl, rfl⟩, rfl, rfl⟩

theorem decode_eq_ok_iff {b : Bytes} {m : Message} : decode b = .ok m ↔ b ∈ m.body := by
  rw [Message.mem_body]
  cases b with
  | nil => simp [decode]
  | cons tag payload =>
      simp only [decode, List.cons.injEq]
      cases htag : Kind.ofTag? tag with
      | none =>
          constructor
          · intro h
            cases h
          · rintro ⟨_, -, rfl, -⟩
            rw [Kind.ofTag?_tag] at htag
            cases htag
      | some kind =>
          obtain rfl := Kind.tag_of_ofTag? htag
          constructor
          · intro h
            cases hread : kind.readWhole ⟨payload, 0⟩ with
            | error fault => simp [hread] at h
            | ok result =>
                obtain ⟨n, d⟩ := result
                obtain ⟨⟨rfl, hpayload⟩, -⟩ := readWhole_eq_ok.mp hread
                simp only [hread, Except.ok.injEq] at h
                exact ⟨payload, h ▸ hpayload, by rw [h], rfl⟩
          · rintro ⟨_, hpayload, hkind, rfl⟩
            obtain rfl : kind = m.kind := by
              rw [hkind, Kind.ofTag?_tag] at htag
              exact (Option.some.inj htag).symm
            simp only [readWhole_eq_ok.mpr ⟨⟨rfl, hpayload⟩, rfl⟩]

end AwaitStore.Wire
