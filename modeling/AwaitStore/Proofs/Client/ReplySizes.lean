import AwaitStore.Proofs.Client.Passage
import AwaitStore.Proofs.Store.Provenance
import AwaitStore.Proofs.Wire.Sizes

namespace AwaitStore

open Wire (Message RequestId TextFits CountFits pairSize tableSize)

theorem Table.size_le_of_subset {table : Table} {set : KeySet}
    (h : ∀ key value, table[key]? = some value → key ∈ set) : table.size ≤ set.size := by
  have hkeys : (table.toList.map Prod.fst).Subperm set.toList := by
    refine List.Nodup.subperm (List.pairwise_map.mpr (Table.distinct_keys table)) fun key hkey => ?_
    obtain ⟨entry, hentry, rfl⟩ := List.mem_map.mp hkey
    exact Std.ExtTreeSet.mem_toList.mpr (h _ _ (Std.ExtTreeMap.mem_toList_iff_getElem?_eq_some.mp hentry))
  have hle := hkeys.length_le
  rwa [List.length_map, Std.ExtTreeMap.length_toList, Std.ExtTreeSet.length_toList] at hle

theorem Wire.fits_of_readMessage {limit : Nat} {s : Incoming} {m : Message}
    (h : (s.readMessage limit).1 = .ok (some m)) : m.Fits ∧ m.bodySize ≤ limit := by
  have hne : s.bytes ≠ [] := Incoming.bytes_ne_nil (Prod.ext h rfl)
  rw [Incoming.readMessage_eq limit hne] at h
  cases hr : (readFrame limit s.bytes).1 with
  | error e =>
      simp only [hr, Except.map] at h
      cases h
  | ok n =>
      simp only [hr, Except.map, Except.ok.injEq, Option.some_inj] at h
      exact fits_of_front (front_readFrame limit s.bytes) (hr.trans (congrArg _ h))

namespace Operation

theorem eq_request_of_ofRequest? {m : Message} {id : RequestId} {op : Operation} (h : ofRequest? m = some (id, op)) :
    m = op.request id := by
  cases m <;> cases h <;> rfl

/-- A pair that fits into a frame of a server with this limit. -/
def Storable (limit : Nat) (key : Key) (value : Value) : Prop :=
  TextFits key ∧ CountFits value.length ∧ 5 + pairSize (key, value) ≤ limit

theorem puts_of_request {op : Operation} {id : RequestId} {limit : Nat} (hfits : (op.request id).Fits)
    (hsize : (op.request id).bodySize ≤ limit) : op.Puts (Storable limit) := by
  intro entries hentries e he
  cases op with
  | put key value =>
      cases hentries
      obtain rfl := List.mem_singleton.mp he
      refine ⟨hfits.1, hfits.2, ?_⟩
      simp only [request, Message.bodySize, Message.payloadSize] at hsize
      simp only [pairSize]
      omega
  | multiPut pairs =>
      cases hentries
      obtain ⟨hkey, hvalue⟩ := hfits.2 e.1 e.2 (Std.ExtTreeMap.mem_toList_iff_getElem?_eq_some.mp he)
      refine ⟨hkey, hvalue, ?_⟩
      have hle : pairSize e ≤ (pairs.toList.map pairSize).sum := List.le_sum_of_mem (List.mem_map_of_mem he)
      simp only [request, Message.bodySize, Message.payloadSize, tableSize] at hsize
      change 5 + pairSize e ≤ limit
      omega
  | get key | multiGet keys | getWhen wish => cases hentries

end Operation

namespace Client.Channel

open Operation (Storable Brings)

variable {ch : Channel} {id : RequestId} {outcome : Outcome}

theorem fits_of_asked {bytes : Bytes} {op : Operation} (h : ch.asked bytes = some (id, op)) :
    (op.request id).Fits ∧ (op.request id).bodySize ≤ ch.serverLimit := by
  unfold asked at h
  split at h
  next m hread =>
    rw [← Operation.eq_request_of_ofRequest? h]
    exact Wire.fits_of_readMessage hread
  next => cases h
  next => cases h

theorem asked_of_fits {op : Operation} (h : (op.request id).Fits) (hle : (op.request id).bodySize ≤ ch.serverLimit)
    (hmax : (op.request id).bodySize ≤ Wire.maxFrameLength) : ∃ bytes, ch.asked bytes = some (id, op) := by
  obtain ⟨body, hbody⟩ := (Message.exists_encode_iff_fits ch.requestListing).mpr h
  rw [← Message.length_encode hbody] at hle hmax
  refine ⟨_, (asked_of_frame (Wire.frame_eq_ok.mpr ⟨body, hbody, hmax, rfl⟩)).trans (if_pos ?_)⟩
  rw [List.length_append]
  exact Nat.add_le_add_left hle _

theorem answered_of_le (h : (outcome.reply id).Fits) (hle : (outcome.reply id).bodySize ≤ ch.clientLimit)
    (hmax : (outcome.reply id).bodySize ≤ Wire.maxFrameLength) : ch.answered id outcome = .ok (outcome.reply id) := by
  obtain ⟨body, hbody⟩ := (Message.exists_encode_iff_fits ch.replyListing).mpr h
  rw [← Message.length_encode hbody] at hle hmax
  refine Returns.answered ⟨id, _, Wire.frame_eq_ok.mpr ⟨body, hbody, hmax, rfl⟩, ?_⟩ id
  rw [List.length_append]
  exact Nat.add_le_add_left hle _

/-- The client refuses a reply that is longer than its limit, if there is a frame for it at all. -/
theorem answered_of_lt (h : (outcome.reply id).Fits) (hlt : ch.clientLimit < (outcome.reply id).bodySize) :
    ch.answered id outcome = .error (.frameTooLarge (outcome.reply id).bodySize
      (if (outcome.reply id).bodySize ≤ Wire.maxFrameLength then ch.clientLimit else Wire.maxFrameLength)) := by
  obtain ⟨body, hbody⟩ := (Message.exists_encode_iff_fits ch.replyListing).mpr h
  rw [← Message.length_encode hbody] at hlt ⊢
  simp only [answered, Wire.frame, hbody]
  by_cases hmax : body.length ≤ Wire.maxFrameLength
  · have hsize : body.length < UInt32.size := Nat.lt_of_le_of_lt hmax (by decide)
    rw [if_pos hmax, if_pos hmax]
    change (Wire.readFrame _ (_ ++ body)).1 = _
    rw [Wire.readFrame_append rfl, Wire.Grammar.bigEndian_word32, UInt32.toNat_ofNat_of_lt' hsize, Wire.checkLength,
      if_neg (Nat.ne_zero_of_lt hlt), if_pos hlt]
  · rw [if_neg hmax, if_neg hmax]
    rfl

theorem fits_reply {call : Nat} {op : Operation} {r : Return} {limit : Nat} {asked : RequestId}
    (hop : (op.request asked).Fits) (h : Brings (Storable limit) call op r) (id : RequestId) :
    (r.outcome.reply id).Fits := by
  cases h with
  | stored => trivial
  | value held =>
      intro v hv
      obtain ⟨key, -, hcount, -⟩ := held v hv
      exact hcount
  | values hasked held =>
      subst hasked
      refine ⟨Nat.le_trans (Table.size_le_of_subset fun key value hkey => (held key value hkey).1) hop.1, ?_⟩
      intro key value hkey
      obtain ⟨-, htext, hcount, -⟩ := held key value hkey
      exact ⟨htext, hcount⟩
  | unsupported shards =>
      change (StoreError.unsupported "ShardedHashMapBackend" "get_when").message.utf8ByteSize ≤ 65535
      decide

theorem bodySize_reply {call : Nat} {op : Operation} {r : Return} (h : Brings (Storable Wire.defaultMaxFrame) call op r)
    (id : RequestId) :
    (r.outcome.reply id).bodySize ≤ Wire.defaultMaxFrame ∨
      ∃ keys pairs, r.call = call ∧ op = .multiGet keys ∧ r.outcome = .ok (.values pairs) := by
  cases h with
  | stored => exact .inl (Nat.le_of_ble_eq_true rfl)
  | value held =>
      next n value =>
      left
      change 1 + (4 + (4 + (value.getD []).length)) ≤ Wire.defaultMaxFrame
      cases value with
      | none => exact Nat.le_of_ble_eq_true rfl
      | some v =>
          obtain ⟨key, -, -, hle⟩ := held v rfl
          simp only [pairSize, Wire.bytesSize] at hle
          simp only [Option.getD_some]
          omega
  | values hasked held => exact .inr ⟨_, _, rfl, hasked, rfl⟩
  | unsupported shards =>
      left
      change 1 + (4 + (2 + (StoreError.unsupported "ShardedHashMapBackend" "get_when").message.utf8ByteSize)) ≤
        Wire.defaultMaxFrame
      decide

theorem bodySize_values (pairs : Table) (id : RequestId) :
    (Outcome.reply id (.ok (.values pairs))).bodySize =
      9 + (pairs.toList.map fun e => 6 + e.1.utf8ByteSize + e.2.length).sum := by
  have hpair : ∀ e ∈ pairs.toList, pairSize e = 6 + e.1.utf8ByteSize + e.2.length := by
    intro e _
    simp only [pairSize, Wire.textSize, Wire.bytesSize]
    omega
  change 1 + (4 + (4 + (pairs.toList.map pairSize).sum)) = _
  rw [List.map_congr_left hpair]
  omega

/-- Both ends take what they take unless they are told otherwise. -/
def usual : Channel := ⟨.ascending, .ascending, Wire.defaultMaxFrame, Wire.defaultMaxFrame⟩

def putThenGather (value : Value) : List (Nat × Operation) := [(1, .put "a" value), (2, .multiGet {"a"})]

def gathered (value : Value) : Outcome := .ok (.values (Table.ofPairs [("a", value)]))

theorem asked_putThenGather {value : Value} (h : value.length ≤ 16777204) :
    ∀ ask ∈ putThenGather value, ∃ bytes id, usual.asked bytes = some (id, ask.2) := by
  have hfits : (Operation.request 1 (.put "a" value)).Fits :=
    ⟨Nat.le_of_ble_eq_true rfl, Nat.le_trans h (Nat.le_of_ble_eq_true rfl)⟩
  have hsize : (Operation.request 1 (.put "a" value)).bodySize ≤ Wire.defaultMaxFrame := by
    change 1 + (4 + (2 + 1) + (4 + value.length)) ≤ 16777216
    omega
  rintro _ (_ | ⟨_, _ | ⟨_, ⟨⟩⟩⟩)
  · have hasked : ∃ bytes, usual.asked bytes = some (1, .put "a" value) :=
      asked_of_fits hfits hsize (Nat.le_trans hsize (by decide))
    obtain ⟨bytes, hbytes⟩ := hasked
    exact ⟨bytes, 1, hbytes⟩
  · exact ⟨[0, 0, 0, 12, 4, 0, 0, 0, 2, 0, 0, 0, 1, 0, 1, 97], 2, rfl⟩

theorem mem_consult_putThenGather (value : Value) :
    ⟨2, gathered value⟩ ∈ (Database.consult (Store.Backend.simple .empty) (putThenGather value)).2 := by
  have hcollect : (Table.ofPairs [("a", value)]).collect ["a"] = Table.ofPairs [("a", value)] := by
    have hlook : (Table.ofPairs [("a", value)])["a"]? = some value := by
      rw [Table.ofPairs, Table.getElem?_putAll]
      rfl
    simp only [Table.collect, List.foldl_cons, List.foldl_nil, hlook]
    rfl
  change _ ∈ [_, Return.mk 2 (.ok (.values ((Table.ofPairs [("a", value)]).collect ["a"])))]
  rw [hcollect]
  exact List.mem_cons_of_mem _ List.mem_cons_self

theorem answered_of_longest {value : Value} (h : value.length = 16777204) :
    usual.answered 2 (gathered value) = .error (.frameTooLarge 16777220 Wire.defaultMaxFrame) := by
  have hfits : ((gathered value).reply 2).Fits := by
    refine ⟨Nat.le_of_ble_eq_true rfl, ?_⟩
    refine Table.only_empty.putAll (P := fun key found => TextFits key ∧ CountFits found.length) ?_
    exact List.forall_mem_singleton.mpr ⟨Nat.le_of_ble_eq_true rfl, h ▸ Nat.le_of_ble_eq_true rfl⟩
  have hsize : ((gathered value).reply 2).bodySize = 16777220 := by
    rw [gathered, bodySize_values]
    change 9 + (6 + 1 + value.length + 0) = _
    omega
  have hlt : usual.clientLimit < ((gathered value).reply 2).bodySize := by
    rw [hsize]
    decide
  rw [answered_of_lt hfits hlt, hsize]
  rfl

/-- Whatever the server has let in, each reply can be encoded; and unless it is the reply to a `multiGet` whose pairs
are together too long, it is within the limit of the client, who reads it back. Such a long one is refused. -/
theorem reply_fits_unless_gathered {kind : Store.Kind} {b : Store.Backend} {asks : List (Nat × Operation)}
    (hserver : ch.serverLimit = Wire.defaultMaxFrame) (hclient : ch.clientLimit = Wire.defaultMaxFrame)
    (hbuild : kind.build = .ok b)
    (hasks : ∀ ask ∈ asks, ∃ bytes id, ch.asked bytes = some (id, ask.2)) {r : Return}
    (hr : r ∈ (Database.consult b asks).2) (id : RequestId) :
    ∃ body, (r.outcome.reply id).encode ch.replyListing = .ok body ∧
      (∀ pairs, r.outcome = .ok (.values pairs) →
        body.length = 9 + (pairs.toList.map fun e => 6 + e.1.utf8ByteSize + e.2.length).sum) ∧
      (body.length ≤ Wire.defaultMaxFrame ∧ ch.answered id r.outcome = .ok (r.outcome.reply id) ∨
        ∃ keys pairs, (r.call, Operation.multiGet keys) ∈ asks ∧ r.outcome = .ok (.values pairs) ∧
          Wire.defaultMaxFrame < body.length ∧
          ch.answered id r.outcome = .error (.frameTooLarge body.length
            (if body.length ≤ Wire.maxFrameLength then Wire.defaultMaxFrame else Wire.maxFrameLength))) := by
  have hputs : ∀ ask ∈ asks, ask.2.Puts (Operation.Storable Wire.defaultMaxFrame) := by
    intro ask hask
    obtain ⟨bytes, other, hbytes⟩ := hasks ask hask
    obtain ⟨hfits, hsize⟩ := fits_of_asked hbytes
    exact Operation.puts_of_request hfits (hserver ▸ hsize)
  obtain ⟨-, hbrings⟩ := Store.Backend.brings_consult (Store.Backend.keeps_build hbuild) hputs
  obtain ⟨⟨call, op⟩, hask, hb⟩ := hbrings r hr
  obtain ⟨bytes, other, hbytes⟩ := hasks _ hask
  have hfits := fits_reply (fits_of_asked hbytes).1 hb id
  obtain ⟨body, hbody⟩ := (Wire.Message.exists_encode_iff_fits ch.replyListing).mpr hfits
  have hlen := Wire.Message.length_encode hbody
  refine ⟨body, hbody, fun pairs hpairs => ?_, ?_⟩
  · rw [hlen, hpairs, bodySize_values]
  rw [hlen]
  by_cases hle : (r.outcome.reply id).bodySize ≤ Wire.defaultMaxFrame
  · exact .inl ⟨hle, answered_of_le hfits (hclient ▸ hle) (Nat.le_trans hle (by decide))⟩
  · obtain hle' | ⟨keys, pairs, hcall, rfl, hpairs⟩ := bodySize_reply hb id
    · exact absurd hle' hle
    refine .inr ⟨keys, pairs, hcall ▸ hask, hpairs, Nat.lt_of_not_le hle, ?_⟩
    rw [answered_of_lt hfits (hclient ▸ Nat.lt_of_not_le hle), hclient]

theorem reply_fits_of_short_value :
    ∃ body, ((gathered [7]).reply 2).encode .ascending = .ok body ∧
      body.length = 17 ∧
      usual.answered 2 (gathered [7]) = .ok (.multiGetResponse 2 (Table.ofPairs [("a", [7])])) := by
  have hbuild : Store.Kind.simple.build = .ok (.simple .empty) := rfl
  have hasks : ∀ ask ∈ putThenGather [7], ∃ bytes id, usual.asked bytes = some (id, ask.2) :=
    asked_putThenGather (by decide)
  obtain ⟨body, hbody, hlen, h⟩ :=
    reply_fits_unless_gathered rfl rfl hbuild hasks (mem_consult_putThenGather [7]) 2
  have hsize : body.length = 17 := hlen _ rfl
  refine ⟨body, hbody, hsize, ?_⟩
  obtain ⟨-, hanswered⟩ | ⟨_, _, -, -, hlt, -⟩ := h
  · exact hanswered
  · rw [hsize] at hlt
    exact absurd hlt (by decide)

/-- The value fills its frame. The reply also counts its pairs, and for the count there is no room. -/
theorem reply_of_longest_value_refused :
    (∀ ask ∈ putThenGather (List.replicate 16777204 0), ∃ bytes id, usual.asked bytes = some (id, ask.2)) ∧
      ∃ r ∈ (Database.consult (Store.Backend.simple .empty) (putThenGather (List.replicate 16777204 0))).2,
        usual.answered 2 r.outcome = .error (.frameTooLarge 16777220 Wire.defaultMaxFrame) :=
  ⟨asked_putThenGather (Nat.le_of_eq List.length_replicate),
    _, mem_consult_putThenGather _, answered_of_longest List.length_replicate⟩

end Client.Channel

end AwaitStore
