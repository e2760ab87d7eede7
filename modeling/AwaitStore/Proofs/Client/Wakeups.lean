import AwaitStore.Proofs.Client.Exchange

namespace AwaitStore.Client.Link

open Wire (Listing Message RequestId)

def awaited (l : Link) : Option RequestId → Condition
  | some id => l.conditionOf id
  | none => .login

structure Watched (l : Link) : Prop where
  positive : 0 < l.conditions
  due : ∀ n c id, l.find? n = some c → c.phase = .asleep id → l.hasReply id = true ∨ l.broken = true →
    l.awaited id ∈ l.notices

variable {l k : Link} {listing : Listing} {a : Step} {n : Nat} {request : Request} {before phase : Phase}
  {id : Option RequestId} {condition : Condition}

theorem awaited_eq (h : k.conditions = l.conditions) (id : Option RequestId) : k.awaited id = l.awaited id := by
  cases id with
  | none => rfl
  | some id => simp only [awaited, conditionOf, h]

theorem sleepsOn_eq_true {c : Call} :
    l.sleepsOn condition c = true ↔ ∃ id, c.phase = .asleep id ∧ l.awaited id = condition := by
  obtain ⟨number, request, phase⟩ := c
  cases phase with
  | asleep id => cases id <;> simp [sleepsOn, awaited, eq_comm]
  | start | numbered | awake | returned => simp [sleepsOn]

theorem awaited_mem_lose (h : 0 < l.conditions) (id : Option RequestId) : l.awaited id ∈ l.lose.notices := by
  have hmem : l.awaited id ∈ (List.range l.conditions).map Condition.reply ++ [.login] := by
    cases id with
    | none => simp [awaited]
    | some id =>
        have hlt := Nat.mod_lt id.toInt.toNat h
        simpa [awaited, conditionOf] using hlt
  rw [lose, List.append_assoc]
  exact List.mem_append_right _ hmem

theorem Watched.keep (h : l.Watched) (hcalls : k.calls = l.calls) (hconditions : k.conditions = l.conditions)
    (hnotices : ∀ c ∈ l.notices, c ∈ k.notices)
    (hnew : ∀ id, k.hasReply id = true ∨ k.broken = true →
      (l.hasReply id = true ∨ l.broken = true) ∨ l.awaited id ∈ k.notices) : k.Watched := by
  refine ⟨hconditions ▸ h.positive, fun n c id hc hp hthere => ?_⟩
  have hfind : l.find? n = some c := by rwa [find?, hcalls] at hc
  rw [awaited_eq hconditions]
  exact (hnew id hthere).elim (fun hold => hnotices _ (h.due n c id hfind hp hold)) fun hdue => hdue

theorem Watched.setPhase (h : l.Watched) (hn : l.find? n = some ⟨n, request, before⟩)
    (hphase : ∀ id, phase = .asleep id → l.hasReply id = false ∧ l.broken = false) : (l.setPhase n phase).Watched := by
  refine ⟨h.positive, fun m c id hc hp hthere => ?_⟩
  by_cases hm : m = n
  · subst hm
    cases (find?_setPhase_self hn phase).symm.trans hc
    obtain ⟨hnothing, hup⟩ := hphase id hp
    rcases hthere with hreply | hdown
    · exact absurd (hnothing.symm.trans hreply) Bool.false_ne_true
    · exact absurd (hup.symm.trans hdown) Bool.false_ne_true
  · rw [find?_setPhase_of_ne hm] at hc
    exact h.due m c id hc hp hthere

theorem Watched.setPhase_awake (h : l.Watched) (hn : l.find? n = some ⟨n, request, before⟩)
    (hphase : ∀ id, phase ≠ .asleep id) : (l.setPhase n phase).Watched :=
  h.setPhase hn fun id he => absurd he (hphase id)

theorem Watched.lose (h : l.Watched) : l.lose.Watched :=
  h.keep rfl rfl (fun _ hc => List.mem_append_left _ (List.mem_append_left _ hc)) fun id _ =>
    .inr (awaited_mem_lose h.positive id)

theorem awaited_mem_store {m : Message} (h : (l.store m).hasReply id = true) :
    l.hasReply id = true ∨ l.awaited id ∈ (l.store m).notices := by
  unfold store at h ⊢
  split at h
  next status =>
    cases id with
    | none => exact .inr (List.mem_append_right _ (List.mem_singleton.mpr rfl))
    | some id => exact .inl h
  · split at h
    next i hi =>
      cases id with
      | none => exact .inl h
      | some id =>
          by_cases he : id = i
          · subst he
            exact .inr (List.mem_append_right _ (List.mem_singleton.mpr rfl))
          · left
            rw [hasReply, lookup_cons_of_ne _ m he, lookup_filter, if_neg he] at h
            exact h
    · exact .inl h

theorem Watched.store (h : l.Watched) (m : Message) : (l.store m).Watched := by
  obtain ⟨more, hnotices, -⟩ := notices_store m l
  have hkept := store_eq m l
  refine h.keep (congrArg calls hkept :) (congrArg conditions hkept :)
    (fun c hc => hnotices ▸ List.mem_append_left more hc) fun id hthere => ?_
  rcases hthere with hreply | hdown
  · exact (awaited_mem_store hreply).imp_left .inl
  · exact .inl (.inr ((congrArg broken hkept).symm.trans hdown))

theorem find?_notify (h : l.notify condition = some k) (n : Nat) :
    k.find? n = (l.find? n).map (l.summoned condition) := by
  unfold notify at h
  split at h
  · cases h
    exact find?_wakeSleepers condition { l with notices := l.notices.erase condition } n
  · cases h

theorem Watched.notify (h : l.Watched) :
    ({ l with notices := l.notices.erase condition }.wakeSleepers condition).Watched := by
  refine ⟨h.positive, fun n c id hc hp hthere => ?_⟩
  rw [find?_wakeSleepers] at hc
  obtain ⟨c', hc', rfl⟩ := Option.map_eq_some_iff.mp hc
  rcases summoned_cases condition { l with notices := l.notices.erase condition } c' with
    ⟨-, id', -, he⟩ | ⟨hsleeps, he⟩
  · rw [he] at hp
    cases hp
  · rw [he] at hp
    have hdue := h.due n c' id hc' hp hthere
    have hne : l.awaited id ≠ condition := fun hcond =>
      Bool.eq_false_iff.mp hsleeps (sleepsOn_eq_true.mpr ⟨id, hp, hcond⟩)
    exact (List.mem_erase_of_ne hne).mpr hdue

/-- Each step keeps watch over the sleepers. -/
theorem Watched.turn (h : l.Watched) (ht : Turn listing l a k) : k.Watched := by
  cases ht with
  | call n request =>
      refine ⟨h.positive, fun m c id hc hp hthere => ?_⟩
      rw [find?_call] at hc
      rcases Option.or_eq_some_iff.mp hc with hc | ⟨-, hc⟩
      · exact h.due m c id hc hp hthere
      · split at hc <;> cases hc
        cases hp
  | number before =>
      have hbase : ({ l with nextId := idAfter l.nextId } : Link).Watched :=
        h.keep rfl rfl (fun _ hc => hc) fun _ => .inl
      exact hbase.setPhase_awake before (by simp)
  | refuse before | giveUp before => exact h.setPhase_awake before (by simp)
  | unencodable out =>
      obtain ⟨request, phase, before, -⟩ := Exchange.sends_of_outgoing (x := .connect l) out
      exact h.setPhase_awake before (by simp)
  | @send n m id bytes out =>
      obtain ⟨request, phase, before, -⟩ := Exchange.sends_of_outgoing (x := .connect l) out
      have hbase : ({ l with sent := l.sent ++ [m] } : Link).Watched :=
        h.keep rfl rfl (fun _ hc => hc) fun _ => .inl
      exact hbase.setPhase_awake before (by simp)
  | fail out =>
      obtain ⟨request, phase, before, -⟩ := Exchange.sends_of_outgoing (x := .connect l) out
      exact h.lose.setPhase_awake before (by simp)
  | @take n op i reply before =>
      have hbase : ({ l with replies := l.replies.filter fun r => r.1 != i } : Link).Watched := by
        refine h.keep rfl rfl (fun _ hc => hc) fun id hthere => .inl (hthere.imp_left fun hreply => ?_)
        cases id with
        | none => exact hreply
        | some id =>
            rw [hasReply, lookup_filter] at hreply
            split at hreply
            · cases hreply
            · exact hreply
      exact hbase.setPhase_awake before (by simp)
  | @welcome n username password status before =>
      have hbase : ({ l with loginReply := none, loggedIn := l.loggedIn || status.isSuccess } : Link).Watched := by
        refine h.keep rfl rfl (fun _ hc => hc) fun id hthere => .inl (hthere.imp_left fun hreply => ?_)
        cases id with
        | none => cases hreply
        | some id => exact hreply
      exact hbase.setPhase_awake before (by simp)
  | sleep before nothing up =>
      refine h.setPhase before fun id he => ?_
      cases he
      exact ⟨nothing, up⟩
  | wake before => exact h.setPhase_awake before (by simp)
  | arrive | hangUp => exact h.keep rfl rfl (fun _ hc => hc) fun _ => .inl
  | @store m incoming =>
      exact (h.keep (k := { l with incoming }) rfl rfl (fun _ hc => hc) fun _ => .inl).store m
  | @lose incoming =>
      exact (h.keep (k := { l with incoming, reading := false }) rfl rfl (fun _ hc => hc) fun _ => .inl).lose
  | notify => exact h.notify

end AwaitStore.Client.Link
