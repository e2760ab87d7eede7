import AwaitStore.Proofs.Client.Routing

namespace AwaitStore.Client

open Wire (AuthStatus Listing Message RequestId)

namespace View

def InFlight (v : View) (n : Nat) : Prop :=
  ∃ username password, v.call n = some (.logIn username password, .waiting none)

/-- Every login but this one that was sent has its status read. -/
def SettledBut (v : View) (n : Option Nat) : Prop :=
  ∀ k username password, some k ≠ n → (k, .authRequest username password) ∈ v.log.asked →
    ∃ reply, (k, reply) ∈ v.log.read

structure Greeted (v : View) : Prop where
  sent : ∀ n ∈ v.log.prompt, ∃ m, (n, m) ∈ v.log.asked
  one : ∀ n n', v.InFlight n → v.InFlight n' → n = n'
  down : v.log.failed = false → v.broken = true → v.reading = false
  held : v.log.failed = false → ∀ n, v.InFlight n → n ∈ v.log.prompt
  idle : v.log.failed = false → (∀ n, ¬ v.InFlight n) → v.loginReply = none ∧ (v.reading = true → v.SettledBut none)
  waits : ∀ n ∈ v.log.prompt, v.InFlight n → (v.reading = true → v.SettledBut (some n)) ∧
    ∀ status, v.loginReply = some status ↔ (n, .authResponse status) ∈ v.log.read
  own : ∀ n ∈ v.log.prompt, ∀ request status, v.call n = some (request, .ended (.status status)) →
    (n, .authResponse status) ∈ v.log.read

end View

/-- This is neither the standing of a login in flight nor that of one with a status. -/
def Standing.Aloof : Standing → Request → Prop
  | .waiting none, .logIn .. => False
  | .ended (.status _), _ => False
  | _, _ => True

open View

variable {listing : Listing} {events : List Event} {e : Event} {v w : View} {n k : Nat} {request : Request}
  {s t : Standing} {username password : String}

theorem View.greeted_empty (hlog : v.log = .empty) (hreply : v.loginReply = none) (hup : v.broken = false)
    (hcall : ∀ n, v.call n = none) : v.Greeted := by
  have hnone (n : Nat) : ¬ v.InFlight n := by
    rintro ⟨username, password, he⟩
    cases (hcall n).symm.trans he
  constructor
  · exact hlog ▸ List.forall_mem_nil _
  · exact fun n _ hn => absurd hn (hnone n)
  · exact fun _ hdown => by cases hup.symm.trans hdown
  · exact fun _ n hn => absurd hn (hnone n)
  · refine fun _ _ => ⟨hreply, fun _ k username password _ hm => ?_⟩
    rw [hlog] at hm
    exact absurd hm List.not_mem_nil
  · exact fun n _ hn => absurd hn (hnone n)
  · exact hlog ▸ List.forall_mem_nil _

theorem View.Greeted.keep (h : v.Greeted) (hprompt : w.log.prompt = v.log.prompt)
    (hasked : v.log.asked ⊆ w.log.asked)
    (hlogins : ∀ n username password, (n, .authRequest username password) ∈ w.log.asked →
      (n, .authRequest username password) ∈ v.log.asked)
    (hread : v.log.read ⊆ w.log.read)
    (hstatus : ∀ n status, (n, .authResponse status) ∈ w.log.read → (n, .authResponse status) ∈ v.log.read)
    (hreply : w.loginReply = v.loginReply) (hreading : w.reading = true → v.reading = true)
    (hflight : ∀ n, w.InFlight n ↔ v.InFlight n)
    (hfailed : w.log.failed = false → v.log.failed = false)
    (hdown : w.log.failed = false → w.broken = true → w.reading = false)
    (hended : ∀ n request status, w.call n = some (request, .ended (.status status)) →
      v.call n = some (request, .ended (.status status))) : w.Greeted := by
  have hsettled {n : Option Nat} (hs : v.SettledBut n) : w.SettledBut n := by
    intro k username password hk hm
    obtain ⟨reply, hr⟩ := hs k username password hk (hlogins k username password hm)
    exact ⟨reply, hread hr⟩
  constructor
  · intro n hn
    obtain ⟨m, hm⟩ := h.sent n (hprompt ▸ hn)
    exact ⟨m, hasked hm⟩
  · exact fun n n' hn hn' => h.one n n' ((hflight n).mp hn) ((hflight n').mp hn')
  · exact hdown
  · exact fun hw n hn => hprompt ▸ h.held (hfailed hw) n ((hflight n).mp hn)
  · intro hw hnone
    obtain ⟨hr, hs⟩ := h.idle (hfailed hw) fun n hn => hnone n ((hflight n).mpr hn)
    exact ⟨hreply.trans hr, fun hreads => hsettled (hs (hreading hreads))⟩
  · intro n hn hf
    obtain ⟨hs, hr⟩ := h.waits n (hprompt ▸ hn) ((hflight n).mp hf)
    refine ⟨fun hreads => hsettled (hs (hreading hreads)), fun status => ?_⟩
    rw [hreply, hr]
    exact ⟨fun hm => hread hm, hstatus n status⟩
  · exact fun n hn request status he => hread (h.own n (hprompt ▸ hn) request status (hended n request status he))

theorem View.Greeted.stand (h : v.Greeted) {nextId : RequestId} {replies : RequestId → Option Message}
    {broken failed : Bool} {numbered : List (Nat × RequestId)} {asked : List (Nat × Message)}
    (hasked : v.log.asked ⊆ asked)
    (hlogins : ∀ n username password, (n, .authRequest username password) ∈ asked →
      (n, .authRequest username password) ∈ v.log.asked)
    (hfailed : failed = false → v.log.failed = false ∧ broken = v.broken) (hk : ¬ v.InFlight k)
    (ht : t.Aloof request) :
    ({ v with nextId, replies, broken, log := { v.log with numbered, asked, failed } }.stand k request t).Greeted := by
  generalize hw : View.stand k request t _ = w
  have hself : w.call k = some (request, t) := hw ▸ Function.update_self k _ v.call
  have hother {n : Nat} (hne : n ≠ k) : w.call n = v.call n := hw ▸ Function.update_of_ne hne _ v.call
  have hlog : w.log = { v.log with numbered, asked, failed } := hw ▸ rfl
  have hreading : w.reading = v.reading := hw ▸ rfl
  have hbroken : w.broken = broken := hw ▸ rfl
  have hflight (n : Nat) : w.InFlight n ↔ v.InFlight n := by
    by_cases hne : n = k
    · subst hne
      refine ⟨?_, fun hf => absurd hf hk⟩
      rintro ⟨username, password, he⟩
      rw [hself] at he
      obtain ⟨rfl, rfl⟩ := Prod.mk.inj (Option.some.inj he)
      exact ht.elim
    · simp only [InFlight, hother hne]
  refine h.keep (hw ▸ rfl) (hlog ▸ hasked) (hlog ▸ hlogins) (hlog ▸ List.Subset.refl _) ?_ (hw ▸ rfl)
    (fun hr => hreading ▸ hr) hflight ?_ ?_ ?_
  · rw [hlog]
    exact fun _ _ hm => hm
  · rw [hlog]
    exact fun hf => (hfailed hf).1
  · rw [hlog, hbroken, hreading]
    exact fun hf hb => h.down (hfailed hf).1 ((hfailed hf).2 ▸ hb)
  · intro n request' status he
    by_cases hne : n = k
    · rw [hne, hself] at he
      obtain ⟨-, rfl⟩ := Prod.mk.inj (Option.some.inj he)
      exact ht.elim
    · exact (hother hne).symm.trans he

theorem View.Greeted.send (h : v.Greeted) (alone : ∀ n, ¬ v.InFlight n) (hasked : ∀ m, (n, m) ∉ v.log.asked)
    (hread : ∀ m, (n, m) ∉ v.log.read) :
    ({ v with
        log :=
          { v.log with
            asked := v.log.asked ++ [(n, Message.authRequest username password)]
            prompt := if !v.log.failed then v.log.prompt ++ [n] else v.log.prompt } }.stand n
      (.logIn username password) (.waiting none)).Greeted := by
  generalize hw : View.stand n (.logIn username password) (.waiting none) _ = w
  have hself : w.call n = some (.logIn username password, .waiting none) := hw ▸ Function.update_self n _ v.call
  have hother {m : Nat} (hne : m ≠ n) : w.call m = v.call m := hw ▸ Function.update_of_ne hne _ v.call
  have hlog : w.log = { v.log with
      asked := v.log.asked ++ [(n, Message.authRequest username password)]
      prompt := if !v.log.failed then v.log.prompt ++ [n] else v.log.prompt } := hw ▸ rfl
  have hreply : w.loginReply = v.loginReply := hw ▸ rfl
  have hreading : w.reading = v.reading := hw ▸ rfl
  have hbroken : w.broken = v.broken := hw ▸ rfl
  have honly {m : Nat} (hm : w.InFlight m) : m = n := by
    by_contra hne
    obtain ⟨username, password, he⟩ := hm
    exact alone m ⟨username, password, (hother hne).symm.trans he⟩
  have hold : n ∉ v.log.prompt := fun hn => by
    obtain ⟨m, hm⟩ := h.sent n hn
    exact hasked m hm
  have hprompt {m : Nat} (hm : m ∈ w.log.prompt) : m ∈ v.log.prompt ∨ m = n ∧ v.log.failed = false := by
    rw [hlog] at hm
    cases hb : v.log.failed with
    | true => simpa [hb] using hm
    | false => simpa [hb] using hm
  constructor
  · intro m hm
    rw [hlog]
    rcases hprompt hm with hm | ⟨rfl, -⟩
    · obtain ⟨q, hq⟩ := h.sent m hm
      exact ⟨q, List.mem_append_left _ hq⟩
    · exact ⟨_, List.mem_append_right _ (List.mem_singleton.mpr rfl)⟩
  · exact fun m m' hm hm' => (honly hm).trans (honly hm').symm
  · rw [hlog, hbroken, hreading]
    exact h.down
  · intro hf m hm
    obtain rfl := honly hm
    rw [hlog] at hf ⊢
    have hf : v.log.failed = false := hf
    simp [hf]
  · exact fun _ hnone => absurd ⟨username, password, hself⟩ (hnone n)
  · intro m hm hf
    obtain rfl := honly hf
    obtain hm | ⟨-, hnever⟩ := hprompt hm
    · exact absurd hm hold
    obtain ⟨hnothing, hsettled⟩ := h.idle hnever alone
    constructor
    · intro hreads k username' password' hk hq
      rw [hlog] at hq ⊢
      have hne : k ≠ m := fun he => hk (congrArg some he)
      exact hsettled (hreading ▸ hreads) k username' password' (by simp) (by simpa [hne] using hq)
    · intro status
      rw [hreply, hnothing, hlog]
      exact ⟨fun he => (nomatch he), fun hr => absurd hr (hread _)⟩
  · intro m hm request status he
    have hne : m ≠ n := fun hmn => by
      rw [hmn, hself] at he
      cases he
    rw [hlog]
    exact h.own m ((hprompt hm).resolve_right fun hmn => hne hmn.1) request status ((hother hne).symm.trans he)

theorem View.not_inFlight_of_end (hone : ∀ n n', v.InFlight n → v.InFlight n' → n = n') (hn : v.InFlight n)
    {result : Result} (hself : w.call n = some (request, .ended result))
    (hother : ∀ m, m ≠ n → w.call m = v.call m) (m : Nat) : ¬ w.InFlight m := by
  rintro ⟨username, password, he⟩
  by_cases hne : m = n
  · rw [hne, hself] at he
    cases he
  · exact hne (hone m n ⟨username, password, (hother m hne).symm.trans he⟩ hn)

theorem View.Greeted.welcome (h : v.Greeted) {status : AuthStatus}
    (before : v.call n = some (.logIn username password, .waiting none)) (found : v.loginReply = some status) :
    ({ v with loginReply := none }.stand n (.logIn username password) (.ended (.status status))).Greeted := by
  generalize hw : View.stand n (.logIn username password) (.ended (.status status)) _ = w
  have hself : w.call n = some (.logIn username password, .ended (.status status)) :=
    hw ▸ Function.update_self n _ v.call
  have hother (m : Nat) (hne : m ≠ n) : w.call m = v.call m := hw ▸ Function.update_of_ne hne _ v.call
  have hlog : w.log = v.log := hw ▸ rfl
  have hreading : w.reading = v.reading := hw ▸ rfl
  have hbroken : w.broken = v.broken := hw ▸ rfl
  have hflight : v.InFlight n := ⟨username, password, before⟩
  have hnone := View.not_inFlight_of_end h.one hflight hself hother
  constructor
  · exact hlog ▸ h.sent
  · exact fun m _ hm => absurd hm (hnone m)
  · rw [hlog, hbroken, hreading]
    exact h.down
  · exact fun _ m hm => absurd hm (hnone m)
  · intro hf _
    rw [hlog] at hf
    obtain ⟨hsettled, hr⟩ := h.waits n (h.held hf n hflight) hflight
    refine ⟨hw ▸ rfl, fun hreads k username' password' _ hk => ?_⟩
    rw [hlog] at hk ⊢
    by_cases hne : k = n
    · exact ⟨_, hne ▸ (hr status).mp found⟩
    · exact hsettled (hreading ▸ hreads) k username' password' (fun he => hne (Option.some.inj he)) hk
  · exact fun m _ hm => absurd hm (hnone m)
  · intro m hm request status' he
    rw [hlog] at hm ⊢
    by_cases hne : m = n
    · subst hne
      rw [hself] at he
      cases he
      exact ((h.waits m hm hflight).2 status).mp found
    · exact h.own m hm request status' ((hother m hne).symm.trans he)

theorem View.Greeted.giveUp (h : v.Greeted) (before : v.call n = some (.logIn username password, .waiting none))
    (quiet : v.loginReply = none) (down : v.broken = true) (error : StoreError) :
    (v.stand n (.logIn username password) (.ended (.failed error))).Greeted := by
  generalize hw : View.stand n (.logIn username password) (.ended (.failed error)) _ = w
  have hself : w.call n = some (.logIn username password, .ended (.failed error)) := hw ▸ Function.update_self n _ v.call
  have hother (m : Nat) (hne : m ≠ n) : w.call m = v.call m := hw ▸ Function.update_of_ne hne _ v.call
  have hlog : w.log = v.log := hw ▸ rfl
  have hreading : w.reading = v.reading := hw ▸ rfl
  have hnone := View.not_inFlight_of_end h.one ⟨username, password, before⟩ hself hother
  constructor
  · exact hlog ▸ h.sent
  · exact fun m _ hm => absurd hm (hnone m)
  · rw [hlog, hreading]
    exact fun hf _ => h.down hf down
  · exact fun _ m hm => absurd hm (hnone m)
  · rw [hlog, hreading]
    refine fun hf _ => ⟨hw ▸ quiet, fun hreads => ?_⟩
    cases hreads.symm.trans (h.down hf down)
  · exact fun m _ hm => absurd hm (hnone m)
  · intro m hm request' status he
    have hne : m ≠ n := fun hmn => by
      rw [hmn, hself] at he
      cases he
    rw [hlog] at hm ⊢
    exact h.own m hm request' status ((hother m hne).symm.trans he)

theorem View.Greeted.greet (h : v.Greeted) (ha : ∀ n, v.Accounted listing events n) (hr : v.Routed)
    {status : AuthStatus} {rest : List (Nat × Message)} (first : v.log.unread = (n, .authResponse status) :: rest)
    (reading : v.reading = true) :
    { v with
      loginReply := some status
      log := { v.log with read := v.log.read ++ [(n, Message.authResponse status)], unread := rest } }.Greeted := by
  have hunread : (n, .authResponse status) ∈ v.log.unread := first ▸ List.mem_cons_self
  have hnone := hr.notMem_read hunread
  obtain ⟨username, password, hasked⟩ : ∃ username password, (n, .authRequest username password) ∈ v.log.asked := by
    obtain ⟨m, hm, hanswers⟩ := (ha n).given _ (List.mem_append_right _ hunread)
    cases m with
    | authRequest username password => exact ⟨username, password, hm⟩
    | _ => cases hanswers
  constructor
  · exact h.sent
  · exact h.one
  · exact h.down
  · exact h.held
  · intro hf hidle
    obtain ⟨m, hm⟩ := (h.idle hf hidle).2 reading n username password (by simp) hasked
    exact absurd hm (hnone m)
  · intro k hk hf
    obtain ⟨hsettled, -⟩ := h.waits k hk hf
    obtain rfl : k = n := by
      by_contra hne
      obtain ⟨m, hm⟩ := hsettled reading n username password (fun he => hne (Option.some.inj he).symm) hasked
      exact hnone m hm
    constructor
    · intro hreads k' username' password' hk' hq
      obtain ⟨m, hm⟩ := hsettled hreads k' username' password' hk' hq
      exact ⟨m, List.mem_append_left _ hm⟩
    · intro status'
      simp [hnone, eq_comm]
  · intro k hk request status' he
    exact List.mem_append_left _ (h.own k hk request status' he)

theorem View.Greeted.fail (h : v.Greeted) {m : Message} {prompt : List Nat} (alone : ∀ n, ¬ v.InFlight n)
    (hprompt : ∀ k ∈ prompt, k ∈ v.log.prompt ∨ k = n) (request : Request) (error : StoreError) :
    ({ v with
        broken := true
        log := { v.log with asked := v.log.asked ++ [(n, m)], prompt, failed := true } }.stand n request
      (.ended (.failed error))).Greeted := by
  generalize hw : View.stand n request (.ended (.failed error)) _ = w
  have hself : w.call n = some (request, .ended (.failed error)) := hw ▸ Function.update_self n _ v.call
  have hother {m : Nat} (hne : m ≠ n) : w.call m = v.call m := hw ▸ Function.update_of_ne hne _ v.call
  have hlog : w.log = { v.log with asked := v.log.asked ++ [(n, m)], prompt, failed := true } := hw ▸ rfl
  have hfailed (hf : w.log.failed = false) : False := by
    rw [hlog] at hf
    cases hf
  have hnone (k : Nat) : ¬ w.InFlight k := by
    rintro ⟨username, password, he⟩
    by_cases hne : k = n
    · rw [hne, hself] at he
      cases he
    · exact alone k ⟨username, password, (hother hne).symm.trans he⟩
  constructor
  · intro k hk
    rw [hlog] at hk ⊢
    rcases hprompt k hk with hk | rfl
    · obtain ⟨q, hq⟩ := h.sent k hk
      exact ⟨q, List.mem_append_left _ hq⟩
    · exact ⟨m, List.mem_append_right _ (List.mem_singleton.mpr rfl)⟩
  · exact fun k _ hk => absurd hk (hnone k)
  · exact fun hf => (hfailed hf).elim
  · exact fun hf => (hfailed hf).elim
  · exact fun hf => (hfailed hf).elim
  · exact fun k _ hk => absurd hk (hnone k)
  · intro k hk request' status he
    have hne : k ≠ n := fun hkn => by
      rw [hkn, hself] at he
      cases he
    rw [hlog] at hk ⊢
    exact h.own k ((hprompt k hk).resolve_right hne) request' status ((hother hne).symm.trans he)

theorem authRequest_mem_of_append {asked : List (Nat × Message)} {op : Operation} {id : RequestId}
    (h : (k, Message.authRequest username password) ∈ asked ++ [(n, op.request id)]) :
    (k, Message.authRequest username password) ∈ asked := by
  rcases List.mem_append.mp h with h | h
  · exact h
  · obtain ⟨-, hm⟩ := Prod.mk.inj (List.mem_singleton.mp h)
    cases op <;> cases hm

theorem View.not_inFlight (before : v.call n = some (request, s)) (hs : s.Aloof request) : ¬ v.InFlight n := by
  rintro ⟨username, password, he⟩
  obtain ⟨rfl, rfl⟩ := Prod.mk.inj (Option.some.inj (before.symm.trans he))
  exact hs

/-- Each event keeps the statuses of logins apart, as long as no write fails. -/
theorem greeted_change (h : v.Greeted) (ha : ∀ n, v.Accounted listing events n) (hr : v.Routed)
    (hc : Change listing v e w) : w.Greeted := by
  have halone {n : Nat} (hn : ∀ m username password id, v.call m ≠ some (.logIn username password, .waiting id)) :
      ¬ v.InFlight n := fun ⟨username, password, he⟩ => hn n username password none he
  cases hc with
  | kept => exact h
  | @called n request before =>
      have hnot : ¬ v.InFlight n := fun ⟨_, _, he⟩ => by cases before.symm.trans he
      exact h.stand (t := .new) (List.Subset.refl _) (fun _ _ _ hm => hm) (fun hf => ⟨hf, rfl⟩) hnot trivial
  | numbered before | refused before =>
      exact h.stand (List.Subset.refl _) (fun _ _ _ hm => hm) (fun hf => ⟨hf, rfl⟩) (View.not_inFlight before trivial)
        trivial
  | @unencodable n written request m id error sends unframed =>
      have hnot : ¬ v.InFlight n := by
        cases sends with
        | perform before => exact View.not_inFlight before trivial
        | logIn before alone => exact halone alone
      exact h.stand (List.Subset.refl _) (fun _ _ _ hm => hm) (fun hf => ⟨hf, rfl⟩) hnot trivial
  | sent sends =>
      cases sends with
      | perform before =>
          exact h.stand (List.subset_append_left _ _) (fun _ _ _ hm => authRequest_mem_of_append hm)
            (fun hf => ⟨hf, rfl⟩) (View.not_inFlight before trivial) trivial
      | logIn before alone =>
          have hasked := ((ha _).fits _ _ before).2
          exact h.send (fun _ => halone alone) hasked ((ha _).notMem_read hasked)
  | failed sends =>
      cases sends with
      | perform before =>
          refine h.stand (List.subset_append_left _ _) (fun _ _ _ hm => authRequest_mem_of_append hm) (fun hf => ?_)
            (View.not_inFlight before trivial) trivial
          cases hf
      | logIn before alone =>
          refine h.fail (fun _ => halone alone) (fun k hk => ?_) _ _
          split at hk
          · simpa using hk
          · exact .inl hk
  | taken before found =>
      exact h.stand (List.Subset.refl _) (fun _ _ _ hm => hm) (fun hf => ⟨hf, rfl⟩) (View.not_inFlight before trivial)
        trivial
  | welcomed before found => exact h.welcome before found
  | @gaveUp n request id before nothing quiet down =>
      by_cases hn : v.InFlight n
      · obtain ⟨username, password, he⟩ := hn
        cases before.symm.trans he
        exact h.giveUp before (quiet rfl) down _
      · exact h.stand (List.Subset.refl _) (fun _ _ _ hm => hm) (fun hf => ⟨hf, rfl⟩) hn trivial
  | @heard n id reply rest first answer reading =>
      refine h.keep rfl (List.Subset.refl _) (fun _ _ _ hm => hm) (List.subset_append_left _ _) (fun k status hm => ?_)
        rfl (fun hr => hr) (fun _ => Iff.rfl) (fun hf => hf) h.down (fun _ _ _ he => he)
      rcases List.mem_append.mp hm with hm | hm
      · exact hm
      · cases List.mem_singleton.mp hm
        cases answer
  | greeted first reading => exact h.greet ha hr first reading
  | lost =>
      exact h.keep rfl (List.Subset.refl _) (fun _ _ _ hm => hm) (List.Subset.refl _) (fun _ _ hm => hm) rfl
        (fun hr => by cases hr) (fun _ => Iff.rfl) (fun hf => hf) (fun _ _ => rfl) (fun _ _ _ he => he)
  | answered asked once answer =>
      exact h.keep rfl (List.Subset.refl _) (fun _ _ _ hm => hm) (List.Subset.refl _) (fun _ _ hm => hm) rfl
        (fun hr => hr) (fun _ => Iff.rfl) (fun hf => hf) h.down (fun _ _ _ he => he)

end AwaitStore.Client
