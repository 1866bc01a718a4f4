import KemMake.Posting
import KemMake.Bounds

/-!
# What a fork inherits

The template of a cid keeps the last payload posted to it, and each fork takes a copy of that
one. A fork opened before a second payload was posted carries all of them to its promotion.
-/

namespace KemMake

variable {β π : Type} {P : Primitives β π}

namespace Session
variable {s s' : Session β π} {log log' : List (EncryptCall β)} {posted : List (List β)}

theorem takenEncrypts_length [DecidableEq β] [DecidableEq π] (hP : P.Correct) (s : Session β π)
    (now : Int) (e : Entropy β) : (s.takenEncrypts P e).length ≤ 1 := by
  have ht := takeIncoming_encrypting hP.encrypt_ne_nil s now e
  generalize s.takenEncrypts P e = calls at ht
  generalize (s.takeIncoming P now e).1 = s', (s.takeIncoming P now e).2 = x at ht
  cases ht with
  | nothing => exact Nat.zero_le 1
  | completed => cases s.pendingPayload <;> simp
  | called => exact Nat.le_refl 1

theorem pendingEncrypts_length (s : Session β π) : s.pendingEncrypts.length ≤ 1 := by
  unfold pendingEncrypts
  split <;> simp

theorem encrypts_length [DecidableEq β] [DecidableEq π] (hP : P.Correct) (s : Session β π)
    (now : Int) (e : Entropy β) : (s.encrypts P now e).length ≤ 2 := by
  have ht := takenEncrypts_length hP s now e
  unfold encrypts
  split
  · exact Nat.zero_le 2
  · split
    · omega
    · rename_i s₁ _
      have hp := pendingEncrypts_length s₁
      rw [List.length_append]
      omega

/-! ## The only call of a fork -/

/-- An initiator that waits for a completion response has made one call, for c_m. -/
def CalledOnce (s : Session β π) (log : List (EncryptCall β)) : Prop :=
  s.state = .expectSessionCompletionResponse →
    ∃ call, log = [call] ∧ s.sentPlaintextForHM = some call.plaintext

section
variable {now : Int} {e : Entropy β} {x : Option PyError}

theorem CalledOnce.congr (h : s.CalledOnce log) (hs : s'.state = s.state ∨
    s'.state ≠ .expectSessionCompletionResponse)
    (ht : s'.sentPlaintextForHM = s.sentPlaintextForHM) : s'.CalledOnce log := by
  intro hstate
  obtain hs | hs := hs
  · rw [ht]
    exact h (hs ▸ hstate)
  · exact absurd hstate hs

theorem CalledOnce.took {calls : List (EncryptCall β)} (ht : TookEncrypting P s now e s' x calls)
    (hn : s.Numbered P log) (h : s.CalledOnce log) : s'.CalledOnce (log ++ calls) := by
  cases ht with
  | nothing ht hst =>
    rw [List.append_nil]
    cases ht with
    | idle | ignored | undecoded | refused => exact h.congr (.inl rfl) rfl
    | resent =>
      rw [resend_eq]
      exact h.congr (.inl rfl) rfl
    | answered => exact h.congr (.inr (by simp [acceptInitRequest])) rfl
    | completed => exact h.congr (.inr (by simp [acceptCompletion])) rfl
    | called _ _ _ hs =>
      have := hst (.inl hs)
      simp [acceptInitResponse, hs] at this
    | confirmed => exact h.congr (.inr (by simp [acceptReply])) rfl
    | replied => exact h.congr (.inr (by simp [acceptReply])) rfl
    | received =>
      rw [countReceived_eq]
      exact h.congr (.inl rfl) rfl
  | completed =>
    intro hstate
    cases hstate
  | called _ _ _ hs =>
    have hnil := hn.silent (hn.unkeyed (.inr (.inl hs)))
    subst hnil
    exact fun _ => ⟨_, rfl, rfl⟩

theorem CalledOnce.sent (hs : Sent P s s' x) (h : s.CalledOnce log) :
    s'.CalledOnce (log ++ s.pendingEncrypts) := by
  intro hstate
  have hne : s.state ≠ .established := by
    rw [← hs.frame.1, hstate]
    simp
  rw [pendingEncrypts_idle (.inl hne), List.append_nil]
  cases hs with
  | idle => exact h hstate
  | failed hest | message hest => exact absurd hest hne

theorem CalledOnce.ticked (hk : Ticked s now s') (h : s.CalledOnce log) : s'.CalledOnce log := by
  cases hk with
  | idle => exact h
  | dropped => exact h.congr (.inr (by simp)) rfl
  | retried =>
    rw [resend_eq]
    exact h.congr (.inl rfl) rfl

end

section
variable [DecidableEq β] [DecidableEq π]

theorem Logged.calledOnce (hP : P.Correct) (hl : s.Logged P log) : s.CalledOnce log := by
  induction hl with
  | new role =>
    intro hstate
    cases hstate
  | fork _ hf =>
    obtain ⟨_, _, _, rfl⟩ := fork_ok.mp hf
    intro hstate
    cases hstate
  | @initiate s log peerKeyId now e hl ih =>
    unfold Session.initiate
    split
    · exact ih
    split
    · exact ih
    cases s.ownKeyId with
    | none => exact ih.congr (.inl rfl) rfl
    | some ownKeyId =>
      simp only [sendInitRequest]
      split
      · exact ih.congr (.inl rfl) rfl
      split
      · exact ih.congr (.inl rfl) rfl
      split
      · exact ih.congr (.inl rfl) rfl
      split
      · exact ih.congr (.inl rfl) rfl
      · exact ih.congr (.inr (by simp)) rfl
  | postPdu der _ ih => exact ih
  | postPayload payload _ ih =>
    rw [postPayload_eq]
    exact ih.congr (.inl rfl) rfl
  | getPdu _ ih =>
    unfold Session.getPdu
    split
    · exact ih
    · exact ih.congr (.inl rfl) rfl
  | getPayload _ ih =>
    unfold Session.getPayload
    split
    · exact ih
    · exact ih.congr (.inl rfl) rfl
  | update now e hl ih =>
    exact (update_encrypting hP.encrypt_ne_nil (I := fun s log => s.Numbered P log ∧ s.CalledOnce log)
      (fun _ _ _ _ ht h => ⟨h.1.took hP ht, h.2.took ht h.1⟩)
      (fun _ _ _ _ hs h => ⟨h.1.sent hs, h.2.sent hs⟩)
      (fun _ _ _ _ hk h => ⟨h.1.ticked hk, h.2.ticked hk⟩) ⟨hl.numbered hP, ih⟩).2

/-- Until its confirmation a fork's state says what it has encrypted. -/
theorem Logged.spoken_eq (hP : P.Correct) (hl : s.Logged P log) (hl' : s.Logged P log')
    (hs : s.state = .expectSessionInitResponse ∨ s.state = .expectSessionCompletionResponse) :
    log.length ≤ 1 ∧ spoken log = spoken log' := by
  have hn := hl.numbered hP
  have hn' := hl'.numbered hP
  rcases hs with hs | hs
  · have hkeys := hn.unkeyed (.inr (.inl hs))
    rw [hn.silent hkeys, hn'.silent hkeys]
    exact ⟨Nat.zero_le 1, rfl⟩
  · obtain ⟨call, rfl, htext⟩ := hl.calledOnce hP hs
    obtain ⟨call', rfl, htext'⟩ := hl'.calledOnce hP hs
    rw [htext] at htext'
    refine ⟨Nat.le_refl 1, ?_⟩
    simp only [spoken, List.flatMap_cons, List.flatMap_nil, Option.some.inj htext']

/-! ## What a fork carries -/

/-- The session is dropped, or what it has encrypted and what it holds is what was posted. -/
def Carries (P : Primitives β π) (posted : List (List β)) (s : Session β π) : Prop :=
  s.state ≠ .dropped → ∃ log, s.Logged P log ∧ s.Spends log posted

theorem Spends.update (hP : P.Correct) (hl : s.Logged P log) (h : s.Spends log posted) (now : Int)
    (e : Entropy β) : (s.update P now e).1.Spends (log ++ s.encrypts P now e) posted :=
  (update_encrypting hP.encrypt_ne_nil
    (I := fun s log => s.Numbered P log ∧ s.Receptive log ∧ s.Spends log posted)
    (fun _ _ _ _ ht h => ⟨h.1.took hP ht, h.2.1.took ht h.1, h.2.2.took h.2.1 ht⟩)
    (fun _ _ _ _ hs h => ⟨h.1.sent hs, h.2.1.sent hs, h.2.2.sent h.1 h.2.1 hs⟩)
    (fun _ _ _ _ hk h => ⟨h.1.ticked hk, h.2.1.ticked hk, h.2.2.ticked hk⟩)
    ⟨hl.numbered hP, hl.receptive hP, h⟩).2.2

theorem Carries.update (hP : P.Correct) (h : s.Carries P posted) (now : Int) (e : Entropy β) :
    (s.update P now e).1.Carries P posted := by
  by_cases hd : s.state = .dropped
  · rw [update_dropped hd]
    exact fun hne => absurd hd hne
  · intro _
    obtain ⟨log, hl, hspends⟩ := h hd
    exact ⟨_, hl.update now e, hspends.update hP hl now e⟩

theorem Carries.postPdu (h : s.Carries P posted) (der : π) : (s.postPdu der).Carries P posted := by
  intro hd
  obtain ⟨log, hl, hspends⟩ := h hd
  exact ⟨log, hl.postPdu der, hspends⟩

/-- Queues are emptied one by one. -/
theorem Logged.drained (hl : s.Logged P log) : Logged P s.drained log := by
  have hpdus : ∀ (pdus : List π) (s : Session β π), s.outgoingPdus = pdus → s.Logged P log →
      Logged P { s with outgoingPdus := [] } log := by
    intro pdus
    induction pdus with
    | nil =>
      intro s hq hl
      rw [← hq]
      exact hl
    | cons pdu rest ih =>
      intro s hq hl
      have hget : s.getPdu.1 = { s with outgoingPdus := rest } := by
        unfold Session.getPdu
        rw [hq]
      exact ih { s with outgoingPdus := rest } rfl (hget ▸ hl.getPdu)
  have hpayloads : ∀ (payloads : List (List β)) (s : Session β π), s.outgoingPayloads = payloads →
      s.Logged P log → Logged P { s with outgoingPayloads := [] } log := by
    intro payloads
    induction payloads with
    | nil =>
      intro s hq hl
      rw [← hq]
      exact hl
    | cons payload rest ih =>
      intro s hq hl
      have hget : s.getPayload.1 = { s with outgoingPayloads := rest } := by
        unfold Session.getPayload
        rw [hq]
      exact ih { s with outgoingPayloads := rest } rfl (hget ▸ hl.getPayload)
  exact hpayloads _ _ rfl (hpdus _ s rfl hl)

theorem Carries.drained (h : s.Carries P posted) : s.drained.Carries P posted := by
  intro hd
  obtain ⟨log, hl, hspends⟩ := h hd
  exact ⟨log, hl.drained, hspends⟩

theorem Carries.postPayload (h : s.Carries P posted)
    (hp : s.state ≠ .dropped → s.pendingPayload = none) {payload : List β} (hne : payload ≠ []) :
    (s.postPayload payload).1.Carries P (posted ++ [payload]) := by
  intro hd
  have hd : s.state ≠ .dropped := by
    rw [postPayload_eq] at hd
    exact hd
  obtain ⟨log, hl, hspends⟩ := h hd
  refine ⟨log, hl.postPayload payload, ?_⟩
  rw [Spends, hp hd, Option.toList_none, List.append_nil] at hspends
  simp [Spends, postPayload_eq, hne, hspends]

/-- A fork carries what its template holds. -/
theorem Logged.carries_fork (hl : s.Logged P log) {twin : Session β π} (hf : s.fork = .ok twin)
    (hp : s.pendingPayload.toList = posted) : twin.Carries P posted := by
  refine fun _ => ⟨[], hl.fork hf, ?_⟩
  obtain ⟨_, _, _, rfl⟩ := fork_ok.mp hf
  exact hp.symm

end

end Session

namespace Dispatcher
variable [DecidableEq β]

/-- What the tables hold under the cid `c` before a fork of it is promoted. -/
def Inherits [DecidableEq π] (P : Primitives β π) (c : List β) (posted : List (List β))
    (j : List β) (t : Slot) (s : Session β π) : Prop :=
  j = c → match t with
    | .established | .responder => False
    | .template => s.pendingPayload = posted.getLast? ∧ ∃ log, s.Logged P log
    | .fork => s.Carries P posted

section
variable [DecidableEq π] {c : List β} {posted : List (List β)} {d d' : Dispatcher β π}
  {s : Session β π} {der : π} {now : Int} {e : Entropy β} {msg : MakeMessage β}

omit [DecidableEq π] in
theorem Beside.holds (hb : Beside c now d d') {t : Slot} : d'.Holds c t s ↔ d.Holds c t s := by
  cases t with
  | established => exact iff_of_eq (congrArg (· = some s) hb.established)
  | responder => exact iff_of_eq (congrArg (· = some s) hb.responder)
  | template => exact iff_of_eq (congrArg (· = some s) hb.template)
  | fork =>
    simp only [Holds]
    rw [hb.fork]

theorem Beside.inherits (hb : Beside c now d d') (h : Kept (Inherits P c posted) (fun _ => True) d) :
    Kept (Inherits P c posted) (fun _ => True) d' := by
  refine kept_of_holds (fun j t s hs hj => ?_) fun _ _ => trivial
  subst hj
  exact h.holds (hb.holds.mp hs) rfl

theorem Kept.unestablished (h : Kept (Inherits P c posted) (fun _ => True) d) :
    d.established.get? c = none := by
  cases he : d.established.get? c with
  | none => rfl
  | some s => exact (h.established c s he rfl).elim

theorem Kept.unanswered (h : Kept (Inherits P c posted) (fun _ => True) d) :
    d.responderSessions.get? c = none := by
  cases hr : d.responderSessions.get? c with
  | none => rfl
  | some s => exact (h.responder c s hr rfl).elim

/-! ## The crank -/

theorem inherits_handled : Handled (fun j t s => Tidy P j t s ∧ Inherits P c posted j t s)
    (fun _ : π => True) where
  sent _ _ _ _ _ _ := trivial
  drained j t s h := by
    refine ⟨tidy_handled.drained j t s h.1, fun hj => ?_⟩
    have hi := h.2 hj
    cases t with
    | established | responder => exact hi
    | template => exact ⟨hi.1, hi.2.elim fun log hl => ⟨log, hl.drained⟩⟩
    | fork => exact Session.Carries.drained hi
  establish j t s h hs := by
    refine ⟨tidy_handled.establish j t s h.1 hs, fun hj => ?_⟩
    have hi := h.2 hj
    cases t with
    | established | responder => exact hi
    | template =>
      have := h.1.1.2.1
      simp [hs] at this
    | fork =>
      have := h.1.1.2.1
      simp [hs] at this

/-- No crank establishes a fork. -/
theorem inherits_update (hP : P.Correct) (hT : Kept (Tidy P) (fun _ => True) d)
    (h : Kept (Inherits P c posted) (fun _ => True) d) (now : Int) (e : Entropy β) :
    Kept (Inherits P c posted) (fun _ => True) (d.update P now e).1 := by
  have hboth : Kept (fun j t s => Tidy P j t s ∧ Inherits P c posted j t s) (fun _ => True) d :=
    kept_of_holds (fun j t s hs => ⟨hT.holds hs, h.holds hs⟩) fun _ _ => trivial
  have hU : ∀ j t (s : Session β π), t ≠ .template → Tidy P j t s ∧ Inherits P c posted j t s →
      Left (fun j t s => Tidy P j t s ∧ Inherits P c posted j t s) j t (s.update P now e) := by
    intro j t s ht hs
    by_cases hj : j = c
    · have hi := hs.2 hj
      cases t with
      | established | responder => exact hi.elim
      | template => exact absurd rfl ht
      | fork =>
        have hne := (update_returns hs.1 hs.1.1.not_established now e).2
        exact .inl ⟨(tidy_update hP hs.1 ht).of_state hne,
          fun _ => Session.Carries.update hP hi now e⟩
    · have htidy : Left (Tidy P) j t (s.update P now e) := tidy_update hP hs.1 ht
      rcases htidy with hleft | ⟨hready, hleft⟩
      · exact .inl ⟨hleft, fun heq => absurd heq hj⟩
      · exact .inr ⟨hready, hleft, fun heq => absurd heq hj⟩
  exact (kept_update inherits_handled hU hboth).mono (fun _ _ _ hs => hs.2) fun _ => id

/-! ## One PDU -/

theorem resendFork_forks {R : Session β π → Prop} {forks : List (Session β π)}
    (hf : ∀ fork ∈ forks, R fork)
    (hd : ∀ fork ∈ forks, R (d.deliver P fork der now c e).2.1)
    {r : Dispatcher β π × List (Session β π) × Option PyError}
    (hr : d.resendFork P der now c e forks = some r) : ∀ fork ∈ r.2.1, R fork := by
  induction forks generalizing r with
  | nil => cases hr
  | cons fork rest ih =>
    obtain ⟨hfork, hrest⟩ := List.forall_mem_cons.mp hf
    obtain ⟨hdfork, hdrest⟩ := List.forall_mem_cons.mp hd
    unfold resendFork at hr
    split at hr
    · cases hr
      exact List.forall_mem_cons.mpr ⟨hdfork, hrest⟩
    · cases hrec : d.resendFork P der now c e rest with
      | none => simp [hrec] at hr
      | some q =>
        rw [hrec] at hr
        cases hr
        exact List.forall_mem_cons.mpr ⟨hfork, ih hrest hdrest hrec⟩

theorem offer_forks {R : Session β π → Prop} {forks : List (Session β π)}
    (hf : ∀ fork ∈ forks, R fork)
    (hu : ∀ fork ∈ forks, R ((fork.postPdu der).update P now e).1) :
    ∀ fork ∈ (offer P der now e forks).1, R fork := by
  induction forks with
  | nil => simp [offer]
  | cons fork rest ih =>
    obtain ⟨hfork, hrest⟩ := List.forall_mem_cons.mp hf
    obtain ⟨hufork, hurest⟩ := List.forall_mem_cons.mp hu
    have hih := ih hrest hurest
    unfold offer
    rcases hs : (fork.postPdu der).update P now e with ⟨s', x | r⟩ <;> rw [hs] at hufork
    · simp only
      split
      · exact List.forall_mem_cons.mpr ⟨hufork, hih⟩
      · exact List.forall_mem_cons.mpr ⟨hufork, hrest⟩
    · simp only
      split
      · exact List.forall_mem_cons.mpr ⟨hufork, hrest⟩
      · exact List.forall_mem_cons.mpr ⟨hufork, hih⟩

theorem carries_deliver (hP : P.Correct) (hs : s.Carries P posted) (d : Dispatcher β π) (der : π)
    (now : Int) (j : List β) (e : Entropy β) :
    (d.deliver P s der now j e).2.1.Carries P posted := by
  have hu := (hs.postPdu der).update hP now e
  obtain ⟨x, _, _, hd⟩ | ⟨_, hd⟩ := deliver_cases P d s der now j e
  · rw [hd]
    exact hu
  · rw [hd]
    exact hu.drained

/-- The queues and the entries of the store do not matter. -/
theorem Kept.withQueues (h : Kept (Inherits P c posted) (fun _ => True) d)
    (candidates : CandidateStore β π) (outgoingPdus : List π)
    (outgoingPayloads : List (List β × List β)) :
    Kept (Inherits P c posted) (fun _ => True)
      { d with candidates, outgoingPdus, outgoingPayloads } :=
  ⟨h.established, h.responder, h.template, h.fork, fun _ _ => trivial⟩

/-- A response opens a fork. -/
def OpensFork (d : Dispatcher β π) (msg : MakeMessage β) (der : π) (now : Int) : Prop :=
  msg.payload.name = .sessionInitResponse ∧ d.Opens msg der ∧ d.candidates.Admits msg.cid now

theorem inherits_openFork (hP : P.Correct) (h : Kept (Inherits P c posted) (fun _ => True) d)
    (ht : d.initiatorTemplates.get? c = some s)
    (hlast : d.candidates.Admits c now → posted.length ≤ 1) :
    Kept (Inherits P c posted) (fun _ => True) (d.openFork P s der now c e).1 := by
  obtain ⟨hpending, log, hl⟩ := h.template c s ht rfl
  unfold openFork
  rcases ha : d.candidates.add c der P.noPdu now with ⟨candidates, x | candidate⟩
  · exact h.withCandidates candidates
  · have hone := hlast ((CandidateStore.add_admits d.candidates c der P.noPdu now).mp
      ⟨candidate, by rw [ha]⟩)
    have hheld : s.pendingPayload.toList = posted := by
      rw [hpending]
      match posted, hone with
      | [], _ => rfl
      | [payload], _ => rfl
    simp only
    split
    · exact h.withCandidates candidates
    · rename_i twin htwin
      have hcarries := carries_deliver hP (hl.carries_fork htwin hheld) { d with candidates } der
        now c e
      obtain ⟨outgoingPdus, outgoingPayloads, hd⟩ :=
        deliver_queues P { d with candidates } twin der now c e
      rcases hu : Dispatcher.deliver P { d with candidates } twin der now c e with ⟨d', s', x⟩
      rw [hu] at hd hcarries
      cases hd
      have hforks : ∀ fork ∈ (d.initiatorForks.get? c).getD [] ++ [s'],
          Inherits P c posted c .fork fork := by
        intro fork hmem _
        rcases List.mem_append.mp hmem with hmem | hmem
        · cases hf : d.initiatorForks.get? c with
          | none => simp [hf] at hmem
          | some forks => exact h.fork c forks hf fork (by simpa [hf] using hmem) rfl
        · rw [List.mem_singleton.mp hmem]
          exact hcarries
      have hset := (h.withQueues candidates outgoingPdus outgoingPayloads).setForks hforks
      cases x with
      | some x => exact hset
      | none => exact hset.withCandidates _

/-- Every fork but the one that wins is left as its own calls leave it. -/
theorem inherits_routeToForks (hP : P.Correct) (h : Kept (Inherits P c posted) (fun _ => True) d)
    {forks : List (Session β π)} (hf : d.initiatorForks.get? c = some forks) :
    Kept (Inherits P c posted) (fun _ => True) (d.routeToForks P c forks der now e).1 ∨
      ∃ fork ∈ forks, (d.routeToForks P c forks der now e).1.established.get? c =
        some ((fork.postPdu der).update P now e).1.drained := by
  have hcarries : ∀ fork ∈ forks, fork.Carries P posted := fun fork hmem =>
    h.fork c forks hf fork hmem rfl
  have hoffer : ∀ fork ∈ (offer P der now e forks).1, fork.Carries P posted :=
    offer_forks hcarries fun fork hmem => ((hcarries fork hmem).postPdu der).update hP now e
  unfold routeToForks
  rcases ho : offer P der now e forks with ⟨forks', contest⟩
  rw [ho] at hoffer
  cases contest with
  | «open» => exact .inl (h.setForks fun fork hmem _ => hoffer fork hmem)
  | raised x => exact .inl (h.setForks fun fork hmem _ => hoffer fork hmem)
  | won winner =>
    obtain ⟨fork, hmem, rfl⟩ := offer_winner ho
    exact .inr ⟨fork, hmem, Dict.get?_set_self ..⟩

theorem inherits_postPdu (hP : P.Correct) (h : Kept (Inherits P c posted) (fun _ => True) d)
    (hname : ∀ msg, P.load der = .ok msg → msg.cid = c → msg.payload.name ≠ .sessionInitRequest)
    (hlast : ∀ msg, P.load der = .ok msg → msg.cid = c → d.OpensFork msg der now →
      posted.length ≤ 1) :
    Kept (Inherits P c posted) (fun _ => True) (d.postPdu P der now e).1 ∨
      ∃ forks, d.initiatorForks.get? c = some forks ∧ ∃ fork ∈ forks,
        (d.postPdu P der now e).1.established.get? c =
          some ((fork.postPdu der).update P now e).1.drained := by
  by_cases hc : ∀ msg, P.load der = .ok msg → msg.cid ≠ c
  · exact .inl ((beside_postPdu hc d now e).inherits h)
  have hmsg : ∃ msg, P.load der = .ok msg ∧ msg.cid = c := by
    simpa only [not_forall, not_not, exists_prop] using hc
  obtain ⟨msg, hl, rfl⟩ := hmsg
  have hname := hname msg hl rfl
  have hlast := hlast msg hl rfl
  simp only [postPdu, hl, h.unestablished, h.unanswered]
  split
  · exact absurd ‹_› hname
  · rename_i hresp
    left
    unfold routeSessionInitResponse
    split
    · exact h
    · rename_i template ht
      have hcarries : ∀ fork ∈ (d.initiatorForks.get? msg.cid).getD [], fork.Carries P posted := by
        intro fork hmem
        cases hf : d.initiatorForks.get? msg.cid with
        | none => simp [hf] at hmem
        | some forks => exact h.fork msg.cid forks hf fork (by simpa [hf] using hmem) rfl
      split
      · rename_i d' forks x hr
        obtain ⟨_, outgoingPdus, outgoingPayloads, hd⟩ := resendFork_length hr
        have hforks : ∀ fork ∈ forks, fork.Carries P posted := resendFork_forks hcarries
          (fun fork hmem => carries_deliver hP (hcarries fork hmem) d der now msg.cid e) hr
        cases hd
        exact (h.withQueues d.candidates outgoingPdus outgoingPayloads).setForks
          fun fork hmem _ => hforks fork hmem
      · rename_i hr
        refine inherits_openFork hP h ht fun hadm => hlast ⟨hresp, ?_, hadm⟩
        simp only [Opens, hresp]
        exact ⟨by simp [ht], resendFork_none hr⟩
  · split
    · rename_i forks hf
      obtain hk | ⟨fork, hmem, hwon⟩ := inherits_routeToForks hP h hf
      · exact .inl hk
      · exact .inr ⟨forks, hf, fork, hmem, hwon⟩
    · exact .inl h

/-! ## The other calls -/

/-- No live fork holds a payload, and without a fork the template holds none. -/
def Clear (d : Dispatcher β π) (c : List β) : Prop :=
  (∀ fork ∈ d.forksOf c, fork.state ≠ .dropped → fork.pendingPayload = none) ∧
    (d.forksOf c = [] → ∀ s, d.initiatorTemplates.get? c = some s → s.pendingPayload = none)

/-- The payload that the call posts to `c`. -/
def posts (d : Dispatcher β π) (c : List β) : Op β π → List (List β)
  | .postPayload j payload =>
    if j = c ∧ (d.postPayload j payload).2.isNone then [payload] else []
  | _ => []

theorem inherits_postPayload (h : Kept (Inherits P c posted) (fun _ => True) d) (hc : d.Clear c)
    (payload : List β) :
    Kept (Inherits P c (posted ++ d.posts c (.postPayload c payload))) (fun _ => True)
      (d.postPayload c payload).1 := by
  simp only [posts, true_and]
  unfold postPayload
  simp only [h.unestablished, h.unanswered]
  cases ht : d.initiatorTemplates.get? c with
  | none => simpa using h
  | some template =>
    obtain ⟨_, log, hl⟩ := h.template c template ht rfl
    by_cases hempty : payload = []
    · simpa [Session.postPayload, hempty] using h
    · have hpost : template.postPayload payload =
          ({ template with pendingPayload := some payload }, none) := by
        simp only [Session.postPayload, hempty, ↓reduceIte]
      have hl := hl.postPayload payload
      rw [hpost] at hl
      -- the other cids are held as before
      have hrest : Kept (Inherits P c (posted ++ [payload])) (fun _ => True)
          { d with
            initiatorTemplates := d.initiatorTemplates.set c
              { template with pendingPayload := some payload }
            initiatorForks := d.initiatorForks.set c
              ((d.forksOf c).map fun fork => (fork.postPayload payload).1) } := by
        refine kept_of_holds (fun j t s hs hj => ?_) fun _ _ => trivial
        subst hj
        cases t with
        | established => exact h.established j s hs rfl
        | responder => exact h.responder j s hs rfl
        | template =>
          simp only [Holds, Dict.get?_set_self, Option.some.injEq] at hs
          subst hs
          exact ⟨by simp, log, hl⟩
        | fork =>
          obtain ⟨forks, hf, hmem⟩ := hs
          simp only [Dict.get?_set_self, Option.some.injEq] at hf
          subst hf
          obtain ⟨fork, hfork, rfl⟩ := List.mem_map.mp hmem
          have hcarries : fork.Carries P posted := by
            unfold forksOf at hfork
            cases hf : d.initiatorForks.get? j with
            | none => simp [hf] at hfork
            | some forks => exact h.fork j forks hf fork (by simpa [hf] using hfork) rfl
          exact hcarries.postPayload (hc.1 fork hfork) hempty
      simp only [hpost]
      cases hf : d.initiatorForks.get? c with
      | none =>
        simp only [Option.isNone_none, ↓reduceIte]
        refine hrest.shrink (fun _ _ => id) (fun _ _ => id) (fun _ _ => id) (fun j s hs => ?_)
          fun _ => id
        have hj : j ≠ c := by
          intro hj
          simp [hj, hf] at hs
        simpa only [Dict.get?_set_of_ne _ hj] using hs
      | some forks =>
        simp only [Option.isNone_none, ↓reduceIte]
        rwa [forksOf, hf, Option.getD_some] at hrest

/-- The calls on a dispatcher that has called under `c`: its own further calls draw other cids,
no request comes under `c`, and payloads for `c` are posted one at a time. -/
def Courteous (P : Primitives β π) (c : List β) (d : Dispatcher β π) : Op β π → Prop
  | .initiate _ _ _ e => e.uuid ≠ c
  | .postPdu der _ _ =>
    ∀ msg, P.load der = .ok msg → msg.cid = c → msg.payload.name ≠ .sessionInitRequest
  | .postPayload j _ => j = c → d.Clear c
  | _ => True

/-- No fork is opened once two payloads have been posted. -/
def Timely (P : Primitives β π) (c : List β) (posted : List (List β)) (d : Dispatcher β π) :
    Op β π → Prop
  | .postPdu der now _ =>
    ∀ msg, P.load der = .ok msg → msg.cid = c → d.OpensFork msg der now → posted.length ≤ 1
  | _ => True

/-- One call, which may end with the promotion of a fork. -/
theorem inherits_step (hP : P.Correct) (hT : Kept (Tidy P) (fun _ => True) d)
    (h : Kept (Inherits P c posted) (fun _ => True) d) {op : Op β π} (hop : Courteous P c d op)
    (ht : Timely P c posted d op) :
    Kept (Inherits P c (posted ++ d.posts c op)) (fun _ => True) (d.step P op) ∨
      ∃ der now e forks, op = .postPdu der now e ∧ d.initiatorForks.get? c = some forks ∧
        ∃ fork ∈ forks, (d.step P op).established.get? c =
          some ((fork.postPdu der).update P now e).1.drained := by
  have hquiet : d.posts c op = [] → Kept (Inherits P c posted) (fun _ => True) (d.step P op) →
      Kept (Inherits P c (posted ++ d.posts c op)) (fun _ => True) (d.step P op) := by
    intro hnone hk
    rwa [hnone, List.append_nil]
  cases op with
  | initiate own peer now e => exact .inl (hquiet rfl ((beside_initiate now d own peer hop).inherits h))
  | postPdu der now e =>
    have hposted : Kept (Inherits P c posted) (fun _ => True) (d.postPdu P der now e).1 ∨
        ∃ forks, d.initiatorForks.get? c = some forks ∧ ∃ fork ∈ forks,
          (d.postPdu P der now e).1.established.get? c =
            some ((fork.postPdu der).update P now e).1.drained := inherits_postPdu hP h hop ht
    obtain hk | ⟨forks, hf, fork, hmem, hwon⟩ := hposted
    · exact .inl (hquiet rfl hk)
    · exact .inr ⟨der, now, e, forks, rfl, hf, fork, hmem, hwon⟩
  | postPayload j payload =>
    by_cases hj : j = c
    · subst hj
      exact .inl (inherits_postPayload h (hop rfl) payload)
    · have hnone : d.posts c (.postPayload j payload) = [] := by simp [posts, hj]
      exact .inl (hquiet hnone
        ((beside_postPayload 0 d (fun heq => hj heq.symm) payload).inherits h))
  | getPdu => exact .inl (hquiet rfl (kept_getPdu h))
  | getPayload => exact .inl (hquiet rfl (kept_getPayload h))
  | close j => exact .inl (hquiet rfl (kept_close h j))
  | update now e => exact .inl (hquiet rfl (inherits_update hP hT h now e))

/-! ## Runs -/

/-- The calls from `initiate` of `c` until a fork of it is promoted, each of which meets `ok`,
with the payloads posted. -/
inductive Attempt (P : Primitives β π) (ok : List (List β) → Dispatcher β π → Op β π → Prop)
    (c : List β) : List (List β) → Dispatcher β π → Prop
  | opened {keys config limits} {own peer : KeyId β} {now : Int} {e : Entropy β}
      {d d' : Dispatcher β π} :
      Run P (fun _ _ => True) (new keys config limits) d → d.established.get? c = none →
      d.responderSessions.get? c = none → d.initiate P own peer now e = (d', .ok c) →
      Attempt P ok c [] d'
  | step {posted : List (List β)} {d : Dispatcher β π} (op : Op β π) : Attempt P ok c posted d → d.established.get? c = none →
      Courteous P c d op → ok posted d op → Attempt P ok c (posted ++ d.posts c op) (d.step P op)

theorem inherits_initiate {own peer : KeyId β} (he : d.established.get? c = none)
    (hr : d.responderSessions.get? c = none) (hi : d.initiate P own peer now e = (d', .ok c)) :
    Kept (Inherits P c []) (fun _ => True) d' := by
  unfold initiate at hi
  split at hi
  · cases hi
  · rename_i primary hp
    obtain ⟨_, s1, ct1, _, _, heq⟩ := Session.initiate_ok hp
    have hl : primary.Logged P [] := by
      have := (Session.Logged.new (P := P) .initiator (some own) d.keys d.config).initiate peer now e
      rwa [hp] at this
    subst heq
    simp only [Session.calling, Prod.mk.injEq, Except.ok.injEq] at hi
    obtain ⟨rfl, rfl⟩ := hi
    refine kept_of_holds (fun j t s hs hj => ?_) fun _ _ => trivial
    subst hj
    cases t with
    | established =>
      rw [show d.established.get? e.uuid = some s from hs] at he
      cases he
    | responder =>
      rw [show d.responderSessions.get? e.uuid = some s from hs] at hr
      cases hr
    | template =>
      simp only [Holds, Dict.get?_set_self, Option.some.injEq] at hs
      subst hs
      exact ⟨rfl, [], hl.drained⟩
    | fork =>
      obtain ⟨forks, hf, hmem⟩ := hs
      simp only [Dict.get?_set_self, Option.some.injEq] at hf
      subst hf
      cases hmem

theorem Attempt.reached {ok : List (List β) → Dispatcher β π → Op β π → Prop}
    (h : Attempt P ok c posted d) : ∃ (keys : KeyLookup β) (config : SessionConfig)
      (limits : CandidateLimits), Run P (fun _ _ => True) (new keys config limits) d := by
  induction h with
  | @opened keys config limits own peer now e d d' hrun _ _ hi =>
    refine ⟨keys, config, limits, ?_⟩
    have hstep : d.step P (.initiate own peer now e) = d' := by
      simp only [Dispatcher.step, hi]
    exact hstep ▸ hrun.step trivial
  | step op _ _ _ _ ih =>
    obtain ⟨keys, config, limits, hrun⟩ := ih
    exact ⟨keys, config, limits, hrun.step trivial⟩

theorem Attempt.tidy (hP : P.Correct) {ok : List (List β) → Dispatcher β π → Op β π → Prop}
    (h : Attempt P ok c posted d) : Kept (Tidy P) (fun _ => True) d := by
  obtain ⟨keys, config, limits, hrun⟩ := h.reached
  exact tidy_run hP hrun (kept_new keys config limits)

theorem Attempt.inherits (hP : P.Correct) (h : Attempt P (Timely P c) c posted d)
    (he : d.established.get? c = none) : Kept (Inherits P c posted) (fun _ => True) d := by
  induction h with
  | opened _ hnone hr hi => exact inherits_initiate hnone hr hi
  | step op h he' hop ht ih =>
    obtain hk | ⟨_, _, _, _, _, _, _, _, hwon⟩ := inherits_step hP (h.tidy hP) (ih he') hop ht
    · exact hk
    · rw [hwon] at he
      cases he

end

/-- What the promotion of a fork does: a PDU establishes it, and what it has encrypted by then,
whatever it did before, and what it holds is what was posted. -/
def Delivered [DecidableEq π] (P : Primitives β π) (c : List β) (posted : List (List β))
    (d : Dispatcher β π) (op : Op β π) (winner : Session β π) : Prop :=
  ∃ der now e forks fork, op = .postPdu der now e ∧ d.initiatorForks.get? c = some forks ∧
    fork ∈ forks ∧ winner = ((fork.postPdu der).update P now e).1.drained ∧
    (∃ log, fork.Logged P log) ∧ ∀ log, fork.Logged P log →
      encrypted P (log ++ (fork.postPdu der).encrypts P now e) ++ winner.pendingPayload.toList = posted

/-- A promoted fork has encrypted or holds exactly the payloads posted, in order, if no fork is
opened once two payloads have been posted. -/
theorem winner_carries [DecidableEq π] (hP : P.Correct) {c : List β} {posted : List (List β)}
    {d : Dispatcher β π} {op : Op β π} {winner : Session β π}
    (h : Attempt P (Timely P c) c posted d) (he : d.established.get? c = none)
    (hop : Courteous P c d op) (ht : Timely P c posted d op)
    (hw : (d.step P op).established.get? c = some winner) : Delivered P c posted d op winner := by
  have hT := h.tidy hP
  have hk := h.inherits hP he
  have hT' : Kept (Tidy P) (fun _ => True) (d.step P op) :=
    (tidy_stable hP fun _ _ => True).step hP.encrypt_ne_nil trivial hT
  obtain hk' | ⟨der, now, e, forks, rfl, hf, fork, hmem, hwon⟩ := inherits_step hP hT hk hop ht
  · rw [hk'.unestablished] at hw
    cases hw
  rw [hw, Option.some.injEq] at hwon
  subst hwon
  have hstate : ((fork.postPdu der).update P now e).1.state = .established :=
    (hT'.established c _ hw).1.2.1
  have hcarries : fork.Carries P posted := hk.fork c forks hf fork hmem rfl
  have htidy := hT.fork c forks hf fork hmem
  have hd : fork.state ≠ .dropped := by
    intro hd
    have hd' : (fork.postPdu der).state = .dropped := hd
    rw [Session.update_dropped hd', hd'] at hstate
    cases hstate
  have hwaits : fork.state = .expectSessionInitResponse ∨
      fork.state = .expectSessionCompletionResponse := by
    rcases htidy.1.2.1 with hs | hs | hs
    · exact .inl hs
    · exact .inr hs
    · exact absurd hs hd
  obtain ⟨log₀, hl₀, hspends⟩ := hcarries hd
  refine ⟨der, now, e, forks, fork, rfl, hf, hmem, rfl, ⟨log₀, hl₀⟩, fun log hl => ?_⟩
  obtain ⟨hlen, hsame⟩ := hl.spoken_eq hP hl₀ hwaits
  have hspends : (fork.postPdu der).Spends log posted := by
    rw [Session.Spends, hsame]
    exact hspends
  have hl := hl.postPdu der
  have hspent := hspends.update hP hl now e
  have hcalls := Session.encrypts_length hP (fork.postPdu der) now e
  have hn := (hl.update now e).numbered hP
  have hall := hn.encrypted_take (log ++ (fork.postPdu der).encrypts P now e).length
  have hmin : min seqLimit (log ++ (fork.postPdu der).encrypts P now e).length =
      (log ++ (fork.postPdu der).encrypts P now e).length := by
    apply Nat.min_eq_right
    rw [List.length_append]
    have : 3 ≤ seqLimit := by decide
    omega
  rw [hmin, List.take_length] at hall
  rw [hall]
  exact hspent.symm

/-! ## Alice (0) calls Bob (1) and posts twice -/

/-- The call under way, with a first payload. -/
def alicePosted : Dispatcher Sym Pdu := (aliceCalling.postPayload (draw 0).uuid [.octet 1]).1

/-- Bob's confirmation of the last completion request in the queue. -/
def bobReply (d : Dispatcher Sym Pdu) : Pdu :=
  ((bobAnswering.postPdu (d.outgoingPdus.getLastD ideal.noPdu)).update ideal 1
    (draw 5)).1.outgoingPdus.getLastD ideal.noPdu

/-- Bob answers, and the second payload waits in the fork. -/
def aliceWaiting : Dispatcher Sym Pdu := (alicePosted.postPdu ideal bobResponse 1 (draw 2)).1
def alicePostedAgain : Dispatcher Sym Pdu :=
  (aliceWaiting.postPayload (draw 0).uuid [.octet 2]).1

/-- A forged response takes the first payload, and Bob's comes after the second. -/
def aliceFooled : Dispatcher Sym Pdu := (alicePosted.postPdu ideal (forgedResponse 3) 1 (draw 11)).1
def aliceFooledAgain : Dispatcher Sym Pdu :=
  (aliceFooled.postPayload (draw 0).uuid [.octet 2]).1
def aliceForkedLate : Dispatcher Sym Pdu :=
  (aliceFooledAgain.postPdu ideal bobResponse 1 (draw 2)).1

theorem attempt_aliceCalling {ok : List (List Sym) → Dispatcher Sym Pdu → Op Sym Pdu → Prop} :
    Attempt ideal ok (draw 0).uuid [] aliceCalling :=
  .opened .refl rfl rfl initiate_aliceCalling

section
variable {d : Dispatcher Sym Pdu} {posted : List (List Sym)} {der : Pdu} {name : PayloadName}

theorem courteous_postPdu (h : (ideal.load der).map (fun msg => msg.payload.name) = .ok name)
    (hne : name ≠ .sessionInitRequest) (c : List Sym) (now : Int) (e : Entropy Sym) :
    Courteous ideal c d (.postPdu der now e) := by
  intro msg hl _
  simp only [hl, Except.map, Except.ok.injEq] at h
  exact h ▸ hne

theorem timely_postPdu (h : (ideal.load der).map (fun msg => msg.payload.name) = .ok name)
    (hne : name ≠ .sessionInitResponse) (c : List Sym) (now : Int) (e : Entropy Sym) :
    Timely ideal c posted d (.postPdu der now e) := by
  intro msg hl _ hopens
  simp only [hl, Except.map, Except.ok.injEq] at h
  exact absurd (h ▸ hopens.1) hne

theorem clear_of_fork {c : List Sym} (hlen : (d.forksOf c).length ≠ 0)
    (h : ∀ fork ∈ d.forksOf c, fork.pendingPayload = none) : d.Clear c := by
  refine ⟨fun fork hmem _ => h fork hmem, fun hnil => ?_⟩
  rw [hnil] at hlen
  exact absurd rfl hlen

end

theorem clear_aliceCalling : aliceCalling.Clear (draw 0).uuid := by
  refine ⟨by decide +kernel, fun _ s hs => ?_⟩
  have hnone : ((aliceCalling.initiatorTemplates.get? (draw 0).uuid).all fun s =>
      s.pendingPayload.isNone) = true := by
    decide +kernel
  rw [hs] at hnone
  simpa using hnone

theorem attempt_alicePosted {ok : List (List Sym) → Dispatcher Sym Pdu → Op Sym Pdu → Prop}
    (hok : ok [] aliceCalling (.postPayload (draw 0).uuid [.octet 1])) :
    Attempt ideal ok (draw 0).uuid [[.octet 1]] alicePosted := by
  have hposts : aliceCalling.posts (draw 0).uuid (.postPayload (draw 0).uuid [.octet 1]) =
      [[.octet 1]] := by
    decide +kernel
  have h := attempt_aliceCalling.step (.postPayload (draw 0).uuid [.octet 1]) rfl
    (fun _ => clear_aliceCalling) hok
  rw [hposts] at h
  exact h

/-- With one payload posted before Bob's answer and one after it, both get to Bob. -/
theorem winner_carries_alice : ∃ winner, (alicePostedAgain.step ideal
    (.postPdu (bobReply aliceWaiting) 1 (draw 6))).established.get? (draw 0).uuid = some winner ∧
    Delivered ideal (draw 0).uuid [[.octet 1], [.octet 2]] alicePostedAgain
      (.postPdu (bobReply aliceWaiting) 1 (draw 6)) winner := by
  have hsome : ((alicePostedAgain.step ideal (.postPdu (bobReply aliceWaiting) 1
      (draw 6))).established.get? (draw 0).uuid).isSome = true := by
    decide +kernel
  obtain ⟨winner, hw⟩ := Option.isSome_iff_exists.mp hsome
  have hresponse : (ideal.load bobResponse).map (fun msg => msg.payload.name) =
      .ok .sessionInitResponse := by
    decide +kernel
  have hreply : (ideal.load (bobReply aliceWaiting)).map (fun msg => msg.payload.name) =
      .ok .sessionCompletionResponse := by
    decide +kernel
  have hwaiting : Attempt ideal (Timely ideal (draw 0).uuid) (draw 0).uuid [[.octet 1]]
      aliceWaiting :=
    (attempt_alicePosted trivial).step (.postPdu bobResponse 1 (draw 2)) (by decide +kernel)
      (courteous_postPdu hresponse (by simp) _ _ _) fun _ _ _ _ => Nat.le_refl 1
  have hclear : aliceWaiting.Clear (draw 0).uuid :=
    clear_of_fork (by decide +kernel) (by decide +kernel)
  have hposts : aliceWaiting.posts (draw 0).uuid (.postPayload (draw 0).uuid [.octet 2]) =
      [[.octet 2]] := by
    decide +kernel
  have hagain := hwaiting.step (.postPayload (draw 0).uuid [.octet 2]) (by decide +kernel)
    (fun _ => hclear) trivial
  rw [hposts] at hagain
  exact ⟨winner, hw, winner_carries Ideal.ideal_correct hagain (by decide +kernel)
    (courteous_postPdu hreply (by simp) _ _ _) (timely_postPdu hreply (by simp) _ _ _) hw⟩

/-- A forged response takes the first payload; the fork that Bob's answer opens after the
second has that one alone, and is promoted. -/
theorem winner_misses :
    Attempt ideal (fun _ _ _ => True) (draw 0).uuid [[.octet 1], [.octet 2]] aliceForkedLate ∧
    aliceForkedLate.established.get? (draw 0).uuid = none ∧
    Courteous ideal (draw 0).uuid aliceForkedLate
      (.postPdu (bobReply aliceForkedLate) 1 (draw 6)) ∧
    ∃ winner, (aliceForkedLate.step ideal
        (.postPdu (bobReply aliceForkedLate) 1 (draw 6))).established.get? (draw 0).uuid =
        some winner ∧
      ¬ Delivered ideal (draw 0).uuid [[.octet 1], [.octet 2]] aliceForkedLate
        (.postPdu (bobReply aliceForkedLate) 1 (draw 6)) winner := by
  have hforged : (ideal.load (forgedResponse 3)).map (fun msg => msg.payload.name) =
      .ok .sessionInitResponse := by
    decide +kernel
  have hresponse : (ideal.load bobResponse).map (fun msg => msg.payload.name) =
      .ok .sessionInitResponse := by
    decide +kernel
  have hreply : (ideal.load (bobReply aliceForkedLate)).map (fun msg => msg.payload.name) =
      .ok .sessionCompletionResponse := by
    decide +kernel
  have hfooled : Attempt ideal (fun _ _ _ => True) (draw 0).uuid [[.octet 1]] aliceFooled :=
    (attempt_alicePosted trivial).step (.postPdu (forgedResponse 3) 1 (draw 11)) (by decide +kernel)
      (courteous_postPdu hforged (by simp) _ _ _) trivial
  have hclear : aliceFooled.Clear (draw 0).uuid :=
    clear_of_fork (by decide +kernel) (by decide +kernel)
  have hposts : aliceFooled.posts (draw 0).uuid (.postPayload (draw 0).uuid [.octet 2]) =
      [[.octet 2]] := by
    decide +kernel
  have hagain := hfooled.step (.postPayload (draw 0).uuid [.octet 2]) (by decide +kernel)
    (fun _ => hclear) trivial
  rw [hposts] at hagain
  have hlate := hagain.step (.postPdu bobResponse 1 (draw 2)) (by decide +kernel)
    (courteous_postPdu hresponse (by simp) _ _ _) trivial
  refine ⟨hlate, by decide +kernel, courteous_postPdu hreply (by simp) _ _ _, ?_⟩
  have hwinner : ((aliceForkedLate.step ideal (.postPdu (bobReply aliceForkedLate) 1
      (draw 6))).established.get? (draw 0).uuid).map (fun s => (s.sendCount, s.pendingPayload)) =
      some (1, none) := by
    decide +kernel
  obtain ⟨winner, hw, hcount⟩ := Option.map_eq_some_iff.mp hwinner
  simp only [Prod.mk.injEq] at hcount
  refine ⟨winner, hw, ?_⟩
  -- one call cannot have encrypted two payloads
  rintro ⟨der, now, e, forks, fork, _, _, _, rfl, ⟨log, hl⟩, hall⟩
  have hall := hall log hl
  have hl := ((hl.postPdu der).update now e).drained
  have hlen := (hl.numbered Ideal.ideal_correct).counted
  rw [hcount.1] at hlen
  have hle : (encrypted ideal (log ++ (fork.postPdu der).encrypts ideal now e)).length ≤ _ :=
    List.length_filterMap_le _ _
  rw [hcount.2, Option.toList_none, List.append_nil] at hall
  have hlimit : 2 ≤ seqLimit := by decide
  rw [hall] at hle
  simp only [List.length_cons, List.length_nil] at hle
  omega

end Dispatcher

end KemMake
