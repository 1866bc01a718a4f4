import KemMake.Coherence

/-!
# The calls of `_encrypt`

`encrypts` lists the calls that one update makes, in order. It is checked against
`update` itself: with another AEAD that answers these calls alike, the update is
the same. `Logged` collects them over the life of a session without `reset`.
-/

namespace KemMake

/-- One call of `_encrypt`. -/
structure EncryptCall (β : Type) where
  aead : Aead
  key : List β
  iv : List β
  seq : Nat
  plaintext : List β
  ad : List β

variable {β π : Type}

def EncryptCall.result (P : Primitives β π) (call : EncryptCall β) : Except PyError (List β) :=
  encrypt P call.aead call.key call.iv call.seq call.plaintext call.ad

/-- The key and nonce that a call encrypts with, if its number has a nonce. -/
def EncryptCall.used (P : Primitives β π) (call : EncryptCall β) : Option (List β × List β) :=
  match nonceForSeq P call.iv call.seq with
  | .error _ => none
  | .ok nonce => some (call.key, nonce)

namespace Session

/-- The call that encrypts c_m. Sequence number 0 always has a nonce, so the locals
exist if and only if the call is made. -/
def CompletionCall.encrypts (c : CompletionCall β) : EncryptCall β :=
  ⟨c.keys.aeadName, c.keys.keyA2b, c.keys.ivA2b, 0, c.plaintext, c.cid⟩

/-- The call that encrypts `m`. -/
def OpenedCompletion.encrypts (o : OpenedCompletion β) (payload : List β) : EncryptCall β :=
  ⟨o.keys.aeadName, o.keys.keyB2a, o.keys.ivB2a, 0, payload, o.cid⟩

/-- The number of the next payload this end sends. -/
def sendCount (s : Session β π) : Nat :=
  match s.role with
  | .initiator => s.seqA2b
  | .responder => s.seqB2a

variable (P : Primitives β π)

def receiptEncrypts (s : Session β π) (payload : MakePayload β) (e : Entropy β) :
    List (EncryptCall β) :=
  match s.state, s.role, payload with
  | .expectSessionInitResponse, .initiator, .sessionInitResponse resp =>
    match s.completionCall P resp e with
    | .error _ => []
    | .ok c => [c.encrypts]
  | .expectSessionCompletionRequest, .responder, .sessionCompletionRequest req =>
    match s.openCompletion P req with
    | .error _ => []
    | .ok o => s.pendingPayload.toList.map o.encrypts
  | _, _, _ => []

/-- The calls made for a pending payload once established. -/
def pendingEncrypts (s : Session β π) : List (EncryptCall β) :=
  match s.state, s.pendingPayload, s.sessionKeys, s.cid with
  | .established, some payload, some keys, some cid =>
    let (key, iv, seq) := s.sending keys
    [⟨keys.aeadName, key, iv, seq, payload, cid⟩]
  | _, _, _, _ => []

variable [DecidableEq β] [DecidableEq π]

def takenEncrypts (s : Session β π) (e : Entropy β) : List (EncryptCall β) :=
  match s.incomingQueue with
  | [] => []
  | der :: rest =>
    if s.lastReceived = some der then []
    else
      match P.load der with
      | .error _ => []
      | .ok msg =>
        if some msg.cid ≠ s.cid then []
        else { s with incomingQueue := rest }.receiptEncrypts P msg.payload e

/-- The calls of one update, in order. -/
def encrypts (s : Session β π) (now : Int) (e : Entropy β) : List (EncryptCall β) :=
  if s.state = .dropped then []
  else
    match s.takeIncoming P now e with
    | (_, some _) => s.takenEncrypts P e
    | (s', none) => s.takenEncrypts P e ++ s'.pendingEncrypts

end Session

/-! ## The list is complete -/

/-- The same packages with another AEAD encryption. -/
def Primitives.withEncrypt (P : Primitives β π)
    (f : Aead → List β → List β → List β → List β → List β) : Primitives β π :=
  { P with encrypt := f }

/-- The AEAD encryption `f` answers these calls as that of `P` does. -/
def Answers (P : Primitives β π) (f : Aead → List β → List β → List β → List β → List β)
    (calls : List (EncryptCall β)) : Prop :=
  ∀ call ∈ calls, call.result (P.withEncrypt f) = call.result P

namespace Session
variable {P : Primitives β π} {f : Aead → List β → List β → List β → List β → List β}

theorem completionCall_withEncrypt (s : Session β π) (resp : SessionInitResponse β)
    (e : Entropy β) : s.completionCall (P.withEncrypt f) resp e =
      (s.completionCall P resp e).map fun c =>
        { c with cM := f c.keys.aeadName c.keys.keyA2b (firstNonce P c.keys.ivA2b) c.plaintext c.cid } := by
  have hd : KemMake.decapsulate (P.withEncrypt f) = KemMake.decapsulate P := rfl
  have he : KemMake.encapsulate (P.withEncrypt f) = KemMake.encapsulate P := rfl
  simp only [completionCall, encrypt_zero, bind, Except.bind, pure, Except.pure, hd, he]
  cases attr s.ownKeyId <;> simp only [Except.map]
  cases s.keys.getPrivateKey _ <;> simp only
  cases attr s.ownEphemeralPrivate <;> simp only
  cases decapsulate P _ s.config.kemLevel resp.ct2 <;> simp only
  cases decapsulate P _ s.config.kemLevel resp.ct3 <;> simp only
  cases checkAead s.config.acceptableAeads resp.chosenAead <;> simp only
  cases encapsulate P resp.pkBStar e.coins <;> simp only
  cases attr s.s1 <;> simp only
  cases attr s.cid <;> rfl

/-- The calls are those of c_m, of `m` and of a Message. -/
theorem handleSessionInitResponse_withEncrypt {s : Session β π} {resp : SessionInitResponse β}
    {e : Entropy β} (der : π) (now : Int)
    (h : ∀ c, s.completionCall P resp e = .ok c → Answers P f [c.encrypts]) :
    s.handleSessionInitResponse (P.withEncrypt f) resp der now e =
      s.handleSessionInitResponse P resp der now e := by
  have hsame : s.completionCall (P.withEncrypt f) resp e = s.completionCall P resp e := by
    have hP := completionCall_withEncrypt (f := P.encrypt) (P := P) s resp e
    rw [completionCall_withEncrypt]
    refine Eq.trans ?_ hP.symm
    cases hc : s.completionCall P resp e with
    | error x => rfl
    | ok c =>
      have := h c hc _ List.mem_cons_self
      simp only [EncryptCall.result, CompletionCall.encrypts, encrypt_zero, Except.ok.injEq] at this
      simp only [Except.map]
      change f _ _ (firstNonce P c.keys.ivA2b) _ _ = _ at this
      rw [this]
  unfold handleSessionInitResponse
  rw [hsame]
  rfl

theorem handleSessionCompletionRequest_withEncrypt {s : Session β π}
    {req : SessionCompletionRequest β} (der : π)
    (h : ∀ o, s.openCompletion P req = .ok o →
      Answers P f (s.pendingPayload.toList.map o.encrypts)) :
    s.handleSessionCompletionRequest (P.withEncrypt f) req der =
      s.handleSessionCompletionRequest P req der := by
  have hopen : s.openCompletion (P.withEncrypt f) req = s.openCompletion P req := rfl
  rw [handleSessionCompletionRequest_eq, handleSessionCompletionRequest_eq, hopen]
  cases ho : s.openCompletion P req with
  | error x => rfl
  | ok o =>
    have hm : s.replyM (P.withEncrypt f) o = s.replyM P o := by
      cases hp : s.pendingPayload with
      | none => simp [replyM, hp]
      | some payload =>
        have := h o ho (o.encrypts payload) (by simp [hp])
        simpa [replyM, hp, EncryptCall.result, OpenedCompletion.encrypts] using this
    simp only [hm]
    rfl

theorem sendPending_withEncrypt {s : Session β π} (h : Answers P f s.pendingEncrypts) :
    s.sendPending (P.withEncrypt f) = s.sendPending P := by
  unfold sendPending
  by_cases hs : s.state = .established
  · cases hp : s.pendingPayload with
    | none => rfl
    | some payload =>
      have hm : s.messagePdu (P.withEncrypt f) payload = s.messagePdu P payload := by
        unfold messagePdu
        cases hk : s.sessionKeys with
        | none => rfl
        | some keys =>
          cases hc : s.cid with
          | none => rfl
          | some cid =>
            have := h _ (by simp only [pendingEncrypts, hs, hp, hk, hc]; exact List.mem_cons_self)
            simp only [EncryptCall.result] at this
            simp only [attr, bind, Except.bind, this]
            rfl
      have hn : { s with pendingPayload := none }.messagePdu (P.withEncrypt f) payload =
          { s with pendingPayload := none }.messagePdu P payload := hm
      simp only [sendEstablishedPayload, hn]
  · simp only [hs, ↓reduceIte]

variable [DecidableEq β]

theorem dispatch_withEncrypt {s : Session β π} {payload : MakePayload β} {e : Entropy β}
    (der : π) (now : Int) (h : Answers P f (s.receiptEncrypts P payload e)) :
    s.dispatch (P.withEncrypt f) payload der now e = s.dispatch P payload der now e := by
  unfold dispatch
  split
  · rename_i hs hr
    cases payload with
    | sessionInitResponse resp =>
      refine handleSessionInitResponse_withEncrypt der now fun c hc => ?_
      simpa only [receiptEncrypts, hs, hr, hc] using h
    | _ => rfl
  · rename_i hs hr
    cases payload with
    | sessionCompletionRequest req =>
      refine handleSessionCompletionRequest_withEncrypt der fun o ho => ?_
      simpa only [receiptEncrypts, hs, hr, ho] using h
    | _ => rfl
  all_goals rfl

variable [DecidableEq π]

theorem takeIncoming_withEncrypt {s : Session β π} {e : Entropy β} (now : Int)
    (h : Answers P f (s.takenEncrypts P e)) :
    s.takeIncoming (P.withEncrypt f) now e = s.takeIncoming P now e := by
  unfold takenEncrypts at h
  unfold takeIncoming
  cases hq : s.incomingQueue with
  | nil => rfl
  | cons der rest =>
    simp only [hq] at h ⊢
    unfold processIncoming
    by_cases hd : s.lastReceived = some der
    · simp only [hd, ↓reduceIte]
    simp only [hd, ↓reduceIte] at h ⊢
    have hload : (P.withEncrypt f).load = P.load := rfl
    rw [hload]
    cases hl : P.load der with
    | error x => rfl
    | ok msg =>
      simp only [hl] at h ⊢
      by_cases hc : some msg.cid ≠ s.cid
      · simp only [if_pos hc]
        rfl
      · simp only [if_neg hc] at h ⊢
        rw [dispatch_withEncrypt der now h]
        rfl

/-- An update asks the AEAD for the listed encryptions and for no others. -/
theorem update_withEncrypt {s : Session β π} {now : Int} {e : Entropy β}
    (h : Answers P f (s.encrypts P now e)) :
    s.update (P.withEncrypt f) now e = s.update P now e := by
  unfold encrypts at h
  unfold update
  by_cases hd : s.state = .dropped
  · simp only [hd, ↓reduceIte]
  simp only [hd, ↓reduceIte] at h ⊢
  have htaken : Answers P f (s.takenEncrypts P e) := by
    intro call hcall
    refine h call ?_
    split
    · exact hcall
    · exact List.mem_append_left _ hcall
  rw [takeIncoming_withEncrypt now htaken]
  cases ht : s.takeIncoming P now e with
  | mk s₁ x =>
    cases x with
    | some x => rfl
    | none =>
      simp only [ht] at h
      simp only
      rw [sendPending_withEncrypt fun call hcall => h call (List.mem_append_right _ hcall)]

end Session

/-! ## What a step encrypts -/

namespace Session
variable {P : Primitives β π}

/-- What `takeIncoming` leaves and raises, with the calls it makes. -/
inductive TookEncrypting (P : Primitives β π) (s : Session β π) (now : Int) (e : Entropy β) :
    Session β π → Option PyError → List (EncryptCall β) → Prop
  | nothing {s' x} : Took P s now e s' x →
      (s.state = .expectSessionInitResponse ∨ s.state = .expectSessionCompletionRequest →
        s'.state = s.state) → TookEncrypting P s now e s' x []
  | completed {der rest msg req o} : s.incomingQueue = der :: rest → P.load der = .ok msg →
      msg.payload = .sessionCompletionRequest req → s.state = .expectSessionCompletionRequest →
      s.role = .responder → s.cid = some msg.cid → s.openCompletion P req = .ok o →
      TookEncrypting P s now e
        (((s.popped rest).opened o).acceptCompletion P req der o (s.replyM P o)) none
        (s.pendingPayload.toList.map o.encrypts)
  | called {der rest msg resp c} : s.incomingQueue = der :: rest → P.load der = .ok msg →
      msg.payload = .sessionInitResponse resp → s.state = .expectSessionInitResponse →
      s.role = .initiator → s.cid = some msg.cid → s.completionCall P resp e = .ok c →
      TookEncrypting P s now e
        ((s.popped rest).acceptInitResponse resp der now e c (P.dump (MakeMessage.build c.cid
          (.sessionCompletionRequest ⟨c.cM, c.ct4, e.nonce⟩)))) none [c.encrypts]

theorem TookEncrypting.took {s s' : Session β π} {now : Int} {e : Entropy β} {x : Option PyError}
    {calls : List (EncryptCall β)} (h : TookEncrypting P s now e s' x calls) :
    Took P s now e s' x := by
  cases h with
  | nothing ht => exact ht
  | completed hq hl hp hs hr hc ho => exact .completed hq hl hp hs hr hc ho
  | called hq hl hp hs hr hc hcall => exact .called hq hl hp hs hr hc hcall

section
variable [DecidableEq β] (hP : ∀ aead key nonce text ad,
  P.encrypt aead key nonce text ad ≠ [])
include hP

theorem dispatch_encrypting {s : Session β π} {der : π} {rest : List π} {msg : MakeMessage β}
    (now : Int) (e : Entropy β) (hq : s.incomingQueue = der :: rest) (hl : P.load der = .ok msg)
    (hc : s.cid = some msg.cid) :
    TookEncrypting P s now e ((s.popped rest).dispatch P msg.payload der now e).1
      ((s.popped rest).dispatch P msg.payload der now e).2
      ((s.popped rest).receiptEncrypts P msg.payload e) := by
  have ht := dispatch_took hP now e hq hl hc
  by_cases hr : s.state = .expectSessionInitResponse ∧ s.role = .initiator
  · cases hp : msg.payload with
    | sessionInitResponse resp =>
      simp only [dispatch, receiptEncrypts, hr, handleSessionInitResponse]
      cases hcall : (s.popped rest).completionCall P resp e with
      | error x => exact .nothing (.refused hq hl (.inl rfl)) fun _ => rfl
      | ok c =>
        simp only [SessionCompletionRequest.build, completionCall_cM hP hcall, ↓reduceIte]
        exact .called hq hl hp hr.1 hr.2 hc hcall
    | _ =>
      simp only [hp, dispatch, receiptEncrypts, hr] at ht ⊢
      exact .nothing ht fun _ => rfl
  by_cases hr' : s.state = .expectSessionCompletionRequest ∧ s.role = .responder
  · cases hp : msg.payload with
    | sessionCompletionRequest req =>
      simp only [dispatch, receiptEncrypts, hr', handleSessionCompletionRequest_eq]
      cases ho : (s.popped rest).openCompletion P req with
      | error x => exact .nothing (.refused hq hl (.inl rfl)) fun _ => rfl
      | ok o => exact .completed hq hl hp hr'.1 hr'.2 hc ho
    | _ =>
      simp only [hp, dispatch, receiptEncrypts, hr'] at ht ⊢
      exact .nothing ht fun _ => rfl
  · have hnone : (s.popped rest).receiptEncrypts P msg.payload e = [] := by
      unfold receiptEncrypts
      split
      · rename_i hs hr'' _
        exact absurd ⟨hs, hr''⟩ hr
      · rename_i hs hr'' _
        exact absurd ⟨hs, hr''⟩ hr'
      · rfl
    rw [hnone]
    refine .nothing ht fun hs => ?_
    unfold dispatch
    split
    · rename_i hs' hr'' 
      exact absurd ⟨hs', hr''⟩ hr
    · rename_i hs' hr'' 
      exact absurd ⟨hs', hr''⟩ hr'
    · rename_i hs' _
      simp [show s.state = _ from hs'] at hs
    · rename_i hs' 
      simp [show s.state = _ from hs'] at hs
    · rfl

variable [DecidableEq π]

theorem takeIncoming_encrypting (s : Session β π) (now : Int) (e : Entropy β) :
    TookEncrypting P s now e (s.takeIncoming P now e).1 (s.takeIncoming P now e).2
      (s.takenEncrypts P e) := by
  have ht := takeIncoming_took hP s now e
  unfold takenEncrypts
  unfold takeIncoming at ht ⊢
  cases hq : s.incomingQueue with
  | nil => exact .nothing (.idle hq) fun _ => rfl
  | cons der rest =>
    simp only [hq] at ht ⊢
    unfold processIncoming at ht ⊢
    by_cases hd : s.lastReceived = some der
    · simp only [hd, ↓reduceIte] at ht ⊢
      exact .nothing ht fun _ => by rw [resend_eq]
    simp only [hd, ↓reduceIte] at ht ⊢
    cases hl : P.load der with
    | error x =>
      simp only [hl] at ht
      exact .nothing ht fun _ => rfl
    | ok msg =>
      simp only [hl] at ht ⊢
      by_cases hf : s.state = .initial ∧ s.role = .responder
      · have hnone : (s.popped rest).receiptEncrypts P msg.payload e = [] := by
          simp [receiptEncrypts, hf]
        have : (if some msg.cid ≠ s.cid then []
            else (s.popped rest).receiptEncrypts P msg.payload e) = [] := by
          rw [hnone, ite_self]
        rw [this]
        exact .nothing ht fun hs => by simp [hf.1] at hs
      · simp only [if_neg hf] at ht ⊢
        by_cases hc : some msg.cid = s.cid
        · simp only [hc, ne_eq, not_true_eq_false, ↓reduceIte]
          exact dispatch_encrypting hP now e hq hl hc.symm
        · rw [if_pos hc, if_pos hc]
          rw [if_pos hc] at ht
          exact .nothing ht fun _ => rfl

omit hP in
/-- What each of the three parts preserves of a session and its calls so far, an update
preserves, raising or not. -/
theorem update_parts {I : Session β π → List (EncryptCall β) → Prop} {s : Session β π}
    {log : List (EncryptCall β)} {now : Int} {e : Entropy β}
    (hTake : s.state ≠ .dropped → I s log →
      I (s.takeIncoming P now e).1 (log ++ s.takenEncrypts P e))
    (hSent : ∀ s₁ s' x log, Sent P s₁ s' x → I s₁ log → I s' (log ++ s₁.pendingEncrypts))
    (hTicked : ∀ s₁ s' log, s₁.state ≠ .dropped → Ticked s₁ now s' → I s₁ log → I s' log)
    (h : I s log) :
    I (s.update P now e).1 (log ++ s.encrypts P now e) := by
  unfold update encrypts
  by_cases hd : s.state = .dropped
  · simpa only [hd, ↓reduceIte, List.append_nil] using h
  simp only [hd, ↓reduceIte]
  have h₁ := hTake hd h
  cases ht : s.takeIncoming P now e with
  | mk s₁ x =>
    rw [ht] at h₁
    cases x with
    | some x => exact h₁
    | none =>
      have hs := sendPending_sent (P := P) s₁
      simp only
      rw [← List.append_assoc]
      have h₂ := hSent _ _ _ _ hs h₁
      cases h₂' : s₁.sendPending P with
      | mk s₂ x =>
        rw [h₂'] at h₂
        cases x with
        | some x => exact h₂
        | none =>
          simp only
          split
          · exact h₂
          · rename_i hd'
            exact hTicked _ _ _ hd' (checkDeadline_ticked s₂ now) h₂

theorem update_encrypting {I : Session β π → List (EncryptCall β) → Prop} {s : Session β π}
    {log : List (EncryptCall β)} {now : Int} {e : Entropy β}
    (hTook : ∀ s' x calls, s.state ≠ .dropped → TookEncrypting P s now e s' x calls → I s log →
      I s' (log ++ calls))
    (hSent : ∀ s₁ s' x log, Sent P s₁ s' x → I s₁ log → I s' (log ++ s₁.pendingEncrypts))
    (hTicked : ∀ s₁ s' log, s₁.state ≠ .dropped → Ticked s₁ now s' → I s₁ log → I s' log)
    (h : I s log) :
    I (s.update P now e).1 (log ++ s.encrypts P now e) :=
  update_parts (fun hd h => hTook _ _ _ hd (takeIncoming_encrypting hP s now e) h) hSent hTicked h

end

end Session

end KemMake
