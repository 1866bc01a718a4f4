import KemMake.Session

/-!
# What one update can do

`update` takes one queued PDU, sends a pending payload, and checks the deadline.
`Took`, `Sent` and `Ticked` list the outcomes of the three, with the exception if
one is raised; `update_cases` is the inversion that later proofs use in place of
the definitions. The AEAD never returns an empty ciphertext here, so the branch
that would lose a payload on it is absent.
-/

namespace KemMake

variable {β π : Type} {P : Primitives β π}

@[simp] theorem toBytesBig_zero (length : Nat) :
    toBytesBig length 0 = .ok ((List.range length).map fun _ => 0) := by
  simp [toBytesBig]

/-- The nonce of sequence number 0. -/
def firstNonce (P : Primitives β π) (iv : List β) : List β :=
  P.xorBytes iv ((List.range (P.octets iv)).map fun _ => 0)

@[simp] theorem nonceForSeq_zero (iv : List β) : nonceForSeq P iv 0 = .ok (firstNonce P iv) := by
  simp only [nonceForSeq, toBytesBig_zero, firstNonce]
  rfl

@[simp] theorem encrypt_zero (aead : Aead) (key iv text ad : List β) :
    encrypt P aead key iv 0 text ad = .ok (P.encrypt aead key (firstNonce P iv) text ad) := by
  simp only [encrypt, nonceForSeq_zero]
  rfl

theorem decrypt_zero {aead : Aead} {key iv ct ad text : List β} :
    decrypt P aead key iv 0 ct ad = .ok text ↔
      P.decrypt aead key (firstNonce P iv) ct ad = some text := by
  simp only [decrypt, nonceForSeq_zero, bind, Except.bind]
  cases P.decrypt aead key (firstNonce P iv) ct ad <;> simp [pure, Except.pure]

namespace Session

/-- `s` with the first queued PDU taken out. -/
abbrev popped (s : Session β π) (rest : List π) : Session β π := { s with incomingQueue := rest }

/-- The responder's payload for `m`, encrypted with sequence number 0. -/
def replyM (P : Primitives β π) (s : Session β π) (o : OpenedCompletion β) : Option (List β) :=
  s.pendingPayload.map fun payload =>
    P.encrypt o.keys.aeadName o.keys.keyB2a (firstNonce P o.keys.ivB2a) payload o.cid

/-- `s` once c_m is opened and `m` encrypted, before the last assignments. -/
def opened (s : Session β π) (o : OpenedCompletion β) : Session β π :=
  { s with
    outgoingPayloads := s.outgoingPayloads ++ (if o.plaintext = [] then [] else [o.plaintext])
    seqB2a := if s.pendingPayload.isSome then 1 else s.seqB2a
    pendingPayload := none }

theorem handleSessionCompletionRequest_eq (s : Session β π) (req : SessionCompletionRequest β)
    (der : π) : s.handleSessionCompletionRequest P req der =
      match s.openCompletion P req with
      | .error x => (s, some x)
      | .ok o => ((s.opened o).acceptCompletion P req der o (s.replyM P o), none) := by
  unfold handleSessionCompletionRequest
  cases s.openCompletion P req with
  | error x => rfl
  | ok o =>
    cases hp : s.pendingPayload with
    | none =>
      by_cases ht : o.plaintext = [] <;> simp [ht, hp, opened, replyM, acceptCompletion]
    | some payload =>
      by_cases ht : o.plaintext = [] <;> simp [ht, hp, opened, replyM, acceptCompletion]

/-- The session of an initiator that has called. -/
def calling (P : Primitives β π) (ownKeyId peerKeyId : KeyId β) (keys : KeyLookup β)
    (config : SessionConfig) (now : Int) (e : Entropy β) (s1 : List β) (ct1 : KemCiphertext β) :
    Session β π :=
  let pkAStar : KemPublicKey β :=
    ⟨kemAlg (mlkemOid config.kemLevel), P.publicBytes config.kemLevel e.seed⟩
  let der := P.dump (MakeMessage.build e.uuid (.sessionInitRequest
    { ct1, keyIdB := peerKeyId, pkAStar, keyIdA := ownKeyId
      acceptableAeads := config.acceptableAeads.map aeadOid }))
  { new .initiator (some ownKeyId) keys config with
    cid := some e.uuid
    peerKeyId := some peerKeyId
    ownEphemeralPrivate := some e.seed
    ownEphemeralPublic := some pkAStar
    s1 := some s1
    lastSent := some der
    deadline := some (now + config.retryIntervalSeconds)
    state := .expectSessionInitResponse
    outgoingPdus := [der] }

theorem generateEphemeral_eq {level : Level} {seed : List β} {r : List β × KemPublicKey β}
    (h : generateEphemeral P level seed = .ok r) :
    r = (seed, ⟨kemAlg (mlkemOid level), P.publicBytes level seed⟩) := by
  simp only [generateEphemeral, KemPublicKey.build, bind, Except.bind, pure, Except.pure] at h
  split at h
  · cases h
  · rename_i hb
    split at hb
    · cases hb
    · cases hb
      cases h
      rfl

/-- An `initiate` that returns has the peer's key and an encapsulation to it. -/
theorem initiate_ok {ownKeyId peerKeyId : KeyId β} {keys : KeyLookup β} {config : SessionConfig}
    {now : Int} {e : Entropy β} {s : Session β π}
    (h : (new .initiator (some ownKeyId) keys config).initiate P peerKeyId now e = (s, none)) :
    ∃ pk s1 ct1, keys.getPublicKey peerKeyId = .ok pk ∧ encapsulate P pk e.coins = .ok (s1, ct1) ∧
      s = calling P ownKeyId peerKeyId keys config now e s1 ct1 := by
  simp only [initiate, new, sendInitRequest, ne_eq, not_true_eq_false, ↓reduceIte] at h
  split at h
  · cases h
  · rename_i pk hpk
    split at h
    · cases h
    · rename_i hgen
      cases generateEphemeral_eq hgen
      split at h
      · cases h
      · rename_i s1 ct1 henc
        by_cases hne : config.acceptableAeads = []
        · simp only [hne, ↓reduceIte] at h
          cases h
        · simp only [hne, ↓reduceIte] at h
          cases h
          exact ⟨pk, s1, ct1, hpk, henc, rfl⟩

/-- What `initiate` leaves, returning or raising. -/
inductive Initiated (P : Primitives β π) (s : Session β π) (now : Int) : Session β π → Prop
  | refused : Initiated P s now s
  /-- What was assigned before the exception stays assigned. -/
  | failed {cid peerKeyId ownEphemeralPrivate ownEphemeralPublic s1} : s.state = .initial →
      Initiated P s now
        { s with cid, peerKeyId, ownEphemeralPrivate, ownEphemeralPublic, s1 }
  | called {cid peerKeyId seed ownEphemeralPublic s1 uuid req der} :
      s.role = .initiator → s.state = .initial →
      der = P.dump (MakeMessage.build uuid (.sessionInitRequest req)) →
      Initiated P s now { s with
        cid, peerKeyId, ownEphemeralPublic, s1
        ownEphemeralPrivate := some seed
        lastSent := some der
        attemptCount := 0
        deadline := some (now + s.config.retryIntervalSeconds)
        state := .expectSessionInitResponse
        outgoingPdus := s.outgoingPdus ++ [der] }

theorem initiate_cases (s : Session β π) (peerKeyId : KeyId β) (now : Int) (e : Entropy β) :
    Initiated P s now (s.initiate P peerKeyId now e).1 := by
  unfold initiate
  split
  · exact .refused
  rename_i hr
  split
  · exact .refused
  rename_i hs
  have hs : s.state = .initial := not_not.mp hs
  dsimp only
  split
  · exact .failed hs
  unfold sendInitRequest
  split
  · exact .failed hs
  split
  · exact .failed hs
  split
  · exact .failed hs
  dsimp only
  split
  · exact .failed hs
  · exact .called (not_not.mp hr) hs rfl

/-- What a fork copies: the key pair, the call and a payload for it. -/
def twin (s : Session β π) : Session β π :=
  { new s.role s.ownKeyId s.keys s.config with
    state := .expectSessionInitResponse
    cid := s.cid
    peerKeyId := s.peerKeyId
    ownEphemeralPrivate := s.ownEphemeralPrivate
    ownEphemeralPublic := s.ownEphemeralPublic
    s1 := s.s1
    lastSent := s.lastSent
    attemptCount := s.attemptCount
    deadline := s.deadline
    pendingPayload := s.pendingPayload }

theorem fork_ok {s t : Session β π} : s.fork = .ok t ↔
    s.role = .initiator ∧ s.state = .expectSessionInitResponse ∧ s.ownEphemeralPrivate ≠ none ∧
      t = s.twin := by
  unfold fork
  by_cases hr : s.role = .initiator
  · by_cases hs : s.state = .expectSessionInitResponse
    · cases he : s.ownEphemeralPrivate with
      | none => simp [hr, hs]
      | some seed =>
        simp only [hr, hs, ne_eq, not_true_eq_false, ↓reduceIte, Except.ok.injEq, reduceCtorEq,
          not_false_eq_true, true_and, twin, he]
        exact eq_comm
    · simp [hr, hs]
  · simp [hr]

theorem resend_eq (s : Session β π) :
    s.resend = { s with outgoingPdus := s.outgoingPdus ++ s.lastSent.toList } := by
  unfold resend
  split
  · rename_i h
    have : s.outgoingPdus ++ s.lastSent.toList = s.outgoingPdus := by simp [h]
    rw [this]
  · rename_i der h
    have : s.lastSent.toList = [der] := by simp [h]
    rw [this]

theorem postPayload_eq (s : Session β π) (payload : List β) : (s.postPayload payload).1 =
    { s with pendingPayload := if payload = [] then s.pendingPayload else some payload } := by
  unfold postPayload
  split <;> simp [*]

theorem countSent_eq (s : Session β π) : s.countSent = { s with
    seqA2b := s.seqA2b + (if s.role = .initiator then 1 else 0)
    seqB2a := s.seqB2a + (if s.role = .responder then 1 else 0) } := by
  unfold countSent
  split <;> simp [*]

theorem countReceived_eq (s : Session β π) : s.countReceived = { s with
    seqA2b := s.seqA2b + (if s.role = .responder then 1 else 0)
    seqB2a := s.seqB2a + (if s.role = .initiator then 1 else 0) } := by
  unfold countReceived
  split <;> simp [*]

/-- What `takeIncoming` leaves and raises. -/
inductive Took (P : Primitives β π) (s : Session β π) (now : Int) (e : Entropy β) :
    Session β π → Option PyError → Prop
  | idle : s.incomingQueue = [] → Took P s now e s none
  /-- A duplicate of the PDU accepted last. -/
  | resent {der rest} : s.incomingQueue = der :: rest → s.lastReceived = some der →
      Took P s now e (s.popped rest).resend none
  /-- Malformed, of another cid, or no legal first message. -/
  | ignored {der rest} : s.incomingQueue = der :: rest →
      (∀ msg, P.load der = .ok msg →
        s.state = .initial ∧ s.role = .responder ∨ s.cid ≠ some msg.cid) →
      Took P s now e (s.popped rest) none
  /-- `load` raised something else than ValueError. -/
  | undecoded {der rest x} : s.incomingQueue = der :: rest → P.load der = .error x →
      x.isValueError = false → Took P s now e (s.popped rest) (some x)
  /-- The fields are as before, the cid of a first message apart. -/
  | refused {der rest msg cid x} : s.incomingQueue = der :: rest → P.load der = .ok msg →
      (cid = s.cid ∨ s.state = .initial ∧ s.role = .responder ∧ cid = some msg.cid) →
      Took P s now e { s.popped rest with cid } (some x)
  | answered {der rest msg req r} : s.incomingQueue = der :: rest → P.load der = .ok msg →
      msg.payload = .sessionInitRequest req → s.state = .initial → s.role = .responder →
      { s.popped rest with cid := some msg.cid }.initReply P req e = .ok r →
      Took P s now e
        ({ s.popped rest with cid := some msg.cid }.acceptInitRequest req der now e r) none
  | completed {der rest msg req o} : s.incomingQueue = der :: rest → P.load der = .ok msg →
      msg.payload = .sessionCompletionRequest req → s.state = .expectSessionCompletionRequest →
      s.role = .responder → s.cid = some msg.cid →
      s.openCompletion P req = .ok o →
      Took P s now e
        (((s.popped rest).opened o).acceptCompletion P req der o (s.replyM P o)) none
  | called {der rest msg resp c} : s.incomingQueue = der :: rest → P.load der = .ok msg →
      msg.payload = .sessionInitResponse resp → s.state = .expectSessionInitResponse →
      s.role = .initiator → s.cid = some msg.cid →
      s.completionCall P resp e = .ok c →
      Took P s now e
        ((s.popped rest).acceptInitResponse resp der now e c (P.dump (MakeMessage.build c.cid
          (.sessionCompletionRequest ⟨c.cM, c.ct4, e.nonce⟩)))) none
  | confirmed {der rest msg resp sent} : s.incomingQueue = der :: rest → P.load der = .ok msg →
      msg.payload = .sessionCompletionResponse resp →
      s.state = .expectSessionCompletionResponse → s.role = .initiator → s.cid = some msg.cid →
      s.sentPlaintextForHM = some sent → resp.hM = P.sha256 sent → resp.m = none →
      Took P s now e ((s.popped rest).acceptReply der) none
  | replied {der rest msg resp sent m reply} : s.incomingQueue = der :: rest →
      P.load der = .ok msg → msg.payload = .sessionCompletionResponse resp →
      s.state = .expectSessionCompletionResponse → s.role = .initiator → s.cid = some msg.cid →
      s.sentPlaintextForHM = some sent → resp.hM = P.sha256 sent → resp.m = some m →
      s.openReply P m = .ok reply →
      Took P s now e ({ s.popped rest with
        seqB2a := 1, outgoingPayloads := s.outgoingPayloads ++ [reply] }.acceptReply der) none
  | received {der rest msg inner text} : s.incomingQueue = der :: rest → P.load der = .ok msg →
      msg.payload = .message inner → s.state = .established → s.cid = some msg.cid →
      s.openMessage P inner = .ok text →
      Took P s now e { (s.popped rest).countReceived with
        outgoingPayloads := s.outgoingPayloads ++ [text] } none

/-- What `sendPending` leaves and raises. -/
inductive Sent (P : Primitives β π) (s : Session β π) : Session β π → Option PyError → Prop
  | idle : s.state ≠ .established ∨ s.pendingPayload = none → Sent P s s none
  | failed {payload x} : s.state = .established → s.pendingPayload = some payload →
      s.messagePdu P payload = .error x → Sent P s { s with pendingPayload := none } (some x)
  | message {payload pdu} : s.state = .established → s.pendingPayload = some payload →
      s.messagePdu P payload = .ok pdu →
      Sent P s { s.countSent with
        pendingPayload := none, outgoingPdus := s.outgoingPdus ++ [pdu] } none

/-- What `checkDeadline` leaves. -/
inductive Ticked (s : Session β π) (now : Int) : Session β π → Prop
  | idle : Ticked s now s
  | dropped : s.state ≠ .established → s.state ≠ .initial → Ticked s now { s with state := .dropped }
  | retried : s.state ≠ .established → s.state ≠ .initial → s.role = .initiator →
      (s.attemptCount : Int) < s.config.maxRetries →
      Ticked s now { s with
        attemptCount := s.attemptCount + 1
        deadline := some (now + s.config.retryIntervalSeconds) }.resend

/-- A session that nothing has been accepted in has nothing to send. -/
def Silent (s : Session β π) : Prop :=
  s.state = .initial → s.outgoingPdus = [] ∧ s.lastSent = none

theorem Took.silent {s s' : Session β π} {now : Int} {e : Entropy β} {x : Option PyError}
    (ht : Took P s now e s' x) (h : s.Silent) : s'.Silent := by
  intro hs'
  cases ht with
  | idle | ignored | undecoded | refused => exact h hs'
  | resent =>
    simp only [resend_eq] at hs' ⊢
    simp [h hs']
  | answered | completed | called | confirmed | replied => cases hs'
  | received _ _ _ hs =>
    simp only [countReceived_eq] at hs'
    rw [hs] at hs'
    cases hs'

/-- What no update changes. -/
def identity (s : Session β π) : Role × Option (KeyId β) × KeyLookup β × SessionConfig :=
  (s.role, s.ownKeyId, s.keys, s.config)

/-- What an update of an initiator leaves alone besides. -/
def pursuit (s : Session β π) : Option (List β) × Option (KeyId β) × Option (List β) ×
    Option (KemPublicKey β) × Option (List β) :=
  (s.cid, s.peerKeyId, s.ownEphemeralPrivate, s.ownEphemeralPublic, s.s1)

theorem Took.identity {s s' : Session β π} {now : Int} {e : Entropy β} {x : Option PyError}
    (ht : Took P s now e s' x) : s'.identity = s.identity := by
  cases ht with
  | resent => rw [resend_eq]; rfl
  | received => rw [countReceived_eq]; rfl
  | _ => rfl

theorem Took.pursuit {s s' : Session β π} {now : Int} {e : Entropy β} {x : Option PyError}
    (ht : Took P s now e s' x) (hr : s.role = .initiator) : s'.pursuit = s.pursuit := by
  cases ht with
  | resent => rw [resend_eq]; rfl
  | received => rw [countReceived_eq]; rfl
  | refused _ _ hc =>
    rcases hc with rfl | ⟨_, hresp, _⟩
    · rfl
    · rw [hr] at hresp
      cases hresp
  | answered _ _ _ _ hresp | completed _ _ _ _ hresp =>
    rw [hr] at hresp
    cases hresp
  | _ => rfl

theorem Sent.identity {s s' : Session β π} {x : Option PyError} (hs : Sent P s s' x) :
    s'.identity = s.identity := by
  cases hs with
  | message => rw [countSent_eq]; rfl
  | _ => rfl

theorem Sent.pursuit {s s' : Session β π} {x : Option PyError} (hs : Sent P s s' x) :
    s'.pursuit = s.pursuit := by
  cases hs with
  | message => rw [countSent_eq]; rfl
  | _ => rfl

theorem Ticked.identity {s s' : Session β π} {now : Int} (hk : Ticked s now s') :
    s'.identity = s.identity := by
  cases hk with
  | retried => rw [resend_eq]; rfl
  | _ => rfl

theorem Ticked.pursuit {s s' : Session β π} {now : Int} (hk : Ticked s now s') :
    s'.pursuit = s.pursuit := by
  cases hk with
  | retried => rw [resend_eq]; rfl
  | _ => rfl

theorem Took.queue {s s' : Session β π} {now : Int} {e : Entropy β} {x : Option PyError}
    (ht : Took P s now e s' x) : s'.incomingQueue = s.incomingQueue.tail := by
  cases ht with
  | idle hq => simp [hq]
  | resent hq => simp [resend_eq, hq]
  | received hq => simp [countReceived_eq, hq]
  | ignored hq | undecoded hq | refused hq | answered hq | completed hq | called hq | confirmed hq
  | replied hq =>
    simp [hq, acceptInitRequest, acceptCompletion, opened, acceptInitResponse, acceptReply]

/-- The steps of the state machine that a PDU can cause. -/
inductive Advances (P : Primitives β π) (s s' : Session β π) : Prop
  | stays : s'.state = s.state → Advances P s s'
  | answers : s.state = .initial → s.role = .responder →
      s'.state = .expectSessionCompletionRequest → Advances P s s'
  | completes : s.state = .expectSessionCompletionRequest → s'.state = .established →
      Advances P s s'
  | calls : s.state = .expectSessionInitResponse → s'.state = .expectSessionCompletionResponse →
      Advances P s s'
  | confirms {der rest msg resp} : s.incomingQueue = der :: rest → P.load der = .ok msg →
      msg.payload = .sessionCompletionResponse resp →
      s.state = .expectSessionCompletionResponse → s'.state = .established → Advances P s s'

theorem Took.advances {s s' : Session β π} {now : Int} {e : Entropy β} {x : Option PyError}
    (ht : Took P s now e s' x) : Advances P s s' := by
  cases ht with
  | resent => exact .stays (by rw [resend_eq])
  | received => exact .stays (by rw [countReceived_eq])
  | answered _ _ _ hs hr => exact .answers hs hr rfl
  | completed _ _ _ hs => exact .completes hs rfl
  | called _ _ _ hs => exact .calls hs rfl
  | confirmed hq hl hp hs => exact .confirms hq hl hp hs rfl
  | replied hq hl hp hs => exact .confirms hq hl hp hs rfl
  | _ => exact .stays rfl

theorem Sent.frame {s s' : Session β π} {x : Option PyError} (hs : Sent P s s' x) :
    s'.state = s.state ∧ s'.incomingQueue = s.incomingQueue := by
  cases hs with
  | message => simp [countSent_eq]
  | _ => exact ⟨rfl, rfl⟩

theorem Ticked.frame {s s' : Session β π} {now : Int} (hk : Ticked s now s') :
    (s'.state = s.state ∨
      s'.state = .dropped ∧ s.state ≠ .established ∧ s.state ≠ .initial) ∧
    s'.incomingQueue = s.incomingQueue := by
  cases hk with
  | idle => exact ⟨.inl rfl, rfl⟩
  | dropped he hi => exact ⟨.inr ⟨rfl, he, hi⟩, rfl⟩
  | retried => simp [resend_eq]

/-- The clock only adds to what is to be sent. -/
theorem Ticked.outgoing {s s' : Session β π} {now : Int} (hk : Ticked s now s') :
    ∃ rest, s'.outgoingPdus = s.outgoingPdus ++ rest := by
  cases hk with
  | idle | dropped => exact ⟨[], by simp⟩
  | retried => exact ⟨s.lastSent.toList, by simp [resend_eq]⟩

theorem sendPending_sent (s : Session β π) : Sent P s (s.sendPending P).1 (s.sendPending P).2 := by
  unfold sendPending
  split
  · rename_i hs
    cases hp : s.pendingPayload with
    | none => exact .idle (.inr hp)
    | some payload =>
      have hm : { s with pendingPayload := none }.messagePdu P payload = s.messagePdu P payload :=
        rfl
      simp only [sendEstablishedPayload, hm]
      cases hpdu : s.messagePdu P payload with
      | error x => exact .failed hs hp hpdu
      | ok pdu =>
        have := Sent.message (P := P) hs hp hpdu
        cases hr : s.role <;> simpa [countSent, hr] using this
  · rename_i hs
    exact .idle (.inl hs)

theorem checkDeadline_ticked (s : Session β π) (now : Int) : Ticked s now (s.checkDeadline now) := by
  unfold checkDeadline
  split
  · exact .idle
  · split
    · rename_i hd
      unfold onTimeout
      split
      · exact .dropped hd.2.1 hd.2.2
      · rename_i hr
        split
        · exact .dropped hd.2.1 hd.2.2
        · have hr : s.role = .initiator := by cases h : s.role <;> simp_all
          exact .retried hd.2.1 hd.2.2 hr (by omega)
    · exact .idle

theorem popped_postPdu {s : Session β π} {der : π} (hq : s.incomingQueue = []) :
    (s.postPdu der).popped [] = s := by
  cases s
  cases hq
  rfl

section
variable [DecidableEq β] [DecidableEq π] {s s' : Session β π} {der : π} {now : Int} {e : Entropy β}

theorem takeIncoming_postPdu (hq : s.incomingQueue = []) :
    (s.postPdu der).takeIncoming P now e = s.processIncoming P der now e := by
  have h : (s.postPdu der).incomingQueue = [der] := by simp [postPdu, hq]
  unfold takeIncoming
  rw [h]
  exact congrArg (processIncoming P · der now e) (popped_postPdu hq)

theorem processIncoming_first {msg : MakeMessage β} {req : SessionInitRequest β}
    (hd : s.lastReceived ≠ some der) (hl : P.load der = .ok msg) (hs : s.state = .initial)
    (hr : s.role = .responder) (hp : msg.payload = .sessionInitRequest req) :
    s.processIncoming P der now e =
      { s with cid := some msg.cid }.handleSessionInitRequest P req der now e := by
  unfold processIncoming
  rw [if_neg hd, hl]
  simp only [if_pos (And.intro hs hr), hp]

theorem processIncoming_dispatch {msg : MakeMessage β} (hd : s.lastReceived ≠ some der)
    (hl : P.load der = .ok msg) (hs : s.state ≠ .initial) (hc : s.cid = some msg.cid) :
    s.processIncoming P der now e = s.dispatch P msg.payload der now e := by
  unfold processIncoming
  rw [if_neg hd, hl]
  simp only [hs, false_and, ↓reduceIte, hc, ne_eq, not_true_eq_false]

/-- The update that handles a PDU without raising and has no payload to send. -/
theorem update_of_process (hq : s.incomingQueue = []) (hd : s.state ≠ .dropped)
    (h : s.processIncoming P der now e = (s', none))
    (hp : s'.state ≠ .established ∨ s'.pendingPayload = none) (hd' : s'.state ≠ .dropped) :
    (s.postPdu der).update P now e =
      (s'.checkDeadline now, .ok ((s'.checkDeadline now).updateResult now)) := by
  have hs : (s.postPdu der).state ≠ .dropped := hd
  have hsend : s'.sendPending P = (s', none) := by
    unfold sendPending
    rcases hp with hp | hp <;> simp [hp]
  simp only [update, hs, ↓reduceIte, takeIncoming_postPdu hq, h, hsend, hd']

theorem update_of_raise {x : PyError} (hq : s.incomingQueue = []) (hd : s.state ≠ .dropped)
    (h : s.processIncoming P der now e = (s', some x)) :
    (s.postPdu der).update P now e = (s', .error x) := by
  have hs : (s.postPdu der).state ≠ .dropped := hd
  simp only [update, hs, ↓reduceIte, takeIncoming_postPdu hq, h]

theorem update_dropped (hd : s.state = .dropped) :
    s.update P now e = (s, .ok (.sessionDropped, ⊤)) := by
  simp only [update, hd, ↓reduceIte]

end

section
variable (hP : ∀ aead key nonce text ad, P.encrypt aead key nonce text ad ≠ [])
include hP

theorem completionCall_cM {s : Session β π} {resp : SessionInitResponse β} {e : Entropy β}
    {c : CompletionCall β} (h : s.completionCall P resp e = .ok c) : c.cM ≠ [] := by
  simp only [completionCall, encrypt_zero, bind, Except.bind, pure, Except.pure] at h
  repeat' split at h
  all_goals first
    | (cases h; done)
    | (cases h; exact hP _ _ _ _ _)

variable [DecidableEq β]

theorem dispatch_took {s : Session β π} {der : π} {rest : List π} {msg : MakeMessage β}
    (now : Int) (e : Entropy β) (hq : s.incomingQueue = der :: rest) (hl : P.load der = .ok msg)
    (hc : s.cid = some msg.cid) :
    Took P s now e ((s.popped rest).dispatch P msg.payload der now e).1
      ((s.popped rest).dispatch P msg.payload der now e).2 := by
  have refuse : ∀ x, Took P s now e (s.popped rest) (some x) := fun x => .refused hq hl (.inl rfl)
  unfold dispatch
  split
  · -- EXPECT_SESSION_INIT_RESPONSE
    split
    · rename_i hs hr _ resp hp
      unfold handleSessionInitResponse
      cases hcall : (s.popped rest).completionCall P resp e with
      | error x => exact refuse x
      | ok c =>
        simp only [SessionCompletionRequest.build, completionCall_cM hP hcall, ↓reduceIte]
        exact .called hq hl hp hs hr hc hcall
    · exact refuse _
  · -- EXPECT_SESSION_COMPLETION_REQUEST
    split
    · rename_i hs hr _ req hp
      rw [handleSessionCompletionRequest_eq]
      cases ho : (s.popped rest).openCompletion P req with
      | error x => exact refuse x
      | ok o => exact .completed hq hl hp hs hr hc ho
    · exact refuse _
  · -- EXPECT_SESSION_COMPLETION_RESPONSE
    split
    · rename_i hs hr _ resp hp
      unfold handleSessionCompletionResponse
      split
      · exact refuse _
      · rename_i sent hsent
        by_cases hm : resp.hM = P.sha256 sent
        · cases hmm : resp.m with
          | none =>
            simp only [hm, ne_eq, not_true_eq_false, ↓reduceIte]
            exact .confirmed hq hl hp hs hr hc hsent hm hmm
          | some m =>
            simp only [hm, ne_eq, not_true_eq_false, ↓reduceIte]
            cases ho : (s.popped rest).openReply P m with
            | error x => exact refuse _
            | ok reply => exact .replied hq hl hp hs hr hc hsent hm hmm ho
        · simp only [hm, ne_eq, not_false_eq_true, ↓reduceIte]
          exact refuse _
    · exact refuse _
  · -- ESTABLISHED
    split
    · rename_i hs _ inner hp
      unfold handleEstablishedMessage
      cases ho : (s.popped rest).openMessage P inner with
      | error x => exact refuse x
      | ok text =>
        have : Took P s now e _ none := .received hq hl hp hs hc ho
        cases hr : s.role <;> simpa [countReceived, hr] using this
    · exact refuse _
  · exact refuse _

variable [DecidableEq π]

theorem takeIncoming_took (s : Session β π) (now : Int) (e : Entropy β) :
    Took P s now e (s.takeIncoming P now e).1 (s.takeIncoming P now e).2 := by
  unfold takeIncoming
  split
  · rename_i hq
    exact .idle hq
  · rename_i der rest hq
    change Took P s now e ((s.popped rest).processIncoming P der now e).1
      ((s.popped rest).processIncoming P der now e).2
    unfold processIncoming
    by_cases hd : s.lastReceived = some der
    · simpa [hd] using Took.resent hq hd
    simp only [hd, ↓reduceIte]
    cases hl : P.load der with
    | error x =>
      cases hx : x.isValueError with
      | false => simpa [hx] using Took.undecoded hq hl hx
      | true => simpa [hx] using Took.ignored hq fun msg hmsg => by simp [hl] at hmsg
    | ok msg =>
      by_cases hf : s.state = .initial ∧ s.role = .responder
      · simp only [if_pos hf]
        cases hp : msg.payload with
        | sessionInitRequest req =>
          simp only [handleSessionInitRequest]
          cases hr : { s.popped rest with cid := some msg.cid }.initReply P req e with
          | error x => exact .refused hq hl (.inr ⟨hf.1, hf.2, rfl⟩)
          | ok r => exact .answered hq hl hp hf.1 hf.2 hr
        | _ => exact .ignored hq fun _ _ => .inl hf
      · simp only [if_neg hf]
        by_cases hc : some msg.cid = s.cid
        · simpa [hc] using dispatch_took hP now e hq hl hc.symm
        · rw [if_pos hc]
          refine .ignored hq fun msg' hl' => .inr fun hc' => ?_
          rw [hl] at hl'
          cases hl'
          exact hc hc'.symm

/-- An update is what it takes, then what it sends, then what the clock does; an
exception ends it there. -/
inductive Updated (P : Primitives β π) (s : Session β π) (now : Int) (e : Entropy β) :
    Session β π → Except PyError (UpdateResult × WithTop Int) → Prop
  | dropped {r} : s.state = .dropped → Updated P s now e s (.ok r)
  | raised {s₁ x} : s.state ≠ .dropped → Took P s now e s₁ (some x) → Updated P s now e s₁ (.error x)
  | sendRaised {s₁ s₂ x} : s.state ≠ .dropped → Took P s now e s₁ none → Sent P s₁ s₂ (some x) →
      Updated P s now e s₂ (.error x)
  | done {s₁ s₂ s₃ r} : s.state ≠ .dropped → Took P s now e s₁ none → Sent P s₁ s₂ none →
      Ticked s₂ now s₃ → Updated P s now e s₃ (.ok r)

theorem update_cases (s : Session β π) (now : Int) (e : Entropy β) :
    Updated P s now e (s.update P now e).1 (s.update P now e).2 := by
  unfold update
  split
  · rename_i hd
    exact .dropped hd
  · rename_i hd
    have ht := takeIncoming_took hP s now e
    split
    · rename_i s₁ x h₁
      rw [h₁] at ht
      exact .raised hd ht
    · rename_i s₁ h₁
      rw [h₁] at ht
      have hs := sendPending_sent (P := P) s₁
      split
      · rename_i s₂ x h₂
        rw [h₂] at hs
        exact .sendRaised hd ht hs
      · rename_i s₂ h₂
        rw [h₂] at hs
        split
        · exact .done hd ht hs .idle
        · exact .done hd ht hs (checkDeadline_ticked s₂ now)

/-- What each of the three parts preserves, an update preserves, raising or not. -/
theorem update_preserves {I : Session β π → Prop} {s : Session β π} {now : Int} {e : Entropy β}
    (hTook : ∀ s' x, Took P s now e s' x → I s → I s')
    (hSent : ∀ s₁ s' x, Sent P s₁ s' x → I s₁ → I s')
    (hTicked : ∀ s₁ s', Ticked s₁ now s' → I s₁ → I s') (h : I s) : I (s.update P now e).1 := by
  have hu := update_cases hP s now e
  generalize (s.update P now e).1 = s', (s.update P now e).2 = r at hu
  cases hu with
  | dropped => exact h
  | raised _ ht => exact hTook _ _ ht h
  | sendRaised _ ht hs => exact hSent _ _ _ hs (hTook _ _ ht h)
  | done _ ht hs hk => exact hTicked _ _ hk (hSent _ _ _ hs (hTook _ _ ht h))

theorem update_silent {s : Session β π} (h : s.Silent) (now : Int) (e : Entropy β) :
    (s.update P now e).1.Silent := by
  refine update_preserves hP (fun _ _ ht => ht.silent) (fun s₁ s' x hs h => ?_)
    (fun s₁ s' hk h => ?_) h
  · cases hs with
    | idle => exact h
    | failed hs => intro hs'; rw [hs] at hs'; cases hs'
    | message hs =>
      intro hs'
      simp only [countSent_eq] at hs'
      rw [hs] at hs'
      cases hs'
  · cases hk with
    | idle => exact h
    | dropped => intro hs'; cases hs'
    | retried _ hs =>
      intro hs'
      rw [resend_eq] at hs'
      exact absurd hs' hs

/-- An established session stays so. -/
theorem update_established {s : Session β π} (h : s.state = .established) (now : Int)
    (e : Entropy β) : (s.update P now e).1.state = .established := by
  refine update_preserves (I := fun s => s.state = .established) hP (fun _ _ ht h => ?_)
    (fun _ _ _ hs h => hs.frame.1.trans h) (fun _ _ hk h => ?_) h
  · cases ht.advances with
    | stays hs => exact hs.trans h
    | answers hs | completes hs | calls hs | confirms _ _ _ hs =>
      rw [h] at hs
      cases hs
  · obtain ⟨hs | ⟨_, hne, _⟩, _⟩ := hk.frame
    · exact hs.trans h
    · exact absurd h hne

theorem update_identity (s : Session β π) (now : Int) (e : Entropy β) :
    (s.update P now e).1.identity = s.identity :=
  update_preserves hP (fun _ _ ht _ => ht.identity) (fun _ _ _ hs h => hs.identity.trans h)
    (fun _ _ hk h => hk.identity.trans h) rfl

theorem update_pursuit {s : Session β π} (hr : s.role = .initiator) (now : Int) (e : Entropy β) :
    (s.update P now e).1.pursuit = s.pursuit :=
  update_preserves hP (fun _ _ ht _ => ht.pursuit hr) (fun _ _ _ hs h => hs.pursuit.trans h)
    (fun _ _ hk h => hk.pursuit.trans h) rfl

end

end Session

end KemMake
