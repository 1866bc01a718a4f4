import KemMake.Coherence
import KemMake.Tables

/-!
# Exceptions that escape from the dispatcher

`post_pdu` catches HandshakeFailed and UnexpectedPDU. `Stumbles` lists, for each
payload, what makes a handler raise anything else, `Overflows` the one exception of
sending, and `Escapes` where in the dispatcher they get through.
-/

namespace KemMake

variable {β π : Type}

/-- Ends with an exception that the dispatcher does not catch. -/
def Escaping {α : Type} (r : Except PyError α) : Prop := ∃ x, r = .error x ∧ x.caught = false

section
variable {α γ : Type}

@[simp] theorem escaping_ok (a : α) : ¬ Escaping (.ok a) := by simp [Escaping]

@[simp] theorem escaping_pure (a : α) : ¬ Escaping (pure a) := escaping_ok a

@[simp] theorem escaping_error (x : PyError) :
    Escaping (.error x : Except PyError α) ↔ x.caught = false := by simp [Escaping]

theorem escaping_bind {r : Except PyError α} {f : α → Except PyError γ} :
    Escaping (r >>= f) ↔ Escaping r ∨ ∃ a, r = .ok a ∧ Escaping (f a) := by
  cases r <;> simp [Escaping, bind, Except.bind]

theorem escaping_attr {o : Option α} : Escaping (attr o) ↔ o = none := by
  cases o <;> simp [attr, PyError.caught]

@[simp] theorem escaping_orHandshakeFailed (why : HandshakeFailure) (r : Except PyError α) :
    ¬ Escaping (orHandshakeFailed why r) := by
  cases r <;> simp [orHandshakeFailed, PyError.caught]

@[simp] theorem escaping_chooseAead (acceptable : List Aead) (requested : List Oid) :
    ¬ Escaping (chooseAead acceptable requested) := by
  unfold chooseAead
  split <;> simp [PyError.caught]

@[simp] theorem escaping_checkAead (acceptable : List Aead) (oid : Oid) :
    ¬ Escaping (checkAead acceptable oid) := by
  unfold checkAead
  split
  · simp [PyError.caught]
  · split <;> simp [PyError.caught]

theorem checkAead_ok_iff {acceptable : List Aead} {oid : Oid} {chosen : Aead} :
    checkAead acceptable oid = .ok chosen ↔ aeadName oid = some chosen ∧ chosen ∈ acceptable := by
  refine ⟨Session.checkAead_ok, fun ⟨hn, hm⟩ => ?_⟩
  simp [checkAead, hn, hm]

end

/-- No ML-KEM class takes the key: an unknown algorithm, or octets that do not fit it. -/
def CannotEncapsulate (P : Primitives β π) (pk : KemPublicKey β) (coins : List β) : Prop :=
  ∀ level, oidToLevel pk.algorithm.algorithm = some level →
    P.encapsulate level pk.publicKey coins = none

section
variable {P : Primitives β π}

theorem escaping_levelOf {pk : KemPublicKey β} :
    Escaping (levelOf pk) ↔ oidToLevel pk.algorithm.algorithm = none := by
  unfold levelOf
  split <;> simp [*, PyError.caught]

theorem levelOf_ok {pk : KemPublicKey β} {level : Level} :
    levelOf pk = .ok level ↔ oidToLevel pk.algorithm.algorithm = some level := by
  unfold levelOf
  split <;> simp [*]

theorem escaping_decapsulate {seed : List β} {level : Level} {ct : KemCiphertext β} :
    Escaping (decapsulate P seed level ct) ↔ P.decapsulate level seed ct.ciphertext = none := by
  unfold decapsulate
  split <;> simp [*, PyError.caught]

theorem decapsulate_ok_or {seed : List β} {level : Level} {ct : KemCiphertext β} {Q : Prop} :
    (P.decapsulate level seed ct.ciphertext = none ∨
      (∃ shared, decapsulate P seed level ct = .ok shared) ∧ Q) ↔
      P.decapsulate level seed ct.ciphertext = none ∨ Q := by
  unfold decapsulate
  split <;> simp [*]

variable (hP : P.Correct)
include hP

theorem escaping_encapsulate {pk : KemPublicKey β} {coins : List β} :
    Escaping (encapsulate P pk coins) ↔ CannotEncapsulate P pk coins := by
  unfold encapsulate CannotEncapsulate levelOf
  cases hl : oidToLevel pk.algorithm.algorithm with
  | none => simp [bind, Except.bind, PyError.caught]
  | some level =>
    cases he : P.encapsulate level pk.publicKey coins with
    | none => simp [bind, Except.bind, he, PyError.caught]
    | some r =>
      obtain ⟨shared, ct⟩ := r
      simp [bind, Except.bind, he, KemCiphertext.build, KemCiphertext.validateLength, kemAlg,
        hP.octets_ciphertext _ _ _ _ _ he, pure, Except.pure]

theorem encapsulate_ok_or {pk : KemPublicKey β} {coins : List β} {Q : Prop} :
    (CannotEncapsulate P pk coins ∨ (∃ r, encapsulate P pk coins = .ok r) ∧ Q) ↔
      CannotEncapsulate P pk coins ∨ Q := by
  rw [← escaping_encapsulate hP]
  cases he : encapsulate P pk coins with
  | ok r => simp
  | error x =>
    suffices hx : x.caught = false by simp [hx]
    unfold encapsulate levelOf at he
    cases hl : oidToLevel pk.algorithm.algorithm with
    | none =>
      simp only [hl, bind, Except.bind] at he
      cases he
      rfl
    | some level =>
      cases hr : P.encapsulate level pk.publicKey coins with
      | none =>
        simp only [hl, bind, Except.bind, hr] at he
        cases he
        rfl
      | some r =>
        obtain ⟨shared, ct⟩ := r
        simp [hl, bind, Except.bind, hr, KemCiphertext.build, KemCiphertext.validateLength, kemAlg,
          hP.octets_ciphertext _ _ _ _ _ hr, pure, Except.pure] at he

theorem generateEphemeral_correct (level : Level) (seed : List β) : generateEphemeral P level seed =
    .ok (seed, ⟨kemAlg (mlkemOid level), P.publicBytes level seed⟩) := by
  simp [generateEphemeral, KemPublicKey.build, KemPublicKey.validateLength, kemAlg,
    hP.octets_publicBytes, bind, Except.bind, pure, Except.pure]

end

namespace Session
variable (P : Primitives β π)

/-- What makes a handler raise something other than HandshakeFailed. -/
def Stumbles (s : Session β π) (e : Entropy β) : MakePayload β → Prop
  | .sessionInitRequest req => s.state = .initial ∧ s.role = .responder ∧
      ∃ seed pk, s.keys.getPrivateKey req.keyIdB = .ok seed ∧
        s.keys.getPublicKey req.keyIdA = .ok pk ∧
        (CannotEncapsulate P req.pkAStar e.coins ∨
          (∃ level, oidToLevel req.pkAStar.algorithm.algorithm = some level ∧
            P.decapsulate level seed req.ct1.ciphertext = none) ∨
          CannotEncapsulate P pk e.coins')
  | .sessionInitResponse resp => s.state = .expectSessionInitResponse ∧
      ∃ own eph, s.ownKeyId = some own ∧ s.ownEphemeralPrivate = some eph ∧
        (Escaping (s.keys.getPrivateKey own) ∨ ∃ seed, s.keys.getPrivateKey own = .ok seed ∧
          (P.decapsulate s.config.kemLevel eph resp.ct2.ciphertext = none ∨
            P.decapsulate s.config.kemLevel seed resp.ct3.ciphertext = none ∨
            (∃ chosen, aeadName resp.chosenAead = some chosen ∧
              chosen ∈ s.config.acceptableAeads) ∧ CannotEncapsulate P resp.pkBStar e.coins))
  | .sessionCompletionRequest req => s.state = .expectSessionCompletionRequest ∧
      ∃ eph, s.ownEphemeralPrivate = some eph ∧
        P.decapsulate s.config.kemLevel eph req.ct4.ciphertext = none
  | .sessionCompletionResponse _ => False
  | .message msg => s.state = .established ∧
      ∃ keys cid, s.sessionKeys = some keys ∧ s.cid = some cid ∧
        if msg.seq = (s.receiving keys).2.2 then
          ∀ text, decrypt P keys.aeadName (s.receiving keys).1 (s.receiving keys).2.1
            (s.receiving keys).2.2 msg.m cid ≠ .ok text
        else 10 ^ intMaxStrDigits ≤ msg.seq.natAbs

/-- A message that an established session accepts. -/
def Accepts (s : Session β π) : MakePayload β → Prop
  | .message msg => ∃ keys cid text, s.sessionKeys = some keys ∧ s.cid = some cid ∧
      msg.seq = (s.receiving keys).2.2 ∧
      decrypt P keys.aeadName (s.receiving keys).1 (s.receiving keys).2.1
        (s.receiving keys).2.2 msg.m cid = .ok text
  | _ => False

/-- A payload is waiting and there is no sequence number left to send it with. -/
def Overflows (s : Session β π) : Prop :=
  s.state = .established ∧ s.pendingPayload ≠ none ∧
    ∃ keys, s.sessionKeys = some keys ∧ 256 ^ aeadNonceLength ≤ (s.sending keys).2.2

/-- An update on `der` alone raises past the dispatcher. -/
def Escapes (s : Session β π) (der : π) (e : Entropy β) (payload : MakePayload β) : Prop :=
  s.lastReceived ≠ some der ∧ s.Stumbles P e payload ∨
    s.Overflows ∧ (s.lastReceived = some der ∨ s.Accepts P payload)

section
variable {P} (hP : P.Correct) {s : Session β π} {e : Entropy β}

include hP in
theorem escaping_initReply {req : SessionInitRequest β} {cid : List β} (hc : s.cid = some cid)
    (hs : s.state = .initial) (hr : s.role = .responder) :
    Escaping (s.initReply P req e) ↔ s.Stumbles P e (.sessionInitRequest req) := by
  simp only [initReply, escaping_bind, escaping_orHandshakeFailed, orHandshakeFailed_ok,
    escaping_levelOf, levelOf_ok, escaping_decapsulate, generateEphemeral_correct hP, escaping_ok,
    escaping_encapsulate hP, escaping_chooseAead, escaping_attr, hc, escaping_pure, false_or,
    reduceCtorEq, and_false, exists_false, or_false, exists_and_right, decapsulate_ok_or,
    encapsulate_ok_or hP, Except.ok.injEq, exists_eq', true_and, Stumbles, hs, hr]
  constructor
  · rintro ⟨seed, hseed, pk, hpk, h⟩
    refine ⟨seed, pk, hseed, hpk, ?_⟩
    rcases h with hl | ⟨level, hl, hd | h2 | h3⟩
    · exact .inl fun level h => by simp [hl] at h
    · exact .inr (.inl ⟨level, hl, hd⟩)
    · exact .inl h2
    · exact .inr (.inr h3)
  · rintro ⟨seed, pk, hseed, hpk, h⟩
    refine ⟨seed, hseed, pk, hpk, ?_⟩
    cases hl : oidToLevel req.pkAStar.algorithm.algorithm with
    | none => exact .inl rfl
    | some level =>
      rcases h with h2 | ⟨level', hl', hd⟩ | h3
      · exact .inr ⟨level, rfl, .inr (.inl h2)⟩
      · rw [hl] at hl'
        cases hl'
        exact .inr ⟨level, rfl, .inl hd⟩
      · exact .inr ⟨level, rfl, .inr (.inr h3)⟩

include hP in
theorem escaping_completionCall {resp : SessionInitResponse β} (h : s.Coherent P)
    (hs : s.state = .expectSessionInitResponse) :
    Escaping (s.completionCall P resp e) ↔ s.Stumbles P e (.sessionInitResponse resp) := by
  obtain ⟨_, own, cid, eph, s1, ho, hc, he, h1⟩ := h.calling hs
  simp only [completionCall, escaping_bind, escaping_attr, attr_ok, ho, he, h1, hc,
    escaping_decapsulate, escaping_checkAead, checkAead_ok_iff, escaping_encapsulate hP,
    encrypt_zero, escaping_ok, escaping_pure, false_or, reduceCtorEq, Option.some.injEq,
    exists_eq_left', and_false, exists_false, or_false, exists_and_right, decapsulate_ok_or,
    exists_and_left, Stumbles, hs, true_and]

theorem escaping_openCompletion {req : SessionCompletionRequest β} (h : s.Coherent P)
    (hs : s.state = .expectSessionCompletionRequest) :
    Escaping (s.openCompletion P req) ↔ s.Stumbles P e (.sessionCompletionRequest req) := by
  obtain ⟨_, cid, eph, peer, nB, s1, s2, s3, aead, hc, he, hp, hn, h1, h2, h3, ha⟩ := h.answered hs
  simp only [openCompletion, escaping_bind, escaping_attr, attr_ok, he, hn, hp, h1, h2, h3, ha, hc,
    escaping_decapsulate, escaping_orHandshakeFailed, escaping_pure, false_or, reduceCtorEq,
    Option.some.injEq, exists_eq_left', and_false, exists_false, or_false, Stumbles, hs, true_and]

theorem escaping_decrypt {aead : Aead} {key iv ct ad : List β} {seq : Nat} :
    Escaping (decrypt P aead key iv seq ct ad) ↔ ∀ text, decrypt P aead key iv seq ct ad ≠ .ok text := by
  cases hd : decrypt P aead key iv seq ct ad with
  | ok text => simp
  | error x =>
    suffices hx : x.caught = false by simp [hx]
    simp only [decrypt, nonceForSeq, toBytesBig, bind, Except.bind] at hd
    split at hd
    · rename_i hn
      split at hn
      · rename_i hb
        split at hb
        · cases hb
        · cases hb
          cases hn
          cases hd
          rfl
      · cases hn
    · split at hd
      · cases hd
        rfl
      · cases hd

theorem unexpectedSeq_escapes {seq : Int} {expected : Nat} :
    (unexpectedSeq seq expected).caught = false ↔ 10 ^ intMaxStrDigits ≤ seq.natAbs := by
  unfold unexpectedSeq
  split
  · rename_i hlt
    exact iff_of_false (by simp [PyError.caught]) (Nat.not_le.mpr hlt)
  · rename_i hge
    exact iff_of_true rfl (Nat.not_lt.mp hge)

theorem escaping_openMessage {msg : Message β} (h : s.Coherent P) (hs : s.state = .established) :
    Escaping (s.openMessage P msg) ↔ s.Stumbles P e (.message msg) := by
  obtain ⟨keys, cid, hk, hc⟩ := h.established hs
  simp only [openMessage, escaping_bind, escaping_attr, attr_ok, hk, hc, false_or, Stumbles, hs,
    true_and, reduceCtorEq, Option.some.injEq, exists_and_left, exists_eq_left',
    ← escaping_decrypt]
  by_cases hseq : msg.seq = (s.receiving keys).2.2 <;> simp [hseq, unexpectedSeq_escapes]

theorem openMessage_ok {msg : Message β} (h : s.Coherent P) (hs : s.state = .established) :
    (∃ text, s.openMessage P msg = .ok text) ↔ s.Accepts P (.message msg) := by
  obtain ⟨keys, cid, hk, hc⟩ := h.established hs
  simp only [openMessage, bind_ok, attr_ok, hk, hc, Accepts, Option.some.injEq, exists_and_left,
    exists_eq_left']
  by_cases hseq : msg.seq = (s.receiving keys).2.2 <;> simp [hseq]

/-- Sending fails for want of a sequence number only. -/
theorem messagePdu_cases {keys : SessionKeys β} (payload : List β) (h : s.Coherent P)
    (hs : s.state = .established) (hk : s.sessionKeys = some keys) :
    (s.sending keys).2.2 < 256 ^ aeadNonceLength ∧ (∃ pdu, s.messagePdu P payload = .ok pdu) ∨
      256 ^ aeadNonceLength ≤ (s.sending keys).2.2 ∧
        s.messagePdu P payload = .error .overflowError := by
  obtain ⟨_, cid, _, hc⟩ := h.established hs
  have hiv : P.octets (s.sending keys).2.1 = aeadNonceLength := by
    unfold sending
    split
    · exact (h.ivs _ hk).1
    · exact (h.ivs _ hk).2
  by_cases hlt : (s.sending keys).2.2 < 256 ^ aeadNonceLength
  · refine .inl ⟨hlt, ?_⟩
    simp [messagePdu, hk, hc, attr, encrypt, nonceForSeq, hiv, toBytesBig, hlt, bind, Except.bind,
      pure, Except.pure]
  · refine .inr ⟨by omega, ?_⟩
    simp [messagePdu, hk, hc, attr, encrypt, nonceForSeq, hiv, toBytesBig, hlt, bind, Except.bind]

theorem sendPending_raises (h : s.Coherent P) :
    (s.sendPending P).2 = none ∧ ¬ s.Overflows ∨
      (s.sendPending P).2 = some .overflowError ∧ s.Overflows := by
  have hsent := sendPending_sent (P := P) s
  generalize (s.sendPending P).1 = s', (s.sendPending P).2 = x at hsent
  cases hsent with
  | idle hi => exact .inl ⟨rfl, fun ho => hi.elim (fun hs => hs ho.1) ho.2.1⟩
  | failed hs hp hm =>
    obtain ⟨keys, _, hk, _⟩ := h.established hs
    rcases messagePdu_cases _ h hs hk with ⟨_, pdu, hpdu⟩ | ⟨hle, he⟩
    · rw [hm] at hpdu
      cases hpdu
    · rw [hm] at he
      cases he
      exact .inr ⟨rfl, hs, by simp [hp], keys, hk, hle⟩
  | message hs hp hm =>
    obtain ⟨keys, _, hk, _⟩ := h.established hs
    rcases messagePdu_cases _ h hs hk with ⟨hlt, _⟩ | ⟨_, he⟩
    · refine .inl ⟨rfl, fun ho => ?_⟩
      obtain ⟨keys', hk', hle⟩ := ho.2.2
      rw [hk] at hk'
      cases hk'
      omega
    · rw [hm] at he
      cases he

/-- An exception that the dispatcher does not catch. -/
def Escaped (x : Option PyError) : Prop := ∃ y, x = some y ∧ y.caught = false

theorem escaped_handleSessionInitRequest {req : SessionInitRequest β} {der : π} {now : Int} :
    Escaped (s.handleSessionInitRequest P req der now e).2 ↔ Escaping (s.initReply P req e) := by
  unfold handleSessionInitRequest
  cases s.initReply P req e <;> simp [Escaped]

variable [DecidableEq β] {der : π} {now : Int}

include hP in
theorem escaped_dispatch (h : s.Coherent P) (hs : s.state ≠ .initial) (payload : MakePayload β) :
    Escaped (s.dispatch P payload der now e).2 ↔ s.Stumbles P e payload := by
  cases hst : s.state with
  | initial => exact absurd hst hs
  | expectSessionInitResponse =>
    have hr := (h.calling hst).1
    cases payload with
    | sessionInitResponse resp =>
      rw [← escaping_completionCall hP h hst]
      simp only [dispatch, hst, hr, handleSessionInitResponse]
      cases hcall : s.completionCall P resp e with
      | error x => simp [Escaped]
      | ok c =>
        simp [SessionCompletionRequest.build, completionCall_cM hP.encrypt_ne_nil hcall, Escaped]
    | _ => simp [dispatch, hst, hr, Escaped, PyError.caught, Stumbles]
  | expectSessionCompletionRequest =>
    have hr := (h.answered hst).1
    cases payload with
    | sessionCompletionRequest req =>
      rw [← escaping_openCompletion h hst]
      simp only [dispatch, hst, hr, handleSessionCompletionRequest_eq]
      cases s.openCompletion P req <;> simp [Escaped]
    | _ => simp [dispatch, hst, hr, Escaped, PyError.caught, Stumbles]
  | expectSessionCompletionResponse =>
    have hr := (h.called hst).1
    cases payload with
    | sessionCompletionResponse resp =>
      simp only [dispatch, hst, hr, handleSessionCompletionResponse, Stumbles, iff_false]
      obtain ⟨_, _, keys, cid, sent, _, _, hsent⟩ := h.called hst
      rw [hsent]
      simp only
      split
      · simp [Escaped, PyError.caught]
      · split
        · simp [Escaped]
        · split <;> simp [Escaped, PyError.caught]
    | _ => simp [dispatch, hst, hr, Escaped, PyError.caught, Stumbles]
  | established =>
    cases payload with
    | message msg =>
      rw [← escaping_openMessage h hst]
      simp only [dispatch, hst, handleEstablishedMessage]
      cases s.openMessage P msg <;> simp [Escaped]
    | _ => simp [dispatch, hst, Escaped, PyError.caught, Stumbles]
  | dropped =>
    cases payload <;> simp [dispatch, hst, Escaped, PyError.caught, Stumbles]

variable [DecidableEq π] {msg : MakeMessage β}

include hP in
/-- A PDU of this session, or the first one of a new responder session. -/
theorem escaped_processIncoming (h : s.Coherent P) (hl : P.load der = .ok msg)
    (hc : s.state = .initial ∧ s.role = .responder ∨ s.state ≠ .initial ∧ s.cid = some msg.cid) :
    Escaped (s.processIncoming P der now e).2 ↔
      s.lastReceived ≠ some der ∧ s.Stumbles P e msg.payload := by
  unfold processIncoming
  by_cases hd : s.lastReceived = some der
  · simp [hd, Escaped]
  · simp only [hd, ↓reduceIte, hl, ne_eq, not_false_eq_true, true_and]
    rcases hc with hc | ⟨hs, hc⟩
    · rw [if_pos hc]
      cases msg.payload with
      | sessionInitRequest req =>
        exact escaped_handleSessionInitRequest.trans
          (escaping_initReply hP (s := { s with cid := some msg.cid }) rfl hc.1 hc.2)
      | _ => simp [Escaped, Stumbles, hc.1]
    · simp only [hs, false_and, ↓reduceIte, hc, not_true_eq_false]
      exact escaped_dispatch hP h hs msg.payload

/-- An established session takes a duplicate, or a message it accepts. -/
theorem processIncoming_none (h : s.Coherent P) (hs : s.state = .established)
    (hl : P.load der = .ok msg) (hc : s.cid = some msg.cid) :
    (s.processIncoming P der now e).2 = none ↔ s.lastReceived = some der ∨ s.Accepts P msg.payload := by
  by_cases hd : s.lastReceived = some der
  · simp [processIncoming, hd]
  · rw [processIncoming_dispatch hd hl (by simp [hs]) hc]
    simp only [hd, false_or]
    cases msg.payload with
    | message inner =>
      rw [← openMessage_ok h hs]
      simp only [dispatch, hs, handleEstablishedMessage]
      cases s.openMessage P inner <;> simp
    | _ => simp [dispatch, hs, Accepts]

omit [DecidableEq β] [DecidableEq π] in
/-- What a session has taken does not use up its own sequence numbers. -/
theorem Took.overflows {s₁ : Session β π} (ht : Took P s now e s₁ none) (h : s.Coherent P) :
    s₁.Overflows ↔ s.Overflows := by
  cases ht with
  | idle | ignored => rfl
  | resent => rw [resend_eq]; rfl
  | answered _ _ _ hs => simp [Overflows, acceptInitRequest, hs]
  | completed _ _ _ hs => simp [Overflows, acceptCompletion, opened, hs]
  | called _ _ _ hs => simp [Overflows, acceptInitResponse, hs]
  | confirmed _ _ _ hs hr =>
    obtain ⟨_, hseq, _⟩ := h.called hs
    simp [Overflows, acceptReply, hs, sending, hr, hseq, aeadNonceLength]
  | replied _ _ _ hs hr =>
    obtain ⟨_, hseq, _⟩ := h.called hs
    simp [Overflows, acceptReply, hs, sending, hr, hseq, aeadNonceLength]
  | received _ _ _ hs =>
    rw [countReceived_eq]
    cases hr : s.role <;> simp [Overflows, sending, hr]

include hP in
/-- What one PDU can make a session raise past the dispatcher. -/
theorem escaping_update (h : s.Coherent P) (hq : s.incomingQueue = [] ∨ s.state = .dropped)
    (hl : P.load der = .ok msg)
    (hc : s.state = .initial ∧ s.role = .responder ∨ s.state ≠ .initial ∧ s.cid = some msg.cid)
    (now : Int) (e : Entropy β) :
    Escaping ((s.postPdu der).update P now e).2 ↔ s.Escapes P der e msg.payload := by
  by_cases hdrop : s.state = .dropped
  · rw [update_dropped (show (s.postPdu der).state = .dropped from hdrop)]
    cases msg.payload <;> simp [Escapes, Stumbles, Overflows, hdrop]
  have hq := hq.resolve_right hdrop
  have hproc : Escaped (s.processIncoming P der now e).2 ↔ _ :=
    escaped_processIncoming hP h hl hc
  have ht := takeIncoming_took hP.encrypt_ne_nil (s.postPdu der) now e
  have hdrop : (s.postPdu der).state ≠ .dropped := hdrop
  rw [takeIncoming_postPdu hq] at ht
  have htaken : s.Overflows → ((s.processIncoming P der now e).2 = none ↔
      s.lastReceived = some der ∨ s.Accepts P msg.payload) := fun ho =>
    processIncoming_none h ho.1 hl (hc.resolve_left fun hi => by simp [ho.1] at hi).2
  unfold update Escapes
  rw [← hproc, takeIncoming_postPdu hq, if_neg hdrop]
  rcases hr : s.processIncoming P der now e with ⟨s₁, x | _⟩
  · -- taken: what remains is to send
    rw [hr] at ht htaken
    have hsend := sendPending_raises (ht.coherent hP (h.postPdu der))
    simp only [ht.overflows (h.postPdu der)] at hsend
    change _ ∧ ¬ s.Overflows ∨ _ ∧ s.Overflows at hsend
    rcases hs₂ : s₁.sendPending P with ⟨s₂, x⟩
    rw [hs₂] at hsend
    rcases hsend with ⟨rfl, hno⟩ | ⟨rfl, ho⟩
    · simp only [hs₂, hno, false_and, or_false]
      split <;> simp [Escaped]
    · simp only [hs₂, ho, true_and, (htaken ho).mp rfl, or_true, iff_true]
      simp [PyError.caught]
  · -- refused: the exception is the handler's
    rw [hr] at htaken
    have hno : ¬ (s.Overflows ∧ (s.lastReceived = some der ∨ s.Accepts P msg.payload)) :=
      fun ⟨ho, ha⟩ => by simpa using (htaken ho).mpr ha
    simp [hno, Escaped]

end

end Session

end KemMake
