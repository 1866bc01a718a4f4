import KemMake.Delivery

/-!
# What one honest handshake says

The values that an initiator and a responder of one ML-KEM level draw and derive,
collected as the handshake goes on, and the PDUs made of them.
-/

namespace KemMake

variable {β π : Type}

/-- `a` and `b` register each other at one level, and hold their own keys. -/
structure Peers (P : Primitives β π) where
  level : Level
  aliceId : KeyId β
  bobId : KeyId β
  aliceSeed : List β
  bobSeed : List β
  aliceKeys : KeyLookup β
  bobKeys : KeyLookup β
  aliceConfig : SessionConfig
  bobConfig : SessionConfig
  aliceSeed_fits : P.octets aliceSeed = seedLen
  bobSeed_fits : P.octets bobSeed = seedLen
  alice_private : aliceKeys.getPrivateKey aliceId = .ok aliceSeed
  bob_private : bobKeys.getPrivateKey bobId = .ok bobSeed
  bob_public : aliceKeys.getPublicKey bobId = .ok (wireKey P level bobSeed)
  alice_public : bobKeys.getPublicKey aliceId = .ok (wireKey P level aliceSeed)
  alice_level : aliceConfig.kemLevel = level
  bob_level : bobConfig.kemLevel = level

variable {P : Primitives β π}

/-- A SessionInitRequest. -/
structure Offered (q : Peers P) where
  cid : List β
  seedA : List β
  coins1 : List β
  s1 : List β
  ct1 : List β
  cid_fits : P.octets cid = cidLen
  seedA_fits : P.octets seedA = seedLen
  first : P.encapsulate q.level (P.publicBytes q.level q.bobSeed) coins1 = some (s1, ct1)

/-- Its SessionInitResponse. -/
structure Answered (q : Peers P) extends Offered q where
  seedB : List β
  coins2 : List β
  s2 : List β
  ct2 : List β
  coins3 : List β
  s3 : List β
  ct3 : List β
  nB : List β
  aead : Aead
  seedB_fits : P.octets seedB = seedLen
  second : P.encapsulate q.level (P.publicBytes q.level seedA) coins2 = some (s2, ct2)
  third : P.encapsulate q.level (P.publicBytes q.level q.aliceSeed) coins3 = some (s3, ct3)
  chosen : chooseAead q.bobConfig.acceptableAeads (q.aliceConfig.acceptableAeads.map aeadOid) =
    .ok aead

/-- Its SessionCompletionRequest, with the false-start payload. -/
structure Called (q : Peers P) extends Answered q where
  coins4 : List β
  s4 : List β
  ct4 : List β
  nA : List β
  text : List β
  fourth : P.encapsulate q.level (P.publicBytes q.level seedB) coins4 = some (s4, ct4)

def Offered.request {q : Peers P} (o : Offered q) : SessionInitRequest β where
  ct1 := wireCiphertext q.level o.ct1
  keyIdB := q.bobId
  pkAStar := wireKey P q.level o.seedA
  keyIdA := q.aliceId
  acceptableAeads := q.aliceConfig.acceptableAeads.map aeadOid

def Offered.pdu {q : Peers P} (o : Offered q) : π :=
  P.dump (MakeMessage.build o.cid (.sessionInitRequest o.request))

def Answered.response {q : Peers P} (r : Answered q) : SessionInitResponse β where
  pkBStar := wireKey P q.level r.seedB
  ct2 := wireCiphertext q.level r.ct2
  ct3 := wireCiphertext q.level r.ct3
  nB := r.nB
  chosenAead := aeadOid r.aead

def Answered.pdu {q : Peers P} (r : Answered q) : π :=
  P.dump (MakeMessage.build r.cid (.sessionInitResponse r.response))

namespace Called
variable {q : Peers P} (c : Called q)

def keys : SessionKeys β :=
  deriveSessionKeys P c.nA c.nB (P.dumpKeyId q.aliceId) c.s1 c.s2 c.s3 c.s4 c.aead

def cM : List β :=
  P.encrypt c.aead c.keys.keyA2b (firstNonce P c.keys.ivA2b) c.text c.cid

def completion : SessionCompletionRequest β where
  cM := c.cM
  ct4 := wireCiphertext q.level c.ct4
  nA := c.nA

def pdu : π := P.dump (MakeMessage.build c.cid (.sessionCompletionRequest c.completion))

/-- The acknowledgement, with Bob's payload if he had one. -/
def confirmation (reply : Option (List β)) : SessionCompletionResponse β where
  hM := P.sha256 c.text
  m := reply.map fun payload =>
    P.encrypt c.aead c.keys.keyB2a (firstNonce P c.keys.ivB2a) payload c.cid

def replyPdu (reply : Option (List β)) : π :=
  P.dump (MakeMessage.build c.cid (.sessionCompletionResponse (c.confirmation reply)))

/-- A Message under the key, and with the nonce, of a direction. -/
def messagePdu (key nonce : List β) (seq : Nat) (text : List β) : π :=
  P.dump (MakeMessage.build c.cid (.message
    { seq, m := P.encrypt c.aead key nonce text c.cid }))

end Called

/-- How far the handshake has come: `replied` has Bob's payload for `m`. -/
inductive Progress (q : Peers P) where
  | silent
  | offered (o : Offered q)
  | answered (r : Answered q)
  | called (c : Called q)
  | replied (c : Called q) (reply : Option (List β))

namespace Progress
variable {q : Peers P}

def offer? : Progress q → Option (Offered q)
  | silent => none
  | offered o => some o
  | answered r => some r.toOffered
  | called c => some c.toOffered
  | replied c _ => some c.toOffered

def answer? : Progress q → Option (Answered q)
  | silent => none
  | offered _ => none
  | answered r => some r
  | called c => some c.toAnswered
  | replied c _ => some c.toAnswered

def call? : Progress q → Option (Called q)
  | called c => some c
  | replied c _ => some c
  | _ => none

def reply? : Progress q → Option (Called q × Option (List β))
  | replied c reply => some (c, reply)
  | _ => none

theorem silent_of_offer {t : Progress q} (h : t.offer? = none) : t = silent := by
  cases t with
  | silent => rfl
  | _ => cases h

theorem offered_of_none {t : Progress q} {o : Offered q} (ho : t.offer? = some o)
    (ha : t.answer? = none) : t = offered o := by
  cases t with
  | offered o' => cases ho; rfl
  | silent => cases ho
  | _ => cases ha

theorem called_of_none {t : Progress q} {c : Called q} (hc : t.call? = some c)
    (hr : t.reply? = none) : t = called c := by
  cases t with
  | called c' => cases hc; rfl
  | replied => cases hr
  | _ => cases hc

theorem answer_of_call {t : Progress q} {c : Called q} (h : t.call? = some c) :
    t.answer? = some c.toAnswered := by
  cases t <;> cases h <;> rfl

theorem offer_of_answer {t : Progress q} {r : Answered q} (h : t.answer? = some r) :
    t.offer? = some r.toOffered := by
  cases t <;> cases h <;> rfl

theorem call_of_reply {t : Progress q} {c : Called q} {reply : Option (List β)}
    (h : t.reply? = some (c, reply)) : t.call? = some c := by
  cases t with
  | replied => cases h; rfl
  | _ => cases h

end Progress

/-! ## The PDUs decode to what was said -/

section
variable (hP : P.Correct) {q : Peers P}
include hP

theorem Offered.load_pdu (o : Offered q) :
    P.load o.pdu = .ok (MakeMessage.build o.cid (.sessionInitRequest o.request)) :=
  hP.load_dump _ ⟨o.cid_fits, fun _ h => by cases h⟩

theorem Answered.load_pdu (r : Answered q) :
    P.load r.pdu = .ok (MakeMessage.build r.cid (.sessionInitResponse r.response)) :=
  hP.load_dump _ ⟨r.cid_fits, fun _ h => by cases h⟩

theorem Called.load_pdu (c : Called q) :
    P.load c.pdu = .ok (MakeMessage.build c.cid (.sessionCompletionRequest c.completion)) :=
  hP.load_dump _ ⟨c.cid_fits, fun _ h => by cases h; exact hP.encrypt_ne_nil _ _ _ _ _⟩

theorem Called.load_replyPdu (c : Called q) (reply : Option (List β)) :
    P.load (c.replyPdu reply) =
      .ok (MakeMessage.build c.cid (.sessionCompletionResponse (c.confirmation reply))) :=
  hP.load_dump _ ⟨c.cid_fits, fun _ h => by cases h⟩

theorem Called.load_messagePdu (c : Called q) (key nonce : List β) (seq : Nat) (text : List β) :
    P.load (c.messagePdu key nonce seq text) = .ok (MakeMessage.build c.cid (.message
      { seq, m := P.encrypt c.aead key nonce text c.cid })) :=
  hP.load_dump _ ⟨c.cid_fits, fun _ h => by cases h⟩

end

/-! ## What each end makes of them -/

/-- What Alice holds once she has called, until she has a response. -/
structure HoldsOffer {q : Peers P} (o : Offered q) (s : Session β π) : Prop where
  own : s.ownKeyId = some q.aliceId
  keys : s.keys = q.aliceKeys
  config : s.config = q.aliceConfig
  cid : s.cid = some o.cid
  ephemeral : s.ownEphemeralPrivate = some o.seedA
  first : s.s1 = some o.s1

/-- What Bob holds once he has answered, until he is established. -/
structure HoldsAnswer {q : Peers P} (r : Answered q) (s : Session β π) : Prop where
  config : s.config = q.bobConfig
  cid : s.cid = some r.cid
  ephemeral : s.ownEphemeralPrivate = some r.seedB
  peer : s.peerKeyId = some q.aliceId
  first : s.s1 = some r.s1
  second : s.s2 = some r.s2
  third : s.s3 = some r.s3
  nonce : s.nB = some r.nB
  aead : s.chosenAead = some r.aead

def Answered.initReply {q : Peers P} (r : Answered q) : Session.InitReply β π where
  ownEphemeralPrivate := r.seedB
  ownEphemeralPublic := wireKey P q.level r.seedB
  peerStaticPublic := wireKey P q.level q.aliceSeed
  s1 := r.s1
  s2 := r.s2
  s3 := r.s3
  chosen := r.aead
  outDer := r.pdu

def Called.completionCall {q : Peers P} (c : Called q) : Session.CompletionCall β where
  cid := c.cid
  keys := c.keys
  chosen := c.aead
  ct4 := wireCiphertext q.level c.ct4
  plaintext := c.text
  cM := c.cM

def Called.openedCompletion {q : Peers P} (c : Called q) : Session.OpenedCompletion β where
  cid := c.cid
  s4 := c.s4
  keys := c.keys
  plaintext := c.text

/-- The AEAD that Bob chose is one of Alice's. -/
theorem Answered.aead_acceptable {q : Peers P} (r : Answered q) :
    r.aead ∈ q.aliceConfig.acceptableAeads := by
  obtain ⟨_, hoff⟩ := Session.chooseAead_ok r.chosen
  obtain ⟨aead, ha, heq⟩ := List.mem_map.mp hoff
  exact aeadOid_inj heq ▸ ha

section
variable (hP : P.Correct) {q : Peers P} {s : Session β π} {e : Entropy β}
include hP

/-- The first `initiate` of Alice's session. -/
theorem initiate_offer (hs : s.state = .initial)
    (hid : s.identity = (.initiator, some q.aliceId, q.aliceKeys, q.aliceConfig)) (now : Int)
    (he : e.Fits P) : ∃ o : Offered q, o.cid = e.uuid ∧ s.initiate P q.bobId now e =
      let s' : Session β π :=
        { s with
          cid := some o.cid
          peerKeyId := some q.bobId
          ownEphemeralPrivate := some o.seedA
          ownEphemeralPublic := some (wireKey P q.level o.seedA)
          s1 := some o.s1 }
      if q.aliceConfig.acceptableAeads = [] then (s', some .valueError)
      else
        ({ s' with
            lastSent := some o.pdu
            attemptCount := 0
            deadline := some (now + q.aliceConfig.retryIntervalSeconds)
            state := .expectSessionInitResponse
            outgoingPdus := s.outgoingPdus ++ [o.pdu] }, none) := by
  obtain ⟨s1, ct1, h1⟩ := hP.encapsulate_publicBytes q.level q.bobSeed e.coins
  simp only [Session.identity, Prod.mk.injEq] at hid
  obtain ⟨hrole, hown, hkeys, hconfig⟩ := hid
  refine ⟨⟨e.uuid, e.seed, e.coins, s1, ct1, he.uuid, he.seed, h1⟩, rfl, ?_⟩
  simp only [Session.initiate, hrole, hs, hown, Session.sendInitRequest, hkeys, hconfig,
    q.bob_public, q.alice_level, generateEphemeral_ok hP, encapsulate_eq hP h1, ne_eq,
    not_true_eq_false, ↓reduceIte]
  rfl

theorem initReply_offer {o : Offered q} {aead : Aead} (hkeys : s.keys = q.bobKeys)
    (hconfig : s.config = q.bobConfig) (hcid : s.cid = some o.cid) (he : e.Fits P)
    (ha : chooseAead q.bobConfig.acceptableAeads (q.aliceConfig.acceptableAeads.map aeadOid) =
      .ok aead) :
    ∃ r : Answered q, r.toOffered = o ∧ r.nB = e.nonce ∧
      s.initReply P o.request e = .ok r.initReply := by
  obtain ⟨s2, ct2, h2⟩ := hP.encapsulate_publicBytes q.level o.seedA e.coins
  obtain ⟨s3, ct3, h3⟩ := hP.encapsulate_publicBytes q.level q.aliceSeed e.coins'
  have hlevel : levelOf (wireKey P q.level o.seedA) = .ok q.level := by
    simp [levelOf, wireKey, kemAlg]
  let r : Answered q :=
    { o with
      seedB := e.seed, coins2 := e.coins, s2, ct2, coins3 := e.coins', s3, ct3, nB := e.nonce
      aead, seedB_fits := he.seed, second := h2, third := h3, chosen := ha }
  refine ⟨r, rfl, rfl, ?_⟩
  simp only [Session.initReply, Offered.request, hkeys, hconfig, hcid, q.bob_private,
    q.alice_public, hlevel, decapsulate_wire hP q.bobSeed_fits o.first, ↓reduceIte,
    generateEphemeral_ok hP, encapsulate_eq hP h2, encapsulate_eq hP h3, ha, orHandshakeFailed,
    bind, Except.bind, pure, Except.pure, attr]
  rfl

theorem initReply_disjoint {o : Offered q} {x : PyError} (hkeys : s.keys = q.bobKeys)
    (hconfig : s.config = q.bobConfig)
    (hx : chooseAead q.bobConfig.acceptableAeads (q.aliceConfig.acceptableAeads.map aeadOid) =
      .error x) : s.initReply P o.request e = .error x := by
  obtain ⟨s2, ct2, h2⟩ := hP.encapsulate_publicBytes q.level o.seedA e.coins
  obtain ⟨s3, ct3, h3⟩ := hP.encapsulate_publicBytes q.level q.aliceSeed e.coins'
  have hlevel : levelOf (wireKey P q.level o.seedA) = .ok q.level := by
    simp [levelOf, wireKey, kemAlg]
  simp only [Session.initReply, Offered.request, hkeys, hconfig, q.bob_private, q.alice_public,
    hlevel, decapsulate_wire hP q.bobSeed_fits o.first, ↓reduceIte, generateEphemeral_ok hP,
    encapsulate_eq hP h2, encapsulate_eq hP h3, hx, orHandshakeFailed, bind, Except.bind]

theorem completionCall_answer {r : Answered q} (h : HoldsOffer r.toOffered s) :
    ∃ c : Called q, c.toAnswered = r ∧ c.nA = e.nonce ∧ c.text = s.pendingPayload.getD [] ∧
      s.completionCall P r.response e = .ok c.completionCall := by
  obtain ⟨s4, ct4, h4⟩ := hP.encapsulate_publicBytes q.level r.seedB e.coins
  have hcheck : checkAead q.aliceConfig.acceptableAeads (aeadOid r.aead) = .ok r.aead := by
    simp [checkAead, r.aead_acceptable]
  let c : Called q :=
    { r with
      coins4 := e.coins, s4, ct4, nA := e.nonce, text := s.pendingPayload.getD [], fourth := h4 }
  refine ⟨c, rfl, rfl, rfl, ?_⟩
  simp only [Session.completionCall, Answered.response, h.own, h.keys, h.config, h.cid,
    h.ephemeral, h.first, q.alice_private, q.alice_level,
    decapsulate_wire hP r.seedA_fits r.second, decapsulate_wire hP q.aliceSeed_fits r.third,
    ↓reduceIte, hcheck, encapsulate_eq hP h4, encrypt_zero, bind, Except.bind, pure, Except.pure,
    attr]
  rfl

theorem openCompletion_call {c : Called q} (h : HoldsAnswer c.toAnswered s) :
    s.openCompletion P c.completion = .ok c.openedCompletion := by
  have hd : decrypt P c.aead c.keys.keyA2b c.keys.ivA2b 0 c.cM c.cid = .ok c.text :=
    decrypt_zero.mpr (hP.decrypt_encrypt _ _ _ _ _)
  simp only [Called.keys, deriveSessionKeys] at hd
  simp only [Session.openCompletion, Called.completion, h.config, h.cid, h.ephemeral, h.peer,
    h.first, h.second, h.third, h.nonce, h.aead, q.bob_level,
    decapsulate_wire hP c.seedB_fits c.fourth, ↓reduceIte, orHandshakeFailed, bind, Except.bind,
    pure, Except.pure, attr, deriveSessionKeys, hd]
  rfl

theorem openReply_call {c : Called q} (payload : List β) (hk : s.sessionKeys = some c.keys)
    (hc : s.cid = some c.cid) : s.openReply P
      (P.encrypt c.aead c.keys.keyB2a (firstNonce P c.keys.ivB2a) payload c.cid) = .ok payload := by
  simp only [Session.openReply, hk, hc, attr, bind, Except.bind]
  exact decrypt_zero.mpr (hP.decrypt_encrypt _ _ _ _ _)

/-- A Message with the number that is expected opens, any other is refused. -/
theorem openMessage_call {c : Called q} {seq : Nat} {nonce : List β} (text : List β)
    (hk : s.sessionKeys = some c.keys) (hc : s.cid = some c.cid)
    (hn : nonceForSeq P (s.receiving c.keys).2.1 seq = .ok nonce) :
    s.openMessage P { seq, m := P.encrypt c.aead (s.receiving c.keys).1 nonce text c.cid } =
      if seq = s.recvCount then .ok text
      else .error (unexpectedSeq seq s.recvCount) := by
  have hcount : (s.receiving c.keys).2.2 = s.recvCount := by
    rw [Session.receiving_eq]
    cases s.role <;> rfl
  simp only [Session.openMessage, hk, hc, attr, bind, Except.bind, hcount]
  by_cases hseq : seq = s.recvCount
  · subst hseq
    have hd := hP.decrypt_encrypt c.aead (s.receiving c.keys).1 nonce text c.cid
    have haead : c.keys.aeadName = c.aead := rfl
    simp only [decrypt, hn, haead, hd, bind, Except.bind, pure, Except.pure, ne_eq,
      not_true_eq_false, ↓reduceIte]
  · have hne : (seq : Int) ≠ s.recvCount := by omega
    simp only [hseq, hne, ne_eq, not_false_eq_true, ↓reduceIte]

end

end KemMake
