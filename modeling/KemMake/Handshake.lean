import KemMake.Handlers
import KemMake.Ideal

/-!
# The handshake without an adversary

Two sessions pass each other the four handshake PDUs once each, in order. Whether
both end up established depends on the levels of the two static keys and of the
two configurations alone, next to timers that do not expire in the very update
that starts them: `established_iff`.
-/

namespace KemMake

variable {β π : Type} (P : Primitives β π)

/-- A static key pair: what `create_mlkem_keypair` returns, by its seed. -/
structure KeyPair where
  level : Level
  seed : List β
  seed_fits : P.octets seed = seedLen

/-- The public key of a seed as it stands on the wire and in a key store. -/
def wireKey (level : Level) (seed : List β) : KemPublicKey β :=
  ⟨kemAlg (mlkemOid level), P.publicBytes level seed⟩

def wireCiphertext (level : Level) (ct : List β) : KemCiphertext β := ⟨kemAlg (mlkemOid level), ct⟩

/-- `a` and `b` register each other, hold their own keys, and have an AEAD in common. -/
structure Parties where
  aliceId : KeyId β
  bobId : KeyId β
  alice : KeyPair P
  bob : KeyPair P
  aliceKeys : KeyLookup β
  bobKeys : KeyLookup β
  alice_private : aliceKeys.getPrivateKey aliceId = .ok alice.seed
  bob_public : aliceKeys.getPublicKey bobId = .ok (wireKey P bob.level bob.seed)
  bob_private : bobKeys.getPrivateKey bobId = .ok bob.seed
  alice_public : bobKeys.getPublicKey aliceId = .ok (wireKey P alice.level alice.seed)
  aliceConfig : SessionConfig
  bobConfig : SessionConfig
  common : ∃ aead ∈ bobConfig.acceptableAeads, aead ∈ aliceConfig.acceptableAeads

/-- A UUID has 16 octets, a seed 64. -/
structure Entropy.Fits (e : Entropy β) : Prop where
  uuid : P.octets e.uuid = cidLen
  seed : P.octets e.seed = seedLen

section
variable [DecidableEq β] [DecidableEq π]

/-- `sender` gives its next PDU, if it has one, to `receiver`, which updates once on it. -/
def relay (sender receiver : Session β π) (now : Int) (e : Entropy β) :
    Session β π × Session β π :=
  match sender.getPdu with
  | (sender, .error _) => (sender, receiver)
  | (sender, .ok pdu) => (sender, ((receiver.postPdu pdu).update P now e).1)

/-- Request, response, completion request and completion response, with the time and
the draws of each call. -/
def handshake (p : Parties P) (t : Nat → Int) (e : Nat → Entropy β) :
    Session β π × Session β π :=
  let a := ((Session.new .initiator (some p.aliceId) p.aliceKeys p.aliceConfig).initiate P
    p.bobId (t 0) (e 0)).1
  let b := Session.new .responder none p.bobKeys p.bobConfig
  let (a, b) := relay P a b (t 1) (e 1)
  let (b, a) := relay P b a (t 2) (e 2)
  let (a, b) := relay P a b (t 3) (e 3)
  let (b, a) := relay P b a (t 4) (e 4)
  (a, b)

/-- Both ends are established and hold equal secrets. -/
def Agreed (ab : Session β π × Session β π) : Prop :=
  ab.1.state = .established ∧ ab.2.state = .established ∧
    ∃ keys, ab.1.sessionKeys = some keys ∧ ab.2.sessionKeys = some keys

/-- The levels of both static keys and of Bob's configuration are that of Alice's. -/
def SameLevel (p : Parties P) : Prop :=
  p.aliceConfig.kemLevel = p.bob.level ∧ p.aliceConfig.kemLevel = p.alice.level ∧
    p.bobConfig.kemLevel = p.aliceConfig.kemLevel

/-- Bob's TTL is positive, and Alice waits or may retry after her completion request. -/
def Timely (p : Parties P) : Prop :=
  0 < p.bobConfig.ttlSeconds ∧
    (0 < p.aliceConfig.retryIntervalSeconds ∨ 0 < p.aliceConfig.maxRetries)

theorem relay_nil {a b : Session β π} {t : Int} {d : Entropy β} (h : a.outgoingPdus = []) :
    relay P a b t d = (a, b) := by
  simp [relay, Session.getPdu, h]

theorem relay_cons {a b : Session β π} {t : Int} {d : Entropy β} {pdu : π} {rest : List π}
    (h : a.outgoingPdus = pdu :: rest) :
    relay P a b t d = ({ a with outgoingPdus := rest }, ((b.postPdu pdu).update P t d).1) := by
  simp [relay, Session.getPdu, h]

theorem relay_sender_state (a b : Session β π) (t : Int) (d : Entropy β) :
    (relay P a b t d).1.state = a.state := by
  cases h : a.outgoingPdus with
  | nil => rw [relay_nil P h]
  | cons pdu rest => rw [relay_cons P h]

theorem relay_dropped {a b : Session β π} (h : b.state = .dropped) (t : Int) (d : Entropy β) :
    (relay P a b t d).2.state = .dropped := by
  cases ha : a.outgoingPdus with
  | nil => rw [relay_nil P ha]; exact h
  | cons pdu rest =>
    rw [relay_cons P ha]
    simp only [Session.update_dropped (show (b.postPdu pdu).state = .dropped from h)]
    exact h

end

section
variable {P} (hP : P.Correct)
include hP

theorem build_publicKey (level : Level) (seed : List β) :
    KemPublicKey.build P (P.publicBytes level seed) level = .ok (wireKey P level seed) := by
  simp [KemPublicKey.build, KemPublicKey.validateLength, kemAlg, wireKey, hP.octets_publicBytes,
    bind, Except.bind, pure, Except.pure]

theorem generateEphemeral_ok (level : Level) (seed : List β) :
    generateEphemeral P level seed = .ok (seed, wireKey P level seed) := by
  simp [generateEphemeral, build_publicKey hP, bind, Except.bind, pure, Except.pure]

/-- Encapsulating to a well-formed key succeeds, at the level of that key. -/
theorem encapsulate_wireKey (level : Level) (seed coins : List β) : ∃ shared ct,
    P.encapsulate level (P.publicBytes level seed) coins = some (shared, ct) ∧
      encapsulate P (wireKey P level seed) coins = .ok (shared, wireCiphertext level ct) := by
  obtain ⟨shared, ct, h⟩ := hP.encapsulate_publicBytes level seed coins
  refine ⟨shared, ct, h, ?_⟩
  simp [encapsulate, levelOf, wireKey, wireCiphertext, kemAlg, h, KemCiphertext.build,
    KemCiphertext.validateLength, hP.octets_ciphertext _ _ _ _ _ h, bind, Except.bind, pure,
    Except.pure]

/-- The secret comes back under the level of the key it was encapsulated to, and
under the other level the ciphertext is refused for its length. -/
theorem decapsulate_wire {level : Level} {seed coins shared ct : List β}
    (hs : P.octets seed = seedLen)
    (h : P.encapsulate level (P.publicBytes level seed) coins = some (shared, ct)) (used : Level) :
    decapsulate P seed used (wireCiphertext level ct) =
      if used = level then .ok shared else .error .valueError := by
  split
  · rename_i hl
    subst hl
    simp [decapsulate, wireCiphertext, hP.decapsulate_encapsulate _ _ _ _ _ hs h]
  · rename_i hl
    cases hd : P.decapsulate used seed ct with
    | none => simp [decapsulate, wireCiphertext, hd]
    | some shared' =>
      have hfit := hP.decapsulate_fits _ _ _ _ hd
      rw [hP.octets_ciphertext _ _ _ _ _ h] at hfit
      exact absurd (mlkemCtLen_inj hfit).symm hl

end

/-- The four encapsulations of a handshake, in the order of the protocol. -/
structure Encapsulated {P : Primitives β π} (p : Parties P) (e : Nat → Entropy β) where
  (s1 ct1 s2 ct2 s3 ct3 s4 ct4 : List β)
  first : P.encapsulate p.bob.level (P.publicBytes p.bob.level p.bob.seed) (e 0).coins =
    some (s1, ct1)
  second : P.encapsulate p.aliceConfig.kemLevel
    (P.publicBytes p.aliceConfig.kemLevel (e 0).seed) (e 1).coins = some (s2, ct2)
  third : P.encapsulate p.alice.level (P.publicBytes p.alice.level p.alice.seed) (e 1).coins' =
    some (s3, ct3)
  fourth : P.encapsulate p.aliceConfig.kemLevel
    (P.publicBytes p.aliceConfig.kemLevel (e 1).seed) (e 2).coins = some (s4, ct4)

namespace Encapsulated
variable {P} {p : Parties P} {e : Nat → Entropy β} (x : Encapsulated p e) (aead : Aead)

def request : SessionInitRequest β where
  ct1 := wireCiphertext p.bob.level x.ct1
  keyIdB := p.bobId
  pkAStar := wireKey P p.aliceConfig.kemLevel (e 0).seed
  keyIdA := p.aliceId
  acceptableAeads := p.aliceConfig.acceptableAeads.map aeadOid

def response : SessionInitResponse β where
  pkBStar := wireKey P p.aliceConfig.kemLevel (e 1).seed
  ct2 := wireCiphertext p.aliceConfig.kemLevel x.ct2
  ct3 := wireCiphertext p.alice.level x.ct3
  nB := (e 1).nonce
  chosenAead := aeadOid aead

def keys : SessionKeys β :=
  deriveSessionKeys P (e 2).nonce (e 1).nonce (P.dumpKeyId p.aliceId) x.s1 x.s2 x.s3 x.s4 aead

def cM : List β :=
  P.encrypt aead (x.keys aead).keyA2b (firstNonce P (x.keys aead).ivA2b) [] (e 0).uuid

def completion : SessionCompletionRequest β where
  cM := x.cM aead
  ct4 := wireCiphertext p.aliceConfig.kemLevel x.ct4
  nA := (e 2).nonce

/-- A PDU of this handshake. -/
def pdu (_ : Encapsulated p e) (payload : MakePayload β) : π :=
  P.dump (MakeMessage.build (e 0).uuid payload)

/-- Alice's session while she waits for a response. -/
def calling (t : Int) : Session β π :=
  { Session.new .initiator (some p.aliceId) p.aliceKeys p.aliceConfig with
    cid := some (e 0).uuid
    peerKeyId := some p.bobId
    ownEphemeralPrivate := some (e 0).seed
    ownEphemeralPublic := some (wireKey P p.aliceConfig.kemLevel (e 0).seed)
    s1 := some x.s1
    lastSent := some (x.pdu (.sessionInitRequest x.request))
    deadline := some (t + p.aliceConfig.retryIntervalSeconds)
    state := .expectSessionInitResponse }

/-- Bob's session when it has been addressed. -/
def addressed (_ : Encapsulated p e) : Session β π :=
  { Session.new .responder none p.bobKeys p.bobConfig with cid := some (e 0).uuid }

def initReply : Session.InitReply β π where
  ownEphemeralPrivate := (e 1).seed
  ownEphemeralPublic := wireKey P p.aliceConfig.kemLevel (e 1).seed
  peerStaticPublic := wireKey P p.alice.level p.alice.seed
  s1 := x.s1
  s2 := x.s2
  s3 := x.s3
  chosen := aead
  outDer := x.pdu (.sessionInitResponse (x.response aead))

def completionCall : Session.CompletionCall β where
  cid := (e 0).uuid
  keys := x.keys aead
  chosen := aead
  ct4 := wireCiphertext p.aliceConfig.kemLevel x.ct4
  plaintext := []
  cM := x.cM aead

end Encapsulated

section
variable {P} (hP : P.Correct) {p : Parties P} {e : Nat → Entropy β} (x : Encapsulated p e)
include hP

theorem encapsulated_exists (p : Parties P) (e : Nat → Entropy β) : Nonempty (Encapsulated p e) := by
  obtain ⟨s1, ct1, h1⟩ := hP.encapsulate_publicBytes p.bob.level p.bob.seed (e 0).coins
  obtain ⟨s2, ct2, h2⟩ := hP.encapsulate_publicBytes p.aliceConfig.kemLevel (e 0).seed (e 1).coins
  obtain ⟨s3, ct3, h3⟩ := hP.encapsulate_publicBytes p.alice.level p.alice.seed (e 1).coins'
  obtain ⟨s4, ct4, h4⟩ := hP.encapsulate_publicBytes p.aliceConfig.kemLevel (e 1).seed (e 2).coins
  exact ⟨⟨s1, ct1, s2, ct2, s3, ct3, s4, ct4, h1, h2, h3, h4⟩⟩

theorem encapsulate_eq {level : Level} {seed coins shared ct : List β}
    (h : P.encapsulate level (P.publicBytes level seed) coins = some (shared, ct)) :
    encapsulate P (wireKey P level seed) coins = .ok (shared, wireCiphertext level ct) := by
  obtain ⟨shared', ct', h', he⟩ := encapsulate_wireKey hP level seed coins
  rw [h] at h'
  cases h'
  exact he

theorem initiate_calling (t : Int) :
    (Session.new .initiator (some p.aliceId) p.aliceKeys p.aliceConfig).initiate P p.bobId t (e 0) =
      ({ x.calling t with outgoingPdus := [x.pdu (.sessionInitRequest x.request)] }, none) := by
  have hne : p.aliceConfig.acceptableAeads ≠ [] := by
    obtain ⟨aead, _, ha⟩ := p.common
    exact List.ne_nil_of_mem ha
  simp only [Session.initiate, Session.new, Session.sendInitRequest, p.bob_public,
    generateEphemeral_ok hP, encapsulate_eq hP x.first, hne, ne_eq, not_true_eq_false, ↓reduceIte]
  rfl

/-- Bob can answer exactly when his key has the level of Alice's configuration. -/
theorem initReply_addressed {aead : Aead}
    (ha : chooseAead p.bobConfig.acceptableAeads x.request.acceptableAeads = .ok aead) :
    x.addressed.initReply P x.request (e 1) =
      if p.aliceConfig.kemLevel = p.bob.level then .ok (x.initReply aead)
      else .error .valueError := by
  have hlevel : levelOf (wireKey P p.aliceConfig.kemLevel (e 0).seed) =
      .ok p.aliceConfig.kemLevel := by simp [levelOf, wireKey, kemAlg]
  simp only [Session.initReply, Encapsulated.addressed, Session.new, Encapsulated.request,
    p.bob_private, p.alice_public, hlevel, decapsulate_wire hP p.bob.seed_fits x.first,
    generateEphemeral_ok hP, encapsulate_eq hP x.second, encapsulate_eq hP x.third,
    orHandshakeFailed, bind, Except.bind, pure, Except.pure, attr]
  by_cases hl : p.aliceConfig.kemLevel = p.bob.level
  · simp only [Encapsulated.request] at ha
    simp only [hl, ↓reduceIte, ha]
    simp [Encapsulated.initReply, Encapsulated.pdu, Encapsulated.response, hl]
  · simp only [hl, ↓reduceIte]

/-- Alice can go on exactly when her own key has the level of her configuration. -/
theorem completionCall_calling {aead : Aead} (t : Int) (he : (e 0).Fits P)
    (ha : aead ∈ p.aliceConfig.acceptableAeads) :
    (x.calling t).completionCall P (x.response aead) (e 2) =
      if p.aliceConfig.kemLevel = p.alice.level then .ok (x.completionCall aead)
      else .error .valueError := by
  have hcheck : checkAead p.aliceConfig.acceptableAeads (aeadOid aead) = .ok aead := by
    simp [checkAead, ha]
  simp only [Session.completionCall, Encapsulated.calling, Session.new, Encapsulated.response,
    p.alice_private, decapsulate_wire hP he.seed x.second,
    decapsulate_wire hP p.alice.seed_fits x.third, hcheck,
    encapsulate_eq hP x.fourth, encrypt_zero, bind, Except.bind, pure, Except.pure, attr]
  by_cases hl : p.aliceConfig.kemLevel = p.alice.level
  · simp only [hl, ↓reduceIte]
    simp [Encapsulated.completionCall, Encapsulated.cM, Encapsulated.keys, hl, deriveSessionKeys]
  · simp only [hl, ↓reduceIte]

/-- Bob's session with his response in its outgoing queue. -/
def Encapsulated.answered (t : Int) (aead : Aead) : Session β π :=
  x.addressed.acceptInitRequest x.request (x.pdu (.sessionInitRequest x.request)) t (e 1)
    (x.initReply aead)

/-- Alice's session with her completion request in its outgoing queue. -/
def Encapsulated.called (t t' : Int) (aead : Aead) : Session β π :=
  (x.calling t).acceptInitResponse (x.response aead) (x.pdu (.sessionInitResponse (x.response aead)))
    t' (e 2) (x.completionCall aead) (x.pdu (.sessionCompletionRequest (x.completion aead)))

/-- Alice's session after that, with her timer and outgoing queue as given. -/
def Encapsulated.waiting (t t' : Int) (aead : Aead) (count : Nat) (deadline : Option Int)
    (outgoing : List π) : Session β π :=
  { x.called t t' aead with
    attemptCount := count, deadline := deadline, outgoingPdus := outgoing }

def Encapsulated.openedCompletion (aead : Aead) : Session.OpenedCompletion β where
  cid := (e 0).uuid
  s4 := x.s4
  keys := x.keys aead
  plaintext := []

def Encapsulated.confirmation (_ : Encapsulated p e) : SessionCompletionResponse β where
  hM := P.sha256 []
  m := none

/-- Bob's session when his response has left. -/
def Encapsulated.awaiting (t : Int) (aead : Aead) : Session β π :=
  { x.answered t aead with outgoingPdus := [] }

/-- Bob's session with his completion response in its outgoing queue. -/
def Encapsulated.served (t : Int) (aead : Aead) : Session β π :=
  ((x.awaiting t aead).opened (x.openedCompletion aead)).acceptCompletion P (x.completion aead)
    (x.pdu (.sessionCompletionRequest (x.completion aead))) (x.openedCompletion aead) none

/-- Bob can open c_m exactly when his configuration has the level of Alice's. -/
theorem openCompletion_answered {aead : Aead} (t : Int) (he : (e 1).Fits P) :
    (x.answered t aead).openCompletion P (x.completion aead) =
      if p.bobConfig.kemLevel = p.aliceConfig.kemLevel then .ok (x.openedCompletion aead)
      else .error .valueError := by
  have hd : decrypt P aead (x.keys aead).keyA2b (x.keys aead).ivA2b 0 (x.cM aead) (e 0).uuid =
      .ok [] := decrypt_zero.mpr (hP.decrypt_encrypt _ _ _ _ _)
  simp only [Session.openCompletion, Encapsulated.answered, Session.acceptInitRequest,
    Encapsulated.addressed, Session.new, Encapsulated.request, Encapsulated.initReply,
    Encapsulated.completion, decapsulate_wire hP he.seed x.fourth, orHandshakeFailed, bind,
    Except.bind, pure, Except.pure, attr]
  by_cases hl : p.bobConfig.kemLevel = p.aliceConfig.kemLevel
  · simp only [hl, ↓reduceIte]
    simp only [Encapsulated.keys, deriveSessionKeys] at hd
    simp only [deriveSessionKeys, hd]
    rfl
  · simp only [hl, ↓reduceIte]

theorem load_pdu (he : (e 0).Fits P) (payload : MakePayload β)
    (hm : ∀ req, payload = .sessionCompletionRequest req → req.cM ≠ []) :
    P.load (x.pdu payload) = .ok (MakeMessage.build (e 0).uuid payload) :=
  hP.load_dump _ ⟨he.uuid, hm⟩

theorem pdu_ne (he : (e 0).Fits P) (payload payload' : MakePayload β)
    (hm : ∀ req, payload = .sessionCompletionRequest req → req.cM ≠ [])
    (hm' : ∀ req, payload' = .sessionCompletionRequest req → req.cM ≠ []) (h : payload ≠ payload') :
    x.pdu payload ≠ x.pdu payload' := by
  intro heq
  have hl := load_pdu hP x he payload hm
  rw [heq, load_pdu hP x he payload' hm'] at hl
  exact h (by simpa [MakeMessage.build] using hl.symm)

theorem completion_cM (aead : Aead) (req : SessionCompletionRequest β)
    (h : MakePayload.sessionCompletionRequest (x.completion aead) = .sessionCompletionRequest req) :
    req.cM ≠ [] := by
  cases h
  exact hP.encrypt_ne_nil _ _ _ _ _

section
variable [DecidableEq β] [DecidableEq π]

theorem update_addressed {aead : Aead} (he : (e 0).Fits P) (t : Int)
    (ha : chooseAead p.bobConfig.acceptableAeads x.request.acceptableAeads = .ok aead) :
    (((Session.new .responder none p.bobKeys p.bobConfig).postPdu
      (x.pdu (.sessionInitRequest x.request))).update P t (e 1)).1 =
      if p.aliceConfig.kemLevel = p.bob.level then (x.answered t aead).checkDeadline t
      else x.addressed := by
  have hl := load_pdu hP x he (.sessionInitRequest x.request) (by simp)
  have hr := initReply_addressed hP x ha
  have hproc : (Session.new .responder none p.bobKeys p.bobConfig).processIncoming P
      (x.pdu (.sessionInitRequest x.request)) t (e 1) =
      x.addressed.handleSessionInitRequest P x.request (x.pdu (.sessionInitRequest x.request)) t
        (e 1) := by
    rw [Session.processIncoming_first (by simp [Session.new]) hl rfl rfl rfl]
    rfl
  unfold Session.handleSessionInitRequest at hproc
  rw [hr] at hproc
  split
  · rename_i hlevel
    simp only [hlevel, ↓reduceIte] at hproc
    rw [Session.update_of_process rfl (by simp [Session.new]) hproc
      (.inl (by simp [Session.acceptInitRequest])) (by simp [Session.acceptInitRequest])]
    rfl
  · rename_i hlevel
    simp only [hlevel, ↓reduceIte] at hproc
    rw [Session.update_of_raise rfl (by simp [Session.new]) hproc]

theorem update_calling {aead : Aead} (he : (e 0).Fits P) (t t' : Int)
    (ha : aead ∈ p.aliceConfig.acceptableAeads) :
    (((x.calling t).postPdu (x.pdu (.sessionInitResponse (x.response aead)))).update P t' (e 2)).1 =
      if p.aliceConfig.kemLevel = p.alice.level then (x.called t t' aead).checkDeadline t'
      else x.calling t := by
  have hl := load_pdu hP x he (.sessionInitResponse (x.response aead)) (by simp)
  have hc := completionCall_calling hP x t he ha
  have hne : (x.completionCall aead).cM ≠ [] := hP.encrypt_ne_nil _ _ _ _ _
  have hproc : (x.calling t).processIncoming P (x.pdu (.sessionInitResponse (x.response aead)))
      t' (e 2) = (x.calling t).handleSessionInitResponse P (x.response aead)
        (x.pdu (.sessionInitResponse (x.response aead))) t' (e 2) := by
    rw [Session.processIncoming_dispatch (by simp [Encapsulated.calling, Session.new]) hl
      (by simp [Encapsulated.calling]) rfl]
    rfl
  unfold Session.handleSessionInitResponse at hproc
  rw [hc] at hproc
  split
  · rename_i hlevel
    simp only [hlevel, ↓reduceIte, SessionCompletionRequest.build, hne] at hproc
    rw [Session.update_of_process rfl (by simp [Encapsulated.calling]) hproc
      (.inl (by simp [Session.acceptInitResponse])) (by simp [Session.acceptInitResponse])]
    rfl
  · rename_i hlevel
    simp only [hlevel, ↓reduceIte] at hproc
    rw [Session.update_of_raise rfl (by simp [Encapsulated.calling]) hproc]

theorem update_awaiting {aead : Aead} (h0 : (e 0).Fits P) (h1 : (e 1).Fits P) (t t' : Int)
    (d : Entropy β) :
    (((x.awaiting t aead).postPdu (x.pdu (.sessionCompletionRequest (x.completion aead)))).update P
      t' d).1 =
      if p.bobConfig.kemLevel = p.aliceConfig.kemLevel then x.served t aead
      else x.awaiting t aead := by
  have hcM := completion_cM hP x aead
  have hl := load_pdu hP x h0 _ hcM
  have ho : (x.awaiting t aead).openCompletion P (x.completion aead) = _ :=
    openCompletion_answered hP x t h1
  have hnew : (x.awaiting t aead).lastReceived ≠
      some (x.pdu (.sessionCompletionRequest (x.completion aead))) := by
    simpa [Encapsulated.awaiting, Encapsulated.answered, Session.acceptInitRequest] using
      pdu_ne hP x h0 _ _ (by simp) hcM (by simp)
  have hproc : (x.awaiting t aead).processIncoming P
      (x.pdu (.sessionCompletionRequest (x.completion aead))) t' d =
      (x.awaiting t aead).handleSessionCompletionRequest P (x.completion aead)
        (x.pdu (.sessionCompletionRequest (x.completion aead))) := by
    rw [Session.processIncoming_dispatch hnew hl
      (by simp [Encapsulated.awaiting, Encapsulated.answered, Session.acceptInitRequest]) rfl]
    rfl
  rw [Session.handleSessionCompletionRequest_eq, ho] at hproc
  split
  · rename_i hlevel
    simp only [hlevel, ↓reduceIte] at hproc
    rw [Session.update_of_process rfl
      (by simp [Encapsulated.awaiting, Encapsulated.answered, Session.acceptInitRequest]) hproc
      (.inr rfl) (by simp [Session.acceptCompletion])]
    rfl
  · rename_i hlevel
    simp only [hlevel, ↓reduceIte] at hproc
    rw [Session.update_of_raise rfl
      (by simp [Encapsulated.awaiting, Encapsulated.answered, Session.acceptInitRequest]) hproc]

theorem update_waiting {aead : Aead} (h0 : (e 0).Fits P) (t t' t'' : Int) (count : Nat)
    (deadline : Option Int) (rest : List π) (d : Entropy β) :
    (((x.waiting t t' aead count deadline rest).postPdu
      (x.pdu (.sessionCompletionResponse x.confirmation))).update P t'' d).1 =
      (x.waiting t t' aead count deadline rest).acceptReply
        (x.pdu (.sessionCompletionResponse x.confirmation)) := by
  have hl := load_pdu hP x h0 (.sessionCompletionResponse x.confirmation) (by simp)
  have hnew : (x.waiting t t' aead count deadline rest).lastReceived ≠
      some (x.pdu (.sessionCompletionResponse x.confirmation)) := by
    simpa [Encapsulated.waiting, Encapsulated.called, Session.acceptInitResponse] using
      pdu_ne hP x h0 (.sessionInitResponse (x.response aead)) _ (by simp) (by simp) (by simp)
  have hproc : (x.waiting t t' aead count deadline rest).processIncoming P
      (x.pdu (.sessionCompletionResponse x.confirmation)) t'' d =
      ((x.waiting t t' aead count deadline rest).acceptReply
        (x.pdu (.sessionCompletionResponse x.confirmation)), none) := by
    rw [Session.processIncoming_dispatch hnew hl
      (by simp [Encapsulated.waiting, Encapsulated.called, Session.acceptInitResponse]) rfl]
    simp [Session.dispatch, MakeMessage.build, Session.handleSessionCompletionResponse,
      Encapsulated.waiting, Encapsulated.called, Session.acceptInitResponse, Encapsulated.calling,
      Session.new, Encapsulated.completionCall, Encapsulated.confirmation]
  rw [Session.update_of_process rfl
    (by simp [Encapsulated.waiting, Encapsulated.called, Session.acceptInitResponse]) hproc
    (.inr rfl) (by simp [Session.acceptReply])]
  rfl

end

end

section
variable {P} {p : Parties P} {e : Nat → Entropy β} (x : Encapsulated p e)

/-- The TTL starts and is checked in the same update. -/
theorem answered_checkDeadline (t : Int) (aead : Aead) :
    (x.answered t aead).checkDeadline t =
      if 0 < p.bobConfig.ttlSeconds then x.answered t aead
      else { x.answered t aead with state := .dropped } := by
  have h : (t ≥ t + p.bobConfig.ttlSeconds) ↔ ¬ 0 < p.bobConfig.ttlSeconds := by omega
  simp only [Session.checkDeadline, Encapsulated.answered, Session.acceptInitRequest,
    Encapsulated.addressed, Session.new, Session.onTimeout, h]
  by_cases hp : 0 < p.bobConfig.ttlSeconds <;> simp [hp]

theorem called_checkDeadline (t t' : Int) (aead : Aead)
    (h : 0 < p.aliceConfig.retryIntervalSeconds ∨ 0 < p.aliceConfig.maxRetries) :
    ∃ count deadline rest, (x.called t t' aead).checkDeadline t' =
      x.waiting t t' aead count deadline
        (x.pdu (.sessionCompletionRequest (x.completion aead)) :: rest) := by
  by_cases hi : 0 < p.aliceConfig.retryIntervalSeconds
  · refine ⟨0, some (t' + p.aliceConfig.retryIntervalSeconds), [], ?_⟩
    have hd : ¬ (t' ≥ t' + p.aliceConfig.retryIntervalSeconds) := by omega
    simp [Session.checkDeadline, Encapsulated.waiting, Encapsulated.called, Session.acceptInitResponse,
      Encapsulated.calling, Session.new, hd]
  · refine ⟨1, some (t' + p.aliceConfig.retryIntervalSeconds),
      [x.pdu (.sessionCompletionRequest (x.completion aead))], ?_⟩
    have hd : t' ≥ t' + p.aliceConfig.retryIntervalSeconds := by omega
    have hm : ¬ (0 ≥ p.aliceConfig.maxRetries) := by omega
    simp [Session.checkDeadline, Encapsulated.waiting, Encapsulated.called, Session.acceptInitResponse,
      Encapsulated.calling, Session.new, Session.onTimeout, Session.resend, hd, hm]

theorem called_dropped (t t' : Int) (aead : Aead)
    (h : ¬ (0 < p.aliceConfig.retryIntervalSeconds ∨ 0 < p.aliceConfig.maxRetries)) :
    ((x.called t t' aead).checkDeadline t').state = .dropped := by
  have hd : t' ≥ t' + p.aliceConfig.retryIntervalSeconds := by omega
  have hm : 0 ≥ p.aliceConfig.maxRetries := by omega
  simp [Session.checkDeadline, Encapsulated.called, Session.acceptInitResponse,
    Encapsulated.calling, Session.new, Session.onTimeout, hd, hm]

end

section
variable [DecidableEq β] [DecidableEq π]

omit [DecidableEq β] [DecidableEq π] in
/-- The AEAD that Bob chooses is one that Alice offered. -/
theorem chosen_exists {P : Primitives β π} {p : Parties P} {e : Nat → Entropy β}
    (x : Encapsulated p e) : ∃ aead, aead ∈ p.aliceConfig.acceptableAeads ∧
      chooseAead p.bobConfig.acceptableAeads x.request.acceptableAeads = .ok aead := by
  have offered : ∀ name, aeadOid name ∈ x.request.acceptableAeads ↔
      name ∈ p.aliceConfig.acceptableAeads := by
    intro name
    simp only [Encapsulated.request, List.mem_map]
    constructor
    · rintro ⟨aead, h, he⟩
      exact aeadOid_inj he ▸ h
    · exact fun h => ⟨name, h, rfl⟩
  obtain ⟨name, hb, ha⟩ := p.common
  cases hf : chooseAead p.bobConfig.acceptableAeads x.request.acceptableAeads with
  | error err =>
    unfold chooseAead at hf
    split at hf
    · rename_i hnone
      have := List.find?_eq_none.mp hnone name hb
      simp [offered, ha] at this
    · cases hf
  | ok aead => exact ⟨aead, (offered aead).mp (Session.chooseAead_ok hf).2, rfl⟩

/-- From Bob's response on, the levels of Alice's key and of Bob's configuration decide. -/
theorem agreed_iff_of_answered {P : Primitives β π} (hP : P.Correct) {p : Parties P}
    {e : Nat → Entropy β} (x : Encapsulated p e) (t : Nat → Int) (he : ∀ k, (e k).Fits P)
    {aead : Aead} (ha : aead ∈ p.aliceConfig.acceptableAeads) {second third fourth}
    (h2 : second = relay P (x.answered (t 1) aead) (x.calling (t 0)) (t 2) (e 2))
    (h3 : third = relay P second.2 second.1 (t 3) (e 3))
    (h4 : fourth = relay P third.2 third.1 (t 4) (e 4)) :
    Agreed (fourth.2, fourth.1) ↔ p.aliceConfig.kemLevel = p.alice.level ∧
      p.bobConfig.kemLevel = p.aliceConfig.kemLevel ∧
      (0 < p.aliceConfig.retryIntervalSeconds ∨ 0 < p.aliceConfig.maxRetries) := by
  unfold Agreed
  have hout : (x.answered (t 1) aead).outgoingPdus =
      [x.pdu (.sessionInitResponse (x.response aead))] := rfl
  rw [relay_cons P hout] at h2
  have h2 : second = (x.awaiting (t 1) aead, _) := h2
  rw [update_calling hP x (he 0) (t 0) (t 2) ha] at h2
  by_cases halice : p.aliceConfig.kemLevel = p.alice.level
  · rw [if_pos halice] at h2
    by_cases hretry : 0 < p.aliceConfig.retryIntervalSeconds ∨ 0 < p.aliceConfig.maxRetries
    · obtain ⟨count, deadline, rest, hk⟩ := called_checkDeadline x (t 0) (t 2) aead hretry
      rw [hk] at h2
      rw [h2, relay_cons P rfl, update_awaiting hP x (he 0) (he 1)] at h3
      have h3 : third = (x.waiting (t 0) (t 2) aead count deadline rest, _) := h3
      by_cases hbob : p.bobConfig.kemLevel = p.aliceConfig.kemLevel
      · -- every secret is opened at the level it was encapsulated at
        rw [if_pos hbob] at h3
        have hout : (x.served (t 1) aead).outgoingPdus =
            [x.pdu (.sessionCompletionResponse x.confirmation)] := rfl
        rw [h3, relay_cons P hout] at h4
        have h4 : fourth = ({ x.served (t 1) aead with outgoingPdus := [] }, _) := h4
        rw [update_waiting hP x (he 0)] at h4
        simp only [h4, halice, hbob, hretry, and_self, iff_true]
        exact ⟨rfl, rfl, x.keys aead, rfl, rfl⟩
      · -- Bob cannot open ct4
        rw [if_neg hbob] at h3
        have hs : third.2.state = .expectSessionCompletionRequest := by rw [h3]; rfl
        have hs : fourth.1.state = .expectSessionCompletionRequest := by
          rw [h4, relay_sender_state, hs]
        simp [hs, hbob]
    · -- Alice's session is dropped in the update that sent her completion request
      have hd : second.2.state = .dropped := by rw [h2]; exact called_dropped x _ _ _ hretry
      have hd : third.1.state = .dropped := by rw [h3, relay_sender_state, hd]
      have hd : fourth.2.state = .dropped := by rw [h4]; exact relay_dropped P hd _ _
      simp [hd, hretry]
  · -- Alice cannot open ct3, and never goes on
    rw [if_neg halice] at h2
    have h3 : third = (x.calling (t 0), x.awaiting (t 1) aead) := by
      rw [h3, h2]
      exact relay_nil P rfl
    have h4 : fourth = (x.awaiting (t 1) aead, x.calling (t 0)) := by
      rw [h4, h3]
      exact relay_nil P rfl
    simp [h4, halice, Encapsulated.calling]

/-- Two honest ends agree exactly at equal levels and with timers that leave them time. -/
theorem agreed_iff_sameLevel {P : Primitives β π} (hP : P.Correct) (p : Parties P)
    (t : Nat → Int) (e : Nat → Entropy β) (he : ∀ k, (e k).Fits P) :
    Agreed (handshake P p t e) ↔ SameLevel P p ∧ Timely P p := by
  obtain ⟨x⟩ := encapsulated_exists hP p e
  obtain ⟨aead, ha, hfind⟩ := chosen_exists x
  obtain ⟨first, h1⟩ : ∃ r, r = relay P { x.calling (t 0) with
    outgoingPdus := [x.pdu (.sessionInitRequest x.request)] }
    (Session.new .responder none p.bobKeys p.bobConfig) (t 1) (e 1) := ⟨_, rfl⟩
  obtain ⟨second, h2⟩ : ∃ r, r = relay P first.2 first.1 (t 2) (e 2) := ⟨_, rfl⟩
  obtain ⟨third, h3⟩ : ∃ r, r = relay P second.2 second.1 (t 3) (e 3) := ⟨_, rfl⟩
  obtain ⟨fourth, h4⟩ : ∃ r, r = relay P third.2 third.1 (t 4) (e 4) := ⟨_, rfl⟩
  have hh : handshake P p t e = (fourth.2, fourth.1) := by
    simp only [handshake, initiate_calling hP x, h4, h3, h2, h1]
  rw [relay_cons P rfl] at h1
  have h1 : first = (x.calling (t 0), _) := h1
  rw [update_addressed hP x (he 0) (t 1) hfind, answered_checkDeadline] at h1
  rw [hh, SameLevel, Timely]
  by_cases hbob : p.aliceConfig.kemLevel = p.bob.level
  · rw [if_pos hbob] at h1
    by_cases httl : 0 < p.bobConfig.ttlSeconds
    · rw [if_pos httl] at h1
      rw [h1] at h2
      rw [agreed_iff_of_answered hP x t he ha h2 h3 h4]
      simp [hbob, httl, and_assoc]
    · -- Bob's session is dropped in the update that answered
      have hd : first.2.state = .dropped := by simp [h1, httl]
      have hd : second.1.state = .dropped := by rw [h2, relay_sender_state, hd]
      have hd : third.2.state = .dropped := by rw [h3]; exact relay_dropped P hd _ _
      have hd : fourth.1.state = .dropped := by rw [h4, relay_sender_state, hd]
      simp [Agreed, hd, httl]
  · -- Bob cannot open ct1, and never answers
    rw [if_neg hbob] at h1
    have h2 : second = (x.addressed, x.calling (t 0)) := by rw [h2, h1]; exact relay_nil P rfl
    have h3 : third = (x.calling (t 0), x.addressed) := by rw [h3, h2]; exact relay_nil P rfl
    have h4 : fourth = (x.addressed, x.calling (t 0)) := by rw [h4, h3]; exact relay_nil P rfl
    simp [Agreed, h4, hbob, Encapsulated.calling]

end

theorem draw_fits (k : Nat) : (draw k).Fits ideal := ⟨by rfl, by rfl⟩

/-- Two parties with static keys of the given levels. -/
def sample (alice bob : Level) (aliceConfig bobConfig : SessionConfig)
    (common : ∃ aead ∈ bobConfig.acceptableAeads, aead ∈ aliceConfig.acceptableAeads) :
    Parties ideal where
  aliceId := Ideal.keyIdOf (wireKey ideal alice [.name (.static 0)])
  bobId := Ideal.keyIdOf (wireKey ideal bob [.name (.static 1)])
  alice := ⟨alice, [.name (.static 0)], by rfl⟩
  bob := ⟨bob, [.name (.static 1)], by rfl⟩
  aliceKeys := ⟨fun _ => .ok (wireKey ideal bob [.name (.static 1)]),
    fun _ => .ok [.name (.static 0)]⟩
  bobKeys := ⟨fun _ => .ok (wireKey ideal alice [.name (.static 0)]),
    fun _ => .ok [.name (.static 1)]⟩
  alice_private := rfl
  bob_public := rfl
  bob_private := rfl
  alice_public := rfl
  aliceConfig := aliceConfig
  bobConfig := bobConfig
  common := common

theorem agreed_iff_sameLevel_ideal :
    Agreed (handshake ideal (sample .mlkem768 .mlkem768 {} {} (by decide)) (fun _ => 0) draw) ↔
      SameLevel ideal (sample .mlkem768 .mlkem768 {} {} (by decide)) ∧
        Timely ideal (sample .mlkem768 .mlkem768 {} {} (by decide)) :=
  agreed_iff_sameLevel Ideal.ideal_correct _ _ _ draw_fits

/-- Alice's static key at level 1024 and everything else at 768. -/
theorem mixed_levels_not_agreed :
    ¬ Agreed (handshake ideal (sample .mlkem1024 .mlkem768 {} {} (by decide)) (fun _ => 0) draw) :=
  fun h => absurd h.1 (by decide +kernel)

end KemMake
