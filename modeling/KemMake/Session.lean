import Mathlib.Order.WithBot
import KemMake.Primitives

/-!
# The session layer (session.py)

One handshake attempt for one cid, as a record of the fields of `Session` and
one function for each method. A method that can raise returns the session as it
is left behind together with the exception: what was assigned before the
`raise` stays assigned. Clock readings and durations are whole numbers of ticks.
-/

namespace KemMake

inductive Role where
  | initiator
  | responder
  deriving DecidableEq, Repr

inductive SessionState where
  | initial
  | expectSessionInitResponse
  | expectSessionCompletionRequest
  | expectSessionCompletionResponse
  | established
  | dropped
  deriving DecidableEq, Repr

inductive UpdateResult where
  | nothingReady
  | pduReady
  | payloadReady
  | sessionDropped
  deriving DecidableEq, Repr

/-- The two lookups a session needs of a key store. -/
structure KeyLookup (β : Type) where
  getPublicKey : KeyId β → Except PyError (KemPublicKey β)
  getPrivateKey : KeyId β → Except PyError (List β)

/-- The defaults are those of the source, with a tick a second. -/
structure SessionConfig where
  maxRetries : Int := 2
  retryIntervalSeconds : Int := 5
  ttlSeconds : Int := 60
  kemLevel : Level := .mlkem768
  acceptableAeads : List Aead := [.aes256Gcm, .chacha20Poly1305]
  deriving DecidableEq

/-- What one call may draw: `uuid4()`, the seed of `generate()`, the coins of its
first and second `encapsulate()`, and `urandom(16)`. -/
structure Entropy (β : Type) where
  uuid : List β
  seed : List β
  coins : List β
  coins' : List β
  nonce : List β

/-- Payload takes priority over PDU when both are ready. -/
def nextUpdateResult (pollPayload pollPdu : Bool) (nextDeadline : WithTop Int) :
    UpdateResult × WithTop Int :=
  if pollPayload then (.payloadReady, nextDeadline)
  else if pollPdu then (.pduReady, nextDeadline)
  else (.nothingReady, nextDeadline)

/-- The ephemeral private key is held by its seed, the only part read again. -/
structure Session (β π : Type) where
  role : Role
  ownKeyId : Option (KeyId β)
  keys : KeyLookup β
  config : SessionConfig
  state : SessionState := .initial
  cid : Option (List β) := none
  lastReceived : Option π := none
  lastSent : Option π := none
  attemptCount : Nat := 0
  deadline : Option Int := none
  outgoingPdus : List π := []
  outgoingPayloads : List (List β) := []
  pendingPayload : Option (List β) := none
  ownEphemeralPrivate : Option (List β) := none
  ownEphemeralPublic : Option (KemPublicKey β) := none
  peerStaticPublic : Option (KemPublicKey β) := none
  peerKeyId : Option (KeyId β) := none
  s1 : Option (List β) := none
  s2 : Option (List β) := none
  s3 : Option (List β) := none
  s4 : Option (List β) := none
  nA : Option (List β) := none
  nB : Option (List β) := none
  chosenAead : Option Aead := none
  sessionKeys : Option (SessionKeys β) := none
  seqA2b : Nat := 0
  seqB2a : Nat := 0
  sentPlaintextForHM : Option (List β) := none
  incomingQueue : List π := []

/-- Reading a field that may still be None. -/
def attr {α : Type} : Option α → Except PyError α
  | none => .error .noneRead
  | some a => .ok a

/-- `except Exception as e: raise HandshakeFailed(...) from e` -/
def orHandshakeFailed {α : Type} (why : HandshakeFailure) : Except PyError α → Except PyError α
  | .error _ => .error (.handshakeFailed why)
  | .ok a => .ok a

/-- The responder's choice: the first of its own AEADs that was requested. -/
def chooseAead (acceptable : List Aead) (requested : List Oid) : Except PyError Aead :=
  match acceptable.find? fun name => decide (aeadOid name ∈ requested) with
  | none => .error (.handshakeFailed .noMutuallyAcceptableAead)
  | some chosen => .ok chosen

/-- The initiator's check of that choice. -/
def checkAead (acceptable : List Aead) (oid : Oid) : Except PyError Aead :=
  match aeadName oid with
  | none => .error (.handshakeFailed (.unacceptableAead oid))
  | some chosen =>
    if chosen ∈ acceptable then .ok chosen
    else .error (.handshakeFailed (.unacceptableAead oid))

namespace Session
variable {β π : Type}

/-- `Session(role, own_key_id, key_lookup, config)` -/
def new (role : Role) (ownKeyId : Option (KeyId β)) (keys : KeyLookup β)
    (config : SessionConfig) : Session β π := { role, ownKeyId, keys, config }

/-! ## Push in, pull out -/

def postPdu (s : Session β π) (der : π) : Session β π :=
  { s with incomingQueue := s.incomingQueue ++ [der] }

def postPayload (s : Session β π) (payload : List β) : Session β π × Option PyError :=
  if payload = [] then (s, some .valueError)
  else ({ s with pendingPayload := some payload }, none)

def pollPdu (s : Session β π) : Bool := !s.outgoingPdus.isEmpty

def getPdu (s : Session β π) : Session β π × Except PyError π :=
  match s.outgoingPdus with
  | [] => (s, .error .indexError)
  | pdu :: rest => ({ s with outgoingPdus := rest }, .ok pdu)

def pollPayload (s : Session β π) : Bool := !s.outgoingPayloads.isEmpty

def getPayload (s : Session β π) : Session β π × Except PyError (List β) :=
  match s.outgoingPayloads with
  | [] => (s, .error .indexError)
  | payload :: rest => ({ s with outgoingPayloads := rest }, .ok payload)

/-! ## Lifecycle -/

variable (P : Primitives β π)

/-- `initiate`, once `cid` and `_peer_key_id` are assigned: key pair, `s1` and
request, each assigned as soon as it exists. -/
def sendInitRequest (s : Session β π) (ownKeyId peerKeyId : KeyId β) (now : Int)
    (e : Entropy β) : Session β π × Option PyError :=
  match s.keys.getPublicKey peerKeyId with
  | .error x => (s, some x)
  | .ok peerStaticPublic =>
    match generateEphemeral P s.config.kemLevel e.seed with
    | .error x => (s, some x)
    | .ok (ephemeralPrivate, ephemeralPublic) =>
      let s := { s with
        ownEphemeralPrivate := some ephemeralPrivate
        ownEphemeralPublic := some ephemeralPublic }
      match encapsulate P peerStaticPublic e.coins with
      | .error x => (s, some x)
      | .ok (s1, ct1) =>
        let s := { s with s1 := some s1 }
        -- AeadAlgorithmList.build refuses an empty list
        if s.config.acceptableAeads = [] then (s, some .valueError)
        else
          let der := P.dump (MakeMessage.build e.uuid (.sessionInitRequest
            { ct1, keyIdB := peerKeyId, pkAStar := ephemeralPublic, keyIdA := ownKeyId
              acceptableAeads := s.config.acceptableAeads.map aeadOid }))
          ({ s with
              lastSent := some der
              attemptCount := 0
              deadline := some (now + s.config.retryIntervalSeconds)
              state := .expectSessionInitResponse
              outgoingPdus := s.outgoingPdus ++ [der] }, none)

def initiate (s : Session β π) (peerKeyId : KeyId β) (now : Int) (e : Entropy β) :
    Session β π × Option PyError :=
  if s.role ≠ .initiator then (s, some .sessionError)
  else if s.state ≠ .initial then (s, some .sessionError)
  else
    let s := { s with cid := some e.uuid, peerKeyId := some peerKeyId }
    match s.ownKeyId with
    | none => (s, some .noneRead)
    | some ownKeyId => s.sendInitRequest P ownKeyId peerKeyId now e

def reset (s : Session β π) : Session β π := new s.role s.ownKeyId s.keys s.config

def fork (s : Session β π) : Except PyError (Session β π) :=
  if s.role ≠ .initiator then .error .sessionError
  else if s.state ≠ .expectSessionInitResponse then .error .sessionError
  else
    match s.ownEphemeralPrivate with
    | none => .error .noneRead
    | some seed =>
      let twin : Session β π := new s.role s.ownKeyId s.keys s.config
      .ok { twin with
        state := .expectSessionInitResponse
        cid := s.cid
        peerKeyId := s.peerKeyId
        ownEphemeralPrivate := some seed
        ownEphemeralPublic := s.ownEphemeralPublic
        s1 := s.s1
        lastSent := s.lastSent
        attemptCount := s.attemptCount
        deadline := s.deadline
        pendingPayload := s.pendingPayload }

/-! ## Responder handlers -/

/-- The locals of `_handle_session_init_request` once its response is encoded. -/
structure InitReply (β π : Type) where
  ownEphemeralPrivate : List β
  ownEphemeralPublic : KemPublicKey β
  peerStaticPublic : KemPublicKey β
  s1 : List β
  s2 : List β
  s3 : List β
  chosen : Aead
  outDer : π

/-- `_handle_session_init_request` up to its first assignment. The level of the
initiator's ephemeral key is used for ct1 too. -/
def initReply (s : Session β π) (req : SessionInitRequest β) (e : Entropy β) :
    Except PyError (InitReply β π) := do
  let ownStaticPrivate ← orHandshakeFailed .cannotResolveRecipientKey
    (s.keys.getPrivateKey req.keyIdB)
  let peerStaticPublic ← orHandshakeFailed .unknownClaimedSender (s.keys.getPublicKey req.keyIdA)
  let level ← levelOf req.pkAStar
  let s1 ← decapsulate P ownStaticPrivate level req.ct1
  let (ownEphemeralPrivate, ownEphemeralPublic) ← generateEphemeral P level e.seed
  let (s2, ct2) ← encapsulate P req.pkAStar e.coins
  let (s3, ct3) ← encapsulate P peerStaticPublic e.coins'
  let chosen ← chooseAead s.config.acceptableAeads req.acceptableAeads
  let cid ← attr s.cid
  let outDer := P.dump (MakeMessage.build cid (.sessionInitResponse
    { pkBStar := ownEphemeralPublic, ct2, ct3, nB := e.nonce, chosenAead := aeadOid chosen }))
  return { ownEphemeralPrivate, ownEphemeralPublic, peerStaticPublic, s1, s2, s3, chosen, outDer }

/-- The assignments of `_handle_session_init_request`. -/
def acceptInitRequest (s : Session β π) (req : SessionInitRequest β) (der : π) (now : Int)
    (e : Entropy β) (r : InitReply β π) : Session β π :=
  { s with
    ownEphemeralPrivate := some r.ownEphemeralPrivate
    ownEphemeralPublic := some r.ownEphemeralPublic
    peerStaticPublic := some r.peerStaticPublic
    peerKeyId := some req.keyIdA
    s1 := some r.s1
    s2 := some r.s2
    s3 := some r.s3
    nB := some e.nonce
    chosenAead := some r.chosen
    lastReceived := some der
    lastSent := some r.outDer
    attemptCount := 0
    deadline := some (now + s.config.ttlSeconds)
    state := .expectSessionCompletionRequest
    outgoingPdus := s.outgoingPdus ++ [r.outDer] }

def handleSessionInitRequest (s : Session β π) (req : SessionInitRequest β) (der : π)
    (now : Int) (e : Entropy β) : Session β π × Option PyError :=
  match s.initReply P req e with
  | .error x => (s, some x)
  | .ok r => (s.acceptInitRequest req der now e r, none)

/-- What `_handle_session_completion_request` has when c_m has decrypted. -/
structure OpenedCompletion (β : Type) where
  cid : List β
  s4 : List β
  keys : SessionKeys β
  plaintext : List β

/-- `_handle_session_completion_request` until c_m has decrypted. The level is the
responder's own configuration, not that of its ephemeral key. -/
def openCompletion (s : Session β π) (req : SessionCompletionRequest β) :
    Except PyError (OpenedCompletion β) := do
  let ownEphemeralPrivate ← attr s.ownEphemeralPrivate
  let s4 ← decapsulate P ownEphemeralPrivate s.config.kemLevel req.ct4
  let nB ← attr s.nB
  let peerKeyId ← attr s.peerKeyId
  let s1 ← attr s.s1
  let s2 ← attr s.s2
  let s3 ← attr s.s3
  let chosen ← attr s.chosenAead
  let cid ← attr s.cid
  let keys := deriveSessionKeys P req.nA nB (P.dumpKeyId peerKeyId) s1 s2 s3 s4 chosen
  let plaintext ← orHandshakeFailed .cMDidNotDecrypt
    (decrypt P keys.aeadName keys.keyA2b keys.ivA2b 0 req.cM cid)
  return { cid, s4, keys, plaintext }

/-- The end of `_handle_session_completion_request`, with `m` encrypted or absent. -/
def acceptCompletion (s : Session β π) (req : SessionCompletionRequest β) (der : π)
    (o : OpenedCompletion β) (m : Option (List β)) : Session β π :=
  let outDer := P.dump (MakeMessage.build o.cid (.sessionCompletionResponse
    { hM := P.sha256 o.plaintext, m }))
  { s with
    nA := some req.nA
    s4 := some o.s4
    sessionKeys := some o.keys
    seqA2b := 1
    lastReceived := some der
    lastSent := some outDer
    state := .established
    deadline := none
    outgoingPdus := s.outgoingPdus ++ [outDer] }

def handleSessionCompletionRequest (s : Session β π) (req : SessionCompletionRequest β)
    (der : π) : Session β π × Option PyError :=
  match s.openCompletion P req with
  | .error x => (s, some x)
  | .ok o =>
    let s := if o.plaintext = [] then s
      else { s with outgoingPayloads := s.outgoingPayloads ++ [o.plaintext] }
    match s.pendingPayload with
    | none => (s.acceptCompletion P req der o none, none)
    | some payload =>
      match encrypt P o.keys.aeadName o.keys.keyB2a o.keys.ivB2a 0 payload o.cid with
      | .error x => (s, some x)
      | .ok replyCt =>
        let s := { s with seqB2a := 1, pendingPayload := none }
        (s.acceptCompletion P req der o (some replyCt), none)

/-! ## Initiator handlers -/

/-- The locals of `_handle_session_init_response` once c_m is encrypted. -/
structure CompletionCall (β : Type) where
  cid : List β
  keys : SessionKeys β
  chosen : Aead
  ct4 : KemCiphertext β
  plaintext : List β
  cM : List β

/-- `_handle_session_init_response` up to its first assignment. The level is the
initiator's own configuration for both of its keys. -/
def completionCall (s : Session β π) (resp : SessionInitResponse β) (e : Entropy β) :
    Except PyError (CompletionCall β) := do
  let level := s.config.kemLevel
  let ownKeyId ← attr s.ownKeyId
  let ownStaticPrivate ← s.keys.getPrivateKey ownKeyId
  let ownEphemeralPrivate ← attr s.ownEphemeralPrivate
  let s2 ← decapsulate P ownEphemeralPrivate level resp.ct2
  let s3 ← decapsulate P ownStaticPrivate level resp.ct3
  let chosen ← checkAead s.config.acceptableAeads resp.chosenAead
  let (s4, ct4) ← encapsulate P resp.pkBStar e.coins
  let s1 ← attr s.s1
  let cid ← attr s.cid
  let keys := deriveSessionKeys P e.nonce resp.nB (P.dumpKeyId ownKeyId) s1 s2 s3 s4 chosen
  let plaintext := s.pendingPayload.getD []
  let cM ← encrypt P keys.aeadName keys.keyA2b keys.ivA2b 0 plaintext cid
  return { cid, keys, chosen, ct4, plaintext, cM }

/-- The assignments of `_handle_session_init_response`. -/
def acceptInitResponse (s : Session β π) (resp : SessionInitResponse β) (der : π) (now : Int)
    (e : Entropy β) (c : CompletionCall β) (outDer : π) : Session β π :=
  { s with
    pendingPayload := none
    nA := some e.nonce
    nB := some resp.nB
    chosenAead := some c.chosen
    sessionKeys := some c.keys
    seqA2b := 1
    sentPlaintextForHM := some c.plaintext
    lastReceived := some der
    lastSent := some outDer
    attemptCount := 0
    deadline := some (now + s.config.retryIntervalSeconds)
    state := .expectSessionCompletionResponse
    outgoingPdus := s.outgoingPdus ++ [outDer] }

/-- The pending payload is gone even when the request cannot be built. -/
def handleSessionInitResponse (s : Session β π) (resp : SessionInitResponse β) (der : π)
    (now : Int) (e : Entropy β) : Session β π × Option PyError :=
  match s.completionCall P resp e with
  | .error x => (s, some x)
  | .ok c =>
    match SessionCompletionRequest.build c.cM c.ct4 e.nonce with
    | .error x => ({ s with pendingPayload := none }, some x)
    | .ok req =>
      let outDer := P.dump (MakeMessage.build c.cid (.sessionCompletionRequest req))
      (s.acceptInitResponse resp der now e c outDer, none)

/-- The decryption of `m`, whose every exception becomes HandshakeFailed. -/
def openReply (s : Session β π) (m : List β) : Except PyError (List β) := do
  let keys ← attr s.sessionKeys
  let cid ← attr s.cid
  decrypt P keys.aeadName keys.keyB2a keys.ivB2a 0 m cid

/-- The end of `_handle_session_completion_response`. -/
def acceptReply (s : Session β π) (der : π) : Session β π :=
  { s with lastReceived := some der, lastSent := none, state := .established, deadline := none }

def handleSessionCompletionResponse [DecidableEq β] (s : Session β π)
    (resp : SessionCompletionResponse β) (der : π) : Session β π × Option PyError :=
  match s.sentPlaintextForHM with
  | none => (s, some .noneRead)
  | some sent =>
    if resp.hM ≠ P.sha256 sent then (s, some (.handshakeFailed .hMDoesNotMatch))
    else
      match resp.m with
      | none => (s.acceptReply der, none)
      | some m =>
        match s.openReply P m with
        | .error _ => (s, some (.handshakeFailed .mDidNotDecrypt))
        | .ok reply =>
          let s := { s with seqB2a := 1, outgoingPayloads := s.outgoingPayloads ++ [reply] }
          (s.acceptReply der, none)

/-! ## Established-session traffic -/

/-- Key, iv and counter of the direction this end sends in. -/
def sending (s : Session β π) (keys : SessionKeys β) : List β × List β × Nat :=
  match s.role with
  | .initiator => (keys.keyA2b, keys.ivA2b, s.seqA2b)
  | .responder => (keys.keyB2a, keys.ivB2a, s.seqB2a)

/-- Key, iv and counter of the direction this end receives in. -/
def receiving (s : Session β π) (keys : SessionKeys β) : List β × List β × Nat :=
  match s.role with
  | .initiator => (keys.keyB2a, keys.ivB2a, s.seqB2a)
  | .responder => (keys.keyA2b, keys.ivA2b, s.seqA2b)

def countSent (s : Session β π) : Session β π :=
  match s.role with
  | .initiator => { s with seqA2b := s.seqA2b + 1 }
  | .responder => { s with seqB2a := s.seqB2a + 1 }

def countReceived (s : Session β π) : Session β π :=
  match s.role with
  | .initiator => { s with seqB2a := s.seqB2a + 1 }
  | .responder => { s with seqA2b := s.seqA2b + 1 }

/-- The PDU of `_send_established_payload`. -/
def messagePdu (s : Session β π) (payload : List β) : Except PyError π := do
  let keys ← attr s.sessionKeys
  let cid ← attr s.cid
  let (key, iv, seq) := s.sending keys
  let ct ← encrypt P keys.aeadName key iv seq payload cid
  return P.dump (MakeMessage.build cid (.message { seq := seq, m := ct }))

/-- The pending payload is taken before it is encrypted. -/
def sendEstablishedPayload (s : Session β π) (payload : List β) :
    Session β π × Option PyError :=
  let s := { s with pendingPayload := none }
  match s.messagePdu P payload with
  | .error x => (s, some x)
  | .ok pdu =>
    let s := s.countSent
    ({ s with outgoingPdus := s.outgoingPdus ++ [pdu] }, none)

/-- InvalidTag is not translated here. -/
def openMessage (s : Session β π) (msg : Message β) : Except PyError (List β) := do
  let keys ← attr s.sessionKeys
  let cid ← attr s.cid
  let (key, iv, expected) := s.receiving keys
  if msg.seq ≠ expected then .error (unexpectedSeq msg.seq expected)
  else decrypt P keys.aeadName key iv expected msg.m cid

def handleEstablishedMessage (s : Session β π) (msg : Message β) :
    Session β π × Option PyError :=
  match s.openMessage P msg with
  | .error x => (s, some x)
  | .ok plaintext =>
    let s := s.countReceived
    ({ s with outgoingPayloads := s.outgoingPayloads ++ [plaintext] }, none)

/-! ## The crank -/

/-- Re-emits the cached reply, if there is one. -/
def resend (s : Session β π) : Session β π :=
  match s.lastSent with
  | none => s
  | some der => { s with outgoingPdus := s.outgoingPdus ++ [der] }

variable [DecidableEq β]

/-- `_process_incoming` on a decoded message of this session. -/
def dispatch (s : Session β π) (payload : MakePayload β) (der : π) (now : Int)
    (e : Entropy β) : Session β π × Option PyError :=
  match s.state, s.role with
  | .expectSessionInitResponse, .initiator =>
    match payload with
    | .sessionInitResponse resp => s.handleSessionInitResponse P resp der now e
    | other => (s, some (.unexpectedPDU (some .sessionInitResponse) other.name))
  | .expectSessionCompletionRequest, .responder =>
    match payload with
    | .sessionCompletionRequest req => s.handleSessionCompletionRequest P req der
    | other => (s, some (.unexpectedPDU (some .sessionCompletionRequest) other.name))
  | .expectSessionCompletionResponse, .initiator =>
    match payload with
    | .sessionCompletionResponse resp => s.handleSessionCompletionResponse P resp der
    | other => (s, some (.unexpectedPDU (some .sessionCompletionResponse) other.name))
  | .established, _ =>
    match payload with
    | .message msg => s.handleEstablishedMessage P msg
    | other => (s, some (.unexpectedPDU (some .message) other.name))
  | _, _ => (s, some (.unexpectedPDU none payload.name))

variable [DecidableEq π]

def processIncoming (s : Session β π) (der : π) (now : Int) (e : Entropy β) :
    Session β π × Option PyError :=
  if s.lastReceived = some der then (s.resend, none)
  else
    match P.load der with
    | .error x => (s, if x.isValueError then none else some x)
    | .ok msg =>
      if s.state = .initial ∧ s.role = .responder then
        match msg.payload with
        | .sessionInitRequest req =>
          { s with cid := some msg.cid }.handleSessionInitRequest P req der now e
        | _ => (s, none)
      else if some msg.cid ≠ s.cid then (s, none)
      else s.dispatch P msg.payload der now e

/-- One queued PDU, if any. -/
def takeIncoming (s : Session β π) (now : Int) (e : Entropy β) : Session β π × Option PyError :=
  match s.incomingQueue with
  | [] => (s, none)
  | der :: rest => { s with incomingQueue := rest }.processIncoming P der now e

/-- A pending payload goes out once established. -/
def sendPending (s : Session β π) : Session β π × Option PyError :=
  if s.state = .established then
    match s.pendingPayload with
    | none => (s, none)
    | some payload => s.sendEstablishedPayload P payload
  else (s, none)

/-- The responder never resends: its deadline is a pure TTL. -/
def onTimeout (s : Session β π) (now : Int) : Session β π :=
  if s.role = .responder then { s with state := .dropped }
  else if (s.attemptCount : Int) ≥ s.config.maxRetries then { s with state := .dropped }
  else
    { s with
      attemptCount := s.attemptCount + 1
      deadline := some (now + s.config.retryIntervalSeconds) }.resend

def checkDeadline (s : Session β π) (now : Int) : Session β π :=
  match s.deadline with
  | none => s
  | some deadline =>
    if now ≥ deadline ∧ s.state ≠ .established ∧ s.state ≠ .initial then s.onTimeout now else s

def updateResult (s : Session β π) (now : Int) : UpdateResult × WithTop Int :=
  if s.state = .dropped then (.sessionDropped, ⊤)
  else nextUpdateResult s.pollPayload s.pollPdu
    (s.deadline.getD (now + s.config.retryIntervalSeconds) : Int)

def update (s : Session β π) (now : Int) (e : Entropy β) :
    Session β π × Except PyError (UpdateResult × WithTop Int) :=
  if s.state = .dropped then (s, .ok (.sessionDropped, ⊤))
  else
    match s.takeIncoming P now e with
    | (s, some x) => (s, .error x)
    | (s, none) =>
      match s.sendPending P with
      | (s, some x) => (s, .error x)
      | (s, none) =>
        if s.state = .dropped then (s, .ok (.sessionDropped, ⊤))
        else
          let s := s.checkDeadline now
          (s, .ok (s.updateResult now))

end Session

end KemMake
