import KemMake.Primitives
import KemMake.Lib.Der

/-!
# The wire format (bottom.py)

The encoding of each class is put together from its `_fields`. `load` is what bottom.py makes
of the `load` of asn1crypto, which is a parameter: for a class without a `load` of its own it
asks nothing more. `dump(force=True)` encodes the fields again, and the parameters of an
algorithm as asn1crypto has parsed them, which is a parameter too.
-/

namespace KemMake

namespace Wire
open Der (Element Tagged Fields)

/-! ## The fields of each class -/

theorem algorithmIdentifier_eta (x : AlgorithmIdentifier UInt8) :
    (⟨x.algorithm, x.parameters⟩ : AlgorithmIdentifier UInt8) = x := rfl

def algorithmIdentifier : Element (AlgorithmIdentifier UInt8) :=
  (Der.sequence (.required Der.objectIdentifier.tagged .any)).via
    (fun x => (x.algorithm, x.parameters)) (fun x => ⟨x.1, x.2⟩) algorithmIdentifier_eta

def kemPublicKey : Element (KemPublicKey UInt8) :=
  (Der.sequence (.required algorithmIdentifier.tagged
    (.required Der.octetString.tagged .nil))).via
    (fun x => (x.algorithm, x.publicKey, ())) (fun x => ⟨x.1, x.2.1⟩) fun _ => rfl

def kemCiphertext : Element (KemCiphertext UInt8) :=
  (Der.sequence (.required algorithmIdentifier.tagged
    (.required Der.octetString.tagged .nil))).via
    (fun x => (x.algorithm, x.ciphertext, ())) (fun x => ⟨x.1, x.2.1⟩) fun _ => rfl

def keyId : Element (KeyId UInt8) :=
  (Der.sequence (.required algorithmIdentifier.tagged
    (.required Der.octetString.tagged .nil))).via
    (fun x => (x.hashAlgorithm, x.keyHash, ())) (fun x => ⟨x.1, x.2.1⟩) fun _ => rfl

def aeadAlgorithmList : Element (List Oid) := Der.sequenceOf Der.objectIdentifier.tagged

def sessionInitRequest : Element (SessionInitRequest UInt8) :=
  (Der.sequence (.required kemCiphertext.tagged (.required keyId.tagged
    (.required kemPublicKey.tagged (.required keyId.tagged
      (.required aeadAlgorithmList.tagged .nil)))))).via
    (fun x => (x.ct1, x.keyIdB, x.pkAStar, x.keyIdA, x.acceptableAeads, ()))
    (fun x => ⟨x.1, x.2.1, x.2.2.1, x.2.2.2.1, x.2.2.2.2.1⟩) fun _ => rfl

def sessionInitResponse : Element (SessionInitResponse UInt8) :=
  (Der.sequence (.required kemPublicKey.tagged (.required kemCiphertext.tagged
    (.required kemCiphertext.tagged (.required Der.octetString.tagged
      (.required Der.objectIdentifier.tagged .nil)))))).via
    (fun x => (x.pkBStar, x.ct2, x.ct3, x.nB, x.chosenAead, ()))
    (fun x => ⟨x.1, x.2.1, x.2.2.1, x.2.2.2.1, x.2.2.2.2.1⟩) fun _ => rfl

def sessionCompletionRequest : Element (SessionCompletionRequest UInt8) :=
  (Der.sequence (.required Der.octetString.tagged (.required kemCiphertext.tagged
    (.required Der.octetString.tagged .nil)))).via
    (fun x => (x.cM, x.ct4, x.nA, ())) (fun x => ⟨x.1, x.2.1, x.2.2.1⟩) fun _ => rfl

def sessionCompletionResponse : Element (SessionCompletionResponse UInt8) :=
  (Der.sequence (.required Der.octetString.tagged
    (.optional (Der.octetString.implicit 0).tagged .nil fun _ _ h => h))).via
    (fun x => (x.hM, x.m, ())) (fun x => ⟨x.1, x.2.1⟩) fun _ => rfl

def message : Element (Message UInt8) :=
  (Der.sequence (.required Der.integer.tagged (.required Der.octetString.tagged .nil))).via
    (fun x => (x.seq, x.m, ())) (fun x => ⟨x.1, x.2.1⟩) fun _ => rfl

def alternatives : Tagged (SessionInitRequest UInt8 ⊕ SessionInitResponse UInt8 ⊕
    SessionCompletionRequest UInt8 ⊕ SessionCompletionResponse UInt8 ⊕ Message UInt8) :=
  (sessionInitRequest.implicit 0).tagged.choice
    ((sessionInitResponse.implicit 1).tagged.choice
      ((sessionCompletionRequest.implicit 2).tagged.choice
        ((sessionCompletionResponse.implicit 3).tagged.choice (message.implicit 4).tagged
          (by rintro _ rfl; decide)) (by rintro _ rfl; decide)) (by rintro _ rfl; decide))
    (by rintro _ rfl; decide)

def makePayload : Tagged (MakePayload UInt8) :=
  alternatives.via
    (fun
      | .sessionInitRequest x => .inl x
      | .sessionInitResponse x => .inr (.inl x)
      | .sessionCompletionRequest x => .inr (.inr (.inl x))
      | .sessionCompletionResponse x => .inr (.inr (.inr (.inl x)))
      | .message x => .inr (.inr (.inr (.inr x))))
    (fun
      | .inl x => .sessionInitRequest x
      | .inr (.inl x) => .sessionInitResponse x
      | .inr (.inr (.inl x)) => .sessionCompletionRequest x
      | .inr (.inr (.inr (.inl x))) => .sessionCompletionResponse x
      | .inr (.inr (.inr (.inr x))) => .message x)
    fun x => by cases x <;> rfl

def makeMessage : Element (MakeMessage UInt8) :=
  (Der.sequence (.default 0 Der.integer.tagged (.required Der.octetString.tagged
    (.required makePayload .nil)) (by rintro _ rfl h; cases h))).via
    (fun x => (x.version, x.cid, x.payload, ())) (fun x => ⟨x.1, x.2.1, x.2.2.1⟩) fun _ => rfl

end Wire

/-! ## The classes -/

inductive WireClass where
  | kemPublicKey
  | kemCiphertext
  | keyId
  | aeadAlgorithmList
  | sessionInitRequest
  | sessionInitResponse
  | sessionCompletionRequest
  | sessionCompletionResponse
  | message
  | makeMessage
  deriving DecidableEq

namespace WireClass

abbrev Value : WireClass → Type
  | .kemPublicKey => KemPublicKey UInt8
  | .kemCiphertext => KemCiphertext UInt8
  | .keyId => KeyId UInt8
  | .aeadAlgorithmList => List Oid
  | .sessionInitRequest => SessionInitRequest UInt8
  | .sessionInitResponse => SessionInitResponse UInt8
  | .sessionCompletionRequest => SessionCompletionRequest UInt8
  | .sessionCompletionResponse => SessionCompletionResponse UInt8
  | .message => Message UInt8
  | .makeMessage => MakeMessage UInt8

def element : (c : WireClass) → Der.Element c.Value
  | .kemPublicKey => Wire.kemPublicKey
  | .kemCiphertext => Wire.kemCiphertext
  | .keyId => Wire.keyId
  | .aeadAlgorithmList => Wire.aeadAlgorithmList
  | .sessionInitRequest => Wire.sessionInitRequest
  | .sessionInitResponse => Wire.sessionInitResponse
  | .sessionCompletionRequest => Wire.sessionCompletionRequest
  | .sessionCompletionResponse => Wire.sessionCompletionResponse
  | .message => Wire.message
  | .makeMessage => Wire.makeMessage

/-- The KeyIds inside a value. -/
def keyIds : (c : WireClass) → c.Value → List (KeyId UInt8)
  | .keyId, x => [x]
  | .sessionInitRequest, x => [x.keyIdB, x.keyIdA]
  | .makeMessage, x =>
    match x.payload with
    | .sessionInitRequest req => [req.keyIdB, req.keyIdA]
    | _ => []
  | _, _ => []

end WireClass

/-- What `load` and `dump` raise. `valueError` is that of asn1crypto, and `attributeError` is
whatever else it runs into. -/
inductive WireError where
  | valueError
  | attributeError
  | indexError
  | nonCanonicalEncoding (cls : WireClass)
  | invalidCorrelationId (actual : Nat)
  | unknownKemAlgorithm (oid : Oid)
  | kemLengthMismatch (level : Level) (actual : Nat)
  | emptyFalseStartPayload
  deriving DecidableEq

/-- asn1crypto, as bottom.py uses it. -/
structure Asn1crypto where
  /-- `load` of Sequence and SequenceOf with `strict=False`, read to the last field. Parameters
  are an `Any`, which is not looked into. -/
  load : (c : WireClass) → Octets → Except WireError c.Value
  /-- `dump(force=True)` of an `Any`, which is parsed for that. -/
  reencode : Octets → Except WireError Octets
  /-- The algorithms for which DigestAlgorithm has NULL parameters. -/
  nullAlgorithms : List Oid

/-! ## Validation -/

namespace Wire

/-- `_validate_length`, with the table of the class. -/
def validateLength (algorithm : Oid) (table : Level → Nat) (actual : Nat) : Except WireError Unit :=
  match oidToLevel algorithm with
  | none => .error (.unknownKemAlgorithm algorithm)
  | some level =>
    if actual ≠ table level then .error (.kemLengthMismatch level actual) else .ok ()

def validatePublicKey (k : KemPublicKey UInt8) : Except WireError Unit :=
  validateLength k.algorithm.algorithm mlkemPkLen k.publicKey.length

def validateCiphertext (k : KemCiphertext UInt8) : Except WireError Unit :=
  validateLength k.algorithm.algorithm mlkemCtLen k.ciphertext.length

/-- `_validate_c_m` -/
def validateCM (req : SessionCompletionRequest UInt8) : Except WireError Unit :=
  if req.cM.length = 0 then .error .emptyFalseStartPayload else .ok ()

/-- `_validate_cid` -/
def validateCid (msg : MakeMessage UInt8) : Except WireError Unit :=
  if msg.cid.length ≠ cidLen then .error (.invalidCorrelationId msg.cid.length) else .ok ()

/-- `dump()` of an alternative inside an envelope. -/
def dumpPayload : MakePayload UInt8 → Except WireError Octets
  | .sessionCompletionRequest req => do
    validateCM req
    return makePayload.encode (.sessionCompletionRequest req)
  | payload => return makePayload.encode payload

end Wire

namespace WireClass
open Wire

/-- `dump()`, where `SessionCompletionRequest.dump` validates, at the top or inside. -/
def dump : (c : WireClass) → c.Value → Except WireError Octets
  | .sessionCompletionRequest, req => do
    validateCM req
    return Wire.sessionCompletionRequest.encode req
  | .makeMessage, msg => do
    let _ ← dumpPayload msg.payload
    return Wire.makeMessage.encode msg
  | c, x => return c.element.encode x

end WireClass

namespace Asn1crypto
open Wire
variable (A : Asn1crypto)

/-! ## Encoding again -/

def reencodeAlgorithm (a : AlgorithmIdentifier UInt8) :
    Except WireError (AlgorithmIdentifier UInt8) :=
  match a.parameters with
  | none => return a
  | some p => do
    let p ← A.reencode p
    return { a with parameters := some p }

def reencodeKemPublicKey (k : KemPublicKey UInt8) : Except WireError (KemPublicKey UInt8) := do
  let algorithm ← A.reencodeAlgorithm k.algorithm
  return { k with algorithm }

def reencodeKemCiphertext (k : KemCiphertext UInt8) : Except WireError (KemCiphertext UInt8) := do
  let algorithm ← A.reencodeAlgorithm k.algorithm
  return { k with algorithm }

def reencodeKeyId (k : KeyId UInt8) : Except WireError (KeyId UInt8) := do
  let hashAlgorithm ← A.reencodeAlgorithm k.hashAlgorithm
  return { k with hashAlgorithm }

def reencodeSessionInitRequest (req : SessionInitRequest UInt8) :
    Except WireError (SessionInitRequest UInt8) := do
  let ct1 ← A.reencodeKemCiphertext req.ct1
  let keyIdB ← A.reencodeKeyId req.keyIdB
  let pkAStar ← A.reencodeKemPublicKey req.pkAStar
  let keyIdA ← A.reencodeKeyId req.keyIdA
  return { req with ct1, keyIdB, pkAStar, keyIdA }

def reencodeSessionInitResponse (resp : SessionInitResponse UInt8) :
    Except WireError (SessionInitResponse UInt8) := do
  let pkBStar ← A.reencodeKemPublicKey resp.pkBStar
  let ct2 ← A.reencodeKemCiphertext resp.ct2
  let ct3 ← A.reencodeKemCiphertext resp.ct3
  return { resp with pkBStar, ct2, ct3 }

def reencodeSessionCompletionRequest (req : SessionCompletionRequest UInt8) :
    Except WireError (SessionCompletionRequest UInt8) := do
  let ct4 ← A.reencodeKemCiphertext req.ct4
  return { req with ct4 }

def reencodePayload : MakePayload UInt8 → Except WireError (MakePayload UInt8)
  | .sessionInitRequest req => (A.reencodeSessionInitRequest req).map .sessionInitRequest
  | .sessionInitResponse resp => (A.reencodeSessionInitResponse resp).map .sessionInitResponse
  | .sessionCompletionRequest req =>
    (A.reencodeSessionCompletionRequest req).map .sessionCompletionRequest
  | .sessionCompletionResponse resp => .ok (.sessionCompletionResponse resp)
  | .message msg => .ok (.message msg)

def reencodeMakeMessage (msg : MakeMessage UInt8) : Except WireError (MakeMessage UInt8) := do
  let payload ← A.reencodePayload msg.payload
  return { msg with payload }

/-- The value whose encoding `dump(force=True)` writes. -/
def reencoded : (c : WireClass) → c.Value → Except WireError c.Value
  | .kemPublicKey => A.reencodeKemPublicKey
  | .kemCiphertext => A.reencodeKemCiphertext
  | .keyId => A.reencodeKeyId
  | .aeadAlgorithmList => .ok
  | .sessionInitRequest => A.reencodeSessionInitRequest
  | .sessionInitResponse => A.reencodeSessionInitResponse
  | .sessionCompletionRequest => A.reencodeSessionCompletionRequest
  | .sessionCompletionResponse => .ok
  | .message => .ok
  | .makeMessage => A.reencodeMakeMessage

/-- `dump(force=True)`. A `dump` that validates does so before it encodes. -/
def forceDump (c : WireClass) (obj : c.Value) : Except WireError Octets := do
  let _ ← c.dump obj
  let obj ← A.reencoded c obj
  return c.element.encode obj

/-- `require_der` -/
def requireDer (c : WireClass) (encoded : Octets) (obj : c.Value) : Except WireError Unit := do
  let rebuilt ← A.forceDump c obj
  if rebuilt ≠ encoded then .error (.nonCanonicalEncoding c)

/-! ## Loading -/

def loadKemPublicKey (encoded : Octets) : Except WireError (KemPublicKey UInt8) := do
  let obj ← A.load .kemPublicKey encoded
  A.requireDer .kemPublicKey encoded obj
  validatePublicKey obj
  return obj

def loadKemCiphertext (encoded : Octets) : Except WireError (KemCiphertext UInt8) := do
  let obj ← A.load .kemCiphertext encoded
  A.requireDer .kemCiphertext encoded obj
  validateCiphertext obj
  return obj

def loadSessionCompletionRequest (encoded : Octets) :
    Except WireError (SessionCompletionRequest UInt8) := do
  let obj ← A.load .sessionCompletionRequest encoded
  A.requireDer .sessionCompletionRequest encoded obj
  validateCM obj
  return obj

def loadMakeMessage (encoded : Octets) : Except WireError (MakeMessage UInt8) := do
  let obj ← A.load .makeMessage encoded
  A.requireDer .makeMessage encoded obj
  validateCid obj
  return obj

/-- `C.load(encoded_data)`: the classes that are not named inherit it. -/
def classLoad : (c : WireClass) → Octets → Except WireError c.Value
  | .kemPublicKey => A.loadKemPublicKey
  | .kemCiphertext => A.loadKemCiphertext
  | .sessionCompletionRequest => A.loadSessionCompletionRequest
  | .makeMessage => A.loadMakeMessage
  | c => A.load c

/-- A value that can be put in an instance of the class: its identifiers have at least two
arcs, its parameters are one element, and NULL where DigestAlgorithm wants that. -/
structure Holds (c : WireClass) (x : c.Value) : Prop where
  wf : c.element.wf x
  null : ∀ k ∈ c.keyIds x, k.hashAlgorithm.algorithm ∈ A.nullAlgorithms →
    ∀ p, k.hashAlgorithm.parameters = some p → p = [0x05, 0x00]
  length : (c.element.encode x).length < Der.maxLength

/-- Besides, its parameters, if it has any, are encoded again as they stand. -/
structure Takes (c : WireClass) (x : c.Value) : Prop extends A.Holds c x where
  stable : A.reencoded c x = .ok x

/-- What is documented: the encoding of a value is read as a value that has it, what is read and
encoded again is a value of the class, and `strict=False` leaves what follows unread. -/
structure Documented : Prop where
  reads : ∀ c x, A.Holds c x → ∃ y, A.Holds c y ∧ A.load c (c.element.encode x) = .ok y ∧
    c.element.encode y = c.element.encode x
  rebuilds : ∀ c encoded x y, A.load c encoded = .ok x → A.reencoded c x = .ok y → A.Holds c y
  trailing : ∀ c x, A.Holds c x → ∀ rest,
    A.load c (c.element.encode x ++ rest) = A.load c (c.element.encode x)

end Asn1crypto

end KemMake
