import KemMake.Bottom

/-!
# What kem_make takes from other packages

`Primitives` holds the functions of cryptography, hashlib and asn1crypto that
session.py calls. Randomness is an argument: a seed for `generate()`, coins for
`encapsulate()`. `none` stands for the exception the package raises: ValueError
for a key, seed or ciphertext that does not fit the ML-KEM class used,
InvalidTag for a ciphertext that does not decrypt. `load` names what it raises:
ValueError where the octets are no message, and whatever asn1crypto runs into
where `require_der` encodes again what it has parsed.
-/

namespace KemMake

/-- Encoded PDUs are of type `π`, every other octet string is a list over `β`. -/
structure Primitives (β π : Type) where
  octet : Nat → β
  /-- `len()` -/
  octets : List β → Nat
  /-- `bytes(a ^ b for a, b in zip(x, y))` -/
  xorBytes : List β → List Nat → List β
  sha256 : List β → List β
  /-- HKDF-SHA256: length, salt, info, input key. -/
  hkdf : Nat → List β → List β → List β → List β
  /-- Key, nonce, plaintext, associated data. The AEADs take fewer than 2 ^ 31 octets each. -/
  encrypt : Aead → List β → List β → List β → List β → List β
  /-- Key, nonce, ciphertext, associated data. -/
  decrypt : Aead → List β → List β → List β → List β → Option (List β)
  /-- The raw public key of the key pair grown from a seed. -/
  publicBytes : Level → List β → List β
  /-- Public key, coins. -/
  encapsulate : Level → List β → List β → Option (List β × List β)
  /-- Seed, ciphertext. -/
  decapsulate : Level → List β → List β → Option (List β)
  /-- `KeyId.dump()` -/
  dumpKeyId : KeyId β → List β
  /-- `MakeMessage.dump()` -/
  dump : MakeMessage β → π
  /-- `MakeMessage.load()` -/
  load : π → Except PyError (MakeMessage β)
  /-- `b""` where an encoded PDU is expected. -/
  noPdu : π

/-- `private_bytes_raw()` of an ML-KEM private key is its seed. -/
def seedLen : Nat := 64

variable {β π : Type}

/-- What `MakeMessage.load` checks of a well-formed message beyond its syntax:
`_validate_cid` and `_validate_c_m`. -/
def MakeMessage.Valid (P : Primitives β π) (msg : MakeMessage β) : Prop :=
  P.octets msg.cid = cidLen ∧
    ∀ req, msg.payload = .sessionCompletionRequest req → req.cM ≠ []

/-- The packages do what their documentation says for honest inputs. -/
structure Primitives.Correct (P : Primitives β π) : Prop where
  octets_hkdf : ∀ length salt info ikm, P.octets (P.hkdf length salt info ikm) = length
  octets_publicBytes : ∀ level seed, P.octets (P.publicBytes level seed) = mlkemPkLen level
  encapsulate_publicBytes : ∀ level seed coins, ∃ shared ct,
    P.encapsulate level (P.publicBytes level seed) coins = some (shared, ct)
  octets_ciphertext : ∀ level pk coins shared ct,
    P.encapsulate level pk coins = some (shared, ct) → P.octets ct = mlkemCtLen level
  decapsulate_encapsulate : ∀ level seed coins shared ct, P.octets seed = seedLen →
    P.encapsulate level (P.publicBytes level seed) coins = some (shared, ct) →
    P.decapsulate level seed ct = some shared
  decapsulate_fits : ∀ level seed ct shared, P.decapsulate level seed ct = some shared →
    P.octets ct = mlkemCtLen level
  decrypt_encrypt : ∀ aead key nonce plaintext ad,
    P.decrypt aead key nonce (P.encrypt aead key nonce plaintext ad) ad = some plaintext
  encrypt_ne_nil : ∀ aead key nonce plaintext ad, P.encrypt aead key nonce plaintext ad ≠ []
  load_dump : ∀ msg : MakeMessage β, msg.Valid P → P.load (P.dump msg) = .ok msg

/-! ## The calls of bottom.py and session.py on them -/

variable (P : Primitives β π)

/-- The parameters are absent for ML-KEM, not NULL. -/
def kemAlg (oid : Oid) : AlgorithmIdentifier β := ⟨oid, none⟩

def KemPublicKey.validateLength (k : KemPublicKey β) : Except PyError Unit :=
  match oidToLevel k.algorithm.algorithm with
  | none => .error (.unknownKemAlgorithm k.algorithm.algorithm)
  | some level =>
    if P.octets k.publicKey ≠ mlkemPkLen level then
      .error (.kemLengthMismatch level (P.octets k.publicKey))
    else .ok ()

def KemPublicKey.build (pk : List β) (level : Level) : Except PyError (KemPublicKey β) := do
  let obj : KemPublicKey β := ⟨kemAlg (mlkemOid level), pk⟩
  obj.validateLength P
  return obj

def KemCiphertext.validateLength (c : KemCiphertext β) : Except PyError Unit :=
  match oidToLevel c.algorithm.algorithm with
  | none => .error (.unknownKemAlgorithm c.algorithm.algorithm)
  | some level =>
    if P.octets c.ciphertext ≠ mlkemCtLen level then
      .error (.kemLengthMismatch level (P.octets c.ciphertext))
    else .ok ()

def KemCiphertext.build (ct : List β) (level : Level) : Except PyError (KemCiphertext β) := do
  let obj : KemCiphertext β := ⟨kemAlg (mlkemOid level), ct⟩
  obj.validateLength P
  return obj

def SessionCompletionRequest.build (cM : List β) (ct4 : KemCiphertext β) (nA : List β) :
    Except PyError (SessionCompletionRequest β) :=
  if cM = [] then .error .emptyFalseStartPayload else .ok ⟨cM, ct4, nA⟩

def MakeMessage.build (cid : List β) (payload : MakePayload β) : MakeMessage β := ⟨0, cid, payload⟩

def levelOf (k : KemPublicKey β) : Except PyError Level :=
  match oidToLevel k.algorithm.algorithm with
  | some level => .ok level
  | none => .error (.unknownKemAlgorithm k.algorithm.algorithm)

/-- The private key, by its seed, and the public key on the wire. -/
def generateEphemeral (level : Level) (seed : List β) :
    Except PyError (List β × KemPublicKey β) := do
  let publicWire ← KemPublicKey.build P (P.publicBytes level seed) level
  return (seed, publicWire)

def encapsulate (peerPublic : KemPublicKey β) (coins : List β) :
    Except PyError (List β × KemCiphertext β) := do
  let level ← levelOf peerPublic
  match P.encapsulate level peerPublic.publicKey coins with
  | none => .error .valueError
  | some (shared, ctBytes) =>
    let ct ← KemCiphertext.build P ctBytes level
    return (shared, ct)

/-- Only the octets of the ciphertext are read, not its algorithm. -/
def decapsulate (privateSeed : List β) (level : Level) (ct : KemCiphertext β) :
    Except PyError (List β) :=
  match P.decapsulate level privateSeed ct.ciphertext with
  | none => .error .valueError
  | some shared => .ok shared

/-- The four secrets derived from the handshake, plus the AEAD name. -/
structure SessionKeys (β : Type) where
  aeadName : Aead
  keyA2b : List β
  ivA2b : List β
  keyB2a : List β
  ivB2a : List β
  deriving DecidableEq

def aeadKeyLength : Aead → Nat
  | .aes256Gcm => 32
  | .chacha20Poly1305 => 32

def aeadNonceLength : Nat := 12

/-- The info labels of `derive_session_keys`, one a secret. -/
inductive KeyLabel where
  | a2bKey
  | a2bIv
  | b2aKey
  | b2aIv
  deriving DecidableEq, Repr

def KeyLabel.text : KeyLabel → String
  | .a2bKey => "kem-make-session-a2b-key-v1"
  | .a2bIv => "kem-make-session-a2b-iv-v1"
  | .b2aKey => "kem-make-session-b2a-key-v1"
  | .b2aIv => "kem-make-session-b2a-iv-v1"

def KeyLabel.codes (label : KeyLabel) : List Nat := label.text.toList.map Char.toNat

def KeyLabel.bytes (label : KeyLabel) : List β := label.codes.map P.octet

/-- Two labels differ within the last 26 octets, which each of them has. -/
theorem KeyLabel.codes_differ : ∀ a b : KeyLabel, a ≠ b →
    ∃ i < 26, a.codes.reverse[i]? ≠ b.codes.reverse[i]? := by
  intro a b
  cases a <;> cases b <;> decide

theorem KeyLabel.codes_length (label : KeyLabel) : 26 ≤ label.codes.length := by
  cases label <;> decide

/-- No label is a prefix extended by another: `info` determines both parts. -/
theorem info_inj {P : Primitives β π} (hP : Function.Injective P.octet) {f g : List β}
    {a b : KeyLabel} (h : f ++ a.bytes P = g ++ b.bytes P) : f = g ∧ a = b := by
  have hab : a = b := by
    by_contra hne
    obtain ⟨i, hi, hd⟩ := KeyLabel.codes_differ a b hne
    have ha := a.codes_length
    have hb := b.codes_length
    have hr := congrArg (fun s => s.reverse[i]?) h
    simp only [KeyLabel.bytes, List.reverse_append, ← List.map_reverse] at hr
    rw [List.getElem?_append_left (by simp; omega), List.getElem?_append_left (by simp; omega),
      List.getElem?_map, List.getElem?_map] at hr
    exact hd (Option.map_injective hP hr)
  subst hab
  exact ⟨List.append_cancel_right h, rfl⟩

/-- An AEAD without an entry in `_AEAD_KEY_LENGTHS` is not a value of `Aead`. -/
def deriveSessionKeys (nA nB fA s1 s2 s3 s4 : List β) (aead : Aead) : SessionKeys β :=
  let salt := nA ++ nB
  let ikm := s1 ++ s2 ++ s3 ++ s4
  let derive (label : KeyLabel) (length : Nat) : List β :=
    P.hkdf length salt (fA ++ label.bytes P) ikm
  { aeadName := aead
    keyA2b := derive .a2bKey (aeadKeyLength aead)
    ivA2b := derive .a2bIv aeadNonceLength
    keyB2a := derive .b2aKey (aeadKeyLength aead)
    ivB2a := derive .b2aIv aeadNonceLength }

/-- `seq.to_bytes(length, "big")` -/
def toBytesBig (length seq : Nat) : Except PyError (List Nat) :=
  if seq < 256 ^ length then
    .ok ((List.range length).map fun i => seq / 256 ^ (length - 1 - i) % 256)
  else .error .overflowError

def nonceForSeq (iv : List β) (seq : Nat) : Except PyError (List β) := do
  let seqBytes ← toBytesBig (P.octets iv) seq
  return P.xorBytes iv seqBytes

def encrypt (aead : Aead) (key iv : List β) (seq : Nat) (plaintext ad : List β) :
    Except PyError (List β) := do
  let nonce ← nonceForSeq P iv seq
  return P.encrypt aead key nonce plaintext ad

def decrypt (aead : Aead) (key iv : List β) (seq : Nat) (ciphertext ad : List β) :
    Except PyError (List β) := do
  let nonce ← nonceForSeq P iv seq
  match P.decrypt aead key nonce ciphertext ad with
  | none => .error .invalidTag
  | some plaintext => return plaintext

end KemMake
