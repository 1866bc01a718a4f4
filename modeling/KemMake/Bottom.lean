import Mathlib.Algebra.GroupWithZero.Nat
import Mathlib.Data.List.Basic

/-!
# The wire structures of bottom.py

Octet strings are lists over `β`: one octet a place, or one symbolic value a
place where an adversary reads the wire. `PyError` collects the exceptions
that bottom.py, session.py, candidate.py and dispatcher.py raise or let through.
-/

namespace KemMake

/-- An object identifier, by its arcs. -/
abbrev Oid := List Nat

abbrev Octets := List UInt8

/-- The ML-KEM levels of `MLKEM_OIDS`. -/
inductive Level where
  | mlkem768
  | mlkem1024
  deriving DecidableEq, Repr

def mlkemOid : Level → Oid
  | .mlkem768 => [2, 16, 840, 1, 101, 3, 4, 4, 2]
  | .mlkem1024 => [2, 16, 840, 1, 101, 3, 4, 4, 3]

def oidToLevel (oid : Oid) : Option Level :=
  if oid = mlkemOid .mlkem768 then some .mlkem768
  else if oid = mlkemOid .mlkem1024 then some .mlkem1024
  else none

@[simp] theorem oidToLevel_mlkemOid (level : Level) : oidToLevel (mlkemOid level) = some level := by
  cases level <;> decide

/-- FIPS 203 Table 3. -/
def mlkemPkLen : Level → Nat
  | .mlkem768 => 1184
  | .mlkem1024 => 1568

def mlkemCtLen : Level → Nat
  | .mlkem768 => 1088
  | .mlkem1024 => 1568

theorem mlkemCtLen_inj {a b : Level} (h : mlkemCtLen a = mlkemCtLen b) : a = b := by
  cases a <;> cases b <;> simp_all [mlkemCtLen]

theorem mlkemPkLen_inj {a b : Level} (h : mlkemPkLen a = mlkemPkLen b) : a = b := by
  cases a <;> cases b <;> simp_all [mlkemPkLen]

/-- 128-bit binary UUID. -/
def cidLen : Nat := 16

/-- The AEADs of `AEAD_OIDS`, which session.py knows by name. -/
inductive Aead where
  | aes256Gcm
  | chacha20Poly1305
  deriving DecidableEq, Repr

def aeadOid : Aead → Oid
  | .aes256Gcm => [2, 16, 840, 1, 101, 3, 4, 1, 46]
  | .chacha20Poly1305 => [1, 2, 840, 113549, 1, 9, 16, 3, 18]

/-- None for an unrecognized OID: the list is the peer's and may name others. -/
def aeadName (oid : Oid) : Option Aead :=
  if oid = aeadOid .aes256Gcm then some .aes256Gcm
  else if oid = aeadOid .chacha20Poly1305 then some .chacha20Poly1305
  else none

@[simp] theorem aeadName_aeadOid (aead : Aead) : aeadName (aeadOid aead) = some aead := by
  cases aead <;> decide

theorem aeadOid_inj {a b : Aead} (h : aeadOid a = aeadOid b) : a = b := by
  simpa using congrArg aeadName h

section
variable (β : Type)

@[ext]
structure AlgorithmIdentifier where
  algorithm : Oid
  parameters : Option (List β)
  deriving DecidableEq

@[ext]
structure KemPublicKey where
  algorithm : AlgorithmIdentifier β
  publicKey : List β
  deriving DecidableEq

@[ext]
structure KemCiphertext where
  algorithm : AlgorithmIdentifier β
  ciphertext : List β
  deriving DecidableEq

/-- Digest algorithm and digest of the whole `KemPublicKey` encoding. -/
@[ext]
structure KeyId where
  hashAlgorithm : AlgorithmIdentifier β
  keyHash : List β
  deriving DecidableEq

@[ext]
structure SessionInitRequest where
  ct1 : KemCiphertext β
  keyIdB : KeyId β
  pkAStar : KemPublicKey β
  keyIdA : KeyId β
  acceptableAeads : List Oid
  deriving DecidableEq

@[ext]
structure SessionInitResponse where
  pkBStar : KemPublicKey β
  ct2 : KemCiphertext β
  ct3 : KemCiphertext β
  nB : List β
  chosenAead : Oid
  deriving DecidableEq

@[ext]
structure SessionCompletionRequest where
  cM : List β
  ct4 : KemCiphertext β
  nA : List β
  deriving DecidableEq

structure SessionCompletionResponse where
  hM : List β
  m : Option (List β)
  deriving DecidableEq

structure Message where
  seq : Int
  m : List β
  deriving DecidableEq

inductive MakePayload where
  | sessionInitRequest (req : SessionInitRequest β)
  | sessionInitResponse (resp : SessionInitResponse β)
  | sessionCompletionRequest (req : SessionCompletionRequest β)
  | sessionCompletionResponse (resp : SessionCompletionResponse β)
  | message (msg : Message β)
  deriving DecidableEq

/-- The versioned envelope. `cid` is the sixteen octets of the UUID. -/
@[ext]
structure MakeMessage where
  version : Int
  cid : List β
  payload : MakePayload β
  deriving DecidableEq

end

/-- The names of the alternatives of `MakePayload`. -/
inductive PayloadName where
  | sessionInitRequest
  | sessionInitResponse
  | sessionCompletionRequest
  | sessionCompletionResponse
  | message
  deriving DecidableEq, Repr

def MakePayload.name {β : Type} : MakePayload β → PayloadName
  | .sessionInitRequest _ => .sessionInitRequest
  | .sessionInitResponse _ => .sessionInitResponse
  | .sessionCompletionRequest _ => .sessionCompletionRequest
  | .sessionCompletionResponse _ => .sessionCompletionResponse
  | .message _ => .message

/-- The reasons session.py gives with `HandshakeFailed`. -/
inductive HandshakeFailure where
  | cannotResolveRecipientKey
  | unknownClaimedSender
  | noMutuallyAcceptableAead
  | cMDidNotDecrypt
  | unacceptableAead (oid : Oid)
  | hMDoesNotMatch
  | mDidNotDecrypt
  | unexpectedSeq (seq : Int) (expected : Nat)
  deriving DecidableEq, Repr

/-- Exceptions by class. The first four are subclasses of Python's ValueError,
or that class itself; `noneRead` is the AttributeError or TypeError of using a
field that is still None; `keyLookup` is whatever the caller's key store raises. -/
inductive PyError where
  | unknownKemAlgorithm (oid : Oid)
  | kemLengthMismatch (level : Level) (actual : Nat)
  | emptyFalseStartPayload
  | valueError
  | overflowError
  | noneRead
  | attributeError
  | indexError
  | invalidTag
  | keyLookup
  | sessionError
  | unexpectedPDU (expected : Option PayloadName) (got : PayloadName)
  | handshakeFailed (reason : HandshakeFailure)
  | candidateLimitExceeded
  | dispatcherError
  deriving DecidableEq, Repr

/-- What `except ValueError` catches. -/
def PyError.isValueError : PyError → Bool
  | .unknownKemAlgorithm _ | .kemLengthMismatch _ _ | .emptyFalseStartPayload | .valueError => true
  | _ => false

theorem bind_ok {ε α γ : Type} {x : Except ε α} {f : α → Except ε γ} {c : γ} :
    (x >>= f) = .ok c ↔ ∃ a, x = .ok a ∧ f a = .ok c := by
  cases x <;> simp [bind, Except.bind]

theorem map_ok {ε α γ : Type} {x : Except ε α} {f : α → γ} {c : γ} :
    x.map f = .ok c ↔ ∃ a, x = .ok a ∧ f a = c := by
  cases x <;> simp [Except.map]

/-- `int_max_str_digits` of the interpreter. -/
def intMaxStrDigits : Nat := 4300

/-- `HandshakeFailed(f"unexpected seq {seq}, expected {expected_seq}")`: an int of more digits
is not formatted, which is a ValueError. -/
def unexpectedSeq (seq : Int) (expected : Nat) : PyError :=
  if seq.natAbs < 10 ^ intMaxStrDigits then .handshakeFailed (.unexpectedSeq seq expected)
  else .valueError

end KemMake
