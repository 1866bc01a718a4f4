import KemMake.Session
import KemMake.Lib.Symbolic.Derivation

/-!
# The symbolic primitives

`ideal` runs the session layer on symbolic octet strings: the KEM, the KDF, the
AEAD and the hash are free operations, so they are correct, collision-free and
yield nothing without their keys. Nonces and seeds are names, one for each draw.
-/

namespace KemMake
open Symbolic

/-- What was drawn: by the call number `k` of an honest party, as the seed of a
static key pair, or as application data that is worth keeping secret. -/
inductive Name where
  | uuid (k : Nat)
  | seed (k : Nat)
  | coins (k : Nat)
  | coins' (k : Nat)
  | nonce (k : Nat)
  | static (n : Nat)
  | secret (n : Nat)
  deriving DecidableEq, Repr

def Name.len : Name → Nat
  | .uuid _ => cidLen
  | .seed _ => seedLen
  | .coins _ => 32
  | .coins' _ => 32
  | .nonce _ => 16
  | .static _ => seedLen
  | .secret _ => 1

abbrev Sym := Block Level Aead Name

instance : DecidableEq Sym := inferInstance

/-- An encoded message, octets that are no encoding, or octets that are read and
cannot be encoded again. -/
inductive Pdu where
  | encoded (msg : MakeMessage Sym)
  | junk (n : Nat)
  | odd (n : Nat)
  deriving DecidableEq

namespace Ideal

def octets (s : List Sym) : Nat := Block.lens mlkemPkLen mlkemCtLen Name.len s

def encapsulate (level : Level) (pk coins : List Sym) : Option (List Sym × List Sym) :=
  if octets pk = mlkemPkLen level then
    some ([.shared level pk coins], [.encap level pk coins])
  else none

/-- The secret under a ciphertext, if it was made for the key pair of `seed`. -/
def opened (level : Level) (seed : List Sym) : List Sym → Option (List Sym)
  | [.encap l pk coins] =>
    if l = level ∧ pk = [.pub level seed] then some [.shared level pk coins] else none
  | _ => none

def decapsulate (level : Level) (seed ct : List Sym) : Option (List Sym) :=
  if octets seed = seedLen ∧ octets ct = mlkemCtLen level then
    some ((opened level seed ct).getD [.rejected level seed ct])
  else none

def decrypt (aead : Aead) (key nonce ct ad : List Sym) : Option (List Sym) :=
  match ct with
  | [.aead a k n text d] =>
    if a = aead ∧ k = key ∧ n = nonce ∧ d = ad then some text else none
  | _ => none

/-- Every part but the last is delimited, as in DER. -/
def dumpKeyId (id : KeyId Sym) : List Sym :=
  .octet id.hashAlgorithm.algorithm.length :: id.hashAlgorithm.algorithm.map .octet ++
    (match id.hashAlgorithm.parameters with
      | none => [.octet 0]
      | some p => .octet 1 :: .octet p.length :: p) ++ id.keyHash

def valid (msg : MakeMessage Sym) : Bool :=
  octets msg.cid == cidLen &&
    match msg.payload with
    | .sessionCompletionRequest req => !req.cM.isEmpty
    | _ => true

def load : Pdu → Except PyError (MakeMessage Sym)
  | .encoded msg => if valid msg then .ok msg else .error .valueError
  | .junk _ => .error .valueError
  | .odd _ => .error .attributeError

end Ideal

def ideal : Primitives Sym Pdu where
  octet := .octet
  octets := Ideal.octets
  xorBytes bytes pad := [.mask bytes pad]
  sha256 text := [.digest text]
  hkdf length salt info ikm := [.kdf length salt info ikm]
  encrypt aead key nonce text ad := [.aead aead key nonce text ad]
  decrypt := Ideal.decrypt
  publicBytes level seed := [.pub level seed]
  encapsulate := Ideal.encapsulate
  decapsulate := Ideal.decapsulate
  dumpKeyId := Ideal.dumpKeyId
  dump := .encoded
  load := Ideal.load
  noPdu := .junk 0

namespace Ideal

@[simp] theorem octets_pub (level : Level) (seed : List Sym) :
    octets [.pub level seed] = mlkemPkLen level := by simp [octets, Block.lens, Block.len]

@[simp] theorem octets_encap (level : Level) (pk coins : List Sym) :
    octets [.encap level pk coins] = mlkemCtLen level := by simp [octets, Block.lens, Block.len]

@[simp] theorem octets_name (n : Name) : octets [.name n] = n.len := by
  simp [octets, Block.lens, Block.len]

theorem valid_iff {msg : MakeMessage Sym} : valid msg = true ↔ msg.Valid ideal := by
  unfold valid MakeMessage.Valid
  simp only [Bool.and_eq_true, beq_iff_eq, ideal]
  constructor
  · rintro ⟨hc, hm⟩
    refine ⟨hc, fun req hreq => ?_⟩
    simpa [hreq] using hm
  · rintro ⟨hc, hm⟩
    refine ⟨hc, ?_⟩
    split
    · rename_i req hreq
      simpa using hm req hreq
    · rfl

theorem decapsulate_encapsulate {level : Level} {seed coins shared ct : List Sym}
    (hs : octets seed = seedLen) (h : encapsulate level [.pub level seed] coins = some (shared, ct)) :
    decapsulate level seed ct = some shared := by
  simp only [encapsulate, octets_pub, ↓reduceIte, Option.some.injEq, Prod.mk.injEq] at h
  obtain ⟨rfl, rfl⟩ := h
  simp [decapsulate, hs, opened]

theorem ideal_correct : ideal.Correct where
  octets_hkdf length salt info ikm := by simp [ideal, octets, Block.lens, Block.len]
  octets_publicBytes := octets_pub
  encapsulate_publicBytes level seed coins := ⟨_, _, by simp [ideal, encapsulate]; exact ⟨rfl, rfl⟩⟩
  octets_ciphertext level pk coins shared ct h := by
    simp only [ideal, encapsulate, Option.ite_none_right_eq_some, Option.some.injEq,
      Prod.mk.injEq] at h
    obtain ⟨_, _, rfl⟩ := h
    exact octets_encap level pk coins
  decapsulate_encapsulate level seed coins shared ct hs h := decapsulate_encapsulate hs h
  decapsulate_fits level seed ct shared h := by
    simp only [ideal, decapsulate, Option.ite_none_right_eq_some] at h
    exact h.1.2
  decrypt_encrypt aead key nonce text ad := by simp [ideal, decrypt]
  encrypt_ne_nil aead key nonce text ad := by simp [ideal]
  load_dump msg h := by simp [ideal, load, valid_iff.mpr h]

theorem octet_injective : Function.Injective ideal.octet := fun a b h => by simpa [ideal] using h

theorem dumpKeyId_injective : Function.Injective dumpKeyId := by
  rintro ⟨⟨arcs, params⟩, hash⟩ ⟨⟨arcs', params'⟩, hash'⟩ h
  simp only [dumpKeyId, List.append_assoc, List.cons_append, List.cons.injEq,
    Block.octet.injEq] at h
  obtain ⟨hlen, h⟩ := h
  obtain ⟨hmap, hrest⟩ := List.append_inj h (by simpa using hlen)
  have harcs : arcs = arcs' := List.map_injective_iff.mpr (fun a b h => by simpa using h) hmap
  subst harcs
  clear h hlen hmap
  cases params with
  | none =>
    cases params' with
    | none => simpa using hrest
    | some p' => simp at hrest
  | some p =>
    cases params' with
    | none => simp at hrest
    | some p' =>
      simp only [List.cons_append, List.cons.injEq, Block.octet.injEq, true_and] at hrest
      obtain ⟨hp, hh⟩ := List.append_inj hrest.2 hrest.1
      rw [hp, hh]

theorem decrypt_eq_some {aead : Aead} {key nonce ct ad text : List Sym}
    (h : decrypt aead key nonce ct ad = some text) : ct = [.aead aead key nonce text ad] := by
  unfold decrypt at h
  split at h
  · split at h
    · rename_i hc
      obtain ⟨rfl, rfl, rfl, rfl⟩ := hc
      cases h
      rfl
    · cases h
  · cases h

/-- A decapsulation yields the secret of an encapsulation to that very key, or one
that only the holder of the seed can compute. -/
theorem decapsulate_cases {level : Level} {seed ct s : List Sym}
    (h : decapsulate level seed ct = some s) :
    (∃ coins, ct = [.encap level [.pub level seed] coins] ∧
      s = [.shared level [.pub level seed] coins]) ∨ s = [.rejected level seed ct] := by
  simp only [decapsulate, Option.ite_none_right_eq_some, Option.some.injEq] at h
  obtain ⟨_, rfl⟩ := h
  unfold opened
  split
  · split
    · rename_i hc
      obtain ⟨rfl, rfl⟩ := hc
      exact .inl ⟨_, rfl, rfl⟩
    · exact .inr rfl
  · exact .inr rfl

end Ideal

/-- The draws of call number `k`. -/
def draw (k : Nat) : Entropy Sym where
  uuid := [.name (.uuid k)]
  seed := [.name (.seed k)]
  coins := [.name (.coins k)]
  coins' := [.name (.coins' k)]
  nonce := [.name (.nonce k)]

/-- `KeyId.build`: SHA-256 over the encoding of the key, which holds its algorithm
and its octets. -/
def Ideal.keyIdOf (key : KemPublicKey Sym) : KeyId Sym where
  hashAlgorithm := ⟨[2, 16, 840, 1, 101, 3, 4, 2, 1], none⟩
  keyHash := [.digest (key.algorithm.algorithm.map .octet ++ key.publicKey)]

/-! ## Static keys of the examples -/

def staticKey (n : Nat) : KemPublicKey Sym :=
  ⟨kemAlg (mlkemOid .mlkem768), [.pub .mlkem768 [.name (.static n)]]⟩

def staticId (n : Nat) : KeyId Sym := Ideal.keyIdOf (staticKey n)

/-- Knows the public keys 0, 1 and 2, and holds one private key. -/
def staticLookup (own : Nat) : KeyLookup Sym where
  getPublicKey id :=
    match [0, 1, 2].find? fun n => decide (staticId n = id) with
    | some n => .ok (staticKey n)
    | none => .error .keyLookup
  getPrivateKey id := if id = staticId own then .ok [.name (.static own)] else .error .keyLookup

end KemMake
