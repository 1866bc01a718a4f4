import KemMake.Canonical

/-!
# One key, several encodings

The parameters of an algorithm identifier are left to asn1crypto. A KEM value whose parameters it
encodes again as they came, NULL among them, passes the check for DER and the check of its length,
and `KeyId.build` hashes the parameters with the rest.
-/

namespace KemMake

open Wire

namespace Wire

/-- `KemPublicKey.build` for a supported level. -/
def buildKemPublicKey (pkBytes : Octets) (level : Level) : Except WireError (KemPublicKey UInt8) := do
  let obj : KemPublicKey UInt8 := ⟨kemAlg (mlkemOid level), pkBytes⟩
  validatePublicKey obj
  return obj

/-- `KemCiphertext.build` -/
def buildKemCiphertext (ctBytes : Octets) (level : Level) :
    Except WireError (KemCiphertext UInt8) := do
  let obj : KemCiphertext UInt8 := ⟨kemAlg (mlkemOid level), ctBytes⟩
  validateCiphertext obj
  return obj

/-- `KeyId.build`, with the identifier of the digest. -/
def buildKeyId (hashAlgorithm : AlgorithmIdentifier UInt8) (digest : Octets → Octets)
    (kemPk : KemPublicKey UInt8) : KeyId UInt8 :=
  ⟨hashAlgorithm, digest (kemPublicKey.encode kemPk)⟩

end Wire

/-! ## Keys and ciphertexts alike -/

inductive KemKind where
  | publicKey
  | ciphertext

namespace KemKind

def value : KemKind → AlgorithmIdentifier UInt8 → Octets → KemValue
  | .publicKey, algorithm, octets => .publicKey ⟨algorithm, octets⟩
  | .ciphertext, algorithm, octets => .ciphertext ⟨algorithm, octets⟩

def table : KemKind → Level → Nat
  | .publicKey => mlkemPkLen
  | .ciphertext => mlkemCtLen

def load (A : Asn1crypto) : KemKind → Octets → Except WireError KemValue
  | .publicKey, encoded => (A.loadKemPublicKey encoded).map .publicKey
  | .ciphertext, encoded => (A.loadKemCiphertext encoded).map .ciphertext

def build : KemKind → Octets → Level → Except WireError KemValue
  | .publicKey, octets, level => (buildKemPublicKey octets level).map .publicKey
  | .ciphertext, octets, level => (buildKemCiphertext octets level).map .ciphertext

end KemKind

namespace KemValue

/-- `dump()` -/
def encode : KemValue → Octets
  | .publicKey k => kemPublicKey.encode k
  | .ciphertext k => kemCiphertext.encode k

def algorithm : KemValue → AlgorithmIdentifier UInt8
  | .publicKey k => k.algorithm
  | .ciphertext k => k.algorithm

def octets : KemValue → Octets
  | .publicKey k => k.publicKey
  | .ciphertext k => k.ciphertext

end KemValue

theorem oidToLevel_iff {oid : Oid} {level : Level} :
    oidToLevel oid = some level ↔ oid = mlkemOid level := by
  constructor
  · intro h
    unfold oidToLevel at h
    split at h
    · rename_i heq
      cases h
      exact heq
    · split at h
      · rename_i heq
        cases h
        exact heq
      · cases h
  · rintro rfl
    exact oidToLevel_mlkemOid level

theorem validated_ok {α : Type} {level : Level} {table : Level → Nat} {n : Nat} {obj a : α} :
    (do
      validateLength (mlkemOid level) table n
      return obj) = Except.ok a ↔ n = table level ∧ a = obj := by
  have hcheck : validateLength (mlkemOid level) table n = .ok () ↔ n = table level := by
    rw [validateLength_iff]
    constructor
    · rintro ⟨level', hlevel, hlen⟩
      rw [oidToLevel_mlkemOid] at hlevel
      cases hlevel
      exact hlen
    · exact fun hlen => ⟨level, oidToLevel_mlkemOid level, hlen⟩
  rw [← hcheck]
  cases validateLength (mlkemOid level) table n with
  | error x => simp [bind, Except.bind]
  | ok u => simp [bind, Except.bind, pure, Except.pure, eq_comm]

section
variable {A : Asn1crypto} {kind : KemKind} {encoded : Octets} {v : KemValue}

/-- What `load` accepts: the encoding of a value with a known identifier and the length for it,
with whatever parameters are encoded again as they came. -/
theorem KemKind.load_ok (hA : A.Documented) : kind.load A encoded = .ok v ↔
    ∃ level parameters octets, v = kind.value ⟨mlkemOid level, parameters⟩ octets ∧
      octets.length = kind.table level ∧ v.Taken A ∧ encoded = v.encode := by
  cases kind with
  | publicKey =>
    simp only [KemKind.load, map_ok]
    constructor
    · rintro ⟨⟨⟨oid, parameters⟩, octets⟩, h, rfl⟩
      obtain ⟨_, htakes, hdump, hcheck⟩ := checked_load hA h
      obtain ⟨level, hlevel, hlen⟩ := validateLength_iff.mp hcheck
      cases oidToLevel_iff.mp hlevel
      exact ⟨level, parameters, octets, rfl, hlen, htakes, (WireClass.dump_encode hdump).symm⟩
    · rintro ⟨level, parameters, octets, rfl, hlen, htaken, rfl⟩
      exact ⟨_, checked_load_ok (Asn1crypto.load_encode hA htaken.toHolds) htaken.stable rfl
        (validateLength_iff.mpr ⟨level, oidToLevel_mlkemOid level, hlen⟩), rfl⟩
  | ciphertext =>
    simp only [KemKind.load, map_ok]
    constructor
    · rintro ⟨⟨⟨oid, parameters⟩, octets⟩, h, rfl⟩
      obtain ⟨_, htakes, hdump, hcheck⟩ := checked_load hA h
      obtain ⟨level, hlevel, hlen⟩ := validateLength_iff.mp hcheck
      cases oidToLevel_iff.mp hlevel
      exact ⟨level, parameters, octets, rfl, hlen, htakes, (WireClass.dump_encode hdump).symm⟩
    · rintro ⟨level, parameters, octets, rfl, hlen, htaken, rfl⟩
      exact ⟨_, checked_load_ok (Asn1crypto.load_encode hA htaken.toHolds) htaken.stable rfl
        (validateLength_iff.mpr ⟨level, oidToLevel_mlkemOid level, hlen⟩), rfl⟩

/-- What `build` makes: the same without parameters. -/
theorem KemKind.build_ok {octets : Octets} {level : Level} : kind.build octets level = .ok v ↔
    octets.length = kind.table level ∧ v = kind.value ⟨mlkemOid level, none⟩ octets := by
  cases kind with
  | publicKey =>
    rw [KemKind.build, map_ok]
    constructor
    · rintro ⟨k, h, rfl⟩
      obtain ⟨hlen, rfl⟩ := validated_ok.mp h
      exact ⟨hlen, rfl⟩
    · rintro ⟨hlen, rfl⟩
      exact ⟨_, validated_ok.mpr ⟨hlen, rfl⟩, rfl⟩
  | ciphertext =>
    rw [KemKind.build, map_ok]
    constructor
    · rintro ⟨k, h, rfl⟩
      obtain ⟨hlen, rfl⟩ := validated_ok.mp h
      exact ⟨hlen, rfl⟩
    · rintro ⟨hlen, rfl⟩
      exact ⟨_, validated_ok.mpr ⟨hlen, rfl⟩, rfl⟩

/-! ## One encoding each -/

theorem lengthOctets_length {n : Nat} (hn : n < Der.maxLength) :
    (Der.lengthOctets n).length ≤ 127 := by
  unfold Der.lengthOctets
  split
  · simp
  · have := Der.natOctets_length hn
    simp only [List.length_cons]
    omega

/-- A sequence of an identifier without parameters and an octet string of at most 1568 octets. -/
theorem encode_short {a : Octets} {octets : Octets} (ha : a.length ≤ 20)
    (hlen : octets.length ≤ 1568) :
    ((0x30 : UInt8) :: (Der.lengthOctets (a ++ (Der.octetString.encode octets ++ [])).length ++
      (a ++ (Der.octetString.encode octets ++ [])))).length < Der.maxLength := by
  have hmax : 2000 < Der.maxLength := by decide +kernel
  have hinner := lengthOctets_length (n := octets.length) (by omega)
  have hstring : (Der.octetString.encode octets).length ≤ 1696 := by
    change ((0x04 : UInt8) :: (Der.lengthOctets octets.length ++ octets)).length ≤ _
    simp only [List.length_cons, List.length_append]
    omega
  have hcontent : (a ++ (Der.octetString.encode octets ++ [])).length ≤ 1716 := by
    simp only [List.length_append, List.length_nil]
    omega
  have houter := lengthOctets_length
    (n := (a ++ (Der.octetString.encode octets ++ [])).length) (by omega)
  rw [List.length_cons, List.length_append]
  omega

/-- What `build` makes fits into asn1crypto. -/
theorem KemKind.taken_build {octets : Octets} {level : Level}
    (hlen : octets.length = kind.table level) :
    (kind.value ⟨mlkemOid level, none⟩ octets).Taken A := by
  have hvalid : ValidAlgorithm ⟨mlkemOid level, none⟩ := by
    cases level <;> exact validAlgorithm_short _
  have ha : (Wire.algorithmIdentifier.encode ⟨mlkemOid level, none⟩).length ≤ 20 := by
    cases level <;> decide +kernel
  have hle : octets.length ≤ 1568 := by
    rw [hlen]
    cases kind <;> cases level <;> decide
  cases kind with
  | publicKey =>
    exact ⟨⟨wf_kemPublicKey.mpr hvalid, (fun _ h => nomatch h), encode_short ha hle⟩, rfl⟩
  | ciphertext =>
    exact ⟨⟨wf_kemCiphertext.mpr hvalid, (fun _ h => nomatch h), encode_short ha hle⟩, rfl⟩

/-- The octets are those of a `build`. -/
def KemKind.Built (kind : KemKind) (encoded : Octets) : Prop :=
  ∃ octets level v, kind.build octets level = .ok v ∧ encoded = v.encode

/-- The octets are those of a value like one of `build`, but with parameters that are encoded
again as they came. -/
def KemKind.Parametrised (A : Asn1crypto) (kind : KemKind) (encoded : Octets) : Prop :=
  ∃ octets level p, octets.length = kind.table level ∧
    (kind.value ⟨mlkemOid level, some p⟩ octets).Taken A ∧
    encoded = (kind.value ⟨mlkemOid level, some p⟩ octets).encode

theorem KemKind.encode_inj {a a' : AlgorithmIdentifier UInt8} {octets octets' : Octets}
    (h : (kind.value a octets).Taken A) (h' : (kind.value a' octets').Taken A)
    (heq : (kind.value a octets).encode = (kind.value a' octets').encode) :
    a = a' ∧ octets = octets' := by
  cases kind with
  | publicKey =>
    cases Wire.kemPublicKey.encode_inj h.wf h'.wf h.length heq
    exact ⟨rfl, rfl⟩
  | ciphertext =>
    cases Wire.kemCiphertext.encode_inj h.wf h'.wf h.length heq
    exact ⟨rfl, rfl⟩

/-- `load` accepts what `build` makes and nothing else, except for values with parameters. -/
theorem KemKind.load_iff_built (hA : A.Documented) :
    ((∃ v, kind.load A encoded = .ok v) ↔ kind.Built encoded) ↔ ¬ kind.Parametrised A encoded := by
  constructor
  · rintro hiff ⟨octets, level, p, hlen, htaken, rfl⟩
    obtain ⟨octets', level', v, hbuild, heq⟩ := hiff.mp
      ⟨_, (KemKind.load_ok hA).mpr ⟨level, some p, octets, rfl, hlen, htaken, rfl⟩⟩
    obtain ⟨hlen', rfl⟩ := KemKind.build_ok.mp hbuild
    obtain ⟨ha, -⟩ := KemKind.encode_inj htaken (KemKind.taken_build hlen') heq
    exact absurd (congrArg AlgorithmIdentifier.parameters ha) (by simp)
  · intro hnot
    constructor
    · rintro ⟨v, hload⟩
      obtain ⟨level, parameters, octets, rfl, hlen, htaken, rfl⟩ := (KemKind.load_ok hA).mp hload
      cases parameters with
      | some p => exact absurd ⟨octets, level, p, hlen, htaken, rfl⟩ hnot
      | none => exact ⟨octets, level, _, KemKind.build_ok.mpr ⟨hlen, rfl⟩, rfl⟩
    · rintro ⟨octets, level, v, hbuild, rfl⟩
      obtain ⟨hlen, rfl⟩ := KemKind.build_ok.mp hbuild
      exact ⟨_, (KemKind.load_ok hA).mpr
        ⟨level, none, octets, rfl, hlen, KemKind.taken_build hlen, rfl⟩⟩

/-- Two values are one encoding if their parameters are the same as well. -/
theorem KemKind.encoded_iff (hA : A.Documented) {encoded' : Octets} {v' : KemValue}
    (h : kind.load A encoded = .ok v) (h' : kind.load A encoded' = .ok v')
    (halg : v.algorithm.algorithm = v'.algorithm.algorithm) (hoctets : v.octets = v'.octets) :
    encoded = encoded' ↔ v.algorithm.parameters = v'.algorithm.parameters := by
  constructor
  · rintro rfl
    cases h.symm.trans h'
    rfl
  · intro hparams
    obtain ⟨level, p, octets, rfl, -, -, rfl⟩ := (KemKind.load_ok hA).mp h
    obtain ⟨level', p', octets', rfl, -, -, rfl⟩ := (KemKind.load_ok hA).mp h'
    cases kind with
    | publicKey =>
      simp only [KemKind.value, KemValue.algorithm, KemValue.octets] at halg hoctets hparams
      rw [halg, hoctets, hparams]
    | ciphertext =>
      simp only [KemKind.value, KemValue.algorithm, KemValue.octets] at halg hoctets hparams
      rw [halg, hoctets, hparams]

/-- Under a collision-free digest a KeyId is one of identifier, parameters and octets. -/
theorem buildKeyId_iff (hA : A.Documented) {encoded' : Octets} {k k' : KemPublicKey UInt8}
    {hashAlgorithm : AlgorithmIdentifier UInt8} {digest : Octets → Octets}
    (hdigest : Function.Injective digest) (h : A.loadKemPublicKey encoded = .ok k)
    (h' : A.loadKemPublicKey encoded' = .ok k') :
    buildKeyId hashAlgorithm digest k = buildKeyId hashAlgorithm digest k' ↔
      k.algorithm.algorithm = k'.algorithm.algorithm ∧ k.publicKey = k'.publicKey ∧
        k.algorithm.parameters = k'.algorithm.parameters := by
  have htakes : A.Takes .kemPublicKey k := (checked_load hA h).2.1
  have htakes' : A.Takes .kemPublicKey k' := (checked_load hA h').2.1
  constructor
  · intro heq
    have hencode := hdigest (congrArg KeyId.keyHash heq)
    cases Wire.kemPublicKey.encode_inj htakes.wf htakes'.wf htakes.length hencode
    exact ⟨rfl, rfl, rfl⟩
  · obtain ⟨⟨oid, p⟩, octets⟩ := k
    obtain ⟨⟨oid', p'⟩, octets'⟩ := k'
    rintro ⟨rfl, rfl, rfl⟩
    rfl

end

/-! ## A key with NULL parameters -/

namespace Asn1crypto

def keyOctets : Octets := List.replicate 1184 0

def plainKey : KemPublicKey UInt8 := ⟨⟨mlkemOid .mlkem768, none⟩, keyOctets⟩

def nullKey : KemPublicKey UInt8 := ⟨⟨mlkemOid .mlkem768, some [0x05, 0x00]⟩, keyOctets⟩

theorem takes_nullKey : reader.Takes .kemPublicKey nullKey where
  wf := wf_kemPublicKey.mpr ⟨validOid_short _, fun p hp => by
    cases hp
    exact ⟨[0x05], [], ⟨0x05, .inl ⟨by decide, rfl⟩⟩, by decide +kernel, by decide⟩⟩
  null _ h := nomatch h
  length := encode_short (a := Wire.algorithmIdentifier.encode nullKey.algorithm)
    (by decide +kernel) (by decide +kernel)
  stable := rfl

theorem load_plainKey : reader.loadKemPublicKey (Wire.kemPublicKey.encode plainKey) = .ok plainKey := by
  have htaken : (KemKind.value .publicKey ⟨mlkemOid .mlkem768, none⟩ keyOctets).Taken reader :=
    KemKind.taken_build (by decide +kernel)
  exact checked_load_ok (load_encode reader_documented htaken.toHolds) rfl rfl
    (validateLength_iff.mpr ⟨.mlkem768, by decide, by decide +kernel⟩)

theorem load_nullKey : reader.loadKemPublicKey (Wire.kemPublicKey.encode nullKey) = .ok nullKey :=
  checked_load_ok (load_encode reader_documented takes_nullKey.toHolds) rfl rfl
    (validateLength_iff.mpr ⟨.mlkem768, by decide, by decide +kernel⟩)

end Asn1crypto

end KemMake
