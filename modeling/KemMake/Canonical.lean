import KemMake.Wire

/-!
# Canonical encodings

What `load` accepts of what `dump` writes, and what else it accepts: an envelope has one
encoding and an encoding one envelope, while the classes that inherit their `load` accept more
than DER, and an envelope is not asked whether the KEM values in it are well formed.
-/

namespace KemMake

open Wire

section
variable {A : Asn1crypto} {c : WireClass}

/-! ## Encoding again -/

namespace Asn1crypto

theorem reencodeAlgorithm_ok {a b : AlgorithmIdentifier UInt8} : A.reencodeAlgorithm a = .ok b ↔
    b.algorithm = a.algorithm ∧ (a.parameters = none ∧ b.parameters = none ∨
      ∃ p p', a.parameters = some p ∧ A.reencode p = .ok p' ∧ b.parameters = some p') := by
  obtain ⟨oid, parameters⟩ := a
  obtain ⟨oid', parameters'⟩ := b
  cases parameters with
  | none => simp [reencodeAlgorithm, pure, Except.pure, eq_comm]
  | some p =>
    simp only [reencodeAlgorithm, bind_ok, pure, Except.pure, Except.ok.injEq,
      AlgorithmIdentifier.mk.injEq, reduceCtorEq, false_and, Option.some.injEq, exists_and_left,
      exists_eq_left', false_or]
    constructor
    · rintro ⟨p', hp, rfl, rfl⟩
      exact ⟨rfl, p', hp, rfl⟩
    · rintro ⟨rfl, p', hp, rfl⟩
      exact ⟨p', hp, rfl, rfl⟩

theorem reencodeKemPublicKey_ok {k k' : KemPublicKey UInt8} : A.reencodeKemPublicKey k = .ok k' ↔
    A.reencodeAlgorithm k.algorithm = .ok k'.algorithm ∧ k'.publicKey = k.publicKey := by
  simp only [reencodeKemPublicKey, bind_ok, pure, Except.pure, Except.ok.injEq]
  constructor
  · rintro ⟨algorithm, h, rfl⟩
    exact ⟨h, rfl⟩
  · rintro ⟨h, hk⟩
    exact ⟨_, h, by rw [← hk]⟩

theorem reencodeKemCiphertext_ok {k k' : KemCiphertext UInt8} :
    A.reencodeKemCiphertext k = .ok k' ↔
      A.reencodeAlgorithm k.algorithm = .ok k'.algorithm ∧ k'.ciphertext = k.ciphertext := by
  simp only [reencodeKemCiphertext, bind_ok, pure, Except.pure, Except.ok.injEq]
  constructor
  · rintro ⟨algorithm, h, rfl⟩
    exact ⟨h, rfl⟩
  · rintro ⟨h, hk⟩
    exact ⟨_, h, by rw [← hk]⟩

theorem reencodeKeyId_ok {k k' : KeyId UInt8} : A.reencodeKeyId k = .ok k' ↔
    A.reencodeAlgorithm k.hashAlgorithm = .ok k'.hashAlgorithm ∧ k'.keyHash = k.keyHash := by
  simp only [reencodeKeyId, bind_ok, pure, Except.pure, Except.ok.injEq]
  constructor
  · rintro ⟨algorithm, h, rfl⟩
    exact ⟨h, rfl⟩
  · rintro ⟨h, hk⟩
    exact ⟨_, h, by rw [← hk]⟩

theorem reencodeSessionInitRequest_ok {req req' : SessionInitRequest UInt8} :
    A.reencodeSessionInitRequest req = .ok req' ↔ A.reencodeKemCiphertext req.ct1 = .ok req'.ct1 ∧
      A.reencodeKeyId req.keyIdB = .ok req'.keyIdB ∧
      A.reencodeKemPublicKey req.pkAStar = .ok req'.pkAStar ∧
      A.reencodeKeyId req.keyIdA = .ok req'.keyIdA ∧
      req'.acceptableAeads = req.acceptableAeads := by
  simp only [reencodeSessionInitRequest, bind_ok, pure, Except.pure, Except.ok.injEq]
  constructor
  · rintro ⟨ct1, h1, keyIdB, hb, pkAStar, hpk, keyIdA, ha, rfl⟩
    exact ⟨h1, hb, hpk, ha, rfl⟩
  · rintro ⟨h1, hb, hpk, ha, haeads⟩
    exact ⟨_, h1, _, hb, _, hpk, _, ha, by rw [← haeads]⟩

theorem reencodeSessionInitResponse_ok {resp resp' : SessionInitResponse UInt8} :
    A.reencodeSessionInitResponse resp = .ok resp' ↔
      A.reencodeKemPublicKey resp.pkBStar = .ok resp'.pkBStar ∧
      A.reencodeKemCiphertext resp.ct2 = .ok resp'.ct2 ∧
      A.reencodeKemCiphertext resp.ct3 = .ok resp'.ct3 ∧
      resp'.nB = resp.nB ∧ resp'.chosenAead = resp.chosenAead := by
  simp only [reencodeSessionInitResponse, bind_ok, pure, Except.pure, Except.ok.injEq]
  constructor
  · rintro ⟨pkBStar, hpk, ct2, h2, ct3, h3, rfl⟩
    exact ⟨hpk, h2, h3, rfl, rfl⟩
  · rintro ⟨hpk, h2, h3, hnonce, haead⟩
    exact ⟨_, hpk, _, h2, _, h3, by rw [← hnonce, ← haead]⟩

theorem reencodeSessionCompletionRequest_ok {req req' : SessionCompletionRequest UInt8} :
    A.reencodeSessionCompletionRequest req = .ok req' ↔
      A.reencodeKemCiphertext req.ct4 = .ok req'.ct4 ∧ req'.cM = req.cM ∧ req'.nA = req.nA := by
  simp only [reencodeSessionCompletionRequest, bind_ok, pure, Except.pure, Except.ok.injEq]
  constructor
  · rintro ⟨ct4, h4, rfl⟩
    exact ⟨h4, rfl, rfl⟩
  · rintro ⟨h4, hm, hnonce⟩
    exact ⟨_, h4, by rw [← hm, ← hnonce]⟩

theorem reencodeMakeMessage_ok {msg msg' : MakeMessage UInt8} :
    A.reencodeMakeMessage msg = .ok msg' ↔ A.reencodePayload msg.payload = .ok msg'.payload ∧
      msg'.version = msg.version ∧ msg'.cid = msg.cid := by
  simp only [reencodeMakeMessage, bind_ok, pure, Except.pure, Except.ok.injEq]
  constructor
  · rintro ⟨payload, h, rfl⟩
    exact ⟨h, rfl, rfl⟩
  · rintro ⟨h, hversion, hcid⟩
    exact ⟨_, h, by rw [← hversion, ← hcid]⟩

end Asn1crypto

/-! ## Loading -/

theorem Asn1crypto.load_encode (hA : A.Documented) {x : c.Value} (hx : A.Holds c x) :
    A.load c (c.element.encode x) = .ok x := by
  obtain ⟨y, hy, hload, heq⟩ := hA.reads c x hx
  rw [hload, c.element.encode_inj hy.wf hx.wf hy.length heq]

theorem WireClass.dump_encode {x : c.Value} {der : Octets} (h : c.dump x = .ok der) :
    c.element.encode x = der := by
  cases c with
  | sessionCompletionRequest =>
    change (validateCM x >>= fun _ => pure (Wire.sessionCompletionRequest.encode x)) = _ at h
    cases hv : validateCM x with
    | error e =>
      rw [hv] at h
      cases h
    | ok u =>
      rw [hv] at h
      exact Except.ok.inj h
  | makeMessage =>
    change (dumpPayload x.payload >>= fun _ => pure (Wire.makeMessage.encode x)) = _ at h
    cases hv : dumpPayload x.payload with
    | error e =>
      rw [hv] at h
      cases h
    | ok u =>
      rw [hv] at h
      exact Except.ok.inj h
  | kemPublicKey | kemCiphertext | keyId | aeadAlgorithmList | sessionInitRequest
  | sessionInitResponse | sessionCompletionResponse | message => exact Except.ok.inj h

theorem Asn1crypto.requireDer_ok {encoded : Octets} {x : c.Value} :
    A.requireDer c encoded x = .ok () ↔ A.forceDump c x = .ok encoded := by
  unfold Asn1crypto.requireDer
  cases hd : A.forceDump c x with
  | error e => simp [bind, Except.bind]
  | ok rebuilt =>
    by_cases heq : rebuilt = encoded
    · simp [bind, Except.bind, heq, pure, Except.pure]
    · simp [bind, Except.bind, heq]

theorem Asn1crypto.forceDump_ok {der : Octets} {x : c.Value} : A.forceDump c x = .ok der ↔
    (∃ plain, c.dump x = .ok plain) ∧ ∃ y, A.reencoded c x = .ok y ∧ c.element.encode y = der := by
  simp only [Asn1crypto.forceDump, bind_ok, pure, Except.pure, Except.ok.injEq]
  constructor
  · rintro ⟨plain, hplain, y, hy, hder⟩
    exact ⟨⟨plain, hplain⟩, y, hy, hder⟩
  · rintro ⟨⟨plain, hplain⟩, y, hy, hder⟩
    exact ⟨plain, hplain, y, hy, hder⟩

/-- What `require_der` has let pass is a value that is encoded again as it stands. -/
theorem dump_of_requireDer (hA : A.Documented) {encoded : Octets} {x : c.Value}
    (hload : A.load c encoded = .ok x) (h : A.requireDer c encoded x = .ok ()) :
    A.Takes c x ∧ c.dump x = .ok encoded := by
  obtain ⟨⟨plain, hplain⟩, y, hy, hder⟩ :=
    Asn1crypto.forceDump_ok.mp (Asn1crypto.requireDer_ok.mp h)
  have hholds : A.Holds c y := hA.rebuilds c encoded x y hload hy
  have hback := Asn1crypto.load_encode hA hholds
  rw [hder, hload] at hback
  cases hback
  rw [← WireClass.dump_encode hplain, hder] at hplain
  exact ⟨⟨hholds, hy⟩, hplain⟩

theorem requireDer_of_dump {encoded : Octets} {x : c.Value} (hstable : A.reencoded c x = .ok x)
    (h : c.dump x = .ok encoded) : A.requireDer c encoded x = .ok () :=
  Asn1crypto.requireDer_ok.mpr (Asn1crypto.forceDump_ok.mpr
    ⟨⟨encoded, h⟩, x, hstable, WireClass.dump_encode h⟩)

/-- What a `load` with `require_der` and a check of the value has seen. -/
theorem checked_load (hA : A.Documented) {encoded : Octets} {x : c.Value}
    {check : c.Value → Except WireError Unit} (h : (do
      let obj ← A.load c encoded
      A.requireDer c encoded obj
      check obj
      return obj) = .ok x) :
    A.load c encoded = .ok x ∧ A.Takes c x ∧ c.dump x = .ok encoded ∧ check x = .ok () := by
  obtain ⟨obj, hload, h⟩ := bind_ok.mp h
  obtain ⟨_, hder, h⟩ := bind_ok.mp h
  obtain ⟨_, hcheck, h⟩ := bind_ok.mp h
  cases h
  obtain ⟨htakes, hdump⟩ := dump_of_requireDer hA hload hder
  exact ⟨hload, htakes, hdump, hcheck⟩

theorem checked_load_ok {encoded : Octets} {x : c.Value} {check : c.Value → Except WireError Unit}
    (hload : A.load c encoded = .ok x) (hstable : A.reencoded c x = .ok x)
    (hdump : c.dump x = .ok encoded) (hcheck : check x = .ok ()) : (do
      let obj ← A.load c encoded
      A.requireDer c encoded obj
      check obj
      return obj) = .ok x := by
  simp only [hload, requireDer_of_dump hstable hdump, hcheck, bind, Except.bind, pure, Except.pure]

/-! ## Envelopes -/

theorem dump_makeMessage {x : MakeMessage UInt8}
    (hcM : ∀ req, x.payload = .sessionCompletionRequest req → req.cM ≠ []) :
    WireClass.dump .makeMessage x = .ok (Wire.makeMessage.encode x) := by
  have hpayload : ∃ der, dumpPayload x.payload = .ok der := by
    cases hp : x.payload with
    | sessionCompletionRequest req =>
      have hlen : req.cM.length ≠ 0 := fun h => hcM req hp (List.length_eq_zero_iff.mp h)
      refine ⟨makePayload.encode (.sessionCompletionRequest req), ?_⟩
      simp only [dumpPayload, validateCM, hlen, ↓reduceIte, bind, Except.bind]
      rfl
    | sessionInitRequest | sessionInitResponse | sessionCompletionResponse | message =>
      exact ⟨_, rfl⟩
  obtain ⟨der, hder⟩ := hpayload
  change (dumpPayload x.payload >>= fun _ => pure (Wire.makeMessage.encode x)) = _
  rw [hder]
  rfl

theorem loadMakeMessage_encode (hA : A.Documented) {x : MakeMessage UInt8}
    (hx : A.Takes .makeMessage x) (hcid : x.cid.length = cidLen)
    (hcM : ∀ req, x.payload = .sessionCompletionRequest req → req.cM ≠ []) :
    A.loadMakeMessage (Wire.makeMessage.encode x) = .ok x := by
  refine checked_load_ok (Asn1crypto.load_encode hA hx.toHolds) hx.stable (dump_makeMessage hcM) ?_
  rw [validateCid, if_neg (not_not.mpr hcid)]

/-- The envelopes that are sent and the octets that are accepted correspond one to one. -/
theorem Asn1crypto.makeMessage_bijection (hA : A.Documented) :
    (∀ x, A.Takes .makeMessage x → x.cid.length = cidLen →
      (∀ req, x.payload = .sessionCompletionRequest req → req.cM ≠ []) →
      ∃ der, WireClass.dump .makeMessage x = .ok der ∧ A.loadMakeMessage der = .ok x) ∧
    (∀ der x, A.loadMakeMessage der = .ok x → WireClass.dump .makeMessage x = .ok der) ∧
    ∀ x y der, A.Holds .makeMessage x → A.Holds .makeMessage y →
      WireClass.dump .makeMessage x = .ok der → WireClass.dump .makeMessage y = .ok der →
      x = y := by
  refine ⟨fun x hx hcid hcM => ?_, fun der x h => (checked_load hA h).2.2.1, ?_⟩
  · exact ⟨_, dump_makeMessage hcM, loadMakeMessage_encode hA hx hcid hcM⟩
  · intro x y der hx hy hdx hdy
    have heq := (WireClass.dump_encode hdx).trans (WireClass.dump_encode hdy).symm
    exact Wire.makeMessage.encode_inj hx.wf hy.wf hx.length heq

/-! ## Which classes are DER only -/

/-- The classes with a `load` of their own. -/
def WireClass.Overrides (c : WireClass) : Prop :=
  c ∈ [.kemPublicKey, .kemCiphertext, .sessionCompletionRequest, .makeMessage]

theorem accepts_trailing (hA : A.Documented) (hload : A.classLoad c = A.load c) {x : c.Value}
    (hx : A.Holds c x) : ¬ ∀ encoded y, A.classLoad c encoded = .ok y →
      encoded = c.element.encode y := by
  intro h
  have hok : A.classLoad c (c.element.encode x ++ [0]) = .ok x := by
    rw [hload, hA.trailing c x hx, Asn1crypto.load_encode hA hx]
  have hlen := congrArg List.length (h _ _ hok)
  rw [List.length_append, List.length_singleton] at hlen
  omega

/-- What is asked of an algorithm identifier. -/
def ValidAlgorithm (a : AlgorithmIdentifier UInt8) : Prop :=
  Der.ValidOid a.algorithm ∧ ∀ p, a.parameters = some p → Der.IsElement p

theorem wf_kemPublicKey {k : KemPublicKey UInt8} :
    Wire.kemPublicKey.wf k ↔ ValidAlgorithm k.algorithm :=
  ⟨fun h => h.1, fun h => ⟨h, trivial, trivial⟩⟩

theorem wf_kemCiphertext {k : KemCiphertext UInt8} :
    Wire.kemCiphertext.wf k ↔ ValidAlgorithm k.algorithm :=
  ⟨fun h => h.1, fun h => ⟨h, trivial, trivial⟩⟩

theorem wf_keyId {k : KeyId UInt8} : Wire.keyId.wf k ↔ ValidAlgorithm k.hashAlgorithm :=
  ⟨fun h => h.1, fun h => ⟨h, trivial, trivial⟩⟩

/-- The smallest value of each class with valid identifiers. -/
def WireClass.least : (c : WireClass) → c.Value
  | .kemPublicKey => ⟨kemAlg (mlkemOid .mlkem768), []⟩
  | .kemCiphertext => ⟨kemAlg (mlkemOid .mlkem768), []⟩
  | .keyId => ⟨⟨[2, 16], none⟩, []⟩
  | .aeadAlgorithmList => []
  | .sessionInitRequest =>
    ⟨⟨kemAlg (mlkemOid .mlkem768), []⟩, ⟨⟨[2, 16], none⟩, []⟩, ⟨kemAlg (mlkemOid .mlkem768), []⟩,
      ⟨⟨[2, 16], none⟩, []⟩, []⟩
  | .sessionInitResponse =>
    ⟨⟨kemAlg (mlkemOid .mlkem768), []⟩, ⟨kemAlg (mlkemOid .mlkem768), []⟩,
      ⟨kemAlg (mlkemOid .mlkem768), []⟩, [], [2, 16]⟩
  | .sessionCompletionRequest => ⟨[1], ⟨kemAlg (mlkemOid .mlkem768), []⟩, []⟩
  | .sessionCompletionResponse => ⟨[], none⟩
  | .message => ⟨0, []⟩
  | .makeMessage => ⟨0, List.replicate 16 0, .message ⟨0, []⟩⟩

theorem validOid_short (rest : List Nat) : Der.ValidOid (2 :: 16 :: rest) :=
  ⟨2, 16, rest, rfl, Nat.le_refl 2, fun h => absurd h (Nat.lt_irrefl 2)⟩

theorem validAlgorithm_short (rest : List Nat) : ValidAlgorithm ⟨2 :: 16 :: rest, none⟩ :=
  ⟨validOid_short rest, fun _ h => nomatch h⟩

theorem WireClass.wf_least (c : WireClass) : c.element.wf c.least := by
  have hkey : Wire.kemPublicKey.wf ⟨kemAlg (mlkemOid .mlkem768), []⟩ :=
    wf_kemPublicKey.mpr (validAlgorithm_short _)
  have hct : Wire.kemCiphertext.wf ⟨kemAlg (mlkemOid .mlkem768), []⟩ :=
    wf_kemCiphertext.mpr (validAlgorithm_short _)
  have hid : Wire.keyId.wf ⟨⟨[2, 16], none⟩, []⟩ := wf_keyId.mpr (validAlgorithm_short [])
  cases c with
  | kemPublicKey => exact hkey
  | kemCiphertext => exact hct
  | keyId => exact hid
  | aeadAlgorithmList =>
    intro oid hoid
    cases hoid
  | sessionInitRequest => exact ⟨hct, hid, hkey, hid, (fun _ h => nomatch h), trivial⟩
  | sessionInitResponse => exact ⟨hkey, hct, hct, trivial, validOid_short [], trivial⟩
  | sessionCompletionRequest => exact ⟨trivial, hct, trivial, trivial⟩
  | sessionCompletionResponse => exact ⟨trivial, (fun _ h => nomatch h), trivial⟩
  | message => exact ⟨trivial, trivial, trivial⟩
  | makeMessage => exact ⟨fun _ _ => trivial, trivial, ⟨trivial, trivial, trivial⟩, trivial⟩

theorem WireClass.takes_least (A : Asn1crypto) (c : WireClass) : A.Takes c c.least where
  wf := c.wf_least
  null k hk _ p hp := by
    cases c with
    | keyId =>
      cases List.mem_singleton.mp hk
      cases hp
    | sessionInitRequest =>
      rcases List.mem_cons.mp hk with rfl | hk
      · cases hp
      · cases List.mem_singleton.mp hk
        cases hp
    | kemPublicKey | kemCiphertext | aeadAlgorithmList | sessionInitResponse
    | sessionCompletionRequest | sessionCompletionResponse | message | makeMessage => cases hk
  length := by cases c <;> decide +kernel
  stable := by cases c <;> rfl

inductive KemValue where
  | publicKey (k : KemPublicKey UInt8)
  | ciphertext (k : KemCiphertext UInt8)

/-- A recognized identifier, and the length of FIPS 203 for it. -/
def KemValue.WellFormed : KemValue → Prop
  | .publicKey k => ∃ level, oidToLevel k.algorithm.algorithm = some level ∧
      k.publicKey.length = mlkemPkLen level
  | .ciphertext k => ∃ level, oidToLevel k.algorithm.algorithm = some level ∧
      k.ciphertext.length = mlkemCtLen level

/-- The `load` of its own class accepts its encoding. -/
def KemValue.Loads (A : Asn1crypto) : KemValue → Prop
  | .publicKey k => A.loadKemPublicKey (Wire.kemPublicKey.encode k) = .ok k
  | .ciphertext k => A.loadKemCiphertext (Wire.kemCiphertext.encode k) = .ok k

def MakePayload.kemValues : MakePayload UInt8 → List KemValue
  | .sessionInitRequest req => [.ciphertext req.ct1, .publicKey req.pkAStar]
  | .sessionInitResponse resp => [.publicKey resp.pkBStar, .ciphertext resp.ct2,
      .ciphertext resp.ct3]
  | .sessionCompletionRequest req => [.ciphertext req.ct4]
  | .sessionCompletionResponse _ => []
  | .message _ => []

def KemValue.Taken (A : Asn1crypto) : KemValue → Prop
  | .publicKey k => A.Takes .kemPublicKey k
  | .ciphertext k => A.Takes .kemCiphertext k

theorem validateLength_iff {algorithm : Oid} {table : Level → Nat} {actual : Nat} :
    validateLength algorithm table actual = .ok () ↔
      ∃ level, oidToLevel algorithm = some level ∧ actual = table level := by
  unfold validateLength
  cases oidToLevel algorithm with
  | none => simp
  | some level => by_cases h : actual = table level <;> simp [h]

theorem KemValue.loads_iff (hA : A.Documented) {v : KemValue} (hv : v.Taken A) :
    v.Loads A ↔ v.WellFormed := by
  cases v with
  | publicKey k =>
    constructor
    · exact fun h => validateLength_iff.mp (checked_load hA h).2.2.2
    · exact fun h => checked_load_ok (Asn1crypto.load_encode hA hv.toHolds) hv.stable rfl
        (validateLength_iff.mpr h)
  | ciphertext k =>
    constructor
    · exact fun h => validateLength_iff.mp (checked_load hA h).2.2.2
    · exact fun h => checked_load_ok (Asn1crypto.load_encode hA hv.toHolds) hv.stable rfl
        (validateLength_iff.mpr h)

/-- The contents of a payload are part of the encoding of the envelope. -/
theorem payload_length (x : MakeMessage UInt8) :
    (Wire.makePayload.content x.payload).length ≤ (Wire.makeMessage.encode x).length := by
  let tail := Der.Fields.required Wire.makePayload .nil
  let rest := Der.Fields.required Der.octetString.tagged tail
  have hpayload := Wire.makePayload.content_length x.payload
  have htail : (Wire.makePayload.encode x.payload).length ≤ (tail.encode (x.payload, ())).length :=
    (Der.Fields.required_length Wire.makePayload .nil x.payload ()).1
  have hrest : (tail.encode (x.payload, ())).length ≤
      (rest.encode (x.cid, x.payload, ())).length :=
    (Der.Fields.required_length Der.octetString.tagged tail x.cid (x.payload, ())).2
  have hmessage : (Wire.makeMessage.tagged.content x).length ≤
      (Wire.makeMessage.encode x).length := Wire.makeMessage.tagged.content_length x
  have hcontent : Wire.makeMessage.tagged.content x =
      ((if x.version = 0 then none else some x.version).map Der.integer.tagged.encode).getD [] ++
        rest.encode (x.cid, x.payload, ()) := rfl
  rw [hcontent, List.length_append] at hmessage
  exact hpayload.trans (htail.trans (hrest.trans (by omega)))

/-- The KEM values in the envelope are values of their classes. -/
theorem taken_of_takes {x : MakeMessage UInt8} (hx : A.Takes .makeMessage x) :
    ∀ v ∈ x.payload.kemValues, v.Taken A := by
  have hkey : ∀ k : KemPublicKey UInt8, Wire.kemPublicKey.wf k →
      (Wire.kemPublicKey.encode k).length ≤ (Wire.makePayload.content x.payload).length →
      A.reencodeKemPublicKey k = .ok k → A.Takes .kemPublicKey k := fun k hwf hlen hk =>
    ⟨⟨hwf, (fun _ h => nomatch h), Nat.lt_of_le_of_lt (hlen.trans (payload_length x)) hx.length⟩, hk⟩
  have hct : ∀ k : KemCiphertext UInt8, Wire.kemCiphertext.wf k →
      (Wire.kemCiphertext.encode k).length ≤ (Wire.makePayload.content x.payload).length →
      A.reencodeKemCiphertext k = .ok k → A.Takes .kemCiphertext k := fun k hwf hlen hk =>
    ⟨⟨hwf, (fun _ h => nomatch h), Nat.lt_of_le_of_lt (hlen.trans (payload_length x)) hx.length⟩, hk⟩
  have hwf : Wire.makePayload.wf x.payload := hx.wf.2.2.1
  have hstable := (Asn1crypto.reencodeMakeMessage_ok.mp hx.stable).1
  cases hp : x.payload with
  | sessionInitRequest req =>
    rw [hp] at hwf hkey hct hstable
    obtain ⟨_, hreq, heq⟩ := map_ok.mp hstable
    cases heq
    obtain ⟨hct1, _, hpk, _⟩ := Asn1crypto.reencodeSessionInitRequest_ok.mp hreq
    have hcontent : Wire.makePayload.content (.sessionInitRequest req) =
        Wire.kemCiphertext.encode req.ct1 ++ (Wire.keyId.encode req.keyIdB ++
          (Wire.kemPublicKey.encode req.pkAStar ++ (Wire.keyId.encode req.keyIdA ++
            (Wire.aeadAlgorithmList.encode req.acceptableAeads ++ [])))) := rfl
    have hlen := congrArg List.length hcontent
    simp only [List.length_append] at hlen
    intro v hv
    rcases List.mem_cons.mp hv with rfl | hv
    · exact hct _ hwf.1 (by omega) hct1
    · cases List.mem_singleton.mp hv
      exact hkey _ hwf.2.2.1 (by omega) hpk
  | sessionInitResponse resp =>
    rw [hp] at hwf hkey hct hstable
    obtain ⟨_, hresp, heq⟩ := map_ok.mp hstable
    cases heq
    obtain ⟨hpk, h2, h3, _⟩ := Asn1crypto.reencodeSessionInitResponse_ok.mp hresp
    have hcontent : Wire.makePayload.content (.sessionInitResponse resp) =
        Wire.kemPublicKey.encode resp.pkBStar ++ (Wire.kemCiphertext.encode resp.ct2 ++
          (Wire.kemCiphertext.encode resp.ct3 ++ (Der.octetString.encode resp.nB ++
            (Der.objectIdentifier.encode resp.chosenAead ++ [])))) := rfl
    have hlen := congrArg List.length hcontent
    simp only [List.length_append] at hlen
    intro v hv
    rcases List.mem_cons.mp hv with rfl | hv
    · exact hkey _ hwf.1 (by omega) hpk
    · rcases List.mem_cons.mp hv with rfl | hv
      · exact hct _ hwf.2.1 (by omega) h2
      · cases List.mem_singleton.mp hv
        exact hct _ hwf.2.2.1 (by omega) h3
  | sessionCompletionRequest req =>
    rw [hp] at hwf hkey hct hstable
    obtain ⟨_, hreq, heq⟩ := map_ok.mp hstable
    cases heq
    have h4 := (Asn1crypto.reencodeSessionCompletionRequest_ok.mp hreq).1
    have hcontent : Wire.makePayload.content (.sessionCompletionRequest req) =
        Der.octetString.encode req.cM ++ (Wire.kemCiphertext.encode req.ct4 ++
          (Der.octetString.encode req.nA ++ [])) := rfl
    have hlen := congrArg List.length hcontent
    simp only [List.length_append] at hlen
    intro v hv
    cases List.mem_singleton.mp hv
    exact hct _ hwf.2.1 (by omega) h4
  | sessionCompletionResponse resp =>
    intro v hv
    cases hv
  | message msg =>
    intro v hv
    cases hv

theorem cM_of_dump {x : MakeMessage UInt8} {der : Octets}
    (h : WireClass.dump .makeMessage x = .ok der) (req : SessionCompletionRequest UInt8)
    (hp : x.payload = .sessionCompletionRequest req) : req.cM ≠ [] := by
  intro hnil
  change (dumpPayload x.payload >>= fun _ => pure (Wire.makeMessage.encode x)) = _ at h
  have hlen : req.cM.length = 0 := by rw [hnil, List.length_nil]
  simp only [hp, dumpPayload, validateCM, hlen, ↓reduceIte, bind, Except.bind] at h
  cases h

/-- An envelope that is accepted holds well-formed KEM material exactly where the `load` of
each value's own class would have accepted it. -/
theorem Asn1crypto.wellFormed_iff (hA : A.Documented) (encoded : Octets) (x : MakeMessage UInt8)
    (h : A.loadMakeMessage encoded = .ok x) :
    ((∀ v ∈ x.payload.kemValues, v.WellFormed) ∧
        ∀ req, x.payload = .sessionCompletionRequest req → req.cM ≠ []) ↔
      ∀ v ∈ x.payload.kemValues, v.Loads A := by
  obtain ⟨hload, htakes, hdump, _⟩ := checked_load hA h
  have htaken := taken_of_takes htakes
  constructor
  · intro hwell v hv
    exact (KemValue.loads_iff hA (htaken v hv)).mpr (hwell.1 v hv)
  · intro hloads
    exact ⟨fun v hv => (KemValue.loads_iff hA (htaken v hv)).mp (hloads v hv), cM_of_dump hdump⟩

end

/-! ## A reader -/

namespace Asn1crypto

/-- NULL is encoded again as it stands; on what else may stand for parameters it fails. -/
def unread : Asn1crypto where
  load _ _ := .error .valueError
  reencode p := if p = [0x05, 0x00] then .ok p else .error .attributeError
  nullAlgorithms := [[2, 16, 840, 1, 101, 3, 4, 2, 1]]

/-- The value that stands at the front. -/
def readFront (c : WireClass) (encoded : Octets) : Except WireError c.Value :=
  match c.element.tagged.decode encoded with
  | none => .error .valueError
  | some (x, _) => .ok x

open Classical in
/-- Definite lengths of any form are read, and what follows is not. -/
noncomputable def reader : Asn1crypto where
  load c encoded := do
    let x ← readFront c encoded
    if unread.Holds c x then return x else .error .valueError
  reencode := unread.reencode
  nullAlgorithms := unread.nullAlgorithms

theorem reader_holds {c : WireClass} {x : c.Value} : reader.Holds c x ↔ unread.Holds c x :=
  ⟨fun h => ⟨h.wf, h.null, h.length⟩, fun h => ⟨h.wf, h.null, h.length⟩⟩

theorem reader_load {c : WireClass} {x : c.Value} (hx : reader.Holds c x) (rest : Octets) :
    reader.load c (c.element.encode x ++ rest) = .ok x := by
  have hdecode : c.element.tagged.decode (c.element.encode x ++ rest) = some (x, rest) :=
    c.element.tagged.decode_encode hx.wf hx.length rest
  have hfront : readFront c (c.element.encode x ++ rest) = .ok x := by
    rw [readFront, hdecode]
  exact bind_ok.mpr ⟨x, hfront, if_pos (reader_holds.mp hx)⟩

theorem reader_loads {c : WireClass} {x : c.Value} {encoded : Octets}
    (h : reader.load c encoded = .ok x) : reader.Holds c x := by
  obtain ⟨y, _, h⟩ := bind_ok.mp h
  split at h
  · rename_i hholds
    cases h
    exact reader_holds.mpr hholds
  · cases h

theorem reader_reencodeAlgorithm {a b : AlgorithmIdentifier UInt8}
    (h : reader.reencodeAlgorithm a = .ok b) : b = a := by
  obtain ⟨hoid, ⟨hnone, hnone'⟩ | ⟨p, p', hp, hre, hp'⟩⟩ := reencodeAlgorithm_ok.mp h
  · exact AlgorithmIdentifier.ext hoid (hnone'.trans hnone.symm)
  · have heq : p' = p := by
      change (if p = [0x05, 0x00] then Except.ok p else .error WireError.attributeError) = .ok p' at hre
      split at hre
      · cases hre
        rfl
      · cases hre
    exact AlgorithmIdentifier.ext hoid (hp'.trans (heq ▸ hp.symm))

theorem reader_reencodeKemPublicKey {k k' : KemPublicKey UInt8}
    (h : reader.reencodeKemPublicKey k = .ok k') : k' = k := by
  obtain ⟨halg, hkey⟩ := reencodeKemPublicKey_ok.mp h
  exact KemPublicKey.ext (reader_reencodeAlgorithm halg) hkey

theorem reader_reencodeKemCiphertext {k k' : KemCiphertext UInt8}
    (h : reader.reencodeKemCiphertext k = .ok k') : k' = k := by
  obtain ⟨halg, hct⟩ := reencodeKemCiphertext_ok.mp h
  exact KemCiphertext.ext (reader_reencodeAlgorithm halg) hct

theorem reader_reencodeKeyId {k k' : KeyId UInt8} (h : reader.reencodeKeyId k = .ok k') :
    k' = k := by
  obtain ⟨halg, hhash⟩ := reencodeKeyId_ok.mp h
  exact KeyId.ext (reader_reencodeAlgorithm halg) hhash

theorem reader_reencodeSessionInitRequest {req req' : SessionInitRequest UInt8}
    (h : reader.reencodeSessionInitRequest req = .ok req') : req' = req := by
  obtain ⟨hct, hb, hpk, ha, haeads⟩ := reencodeSessionInitRequest_ok.mp h
  exact SessionInitRequest.ext (reader_reencodeKemCiphertext hct) (reader_reencodeKeyId hb)
    (reader_reencodeKemPublicKey hpk) (reader_reencodeKeyId ha) haeads

theorem reader_reencodeSessionInitResponse {resp resp' : SessionInitResponse UInt8}
    (h : reader.reencodeSessionInitResponse resp = .ok resp') : resp' = resp := by
  obtain ⟨hpk, h2, h3, hnonce, haead⟩ := reencodeSessionInitResponse_ok.mp h
  exact SessionInitResponse.ext (reader_reencodeKemPublicKey hpk)
    (reader_reencodeKemCiphertext h2) (reader_reencodeKemCiphertext h3) hnonce haead

theorem reader_reencodeSessionCompletionRequest {req req' : SessionCompletionRequest UInt8}
    (h : reader.reencodeSessionCompletionRequest req = .ok req') : req' = req := by
  obtain ⟨h4, hm, hnonce⟩ := reencodeSessionCompletionRequest_ok.mp h
  exact SessionCompletionRequest.ext hm (reader_reencodeKemCiphertext h4) hnonce

theorem reader_reencodePayload {p p' : MakePayload UInt8}
    (h : reader.reencodePayload p = .ok p') : p' = p := by
  cases p with
  | sessionInitRequest req =>
    obtain ⟨req', hreq, rfl⟩ := map_ok.mp h
    rw [reader_reencodeSessionInitRequest hreq]
  | sessionInitResponse resp =>
    obtain ⟨resp', hresp, rfl⟩ := map_ok.mp h
    rw [reader_reencodeSessionInitResponse hresp]
  | sessionCompletionRequest req =>
    obtain ⟨req', hreq, rfl⟩ := map_ok.mp h
    rw [reader_reencodeSessionCompletionRequest hreq]
  | sessionCompletionResponse resp => exact (Except.ok.inj h).symm
  | message msg => exact (Except.ok.inj h).symm

/-- What the reader encodes again comes out as it was. -/
theorem reader_reencoded {c : WireClass} {x y : c.Value} (h : reader.reencoded c x = .ok y) :
    y = x := by
  cases c with
  | kemPublicKey => exact reader_reencodeKemPublicKey h
  | kemCiphertext => exact reader_reencodeKemCiphertext h
  | keyId => exact reader_reencodeKeyId h
  | sessionInitRequest => exact reader_reencodeSessionInitRequest h
  | sessionInitResponse => exact reader_reencodeSessionInitResponse h
  | sessionCompletionRequest => exact reader_reencodeSessionCompletionRequest h
  | makeMessage =>
    obtain ⟨hpayload, hversion, hcid⟩ := reencodeMakeMessage_ok.mp h
    exact MakeMessage.ext hversion hcid (reader_reencodePayload hpayload)
  | aeadAlgorithmList | sessionCompletionResponse | message => exact (Except.ok.inj h).symm

theorem reader_documented : reader.Documented where
  reads c x hx := by
    have h := reader_load hx []
    rw [List.append_nil] at h
    exact ⟨x, hx, h, rfl⟩
  rebuilds c encoded x y hload hy := reader_reencoded hy ▸ reader_loads hload
  trailing c x hx rest := by
    have h := reader_load hx []
    rw [List.append_nil] at h
    rw [reader_load hx rest, h]

/-- A completion request with a confirmation and a ciphertext. -/
def completionEnvelope : MakeMessage UInt8 :=
  ⟨0, List.replicate 16 7, .sessionCompletionRequest ⟨List.replicate 48 1,
    ⟨kemAlg (mlkemOid .mlkem768), List.replicate 1088 2⟩, List.replicate 12 3⟩⟩

theorem takes_completionEnvelope : reader.Takes .makeMessage completionEnvelope where
  wf := ⟨fun _ _ => trivial, trivial,
    ⟨trivial, wf_kemCiphertext.mpr (validAlgorithm_short _), trivial, trivial⟩, trivial⟩
  null _ h := nomatch h
  length := by decide +kernel
  stable := rfl

/-- It goes out, comes in, and is the only one with its encoding. -/
theorem makeMessage_bijection_completion :
    ∃ der, WireClass.dump .makeMessage completionEnvelope = .ok der ∧
      reader.loadMakeMessage der = .ok completionEnvelope ∧
      ∀ y, reader.Holds .makeMessage y → WireClass.dump .makeMessage y = .ok der →
        completionEnvelope = y := by
  obtain ⟨sent, _, unique⟩ := makeMessage_bijection reader_documented
  obtain ⟨der, hdump, hload⟩ := sent completionEnvelope takes_completionEnvelope rfl
    fun req hreq => by
      cases hreq
      exact List.cons_ne_nil _ _
  exact ⟨der, hdump, hload, fun y hy => unique _ y der takes_completionEnvelope.toHolds hy hdump⟩

/-- A completion request whose ciphertext has no octets. -/
def emptyCiphertext : MakeMessage UInt8 :=
  ⟨0, List.replicate 16 0, .sessionCompletionRequest (WireClass.least .sessionCompletionRequest)⟩

theorem takes_emptyCiphertext : reader.Takes .makeMessage emptyCiphertext where
  wf := ⟨fun _ _ => trivial, trivial, WireClass.wf_least .sessionCompletionRequest, trivial⟩
  null _ h := nomatch h
  length := by decide +kernel
  stable := rfl

theorem load_emptyCiphertext : reader.loadMakeMessage (Wire.makeMessage.encode emptyCiphertext) =
    .ok emptyCiphertext := by
  refine loadMakeMessage_encode reader_documented takes_emptyCiphertext rfl fun req hp => ?_
  cases hp
  exact List.cons_ne_nil _ _

/-- The envelope is accepted, and what its ciphertext holds is not one. -/
theorem emptyCiphertext_accepted : reader.Documented ∧ ∃ encoded x,
    reader.loadMakeMessage encoded = .ok x ∧ ¬ ∀ v ∈ x.payload.kemValues, v.WellFormed := by
  refine ⟨reader_documented, _, emptyCiphertext, load_emptyCiphertext, fun h => ?_⟩
  obtain ⟨level, _, hlen⟩ := h (.ciphertext ⟨kemAlg (mlkemOid .mlkem768), []⟩) List.mem_cons_self
  cases level <;> cases hlen

theorem wellFormed_iff_emptyCiphertext :
    ((∀ v ∈ emptyCiphertext.payload.kemValues, v.WellFormed) ∧
        ∀ req, emptyCiphertext.payload = .sessionCompletionRequest req → req.cM ≠ []) ↔
      ∀ v ∈ emptyCiphertext.payload.kemValues, v.Loads reader :=
  wellFormed_iff reader_documented _ _ load_emptyCiphertext

end Asn1crypto

end KemMake
