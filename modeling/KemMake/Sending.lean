import KemMake.Canonical
import KemMake.Spoken

/-!
# What is put on the wire

The envelope of a PDU that is received is not asked whether the KEM values in it are well
formed. Of the PDUs that a dispatcher puts out all of them are, whatever it has received:
what is sent has been built, and every builder checks. So on the wire of bottom.py a PDU that
is put out is the one encoding of its message, a peer reads that message from it, and each KEM
value in it would be accepted on its own.
-/

namespace KemMake

variable {β π : Type} {P : Primitives β π} {K : KeyId β → Prop}

/-! ## What has been built -/

def KemPublicKey.Built (P : Primitives β π) (k : KemPublicKey β) : Prop :=
  ∃ level, k.algorithm = kemAlg (mlkemOid level) ∧ P.octets k.publicKey = mlkemPkLen level

def KemCiphertext.Built (P : Primitives β π) (ct : KemCiphertext β) : Prop :=
  ∃ level, ct.algorithm = kemAlg (mlkemOid level) ∧ P.octets ct.ciphertext = mlkemCtLen level

/-- What a session writes, where `K` holds of the KeyIds that it is given. -/
def MakePayload.Built (P : Primitives β π) (K : KeyId β → Prop) : MakePayload β → Prop
  | .sessionInitRequest req => req.ct1.Built P ∧ K req.keyIdB ∧ req.pkAStar.Built P ∧
      K req.keyIdA ∧ req.acceptableAeads ≠ [] ∧
      ∀ oid ∈ req.acceptableAeads, ∃ aead, oid = aeadOid aead
  | .sessionInitResponse resp => resp.pkBStar.Built P ∧ resp.ct2.Built P ∧ resp.ct3.Built P ∧
      ∃ aead, resp.chosenAead = aeadOid aead
  | .sessionCompletionRequest req => req.cM ≠ [] ∧ req.ct4.Built P
  | .sessionCompletionResponse _ => True
  | .message msg => 0 ≤ msg.seq

/-- The PDU is the encoding of a message that has been built. -/
def Sendable (P : Primitives β π) (K : KeyId β → Prop) (pdu : π) : Prop :=
  ∃ cid payload, P.octets cid = cidLen ∧ payload.Built P K ∧
    pdu = P.dump (MakeMessage.build cid payload)

theorem generateEphemeral_built {level : Level} {seed : List β} {r : List β × KemPublicKey β}
    (h : generateEphemeral P level seed = .ok r) : r.2.Built P := by
  simp only [generateEphemeral, KemPublicKey.build, KemPublicKey.validateLength, bind_ok,
    kemAlg, oidToLevel_mlkemOid, pure, Except.pure, Except.ok.injEq] at h
  obtain ⟨k, ⟨u, hlen, rfl⟩, rfl⟩ := h
  split at hlen
  · cases hlen
  · rename_i hfits
    exact ⟨level, rfl, not_not.mp hfits⟩

theorem encapsulate_built {peer : KemPublicKey β} {coins shared : List β} {ct : KemCiphertext β}
    (h : encapsulate P peer coins = .ok (shared, ct)) : ct.Built P := by
  simp only [encapsulate, bind_ok] at h
  obtain ⟨level, _, h⟩ := h
  split at h
  · cases h
  · simp only [KemCiphertext.build, KemCiphertext.validateLength, bind_ok, kemAlg,
      oidToLevel_mlkemOid, pure, Except.pure, Except.ok.injEq, Prod.mk.injEq] at h
    obtain ⟨_, ⟨u, hlen, rfl⟩, rfl, rfl⟩ := h
    split at hlen
    · cases hlen
    · rename_i hfits
      exact ⟨level, rfl, not_not.mp hfits⟩

namespace Session

/-- The key pair of an answer comes from the builder. -/
theorem initReply_generates {s : Session β π} {req : SessionInitRequest β} {e : Entropy β}
    {r : InitReply β π} (h : s.initReply P req e = .ok r) :
    ∃ level g, levelOf req.pkAStar = .ok level ∧ generateEphemeral P level e.seed = .ok g := by
  simp only [initReply, bind_ok] at h
  obtain ⟨_, _, _, _, level, hlevel, _, _, g, hgen, _⟩ := h
  exact ⟨level, g, hlevel, hgen⟩

/-- So does that of a call, which offers something. -/
theorem initiate_generates {ownKeyId peerKeyId : KeyId β} {keys : KeyLookup β}
    {config : SessionConfig} {now : Int} {e : Entropy β} {s : Session β π}
    (h : (new .initiator (some ownKeyId) keys config).initiate P peerKeyId now e = (s, none)) :
    (∃ g, generateEphemeral P config.kemLevel e.seed = .ok g) ∧ config.acceptableAeads ≠ [] := by
  simp only [initiate, new, sendInitRequest, ne_eq, not_true_eq_false, ↓reduceIte] at h
  split at h
  · cases h
  · split at h
    · cases h
    · rename_i hgen
      split at h
      · cases h
      · by_cases hne : config.acceptableAeads = []
        · simp only [hne, ↓reduceIte] at h
          cases h
        · exact ⟨⟨_, hgen⟩, hne⟩

/-! ## Sessions -/

/-- It has only built messages to send, now or again, for a cid of 128 bits. -/
structure Writes (P : Primitives β π) (K : KeyId β → Prop) (s : Session β π) : Prop where
  cid : ∀ c, s.cid = some c → P.octets c = cidLen
  outgoing : ∀ pdu ∈ s.outgoingPdus, Sendable P K pdu
  last : ∀ pdu, s.lastSent = some pdu → Sendable P K pdu

variable {s s' : Session β π} {now : Int} {e : Entropy β} {x : Option PyError}

theorem Writes.add (h : s.Writes P K) {pdu : π} (hp : Sendable P K pdu)
    (hc : ∀ c, s'.cid = some c → P.octets c = cidLen)
    (ho : s'.outgoingPdus = s.outgoingPdus ++ [pdu]) (hl : s'.lastSent = some pdu) :
    s'.Writes P K := by
  constructor
  · exact hc
  · intro q hq
    rw [ho, List.mem_append, List.mem_singleton] at hq
    obtain hq | rfl := hq
    · exact h.outgoing q hq
    · exact hp
  · intro q hq
    rw [hl] at hq
    cases hq
    exact hp

theorem Writes.resend (h : s.Writes P K) : s.resend.Writes P K := by
  rw [resend_eq]
  constructor
  · exact h.cid
  · intro pdu hpdu
    rw [List.mem_append, Option.mem_toList] at hpdu
    exact hpdu.elim (h.outgoing pdu) (h.last pdu)
  · exact h.last

/-- Only the first PDU names a cid, and `load` has checked its length. -/
theorem Took.writes (hV : Dispatcher.ChecksCid P)
    (hne : ∀ aead key nonce text ad, P.encrypt aead key nonce text ad ≠ [])
    (ht : Took P s now e s' x) (h : s.Writes P K) : s'.Writes P K := by
  cases ht with
  | idle => exact h
  | resent => exact Writes.resend ⟨h.cid, h.outgoing, h.last⟩
  | ignored | undecoded => exact ⟨h.cid, h.outgoing, h.last⟩
  | refused _ hl hcid =>
    refine ⟨fun c hc => ?_, h.outgoing, h.last⟩
    obtain rfl | ⟨_, _, rfl⟩ := hcid
    · exact h.cid c hc
    · cases hc
      exact hV _ _ hl
  | answered _ hl _ _ _ hr =>
    have hlen := hV _ _ hl
    obtain ⟨level, g, hlevel, hgen⟩ := initReply_generates hr
    obtain ⟨answer⟩ := initReply_ok hr
    have hpub := generateEphemeral_built hgen
    rw [generateEphemeral_eq hgen] at hpub
    have hcid : answer.cid = _ := (Option.some.inj answer.has_cid).symm
    have hsame : answer.level = level := Except.ok.inj (answer.level_of.symm.trans hlevel)
    refine h.add ⟨answer.cid, _, ?_, ?_, answer.out⟩ ?_ rfl rfl
    · rw [hcid]
      exact hlen
    · rw [hsame]
      exact ⟨hpub, encapsulate_built answer.second, encapsulate_built answer.third, _, rfl⟩
    · intro c hc
      cases hc
      exact hlen
  | completed _ _ _ _ _ _ ho =>
    obtain ⟨opening⟩ := openCompletion_ok ho
    exact h.add ⟨_, .sessionCompletionResponse _, h.cid _ opening.has_cid, trivial, rfl⟩ h.cid
      rfl rfl
  | called _ _ _ _ _ _ hcall =>
    obtain ⟨call⟩ := completionCall_ok hcall
    have hbuilt : (MakePayload.sessionCompletionRequest ⟨_, _, e.nonce⟩).Built P K :=
      ⟨completionCall_cM hne hcall, encapsulate_built call.fourth⟩
    exact h.add ⟨_, _, h.cid _ call.has_cid, hbuilt, rfl⟩ h.cid rfl rfl
  | confirmed | replied => exact ⟨h.cid, h.outgoing, nofun⟩
  | received =>
    rw [countReceived_eq]
    exact ⟨h.cid, h.outgoing, h.last⟩

theorem Sent.writes (hs : Sent P s s' x) (h : s.Writes P K) : s'.Writes P K := by
  cases hs with
  | idle => exact h
  | failed => exact ⟨h.cid, h.outgoing, h.last⟩
  | message _ _ hm =>
    rw [countSent_eq]
    refine ⟨h.cid, fun pdu hpdu => ?_, h.last⟩
    rw [List.mem_append, List.mem_singleton] at hpdu
    obtain hpdu | rfl := hpdu
    · exact h.outgoing pdu hpdu
    · simp only [messagePdu, bind_ok, attr_ok, pure, Except.pure, Except.ok.injEq] at hm
      obtain ⟨_, _, cid, hcid, _, _, rfl⟩ := hm
      exact ⟨cid, .message ⟨_, _⟩, h.cid cid hcid, Int.natCast_nonneg _, rfl⟩

theorem Ticked.writes (hk : Ticked s now s') (h : s.Writes P K) : s'.Writes P K := by
  cases hk with
  | idle => exact h
  | dropped => exact ⟨h.cid, h.outgoing, h.last⟩
  | retried => exact Writes.resend ⟨h.cid, h.outgoing, h.last⟩

theorem Writes.update [DecidableEq β] [DecidableEq π] (hV : Dispatcher.ChecksCid P)
    (hne : ∀ aead key nonce text ad, P.encrypt aead key nonce text ad ≠ [])
    (h : s.Writes P K) : (s.update P now e).1.Writes P K :=
  update_preserves hne (fun _ _ ht => ht.writes hV hne) (fun _ _ _ hs => hs.writes)
    (fun _ _ hk => hk.writes) h

theorem writes_new (role : Role) (ownKeyId : Option (KeyId β)) (keys : KeyLookup β)
    (config : SessionConfig) : (new role ownKeyId keys config : Session β π).Writes P K :=
  ⟨nofun, nofun, nofun⟩

theorem writes_initiate {own peer : KeyId β} {keys : KeyLookup β} {config : SessionConfig}
    {primary : Session β π} (hown : K own) (hpeer : K peer) (he : P.octets e.uuid = cidLen)
    (hp : (new .initiator (some own) keys config).initiate P peer now e = (primary, none)) :
    primary.Writes P K := by
  obtain ⟨⟨g, hgen⟩, haeads⟩ := initiate_generates hp
  obtain ⟨_, s1, ct1, _, henc, rfl⟩ := initiate_ok hp
  have hpub := generateEphemeral_built hgen
  rw [generateEphemeral_eq hgen] at hpub
  refine Writes.add (writes_new .initiator (some own) keys config) ⟨e.uuid, _, he, ?_, rfl⟩ ?_
    rfl rfl
  · refine ⟨encapsulate_built henc, hpeer, hpub, hown, by simpa using haeads, fun oid hoid => ?_⟩
    obtain ⟨aead, _, rfl⟩ := List.mem_map.mp hoid
    exact ⟨aead, rfl⟩
  · intro c hc
    cases hc
    exact he

end Session

/-! ## Dispatchers -/

namespace Dispatcher
variable [DecidableEq β]

/-- The calls, which name KeyIds of the kind `K` and whose `uuid4()` has 128 bits. -/
def Names (P : Primitives β π) (K : KeyId β → Prop) (_ : Dispatcher β π) : Op β π → Prop
  | .initiate ownKeyId peerKeyId _ e => K ownKeyId ∧ K peerKeyId ∧ P.octets e.uuid = cidLen
  | _ => True

omit [DecidableEq β] in
theorem writes_handled : Handled (fun _ _ s => s.Writes P K) (Sendable P K) where
  sent _ _ _ h := h.outgoing
  drained _ _ _ h := ⟨h.cid, nofun, h.last⟩
  establish _ _ _ h _ := h

variable [DecidableEq π] {d d' : Dispatcher β π} (hV : ChecksCid P)
  (hne : ∀ aead key nonce text ad, P.encrypt aead key nonce text ad ≠ [])
include hV hne

theorem writes_serves (d : Dispatcher β π) (der : π) (now : Int) (e : Entropy β) :
    Serves P d der now e (fun _ _ s => s.Writes P K) (fun _ _ s => s.Writes P K) := by
  have hgiven : ∀ s : Session β π, s.Writes P K →
      ((s.postPdu der).update P now e).1.Writes P K := by
    intro s h
    apply Session.Writes.update hV hne
    exact ⟨h.cid, h.outgoing, h.last⟩
  constructor
  · exact fun _ _ s _ _ h => .inl (hgiven s h)
  · exact fun _ _ s _ _ h => hgiven s h
  · intro _ s twin _ h hf
    obtain ⟨_, _, _, rfl⟩ := Session.fork_ok.mp hf
    exact ⟨h.cid, nofun, h.last⟩
  · exact fun _ _ _ _ _ _ _ _ _ => hgiven _ (Session.writes_new .responder none d.keys d.config)

theorem writes_step {op : Op β π} (hok : Names P K d op)
    (h : Kept (fun _ _ s => s.Writes P K) (Sendable P K) d) :
    Kept (fun _ _ s => s.Writes P K) (Sendable P K) (d.step P op) := by
  cases op with
  | initiate own peer now e =>
    obtain ⟨hown, hpeer, he⟩ := hok
    apply kept_initiate h
    intro primary c hp _
    have hw := Session.writes_initiate hown hpeer he hp
    exact ⟨⟨hw.cid, nofun, hw.last⟩, hw.outgoing⟩
  | postPdu der now e =>
    exact kept_postPdu hne h (writes_serves hV hne d der now e) writes_handled fun _ _ _ => id
  | postPayload c payload =>
    apply kept_postPayload h
    intro t s hs
    rw [Session.postPayload_eq]
    exact ⟨hs.cid, hs.outgoing, hs.last⟩
  | getPdu => exact kept_getPdu h
  | getPayload => exact kept_getPayload h
  | close c => exact kept_close h c
  | update now e => exact kept_update writes_handled (fun _ _ _ _ hs => .inl (hs.update hV hne)) h

/-- Whatever is posted, only what has been built is put out. -/
theorem writes_run (hrun : Run P (Names P K) d d')
    (h : Kept (fun _ _ s => s.Writes P K) (Sendable P K) d) :
    Kept (fun _ _ s => s.Writes P K) (Sendable P K) d' := by
  induction hrun with
  | refl => exact h
  | step _ hok ih => exact writes_step hV hne hok ih

end Dispatcher

/-! ## On the wire -/

/-- As a session sees them. -/
def WireError.toPyError : WireError → PyError
  | .attributeError => .attributeError
  | .indexError => .indexError
  | .unknownKemAlgorithm oid => .unknownKemAlgorithm oid
  | .kemLengthMismatch level actual => .kemLengthMismatch level actual
  | .emptyFalseStartPayload => .emptyFalseStartPayload
  -- A NonCanonicalEncodingError and an InvalidCorrelationIdError are ValueErrors.
  | .valueError | .nonCanonicalEncoding _ | .invalidCorrelationId _ => .valueError

/-- The messages are those of bottom.py over asn1crypto. -/
structure Primitives.Wired (P : Primitives UInt8 Octets) (A : Asn1crypto) : Prop where
  octets : ∀ octets, P.octets octets = octets.length
  dump : ∀ msg, P.dump msg = Wire.makeMessage.encode msg
  load : ∀ der, P.load der = (A.loadMakeMessage der).mapError WireError.toPyError

section
open Wire
variable {A : Asn1crypto} {P : Primitives UInt8 Octets}

theorem Primitives.Wired.load_eq (hP : P.Wired A) {der : Octets} {msg : MakeMessage UInt8} :
    P.load der = .ok msg ↔ A.loadMakeMessage der = .ok msg := by
  rw [hP.load]
  cases A.loadMakeMessage der <;> simp [Except.mapError]

theorem Primitives.Wired.checksCid (hA : A.Documented) (hP : P.Wired A) :
    Dispatcher.ChecksCid P := by
  intro der msg hl
  have hcid := (checked_load hA (hP.load_eq.mp hl)).2.2.2
  rw [hP.octets]
  unfold validateCid at hcid
  split at hcid
  · cases hcid
  · rename_i hlen
    exact not_not.mp hlen

theorem validAlgorithm_kemAlg (level : Level) : ValidAlgorithm (kemAlg (mlkemOid level)) := by
  cases level with
  | mlkem768 => exact validAlgorithm_short _
  | mlkem1024 => exact validAlgorithm_short _

theorem validOid_aeadOid (aead : Aead) : Der.ValidOid (aeadOid aead) := by
  cases aead with
  | aes256Gcm => exact validOid_short _
  | chacha20Poly1305 => exact ⟨1, 2, _, rfl, by omega, fun _ => by omega⟩

theorem wf_built_key {k : KemPublicKey UInt8} (h : k.Built P) : Wire.kemPublicKey.wf k := by
  obtain ⟨level, halg, _⟩ := h
  rw [wf_kemPublicKey, halg]
  exact validAlgorithm_kemAlg level

theorem wf_built_ciphertext {ct : KemCiphertext UInt8} (h : ct.Built P) :
    Wire.kemCiphertext.wf ct := by
  obtain ⟨level, halg, _⟩ := h
  rw [wf_kemCiphertext, halg]
  exact validAlgorithm_kemAlg level

/-- What has been built is a value of its class. -/
theorem wf_built {payload : MakePayload UInt8} (h : payload.Built P (A.Takes .keyId)) :
    Wire.makePayload.wf payload := by
  cases payload with
  | sessionInitRequest req =>
    obtain ⟨hct, hpeer, hpk, hown, _, haeads⟩ := h
    refine ⟨wf_built_ciphertext hct, hpeer.wf, wf_built_key hpk, hown.wf, fun oid hoid => ?_,
      trivial⟩
    obtain ⟨aead, rfl⟩ := haeads oid hoid
    exact validOid_aeadOid aead
  | sessionInitResponse resp =>
    obtain ⟨hpk, h2, h3, aead, haead⟩ := h
    refine ⟨wf_built_key hpk, wf_built_ciphertext h2, wf_built_ciphertext h3, trivial, ?_, trivial⟩
    change Der.ValidOid resp.chosenAead
    rw [haead]
    exact validOid_aeadOid aead
  | sessionCompletionRequest req => exact ⟨trivial, wf_built_ciphertext h.2, trivial, trivial⟩
  | sessionCompletionResponse resp => exact ⟨trivial, fun _ _ => trivial, trivial⟩
  | message msg => exact ⟨trivial, trivial, trivial⟩

theorem reencodeAlgorithm_kemAlg (level : Level) :
    A.reencodeAlgorithm (kemAlg (mlkemOid level)) = .ok (kemAlg (mlkemOid level)) := rfl

theorem stable_built_key {k : KemPublicKey UInt8} (h : k.Built P) :
    A.reencodeKemPublicKey k = .ok k := by
  obtain ⟨level, halg, _⟩ := h
  exact Asn1crypto.reencodeKemPublicKey_ok.mpr ⟨by rw [halg, reencodeAlgorithm_kemAlg], rfl⟩

theorem stable_built_ciphertext {ct : KemCiphertext UInt8} (h : ct.Built P) :
    A.reencodeKemCiphertext ct = .ok ct := by
  obtain ⟨level, halg, _⟩ := h
  exact Asn1crypto.reencodeKemCiphertext_ok.mpr ⟨by rw [halg, reencodeAlgorithm_kemAlg], rfl⟩

/-- What has been built has no parameters that asn1crypto could change. -/
theorem stable_built {payload : MakePayload UInt8} (h : payload.Built P (A.Takes .keyId)) :
    A.reencodePayload payload = .ok payload := by
  cases payload with
  | sessionInitRequest req =>
    obtain ⟨hct, hpeer, hpk, hown, _⟩ := h
    exact map_ok.mpr ⟨req, Asn1crypto.reencodeSessionInitRequest_ok.mpr
      ⟨stable_built_ciphertext hct, hpeer.stable, stable_built_key hpk, hown.stable, rfl⟩, rfl⟩
  | sessionInitResponse resp =>
    obtain ⟨hpk, h2, h3, _⟩ := h
    exact map_ok.mpr ⟨resp, Asn1crypto.reencodeSessionInitResponse_ok.mpr
      ⟨stable_built_key hpk, stable_built_ciphertext h2, stable_built_ciphertext h3, rfl, rfl⟩, rfl⟩
  | sessionCompletionRequest req =>
    exact map_ok.mpr ⟨req, Asn1crypto.reencodeSessionCompletionRequest_ok.mpr
      ⟨stable_built_ciphertext h.2, rfl, rfl⟩, rfl⟩
  | sessionCompletionResponse | message => rfl

theorem takes_built {cid : Octets} {payload : MakePayload UInt8}
    (h : payload.Built P (A.Takes .keyId))
    (hlen : (Wire.makeMessage.encode (.build cid payload)).length < Der.maxLength) :
    A.Takes .makeMessage (.build cid payload) where
  wf := ⟨fun _ _ => trivial, trivial, wf_built h, trivial⟩
  null k hk := by
    cases payload with
    | sessionInitRequest req =>
      obtain ⟨_, hpeer, _, hown, _⟩ := h
      have hk : k ∈ [req.keyIdB, req.keyIdA] := hk
      rw [List.mem_cons, List.mem_singleton] at hk
      obtain rfl | rfl := hk
      · exact hpeer.null _ List.mem_cons_self
      · exact hown.null _ List.mem_cons_self
    | sessionInitResponse | sessionCompletionRequest | sessionCompletionResponse | message =>
      cases hk
  length := hlen
  stable := Asn1crypto.reencodeMakeMessage_ok.mpr ⟨stable_built h, rfl, rfl⟩

theorem wellFormed_built (hP : P.Wired A) {K : KeyId UInt8 → Prop} {payload : MakePayload UInt8}
    (h : payload.Built P K) : ∀ v ∈ payload.kemValues, v.WellFormed := by
  have hkey : ∀ k : KemPublicKey UInt8, k.Built P → (KemValue.publicKey k).WellFormed := by
    rintro k ⟨level, halg, hlen⟩
    rw [hP.octets] at hlen
    exact ⟨level, by rw [halg]; exact oidToLevel_mlkemOid level, hlen⟩
  have hct : ∀ ct : KemCiphertext UInt8, ct.Built P → (KemValue.ciphertext ct).WellFormed := by
    rintro ct ⟨level, halg, hlen⟩
    rw [hP.octets] at hlen
    exact ⟨level, by rw [halg]; exact oidToLevel_mlkemOid level, hlen⟩
  cases payload with
  | sessionInitRequest req => simpa [MakePayload.kemValues] using ⟨hct _ h.1, hkey _ h.2.2.1⟩
  | sessionInitResponse resp =>
    simpa [MakePayload.kemValues] using ⟨hkey _ h.1, hct _ h.2.1, hct _ h.2.2.1⟩
  | sessionCompletionRequest req => simpa [MakePayload.kemValues] using hct _ h.2
  | sessionCompletionResponse | message => simp [MakePayload.kemValues]

/-- A PDU that is put out is the encoding of a message that a peer reads from it, with KEM
values that are well formed and that the classes of their own accept. -/
theorem Dispatcher.puts_out_canonical (hA : A.Documented) (hP : P.Wired A)
    (hne : ∀ aead key nonce text ad, P.encrypt aead key nonce text ad ≠ []) {keys : KeyLookup UInt8}
    {config : SessionConfig} {limits : CandidateLimits} {d : Dispatcher UInt8 Octets}
    (hrun : Run P (Names P (A.Takes .keyId)) (new keys config limits) d) :
    ∀ pdu ∈ d.outgoingPdus, pdu.length < Der.maxLength →
      ∃ msg, WireClass.dump .makeMessage msg = .ok pdu ∧ P.load pdu = .ok msg ∧
        (∀ other, A.loadMakeMessage other = .ok msg → other = pdu) ∧
        msg.payload.Built P (A.Takes .keyId) ∧
        ∀ v ∈ msg.payload.kemValues, v.WellFormed ∧ v.Loads A := by
  intro pdu hpdu hlen
  have hkept := writes_run (hP.checksCid hA) hne hrun (kept_new keys config limits)
  obtain ⟨cid, payload, hcid, hbuilt, rfl⟩ := hkept.sent pdu hpdu
  rw [hP.octets] at hcid
  rw [hP.dump] at hlen ⊢
  have htakes := takes_built hbuilt hlen
  have hcM : ∀ req, payload = .sessionCompletionRequest req → req.cM ≠ [] := by
    rintro req rfl
    exact hbuilt.1
  have hdump := dump_makeMessage (x := .build cid payload) hcM
  refine ⟨.build cid payload, hdump, hP.load_eq.mpr (loadMakeMessage_encode hA htakes hcid hcM), ?_,
    hbuilt, fun v hv => ?_⟩
  · intro other hother
    exact Except.ok.inj ((checked_load hA hother).2.2.1.symm.trans hdump)
  · have hwell := wellFormed_built hP hbuilt v hv
    exact ⟨hwell, (KemValue.loads_iff hA (taken_of_takes htakes v hv)).mpr hwell⟩

end

/-! ## A call on the wire -/

namespace Asn1crypto

/-- Packages that give what has the right length, on the wire of `reader`. -/
noncomputable def readerPrimitives : Primitives UInt8 Octets where
  octet := UInt8.ofNat
  octets := List.length
  xorBytes octets others := List.zipWith (fun a b => a ^^^ UInt8.ofNat b) octets others
  sha256 _ := List.replicate 32 0
  hkdf length _ _ _ := List.replicate length 0
  encrypt _ _ _ plaintext _ := List.replicate 16 0 ++ plaintext
  decrypt _ _ _ ciphertext _ := some (ciphertext.drop 16)
  publicBytes level _ := List.replicate (mlkemPkLen level) 0
  encapsulate level _ coins := some (coins, List.replicate (mlkemCtLen level) 0)
  decapsulate _ seed _ := some seed
  dumpKeyId := Wire.keyId.encode
  dump := Wire.makeMessage.encode
  load der := (reader.loadMakeMessage der).mapError WireError.toPyError
  noPdu := []

theorem readerPrimitives_wired : readerPrimitives.Wired reader :=
  ⟨fun _ => rfl, fun _ => rfl, fun _ => rfl⟩

def someKey : KemPublicKey UInt8 := ⟨kemAlg (mlkemOid .mlkem768), List.replicate 1184 0⟩

def someLookup : KeyLookup UInt8 := ⟨fun _ => .ok someKey, fun _ => .ok (List.replicate 64 0)⟩

def someDraws : Entropy UInt8 := ⟨List.replicate 16 0, List.replicate 64 0, [], [], []⟩

def someRequest : SessionInitRequest UInt8 where
  ct1 := ⟨kemAlg (mlkemOid .mlkem768), List.replicate 1088 0⟩
  keyIdB := WireClass.least .keyId
  pkAStar := someKey
  keyIdA := WireClass.least .keyId
  acceptableAeads := [aeadOid .aes256Gcm]

theorem someCall : ((Dispatcher.new someLookup { acceptableAeads := [.aes256Gcm] } {}).step
    readerPrimitives (.initiate (WireClass.least .keyId) (WireClass.least .keyId) 0
      someDraws)).outgoingPdus =
    [Wire.makeMessage.encode (.build (List.replicate 16 0) (.sessionInitRequest someRequest))] := by
  decide +kernel

theorem puts_out_canonical_someCall :
    let der := Wire.makeMessage.encode
      (.build (List.replicate 16 0) (.sessionInitRequest someRequest))
    ∃ msg, WireClass.dump .makeMessage msg = .ok der ∧ readerPrimitives.load der = .ok msg ∧
      (∀ other, reader.loadMakeMessage other = .ok msg → other = der) ∧
      msg.payload.Built readerPrimitives (reader.Takes .keyId) ∧
      ∀ v ∈ msg.payload.kemValues, v.WellFormed ∧ v.Loads reader := by
  have hnames : Dispatcher.Names readerPrimitives (reader.Takes .keyId)
      (Dispatcher.new someLookup { acceptableAeads := [.aes256Gcm] } {})
      (.initiate (WireClass.least .keyId) (WireClass.least .keyId) 0 someDraws) :=
    ⟨WireClass.takes_least reader .keyId, WireClass.takes_least reader .keyId, rfl⟩
  refine Dispatcher.puts_out_canonical reader_documented readerPrimitives_wired
    (fun _ _ _ _ _ => ?_) (.step .refl hnames) _ ?_ ?_
  · exact List.cons_ne_nil _ _
  · rw [someCall]
    exact List.mem_singleton_self _
  · decide +kernel

end Asn1crypto

end KemMake
