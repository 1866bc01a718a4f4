import KemMake.Nonces

/-!
# What equal secrets say of two handshakes

HKDF gets the two nonces as one octet string. Nothing in it says where the first nonce ends, and
neither the decoder nor a handler looks at the length of a nonce.
-/

namespace KemMake

variable {β π : Type} {P : Primitives β π}

/-- HKDF is injective in salt, info and input key. -/
def Primitives.KdfInjective (P : Primitives β π) : Prop :=
  ∀ length salt info ikm salt' info' ikm', 0 < length →
    P.hkdf length salt info ikm = P.hkdf length salt' info' ikm' →
    salt = salt' ∧ info = info' ∧ ikm = ikm'

/-- The four directional secrets are the same, whatever the AEAD. -/
def SessionKeys.SameSecrets (k k' : SessionKeys β) : Prop :=
  k.keyA2b = k'.keyA2b ∧ k.ivA2b = k'.ivA2b ∧ k.keyB2a = k'.keyB2a ∧ k.ivB2a = k'.ivB2a

/-- The arguments of a call of `derive_session_keys`. -/
structure KeyInputs (β : Type) where
  nA : List β
  nB : List β
  fA : List β
  s1 : List β
  s2 : List β
  s3 : List β
  s4 : List β
  aead : Aead

namespace KeyInputs

def derive (P : Primitives β π) (i : KeyInputs β) : SessionKeys β :=
  deriveSessionKeys P i.nA i.nB i.fA i.s1 i.s2 i.s3 i.s4 i.aead

/-- A shared secret of ML-KEM has 32 octets. -/
def Admitted (i : KeyInputs β) : Prop :=
  i.s1.length = 32 ∧ i.s2.length = 32 ∧ i.s3.length = 32 ∧ i.s4.length = 32

end KeyInputs

/-- Two splits of one string agree if their first parts have one length. -/
theorem split_iff {nA nB nA' nB' : List β} (h : nA ++ nB = nA' ++ nB') :
    nA = nA' ∧ nB = nB' ↔ nA.length = nA'.length :=
  ⟨fun heq => congrArg List.length heq.1, fun hlen => List.append_inj h hlen⟩

theorem secrets_inputs (hK : P.KdfInjective) {i i' : KeyInputs β}
    (h : (i.derive P).SameSecrets (i'.derive P)) :
    i.nA ++ i.nB = i'.nA ++ i'.nB ∧ i.fA = i'.fA ∧
      i.s1 ++ i.s2 ++ i.s3 ++ i.s4 = i'.s1 ++ i'.s2 ++ i'.s3 ++ i'.s4 := by
  obtain ⟨hsalt, hinfo, hikm⟩ := hK _ _ _ _ _ _ _ (by decide) h.2.1
  exact ⟨hsalt, List.append_cancel_right hinfo, hikm⟩

theorem secrets_shared {i i' : KeyInputs β} (hi : i.Admitted) (hi' : i'.Admitted)
    (h : i.s1 ++ i.s2 ++ i.s3 ++ i.s4 = i'.s1 ++ i'.s2 ++ i'.s3 ++ i'.s4) :
    i.s1 = i'.s1 ∧ i.s2 = i'.s2 ∧ i.s3 = i'.s3 ∧ i.s4 = i'.s4 := by
  obtain ⟨h1, h2, h3, h4⟩ := hi
  obtain ⟨h1', h2', h3', h4'⟩ := hi'
  obtain ⟨h, hs4⟩ := List.append_inj h (by simp [*])
  obtain ⟨h, hs3⟩ := List.append_inj h (by simp [*])
  obtain ⟨hs1, hs2⟩ := List.append_inj h (by simp [*])
  exact ⟨hs1, hs2, hs3, hs4⟩

/-! ## Sessions -/

namespace Session

/-- The keys are derived from the nonces that the session has kept. -/
def Derived (P : Primitives β π) (s : Session β π) : Prop :=
  ∀ keys, s.sessionKeys = some keys →
    ∃ i : KeyInputs β, s.nA = some i.nA ∧ s.nB = some i.nB ∧ keys = i.derive P

variable {s s' : Session β π}

theorem Derived.congr (h : s.Derived P) (hk : s'.sessionKeys = s.sessionKeys) (ha : s'.nA = s.nA)
    (hb : s'.nB = s.nB) : s'.Derived P := by
  unfold Derived
  rw [hk, ha, hb]
  exact h

/-- Nonces change before there are keys only, or with them. -/
theorem Took.derived {now : Int} {e : Entropy β} {x : Option PyError} (ht : Took P s now e s' x)
    (hkeys : s.state = .initial → s.sessionKeys = none) (h : s.Derived P) : s'.Derived P := by
  cases ht with
  | idle | ignored | undecoded | refused => exact h
  | resent => exact h.congr (by rw [resend_eq]) (by rw [resend_eq]) (by rw [resend_eq])
  | answered _ _ _ hs =>
    intro keys hk
    exact absurd (hk.symm.trans (hkeys hs)) (by simp)
  | completed _ _ _ _ _ _ ho =>
    obtain ⟨o⟩ := openCompletion_ok ho
    intro keys hk
    cases hk
    exact ⟨⟨_, o.nB, _, _, _, _, _, o.aead⟩, rfl, o.has_nB, o.keys⟩
  | called _ _ _ _ _ _ hcall =>
    obtain ⟨c⟩ := completionCall_ok hcall
    intro keys hk
    cases hk
    exact ⟨⟨_, _, _, _, _, _, _, _⟩, rfl, rfl, c.keys⟩
  | confirmed | replied => exact h
  | received => exact h.congr (by rw [countReceived_eq]) (by rw [countReceived_eq]) (by rw [countReceived_eq])

theorem Sent.derived {x : Option PyError} (hs : Sent P s s' x) (h : s.Derived P) : s'.Derived P := by
  cases hs with
  | idle | failed => exact h
  | message => exact h.congr (by rw [countSent_eq]) (by rw [countSent_eq]) (by rw [countSent_eq])

theorem Ticked.derived {now : Int} (hk : Ticked s now s') (h : s.Derived P) : s'.Derived P := by
  cases hk with
  | idle | dropped => exact h
  | retried => exact h.congr (by rw [resend_eq]) (by rw [resend_eq]) (by rw [resend_eq])

variable [DecidableEq β] [DecidableEq π]

theorem Derived.update (hP : P.Correct) (hkeys : s.state = .initial → s.sessionKeys = none)
    (h : s.Derived P) (now : Int) (e : Entropy β) : (s.update P now e).1.Derived P := by
  have hu := update_cases hP.encrypt_ne_nil s now e
  generalize (s.update P now e).1 = s', (s.update P now e).2 = r at hu
  cases hu with
  | dropped => exact h
  | raised _ ht => exact ht.derived hkeys h
  | sendRaised _ ht hs => exact hs.derived (ht.derived hkeys h)
  | done _ ht hs hk => exact hk.derived (hs.derived (ht.derived hkeys h))

theorem Logged.derived (hP : P.Correct) {log : List (EncryptCall β)} (h : Logged P s log) :
    s.Derived P := by
  induction h with
  | new => exact fun _ hk => (nomatch hk)
  | fork _ hf =>
    obtain ⟨-, -, -, rfl⟩ := fork_ok.mp hf
    exact fun _ hk => (nomatch hk)
  | @initiate s _ peerKeyId now e hl ih =>
    have hi := initiate_cases (P := P) s peerKeyId now e
    generalize (s.initiate P peerKeyId now e).1 = s' at hi
    cases hi with
    | refused | failed | called => exact ih
  | postPdu => assumption
  | postPayload payload _ ih =>
    rw [postPayload_eq]
    exact ih
  | getPdu _ ih =>
    unfold Session.getPdu
    split <;> exact ih
  | getPayload _ ih =>
    unfold Session.getPayload
    split <;> exact ih
  | update now e hl ih => exact ih.update hP (fun hs => (hl.numbered hP).unkeyed (.inl hs)) now e

/-- The nonces of the session, with their place in one string lost. -/
def SplitAlike (s s' : Session β π) : Prop :=
  ∃ nA nB nA' nB', s.nA = some nA ∧ s.nB = some nB ∧ s'.nA = some nA' ∧ s'.nB = some nB' ∧
    nA ++ nB = nA' ++ nB' ∧ (nA = nA' ∧ nB = nB' ↔ nA.length = nA'.length)

theorem splitAlike (hP : P.Correct) (hK : P.KdfInjective) {log log' : List (EncryptCall β)}
    (h : Logged P s log) (h' : Logged P s' log') {k k' : SessionKeys β}
    (hk : s.sessionKeys = some k) (hk' : s'.sessionKeys = some k') (hsame : k.SameSecrets k') :
    s.SplitAlike s' := by
  obtain ⟨i, ha, hb, rfl⟩ := h.derived hP k hk
  obtain ⟨i', ha', hb', rfl⟩ := h'.derived hP k' hk'
  have hsalt := (secrets_inputs hK hsame).1
  exact ⟨_, _, _, _, ha, hb, ha', hb', hsalt, split_iff hsalt⟩

end Session

/-- Equal secrets come from one salt, one fingerprint and the same shared secrets. The nonces
are the same exactly if the first of them are of one length, in two calls of
`derive_session_keys` and in two sessions. -/
theorem equal_secrets [DecidableEq β] [DecidableEq π] (hP : P.Correct) (hK : P.KdfInjective) :
    (∀ i i' : KeyInputs β, i.Admitted → i'.Admitted →
      (i.derive P).SameSecrets (i'.derive P) →
      i.nA ++ i.nB = i'.nA ++ i'.nB ∧ i.fA = i'.fA ∧
        (i.s1 = i'.s1 ∧ i.s2 = i'.s2 ∧ i.s3 = i'.s3 ∧ i.s4 = i'.s4) ∧
        (i.nA = i'.nA ∧ i.nB = i'.nB ↔ i.nA.length = i'.nA.length)) ∧
    (∀ (s s' : Session β π) (log log' : List (EncryptCall β)) (k k' : SessionKeys β),
      Session.Logged P s log → Session.Logged P s' log' → s.sessionKeys = some k →
      s'.sessionKeys = some k' → k.SameSecrets k' → s.SplitAlike s') := by
  refine ⟨fun i i' hi hi' h => ?_, fun s s' log log' k k' h h' hk hk' hsame =>
    Session.splitAlike hP hK h h' hk hk' hsame⟩
  obtain ⟨hsalt, hf, hikm⟩ := secrets_inputs hK h
  exact ⟨hsalt, hf, secrets_shared hi hi' hikm, split_iff hsalt⟩

/-! ## Mallory moves an octet from one nonce to the other -/

namespace Session
open KemMake.Ideal

theorem ideal_kdfInjective : ideal.KdfInjective := by
  intro length salt info ikm salt' info' ikm' _ h
  simpa [ideal] using h

/-- An octet more at the front of Bob's nonce, and the same octet at the end of Alice's. -/
def shifted : Pdu → Pdu
  | .encoded ⟨version, cid, .sessionInitResponse resp⟩ =>
    .encoded ⟨version, cid, .sessionInitResponse { resp with nB := .octet 7 :: resp.nB }⟩
  | .encoded ⟨version, cid, .sessionCompletionRequest req⟩ =>
    .encoded ⟨version, cid, .sessionCompletionRequest { req with nA := req.nA ++ [.octet 7] }⟩
  | der => der

def lastPdu (s : Session Sym Pdu) : Pdu := s.outgoingPdus.getLast?.getD (.junk 0)

def aliceAsking : Session Sym Pdu :=
  ((new .initiator (some (staticId 0)) (staticLookup 0) {}).initiate ideal (staticId 1) 0 (draw 0)).1

def bobAsked : Session Sym Pdu :=
  (((new .responder none (staticLookup 1) {}).postPdu aliceAsking.lastPdu).update ideal 0 (draw 1)).1

def aliceMisled : Session Sym Pdu :=
  ((aliceAsking.postPdu (shifted bobAsked.lastPdu)).update ideal 1 (draw 2)).1

def bobMisled : Session Sym Pdu :=
  ((bobAsked.postPdu (shifted aliceMisled.lastPdu)).update ideal 2 (draw 3)).1

theorem logged_aliceMisled : ∃ log, Logged ideal aliceMisled log :=
  have halice := (Logged.new .initiator (some (staticId 0)) (staticLookup 0) {}).initiate
    (P := ideal) (staticId 1) 0 (draw 0)
  ⟨_, (halice.postPdu _).update 1 (draw 2)⟩

theorem logged_bobMisled : ∃ log, Logged ideal bobMisled log :=
  have hbob := ((Logged.new .responder none (staticLookup 1) {}).postPdu
    aliceAsking.lastPdu).update (P := ideal) 0 (draw 1)
  ⟨_, (hbob.postPdu _).update 2 (draw 3)⟩

/-- A call with two nonces of `Sym`. -/
def inputsOf (nA nB : List Sym) : KeyInputs Sym where
  nA := nA
  nB := nB
  fA := []
  s1 := List.replicate 32 (.octet 1)
  s2 := List.replicate 32 (.octet 2)
  s3 := List.replicate 32 (.octet 3)
  s4 := List.replicate 32 (.octet 4)
  aead := .aes256Gcm

theorem admitted_inputsOf (nA nB : List Sym) : (inputsOf nA nB).Admitted :=
  ⟨List.length_replicate, List.length_replicate, List.length_replicate, List.length_replicate⟩

/-- Two calls that differ in where the first nonce ends have equal secrets, and the lengths of
the first nonces tell them apart, as with the two sessions. -/
theorem equal_secrets_misled :
    let i := inputsOf [.octet 5] [.octet 7, .octet 6]
    let i' := inputsOf [.octet 5, .octet 7] [.octet 6]
    (i.derive ideal).SameSecrets (i'.derive ideal) ∧
      (i.nA = i'.nA ∧ i.nB = i'.nB ↔ i.nA.length = i'.nA.length) ∧
      i.nA.length ≠ i'.nA.length ∧ aliceMisled.SplitAlike bobMisled := by
  intro i i'
  obtain ⟨hcalls, hsessions⟩ := equal_secrets ideal_correct ideal_kdfInjective
  have hsecrets : (i.derive ideal).SameSecrets (i'.derive ideal) := ⟨rfl, rfl, rfl, rfl⟩
  obtain ⟨-, -, -, hsplit⟩ :=
    hcalls i i' (admitted_inputsOf _ _) (admitted_inputsOf _ _) hsecrets
  obtain ⟨log, halice⟩ := logged_aliceMisled
  obtain ⟨log', hbob⟩ := logged_bobMisled
  have hkeys : aliceMisled.sessionKeys.isSome = true := by decide +kernel
  obtain ⟨keys, hk⟩ := Option.isSome_iff_exists.mp hkeys
  have hsame : aliceMisled.sessionKeys = bobMisled.sessionKeys := by decide +kernel
  have hk' : bobMisled.sessionKeys = some keys := hsame.symm.trans hk
  exact ⟨hsecrets, hsplit, by decide,
    hsessions _ _ log log' keys keys halice hbob hk hk' ⟨rfl, rfl, rfl, rfl⟩⟩

/-- HKDF is injective, both have the same secrets, and they agree on neither nonce. -/
theorem secrets_mislead :
    ideal.KdfInjective ∧ (∃ log, Logged ideal aliceMisled log) ∧ (∃ log, Logged ideal bobMisled log) ∧
      aliceMisled.sessionKeys.isSome ∧ aliceMisled.sessionKeys = bobMisled.sessionKeys ∧
      bobMisled.state = .established ∧ aliceMisled.nA ≠ bobMisled.nA ∧
      aliceMisled.nB ≠ bobMisled.nB := by
  refine ⟨ideal_kdfInjective, logged_aliceMisled, logged_bobMisled, ?_⟩
  decide +kernel

end Session

end KemMake
