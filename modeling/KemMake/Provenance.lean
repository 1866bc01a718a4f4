import KemMake.Network

/-!
# Where the blocks on the wire come from

`Seals` lists the sealed texts and digests a session may have sent, `Sound` what is
known of the secrets and keys of a session in terms of the draws they go back to. Both
are kept by everything a session does; `E` is what may be known to the adversary.
-/

namespace KemMake
open Symbolic

theorem Ideal.load_eq {der : Pdu} {msg : MakeMessage Sym} (h : ideal.load der = .ok msg) :
    der = .encoded msg := by
  cases der with
  | junk | odd => cases h
  | encoded m =>
    simp only [ideal, Ideal.load] at h
    split at h
    · rw [Except.ok.inj h]
    · cases h

theorem blocks_dump (cid : List Sym) (payload : MakePayload Sym) :
    (ideal.dump (.build cid payload)).blocks = cid ++ payload.blocks := rfl

theorem encapsulate_ideal {pk : KemPublicKey Sym} {coins shared : List Sym}
    {ct : KemCiphertext Sym} (h : encapsulate ideal pk coins = .ok (shared, ct)) :
    ∃ l, Ideal.octets pk.publicKey = mlkemPkLen l ∧ shared = [.shared l pk.publicKey coins] ∧
      ct = ⟨kemAlg (mlkemOid l), [.encap l pk.publicKey coins]⟩ := by
  simp only [encapsulate, bind_ok] at h
  obtain ⟨l, _, h⟩ := h
  by_cases ho : Ideal.octets pk.publicKey = mlkemPkLen l
  · refine ⟨l, ho, ?_⟩
    simpa [ideal, Ideal.encapsulate, ho, KemCiphertext.build, KemCiphertext.validateLength, kemAlg,
      bind, Except.bind, pure, Except.pure, eq_comm] using h
  · simp [ideal, Ideal.encapsulate, ho] at h

/-- A secret that the holder of the seed opened. -/
def Ideal.OpenedBy (seed : List Sym) (b : Sym) : Prop :=
  (∃ l coins, b = .shared l [.pub l seed] coins) ∨ ∃ l ct, b = .rejected l seed ct

theorem decapsulate_ideal {seed shared : List Sym} {level : Level} {ct : KemCiphertext Sym}
    (h : decapsulate ideal seed level ct = .ok shared) : ∃ b, shared = [b] ∧ Ideal.OpenedBy seed b := by
  unfold decapsulate at h
  split at h
  · cases h
  · rename_i s hs
    cases h
    rcases Ideal.decapsulate_cases hs with ⟨coins, _, rfl⟩ | rfl
    · exact ⟨_, rfl, .inl ⟨_, _, rfl⟩⟩
    · exact ⟨_, rfl, .inr ⟨_, _, rfl⟩⟩

namespace Session

/-! ## Seals -/

/-- The sealed texts and digests that go back to the session: its c_m, its messages
(for a responder from sequence number 0 on, as `m` has it), and its h_m. -/
inductive Seals (posted : List Sym → Prop) (s : Session Sym Pdu) : Sym → Prop
  | completion {keys text cid} : s.role = .initiator → s.sessionKeys = some keys →
      s.sentPlaintextForHM = some text → s.cid = some cid →
      Seals posted s (.aead keys.aeadName keys.keyA2b (firstNonce ideal keys.ivA2b) text cid)
  | message {keys text cid seq nonce} : s.sessionKeys = some keys → s.cid = some cid →
      posted text → (s.role = .initiator → 1 ≤ seq) →
      nonceForSeq ideal (s.sending keys).2.1 seq = .ok nonce →
      Seals posted s (.aead keys.aeadName (s.sending keys).1 nonce text cid)
  | ack {der msg req keys text cid} : s.role = .responder → s.sessionKeys = some keys →
      s.cid = some cid → s.lastReceived = some der → ideal.load der = .ok msg →
      msg.payload = .sessionCompletionRequest req →
      req.cM = [.aead keys.aeadName keys.keyA2b (firstNonce ideal keys.ivA2b) text cid] →
      Seals posted s (.digest text)

theorem Seals.responder {posted : List Sym → Prop} {s : Session Sym Pdu} {keys : SessionKeys Sym}
    {text cid nonce : List Sym} {seq : Nat} (hr : s.role = .responder)
    (hk : s.sessionKeys = some keys) (hc : s.cid = some cid) (ht : posted text)
    (hn : nonceForSeq ideal keys.ivB2a seq = .ok nonce) :
    s.Seals posted (.aead keys.aeadName keys.keyB2a nonce text cid) := by
  have hsend : s.sending keys = (keys.keyB2a, keys.ivB2a, s.seqB2a) := by simp [sending, hr]
  have hn' : nonceForSeq ideal (s.sending keys).2.1 seq = .ok nonce := by rw [hsend]; exact hn
  have hseal := Seals.message hk hc ht (fun hi => by simp [hr] at hi) hn'
  rwa [hsend] at hseal

/-- `s'` seals what `s` does: the fields that `Seals` reads are settled in `s`, and so
is the peer. -/
structure Settles (s s' : Session Sym Pdu) : Prop where
  role : s'.role = s.role
  peer : ∀ peer, s.peerKeyId = some peer → s'.peerKeyId = some peer
  keys : s.sessionKeys ≠ none → s'.sessionKeys = s.sessionKeys ∧ s'.cid = s.cid ∧
    s'.sentPlaintextForHM = s.sentPlaintextForHM ∧
    (s.role = .responder → s'.lastReceived = s.lastReceived)

theorem Settles.refl (s : Session Sym Pdu) : Settles s s := ⟨rfl, fun _ => id, fun _ => ⟨rfl, rfl, rfl, fun _ => rfl⟩⟩

theorem Settles.trans {s s' s'' : Session Sym Pdu} (h₁ : Settles s s') (h₂ : Settles s' s'') :
    Settles s s'' := by
  refine ⟨h₂.role.trans h₁.role, fun peer => h₂.peer peer ∘ h₁.peer peer, fun hk => ?_⟩
  obtain ⟨hk₁, hc₁, ht₁, hl₁⟩ := h₁.keys hk
  obtain ⟨hk₂, hc₂, ht₂, hl₂⟩ := h₂.keys (hk₁ ▸ hk)
  exact ⟨hk₂.trans hk₁, hc₂.trans hc₁, ht₂.trans ht₁,
    fun hr => (hl₂ (h₁.role.trans hr)).trans (hl₁ hr)⟩

theorem Settles.seals {s s' : Session Sym Pdu} (h : Settles s s') {posted posted' : List Sym → Prop}
    (hp : ∀ p, posted p → posted' p) {b : Sym} (hb : s.Seals posted b) : s'.Seals posted' b := by
  cases hb with
  | completion hr hk ht hc =>
    obtain ⟨hk', hc', ht', _⟩ := h.keys (by simp [hk])
    exact .completion (h.role.trans hr) (hk'.trans hk) (ht'.trans ht) (hc'.trans hc)
  | message hk hc htext hseq hn =>
    obtain ⟨hk', hc', _, _⟩ := h.keys (by simp [hk])
    have hsend : ∀ keys, (s'.sending keys).1 = (s.sending keys).1 ∧
        (s'.sending keys).2.1 = (s.sending keys).2.1 := by
      intro keys
      unfold sending
      rw [h.role]
      split <;> exact ⟨rfl, rfl⟩
    rw [← (hsend _).1]
    exact .message (hk'.trans hk) (hc'.trans hc) (hp _ htext) (fun hr => hseq (h.role ▸ hr))
      ((hsend _).2 ▸ hn)
  | ack hr hk hc hl hload hp' hm =>
    obtain ⟨hk', hc', _, hl'⟩ := h.keys (by simp [hk])
    exact .ack (h.role.trans hr) (hk'.trans hk) (hc'.trans hc) ((hl' hr).trans hl) hload hp' hm

/-- No keys and no peer before the states that set them. -/
structure Early (s : Session Sym Pdu) : Prop where
  keys : s.state = .initial ∨ s.state = .expectSessionInitResponse ∨
    s.state = .expectSessionCompletionRequest → s.sessionKeys = none
  peer : s.state = .initial → s.peerKeyId = none

theorem Took.settles {s s' : Session Sym Pdu} {now : Int} {e : Entropy Sym} {x : Option PyError}
    (ht : Took ideal s now e s' x) (h : s.Early) : Settles s s' := by
  have hnone : s.state = .initial ∨ s.state = .expectSessionInitResponse ∨
      s.state = .expectSessionCompletionRequest → s'.role = s.role →
      (∀ peer, s.peerKeyId = some peer → s'.peerKeyId = some peer) → Settles s s' :=
    fun hs hr hp => ⟨hr, hp, fun hk => absurd (h.keys hs) hk⟩
  cases ht with
  | idle | ignored | undecoded => exact ⟨rfl, fun _ => id, fun _ => ⟨rfl, rfl, rfl, fun _ => rfl⟩⟩
  | resent => rw [resend_eq]; exact ⟨rfl, fun _ => id, fun _ => ⟨rfl, rfl, rfl, fun _ => rfl⟩⟩
  | refused _ _ hc =>
    rcases hc with rfl | ⟨hs, _, _⟩
    · exact ⟨rfl, fun _ => id, fun _ => ⟨rfl, rfl, rfl, fun _ => rfl⟩⟩
    · exact hnone (.inl hs) rfl fun _ => id
  | answered _ _ _ hs => exact hnone (.inl hs) rfl fun peer hp => by simp [h.peer hs] at hp
  | completed _ _ _ hs => exact hnone (.inr (.inr hs)) rfl fun _ => id
  | called _ _ _ hs => exact hnone (.inr (.inl hs)) rfl fun _ => id
  | confirmed _ _ _ _ hr | replied _ _ _ _ hr =>
    exact ⟨rfl, fun _ => id, fun _ => ⟨rfl, rfl, rfl, fun hr' => by simp [hr] at hr'⟩⟩
  | received => rw [countReceived_eq]; exact ⟨rfl, fun _ => id, fun _ => ⟨rfl, rfl, rfl, fun _ => rfl⟩⟩

theorem Sent.settles {s s' : Session Sym Pdu} {x : Option PyError} (hs : Sent ideal s s' x) :
    Settles s s' := by
  cases hs with
  | message => rw [countSent_eq]; exact ⟨rfl, fun _ => id, fun _ => ⟨rfl, rfl, rfl, fun _ => rfl⟩⟩
  | _ => exact ⟨rfl, fun _ => id, fun _ => ⟨rfl, rfl, rfl, fun _ => rfl⟩⟩

theorem Ticked.settles {s s' : Session Sym Pdu} {now : Int} (hk : Ticked s now s') : Settles s s' := by
  cases hk with
  | retried => rw [resend_eq]; exact ⟨rfl, fun _ => id, fun _ => ⟨rfl, rfl, rfl, fun _ => rfl⟩⟩
  | _ => exact ⟨rfl, fun _ => id, fun _ => ⟨rfl, rfl, rfl, fun _ => rfl⟩⟩

/-! ## Soundness -/

/-- An initiator's first secret: encapsulated to the registered key of its peer. -/
def Aims (W : World) (s : Session Sym Pdu) : Prop :=
  ∃ own peer pk l k, s.ownKeyId = some own ∧ s.peerKeyId = some peer ∧
    W.registered peer = some pk ∧ Ideal.octets pk.publicKey = mlkemPkLen l ∧
    s.s1 = some [.shared l pk.publicKey (draw k).coins] ∧
    s.ownEphemeralPrivate = some (draw k).seed

/-- An initiator's keys, and the completion request that came with them. -/
def Called (said : Pdu → Prop) (s : Session Sym Pdu) (keys : SessionKeys Sym) : Prop :=
  ∃ own nA nB s1 s2 s3 s4 eph, s.ownKeyId = some own ∧ s.s1 = some s1 ∧
    s.ownEphemeralPrivate = some eph ∧
    keys = deriveSessionKeys ideal nA nB (Ideal.dumpKeyId own) s1 [s2] [s3] [s4] keys.aeadName ∧
    Ideal.OpenedBy eph s2 ∧ 1 ≤ s.seqA2b ∧
    ∃ text cid ct4, s.sentPlaintextForHM = some text ∧ s.cid = some cid ∧
      said (ideal.dump (.build cid (.sessionCompletionRequest
        ⟨[.aead keys.aeadName keys.keyA2b (firstNonce ideal keys.ivA2b) text cid], ct4, nA⟩))) ∧
      ∃ seed, s.keys.getPrivateKey own = .ok seed

/-- A responder's secrets: the first opened with a private key of its own, the others
encapsulated to the ephemeral key it was sent and to the registered key of its peer. -/
def Replied (W : World) (s : Session Sym Pdu) (peer : KeyId Sym) : Prop :=
  ∃ pk l k s1 lA pkA id seed, W.registered peer = some pk ∧
    Ideal.octets pk.publicKey = mlkemPkLen l ∧
    s.s1 = some [s1] ∧ s.s2 = some [.shared lA pkA (draw k).coins] ∧
    s.s3 = some [.shared l pk.publicKey (draw k).coins'] ∧ s.keys.getPrivateKey id = .ok seed ∧
    Ideal.OpenedBy seed s1

/-- A responder's keys, and the completion request it has opened with them. -/
def Completed (E : Sym → Prop) (s : Session Sym Pdu) (keys : SessionKeys Sym) : Prop :=
  ∃ peer nA nB s1 s2 s3 s4, s.peerKeyId = some peer ∧ s.s1 = some s1 ∧ s.s2 = some s2 ∧
    s.s3 = some s3 ∧
    keys = deriveSessionKeys ideal nA nB (Ideal.dumpKeyId peer) s1 s2 s3 [s4] keys.aeadName ∧
    ∃ der msg req text cid, s.lastReceived = some der ∧ ideal.load der = .ok msg ∧
      msg.payload = .sessionCompletionRequest req ∧ s.cid = some cid ∧
      req.cM = [.aead keys.aeadName keys.keyA2b (firstNonce ideal keys.ivA2b) text cid] ∧
      E (.aead keys.aeadName keys.keyA2b (firstNonce ideal keys.ivA2b) text cid)

structure Sound (W : World) (E : Sym → Prop) (posted : List Sym → Prop) (said : Pdu → Prop)
    (s : Session Sym Pdu) : Prop where
  honest : W.Honest s.keys
  coherent : s.Coherent ideal
  early : s.Early
  queue : ∀ der ∈ s.incomingQueue, All E der.blocks
  sent : ∀ der ∈ s.outgoingPdus, All E der.blocks
  resent : ∀ der, s.lastSent = some der → All E der.blocks
  named : ∀ cid, s.cid = some cid → All E cid
  pending : ∀ p, s.pendingPayload = some p → posted p
  started : ∀ text, s.sentPlaintextForHM = some text → text = [] ∨ posted text
  aims : s.role = .initiator → s.Aims W
  called : s.role = .initiator → ∀ keys, s.sessionKeys = some keys →
    s.Called (fun der => said der ∨ der ∈ s.outgoingPdus) keys
  replied : s.role = .responder → ∀ peer, s.peerKeyId = some peer → s.Replied W peer
  completed : s.role = .responder → ∀ keys, s.sessionKeys = some keys → s.Completed E keys
  confirmed : s.role = .initiator → s.state = .established → ∀ text, s.sentPlaintextForHM = some text →
    E (.digest text)

section
variable {W : World} {E E' : Sym → Prop} {posted posted' : List Sym → Prop} {said said' : Pdu → Prop}
  {s s' : Session Sym Pdu}

theorem Called.mono {keys : SessionKeys Sym} (h : s.Called said keys)
    (hs : ∀ der, said der → said' der) : s.Called said' keys := by
  obtain ⟨own, nA, nB, s1, s2, s3, s4, eph, ho, h1, he, hk, h2, hseq, text, cid, ct4, ht, hc, hsaid,
    hown⟩ := h
  exact ⟨own, nA, nB, s1, s2, s3, s4, eph, ho, h1, he, hk, h2, hseq, text, cid, ct4, ht, hc,
    hs _ hsaid, hown⟩

theorem Completed.mono {keys : SessionKeys Sym} (h : s.Completed E keys) (hE : ∀ b, E b → E' b) :
    s.Completed E' keys := by
  obtain ⟨peer, nA, nB, s1, s2, s3, s4, hp, h1, h2, h3, hk, der, msg, req, text, cid, hl, hload,
    hpay, hc, hm, hcm⟩ := h
  exact ⟨peer, nA, nB, s1, s2, s3, s4, hp, h1, h2, h3, hk, der, msg, req, text, cid, hl, hload,
    hpay, hc, hm, hE _ hcm⟩

theorem Sound.mono (h : s.Sound W E posted said) (hE : ∀ b, E b → E' b)
    (hp : ∀ p, posted p → posted' p) (hs : ∀ der, said der → said' der) :
    s.Sound W E' posted' said' where
  honest := h.honest
  coherent := h.coherent
  early := h.early
  queue der hd := (h.queue der hd).mono hE
  sent der hd := (h.sent der hd).mono hE
  resent der hd := (h.resent der hd).mono hE
  named cid hc := (h.named cid hc).mono hE
  pending p hpp := hp _ (h.pending p hpp)
  started text ht := (h.started text ht).imp_right (hp _)
  aims := h.aims
  called hr keys hk := (h.called hr keys hk).mono fun der => Or.imp_left (hs der)
  replied := h.replied
  completed hr keys hk := (h.completed hr keys hk).mono hE
  confirmed hr he text ht := hE _ (h.confirmed hr he text ht)

/-- The queues and the timer apart, nothing has changed. -/
theorem Sound.requeue (h : s.Sound W E posted said) (queue out : List Pdu)
    (payloads : List (List Sym)) (attempts : Nat) (deadline : Option Int)
    (hq : ∀ der ∈ queue, All E der.blocks) (ho : ∀ der ∈ out, All E der.blocks)
    (hs : ∀ der, said der ∨ der ∈ s.outgoingPdus → said' der ∨ der ∈ out) :
    Sound W E posted said' { s with
      incomingQueue := queue, outgoingPdus := out, outgoingPayloads := payloads
      attemptCount := attempts, deadline := deadline } where
  honest := h.honest
  coherent := ⟨h.coherent.calling, h.coherent.answered, h.coherent.called, h.coherent.established,
    h.coherent.ivs⟩
  early := ⟨h.early.keys, h.early.peer⟩
  queue := hq
  sent := ho
  resent := h.resent
  named := h.named
  pending := h.pending
  started := h.started
  aims := h.aims
  called hr keys hk := by
    have hc : s.Called (fun der => said' der ∨ der ∈ out) keys := (h.called hr keys hk).mono hs
    exact hc
  replied := h.replied
  completed := h.completed
  confirmed := h.confirmed

/-- A session that has keys has a peer, and the keys are not empty. -/
theorem Sound.keyed (h : s.Sound W E posted said) {keys : SessionKeys Sym}
    (hk : s.sessionKeys = some keys) :
    (∃ b, b ∈ keys.keyA2b) ∧ (∃ b, b ∈ keys.keyB2a) ∧ s.peerKeyId ≠ none := by
  have hsome : ∀ {nA nB f s1 s2 s3 s4 aead},
      keys = deriveSessionKeys ideal nA nB f s1 s2 s3 s4 aead →
      (∃ b, b ∈ keys.keyA2b) ∧ ∃ b, b ∈ keys.keyB2a := by
    rintro nA nB f s1 s2 s3 s4 aead rfl
    exact ⟨⟨_, List.mem_singleton_self _⟩, ⟨_, List.mem_singleton_self _⟩⟩
  cases hr : s.role with
  | initiator =>
    obtain ⟨_, _, _, _, _, _, _, _, _, _, _, hkeys, _⟩ := h.called hr keys hk
    obtain ⟨_, _, _, _, _, _, hpeer, _⟩ := h.aims hr
    exact ⟨(hsome hkeys).1, (hsome hkeys).2, by simp [hpeer]⟩
  | responder =>
    obtain ⟨_, _, _, _, _, _, _, hpeer, _, _, _, hkeys, _⟩ := h.completed hr keys hk
    exact ⟨(hsome hkeys).1, (hsome hkeys).2, by simp [hpeer]⟩

/-- What is to be sent has been said. -/
theorem Sound.drain (h : s.Sound W E posted said) (hs : ∀ der, said der → said' der)
    (ho : ∀ der ∈ s.outgoingPdus, said' der) :
    Sound W E posted said' { s with outgoingPdus := [] } :=
  h.requeue s.incomingQueue [] s.outgoingPayloads s.attemptCount s.deadline h.queue (by simp)
    fun der hd => .inl (hd.elim (hs der) (ho der))

theorem Sound.popped (h : s.Sound W E posted said) {der : Pdu} {rest : List Pdu}
    (hq : s.incomingQueue = der :: rest) : (s.popped rest).Sound W E posted said :=
  h.requeue rest s.outgoingPdus s.outgoingPayloads s.attemptCount s.deadline
    (fun der' hd => h.queue der' (by rw [hq]; exact List.mem_cons_of_mem _ hd)) h.sent fun _ => id

theorem Sound.resend (h : s.Sound W E posted said) : s.resend.Sound W E posted said := by
  rw [resend_eq]
  refine h.requeue s.incomingQueue _ s.outgoingPayloads s.attemptCount s.deadline h.queue
    (fun der hd => ?_) fun der => Or.imp_right (List.mem_append_left _)
  rcases List.mem_append.mp hd with hd | hd
  · exact h.sent der hd
  · exact h.resent der (by simpa using hd)

theorem Sound.ticked {now : Int} (hk : Ticked s now s') (h : s.Sound W E posted said) :
    s'.Sound W E posted said := by
  cases hk with
  | idle => exact h
  | dropped =>
    exact ⟨h.honest, ⟨by simp, by simp, by simp, by simp, h.coherent.ivs⟩, ⟨by simp, by simp⟩, h.queue,
      h.sent, h.resent, h.named, h.pending, h.started, h.aims, h.called, h.replied, h.completed, by simp⟩
  | retried =>
    exact (h.requeue s.incomingQueue s.outgoingPdus s.outgoingPayloads (s.attemptCount + 1)
      (some (now + s.config.retryIntervalSeconds)) h.queue h.sent fun _ => id).resend

/-- What the adversary knows anyway. -/
structure Public (E : Sym → Prop) : Prop where
  pub : ∀ l seed, E (.pub l seed)
  encap : ∀ l pk coins, E (.encap l pk coins)
  nonce : ∀ k, E (.name (.nonce k))
  uuid : ∀ k, E (.name (.uuid k))

section
variable (hE : Public E) {now : Int} {k : Nat} {der : Pdu} {rest : List Pdu} {msg : MakeMessage Sym}
  (h : s.Sound W E posted said) (hq : s.incomingQueue = der :: rest)
  (hl : ideal.load der = .ok msg)
include h hq hl

/-- The blocks of a queued message. -/
theorem Sound.received : All E msg.cid ∧ All E msg.payload.blocks := by
  have hd := h.queue der (by simp [hq])
  rw [Ideal.load_eq hl, Pdu.blocks, all_append] at hd
  exact hd

include hE

theorem sound_answered {req : SessionInitRequest Sym} {r : InitReply Sym Pdu}
    (hp : msg.payload = .sessionInitRequest req) (hs : s.state = .initial) (hr : s.role = .responder)
    (hreply : { s.popped rest with cid := some msg.cid }.initReply ideal req (draw k) = .ok r) :
    Sound W E posted said ({ s.popped rest with cid := some msg.cid }.acceptInitRequest req der now
      (draw k) r) := by
  obtain ⟨a⟩ := initReply_ok hreply
  have hcid : a.cid = msg.cid := by simpa using a.has_cid.symm
  have hcidE := (h.received hq hl).1
  have hnone := h.early.keys (.inl hs)
  obtain ⟨l2, _, h2, hct2⟩ := encapsulate_ideal a.second
  obtain ⟨l3, ho3, h3, hct3⟩ := encapsulate_ideal a.third
  obtain ⟨b1, h1, hopen⟩ := decapsulate_ideal a.first
  have hout : All E (r.outDer).blocks := by
    rw [a.out, blocks_dump, all_append, hcid]
    refine ⟨hcidE, ?_⟩
    simp [MakePayload.blocks, KemPublicKey.blocks, KemCiphertext.blocks, hct2, hct3, kemAlg, hE.encap,
      draw, hE.nonce, ideal, hE.pub]
  have hpop := h.popped hq
  have ht : Took ideal s now (draw k) _ none := .answered hq hl hp hs hr hreply
  have hcoh := ht.coherent Ideal.ideal_correct h.coherent
  exact {
    honest := h.honest
    coherent := hcoh
    early := ⟨fun _ => hnone, by simp [acceptInitRequest]⟩
    queue := hpop.queue
    sent := fun der hd => (List.mem_append.mp hd).elim (h.sent der)
      fun hd => List.mem_singleton.mp hd ▸ hout
    resent := fun der hd => Option.some.inj hd ▸ hout
    named := fun cid hc => Option.some.inj hc ▸ hcidE
    pending := h.pending
    started := h.started
    aims := fun hi => by simp [acceptInitRequest, hr] at hi
    called := fun hi => by simp [acceptInitRequest, hr] at hi
    replied := fun _ peer hp => by
      obtain rfl : req.keyIdA = peer := Option.some.inj hp
      exact ⟨_, l3, k, b1, l2, _, _, _, h.honest.public_registered _ _ a.peer_public, ho3,
        congrArg some h1, congrArg some h2, congrArg some h3, a.own_private, hopen⟩
    completed := fun _ keys hk => by simp [acceptInitRequest, hnone] at hk
    confirmed := fun hi => by simp [acceptInitRequest, hr] at hi }

theorem sound_called {resp : SessionInitResponse Sym} {c : CompletionCall Sym}
    (hp : msg.payload = .sessionInitResponse resp) (hs : s.state = .expectSessionInitResponse)
    (hr : s.role = .initiator) (hc : s.cid = some msg.cid)
    (hcall : s.completionCall ideal resp (draw k) = .ok c) {out : Pdu}
    (hout : out = ideal.dump (.build c.cid (.sessionCompletionRequest ⟨c.cM, c.ct4, (draw k).nonce⟩)))
    (hL : ∀ b, Seals posted ((s.popped rest).acceptInitResponse resp der now (draw k) c out) b → E b) :
    Sound W E posted said ((s.popped rest).acceptInitResponse resp der now (draw k) c out) := by
  obtain ⟨a⟩ := completionCall_ok hcall
  obtain ⟨b2, h2, hopen⟩ := decapsulate_ideal a.second
  obtain ⟨b3, h3, _⟩ := decapsulate_ideal a.third
  obtain ⟨l4, _, h4, hct4⟩ := encapsulate_ideal a.fourth
  have haead : c.keys.aeadName = c.chosen := by rw [a.keys]; rfl
  have hcM : c.cM = [.aead c.keys.aeadName c.keys.keyA2b (firstNonce ideal c.keys.ivA2b) c.plaintext
      c.cid] := by
    rw [a.encrypted, haead]
    rfl
  have houtE : All E out.blocks := by
    rw [hout, blocks_dump, all_append]
    refine ⟨h.named _ a.has_cid, ?_⟩
    have hseal := hL _ (.completion hr rfl rfl a.has_cid)
    simp [MakePayload.blocks, KemCiphertext.blocks, hct4, kemAlg, hE.encap, draw, hE.nonce, hcM, hseal]
  have ht : Took ideal s now (draw k) _ none := .called hq hl hp hs hr hc hcall
  have hcoh := ht.coherent Ideal.ideal_correct h.coherent
  rw [← hout] at hcoh
  have hpop := h.popped hq
  exact {
    honest := h.honest
    coherent := hcoh
    early := ⟨by simp [acceptInitResponse], by simp [acceptInitResponse]⟩
    queue := hpop.queue
    sent := fun der hd => (List.mem_append.mp hd).elim (h.sent der)
      fun hd => List.mem_singleton.mp hd ▸ houtE
    resent := fun der hd => Option.some.inj hd ▸ houtE
    named := h.named
    pending := by simp [acceptInitResponse]
    started := fun text ht => by
      obtain rfl : c.plaintext = text := Option.some.inj ht
      rw [a.plaintext]
      cases hpend : s.pendingPayload with
      | none => exact .inl rfl
      | some p => exact .inr (h.pending p hpend)
    aims := h.aims
    called := fun _ keys hk => by
      obtain rfl : c.keys = keys := Option.some.inj hk
      refine ⟨a.ownKeyId, (draw k).nonce, resp.nB, a.s1, b2, b3,
        .shared l4 resp.pkBStar.publicKey (draw k).coins, a.ephemeral, a.has_own, a.first,
        a.own_ephemeral, ?_, hopen, le_refl 1, c.plaintext, c.cid, c.ct4, rfl, a.has_cid, .inr ?_, a.seed,
        a.own_private⟩
      · rw [haead, ← h2, ← h3, ← h4]
        exact a.keys
      · rw [← hcM, ← hout]
        exact List.mem_append_right _ (List.mem_singleton_self _)
    replied := fun hi => by simp [acceptInitResponse, hr] at hi
    completed := fun hi => by simp [acceptInitResponse, hr] at hi
    confirmed := by simp [acceptInitResponse] }

omit hE in
theorem sound_completed {req : SessionCompletionRequest Sym} {o : OpenedCompletion Sym}
    (hp : msg.payload = .sessionCompletionRequest req) (hs : s.state = .expectSessionCompletionRequest)
    (hr : s.role = .responder) (hc : s.cid = some msg.cid) (ho : s.openCompletion ideal req = .ok o)
    (hL : ∀ b, Seals posted (((s.popped rest).opened o).acceptCompletion ideal req der o
      (s.replyM ideal o)) b → E b) :
    Sound W E posted said (((s.popped rest).opened o).acceptCompletion ideal req der o
      (s.replyM ideal o)) := by
  obtain ⟨a⟩ := openCompletion_ok ho
  obtain ⟨b4, h4, _⟩ := decapsulate_ideal a.fourth
  have haead : o.keys.aeadName = a.aead := by rw [a.keys]; rfl
  have hcM : req.cM = [.aead o.keys.aeadName o.keys.keyA2b (firstNonce ideal o.keys.ivA2b)
      o.plaintext o.cid] := by
    rw [haead]
    exact Ideal.decrypt_eq_some a.decrypted
  have hcME := (h.received hq hl).2
  simp only [hp, MakePayload.blocks, all_append, hcM, all_cons, all_nil, and_true] at hcME
  have hack : E (.digest o.plaintext) := hL _ (.ack hr rfl a.has_cid rfl hl hp hcM)
  have hm : All E ((s.replyM ideal o).getD []) := by
    cases hpend : s.pendingPayload with
    | none => simp [replyM, hpend]
    | some p =>
      have hseal := hL _ (.responder hr rfl a.has_cid (h.pending p hpend) (nonceForSeq_zero _))
      simpa [replyM, hpend, ideal] using hseal
  have houtE : All E (ideal.dump (.build o.cid (.sessionCompletionResponse
      { hM := ideal.sha256 o.plaintext, m := s.replyM ideal o }))).blocks := by
    rw [blocks_dump, all_append]
    refine ⟨h.named _ a.has_cid, ?_⟩
    simp only [MakePayload.blocks, all_append]
    exact ⟨by simpa [ideal] using hack, hm⟩
  have ht : Took ideal s 0 (draw 0) _ none := .completed hq hl hp hs hr hc ho
  have hcoh := ht.coherent Ideal.ideal_correct h.coherent
  have hpop := h.popped hq
  exact {
    honest := h.honest
    coherent := hcoh
    early := ⟨by simp [acceptCompletion], by simp [acceptCompletion]⟩
    queue := hpop.queue
    sent := fun der hd => (List.mem_append.mp hd).elim (h.sent der)
      fun hd => List.mem_singleton.mp hd ▸ houtE
    resent := fun der hd => Option.some.inj hd ▸ houtE
    named := h.named
    pending := by simp [acceptCompletion, opened]
    started := h.started
    aims := h.aims
    called := fun hi => by simp [acceptCompletion, opened, hr] at hi
    replied := h.replied
    completed := fun _ keys hk => by
      obtain rfl : o.keys = keys := Option.some.inj hk
      refine ⟨a.peerKeyId, req.nA, a.nB, a.s1, a.s2, a.s3, b4, a.has_peer, a.first, a.second, a.third,
        ?_, der, msg, req, o.plaintext, o.cid, rfl, hl, hp, a.has_cid, hcM, hcME.1.1⟩
      rw [haead, ← h4]
      exact a.keys
    confirmed := fun hi => by simp [acceptCompletion, opened, hr] at hi }

end

theorem Sound.took (hE : Public E) {now : Int} {k : Nat} {x : Option PyError}
    (ht : Took ideal s now (draw k) s' x) (h : s.Sound W E posted said)
    (hL : ∀ b, s'.Seals posted b → E b) : s'.Sound W E posted said := by
  have hcoh := ht.coherent Ideal.ideal_correct h.coherent
  cases ht with
  | idle => exact h
  | resent hq => exact (h.popped hq).resend
  | ignored hq | undecoded hq => exact h.popped hq
  | refused hq hl hc =>
    have hpop := h.popped hq
    rcases hc with rfl | ⟨hs, hr, rfl⟩
    · exact hpop
    · have hnone := h.early.keys (.inl hs)
      exact ⟨h.honest, hcoh, ⟨h.early.keys, h.early.peer⟩, hpop.queue, h.sent, h.resent,
        fun cid hc => Option.some.inj hc ▸ (h.received hq hl).1, h.pending, h.started, h.aims,
        fun hi => by simp [hr] at hi, h.replied, fun _ keys hk => by simp [hnone] at hk, h.confirmed⟩
  | answered hq hl hp hs hr hreply => exact sound_answered hE h hq hl hp hs hr hreply
  | completed hq hl hp hs hr hc ho => exact sound_completed h hq hl hp hs hr hc ho hL
  | called hq hl hp hs hr hc hcall => exact sound_called hE h hq hl hp hs hr hc hcall rfl hL
  | @confirmed _ _ _ resp _ hq hl hp _ hr _ hsent hm _
  | @replied _ _ _ resp _ _ _ hq hl hp _ hr _ hsent hm _ _ =>
    have hpop := h.popped hq
    have hack := (h.received hq hl).2
    simp only [hp, MakePayload.blocks, all_append, hm] at hack
    exact ⟨h.honest, hcoh, ⟨by simp [acceptReply], by simp [acceptReply]⟩, hpop.queue, h.sent,
      by simp [acceptReply], h.named, h.pending, h.started, h.aims, h.called,
      fun hi => by simp [acceptReply, hr] at hi, fun hi => by simp [acceptReply, hr] at hi,
      fun _ _ text ht => Option.some.inj (hsent.symm.trans ht) ▸ hack.1 _ (List.mem_singleton_self _)⟩
  | received hq _ _ hs =>
    have hpop := h.popped hq
    rw [countReceived_eq] at hcoh ⊢
    refine ⟨h.honest, hcoh, ⟨fun he => by simp [hs] at he, h.early.peer⟩, hpop.queue, h.sent, h.resent, h.named,
      h.pending, h.started, h.aims, fun hr keys hk => ?_, h.replied, h.completed, h.confirmed⟩
    obtain ⟨own, nA, nB, s1, s2, s3, s4, eph, ho, h1, he, hkeys, h2, hseq, hsaid⟩ :=
      h.called hr keys hk
    exact ⟨own, nA, nB, s1, s2, s3, s4, eph, ho, h1, he, hkeys, h2, Nat.le_add_right_of_le hseq, hsaid⟩

theorem Sound.delivered {x : Option PyError} (hs : Sent ideal s s' x)
    (h : s.Sound W E posted said) (hL : ∀ b, s'.Seals posted b → E b) :
    s'.Sound W E posted said := by
  have hcoh := hs.coherent h.coherent
  cases hs with
  | idle => exact h
  | failed =>
    exact ⟨h.honest, hcoh, ⟨h.early.keys, h.early.peer⟩, h.queue, h.sent, h.resent, h.named, by simp, h.started, h.aims,
      h.called, h.replied, h.completed, h.confirmed⟩
  | @message payload pdu he hp hpdu =>
    obtain ⟨keys, cid, hk, hc⟩ := h.coherent.established he
    simp only [messagePdu, hk, hc, attr, bind_ok, encrypt, Except.ok.injEq, exists_eq_left',
      pure, Except.pure] at hpdu
    obtain ⟨ct, ⟨nonce, hn, rfl⟩, rfl⟩ := hpdu
    have hstart : s.role = .initiator → 1 ≤ (s.sending keys).2.2 := by
      intro hr
      obtain ⟨_, _, _, _, _, _, _, _, _, _, _, _, _, hseq, _⟩ := h.called hr keys hk
      simpa [sending, hr] using hseq
    have hseal : s.Seals posted (.aead keys.aeadName (s.sending keys).1 nonce payload cid) :=
      .message hk hc (h.pending _ hp) hstart hn
    have hset : Settles s { s.countSent with
        pendingPayload := none
        outgoingPdus := s.outgoingPdus ++ [ideal.dump (.build cid (.message ⟨(s.sending keys).2.2,
          ideal.encrypt keys.aeadName (s.sending keys).1 nonce payload cid⟩))] } := by
      rw [countSent_eq]
      exact ⟨rfl, fun _ => id, fun _ => ⟨rfl, rfl, rfl, fun _ => rfl⟩⟩
    have hsealE := hL _ (hset.seals (fun _ => id) hseal)
    rw [countSent_eq] at hcoh ⊢
    refine ⟨h.honest, hcoh, ⟨fun he' => by simp [he] at he', h.early.peer⟩, h.queue, fun der hd => ?_, h.resent, h.named,
      by simp, h.started, h.aims, fun hr keys' hk' => ?_, h.replied, h.completed, h.confirmed⟩
    · rcases List.mem_append.mp hd with hd | hd
      · exact h.sent der hd
      · rw [List.mem_singleton.mp hd, blocks_dump, all_append]
        exact ⟨h.named _ hc, by simpa [MakePayload.blocks, ideal] using hsealE⟩
    · obtain ⟨own, nA, nB, s1, s2, s3, s4, eph, ho, h1, he, hkeys, h2, hseq, text, cid', ct4, ht, hc',
        hsaid, hown⟩ := h.called hr keys' hk'
      exact ⟨own, nA, nB, s1, s2, s3, s4, eph, ho, h1, he, hkeys, h2, Nat.le_add_right_of_le hseq, text,
        cid', ct4, ht, hc', hsaid.imp_right (List.mem_append_left _), hown⟩

theorem update_settles (h : s.Sound W E posted said) (now : Int) (k : Nat) :
    Settles s (s.update ideal now (draw k)).1 := by
  have hu := update_cases Ideal.ideal_correct.encrypt_ne_nil s now (draw k)
  generalize (s.update ideal now (draw k)).1 = s', (s.update ideal now (draw k)).2 = r at hu
  cases hu with
  | dropped => exact .refl s
  | raised _ ht => exact ht.settles h.early
  | sendRaised _ ht hs => exact (ht.settles h.early).trans hs.settles
  | done _ ht hs hk => exact ((ht.settles h.early).trans hs.settles).trans hk.settles

/-- An update keeps a session sound if what it seals may be known. -/
theorem Sound.update (hE : Public E) (h : s.Sound W E posted said) (now : Int) (k : Nat)
    (hL : ∀ b, (s.update ideal now (draw k)).1.Seals posted b → E b) :
    (s.update ideal now (draw k)).1.Sound W E posted said := by
  have hu := update_cases Ideal.ideal_correct.encrypt_ne_nil s now (draw k)
  generalize (s.update ideal now (draw k)).1 = s', (s.update ideal now (draw k)).2 = r at hu hL
  cases hu with
  | dropped => exact h
  | raised _ ht => exact h.took hE ht hL
  | sendRaised _ ht hs =>
    exact (h.took hE ht fun b hb => hL b (hs.settles.seals (fun _ => id) hb)).delivered hs hL
  | done _ ht hs hk =>
    have hs' := fun b hb => hL b (hk.settles.seals (fun _ => id) hb)
    exact ((h.took hE ht fun b hb => hs' b (hs.settles.seals (fun _ => id) hb)).delivered hs
      hs').ticked hk

theorem sound_calling (hE : Public E) {own peer : KeyId Sym} {keys : KeyLookup Sym}
    {config : SessionConfig} {now : Int} {k : Nat} {pk : KemPublicKey Sym} {s1 : List Sym}
    {ct1 : KemCiphertext Sym} (hh : W.Honest keys) (hids : All E (own.blocks ++ peer.blocks))
    (hpk : keys.getPublicKey peer = .ok pk)
    (henc : encapsulate ideal pk (draw k).coins = .ok (s1, ct1)) :
    Sound W E posted said (calling ideal own peer keys config now (draw k) s1 ct1) := by
  obtain ⟨l, ho, rfl, rfl⟩ := encapsulate_ideal henc
  have hcid : All E (draw k).uuid := by simp [draw, hE.uuid]
  have hout : ∀ der ∈ (calling ideal own peer keys config now (draw k)
      [.shared l pk.publicKey (draw k).coins]
      ⟨kemAlg (mlkemOid l), [.encap l pk.publicKey (draw k).coins]⟩).outgoingPdus,
      All E der.blocks := by
    intro der hd
    rw [List.mem_singleton.mp hd, blocks_dump, all_append]
    rw [all_append] at hids
    simp [MakePayload.blocks, KemPublicKey.blocks, KemCiphertext.blocks, kemAlg, hE.encap, hids.1, hids.2,
      hcid, ideal, hE.pub]
  exact ⟨hh, coherent_calling .., ⟨fun _ => rfl, by simp [calling]⟩, by simp [calling, new], hout,
    fun der hd => hout der (List.mem_singleton.mpr (Option.some.inj hd).symm),
    fun cid hc => Option.some.inj hc ▸ hcid, by simp [calling, new], by simp [calling, new],
    fun _ => ⟨own, peer, pk, l, k, rfl, rfl, hh.public_registered _ _ hpk, ho, rfl, rfl⟩,
    by simp [calling, new], by simp [calling, new], by simp [calling, new], by simp [calling, new]⟩

theorem sound_new {own : Option (KeyId Sym)} {keys : KeyLookup Sym} {config : SessionConfig}
    (hh : W.Honest keys) : Sound W E posted said (new .responder own keys config) :=
  ⟨hh, coherent_new .., ⟨fun _ => rfl, fun _ => rfl⟩, by simp [new], by simp [new], by simp [new], by simp [new],
    by simp [new], by simp [new], by simp [new], by simp [new], by simp [new], by simp [new], by simp [new]⟩

theorem Sound.fork (h : s.Sound W E posted said) (hf : s.fork = .ok s') :
    s'.Sound W E (fun p => s'.pendingPayload = some p) (fun _ => False) := by
  have hcoh := h.coherent.fork hf
  obtain ⟨hr, _, _, rfl⟩ := fork_ok.mp hf
  exact ⟨h.honest, hcoh, ⟨fun _ => rfl, by simp [twin]⟩, by simp [twin, new], by simp [twin, new], h.resent, h.named,
    fun _ hp => hp, by simp [twin, new], h.aims, by simp [twin, new],
    fun hi => by simp [twin, new, hr] at hi, by simp [twin, new], by simp [twin, new]⟩

theorem Sound.postPdu (h : s.Sound W E posted said) {der : Pdu} (hd : All E der.blocks) :
    (s.postPdu der).Sound W E posted said :=
  h.requeue (s.incomingQueue ++ [der]) s.outgoingPdus s.outgoingPayloads s.attemptCount s.deadline
    (fun der' hm => (List.mem_append.mp hm).elim (h.queue der')
      fun hm => List.mem_singleton.mp hm ▸ hd) h.sent fun _ => id

theorem Sound.postPayload (h : s.Sound W E posted said) {payload : List Sym}
    (hp : ∀ p, posted p → posted' p) (hnew : posted' payload) :
    (s.postPayload payload).1.Sound W E posted' said := by
  have h := h.mono (fun _ => id) hp fun _ => id
  have hcoh := h.coherent.postPayload payload
  rw [postPayload_eq] at hcoh ⊢
  refine ⟨h.honest, hcoh, ⟨h.early.keys, h.early.peer⟩, h.queue, h.sent, h.resent, h.named, fun p hpend => ?_, h.started,
    h.aims, h.called, h.replied, h.completed, h.confirmed⟩
  split at hpend
  · exact h.pending p hpend
  · exact Option.some.inj hpend ▸ hnew

end

end Session

end KemMake
