import KemMake.Secrecy

/-!
# Whom a session is established with

A responder accepts no completion request but one that an initiator of its peer's made
for it, when the peer's key is guarded. For an initiator the same takes a false start
that nobody else can acknowledge: h_m is the plain hash of the false-start plaintext.
-/

namespace KemMake
open Symbolic

/-- The octets of a sequence number are all zero for number zero only. -/
theorem toBytesBig_zeros {length seq : Nat}
    (h : toBytesBig length seq = .ok ((List.range length).map fun _ => 0)) : seq = 0 := by
  unfold toBytesBig at h
  split at h
  · rename_i hlt
    have hdigits : ∀ i < length, seq / 256 ^ (length - 1 - i) % 256 = 0 := by
      simpa only [List.mem_range] using List.map_inj_left.mp (Except.ok.inj h)
    have hmod : ∀ k ≤ length, seq % 256 ^ k = 0 := by
      intro k hk
      induction k with
      | zero => exact Nat.mod_one seq
      | succ k ih =>
        have hdigit := hdigits (length - 1 - k) (by omega)
        rw [show length - 1 - (length - 1 - k) = k by omega] at hdigit
        rw [Nat.mod_pow_succ, ih (by omega), hdigit, Nat.mul_zero]
    rw [← Nat.mod_eq_of_lt hlt, hmod length (le_refl length)]
  · cases h

theorem nonceForSeq_first {iv iv' : List Sym} {seq : Nat}
    (h : nonceForSeq ideal iv seq = .ok (firstNonce ideal iv')) : seq = 0 := by
  simp only [nonceForSeq, bind_ok, pure, Except.pure, Except.ok.injEq, firstNonce] at h
  obtain ⟨pad, hpad, hmask⟩ := h
  simp only [ideal, List.cons.injEq, Block.mask.injEq, and_true] at hmask
  obtain ⟨rfl, rfl⟩ := hmask
  exact toBytesBig_zeros hpad

/-- The last PDU that `t` has accepted is a completion request with this c_m. -/
def Session.Accepted (t : Session Sym Pdu) (cM : List Sym) : Prop :=
  ∃ der msg req, t.lastReceived = some der ∧ ideal.load der = .ok msg ∧
    msg.payload = .sessionCompletionRequest req ∧ req.cM = cM

namespace Session
variable {W : World} {E : Sym → Prop} {posted posted' : List Sym → Prop} {said said' : Pdu → Prop}
  {s t : Session Sym Pdu}

/-- Only an initiator seals under a responder's a2b key with the first nonce, and what it
seals is its c_m. -/
theorem Seals.of_first (hs : s.Sound W E posted said) (ht : t.Sound W E posted' said')
    (hr' : t.role = .responder) {kb : SessionKeys Sym} (hk' : t.sessionKeys = some kb)
    {text cid : List Sym} (h : s.Seals posted
      (.aead kb.aeadName kb.keyA2b (firstNonce ideal kb.ivA2b) text cid)) :
    s.role = .initiator ∧ s.sentPlaintextForHM = some text ∧ s.cid = some cid ∧
      ∃ ka, s.sessionKeys = some ka ∧ ka.aeadName = kb.aeadName ∧ ka.keyA2b = kb.keyA2b := by
  generalize hb : Block.aead kb.aeadName kb.keyA2b (firstNonce ideal kb.ivA2b) text cid = b at h
  cases h with
  | @completion ka _ _ hr hk htext hcid =>
    obtain ⟨ha, hkey, _, rfl, rfl⟩ := Block.aead.inj hb
    exact ⟨hr, htext, hcid, ka, hk, ha.symm, hkey.symm⟩
  | @message ka _ _ seq nonce hk _ _ hseq hn =>
    obtain ⟨_, hkey, rfl, _, _⟩ := Block.aead.inj hb
    cases hr : s.role with
    | initiator => exact absurd (nonceForSeq_first hn) (by have := hseq hr; omega)
    | responder =>
      obtain ⟨_, _, _, _, _, _, _, _, _, _, _, hka, _⟩ := hs.completed hr ka hk
      obtain ⟨_, _, _, _, _, _, _, _, _, _, _, hkb, _⟩ := ht.completed hr' kb hk'
      simp only [sending, hr] at hkey
      rw [hka, hkb] at hkey
      exact absurd hkey keyA2b_ne_keyB2a
  | ack => cases hb

end Session

namespace Network
variable {W : World} {net : Network} {i j : Nat} {s t : Session Sym Pdu}

/-- The session in place `i` has sent a completion request with this c_m. -/
def Requested (net : Network) (i : Nat) (cid cM : List Sym) : Prop :=
  ∃ ct4 nA, (i, ideal.dump (.build cid (.sessionCompletionRequest ⟨cM, ct4, nA⟩))) ∈ net.wire

/-- An initiator and a responder that have talked to each other: each has the private key
of the other's peer, the responder has accepted the c_m that the initiator has sent, and
both have the same cid, secrets and AEAD. -/
structure Paired (W : World) (net : Network) (i : Nat) (s t : Session Sym Pdu) : Prop where
  initiator : s.role = .initiator
  responder : t.role = .responder
  called : ∃ peer pk, s.peerKeyId = some peer ∧ W.registered peer = some pk ∧ OwnsKey t.keys pk
  caller : ∃ own pk, s.ownKeyId = some own ∧ t.peerKeyId = some own ∧ W.registered own = some pk ∧
    OwnsKey s.keys pk
  accepted : ∃ cid cM, s.cid = some cid ∧ t.cid = some cid ∧ net.Requested i cid cM ∧ t.Accepted cM
  keys : s.sessionKeys ≠ none ∧ t.sessionKeys = s.sessionKeys

/-- What a responder with keys has accepted was either made by one initiator for it, or
its key and the text are known. -/
theorem Inv.paired_or_shown (h : net.Inv W) (hj : net.sessions[j]? = some t)
    (hr' : t.role = .responder) {kb : SessionKeys Sym} (hk' : t.sessionKeys = some kb) :
    ∃ text cid, t.Accepted [.aead kb.aeadName kb.keyA2b (firstNonce ideal kb.ivA2b) text cid] ∧
      ((∃ i s, net.sessions[i]? = some s ∧ s.sentPlaintextForHM = some text ∧ Paired W net i s t) ∨
        All (net.Shown W) kb.keyA2b ∧ All (net.Shown W) text) := by
  have ht := h.session j t hj
  obtain ⟨peer, nA, nB, s1, s2, s3, s4, hpeer, _, _, _, _, der, msg, req, text, cid, hl, hload, hpay,
    hcid, hcM, hE⟩ := ht.completed hr' kb hk'
  have haccepted : t.Accepted [.aead kb.aeadName kb.keyA2b (firstNonce ideal kb.ivA2b) text cid] :=
    ⟨der, msg, req, hl, hload, hpay, hcM⟩
  refine ⟨text, cid, haccepted, (exposed_aead hE).imp_left ?_⟩
  rintro ⟨i, s, hi, hseal⟩
  have hs := h.session i s hi
  obtain ⟨hr, htext, hcid', ka, hk, ha, hkey⟩ := hseal.of_first hs ht hr' hk'
  obtain ⟨heq, ⟨own, hown, hown'⟩, hpeer', _⟩ := Session.common_secrets hs ht hr hr' hk hk' hkey
  obtain rfl := heq ha
  obtain ⟨own', _, _, _, _, _, _, _, hown'', _, _, _, _, _, text', cid', ct4, htext', hcid'', hsaid,
    seed, hseed⟩ := hs.called hr ka hk
  obtain rfl : own' = own := Option.some.inj (hown''.symm.trans hown)
  obtain ⟨l, n, rfl, hreg⟩ := hs.honest.private_registered own' seed hseed
  obtain rfl : text' = text := Option.some.inj (htext'.symm.trans htext)
  obtain rfl : cid' = cid := Option.some.inj (hcid''.symm.trans hcid')
  rw [h.drained i s hi] at hsaid
  exact ⟨i, s, hi, htext, hr, hr', hpeer', ⟨own', _, hown, hown', hreg, own', l, _, hseed, rfl⟩,
    ⟨cid', _, hcid', hcid, ⟨ct4, _, by simpa using hsaid⟩, haccepted⟩, by simp [hk], hk'.trans hk.symm⟩

/-- A responder that is established with a guarded peer has its keys from an initiator
that has this peer's key id for its own and aims at a key of the responder's owner. -/
theorem responder_agreement (h : Reachable W net) (hj : net.sessions[j]? = some t)
    (hr : t.role = .responder) (he : t.state = .established) (hg : W.Guarded t) :
    ∃ (i : Nat) (s : Session Sym Pdu), net.sessions[i]? = some s ∧ Paired W net i s t := by
  have hinv := reachable_inv h
  have ht := hinv.session j t hj
  obtain ⟨keys, _, hk, _⟩ := ht.coherent.established he
  obtain ⟨_, _, _, ⟨i, s, hi, _, hpaired⟩ | ⟨hkey, _⟩⟩ := hinv.paired_or_shown hj hr hk
  · exact ⟨i, s, hi, hpaired⟩
  · obtain ⟨⟨b, hb⟩, _⟩ := ht.keyed hk
    exact absurd (hkey b hb) (keys_hidden net ht hg hk (by simp [hb]))

theorem sampleBob_guarded : sampleWorld.Guarded sampleBob :=
  ⟨staticId 0, staticKey 0, .mlkem768, 0, by decide +kernel, by decide +kernel, rfl,
    show ¬ 0 = 2 by decide⟩

theorem responder_agreement_sample : ∃ (i : Nat) (s : Session Sym Pdu),
    sampleRun.sessions[i]? = some s ∧ Paired sampleWorld sampleRun i s sampleBob :=
  responder_agreement sampleRun_reachable sampleBob_placed (by decide +kernel) (by decide +kernel)
    sampleBob_guarded

/-! ## The other direction -/

/-- The false start of the session in place `i` has data in it that is the adversary's
neither from the start nor from a session with an unguarded peer, and no other session's
request with the same text has been accepted. -/
structure Private (W : World) (net : Network) (i : Nat) (text : List Sym) : Prop where
  secret : ∃ n, .name (.secret n) ∈ text ∧ n ∉ W.secrets ∧
    ∀ i' p, (i', p) ∈ net.posted → .name (.secret n) ∈ p → net.Entrusted W i'
  single : ∀ (i' : Nat) (s' : Session Sym Pdu), net.sessions[i']? = some s' →
    s'.sentPlaintextForHM = some text →
    ∀ (j : Nat) (t : Session Sym Pdu), net.sessions[j]? = some t → Paired W net i' s' t → i' = i

/-- An initiator whose false start is its own secret is established only with a responder
that has accepted its request. -/
theorem initiator_authenticated (h : Reachable W net) (hi : net.sessions[i]? = some s)
    (hr : s.role = .initiator) (he : s.state = .established) {text : List Sym}
    (ht : s.sentPlaintextForHM = some text) (hp : net.Private W i text) :
    ∃ (j : Nat) (t : Session Sym Pdu), net.sessions[j]? = some t ∧ Paired W net i s t := by
  have hinv := reachable_inv h
  have hsecret : ¬ All (net.Shown W) text := by
    obtain ⟨n, hmem, hn, hposted⟩ := hp.secret
    intro hall
    rcases (exposed_name (wrapped_sealed net)).mp (hall _ hmem) with hw | ⟨i', p, hp', hmem', ha⟩
    · exact hn hw
    · exact ha (hposted i' p hp' hmem')
  rcases exposed_digest ((hinv.session i s hi).confirmed hr he text ht) with ⟨j, t, hj, hack⟩ | hall
  · generalize hb : Block.digest text = b at hack
    cases hack with
    | @ack der msg req kb text' cid hr' hk' _ hl hload hpay hcM =>
      obtain rfl : text = text' := Block.digest.inj hb
      obtain ⟨text', cid', ⟨der', msg', req', hl', hload', hpay', hcM'⟩, hcase⟩ :=
        hinv.paired_or_shown hj hr' hk'
      obtain rfl : der = der' := Option.some.inj (hl.symm.trans hl')
      obtain rfl : msg = msg' := Except.ok.inj (hload.symm.trans hload')
      obtain rfl : req = req' := by simpa [hpay] using hpay'
      obtain ⟨rfl, _⟩ : text = text' ∧ cid = cid' := by simpa [hcM] using hcM'
      rcases hcase with ⟨i', s', hi', htext, hpaired⟩ | ⟨_, hall⟩
      · obtain rfl := hp.single i' s' hi' htext j t hj hpaired
        obtain rfl : s = s' := Option.some.inj (hi.symm.trans hi')
        exact ⟨j, t, hj, hpaired⟩
      · exact absurd hall hsecret
    | completion | message => cases hb
  · exact absurd hall hsecret

theorem sampleRun_private : sampleRun.Private sampleWorld 0 [.name (.secret 0)] where
  secret := by
    refine ⟨0, List.mem_singleton_self _, show ¬ 0 = 2 by decide, fun i p hp _ => ?_⟩
    rw [sampleRun_posted] at hp
    cases List.mem_singleton.mp hp
    exact ⟨sampleAlice, sampleAlice_placed, fun _ => sampleAlice_guarded⟩
  single i s hi _ j t _ hpaired := by
    have hrole : ([.initiator, .responder] : List Role)[i]? = some .initiator := by
      rw [← sampleRun_roles, List.getElem?_map, hi, Option.map_some, hpaired.initiator]
    clear hi hpaired
    match i with
    | 0 => rfl
    | 1 => simp at hrole
    | _ + 2 => simp at hrole

theorem initiator_authenticated_sample : ∃ (j : Nat) (t : Session Sym Pdu),
    sampleRun.sessions[j]? = some t ∧ Paired sampleWorld sampleRun 0 sampleAlice t :=
  initiator_authenticated sampleRun_reachable sampleAlice_placed (by decide +kernel)
    (by decide +kernel) (by decide +kernel) sampleRun_private

/-- What Mallory can make without anybody's help: a response, and the hash of nothing. -/
def forgedResponse (net : Network) : Event :=
  .postPdu 0 (.encoded (.build net.seenCid (.sessionInitResponse
    { pkBStar := staticKey 2
      ct2 := ⟨kemAlg (mlkemOid .mlkem768), [.encap .mlkem768 (staticKey 2).publicKey []]⟩
      ct3 := ⟨kemAlg (mlkemOid .mlkem768), [.encap .mlkem768 (staticKey 2).publicKey []]⟩
      nB := [], chosenAead := aeadOid .aes256Gcm })))

def forgedAck (net : Network) : Event :=
  .postPdu 0 (.encoded (.build net.seenCid (.sessionCompletionResponse
    { hM := [.digest []], m := none })))

def forgedRun : Network := Network.play {}
  [fun _ => .openInitiator (staticId 0) (staticId 1) (staticLookup 0) {} 0,
    forgedResponse, fun _ => .update 0 1, forgedAck, fun _ => .update 0 2]

theorem forgedRun_reachable : Reachable sampleWorld forgedRun := by
  refine reachable_play .start fun event he net => ?_
  have hpublished : ∀ n, All (Derives (net.known sampleWorld.toCorruption))
      ((staticId n).blocks ++ (staticKey n).blocks) :=
    fun n b hb => (static_published sampleWorld.toCorruption n b hb).mono fun _ => .inl
  have hcid := derives_seenCid sampleWorld.toCorruption net
  have hkey := (all_append.mp (hpublished 2)).2
  simp only [List.mem_cons, List.not_mem_nil, or_false] at he
  rcases he with rfl | rfl | rfl | rfl | rfl
  · exact ⟨sample_honest (by simp), all_append.mpr
      ⟨(all_append.mp (hpublished 0)).1, (all_append.mp (hpublished 1)).1⟩⟩
  · have hencap : Derives (net.known sampleWorld.toCorruption)
        (.encap .mlkem768 (staticKey 2).publicKey []) :=
      .encap (fun b hb => hkey b (List.mem_append_right _ hb)) (by simp)
    refine all_append.mpr ⟨hcid, ?_⟩
    simp [MakeMessage.build, MakePayload.blocks, KemCiphertext.blocks, kemAlg, hkey, hencap]
  · trivial
  · refine all_append.mpr ⟨hcid, ?_⟩
    have hdigest : Derives (net.known sampleWorld.toCorruption) (.digest []) := .digest (by simp)
    simpa [MakeMessage.build, MakePayload.blocks] using hdigest
  · trivial

/-- An initiator without a false start is established with nobody: there is no responder,
and the adversary has but its own static key. -/
theorem forged_ack_accepted : Reachable sampleWorld forgedRun ∧
    (∃ s, forgedRun.sessions[0]? = some s ∧ s.role = .initiator ∧ s.state = .established ∧
      sampleWorld.Guarded s) ∧
    ∀ (j : Nat) (t : Session Sym Pdu), forgedRun.sessions[j]? = some t → t.role ≠ .responder := by
  have hroles : forgedRun.sessions.map (·.role) = [.initiator] := by decide +kernel
  refine ⟨forgedRun_reachable, ⟨forgedRun.sessions.get ⟨0, by decide +kernel⟩,
    List.getElem?_eq_getElem _, by decide +kernel, by decide +kernel, staticId 1, staticKey 1,
    .mlkem768, 1, by decide +kernel, by decide +kernel, rfl, show ¬ 1 = 2 by decide⟩, ?_⟩
  intro j t hj hr
  have hmem := List.mem_map_of_mem (f := (·.role)) (List.mem_of_getElem? hj)
  simp [hroles, hr] at hmem

end Network

end KemMake
