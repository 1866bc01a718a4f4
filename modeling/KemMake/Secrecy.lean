import KemMake.Exposure

/-!
# Secrecy of the directional secrets

Two consequences of what may be known. An initiator that aims at a guarded key shares
its first secret with nobody but the holder of that key, whatever response it or a fork
of it has accepted. Two ends with equal secrets have used the second secret, which
neither static key opens.
-/

namespace KemMake
open Symbolic

/-! ## Equal secrets -/

/-- The four directional secrets. -/
def SessionKeys.secrets {β : Type} (keys : SessionKeys β) : List (List β) :=
  [keys.keyA2b, keys.ivA2b, keys.keyB2a, keys.ivB2a]

section
variable {nA nB f s1 s2 s3 s4 nA' nB' f' s1' s2' s3' s4' : List Sym} {a a' : Aead}

/-- A derived key determines what it was derived from. -/
theorem keyA2b_inj (h : (deriveSessionKeys ideal nA nB f s1 s2 s3 s4 a).keyA2b =
    (deriveSessionKeys ideal nA' nB' f' s1' s2' s3' s4' a').keyA2b) :
    nA ++ nB = nA' ++ nB' ∧ f = f' ∧ s1 ++ s2 ++ s3 ++ s4 = s1' ++ s2' ++ s3' ++ s4' := by
  simp only [deriveSessionKeys, ideal, List.cons.injEq, Block.kdf.injEq, and_true] at h
  exact ⟨h.2.1, List.append_cancel_right h.2.2.1, h.2.2.2⟩

/-- The directions do not share keys: their labels differ. -/
theorem keyA2b_ne_keyB2a : (deriveSessionKeys ideal nA nB f s1 s2 s3 s4 a).keyA2b ≠
    (deriveSessionKeys ideal nA' nB' f' s1' s2' s3' s4' a').keyB2a := by
  intro h
  simp only [deriveSessionKeys, ideal, List.cons.injEq, Block.kdf.injEq, and_true] at h
  have hlabel := (info_inj Ideal.octet_injective h.2.2.1).2
  cases hlabel

end

namespace Session
variable {W : World} {E : Sym → Prop} {posted posted' : List Sym → Prop} {said said' : Pdu → Prop}
  {s t : Session Sym Pdu}

/-- An initiator and a responder with the same a2b key: the responder knows the initiator
by its own key id, holds the private key that it aims at, and has encapsulated the second
secret to its ephemeral key. -/
theorem common_secrets (hs : s.Sound W E posted said) (ht : t.Sound W E posted' said')
    (hr : s.role = .initiator) (hr' : t.role = .responder) {ka kb : SessionKeys Sym}
    (hk : s.sessionKeys = some ka) (hk' : t.sessionKeys = some kb) (heq : ka.keyA2b = kb.keyA2b) :
    (ka.aeadName = kb.aeadName → ka = kb) ∧
    (∃ own, s.ownKeyId = some own ∧ t.peerKeyId = some own) ∧
    (∃ peer pk, s.peerKeyId = some peer ∧ W.registered peer = some pk ∧ OwnsKey t.keys pk) ∧
    ∃ nA nB f s1 s3 s4 l j k, s.ownEphemeralPrivate = some (draw j).seed ∧
      ka = deriveSessionKeys ideal nA nB f s1
        [.shared l [.pub l (draw j).seed] (draw k).coins] s3 s4 ka.aeadName := by
  obtain ⟨own, nA, nB, s1, b2, b3, b4, eph, hown, h1, heph, hka, hopen2, _⟩ := hs.called hr ka hk
  obtain ⟨own', peer, pk, l, j, _, hpeer, hreg, _, h1', heph'⟩ := hs.aims hr
  obtain ⟨peerT, nA', nB', s1', s2', s3', b4', hpeerT, h1T, h2T, h3T, hkb, _⟩ :=
    ht.completed hr' kb hk'
  obtain ⟨pkT, lT, k, b1T, lA, pkA, id, seed, _, _, h1T', h2T', h3T', hpriv, hopen1⟩ :=
    ht.replied hr' peerT hpeerT
  obtain rfl : s1 = [.shared l pk.publicKey (draw j).coins] := by simpa [h1] using h1'
  obtain rfl : eph = (draw j).seed := by simpa [heph] using heph'
  obtain rfl : s1' = [b1T] := by simpa [h1T] using h1T'
  obtain rfl : s2' = [.shared lA pkA (draw k).coins] := by simpa [h2T] using h2T'
  obtain rfl : s3' = [.shared lT pkT.publicKey (draw k).coins'] := by simpa [h3T] using h3T'
  rw [hka, hkb] at heq
  obtain ⟨hn, hf, hikm⟩ := keyA2b_inj heq
  simp only [List.cons_append, List.nil_append, List.cons.injEq, and_true] at hikm
  obtain ⟨hb1, hb2, hb3, hb4⟩ := hikm
  refine ⟨fun ha => ?_, ⟨own, hown, Ideal.dumpKeyId_injective hf ▸ hpeerT⟩, ⟨peer, pk, hpeer, hreg, ?_⟩, ?_⟩
  · rw [hka, hkb, hf, hb1, hb2, hb3, hb4, ha]
    simp only [deriveSessionKeys, hn]
  · rcases hopen1 with ⟨l', coins, rfl⟩ | ⟨l', ct, rfl⟩
    · injection hb1 with _ hpk _
      exact ⟨id, l', seed, hpriv, hpk⟩
    · cases hb1
  · rcases hopen2 with ⟨l', coins, rfl⟩ | ⟨l', ct, rfl⟩
    · injection hb2 with hl hpk hcoins
      subst hl hpk hcoins
      exact ⟨nA, nB, _, _, _, _, l', j, k, heph, hka⟩
    · cases hb2

end Session

namespace Network
variable {W : World} {net : Network} {i j : Nat} {s t : Session Sym Pdu}

/-! ## Against forged responses -/

/-- Whatever a session or fork with a guarded peer has accepted, its keys cannot be
derived, nor can a secret of its false start that was not given to sessions with unguarded
peers; the hash h_m is on the wire here. -/
theorem session_secrecy (h : Reachable W net) (hi : net.sessions[i]? = some s)
    (hg : W.Guarded s) :
    (∀ keys, s.sessionKeys = some keys →
      ¬ All (Derives (net.known W.toCorruption)) keys.keyA2b ∧
      ¬ All (Derives (net.known W.toCorruption)) keys.keyB2a) ∧
    ∀ text n, s.sentPlaintextForHM = some text → .name (.secret n) ∈ text → n ∉ W.secrets →
      (∀ i' p, (i', p) ∈ net.posted → .name (.secret n) ∈ p → net.Entrusted W i') →
      ¬ Derives (net.known W.toCorruption) (.name (.secret n)) := by
  have hinv := reachable_inv h
  have hs := hinv.session i s hi
  refine ⟨fun keys hk => ?_, fun text n _ _ hn hposted hd => ?_⟩
  · have hhidden : ∀ b ∈ keys.keyA2b ++ keys.ivA2b ++ keys.keyB2a ++ keys.ivB2a,
        ¬ Derives (net.known W.toCorruption) b := fun b hb hd =>
      keys_hidden net hs hg hk hb (hinv.derives hd)
    obtain ⟨⟨a, ha⟩, ⟨b, hb⟩, _⟩ := hs.keyed hk
    exact ⟨fun hall => hhidden a (by simp [ha]) (hall a ha),
      fun hall => hhidden b (by simp [hb]) (hall b hb)⟩
  · rcases (exposed_name (wrapped_sealed net)).mp (hinv.derives hd) with hw | ⟨i', p, hp, hmem, ha⟩
    · exact hn hw
    · exact ha (hposted i' p hp hmem)

theorem sampleAlice_guarded : sampleWorld.Guarded sampleAlice :=
  ⟨staticId 1, staticKey 1, .mlkem768, 1, by decide +kernel, by decide +kernel, rfl,
    show ¬ 1 = 2 by decide⟩

theorem session_secrecy_sample :
    (∀ keys, sampleAlice.sessionKeys = some keys →
      ¬ All (Derives (sampleRun.known sampleWorld.toCorruption)) keys.keyA2b ∧
      ¬ All (Derives (sampleRun.known sampleWorld.toCorruption)) keys.keyB2a) ∧
    sampleAlice.sessionKeys ≠ none ∧ sampleAlice.sentPlaintextForHM = some [.name (.secret 0)] ∧
    ¬ Derives (sampleRun.known sampleWorld.toCorruption) (.name (.secret 0)) := by
  have hmain := session_secrecy sampleRun_reachable sampleAlice_placed sampleAlice_guarded
  have hsent : sampleAlice.sentPlaintextForHM = some [.name (.secret 0)] := by decide +kernel
  refine ⟨hmain.1, by decide +kernel, hsent, hmain.2 _ 0 hsent (by simp)
    (show ¬ 0 = 2 by decide) ?_⟩
  intro i p hp _
  rw [sampleRun_posted] at hp
  cases List.mem_singleton.mp hp
  exact ⟨sampleAlice, sampleAlice_placed, fun _ => sampleAlice_guarded⟩

/-! ## After the static keys are given away -/

/-- All names but coins and the ephemeral private keys that are kept. -/
def openedLater (W : World) : Set Name :=
  {name | match name with
    | .coins _ | .coins' _ => False
    | .seed k => k ∈ W.ephemerals
    | _ => True}

theorem opened_subset_later : net.opened W ⊆ openedLater W := by
  intro name h
  cases name <;> first | exact h | trivial

theorem Inv.discreet_later (h : net.Inv W) : Discreet (openedLater W) net.sealed where
  wrapped := wrapped_sealed net
  text a key nonce text ad hmem _ := by
    have hposted : ∀ i p, (i, p) ∈ net.posted → All (Exposed (openedLater W) net.sealed) p := by
      intro i p hp b hb
      rcases (h.posted i p hp).2 b hb with hs | ⟨n, rfl⟩
      · exact hs.mono opened_subset_later (fun _ => id)
      · exact .name (show Name.secret n ∈ openedLater W from trivial)
    obtain ⟨i, s, hi, hseal⟩ := hmem
    cases hseal with
    | completion hr hk ht hc =>
      rcases (h.session i s hi).started _ ht with rfl | hp
      · simp
      · exact hposted i _ hp
    | message _ _ hp => exact hposted i _ hp

/-- The secrets that an initiator and a responder have in common, established or not,
cannot be derived from the wire with all static private keys, if the initiator's ephemeral
one is kept. -/
theorem forward_secrecy (h : Reachable W net) (hi : net.sessions[i]? = some s)
    (hj : net.sessions[j]? = some t) (hr : s.role = .initiator) (hr' : t.role = .responder)
    {ka kb : SessionKeys Sym} (hk : s.sessionKeys = some ka) (hk' : t.sessionKeys = some kb)
    (heq : ka.secrets = kb.secrets)
    (hkept : ∀ k ∈ W.ephemerals, s.ownEphemeralPrivate ≠ some (draw k).seed) :
    ∀ secret ∈ ka.secrets, ∀ b ∈ secret,
      ¬ Derives (net.known W.toCorruption ∪ {x | ∃ n, x = .name (.static n)}) b := by
  intro secret hsecret b hmem
  have hb : b ∈ ka.keyA2b ++ ka.ivA2b ++ ka.keyB2a ++ ka.ivB2a := by
    simp only [SessionKeys.secrets, List.mem_cons, List.not_mem_nil, or_false] at hsecret
    rcases hsecret with rfl | rfl | rfl | rfl <;> simp [hmem]
  have hinv := reachable_inv h
  obtain ⟨_, _, _, nA, nB, f, s1, s3, s4, l, m, k, heph, hkeys⟩ :=
    Session.common_secrets (hinv.session i s hi) (hinv.session j t hj) hr hr' hk hk'
      (List.cons.inj heq).1
  have hwrapped := wrapped_sealed net
  have hseed : m ∉ W.ephemerals := fun hm => hkept m hm heph
  have hsecond : ¬ Exposed (openedLater W) net.sealed
      (.shared l [.pub l (draw m).seed] (draw k).coins) := by
    intro he
    rcases exposed_shared hwrapped he with hall | hall
    · exact hseed ((exposed_name hwrapped).mp (hall _ (List.mem_singleton_self _)))
    · exact (exposed_name hwrapped).mp (hall _ (List.mem_singleton_self _))
  rw [hkeys] at hb
  refine fun hd => derived_hidden hb (by simp) hwrapped hsecond (hd.exposed hinv.discreet_later ?_)
  rintro x (hx | ⟨n, rfl⟩)
  · exact (hinv.known_shown hx).mono opened_subset_later (fun _ => id)
  · exact .name (show Name.static n ∈ openedLater W from trivial)

theorem forward_secrecy_sample : ∃ keys, sampleAlice.sessionKeys = some keys ∧
    sampleBob.sessionKeys = some keys ∧ ∀ secret ∈ keys.secrets, ∀ b ∈ secret,
      ¬ Derives (sampleRun.known sampleWorld.toCorruption ∪ {x | ∃ n, x = .name (.static n)}) b := by
  obtain ⟨keys, hk⟩ : ∃ keys, sampleAlice.sessionKeys = some keys :=
    Option.ne_none_iff_exists'.mp (by decide +kernel)
  have hk' : sampleBob.sessionKeys = some keys := by
    rw [← hk]
    decide +kernel
  exact ⟨keys, hk, hk', forward_secrecy sampleRun_reachable sampleAlice_placed sampleBob_placed
    (by decide +kernel) (by decide +kernel) hk hk' rfl (by simp [sampleWorld])⟩

end Network

end KemMake
