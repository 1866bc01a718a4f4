import KemMake.Handlers

/-!
# The fields a session has in each state

`Coherent`: what the handlers of a state read has been assigned. It holds of every
session that a constructor, `initiate` or `fork` made, and after every update.
-/

namespace KemMake
namespace Session

variable {β π : Type}

structure Coherent (P : Primitives β π) (s : Session β π) : Prop where
  calling : s.state = .expectSessionInitResponse → s.role = .initiator ∧
    ∃ own cid eph s1, s.ownKeyId = some own ∧ s.cid = some cid ∧
      s.ownEphemeralPrivate = some eph ∧ s.s1 = some s1
  answered : s.state = .expectSessionCompletionRequest → s.role = .responder ∧
    ∃ cid eph peer nB s1 s2 s3 aead, s.cid = some cid ∧ s.ownEphemeralPrivate = some eph ∧
      s.peerKeyId = some peer ∧ s.nB = some nB ∧ s.s1 = some s1 ∧ s.s2 = some s2 ∧
      s.s3 = some s3 ∧ s.chosenAead = some aead
  called : s.state = .expectSessionCompletionResponse → s.role = .initiator ∧ s.seqA2b = 1 ∧
    ∃ keys cid sent, s.sessionKeys = some keys ∧ s.cid = some cid ∧
      s.sentPlaintextForHM = some sent
  established : s.state = .established → ∃ keys cid, s.sessionKeys = some keys ∧ s.cid = some cid
  ivs : ∀ keys, s.sessionKeys = some keys →
    P.octets keys.ivA2b = aeadNonceLength ∧ P.octets keys.ivB2a = aeadNonceLength

theorem coherent_new {P : Primitives β π} (role : Role) (ownKeyId : Option (KeyId β))
    (keys : KeyLookup β) (config : SessionConfig) :
    (new role ownKeyId keys config : Session β π).Coherent P :=
  ⟨by simp [new], by simp [new], by simp [new], by simp [new], by simp [new]⟩

section
variable {P : Primitives β π} (hP : P.Correct)

theorem ivs_derived (hP : P.Correct) (nA nB fA s1 s2 s3 s4 : List β) (aead : Aead) :
    P.octets (deriveSessionKeys P nA nB fA s1 s2 s3 s4 aead).ivA2b = aeadNonceLength ∧
      P.octets (deriveSessionKeys P nA nB fA s1 s2 s3 s4 aead).ivB2a = aeadNonceLength := by
  simp [deriveSessionKeys, hP.octets_hkdf]

include hP

theorem Took.coherent {s s' : Session β π} {now : Int} {e : Entropy β} {x : Option PyError}
    (ht : Took P s now e s' x) (h : s.Coherent P) : s'.Coherent P := by
  cases ht with
  | idle => exact h
  | ignored | undecoded => exact ⟨h.calling, h.answered, h.called, h.established, h.ivs⟩
  | resent =>
    rw [resend_eq]
    exact ⟨h.calling, h.answered, h.called, h.established, h.ivs⟩
  | refused _ _ hc =>
    rcases hc with rfl | ⟨hs, _, rfl⟩
    · exact ⟨h.calling, h.answered, h.called, h.established, h.ivs⟩
    · refine ⟨fun h' => ?_, fun h' => ?_, fun h' => ?_, fun h' => ?_, h.ivs⟩ <;>
        exact absurd (hs.symm.trans h') (by simp)
  | answered _ _ _ _ hr hreply =>
    obtain ⟨a⟩ := initReply_ok hreply
    refine ⟨by simp [acceptInitRequest], fun _ => ⟨hr, ?_⟩, by simp [acceptInitRequest],
      by simp [acceptInitRequest], h.ivs⟩
    exact ⟨_, _, _, _, _, _, _, _, rfl, rfl, rfl, rfl, rfl, rfl, rfl, rfl⟩
  | completed _ _ _ _ hr hc ho =>
    obtain ⟨o'⟩ := openCompletion_ok ho
    refine ⟨by simp [acceptCompletion], by simp [acceptCompletion], by simp [acceptCompletion],
      fun _ => ⟨_, _, rfl, hc⟩, fun keys hk => ?_⟩
    cases hk
    rw [o'.keys]
    exact ivs_derived hP ..
  | called _ _ _ _ hr hc hcall =>
    obtain ⟨c⟩ := completionCall_ok hcall
    refine ⟨by simp [acceptInitResponse], by simp [acceptInitResponse],
      fun _ => ⟨hr, rfl, _, _, _, rfl, hc, rfl⟩, by simp [acceptInitResponse], fun keys hk => ?_⟩
    cases hk
    rw [c.keys]
    exact ivs_derived hP ..
  | confirmed _ _ _ hs _ hc =>
    obtain ⟨_, _, keys, _, _, hk, _⟩ := h.called hs
    exact ⟨by simp [acceptReply], by simp [acceptReply], by simp [acceptReply],
      fun _ => ⟨_, _, hk, hc⟩, h.ivs⟩
  | replied _ _ _ hs _ hc =>
    obtain ⟨_, _, keys, _, _, hk, _⟩ := h.called hs
    exact ⟨by simp [acceptReply], by simp [acceptReply], by simp [acceptReply],
      fun _ => ⟨_, _, hk, hc⟩, h.ivs⟩
  | received _ _ _ hs =>
    rw [countReceived_eq]
    refine ⟨h.calling, h.answered, fun h' => ?_, h.established, h.ivs⟩
    exact absurd (hs.symm.trans h') (by simp)

omit hP in
theorem Sent.coherent {s s' : Session β π} {x : Option PyError} (hs : Sent P s s' x)
    (h : s.Coherent P) : s'.Coherent P := by
  cases hs with
  | idle => exact h
  | failed => exact ⟨h.calling, h.answered, h.called, h.established, h.ivs⟩
  | message hs =>
    rw [countSent_eq]
    refine ⟨h.calling, h.answered, fun h' => ?_, h.established, h.ivs⟩
    exact absurd (hs.symm.trans h') (by simp)

omit hP in
theorem Ticked.coherent {s s' : Session β π} {now : Int} (hk : Ticked s now s')
    (h : s.Coherent P) : s'.Coherent P := by
  cases hk with
  | idle => exact h
  | dropped => exact ⟨by simp, by simp, by simp, by simp, h.ivs⟩
  | retried =>
    rw [resend_eq]
    exact ⟨h.calling, h.answered, h.called, h.established, h.ivs⟩

theorem Coherent.update [DecidableEq β] [DecidableEq π] {s : Session β π} (h : s.Coherent P)
    (now : Int) (e : Entropy β) : (s.update P now e).1.Coherent P :=
  update_preserves hP.encrypt_ne_nil (fun _ _ ht => ht.coherent hP) (fun _ _ _ hs => hs.coherent)
    (fun _ _ hk => hk.coherent) h

end

variable {P : Primitives β π} {s : Session β π}

theorem Coherent.postPdu (h : s.Coherent P) (der : π) : (s.postPdu der).Coherent P :=
  ⟨h.calling, h.answered, h.called, h.established, h.ivs⟩

theorem Coherent.postPayload (h : s.Coherent P) (payload : List β) :
    (s.postPayload payload).1.Coherent P := by
  unfold Session.postPayload
  split
  · exact h
  · exact ⟨h.calling, h.answered, h.called, h.established, h.ivs⟩

theorem coherent_calling (ownKeyId peerKeyId : KeyId β) (keys : KeyLookup β)
    (config : SessionConfig) (now : Int) (e : Entropy β) (s1 : List β) (ct1 : KemCiphertext β) :
    (calling P ownKeyId peerKeyId keys config now e s1 ct1).Coherent P where
  calling _ := ⟨rfl, _, _, _, _, rfl, rfl, rfl, rfl⟩
  answered h := by simp [Session.calling] at h
  called h := by simp [Session.calling] at h
  established h := by simp [Session.calling] at h
  ivs keys h := by simp [Session.calling, new] at h

theorem Coherent.fork (h : s.Coherent P) {t : Session β π} (hf : s.fork = .ok t) :
    t.Coherent P := by
  obtain ⟨hr, hs, _, rfl⟩ := fork_ok.mp hf
  obtain ⟨_, own, cid, eph, s1, ho, hc, he, h1⟩ := h.calling hs
  exact ⟨fun _ => ⟨hr, _, _, _, _, ho, hc, he, h1⟩, by simp [twin], by simp [twin], by simp [twin],
    by simp [twin, new]⟩

end Session
end KemMake
