import KemMake.Linked

/-!
# One handshake over a lossy network

An initiator, a responder, and a network that loses, delays, repeats and reorders what
they emit, but makes nothing up.
-/

namespace KemMake

variable {β π : Type} {P : Primitives β π} {q : Peers P}

/-! ## Runs -/

/-- Alice calls Bob, draws have the lengths of the calls that make them, and a PDU comes
from what the other end has emitted. -/
def Delivers (q : Peers P) (peer : End β π) : Act β π → Prop
  | .initiate peerKeyId _ e => peerKeyId = q.bobId ∧ e.Fits P
  | .update _ e => e.Fits P
  | .postPdu der => der ∈ peer.emitted
  | _ => True

/-- Alice's end before anything happens. -/
def Peers.alice (q : Peers P) : End β π where
  session := .new .initiator (some q.aliceId) q.aliceKeys q.aliceConfig

def Peers.bob (q : Peers P) (ownKeyId : Option (KeyId β)) : End β π where
  session := .new .responder ownKeyId q.bobKeys q.bobConfig

theorem linked_start (q : Peers P) (ownKeyId : Option (KeyId β)) :
    Linked q .silent q.alice (q.bob ownKeyId) where
  aliceAt := ⟨rfl, rfl, .silent rfl rfl rfl rfl⟩
  bobAt := ⟨rfl, rfl, rfl, rfl, .silent rfl rfl rfl rfl⟩
  aliceLog := Session.numbered_new _ _ _ _
  bobLog := Session.numbered_new _ _ _ _
  aliceRec := Session.receptive_new _ _ _ _
  bobRec := Session.receptive_new _ _ _ _
  aliceSaid _ h := by cases h
  bobSaid _ h := by cases h
  toAlice _ h := by cases h
  toBob _ h := by cases h
  first _ h := by cases h
  reply _ _ h := by cases h
  aliceHeard := ⟨Nat.le_refl _, rfl⟩
  bobHeard := ⟨Nat.le_refl _, rfl⟩

/-- An AEAD that Bob accepts and Alice offered is there as soon as Bob has answered. -/
theorem Answered.common (r : Answered q) : q.bobConfig.acceptableAeads.find?
    (fun aead => decide (aead ∈ q.aliceConfig.acceptableAeads)) = some r.aead := by
  have hch := r.chosen
  have hp : (fun aead => decide (aeadOid aead ∈ q.aliceConfig.acceptableAeads.map aeadOid)) =
      fun aead => decide (aead ∈ q.aliceConfig.acceptableAeads) := by
    funext aead
    rw [decide_eq_decide, List.mem_map]
    exact ⟨fun ⟨x, hx, heq⟩ => aeadOid_inj heq ▸ hx, fun hx => ⟨aead, hx, rfl⟩⟩
  unfold chooseAead at hch
  rw [hp] at hch
  split at hch
  · cases hch
  · rename_i chosen hf
    cases hch
    exact hf

section
variable [DecidableEq β] [DecidableEq π]

/-- Runs over a network that loses, delays, repeats and reorders what is emitted. -/
inductive Lossy (q : Peers P) : End β π → End β π → Prop
  | start (ownKeyId : Option (KeyId β)) : Lossy q q.alice (q.bob ownKeyId)
  | alice {a b} (act : Act β π) : Lossy q a b → Delivers q b act → Lossy q (a.act P act) b
  | bob {a b} (act : Act β π) : Lossy q a b → Delivers q a act → Lossy q a (b.act P act)

variable {t : Progress q} {a b : End β π}

theorem Linked.alice_act (hP : P.Correct) (h : Linked q t a b) (act : Act β π)
    (hd : Delivers q b act) : ∃ t', Linked q t' (a.act P act) b := by
  have hsame : ∀ {s'}, s'.standing = a.session.standing → AliceAt t s' :=
    fun hs => h.aliceAt.congr hs rfl rfl fun _ _ => id
  have hn := h.aliceLog
  have hr := h.aliceRec
  cases act with
  | initiate peerKeyId now e =>
    obtain ⟨rfl, he⟩ := hd
    exact h.alice_initiate hP now he
  | update now e => exact h.alice_update hP now e
  | postPdu der =>
    refine ⟨t, h.alice ⟨hsame rfl, fun _ => id, fun _ => id, rfl, rfl,
      hn.congr (hn.coherent.postPdu der) rfl hn.unkeyed, hr.congr rfl (.inl rfl),
      ⟨[], (List.append_nil _).symm⟩, fun _ => .inl, fun _ => id, fun d hd' => ?_, fun _ => .inl,
      h.aliceHeard⟩⟩
    obtain hd' | hd' := List.mem_append.mp hd'
    · exact .inl hd'
    · rw [List.mem_singleton.mp hd']
      exact .inr hd
  | postPayload payload =>
    obtain ⟨hs, hq, ho, hc, hp⟩ := postPayload_frame (P := P) a payload
    refine ⟨t, h.alice ⟨hsame hs, fun _ => id, fun _ => id, rfl, rfl, hn.postPayload payload,
      hr.postPayload payload, ⟨[], (List.append_nil _).symm⟩, fun d hd' => .inl ?_, fun _ => id,
      fun d hd' => .inl (hq ▸ hd'), fun _ => .inl, h.aliceHeard.congr hc (by rw [hp]; rfl)⟩⟩
    rw [ho] at hd'
    exact hd'
  | getPdu =>
    obtain ⟨hs, hq, hi⟩ := getPdu_frame (P := P) a
    simp only [Session.inbound, Prod.mk.injEq] at hi
    have hlog : (a.act P .getPdu).log = a.log := rfl
    refine ⟨t, h.alice ⟨hsame hs, fun _ => id, fun _ => id, rfl, rfl, hn.getPdu, hr.getPdu,
      ⟨[], (List.append_nil _).symm⟩, fun d hd' => .inl (mem_getPdu.mp hd'),
      fun d hd' => List.mem_append_left _ hd', fun d hd' => .inl (hq ▸ hd'), fun _ => .inl,
      h.aliceHeard.congr hi.2.2.1 (by rw [hi.2.1]; rfl)⟩⟩
  | getPayload =>
    obtain ⟨hs, hq, ho, hc, hp⟩ := getPayload_frame (P := P) a
    refine ⟨t, h.alice ⟨hsame hs, fun _ => id, fun _ => id, rfl, rfl, hn.getPayload, hr.getPayload,
      ⟨[], (List.append_nil _).symm⟩, fun d hd' => .inl ?_, fun _ => id,
      fun d hd' => .inl (hq ▸ hd'), fun _ => .inl, h.aliceHeard.congr hc hp⟩⟩
    rw [ho] at hd'
    exact hd'

theorem Linked.bob_act (hP : P.Correct) (h : Linked q t a b) (act : Act β π)
    (hd : Delivers q a act) : ∃ t', Linked q t' a (b.act P act) := by
  have hsame : ∀ {s'}, s'.standing = b.session.standing → BobAt t s' :=
    fun hs => h.bobAt.congr hs rfl rfl
  have hn := h.bobLog
  have hr := h.bobRec
  cases act with
  | initiate peerKeyId now e =>
    have hpass : (b.session.initiate P peerKeyId now e).1 = b.session := by
      simp [Session.initiate, h.bobAt.role]
    refine ⟨t, ?_⟩
    simp only [End.act, hpass]
    exact h
  | update now e => exact h.bob_update hP now hd
  | postPdu der =>
    refine ⟨t, h.bob ⟨hsame rfl, rfl, rfl, fun _ => id, fun _ => id,
      hn.congr (hn.coherent.postPdu der) rfl hn.unkeyed, hr.congr rfl (.inl rfl),
      ⟨[], (List.append_nil _).symm⟩, fun _ => .inl, fun _ => id, fun d hd' => ?_, fun _ _ => .inl,
      h.bobHeard⟩⟩
    obtain hd' | hd' := List.mem_append.mp hd'
    · exact .inl hd'
    · rw [List.mem_singleton.mp hd']
      exact .inr hd
  | postPayload payload =>
    obtain ⟨hs, hq, ho, hc, hp⟩ := postPayload_frame (P := P) b payload
    refine ⟨t, h.bob ⟨hsame hs, rfl, rfl, fun _ => id, fun _ => id, hn.postPayload payload,
      hr.postPayload payload, ⟨[], (List.append_nil _).symm⟩, fun d hd' => .inl ?_, fun _ => id,
      fun d hd' => .inl (hq ▸ hd'), fun _ _ => .inl, h.bobHeard.congr hc (by rw [hp]; rfl)⟩⟩
    rw [ho] at hd'
    exact hd'
  | getPdu =>
    obtain ⟨hs, hq, hi⟩ := getPdu_frame (P := P) b
    simp only [Session.inbound, Prod.mk.injEq] at hi
    refine ⟨t, h.bob ⟨hsame hs, rfl, rfl, fun _ => id, fun _ => id, hn.getPdu, hr.getPdu,
      ⟨[], (List.append_nil _).symm⟩, fun d hd' => .inl (mem_getPdu.mp hd'),
      fun d hd' => List.mem_append_left _ hd', fun d hd' => .inl (hq ▸ hd'), fun _ _ => .inl,
      h.bobHeard.congr hi.2.2.1 (by rw [hi.2.1]; rfl)⟩⟩
  | getPayload =>
    obtain ⟨hs, hq, ho, hc, hp⟩ := getPayload_frame (P := P) b
    refine ⟨t, h.bob ⟨hsame hs, rfl, rfl, fun _ => id, fun _ => id, hn.getPayload, hr.getPayload,
      ⟨[], (List.append_nil _).symm⟩, fun d hd' => .inl ?_, fun _ => id,
      fun d hd' => .inl (hq ▸ hd'), fun _ _ => .inl, h.bobHeard.congr hc hp⟩⟩
    rw [ho] at hd'
    exact hd'

theorem Lossy.linked (hP : P.Correct) (h : Lossy q a b) : ∃ t, Linked q t a b := by
  induction h with
  | start ownKeyId => exact ⟨.silent, linked_start q ownKeyId⟩
  | alice act _ hd ih => exact ih.elim fun _ h => h.alice_act hP act hd
  | bob act _ hd ih => exact ih.elim fun _ h => h.bob_act hP act hd

/-- Once Alice is established, Bob is, with her cid and secrets, the AEAD is the first of his
that she offered, and he has her false-start payload and then what her Messages brought. -/
theorem lossy_agreement (hP : P.Correct) (h : Lossy q a b) :
    (a.session.state = .established → b.session.state = .established ∧
      ∃ cid keys text, a.session.cid = some cid ∧ b.session.cid = some cid ∧
        a.session.sessionKeys = some keys ∧ b.session.sessionKeys = some keys ∧
        q.bobConfig.acceptableAeads.find?
          (fun aead => decide (aead ∈ q.aliceConfig.acceptableAeads)) = some keys.aeadName ∧
        a.session.sentPlaintextForHM = some text ∧
        b.surfaced ++ b.session.outgoingPayloads = (if text = [] then [] else [text]) ++
          encrypted P (a.log.tail.take (b.session.seqA2b - 1))) ∧
    ((∀ aead ∈ q.bobConfig.acceptableAeads, aead ∉ q.aliceConfig.acceptableAeads) →
      a.session.state ≠ .established ∧ b.session.state ≠ .established) := by
  obtain ⟨t, h⟩ := h.linked hP
  constructor
  · intro hs
    obtain ⟨c, reply, hreply, hcid, htext, _⟩ := h.aliceAt.establishedPhase hs
    have hc := Progress.call_of_reply hreply
    have hbob : b.session.state = .established := by
      cases h.bobAt.phase with
      | established _ _ h' => exact h'
      | silent _ ha =>
        rw [Progress.answer_of_call hc] at ha
        cases ha
      | waiting _ _ _ hr | dropped _ _ hr =>
        rw [hreply] at hr
        cases hr
    obtain ⟨c', reply', hreply', hcid', _⟩ := h.bobAt.establishedPhase hbob
    cases hreply.symm.trans hreply'
    refine ⟨hbob, c.cid, c.keys, c.text, hcid, hcid', ?_, ?_, c.toAnswered.common, htext, ?_⟩
    · rw [h.aliceAt.keyed, hc]
      rfl
    · rw [h.bobAt.keyed, hreply]
      rfl
    · obtain ⟨call, hcall, hfirst⟩ := h.first c hc
      obtain ⟨ct, hct⟩ := h.alice_result hc hcall (nonceForSeq_zero _)
      have hpos := h.bobRec.counting h.bobAt.role hbob
      rw [h.bobHeard.2]
      have hcount : b.session.recvCount = b.session.seqA2b := by
        simp [Session.recvCount, h.bobAt.role]
      rw [hcount] at hpos ⊢
      obtain ⟨n, hn⟩ : ∃ n, b.session.seqA2b = n + 1 := ⟨b.session.seqA2b - 1, by omega⟩
      cases hlog : a.log with
      | nil =>
        rw [hlog] at hcall
        cases hcall
      | cons first rest =>
        rw [hlog] at hcall
        cases hcall
        rw [hn, List.take_succ_cons, encrypted_cons hct, hfirst]
        rfl
  · intro hdisjoint
    have hnone : t.answer? = none := by
      cases ha : t.answer? with
      | none => rfl
      | some r =>
        obtain ⟨hacc, hoff⟩ := Session.chooseAead_ok r.chosen
        exact absurd r.aead_acceptable (hdisjoint r.aead hacc)
    constructor
    · intro hs
      obtain ⟨c, reply, hreply, _⟩ := h.aliceAt.establishedPhase hs
      rw [Progress.answer_of_call (Progress.call_of_reply hreply)] at hnone
      cases hnone
    · intro hs
      exact h.bobAt.answered (by simp [hs]) hnone

end

/-! ## A run -/

theorem static0_fits : ideal.octets [.name (.static 0)] = seedLen := rfl

theorem static1_fits : ideal.octets [.name (.static 1)] = seedLen := rfl

/-- Alice and Bob with the keys of the examples. -/
def samplePeers : Peers ideal where
  level := .mlkem768
  aliceId := staticId 0
  bobId := staticId 1
  aliceSeed := [.name (.static 0)]
  bobSeed := [.name (.static 1)]
  aliceKeys := staticLookup 0
  bobKeys := staticLookup 1
  aliceConfig := {}
  bobConfig := { acceptableAeads := [.chacha20Poly1305, .aes256Gcm] }
  aliceSeed_fits := static0_fits
  bobSeed_fits := static1_fits
  alice_private := by decide +kernel
  bob_private := by decide +kernel
  bob_public := by decide +kernel
  alice_public := by decide +kernel
  alice_level := rfl
  bob_level := rfl

/-- The last PDU that `x` has handed out. -/
def End.latest (x : End Sym Pdu) : Pdu := x.emitted.getLast?.getD (.junk 0)

/-- `x` takes a PDU, updates and hands out its answer. -/
def End.serve (x : End Sym Pdu) (der : Pdu) (k : Nat) : End Sym Pdu :=
  ((x.act ideal (.postPdu der)).act ideal (.update 0 (draw k))).act ideal .getPdu

theorem Lossy.serveAlice {q : Peers ideal} {a b : End Sym Pdu} (h : Lossy q a b) {der : Pdu}
    (hd : der ∈ b.emitted) (k : Nat) : Lossy q (a.serve der k) b :=
  ((h.alice (.postPdu der) hd).alice (.update 0 (draw k)) (draw_fits k)).alice .getPdu trivial

theorem Lossy.serveBob {q : Peers ideal} {a b : End Sym Pdu} (h : Lossy q a b) {der : Pdu}
    (hd : der ∈ a.emitted) (k : Nat) : Lossy q a (b.serve der k) :=
  ((h.bob (.postPdu der) hd).bob (.update 0 (draw k)) (draw_fits k)).bob .getPdu trivial

def lossyCall : End Sym Pdu :=
  ((samplePeers.alice.act ideal (.postPayload [.octet 1])).act ideal
    (.initiate (staticId 1) 0 (draw 0))).act ideal .getPdu
/-- Bob gets the request twice. -/
def lossyAnswer : End Sym Pdu :=
  ((samplePeers.bob none).serve lossyCall.latest 1).serve lossyCall.latest 2
def lossyClosing : End Sym Pdu := lossyCall.serve lossyAnswer.latest 3
def lossyServed : End Sym Pdu := lossyAnswer.serve lossyClosing.latest 4
/-- The response comes once more, ahead of the acknowledgement. -/
def lossyDone : End Sym Pdu :=
  (lossyClosing.serve lossyAnswer.latest 5).serve lossyServed.latest 6

theorem lossy_sample : Lossy samplePeers lossyDone lossyServed := by
  have h : Lossy samplePeers samplePeers.alice (samplePeers.bob none) := .start none
  have h := ((h.alice (.postPayload [.octet 1]) trivial).alice
    (.initiate (staticId 1) 0 (draw 0)) ⟨rfl, draw_fits 0⟩).alice .getPdu trivial
  have h : Lossy samplePeers lossyCall lossyAnswer :=
    (h.serveBob (by decide +kernel) 1).serveBob (by decide +kernel) 2
  have h : Lossy samplePeers lossyClosing lossyAnswer := h.serveAlice (by decide +kernel) 3
  have h : Lossy samplePeers lossyClosing lossyServed := h.serveBob (by decide +kernel) 4
  exact (h.serveAlice (by decide +kernel) 5).serveAlice (by decide +kernel) 6

theorem lossy_agreement_sample : lossyServed.session.state = .established ∧
    ∃ keys, lossyDone.session.sessionKeys = some keys ∧
      lossyServed.session.sessionKeys = some keys ∧
      samplePeers.bobConfig.acceptableAeads.find?
        (fun aead => decide (aead ∈ samplePeers.aliceConfig.acceptableAeads)) =
          some keys.aeadName := by
  obtain ⟨hbob, _, keys, _, _, _, hka, hkb, haead, _⟩ :=
    (lossy_agreement Ideal.ideal_correct lossy_sample).1 (by decide +kernel)
  exact ⟨hbob, keys, hka, hkb, haead⟩

example : lossyServed.session.outgoingPayloads = [[.octet 1]] := by decide +kernel

end KemMake
