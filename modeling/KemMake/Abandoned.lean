import KemMake.Crank

/-!
# A responder past its TTL

`update` takes a PDU from the queue before it looks at the deadline. What that PDU does to a
responder whose time is over is done before the session is dropped.
-/

namespace KemMake

namespace Session
variable {β π : Type} [DecidableEq β] [DecidableEq π] {P : Primitives β π} {s s' : Session β π}
  {now : Int} {e : Entropy β} {der : π} {rest : List π}

omit [DecidableEq β] [DecidableEq π] in
/-- The PDU gets a waiting responder to send: it is the request accepted last, with an answer
kept for it, or a completion request that decrypts. -/
def Rouses (P : Primitives β π) (s : Session β π) (der : π) : Prop :=
  s.lastReceived = some der ∧ s.lastSent ≠ none ∨
    s.lastReceived ≠ some der ∧ ∃ msg req o, P.load der = .ok msg ∧ s.cid = some msg.cid ∧
      msg.payload = .sessionCompletionRequest req ∧ s.openCompletion P req = .ok o

/-- If the update returned, it dropped the session and put nothing out, and in no case did it
establish the session. -/
structure GivenUp (s : Session β π) {ρ : Type} (u : Session β π × Except PyError ρ) : Prop where
  dropped : ∀ r, u.2 = .ok r → u.1.state = .dropped ∧ u.1.outgoingPdus = s.outgoingPdus ∧
    u.1.outgoingPayloads = s.outgoingPayloads
  unestablished : u.1.state ≠ .established

omit [DecidableEq β] [DecidableEq π] in
/-- Past its deadline, a responder that waits is dropped by the clock. -/
theorem checkDeadline_responder {t : Int} (hr : s.role = .responder)
    (hs : s.state = .expectSessionCompletionRequest) (hd : s.deadline = some t) (hle : t ≤ now) :
    s.checkDeadline now = { s with state := .dropped } := by
  unfold checkDeadline
  split
  · rename_i hnone
    rw [hd] at hnone
    cases hnone
  · rename_i t' ht'
    obtain rfl : t = t' := by simpa [hd] using ht'
    simp [hle, hs, onTimeout, hr]

/-- An update whose PDU leaves the responder waiting drops it. -/
theorem update_waited {t : Int} (htake : s.takeIncoming P now e = (s', none)) (hr : s'.role = .responder)
    (hs : s.state ≠ .dropped) (hs' : s'.state = .expectSessionCompletionRequest)
    (hd : s'.deadline = some t) (hle : t ≤ now) :
    s.update P now e = ({ s' with state := .dropped },
      .ok ({ s' with state := .dropped }.updateResult now)) := by
  have hsend : s'.sendPending P = (s', none) := by
    simp only [sendPending, hs', reduceCtorEq, ↓reduceIte]
  unfold update
  simp only [hs, ↓reduceIte, htake, hsend, hs', reduceCtorEq, checkDeadline_responder hr hs' hd hle]

/-- A duplicate of the accepted request puts the cached answer out once more. -/
theorem takeIncoming_resent (hq : s.incomingQueue = der :: rest) (hd : s.lastReceived = some der) :
    s.takeIncoming P now e = ((s.popped rest).resend, none) := by
  have hproc : (s.popped rest).processIncoming P der now e = ((s.popped rest).resend, none) := by
    unfold processIncoming
    rw [if_pos hd]
  unfold takeIncoming
  rw [hq]
  exact hproc

/-- A completion request that decrypts establishes the session. -/
theorem takeIncoming_completed {msg : MakeMessage β} {req : SessionCompletionRequest β}
    {o : OpenedCompletion β} (hr : s.role = .responder)
    (hs : s.state = .expectSessionCompletionRequest) (hq : s.incomingQueue = der :: rest)
    (hd : s.lastReceived ≠ some der) (hl : P.load der = .ok msg) (hc : s.cid = some msg.cid)
    (hp : msg.payload = .sessionCompletionRequest req) (ho : s.openCompletion P req = .ok o) :
    s.takeIncoming P now e =
      (((s.popped rest).opened o).acceptCompletion P req der o (s.replyM P o), none) := by
  have hpop : (s.popped rest).openCompletion P req = .ok o := ho
  have hdisp : (s.popped rest).processIncoming P der now e =
      (s.popped rest).dispatch P msg.payload der now e :=
    processIncoming_dispatch hd hl (by simp [hs]) hc
  unfold takeIncoming
  rw [hq]
  refine hdisp.trans ?_
  simp only [dispatch, hs, hr, hp, handleSessionCompletionRequest_eq, hpop]
  rfl

/-- An update never takes a session out of ESTABLISHED. -/
theorem update_keeps_established (htake : s.takeIncoming P now e = (s', none)) (hs : s.state ≠ .dropped)
    (hs' : s'.state = .established) : (s.update P now e).1.state = .established := by
  have hsent := sendPending_sent (P := P) s'
  unfold update
  simp only [hs, ↓reduceIte, htake]
  split
  · rename_i s₂ x h₂
    rw [h₂] at hsent
    exact hsent.frame.1.trans hs'
  · rename_i s₂ h₂
    rw [h₂] at hsent
    have hs₂ : s₂.state = .established := hsent.frame.1.trans hs'
    simp only [hs₂, reduceCtorEq, ↓reduceIte]
    obtain h | ⟨_, hne, _⟩ := (checkDeadline_ticked s₂ now).frame.1
    · exact h.trans hs₂
    · exact absurd hs₂ hne

section
variable (hP : ∀ aead key nonce text ad, P.encrypt aead key nonce text ad ≠ [])
include hP

/-- A PDU that does not rouse the session leaves it as it was, the queue apart. -/
theorem takeIncoming_unroused (hr : s.role = .responder)
    (hs : s.state = .expectSessionCompletionRequest)
    (hnot : ∀ der, s.incomingQueue.head? = some der → ¬ s.Rouses P der) :
    (s.takeIncoming P now e).1 = s.popped s.incomingQueue.tail := by
  by_cases hd : ∃ der rest, s.incomingQueue = der :: rest ∧ s.lastReceived = some der
  · -- a duplicate with nothing kept for it
    obtain ⟨der, rest, hq, hd⟩ := hd
    have hsent : s.lastSent = none := by
      by_contra hne
      exact hnot der (by simp [hq]) (.inl ⟨hd, hne⟩)
    rw [takeIncoming_resent hq hd, resend_eq]
    simp [hsent, hq]
  · have ht := takeIncoming_took hP s now e
    generalize (s.takeIncoming P now e).1 = s', (s.takeIncoming P now e).2 = x at ht
    cases ht with
    | idle hq => cases s; simp_all
    | resent hq hdup => exact absurd ⟨_, _, hq, hdup⟩ hd
    | ignored hq | undecoded hq => simp [hq]
    | refused hq _ hc =>
      obtain rfl | ⟨hinit, _⟩ := hc
      · simp [hq]
      · rw [hs] at hinit
        cases hinit
    | completed hq hl hp _ _ hc ho =>
      exact absurd (.inr ⟨fun hdup => hd ⟨_, _, hq, hdup⟩, _, _, _, hl, hc, hp, ho⟩)
        (hnot _ (by simp [hq]))
    | answered _ _ _ hs' | called _ _ _ hs' | confirmed _ _ _ hs' | replied _ _ _ hs'
    | received _ _ _ hs' => exact absurd (hs.symm.trans hs') (by simp)

/-- A responder's TTL is final exactly where the first queued PDU does not rouse it. -/
theorem givenUp_iff {t : Int} (hr : s.role = .responder)
    (hs : s.state = .expectSessionCompletionRequest) (hd : s.deadline = some t) (hle : t ≤ now) :
    s.GivenUp (s.update P now e) ↔ ∀ der, s.incomingQueue.head? = some der → ¬ s.Rouses P der := by
  have hne : s.state ≠ .dropped := by simp [hs]
  constructor
  · intro hgiven der hhead hrouses
    obtain ⟨rest, hq⟩ := List.head?_eq_some_iff.mp hhead
    obtain ⟨hdup, hsent⟩ | ⟨hnew, msg, req, o, hl, hc, hp, ho⟩ := hrouses
    · -- the cached answer goes out before the deadline is looked at
      have htake : s.takeIncoming P now e = ((s.popped rest).resend, none) :=
        takeIncoming_resent hq hdup
      rw [resend_eq] at htake
      obtain ⟨-, hout, -⟩ := hgiven.dropped _ (by rw [update_waited htake hr hne hs hd hle])
      rw [update_waited htake hr hne hs hd hle] at hout
      simp [hsent] at hout
    · -- the session is established before the deadline is looked at
      have htake : s.takeIncoming P now e = (((s.popped rest).opened o).acceptCompletion P req der o
          (s.replyM P o), none) := takeIncoming_completed hr hs hq hnew hl hc hp ho
      exact hgiven.unestablished (update_keeps_established htake hne rfl)
  · intro hnot
    have htake : (s.takeIncoming P now e).1 = s.popped s.incomingQueue.tail :=
      takeIncoming_unroused hP hr hs hnot
    cases hx : (s.takeIncoming P now e).2 with
    | some x =>
      have hraise : s.update P now e = (s.popped s.incomingQueue.tail, .error x) := by
        have hpair : s.takeIncoming P now e = (s.popped s.incomingQueue.tail, some x) :=
          Prod.ext htake hx
        simp only [update, hne, ↓reduceIte, hpair]
      rw [hraise]
      exact ⟨by simp, by simp [hs]⟩
    | none =>
      rw [update_waited (Prod.ext htake hx) hr hne hs hd hle]
      exact ⟨fun _ _ => ⟨rfl, rfl, rfl⟩, by simp⟩

end

end Session

/-! ## Bob's answer is a minute old -/

namespace Dispatcher
open Session KemMake.Ideal

/-- Alice's completion request for Bob's answer. -/
def lateCompletion : Pdu :=
  ((aliceCalling.postPdu ideal bobResponse 1 (draw 2)).1.outgoingPdus.drop 1).headD ideal.noPdu

/-- A completion request with a false start that Alice did not encrypt. -/
def forgedCompletion : SessionCompletionRequest Sym where
  cM := [.octet 0]
  ct4 := ⟨kemAlg (mlkemOid .mlkem768),
    [.encap .mlkem768 [.pub .mlkem768 (draw 1).seed] (draw 2).coins]⟩
  nA := (draw 2).nonce

def forgedCompletionPdu : Pdu :=
  ideal.dump (.build (draw 0).uuid (.sessionCompletionRequest forgedCompletion))

theorem forgedCompletion_unroused :
    ¬ (bobAnswering.postPdu forgedCompletionPdu).Rouses ideal forgedCompletionPdu := by
  rintro (⟨hdup, _⟩ | ⟨_, msg, req, o, hl, _, hp, ho⟩)
  · exact absurd hdup (by decide +kernel)
  · have hload : ideal.load forgedCompletionPdu =
        .ok (.build (draw 0).uuid (.sessionCompletionRequest forgedCompletion)) := by
      decide +kernel
    cases hload.symm.trans hl
    cases hp
    have hfails : ((bobAnswering.postPdu forgedCompletionPdu).openCompletion ideal
        forgedCompletion).isOk = false := by decide +kernel
    rw [ho] at hfails
    cases hfails

/-- A forged completion request in the queue does not keep Bob from giving up. -/
theorem givenUp_forgedCompletion :
    (bobAnswering.postPdu forgedCompletionPdu).incomingQueue = [forgedCompletionPdu] ∧
    (bobAnswering.postPdu forgedCompletionPdu).GivenUp
      ((bobAnswering.postPdu forgedCompletionPdu).update ideal 60 (draw 3)) := by
  have hqueue : (bobAnswering.postPdu forgedCompletionPdu).incomingQueue =
      [forgedCompletionPdu] := by decide +kernel
  have hdeadline : (bobAnswering.postPdu forgedCompletionPdu).deadline = some 60 := by
    decide +kernel
  refine ⟨hqueue, (givenUp_iff Ideal.ideal_correct.encrypt_ne_nil (by decide +kernel)
    (by decide +kernel) hdeadline (Int.le_refl 60)).mpr fun der hder => ?_⟩
  rw [hqueue] at hder
  cases hder
  exact forgedCompletion_unroused

/-- The genuine completion request establishes Bob on the deadline and the accepted request
makes him answer again, where an empty queue has him give up. -/
theorem givenUp_overtaken :
    ((bobAnswering.postPdu lateCompletion).update ideal 60 (draw 3)).1.state = .established ∧
    ((bobAnswering.postPdu lateCompletion).update ideal 60 (draw 3)).2.isOk ∧
    ((bobAnswering.postPdu (aliceCalling.outgoingPdus.headD ideal.noPdu)).update ideal 60
      (draw 3)).1.outgoingPdus = bobAnswering.outgoingPdus ++ [bobResponse] ∧
    (bobAnswering.update ideal 60 (draw 3)).1.state = .dropped := by
  decide +kernel

end Dispatcher

end KemMake
