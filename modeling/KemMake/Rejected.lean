import KemMake.Delivery
import KemMake.Escapes

/-!
# PDUs that leave no trace

A PDU that a handler refuses, or that no handler gets, leaves the session as it was. The
first message of a responder may leave its cid, which an initial responder never reads.
-/

namespace KemMake

variable {β π : Type} {P : Primitives β π}

namespace Session

/-- Malformed, of another cid, or no legal first message; and not the PDU accepted last. -/
def Ignores (P : Primitives β π) (s : Session β π) (der : π) : Prop :=
  s.lastReceived ≠ some der ∧ (∀ x, P.load der = .error x → x.isValueError = true) ∧
    ∀ msg, P.load der = .ok msg →
    (s.state = .initial ∧ s.role = .responder ∧ msg.payload.name ≠ .sessionInitRequest) ∨
      (¬ (s.state = .initial ∧ s.role = .responder) ∧ s.cid ≠ some msg.cid)

/-- The same session, but for a cid that is not read. -/
def Untouched (s s' : Session β π) : Prop :=
  s' = s ∨ s.state = .initial ∧ s.role = .responder ∧ ∃ cid, s' = { s with cid }

theorem Untouched.trans {s s' s'' : Session β π} (h : s.Untouched s') (h' : s'.Untouched s'') :
    s.Untouched s'' := by
  rcases h with rfl | ⟨hs, hr, cid, rfl⟩
  · exact h'
  · rcases h' with rfl | ⟨_, _, cid', rfl⟩
    · exact .inr ⟨hs, hr, cid, rfl⟩
    · exact .inr ⟨hs, hr, cid', rfl⟩

section
variable [DecidableEq β] [DecidableEq π]

/-- The session has dealt with the PDU and not accepted it. -/
def Rejects (P : Primitives β π) (s : Session β π) (der : π) (now : Int) (e : Entropy β) : Prop :=
  s.Ignores P der ∨ ∃ x, (s.processIncoming P der now e).2 = some x

variable {s s' : Session β π} {der : π} {now : Int} {e : Entropy β}

theorem Ignores.processIncoming (h : s.Ignores P der) (now : Int) (e : Entropy β) :
    s.processIncoming P der now e = (s, none) := by
  unfold Session.processIncoming
  rw [if_neg h.1]
  cases hl : P.load der with
  | error x => simp [h.2.1 x hl]
  | ok msg =>
    obtain ⟨hs, hr, hp⟩ | ⟨hno, hc⟩ := h.2.2 msg hl
    · simp only [hs, hr, and_self, ↓reduceIte]
      cases hm : msg.payload with
      | sessionInitRequest req => simp [hm, MakePayload.name] at hp
      | _ => rfl
    · simp only [hno, ↓reduceIte, ne_eq, hc.symm, not_false_eq_true]

variable (hP : ∀ aead key nonce text ad, P.encrypt aead key nonce text ad ≠ [])
include hP

theorem Rejects.untouched (h : s.Rejects P der now e) :
    s.Untouched (s.processIncoming P der now e).1 := by
  obtain h | ⟨x, hx⟩ := h
  · rw [h.processIncoming now e]
    exact .inl rfl
  · -- the session with this PDU alone in its queue takes it
    have ht := takeIncoming_took hP { s with incomingQueue := der :: s.incomingQueue } now e
    change Took P _ now e (s.processIncoming P der now e).1 (s.processIncoming P der now e).2 at ht
    rw [hx] at ht
    generalize (s.processIncoming P der now e).1 = s' at ht
    cases ht with
    | undecoded hq =>
      cases hq
      exact .inl rfl
    | refused hq hl hc =>
      cases hq
      rcases hc with rfl | ⟨hs, hr, _⟩
      · exact .inl rfl
      · exact .inr ⟨hs, hr, _, rfl⟩

omit hP

/-! ## What follows -/

/-- A call, and what `update` returns or raises. -/
def perform (P : Primitives β π) (s : Session β π) :
    Act β π → Session β π × Option (Except PyError (UpdateResult × WithTop Int))
  | .initiate peerKeyId now e => ((s.initiate P peerKeyId now e).1, none)
  | .postPdu der => (s.postPdu der, none)
  | .postPayload payload => ((s.postPayload payload).1, none)
  | .update now e => ((s.update P now e).1, some (s.update P now e).2)
  | .getPdu => (s.getPdu.1, none)
  | .getPayload => (s.getPayload.1, none)

/-- The session after the calls, and what they returned. -/
def performAll (P : Primitives β π) (s : Session β π) :
    List (Act β π) → Session β π × List (Option (Except PyError (UpdateResult × WithTop Int)))
  | [] => (s, [])
  | act :: acts =>
    let (s, answer) := s.perform P act
    let (s, answers) := performAll P s acts
    (s, answer :: answers)

/-- The first message of a responder. -/
theorem processIncoming_initial (hs : s.state = .initial) (hr : s.role = .responder) (der : π)
    (now : Int) (e : Entropy β) : s.processIncoming P der now e =
      if s.lastReceived = some der then (s.resend, none)
      else match P.load der with
        | .error x => (s, if x.isValueError then none else some x)
        | .ok msg =>
          match msg.payload with
          | .sessionInitRequest req =>
            { s with cid := some msg.cid }.handleSessionInitRequest P req der now e
          | _ => (s, none) := by
  unfold processIncoming
  split
  · rfl
  · cases P.load der with
    | error x => rfl
    | ok msg => exact if_pos ⟨hs, hr⟩

/-- An initial responder takes its next PDU whatever its cid. -/
theorem takeIncoming_anyCid (hs : s.state = .initial) (hr : s.role = .responder)
    (cid : Option (List β)) (now : Int) (e : Entropy β) :
    { s with cid }.takeIncoming P now e = s.takeIncoming P now e ∨
      ∃ s₁ x, s.takeIncoming P now e = (s₁, x) ∧
        { s with cid }.takeIncoming P now e = ({ s₁ with cid }, x) ∧
        s₁.state = .initial ∧ s₁.role = .responder := by
  unfold takeIncoming
  cases hq : s.incomingQueue with
  | nil =>
    refine .inr ⟨s, none, rfl, ?_, hs, hr⟩
    simp only [hq]
  | cons der rest =>
    have hrest : (s.popped rest).state = .initial ∧ (s.popped rest).role = .responder := ⟨hs, hr⟩
    have hcid : { s.popped rest with cid }.state = .initial ∧
        { s.popped rest with cid }.role = .responder := ⟨hs, hr⟩
    simp only
    rw [processIncoming_initial hrest.1 hrest.2, processIncoming_initial hcid.1 hcid.2]
    split
    · refine .inr ⟨_, none, rfl, ?_, ?_, ?_⟩
      · simp only [resend_eq]
      · rw [resend_eq]
        exact hs
      · rw [resend_eq]
        exact hr
    · cases P.load der with
      | error x => exact .inr ⟨_, _, rfl, rfl, hs, hr⟩
      | ok msg =>
        cases hm : msg.payload with
        | sessionInitRequest req =>
          left
          simp only [hm]
        | _ =>
          simp only [hm]
          exact .inr ⟨_, none, rfl, rfl, hs, hr⟩

theorem update_anyCid (hs : s.state = .initial) (hr : s.role = .responder)
    (cid : Option (List β)) (now : Int) (e : Entropy β) :
    ({ s with cid }.update P now e).2 = (s.update P now e).2 ∧
      (s.update P now e).1.Untouched ({ s with cid }.update P now e).1 := by
  have hd : s.state ≠ .dropped := by simp [hs]
  have hd' : { s with cid }.state ≠ .dropped := hd
  unfold update
  rw [if_neg hd, if_neg hd']
  obtain heq | ⟨s₁, x, h₁, h₂, hs₁, hr₁⟩ := takeIncoming_anyCid (P := P) hs hr cid now e
  · rw [heq]
    exact ⟨rfl, .inl rfl⟩
  · have hclock : ∀ s : Session β π, s.state = .initial → s.checkDeadline now = s := by
      intro s hs
      unfold checkDeadline
      split <;> simp [hs]
    have hsend : ∀ s : Session β π, s.state = .initial → s.sendPending P = (s, none) := by
      intro s hs
      simp [sendPending, hs]
    have hs₂ : { s₁ with cid }.state = .initial := hs₁
    have hd₁ : s₁.state ≠ .dropped := by simp [hs₁]
    have hd₂ : { s₁ with cid }.state ≠ .dropped := hd₁
    rw [h₁, h₂]
    cases x with
    | some x => exact ⟨rfl, .inr ⟨hs₁, hr₁, cid, rfl⟩⟩
    | none =>
    simp only [hsend s₁ hs₁, hsend _ hs₂, if_neg hd₁, hclock s₁ hs₁, hclock _ hs₂]
    exact ⟨rfl, .inr ⟨hs₁, hr₁, cid, rfl⟩⟩

omit [DecidableEq β] [DecidableEq π] in
theorem getPdu_left (s : Session β π) :
    s.getPdu.1 = { s with outgoingPdus := s.outgoingPdus.tail } := by
  unfold getPdu
  split
  · rename_i h
    cases s
    cases h
    rfl
  · rename_i h
    simp [h]

omit [DecidableEq β] [DecidableEq π] in
theorem getPayload_left (s : Session β π) :
    s.getPayload.1 = { s with outgoingPayloads := s.outgoingPayloads.tail } := by
  unfold getPayload
  split
  · rename_i h
    cases s
    cases h
    rfl
  · rename_i h
    simp [h]

/-- The two cannot be told apart by a call. -/
theorem Untouched.perform (h : s.Untouched s') (act : Act β π) :
    (s'.perform P act).2 = (s.perform P act).2 ∧
      (s.perform P act).1.Untouched (s'.perform P act).1 := by
  rcases h with rfl | ⟨hs, hr, cid, rfl⟩
  · exact ⟨rfl, .inl rfl⟩
  · cases act with
    | initiate peerKeyId now e =>
      have hsame : ∀ s : Session β π, s.role = .responder → (s.initiate P peerKeyId now e).1 = s := by
        intro s hr
        simp [initiate, hr]
      refine ⟨rfl, ?_⟩
      simp only [Session.perform]
      rw [hsame s hr, hsame { s with cid } hr]
      exact .inr ⟨hs, hr, cid, rfl⟩
    | postPdu der => exact ⟨rfl, .inr ⟨hs, hr, cid, rfl⟩⟩
    | postPayload payload =>
      refine ⟨rfl, .inr ⟨?_, ?_, cid, ?_⟩⟩ <;>
        simp only [Session.perform, postPayload_eq, hs, hr]
    | update now e =>
      obtain ⟨heq, hu⟩ := update_anyCid (P := P) hs hr cid now e
      exact ⟨congrArg some heq, hu⟩
    | getPdu =>
      refine ⟨rfl, ?_⟩
      simp only [Session.perform, getPdu_left]
      exact .inr ⟨hs, hr, cid, rfl⟩
    | getPayload =>
      refine ⟨rfl, ?_⟩
      simp only [Session.perform, getPayload_left]
      exact .inr ⟨hs, hr, cid, rfl⟩

theorem Untouched.performAll (h : s.Untouched s') (acts : List (Act β π)) :
    (s'.performAll P acts).2 = (s.performAll P acts).2 ∧
      (s.performAll P acts).1.Untouched (s'.performAll P acts).1 := by
  induction acts generalizing s s' with
  | nil => exact ⟨rfl, h⟩
  | cons act acts ih =>
    obtain ⟨hanswer, hu⟩ := h.perform (P := P) act
    obtain ⟨hanswers, hend⟩ := ih hu
    exact ⟨congrArg₂ List.cons hanswer hanswers, hend⟩

include hP

/-- A PDU that is refused or ignored leaves the session as it was without the PDU, and no
later call can tell. An update that refuses one does nothing else. -/
theorem rejected_no_trace {rest : List π} (hq : s.incomingQueue = der :: rest)
    (h : (s.popped rest).Rejects P der now e) :
    (s.popped rest).Untouched (s.takeIncoming P now e).1 ∧
      (∀ x, s.state ≠ .dropped → (s.takeIncoming P now e).2 = some x →
        s.update P now e = ((s.takeIncoming P now e).1, .error x)) ∧
      ∀ acts, ((s.takeIncoming P now e).1.performAll P acts).2 = ((s.popped rest).performAll P acts).2 ∧
        ((s.popped rest).performAll P acts).1.Untouched
          ((s.takeIncoming P now e).1.performAll P acts).1 := by
  have htake : s.takeIncoming P now e = (s.popped rest).processIncoming P der now e := by
    unfold takeIncoming
    rw [hq]
  have hu : (s.popped rest).Untouched (s.takeIncoming P now e).1 := htake ▸ h.untouched hP
  refine ⟨hu, fun x hd hx => ?_, fun acts => hu.performAll acts⟩
  unfold update
  rw [if_neg hd]
  rcases ht : s.takeIncoming P now e with ⟨s₁, y⟩
  rw [ht] at hx
  cases hx
  rfl

end

/-- A fresh responder with a request whose ct1 does not fit. -/
def asked : Session Sym Pdu :=
  (Session.new .responder none (staticLookup 0) {}).postPdu Dispatcher.missizedRequest

theorem rejected_no_trace_asked :
    ((asked.takeIncoming ideal 0 (draw 2)).1.performAll ideal [.update 1 (draw 3)]).2 =
      ((asked.popped []).performAll ideal [.update 1 (draw 3)]).2 :=
  ((rejected_no_trace Ideal.ideal_correct.encrypt_ne_nil rfl
    (.inr ⟨.valueError, by decide +kernel⟩)).2.2 _).1

end Session

end KemMake
