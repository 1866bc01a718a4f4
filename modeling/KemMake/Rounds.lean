import KemMake.Exchange
import KemMake.Lib.Trials

/-!
# A handshake over a network that loses PDUs

Two sessions of one level, and rounds: the initiator's next copy reaches the responder or not, the
answer to it reaches the initiator or not, and the initiator updates, late enough for its next
resend where it has heard nothing. Each half of the handshake is a task of `Trials`, whose budget
is `max_retries`.
-/

namespace KemMake
open Trials

section
variable {β π : Type}

/-- What becomes of the copies and their answers, with the times and the draws of the updates.
The initiator calls at the time 0, and its update of round `k` is at the time `k + 1`. -/
structure Rounds (β : Type) where
  asked : Nat → Bool
  answered : Nat → Bool
  initiatorTime : Nat → Int
  responderTime : Nat → Int
  called : Entropy β
  initiatorDraw : Nat → Entropy β
  responderDraw : Nat → Entropy β

def Rounds.heard (r : Rounds β) (k : Nat) : Bool := r.asked k && r.answered k

variable [DecidableEq β] [DecidableEq π]

/-- The session after the PDU, and what it puts out. -/
def answer (P : Primitives β π) (s : Session β π) (pdu : π) (now : Int) (e : Entropy β) :
    Session β π × Option π :=
  match ((s.postPdu pdu).update P now e).1.getPdu with
  | (s, .ok reply) => (s, some reply)
  | (s, .error _) => (s, none)

/-- One update of the initiator, after the reply if there is one. -/
def hear (P : Primitives β π) (s : Session β π) (reply : Option π) (now : Int) (e : Entropy β) :
    Session β π :=
  match reply with
  | none => (s.update P now e).1
  | some pdu => ((s.postPdu pdu).update P now e).1

def round (P : Primitives β π) (r : Rounds β) (k : Nat) (ab : Session β π × Session β π) :
    Session β π × Session β π :=
  match ab.1.getPdu with
  | (a, .error _) => (hear P a none (r.initiatorTime (k + 1)) (r.initiatorDraw k), ab.2)
  | (a, .ok pdu) =>
    if r.asked k then
      let (b, reply) := answer P ab.2 pdu (r.responderTime k) (r.responderDraw k)
      (hear P a (if r.answered k then reply else none) (r.initiatorTime (k + 1))
        (r.initiatorDraw k), b)
    else (hear P a none (r.initiatorTime (k + 1)) (r.initiatorDraw k), ab.2)

/-- Two new sessions after `n` rounds. -/
def play (P : Primitives β π) (p : Parties P) (r : Rounds β) : Nat → Session β π × Session β π
  | 0 => (((Session.new .initiator (some p.aliceId) p.aliceKeys p.aliceConfig).initiate P p.bobId
      (r.initiatorTime 0) r.called).1, Session.new .responder none p.bobKeys p.bobConfig)
  | n + 1 => round P r n (play P p r n)

end

/-! ## Updates without a new PDU -/

namespace Session
variable {β π : Type} [DecidableEq β] [DecidableEq π] {P : Primitives β π} {s : Session β π}
  {now : Int} {e : Entropy β}

theorem update_idle (hq : s.incomingQueue = []) (hd : s.state ≠ .dropped)
    (hp : s.state ≠ .established ∨ s.pendingPayload = none) :
    (s.update P now e).1 = s.checkDeadline now := by
  have hsend : s.sendPending P = (s, none) := by
    unfold sendPending
    obtain hp | hp := hp <;> simp [hp]
  simp only [update, hd, ↓reduceIte, takeIncoming, hq, hsend]

/-- The PDU that was accepted last has its reply sent again. -/
theorem update_again {der : π} (reply : π) (hq : s.incomingQueue = []) (hd : s.state ≠ .dropped)
    (hp : s.state ≠ .established ∨ s.pendingPayload = none) (hr : s.lastReceived = some der)
    (hs : s.lastSent = some reply)
    (hnow : ∀ deadline, s.deadline = some deadline → now < deadline) :
    ((s.postPdu der).update P now e).1 =
      { s with outgoingPdus := s.outgoingPdus ++ [reply] } := by
  have hproc : s.processIncoming P der now e =
      ({ s with outgoingPdus := s.outgoingPdus ++ [reply] }, none) := by
    rw [processIncoming, if_pos hr, resend, hs]
  rw [update_of_process hq hd hproc hp hd]
  unfold checkDeadline
  split
  · rfl
  · rename_i deadline hdeadline
    have hlt := hnow deadline hdeadline
    rw [if_neg (by omega)]

omit [DecidableEq β] [DecidableEq π] in
/-- A timeout of the initiator: a resend, or the end. -/
theorem checkDeadline_due (deadline : Int) {der : π} (hr : s.role = .initiator)
    (hdeadline : s.deadline = some deadline) (hdue : deadline ≤ now) (hne : s.state ≠ .established)
    (hni : s.state ≠ .initial) (hs : s.lastSent = some der) :
    s.checkDeadline now =
      if s.attemptCount < s.config.maxRetries.toNat then
        { s with
          attemptCount := s.attemptCount + 1
          deadline := some (now + s.config.retryIntervalSeconds)
          outgoingPdus := s.outgoingPdus ++ [der] }
      else { s with state := .dropped } := by
  have hrole : s.role ≠ .responder := by
    rw [hr]
    decide
  have hcheck : s.checkDeadline now = s.onTimeout now := by
    unfold checkDeadline
    split
    · rename_i hnone
      rw [hdeadline] at hnone
      cases hnone
    · rename_i d hd
      rw [hdeadline] at hd
      cases hd
      exact if_pos ⟨hdue, hne, hni⟩
  rw [hcheck, onTimeout, if_neg hrole]
  by_cases hleft : s.attemptCount < s.config.maxRetries.toNat
  · rw [if_neg (by omega), if_pos hleft, resend]
    simp only [hs]
  · rw [if_pos (by omega), if_neg hleft]

end Session

/-! ## The two sides of a round -/

namespace Encapsulated
variable {β π : Type} {P : Primitives β π} {p : Parties P} {e : Nat → Entropy β}
  (x : Encapsulated p e) (aead : Aead)

/-- The initiator in the second half, as `asking` is in the first. -/
def finishing (t : Int) (failed : Nat) : Session β π :=
  x.waiting t t aead failed (some (t + p.aliceConfig.retryIntervalSeconds)) []

/-- The responder when its confirmation has left. -/
def settled (u : Int) : Session β π := { x.served u aead with outgoingPdus := [] }

/-- The initiator when it has the confirmation. -/
def joined (t : Int) (failed : Nat) : Session β π :=
  (x.finishing aead t failed).acceptReply (x.pdu (.sessionCompletionResponse x.confirmation))

section
variable [DecidableEq β] [DecidableEq π] {t t' u u' : Int}

theorem hear_nothing_asking (failed : Nat) (d : Entropy β)
    (hdue : t + p.aliceConfig.retryIntervalSeconds ≤ t') :
    hear P (x.asking t failed) none t' d =
      if failed < p.aliceConfig.maxRetries.toNat then
        { x.asking t' (failed + 1) with outgoingPdus := [x.pdu (.sessionInitRequest x.request)] }
      else { x.asking t failed with state := .dropped } := by
  rw [hear, Session.update_idle rfl (by simp [asking, calling])
    (.inl (by simp [asking, calling])), Session.checkDeadline_due (t +
      p.aliceConfig.retryIntervalSeconds) rfl rfl hdue (by simp [asking, calling])
      (by simp [asking, calling]) rfl]
  rfl

theorem hear_nothing_finishing (failed : Nat) (d : Entropy β)
    (hdue : t + p.aliceConfig.retryIntervalSeconds ≤ t') :
    hear P (x.finishing aead t failed) none t' d =
      if failed < p.aliceConfig.maxRetries.toNat then
        { x.finishing aead t' (failed + 1) with
          outgoingPdus := [x.pdu (.sessionCompletionRequest (x.completion aead))] }
      else { x.finishing aead t failed with state := .dropped } := by
  have hstate : (x.finishing aead t failed).state = .expectSessionCompletionResponse := rfl
  rw [hear, Session.update_idle rfl (by simp [hstate]) (.inl (by simp [hstate])),
    Session.checkDeadline_due (t + p.aliceConfig.retryIntervalSeconds) rfl rfl hdue
      (by simp [hstate]) (by simp [hstate]) rfl]
  rfl

theorem hear_joined (t' : Int) (failed : Nat) (d : Entropy β) :
    hear P (x.joined aead t failed) none t' d = x.joined aead t failed := by
  have hstate : (x.joined aead t failed).state = .established := rfl
  rw [hear, Session.update_idle rfl (by simp [hstate]) (.inr rfl)]
  rfl

/-- A request that has been answered is answered again. -/
theorem answer_request_again (d : Entropy β)
    (hu : u' < u + p.bobConfig.ttlSeconds) :
    answer P (x.awaiting u aead) (x.pdu (.sessionInitRequest x.request)) u' d =
      (x.awaiting u aead, some (x.pdu (.sessionInitResponse (x.response aead)))) := by
  have hstate : (x.awaiting u aead).state = .expectSessionCompletionRequest := rfl
  have hdeadline : ∀ deadline, (x.awaiting u aead).deadline = some deadline → u' < deadline := by
    rintro _ ⟨⟩
    exact hu
  rw [answer, Session.update_again (x.pdu (.sessionInitResponse (x.response aead))) rfl
    (by simp [hstate]) (.inl (by simp [hstate])) rfl rfl hdeadline]
  rfl

theorem answer_completion_again (u' : Int) (d : Entropy β) :
    answer P (x.settled aead u) (x.pdu (.sessionCompletionRequest (x.completion aead))) u' d =
      (x.settled aead u, some (x.pdu (.sessionCompletionResponse x.confirmation))) := by
  have hstate : (x.settled aead u).state = .established := rfl
  have hdeadline : ∀ deadline, (x.settled aead u).deadline = some deadline → u' < deadline := by
    intro deadline hd
    cases hd
  rw [answer, Session.update_again (x.pdu (.sessionCompletionResponse x.confirmation)) rfl
    (by simp [hstate]) (.inr rfl) rfl rfl hdeadline]
  rfl

variable (hP : P.Correct)
include hP

theorem answer_request (h0 : (e 0).Fits P) (hlevel : p.aliceConfig.kemLevel = p.bob.level)
    (httl : 0 < p.bobConfig.ttlSeconds)
    (ha : chooseAead p.bobConfig.acceptableAeads x.request.acceptableAeads = .ok aead) (u : Int) :
    answer P (Session.new .responder none p.bobKeys p.bobConfig)
        (x.pdu (.sessionInitRequest x.request)) u (e 1) =
      (x.awaiting u aead, some (x.pdu (.sessionInitResponse (x.response aead)))) := by
  rw [answer, update_request hP x h0 u ha, if_pos hlevel, answered_checkDeadline, if_pos httl]
  rfl

theorem answer_completion (h0 : (e 0).Fits P) (h1 : (e 1).Fits P)
    (hlevel : p.bobConfig.kemLevel = p.aliceConfig.kemLevel) (u u' : Int) (d : Entropy β) :
    answer P (x.awaiting u aead) (x.pdu (.sessionCompletionRequest (x.completion aead))) u' d =
      (x.settled aead u, some (x.pdu (.sessionCompletionResponse x.confirmation))) := by
  rw [answer, update_completion hP x aead h0 h1 u u' d, if_pos hlevel]
  rfl

theorem hear_response (h0 : (e 0).Fits P) (hlevel : p.aliceConfig.kemLevel = p.alice.level)
    (hinterval : 0 < p.aliceConfig.retryIntervalSeconds)
    (ha : aead ∈ p.aliceConfig.acceptableAeads) (t t' : Int) (failed : Nat) :
    hear P (x.asking t failed) (some (x.pdu (.sessionInitResponse (x.response aead)))) t' (e 2) =
      { x.finishing aead t' 0 with
        outgoingPdus := [x.pdu (.sessionCompletionRequest (x.completion aead))] } := by
  rw [hear, update_response hP x h0 t t' failed ha, if_pos hlevel]
  have hnow : ¬ (t' ≥ t' + p.aliceConfig.retryIntervalSeconds) := by omega
  have hdeadline : (x.called t t' aead).deadline =
      some (t' + p.aliceConfig.retryIntervalSeconds) := rfl
  simp only [Session.checkDeadline, hdeadline, hnow, false_and, ↓reduceIte]
  rfl

theorem hear_confirmation (h0 : (e 0).Fits P) (t t' : Int) (failed : Nat) (d : Entropy β) :
    hear P (x.finishing aead t failed) (some (x.pdu (.sessionCompletionResponse x.confirmation))) t'
      d = x.joined aead t failed := by
  obtain ⟨result, hupdate⟩ := update_confirmation hP x aead h0 t t t' failed
    (some (t + p.aliceConfig.retryIntervalSeconds)) d
  rw [hear, finishing, hupdate]
  rfl

end

end Encapsulated

/-! ## Simulation -/

section
variable {β π : Type}

/-- The draws have the lengths they have, the responder is never past its TTL, and an initiator
that has heard nothing waits for its deadline. -/
structure Rounds.Regular (P : Primitives β π) (p : Parties P) (r : Rounds β) : Prop where
  called_fits : r.called.Fits P
  drawn_fits : ∀ k, (r.responderDraw k).Fits P
  interval : 0 < p.aliceConfig.retryIntervalSeconds
  prompt : ∀ k l, r.responderTime k < r.responderTime l + p.bobConfig.ttlSeconds
  patient : ∀ k, r.heard k = false →
    r.initiatorTime k + p.aliceConfig.retryIntervalSeconds ≤ r.initiatorTime (k + 1)

/-- The three draws that are used: of the call, of the first request, of the first response. -/
structure Rounds.Drawn (r : Rounds β) (e : Nat → Entropy β) : Prop where
  called : e 0 = r.called
  responder : ∀ k, r.asked k = true → (∀ l < k, r.asked l = false) → e 1 = r.responderDraw k
  initiator : ∀ k, r.heard k = true → (∀ l < k, r.heard l = false) → e 2 = r.initiatorDraw k
  fits : ∃ k, e 1 = r.responderDraw k

/-- The draw of the first round of some kind. -/
theorem exists_first (f : Nat → Bool) (draw : Nat → Entropy β) : ∃ k,
    ∀ l, f l = true → (∀ m < l, f m = false) → draw k = draw l := by
  by_cases h : ∃ k, f k = true
  · refine ⟨Nat.find h, fun l hl hbefore => ?_⟩
    have hle : Nat.find h ≤ l := Nat.find_min' h hl
    by_cases hlt : Nat.find h < l
    · have hno := hbefore _ hlt
      rw [Nat.find_spec h] at hno
      cases hno
    · rw [show Nat.find h = l by omega]
  · exact ⟨0, fun l hl => absurd ⟨l, hl⟩ h⟩

theorem Rounds.exists_drawn (r : Rounds β) : ∃ e, r.Drawn e := by
  obtain ⟨i, hi⟩ := exists_first r.asked r.responderDraw
  obtain ⟨j, hj⟩ := exists_first r.heard r.initiatorDraw
  let e : Nat → Entropy β := fun
    | 0 => r.called
    | 1 => r.responderDraw i
    | _ => r.initiatorDraw j
  exact ⟨e, rfl, hi, hj, i, rfl⟩

variable {P : Primitives β π} {p : Parties P} {e : Nat → Entropy β}

/-- Where the sessions are when the two tasks are where the trials say. -/
def Follows (x : Encapsulated p e) (aead : Aead) (r : Rounds β) (n : Nat) :
    Trials.State → Session β π × Session β π → Prop
  | none, ab => ab.1.state = .dropped ∧ ab.1.outgoingPdus = []
  | some (0, failed), ab =>
    ab.1 = { x.asking (r.initiatorTime n) failed with
      outgoingPdus := [x.pdu (.sessionInitRequest x.request)] } ∧
    (∀ k < n, r.heard k = false) ∧
    (((∀ k < n, r.asked k = false) ∧
        ab.2 = Session.new .responder none p.bobKeys p.bobConfig) ∨
      ∃ k, ab.2 = x.awaiting (r.responderTime k) aead)
  | some (1, failed), ab =>
    ab.1 = { x.finishing aead (r.initiatorTime n) failed with
      outgoingPdus := [x.pdu (.sessionCompletionRequest (x.completion aead))] } ∧
    ∃ k, ab.2 = x.awaiting (r.responderTime k) aead ∨ ab.2 = x.settled aead (r.responderTime k)
  | some (2, _), ab => ∃ t failed u, ab = (x.joined aead t failed, x.settled aead u)
  | some (_ + 3, _), _ => False

theorem Rounds.Drawn.fits_called {r : Rounds β} (hdrawn : r.Drawn e) (hr : r.Regular P p) :
    (e 0).Fits P := by
  rw [hdrawn.called]
  exact hr.called_fits

theorem Rounds.Drawn.fits_responder {r : Rounds β} (hdrawn : r.Drawn e) (hr : r.Regular P p) :
    (e 1).Fits P := by
  obtain ⟨k, hk⟩ := hdrawn.fits
  rw [hk]
  exact hr.drawn_fits k

variable [DecidableEq β] [DecidableEq π] {x : Encapsulated p e} {aead : Aead} {r : Rounds β}
  {n : Nat}

/-- A round with a PDU to send, by what the responder has to say to it. -/
theorem round_sending {a b b' : Session β π} {pdu reply : π} (hidle : a.outgoingPdus = [])
    (hanswer : r.asked n = true →
      answer P b pdu (r.responderTime n) (r.responderDraw n) = (b', some reply)) :
    round P r n ({ a with outgoingPdus := [pdu] }, b) =
      (hear P a (if r.heard n then some reply else none) (r.initiatorTime (n + 1))
        (r.initiatorDraw n), if r.asked n then b' else b) := by
  have hget : ({ a with outgoingPdus := [pdu] } : Session β π).getPdu = (a, .ok pdu) := by
    simp only [Session.getPdu, ← hidle]
  cases hasked : r.asked n with
  | false => simp only [round, hget, hasked, Rounds.heard, Bool.false_and, Bool.false_eq_true,
      ↓reduceIte]
  | true =>
    rw [hasked] at hanswer
    simp only [round, hget, hasked, hanswer rfl, Rounds.heard, Bool.true_and, ↓reduceIte]

/-- A round with nothing to send. -/
theorem round_silent {a b : Session β π} (hidle : a.outgoingPdus = []) :
    round P r n (a, b) = (hear P a none (r.initiatorTime (n + 1)) (r.initiatorDraw n), b) := by
  simp only [round, Session.getPdu, hidle]

theorem round_dropped {a b : Session β π} (hidle : a.outgoingPdus = []) (hd : a.state = .dropped) :
    round P r n (a, b) = (a, b) := by
  rw [round_silent hidle, hear, Session.update_dropped hd]

variable (hP : P.Correct) (hr : r.Regular P p) (hdrawn : r.Drawn e)
include hP hr hdrawn

/-- A round of the first half. -/
theorem follows_asking (hsame : SameLevel P p) (hoffered : aead ∈ p.aliceConfig.acceptableAeads)
    (hchosen : chooseAead p.bobConfig.acceptableAeads x.request.acceptableAeads = .ok aead)
    {failed : Nat} {a b : Session β π} (h : Follows x aead r n (some (0, failed)) (a, b)) :
    Follows x aead r (n + 1)
      (Trials.step 2 p.aliceConfig.maxRetries.toNat (r.heard n) (some (0, failed)))
      (round P r n (a, b)) := by
  obtain ⟨rfl, hunheard, hbob⟩ : a = _ ∧ _ ∧ _ := h
  have h0 := hdrawn.fits_called hr
  have httl : 0 < p.bobConfig.ttlSeconds := by
    have := hr.prompt 0 0
    omega
  obtain ⟨k, hanswer⟩ : ∃ k, r.asked n = true →
      answer P b (x.pdu (.sessionInitRequest x.request)) (r.responderTime n) (r.responderDraw n) =
        (x.awaiting (r.responderTime k) aead,
          some (x.pdu (.sessionInitResponse (x.response aead)))) := by
    obtain ⟨hunasked, rfl⟩ | ⟨k, rfl⟩ : (_ ∧ b = _) ∨ ∃ k, b = _ := hbob
    · refine ⟨n, fun hasked => ?_⟩
      rw [← hdrawn.responder n hasked hunasked]
      exact x.answer_request aead hP h0 hsame.1 httl hchosen _
    · exact ⟨k, fun _ => x.answer_request_again aead _ (hr.prompt n k)⟩
  rw [round_sending rfl hanswer]
  have hbob' : ((∀ k < n + 1, r.asked k = false) ∧
      (if r.asked n then x.awaiting (r.responderTime k) aead else b) =
        Session.new .responder none p.bobKeys p.bobConfig) ∨
      ∃ k', (if r.asked n then x.awaiting (r.responderTime k) aead else b) =
        x.awaiting (r.responderTime k') aead := by
    cases hasked : r.asked n with
    | true => exact .inr ⟨k, rfl⟩
    | false =>
      obtain ⟨hunasked, hb⟩ | hb := hbob
      · refine .inl ⟨fun l hl => ?_, hb⟩
        by_cases heq : l = n
        · rw [heq]
          exact hasked
        · exact hunasked l (by omega)
      · exact .inr hb
  cases hheard : r.heard n with
  | false =>
    have hunheard' : ∀ k < n + 1, r.heard k = false := by
      intro l hl
      by_cases heq : l = n
      · rw [heq]
        exact hheard
      · exact hunheard l (by omega)
    rw [if_neg (by decide), x.hear_nothing_asking failed _ (hr.patient n hheard)]
    by_cases hleft : failed < p.aliceConfig.maxRetries.toNat
    · rw [if_pos hleft, Trials.step_failure (by decide) hleft]
      exact ⟨rfl, hunheard', hbob'⟩
    · rw [if_neg hleft, Trials.step_last (by decide) hleft]
      exact ⟨rfl, rfl⟩
  | true =>
    have hasked : r.asked n = true := by
      simp only [Rounds.heard, Bool.and_eq_true] at hheard
      exact hheard.1
    rw [if_pos rfl, if_pos hasked, ← hdrawn.initiator n hheard hunheard,
      x.hear_response aead hP h0 hsame.2.1 hr.interval hoffered, Trials.step_success (by decide)]
    exact ⟨rfl, k, .inl rfl⟩

/-- A round of the second half. -/
theorem follows_finishing (hsame : SameLevel P p) {failed : Nat} {a b : Session β π}
    (h : Follows x aead r n (some (1, failed)) (a, b)) :
    Follows x aead r (n + 1)
      (Trials.step 2 p.aliceConfig.maxRetries.toNat (r.heard n) (some (1, failed)))
      (round P r n (a, b)) := by
  obtain ⟨rfl, k, hbob⟩ : a = _ ∧ ∃ k, b = _ ∨ b = _ := h
  have h0 := hdrawn.fits_called hr
  have hanswer : r.asked n = true →
      answer P b (x.pdu (.sessionCompletionRequest (x.completion aead))) (r.responderTime n)
        (r.responderDraw n) = (x.settled aead (r.responderTime k),
          some (x.pdu (.sessionCompletionResponse x.confirmation))) := by
    intro _
    obtain rfl | rfl := hbob
    · exact x.answer_completion aead hP h0 (hdrawn.fits_responder hr) hsame.2.2 _ _ _
    · exact x.answer_completion_again aead _ _
  rw [round_sending rfl hanswer]
  cases hheard : r.heard n with
  | false =>
    have hbob' : ∃ k', (if r.asked n then x.settled aead (r.responderTime k) else b) =
        x.awaiting (r.responderTime k') aead ∨
        (if r.asked n then x.settled aead (r.responderTime k) else b) =
          x.settled aead (r.responderTime k') := by
      cases r.asked n with
      | true => exact ⟨k, .inr rfl⟩
      | false => exact ⟨k, hbob⟩
    rw [if_neg (by decide), x.hear_nothing_finishing aead failed _ (hr.patient n hheard)]
    by_cases hleft : failed < p.aliceConfig.maxRetries.toNat
    · rw [if_pos hleft, Trials.step_failure (by decide) hleft]
      exact ⟨rfl, hbob'⟩
    · rw [if_neg hleft, Trials.step_last (by decide) hleft]
      exact ⟨rfl, rfl⟩
  | true =>
    have hasked : r.asked n = true := by
      simp only [Rounds.heard, Bool.and_eq_true] at hheard
      exact hheard.1
    rw [if_pos rfl, if_pos hasked, x.hear_confirmation aead hP h0,
      Trials.step_success (by decide)]
    exact ⟨_, _, _, rfl⟩

theorem follows_round (hsame : SameLevel P p) (hoffered : aead ∈ p.aliceConfig.acceptableAeads)
    (hchosen : chooseAead p.bobConfig.acceptableAeads x.request.acceptableAeads = .ok aead)
    {s : Trials.State} {ab : Session β π × Session β π} (h : Follows x aead r n s ab) :
    Follows x aead r (n + 1) (Trials.step 2 p.aliceConfig.maxRetries.toNat (r.heard n) s)
      (round P r n ab) := by
  match s, h with
  | none, ⟨hdropped, hidle⟩ =>
    rw [show ab = (ab.1, ab.2) from rfl, round_dropped hidle hdropped]
    exact ⟨hdropped, hidle⟩
  | some (0, failed), h => exact follows_asking hP hr hdrawn hsame hoffered hchosen h
  | some (1, failed), h => exact follows_finishing hP hr hdrawn hsame h
  | some (2, failed), ⟨t, failed', u, hab⟩ =>
    rw [hab, round_silent rfl, x.hear_joined, Trials.step_finished]
    exact ⟨t, failed', u, rfl⟩

/-- Where the trials stand after `n` rounds, the two sessions stand. -/
theorem follows_play (hsame : SameLevel P p) (hoffered : aead ∈ p.aliceConfig.acceptableAeads)
    (hchosen : chooseAead p.bobConfig.acceptableAeads x.request.acceptableAeads = .ok aead)
    (n : Nat) :
    Follows x aead r n (Trials.run 2 p.aliceConfig.maxRetries.toNat r.heard n) (play P p r n) := by
  induction n with
  | zero =>
    have hplay : play P p r 0 = ({ x.calling (r.initiatorTime 0) with
        outgoingPdus := [x.pdu (.sessionInitRequest x.request)] },
        Session.new .responder none p.bobKeys p.bobConfig) := by
      rw [play, ← hdrawn.called, initiate_calling hP x]
    rw [hplay]
    exact ⟨rfl, fun k hk => absurd hk (Nat.not_lt_zero k),
      .inl ⟨fun k hk => absurd hk (Nat.not_lt_zero k), rfl⟩⟩
  | succ n ih => exact follows_round hP hr hdrawn hsame hoffered hchosen ih

end

section
variable {β π : Type} {P : Primitives β π} {p : Parties P} {e : Nat → Entropy β}
  {x : Encapsulated p e} {aead : Aead} {r : Rounds β} {n : Nat}

theorem Follows.agreed_iff {s : Trials.State} {ab : Session β π × Session β π}
    (h : Follows x aead r n s ab) : Agreed ab ↔ ∃ failed, s = some (2, failed) := by
  match s, h with
  | none, ⟨hdropped, _⟩ =>
    constructor
    · rintro ⟨hest, _⟩
      rw [hdropped] at hest
      cases hest
    · rintro ⟨_, hs⟩
      cases hs
  | some (0, failed), ⟨ha, _⟩ | some (1, failed), ⟨ha, _⟩ =>
    constructor
    · rintro ⟨hest, _⟩
      rw [ha] at hest
      cases hest
    · rintro ⟨_, hs⟩
      cases hs
  | some (2, failed), ⟨t, failed', u, hab⟩ =>
    rw [hab]
    exact ⟨fun _ => ⟨failed, rfl⟩, fun _ => ⟨rfl, rfl, x.keys aead, rfl, rfl⟩⟩

theorem Follows.dropped_iff {s : Trials.State} {ab : Session β π × Session β π}
    (h : Follows x aead r n s ab) : ab.1.state = .dropped ↔ s = none := by
  match s, h with
  | none, ⟨hdropped, _⟩ => exact ⟨fun _ => rfl, fun _ => hdropped⟩
  | some (0, failed), ⟨ha, _⟩ | some (1, failed), ⟨ha, _⟩ =>
    rw [ha]
    constructor
    · intro hstate
      cases hstate
    · intro hs
      cases hs
  | some (2, failed), ⟨t, failed', u, hab⟩ =>
    rw [hab]
    constructor
    · intro hstate
      cases hstate
    · intro hs
      cases hs

end

/-- Whatever is lost, both ends agree as soon as two rounds have got through, if before that no
more than `max_retries` rounds in a row were lost; otherwise the initiator has given up. -/
theorem survives_loss {β π : Type} [DecidableEq β] [DecidableEq π] {P : Primitives β π}
    (hP : P.Correct) {p : Parties P} (hsame : SameLevel P p) {r : Rounds β} (hr : r.Regular P p)
    (n : Nat) :
    (Agreed (play P p r n) ↔ ∃ j, Finished 2 p.aliceConfig.maxRetries.toNat r.heard n j) ∧
      ((play P p r n).1.state = .dropped ↔
        ∃ k, GivenUp 2 p.aliceConfig.maxRetries.toNat r.heard n k) := by
  obtain ⟨e, hdrawn⟩ := r.exists_drawn
  obtain ⟨x⟩ := encapsulated_exists hP p e
  obtain ⟨aead, hoffered, hchosen⟩ := chosen_exists x
  have hfollows := follows_play hP hr hdrawn hsame hoffered hchosen n
  constructor
  · rw [hfollows.agreed_iff]
    exact run_eq_tasks (by decide)
  · rw [hfollows.dropped_iff]
    exact run_eq_none (by decide)

/-- The first request is lost, and the first confirmation. -/
def twiceLost : Rounds Sym where
  asked k := k != 0
  answered k := k != 2
  initiatorTime k := 5 * k
  responderTime _ := 0
  called := draw 0
  initiatorDraw _ := draw 2
  responderDraw _ := draw 1

theorem twiceLost_regular :
    twiceLost.Regular ideal (sample .mlkem768 .mlkem768 {} {} (by decide)) where
  called_fits := draw_fits 0
  drawn_fits _ := draw_fits 1
  interval := by decide
  prompt _ _ := by
    change (0 : Int) < 0 + 60
    decide
  patient k _ := by
    change 5 * (k : Int) + 5 ≤ 5 * ((k + 1 : Nat) : Int)
    omega

theorem survives_loss_twiceLost :
    (Agreed (play ideal (sample .mlkem768 .mlkem768 {} {} (by decide)) twiceLost 4) ↔
        ∃ j, Finished 2 2 twiceLost.heard 4 j) ∧
      ((play ideal (sample .mlkem768 .mlkem768 {} {} (by decide)) twiceLost 4).1.state = .dropped ↔
        ∃ k, GivenUp 2 2 twiceLost.heard 4 k) :=
  survives_loss Ideal.ideal_correct ⟨rfl, rfl, rfl⟩ twiceLost_regular 4

end KemMake
