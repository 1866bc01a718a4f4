import KemMake.Rejected
import KemMake.Reliable

/-!
# Posting loses nothing but what it overwrites

`post_payload` promises to queue, and keeps one payload: a second one takes the place of the
first. The other loss is a payload that has left its slot when it gets no sequence number.
-/

namespace KemMake

variable {β π : Type} {P : Primitives β π}

namespace Session

/-- The payloads encrypted, followed by the one that waits. -/
def held (P : Primitives β π) (s : Session β π) (log : List (EncryptCall β)) : List (List β) :=
  encrypted P log ++ s.pendingPayload.toList

/-- No duplicate, and `load` raises something else than ValueError or gives a message of this
session that is not the next one. -/
def Refuses (P : Primitives β π) (s : Session β π) (der : π) : Prop :=
  s.lastReceived ≠ some der ∧
    ((∃ x, P.load der = .error x ∧ x.isValueError = false) ∨
      ∃ msg, P.load der = .ok msg ∧ s.cid = some msg.cid ∧ ¬ s.Accepts P msg.payload)

/-- An update would take a payload for which there is no sequence number. -/
def Wastes (P : Primitives β π) (s : Session β π) : Prop :=
  s.Overflows ∧ ∀ der ∈ s.incomingQueue.head?, ¬ s.Refuses P der

variable {s s' : Session β π} {log : List (EncryptCall β)} {now : Int} {e : Entropy β}
  {x : Option PyError}

theorem held_congr (hp : s'.pendingPayload = s.pendingPayload) :
    s'.held P (log ++ []) = s.held P log := by
  rw [held, held, List.append_nil, hp]

/-- The pending payload goes into a call that succeeds. -/
theorem held_spent {calls : List (EncryptCall β)}
    (hcalls : encrypted P calls = s.pendingPayload.toList) (hp : s'.pendingPayload = none) :
    s'.held P (log ++ calls) = s.held P log := by
  rw [held, held, encrypted_append, hcalls, hp, Option.toList_none, List.append_nil]

/-- A call with number 0 succeeds, and only an empty plaintext does not count. -/
theorem encrypted_zero {call : EncryptCall β} (hseq : call.seq = 0) :
    encrypted P [call] = if call.plaintext = [] then [] else [call.plaintext] := by
  have hct : call.result P = .ok (P.encrypt call.aead call.key (firstNonce P call.iv)
      call.plaintext call.ad) := by
    rw [EncryptCall.result, hseq, encrypt_zero]
  rw [encrypted_cons hct]
  exact List.append_nil _

theorem Receptive.filled_toList (hr : s.Receptive log) {payload : List β}
    (hp : s.pendingPayload = some payload) : payload ≠ [] :=
  fun hempty => hr.filled (hempty ▸ hp)

/-- Taking a PDU loses no payload. -/
theorem TookEncrypting.held {calls : List (EncryptCall β)}
    (ht : TookEncrypting P s now e s' x calls) (hr : s.Receptive log) :
    s'.held P (log ++ calls) = s.held P log := by
  cases ht with
  | nothing ht hst =>
    apply held_congr
    cases ht with
    | idle | ignored | undecoded | refused | answered | confirmed | replied => rfl
    | resent => rw [resend_eq]
    | completed _ _ _ hs =>
      have := hst (.inr hs)
      simp [acceptCompletion, hs] at this
    | called _ _ _ hs =>
      have := hst (.inl hs)
      simp [acceptInitResponse, hs] at this
    | received => rw [countReceived_eq]
  | completed =>
    refine held_spent ?_ rfl
    cases hp : s.pendingPayload with
    | none => rfl
    | some payload =>
      refine (encrypted_zero rfl).trans ?_
      exact if_neg (hr.filled_toList hp)
  | called _ _ _ _ _ _ hcall =>
    refine held_spent ((encrypted_zero rfl).trans ?_) rfl
    obtain ⟨call⟩ := completionCall_ok hcall
    have htext := call.plaintext
    cases hp : s.pendingPayload with
    | none => simp [CompletionCall.encrypts, htext, hp]
    | some payload => simp [CompletionCall.encrypts, htext, hp, hr.filled_toList hp]

theorem Ticked.held (hk : Ticked s now s') : s'.held P log = s.held P log := by
  cases hk with
  | idle | dropped => rfl
  | retried =>
    rw [resend_eq]
    rfl

/-- What becomes of the pending payload of an established session. -/
theorem Numbered.pending {payload : List β} (hn : s.Numbered P log) (hs : s.state = .established)
    (hp : s.pendingPayload = some payload) : ∃ call, s.pendingEncrypts = [call] ∧
      call.plaintext = payload ∧ (¬ s.Overflows → ∃ ct, call.result P = .ok ct) ∧
      (s.Overflows → call.result P = .error .overflowError) := by
  obtain ⟨keys, _, hk, _⟩ := hn.coherent.established hs
  obtain ⟨cid, hcalls⟩ := pendingEncrypts_eq hn.coherent hs hp hk
  have hcount : s.sendCount = min log.length seqLimit := hn.counted
  have hover : s.Overflows ↔ seqLimit ≤ log.length := by
    rw [overflows_iff hn.coherent hs]
    simp only [hp, ne_eq, reduceCtorEq, not_false_eq_true, true_and]
    omega
  have hnumber : s.Numbers keys log.length ⟨keys.aeadName, (s.sending keys).1,
      (s.sending keys).2.1, s.sendCount, payload, cid⟩ := ⟨rfl, rfl, rfl, hcount⟩
  obtain ⟨hok, herr⟩ := hnumber.result hn.coherent hk
  refine ⟨_, hcalls, rfl, fun hno => hok ?_, fun ho => herr (hover.mp ho)⟩
  rw [hover] at hno
  omega

theorem pendingEncrypts_idle (hi : s.state ≠ .established ∨ s.pendingPayload = none) :
    s.pendingEncrypts = [] := by
  unfold pendingEncrypts
  obtain hs | hp := hi
  · split <;> simp_all
  · simp [hp]

theorem Sent.pending_none (hs : Sent P s s' x) (hest : s.state = .established) :
    s'.pendingPayload = none := by
  cases hs with
  | idle hi => exact hi.resolve_left fun hne => hne hest
  | failed | message => rfl

/-- Sending loses a payload for want of a sequence number only. -/
theorem Sent.held (hs : Sent P s s' x) (hn : s.Numbered P log) (hr : s.Receptive log)
    (hno : ¬ s.Overflows) : s'.held P (log ++ s.pendingEncrypts) = s.held P log := by
  by_cases hi : s.state = .established ∧ s.pendingPayload ≠ none
  · obtain ⟨hest, hp⟩ := hi
    obtain ⟨payload, hp⟩ := Option.ne_none_iff_exists'.mp hp
    obtain ⟨call, hcalls, htext, hok, _⟩ := hn.pending hest hp
    obtain ⟨ct, hct⟩ := hok hno
    refine held_spent ?_ (hs.pending_none hest)
    rw [hcalls, encrypted_cons hct, htext, hp, if_neg (hr.filled_toList hp)]
    rfl
  · rw [not_and_or, not_not] at hi
    rw [pendingEncrypts_idle hi]
    cases hs with
    | idle => exact held_congr rfl
    | failed hest hp | message hest hp =>
      rcases hi with hi | hi
      · exact absurd hest hi
      · rw [hp] at hi
        cases hi

theorem Sent.held_lost (hs : Sent P s s' x) (hn : s.Numbered P log) (ho : s.Overflows) :
    (s'.held P (log ++ s.pendingEncrypts)).length < (s.held P log).length := by
  obtain ⟨payload, hp⟩ := Option.ne_none_iff_exists'.mp ho.2.1
  obtain ⟨call, hcalls, _, _, herr⟩ := hn.pending ho.1 hp
  have hnone : encrypted P [call] = [] := encrypted_failed (by simpa using ⟨_, herr ho⟩)
  rw [Session.held, Session.held, encrypted_append, hcalls, hnone, hs.pending_none ho.1, hp]
  simp

section
variable [DecidableEq β] [DecidableEq π]

/-- An established session raises on a PDU it refuses and on no other. -/
theorem takeIncoming_none (hc : s.Coherent P) (hs : s.state = .established) (now : Int)
    (e : Entropy β) : (s.takeIncoming P now e).2 = none ↔
      ∀ der ∈ s.incomingQueue.head?, ¬ s.Refuses P der := by
  unfold takeIncoming
  cases hq : s.incomingQueue with
  | nil => simp
  | cons der rest =>
    have hrest : (s.popped rest).Coherent P :=
      ⟨hc.calling, hc.answered, hc.called, hc.established, hc.ivs⟩
    simp only [List.head?_cons, Option.mem_def, Option.some.injEq, forall_eq']
    by_cases hd : s.lastReceived = some der
    · simp [processIncoming, Refuses, hd]
    cases hl : P.load der with
    | error x =>
      cases hx : x.isValueError with
      | false => simp [processIncoming, Refuses, hd, hl, hx]
      | true => simp [processIncoming, Refuses, hd, hl, hx]
    | ok msg =>
      by_cases hcid : s.cid = some msg.cid
      · refine (processIncoming_none (s := s.popped rest) hrest hs hl hcid).trans ?_
        change s.lastReceived = some der ∨ s.Accepts P msg.payload ↔ _
        simp [Refuses, hl, hcid, hd]
      · have hi : (s.popped rest).Ignores P der :=
          ⟨hd, by simp [hl], fun msg' hl' => .inr ⟨by simp [hs], fun hcid' => hcid ?_⟩⟩
        · rw [hi.processIncoming now e]
          simp [Refuses, hl, hcid]
        · rw [hl, Except.ok.injEq] at hl'
          rw [hl']
          exact hcid'

variable (hP : P.Correct)
include hP

/-- An update keeps the payloads, unless it takes one that it cannot send. -/
theorem update_held (hn : s.Numbered P log) (hr : s.Receptive log) (now : Int) (e : Entropy β) :
    (¬ s.Wastes P →
      (s.update P now e).1.held P (log ++ s.encrypts P now e) = s.held P log) ∧
    (s.Wastes P → ((s.update P now e).1.held P (log ++ s.encrypts P now e)).length <
      (s.held P log).length) := by
  unfold update encrypts
  by_cases hd : s.state = .dropped
  · have hno : ¬ s.Wastes P := fun hw => by simpa [hd] using hw.1.1
    simp only [hd, ↓reduceIte, List.append_nil, implies_true, hno, false_implies, and_self]
  simp only [hd, ↓reduceIte]
  have ht := takeIncoming_encrypting hP.encrypt_ne_nil s now e
  have hwaste : s.Wastes P ↔ s.Overflows ∧ (s.takeIncoming P now e).2 = none := by
    refine and_congr_right fun ho => ?_
    exact (takeIncoming_none hn.coherent ho.1 now e).symm
  rw [hwaste]
  rcases hs₁ : s.takeIncoming P now e with ⟨s₁, _ | x⟩
  · rw [hs₁] at ht
    have hover := ht.took.overflows hn.coherent
    have hn₁ := hn.took hP ht
    have hr₁ := hr.took ht hn
    have hsent := sendPending_sent (P := P) s₁
    simp only [and_true, ← hover, ← ht.held hr]
    rw [← List.append_assoc]
    have hkept : ∀ s₂ x, Sent P s₁ s₂ x → ∀ s₃ : Session β π, s₃.pendingPayload = s₂.pendingPayload →
        (¬ s₁.Overflows → s₃.held P (log ++ s.takenEncrypts P e ++ s₁.pendingEncrypts) =
          s₁.held P (log ++ s.takenEncrypts P e)) ∧
        (s₁.Overflows → (s₃.held P (log ++ s.takenEncrypts P e ++ s₁.pendingEncrypts)).length <
          (s₁.held P (log ++ s.takenEncrypts P e)).length) := by
      intro s₂ x hs s₃ hp
      have hsame : s₃.held P (log ++ s.takenEncrypts P e ++ s₁.pendingEncrypts) =
          s₂.held P (log ++ s.takenEncrypts P e ++ s₁.pendingEncrypts) := by
        rw [Session.held, Session.held, hp]
      rw [hsame]
      exact ⟨hs.held hn₁ hr₁, hs.held_lost hn₁⟩
    rcases hs₂ : s₁.sendPending P with ⟨s₂, _ | x⟩
    · rw [hs₂] at hsent
      simp only
      split
      · exact hkept s₂ none hsent s₂ rfl
      · refine hkept s₂ none hsent _ ?_
        have hk := checkDeadline_ticked s₂ now
        generalize s₂.checkDeadline now = s₃ at hk
        cases hk with
        | idle | dropped => rfl
        | retried => rw [resend_eq]
    · rw [hs₂] at hsent
      exact hkept s₂ (some x) hsent s₂ rfl
  · rw [hs₁] at ht
    simp only [reduceCtorEq, and_false, not_false_eq_true, true_implies, false_implies, and_true]
    exact ht.held hr

end

end Session

/-! ## Runs -/

namespace End

/-- The payloads of this end that are encrypted or wait. -/
def held (P : Primitives β π) (x : End β π) : List (List β) := x.session.held P x.log

section
variable [DecidableEq β] [DecidableEq π]

/-- A post over a payload that waits, or an update that takes one it cannot send. -/
def Loses (P : Primitives β π) (x : End β π) : Act β π → Prop
  | .postPayload payload => payload ≠ [] ∧ x.session.pendingPayload ≠ none
  | .update _ _ => x.session.Wastes P
  | _ => False

def acts (P : Primitives β π) (x : End β π) : List (Act β π) → End β π
  | [] => x
  | a :: rest => (x.act P a).acts P rest

/-- No call of the run loses a payload. -/
def Faultless (P : Primitives β π) (x : End β π) : List (Act β π) → Prop
  | [] => True
  | a :: rest => ¬ x.Loses P a ∧ (x.act P a).Faultless P rest

/-- A session from which a run starts: what it holds counts as posted. -/
def resume (P : Primitives β π) (s : Session β π) (log : List (EncryptCall β)) : End β π :=
  { session := s, log, posted := s.held P log }

variable {x : End β π}

theorem act_logged (hl : x.session.Logged P x.log) (a : Act β π) :
    (x.act P a).session.Logged P (x.act P a).log := by
  cases a with
  | initiate peerKeyId now e => exact hl.initiate peerKeyId now e
  | postPdu der => exact hl.postPdu der
  | postPayload payload => exact hl.postPayload payload
  | update now e => exact hl.update now e
  | getPdu => exact hl.getPdu
  | getPayload => exact hl.getPayload

omit [DecidableEq β] [DecidableEq π] in
theorem held_congr {y : End β π} (hlog : y.log = x.log)
    (hp : y.session.pendingPayload = x.session.pendingPayload) : y.held P = x.held P := by
  rw [held, held, Session.held, Session.held, hlog, hp]

/-- One call. -/
theorem act_held (hP : P.Correct) (hl : x.session.Logged P x.log) (a : Act β π) :
    ∃ more, (x.act P a).posted = x.posted ++ more ∧
      (¬ x.Loses P a → (x.act P a).held P = x.held P ++ more) ∧
      (x.Loses P a → ((x.act P a).held P).length < (x.held P).length + more.length) := by
  -- a call that neither posts nor encrypts
  have hsame : (x.act P a).posted = x.posted → ¬ x.Loses P a →
      (x.act P a).held P = x.held P → ∃ more, (x.act P a).posted = x.posted ++ more ∧
        (¬ x.Loses P a → (x.act P a).held P = x.held P ++ more) ∧
        (x.Loses P a → ((x.act P a).held P).length < (x.held P).length + more.length) := by
    intro hpost hno hheld
    exact ⟨[], by simp [hpost], fun _ => by simp [hheld], fun h => absurd h hno⟩
  cases a with
  | initiate peerKeyId now e =>
    refine hsame rfl id (held_congr rfl ?_)
    have hi := (initiate_inbound (P := P) x.session peerKeyId now e).1
    simp only [Session.inbound, Prod.mk.injEq] at hi
    exact hi.2.2.2
  | postPdu der => exact hsame rfl id (held_congr rfl rfl)
  | getPdu =>
    refine hsame rfl id (held_congr rfl ?_)
    simp only [act, Session.getPdu]
    split <;> rfl
  | getPayload =>
    refine hsame rfl id (held_congr rfl ?_)
    simp only [act, Session.getPayload]
    split <;> rfl
  | postPayload payload =>
    by_cases hempty : payload = []
    · refine hsame ?_ (fun h => h.1 hempty) (held_congr rfl ?_)
      · simp [act, hempty]
      · simp [act, Session.postPayload_eq, hempty]
    · have hheld : (x.act P (.postPayload payload)).held P = encrypted P x.log ++ [payload] := by
        simp [held, Session.held, act, Session.postPayload_eq, hempty]
      refine ⟨[payload], by simp [act, hempty], fun hno => ?_, fun h => ?_⟩
      · have hp : x.session.pendingPayload = none := by
          by_contra hp
          exact hno ⟨hempty, hp⟩
        rw [hheld, held, Session.held, hp, Option.toList_none, List.append_nil]
      · obtain ⟨old, hp⟩ := Option.ne_none_iff_exists'.mp h.2
        rw [hheld, held, Session.held, hp]
        simp
  | update now e =>
    obtain ⟨hkept, hlost⟩ := x.session.update_held hP (hl.numbered hP) (hl.receptive hP) now e
    refine ⟨[], by simp [act], fun hno => ?_, fun h => ?_⟩
    · rw [List.append_nil]
      exact hkept hno
    · exact hlost h

/-- A run of calls. -/
theorem acts_held (hP : P.Correct) (hl : x.session.Logged P x.log) (as : List (Act β π)) :
    ∃ more, (x.acts P as).posted = x.posted ++ more ∧
      (x.Faultless P as → (x.acts P as).held P = x.held P ++ more) ∧
      (¬ x.Faultless P as → ((x.acts P as).held P).length < (x.held P).length + more.length) := by
  induction as generalizing x with
  | nil => exact ⟨[], by simp [acts], fun _ => by simp [acts], fun h => absurd trivial h⟩
  | cons a rest ih =>
    obtain ⟨first, hpost, hkept, hlost⟩ := act_held hP hl a
    obtain ⟨more, hposts, hkepts, hlosts⟩ := ih (act_logged hl a)
    have hfirst : ((x.act P a).held P).length ≤ (x.held P).length + first.length := by
      by_cases h : x.Loses P a
      · exact (hlost h).le
      · rw [hkept h, List.length_append]
    have hrest : (((x.act P a).acts P rest).held P).length ≤
        ((x.act P a).held P).length + more.length := by
      by_cases h : (x.act P a).Faultless P rest
      · rw [hkepts h, List.length_append]
      · exact (hlosts h).le
    refine ⟨first ++ more, ?_, fun h => ?_, fun h => ?_⟩
    · rw [acts, hposts, hpost, List.append_assoc]
    · rw [acts, hkepts h.2, hkept h.1, List.append_assoc]
    · rw [acts, List.length_append]
      by_cases hloses : x.Loses P a
      · have := hlost hloses
        omega
      · have := hlosts fun hrest => h ⟨hloses, hrest⟩
        omega

end

end End

/-- From whatever state a session has reached, the payloads that it has encrypted and those
it still holds are the payloads posted, in order, if and only if no call loses one. -/
theorem posted_held [DecidableEq β] [DecidableEq π] (hP : P.Correct) {s : Session β π}
    {log : List (EncryptCall β)} (hl : s.Logged P log) (as : List (Act β π)) :
    ((End.resume P s log).acts P as).held P = ((End.resume P s log).acts P as).posted ↔
      (End.resume P s log).Faultless P as := by
  have hl : (End.resume P s log).session.Logged P (End.resume P s log).log := hl
  obtain ⟨more, hpost, hkept, hlost⟩ := End.acts_held hP hl as
  have hstart : (End.resume P s log).posted = (End.resume P s log).held P := rfl
  rw [hpost, hstart]
  constructor
  · intro heq
    by_contra h
    have := hlost h
    rw [heq, List.length_append] at this
    omega
  · exact hkept

/-- Two posts to a fresh session: the first payload is neither sent nor kept. -/
theorem posted_overwritten :
    (Session.new .responder none (staticLookup 1) {} : Session Sym Pdu).Logged ideal [] ∧
    (Session.new .responder none (staticLookup 1) {} : Session Sym Pdu).state ≠ .dropped ∧
    let x := (End.resume ideal (Session.new .responder none (staticLookup 1) {}) []).acts ideal
      [.postPayload [.octet 1], .postPayload [.octet 2]]
    x.posted = [[.octet 1], [.octet 2]] ∧ x.held ideal = [[.octet 2]] := by
  refine ⟨.new _ _ _ _, ?_, ?_, ?_⟩ <;> decide +kernel

/-- A payload goes with the completion request, and the next one is posted after it. -/
theorem posted_held_caller :
    let x := (End.resume ideal caller.session []).acts ideal
      [.postPdu answering.last, .update 0 (draw 2), .postPayload [.octet 3]]
    x.held ideal = x.posted := by
  refine (posted_held Ideal.ideal_correct caller_fresh.logged _).mpr ?_
  refine ⟨id, fun hwaste => ?_, fun hlost => ?_, trivial⟩
  · have hstate : (caller.session.postPdu answering.last).state ≠ .established := by
      decide +kernel
    exact hstate hwaste.1.1
  · have hnone : ((caller.session.postPdu answering.last).update ideal 0
        (draw 2)).1.pendingPayload = none := by
      decide +kernel
    exact hlost.2 hnone

end KemMake
