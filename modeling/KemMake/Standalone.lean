import KemMake.Draining
import KemMake.Escapes

/-!
# The responder side and a session on its own

A dispatcher that is called under one cid, and beside it a responder session that is given
the same PDUs, payloads and updates, its exceptions swallowed and its queues read out after
each call. Until the session's own time is up, both put out the same, unless the store's
clock takes the dispatcher's session away first or an exception keeps it from being drained.
-/

namespace KemMake

/-- A session and what has been read out of its queues. -/
structure Bare (β π : Type) where
  session : Session β π
  pdus : List π := []
  payloads : List (List β) := []

/-- A call to either of the two. -/
inductive Stimulus (β π : Type) where
  | postPdu (der : π) (now : Int) (e : Entropy β)
  | postPayload (payload : List β) (now : Int)
  | update (now : Int) (e : Entropy β)

namespace Stimulus
variable {β π : Type}

def now : Stimulus β π → Int
  | postPdu _ now _ => now
  | postPayload _ now => now
  | update now _ => now

/-- The call to the dispatcher. -/
def toOp (c : List β) : Stimulus β π → Dispatcher.Op β π
  | postPdu der now e => .postPdu der now e
  | postPayload payload _ => .postPayload c payload
  | update now e => .update now e

end Stimulus

namespace Bare
variable {β π : Type}

/-- `Session(Role.RESPONDER, None, key_lookup, config)` -/
def new (keys : KeyLookup β) (config : SessionConfig) : Bare β π :=
  { session := .new .responder none keys config }

/-- `get_pdu` and `get_payload` until nothing is left. -/
def readOut (b : Bare β π) (s : Session β π) : Bare β π :=
  { session := s.drained
    pdus := b.pdus ++ s.outgoingPdus
    payloads := b.payloads ++ s.outgoingPayloads }

def perform [DecidableEq β] [DecidableEq π] (P : Primitives β π) (b : Bare β π) :
    Stimulus β π → Bare β π
  | .postPdu der now e => b.readOut ((b.session.postPdu der).update P now e).1
  | .postPayload payload _ => b.readOut (b.session.postPayload payload).1
  | .update now e => b.readOut (b.session.update P now e).1

/-- Its own TTL has passed. -/
def Expired (b : Bare β π) (now : Int) : Prop :=
  ∃ deadline, b.session.deadline = some deadline ∧ deadline ≤ now

end Bare

namespace Session
variable {β π : Type} {P : Primitives β π}

/-! ## A session that nothing has been accepted in -/

/-- A new responder session, or one whose first requests have failed. -/
def blank (keys : KeyLookup β) (config : SessionConfig) (cid : Option (List β)) : Session β π :=
  { new .responder none keys config with cid }

section
variable [DecidableEq β] [DecidableEq π] {keys : KeyLookup β} {config : SessionConfig}
  {cid : Option (List β)} {der : π} {msg : MakeMessage β} {now : Int} {e : Entropy β}

/-- Whatever was tried before, a first request is handled as if it were the first. -/
theorem update_first {req : SessionInitRequest β} (hl : P.load der = .ok msg)
    (hp : msg.payload = .sessionInitRequest req) :
    ((blank keys config cid).postPdu der).update P now e =
      match (blank keys config (some msg.cid)).initReply P req e with
      | .error x => (blank keys config (some msg.cid), .error x)
      | .ok r =>
        let s := ((blank keys config (some msg.cid)).acceptInitRequest req der now e r).checkDeadline now
        (s, .ok (s.updateResult now)) := by
  have hfirst : (blank keys config cid).processIncoming P der now e =
      (blank keys config (some msg.cid)).handleSessionInitRequest P req der now e :=
    processIncoming_first (by simp [blank, new]) hl rfl rfl hp
  have hd : (blank keys config cid : Session β π).state ≠ .dropped := by simp [blank, new]
  cases hr : (blank keys config (some msg.cid) : Session β π).initReply P req e with
  | error x =>
    have hraise : (blank keys config cid).processIncoming P der now e =
        (blank keys config (some msg.cid), some x) := by
      rw [hfirst, handleSessionInitRequest, hr]
    exact update_of_raise rfl hd hraise
  | ok r =>
    have hok : (blank keys config cid).processIncoming P der now e =
        ((blank keys config (some msg.cid)).acceptInitRequest req der now e r, none) := by
      rw [hfirst, handleSessionInitRequest, hr]
    exact update_of_process rfl hd hok (.inl (by simp [acceptInitRequest]))
      (by simp [acceptInitRequest])

/-- Any other PDU is ignored. -/
theorem update_ignored (hl : P.load der = .ok msg)
    (hp : ∀ req, msg.payload ≠ .sessionInitRequest req) :
    (((blank keys config cid).postPdu der).update P now e).1 = blank keys config cid := by
  have hd : (blank keys config cid : Session β π).state ≠ .dropped := by simp [blank, new]
  have hnone : (blank keys config cid).processIncoming P der now e = (blank keys config cid, none) := by
    have hf : (blank keys config cid : Session β π).state = .initial ∧
        (blank keys config cid : Session β π).role = .responder := ⟨rfl, rfl⟩
    have hlast : (blank keys config cid : Session β π).lastReceived ≠ some der := by
      simp [blank, new]
    simp only [processIncoming, hlast, ↓reduceIte, hl, hf, and_self]
  rw [update_of_process rfl hd hnone (.inl (by simp [blank, new])) hd]
  rfl

/-! ## Updates of a responder -/

variable {s : Session β π}

/-- Between its answer and its deadline a session only waits. -/
theorem update_waiting (hq : s.incomingQueue = []) (hs : s.state ≠ .established)
    (hd : s.state ≠ .dropped) (hnow : ∀ deadline, s.deadline = some deadline → now < deadline) :
    s.update P now e = (s, .ok (s.updateResult now)) := by
  have htake : s.takeIncoming P now e = (s, none) := by
    simp only [takeIncoming, hq]
  have hsend : s.sendPending P = (s, none) := by
    simp only [sendPending, hs, ↓reduceIte]
  have hcheck : s.checkDeadline now = s := by
    unfold checkDeadline
    split
    · rfl
    · rename_i deadline hdl
      have hlt := hnow deadline hdl
      rw [if_neg (by omega)]
  simp only [update, hd, ↓reduceIte, htake, hsend, hcheck]

omit [DecidableEq β] [DecidableEq π] in
theorem checkDeadline_dropped {s : Session β π} (hr : s.role = .responder) (hd : s.state ≠ .dropped)
    (h : (s.checkDeadline now).state = .dropped) :
    ∃ deadline, (s.checkDeadline now).deadline = some deadline ∧ deadline ≤ now := by
  cases hdl : s.deadline with
  | none =>
    simp only [checkDeadline, hdl] at h
    exact absurd h hd
  | some deadline =>
    by_cases hlate : now ≥ deadline ∧ s.state ≠ .established ∧ s.state ≠ .initial
    · have hcheck : s.checkDeadline now = { s with state := .dropped } := by
        simp only [checkDeadline, hdl, if_pos hlate, onTimeout, hr, ↓reduceIte]
      rw [hcheck]
      exact ⟨deadline, hdl, hlate.1⟩
    · simp only [checkDeadline, hdl, if_neg hlate] at h
      exact absurd h hd

/-- Only the deadline drops a responder. -/
theorem dropped_expired (hP : ∀ aead key nonce text ad, P.encrypt aead key nonce text ad ≠ [])
    (hr : s.role = .responder) (hd : s.state ≠ .dropped)
    (h : (s.update P now e).1.state = .dropped) :
    ∃ deadline, (s.update P now e).1.deadline = some deadline ∧ deadline ≤ now := by
  have ht := takeIncoming_took hP s now e
  have hs₁ : (s.takeIncoming P now e).1.state ≠ .dropped := by
    cases ht.advances with
    | stays hs => exact hs ▸ hd
    | answers _ _ hs | completes _ hs | calls _ hs | confirms _ _ _ _ hs => simp [hs]
  have hr₁ : (s.takeIncoming P now e).1.role = .responder := by
    have hid := ht.identity
    simp only [identity, Prod.mk.injEq] at hid
    exact hid.1.trans hr
  unfold update at h ⊢
  rw [if_neg hd] at h ⊢
  rcases htake : s.takeIncoming P now e with ⟨s₁, _ | x⟩
  · rw [htake] at h hs₁ hr₁
    have hsent := sendPending_sent (P := P) s₁
    rcases hsend : s₁.sendPending P with ⟨s₂, _ | x⟩
    · rw [hsend] at hsent
      have hs₂ : s₂.state ≠ .dropped := fun hs => hs₁ (hsent.frame.1.symm.trans hs)
      have hr₂ : s₂.role = .responder := by
        have hid := hsent.identity
        simp only [identity, Prod.mk.injEq] at hid
        exact hid.1.trans hr₁
      simp only [hsend, if_neg hs₂] at h ⊢
      exact checkDeadline_dropped hr₂ hs₂ h
    · rw [hsend] at hsent
      simp only [hsend] at h
      exact absurd (hsent.frame.1.symm.trans h) hs₁
  · rw [htake] at h hs₁
    exact absurd h hs₁

/-- The PDU accepted last was no response. -/
def Answering (P : Primitives β π) (s : Session β π) : Prop :=
  s.role = .responder ∧ ∀ der msg resp, s.lastReceived = some der → P.load der = .ok msg →
    msg.payload ≠ .sessionInitResponse resp

omit [DecidableEq β] [DecidableEq π] in
theorem Took.answering {s' : Session β π} {x : Option PyError} (ht : Took P s now e s' x)
    (h : s.Answering P) : s'.Answering P := by
  have hid := ht.identity
  simp only [Session.identity, Prod.mk.injEq] at hid
  refine ⟨hid.1.trans h.1, ?_⟩
  cases ht with
  | idle | ignored | undecoded | refused => exact h.2
  | resent =>
    rw [resend_eq]
    exact h.2
  | received =>
    rw [countReceived_eq]
    exact h.2
  | answered _ hl hp | completed _ hl hp =>
    intro der' msg' resp hlast hl'
    cases hlast
    rw [hl] at hl'
    cases hl'
    rw [hp]
    intro h
    cases h
  | called _ _ _ _ hr | confirmed _ _ _ _ hr | replied _ _ _ _ hr =>
    rw [h.1] at hr
    cases hr

theorem Answering.update (hP : ∀ aead key nonce text ad, P.encrypt aead key nonce text ad ≠ [])
    (h : s.Answering P) : (s.update P now e).1.Answering P := by
  refine update_preserves hP (fun _ _ ht => ht.answering) (fun s₁ s₂ x hs h₁ => ?_)
    (fun s₁ s₂ hk h₁ => ?_) h
  · have hid := hs.identity
    simp only [identity, Prod.mk.injEq] at hid
    refine ⟨hid.1.trans h₁.1, ?_⟩
    cases hs with
    | idle | failed => exact h₁.2
    | message =>
      rw [countSent_eq]
      exact h₁.2
  · have hid := hk.identity
    simp only [identity, Prod.mk.injEq] at hid
    refine ⟨hid.1.trans h₁.1, ?_⟩
    cases hk with
    | idle | dropped => exact h₁.2
    | retried =>
      rw [resend_eq]
      exact h₁.2

omit [DecidableEq β] [DecidableEq π] in
theorem Answering.postPdu (h : s.Answering P) (der : π) : (s.postPdu der).Answering P := h

/-- With nothing to take, a session that raises has nothing new to be read out. -/
theorem still_of_idle (hP : P.Correct) (h : s.Coherent P) (hq : s.incomingQueue = []) (hquiet : s.Still)
    {x : PyError} (hx : (s.update P now e).2 = .error x) : (s.update P now e).1.Still := by
  refine still_of_error hP h hquiet hx fun _ _ => ?_
  simp only [takeIncoming, hq]
  exact hquiet

/-- A responder that waits for its completion takes no response. -/
theorem update_stray {resp : SessionInitResponse β} (h : s.Answering P) (hq : s.incomingQueue = [])
    (hi : s.state ≠ .initial) (hd : s.state ≠ .dropped) (he : s.state ≠ .established)
    (hc : s.cid = some msg.cid) (hl : P.load der = .ok msg)
    (hp : msg.payload = .sessionInitResponse resp) : ((s.postPdu der).update P now e).1 = s := by
  have hlast : s.lastReceived ≠ some der := fun hlast => h.2 der msg resp hlast hl hp
  have hraise : ∃ x, s.processIncoming P der now e = (s, some x) := by
    rw [processIncoming_dispatch hlast hl hi hc, hp]
    cases hs : s.state with
    | initial => exact absurd hs hi
    | dropped => exact absurd hs hd
    | established => exact absurd hs he
    | expectSessionInitResponse | expectSessionCompletionRequest
    | expectSessionCompletionResponse =>
      simp only [dispatch, hs, h.1]
      exact ⟨_, rfl⟩
  obtain ⟨x, hraise⟩ := hraise
  rw [update_of_raise hq hd hraise]

/-- What the dispatcher relies on in the outcome of an update of a responder session. -/
structure Workable (P : Primitives β π) (keys : KeyLookup β) (config : SessionConfig) (now : Int)
    {ρ : Type} (u : Session β π × Except PyError ρ) : Prop where
  heard : u.1.Answering P
  quiet : ∀ x, u.2 = .error x → x.caught = false → u.1.Still
  dropped : u.1.state = .dropped → ∃ deadline, u.1.deadline = some deadline ∧ deadline ≤ now
  blank : u.1.state = .initial → ∃ cid, u.1 = .blank keys config cid

omit [DecidableEq β] [DecidableEq π] in
theorem answering_blank (cid : Option (List β)) :
    (blank keys config cid : Session β π).Answering P :=
  ⟨rfl, fun _ _ _ h => nomatch h⟩

theorem workable_first (hP : P.Correct) {req : SessionInitRequest β} (hl : P.load der = .ok msg)
    (hp : msg.payload = .sessionInitRequest req) :
    Workable P keys config now (((blank keys config cid).postPdu der).update P now e) where
  heard := ((answering_blank cid).postPdu der).update hP.encrypt_ne_nil
  quiet x hx _ := by
    rw [update_first hl hp] at hx ⊢
    split
    · exact ⟨rfl, rfl⟩
    · rename_i r hr
      rw [hr] at hx
      cases hx
  dropped := dropped_expired hP.encrypt_ne_nil rfl (by simp [postPdu, Session.blank, new])
  blank hi := by
    rw [update_first hl hp] at hi ⊢
    split
    · exact ⟨_, rfl⟩
    · rename_i r hr
      rw [hr] at hi
      exfalso
      rcases (checkDeadline_ticked ((Session.blank keys config (some msg.cid)).acceptInitRequest
        req der now e r) now).frame.1 with hs | ⟨hs, _⟩
      · cases hs.symm.trans hi
      · cases hs.symm.trans hi

theorem workable_pending (hP : P.Correct) (h : s.Coherent P) (hr : s.Answering P)
    (hq : s.incomingQueue = []) (hquiet : s.Still) (hd : s.state ≠ .dropped)
    (he : s.state ≠ .established) (hb : s.state = .initial → ∃ cid, s = .blank keys config cid)
    (hname : s.state ≠ .initial → s.cid = some msg.cid) (hl : P.load der = .ok msg) :
    Workable P keys config now ((s.postPdu der).update P now e) := by
  by_cases hi : s.state = .initial
  · obtain ⟨cid, rfl⟩ := hb hi
    by_cases hp : ∃ req, msg.payload = .sessionInitRequest req
    · obtain ⟨req, hp⟩ := hp
      exact workable_first hP hl hp
    · have hu : (((blank keys config cid).postPdu der).update P now e).1 = blank keys config cid :=
        update_ignored hl fun req hreq => hp ⟨req, hreq⟩
      refine ⟨?_, fun _ _ _ => ?_, fun hs => ?_, fun _ => ⟨cid, hu⟩⟩
      · rw [hu]
        exact answering_blank cid
      · rw [hu]
        exact ⟨rfl, rfl⟩
      · rw [hu] at hs
        cases hs
  · refine ⟨(hr.postPdu der).update hP.encrypt_ne_nil, fun x hx _ => ?_,
      dropped_expired hP.encrypt_ne_nil hr.1 hd, fun hs => ?_⟩
    · exact still_of_delivery hP h (.inl hq) hl hquiet (fun ho => he ho.1.1) hx
    · have hi' : (s.postPdu der).state ≠ .initial := hi
      exact absurd hs (Dispatcher.update_not_initial hP hi')

end

end Session

namespace Dispatcher
open CandidateStore
variable {β π : Type} [DecidableEq β]

/-! ## Calls under one cid -/

/-- PDUs of the cid while no cap is reached, payloads once its session has answered, and
updates. -/
def Addressed (P : Primitives β π) (c : List β) (d : Dispatcher β π) : Stimulus β π → Prop
  | .postPdu der now _ => (∃ msg, P.load der = .ok msg ∧ msg.cid = c) ∧ d.candidates.Admits c now
  | .postPayload _ _ => ∃ s, (d.established.get? c = some s ∨ d.responderSessions.get? c = some s) ∧
      s.state ≠ .initial
  | .update _ _ => True

/-- An update finds the store's entry of a session that has answered, and no PDU is taken by a
session that has output from it and cannot send the payload it holds. -/
def Undisturbed (P : Primitives β π) (c : List β) (d : Dispatcher β π) : Stimulus β π → Prop
  | .postPdu der _ _ => ∀ s msg, d.established.get? c = some s → P.load der = .ok msg →
      ¬ s.Strands P der msg.payload
  | .postPayload _ _ => True
  | .update now _ => ∀ s, d.responderSessions.get? c = some s → s.state ≠ .initial →
      d.live now c ≠ 0

/-- A dispatcher and a session that are given the same, at times that do not decrease, until
the session's TTL passes. -/
inductive Matched [DecidableEq π] (P : Primitives β π) (ok : Dispatcher β π → Stimulus β π → Prop)
    (keys : KeyLookup β) (config : SessionConfig) (c : List β) :
    Dispatcher β π → Bare β π → Int → Prop
  | start (now) : Matched P ok keys config c (.new keys config {}) (.new keys config) now
  | step {d b last} {x : Stimulus β π} : Matched P ok keys config c d b last → last ≤ x.now →
      ¬ b.Expired x.now → Addressed P c d x → ok d x →
      Matched P ok keys config c (d.step P (x.toOp c)) (b.perform P x) x.now

/-- No other cid holds anything, and none was initiated. -/
structure Alone (c : List β) (d : Dispatcher β π) : Prop where
  established : ∀ j, j ≠ c → d.established.get? j = none
  responder : ∀ j, j ≠ c → d.responderSessions.get? j = none
  template : ∀ j, d.initiatorTemplates.get? j = none
  fork : ∀ j, d.initiatorForks.get? j = none

/-- Where the session of the cid is. -/
inductive Standing (c : List β) (d : Dispatcher β π) (s : Session β π) : Prop
  /-- Requests may have failed, but none was answered. -/
  | idle (cid) : d.established.get? c = none → d.responderSessions.get? c = none →
      s = .blank d.keys d.config cid → Standing c d s
  | pending : d.established.get? c = none → d.responderSessions.get? c = some s →
      s.state ≠ .dropped → (s.state = .initial → ∃ cid, s = .blank d.keys d.config cid) →
      Standing c d s
  | confirmed : d.established.get? c = some s → d.responderSessions.get? c = none → Standing c d s

/-- What both have put out. -/
structure SameOutput (c : List β) (d : Dispatcher β π) (b : Bare β π) : Prop where
  pdus : d.outgoingPdus = b.pdus
  payloads : d.outgoingPayloads = b.payloads.map fun p => (c, p)

structure Abreast (P : Primitives β π) (c : List β) (d : Dispatcher β π) (b : Bare β π) : Prop where
  alone : Alone c d
  standing : Standing c d b.session
  heard : b.session.Answering P
  quiet : b.session.Still

/-- They have put out the same and, if time is left, are still alike. -/
def KeepsUp (P : Primitives β π) (c : List β) (now : Int) (d : Dispatcher β π) (b : Bare β π) : Prop :=
  SameOutput c d b ∧ (b.Expired now ∨ Abreast P c d b)

section
variable {P : Primitives β π} {c : List β} {d d₁ : Dispatcher β π} {b : Bare β π}
  {s : Session β π} {now : Int} {ρ : Type} {u : Session β π × Except PyError ρ}

omit [DecidableEq β] in
theorem drain_emptied (h : s.Still) (d : Dispatcher β π) (c : List β) : (d.drain s c).1 = d := by
  simp [drain, h.1, h.2]

omit [DecidableEq β] in
theorem SameOutput.drain (h : SameOutput c d b) (s : Session β π) :
    SameOutput c (d.drain s c).1 (b.readOut s) where
  pdus := by rw [Bare.readOut, ← h.pdus]; rfl
  payloads := by
    rw [Bare.readOut, List.map_append, ← h.payloads]
    rfl

/-- The session is put back as a responder session. -/
theorem keepsUp_put (hout : SameOutput c d₁ (b.readOut u.1)) (halone : Alone c d₁)
    (he : d₁.established.get? c = none) (hr : d₁.responderSessions.get? c = some u.1.drained)
    (hu : Session.Workable P d₁.keys d₁.config now u) : KeepsUp P c now d₁ (b.readOut u.1) := by
  refine ⟨hout, ?_⟩
  by_cases hd : u.1.state = .dropped
  · exact .inl (hu.dropped hd)
  · refine .inr ⟨halone, .pending he hr hd fun hi => ?_, hu.heard, u.1.still_drained⟩
    obtain ⟨cid, hblank⟩ := hu.blank hi
    exact ⟨cid, by rw [hblank]; rfl⟩

/-- The session is put back and reaped. -/
theorem keepsUp_reap (hout : SameOutput c d₁ (b.readOut u.1)) (halone : Alone c d₁)
    (he : d₁.established.get? c = none) (hr : d₁.responderSessions.get? c = some u.1.drained)
    (hu : Session.Workable P d₁.keys d₁.config now u) :
    KeepsUp P c now (d₁.reapResponder c) (b.readOut u.1) := by
  unfold reapResponder
  rw [hr]
  simp only
  split
  · refine ⟨⟨?_, ?_⟩, .inr ⟨⟨?_, ?_, ?_, ?_⟩, .confirmed ?_ ?_, hu.heard, u.1.still_drained⟩⟩
    · exact (List.append_nil _).trans hout.pdus
    · exact (List.append_nil _).trans hout.payloads
    · exact fun j hj => (Dict.get?_set_of_ne _ hj _).trans (halone.established j hj)
    · exact fun j hj => (Dict.get?_erase_of_ne _ hj).trans (halone.responder j hj)
    · intro j
      simp [promote, drain, Dict.get?_erase, halone.template]
    · intro j
      simp [promote, drain, Dict.get?_erase, halone.fork]
    · exact Dict.get?_set_self ..
    · exact Dict.get?_erase_self ..
  · split
    · rename_i hd
      exact ⟨⟨hout.pdus, hout.payloads⟩, .inl (hu.dropped hd)⟩
    · exact keepsUp_put hout halone he hr hu

/-- A new session that answered nothing is dropped again. -/
theorem keepsUp_drop (hout : SameOutput c d₁ (b.readOut u.1)) (halone : Alone c d₁)
    (he : d₁.established.get? c = none) (hu : Session.Workable P d₁.keys d₁.config now u)
    (hi : u.1.state = .initial) : KeepsUp P c now (d₁.dropResponder c) (b.readOut u.1) := by
  obtain ⟨cid, hblank⟩ := hu.blank hi
  refine ⟨⟨hout.pdus, hout.payloads⟩, .inr ⟨⟨halone.established, ?_, halone.template, halone.fork⟩,
    .idle cid he (Dict.get?_erase_self ..) (by rw [Bare.readOut, hblank]; rfl), hu.heard,
    u.1.still_drained⟩⟩
  exact fun j hj => (Dict.get?_erase_of_ne _ hj).trans (halone.responder j hj)

variable [DecidableEq π] {der : π} {msg : MakeMessage β} {e : Entropy β}

/-- However a delivery ends, the session has been drained. -/
theorem deliver_drains (d : Dispatcher β π)
    (h : ∀ x, ((s.postPdu der).update P now e).2 = .error x → x.caught = false →
      ((s.postPdu der).update P now e).1.Still) :
    ∃ x, d.deliver P s der now c e = ((d.drain ((s.postPdu der).update P now e).1 c).1,
      ((s.postPdu der).update P now e).1.drained, x) := by
  obtain ⟨x, hx, hcaught, hd⟩ | ⟨_, hd⟩ := deliver_cases P d s der now c e
  · have hq := h x hx hcaught
    refine ⟨some x, ?_⟩
    rw [hd, drain_emptied hq, hq.drained_eq]
  · exact ⟨none, hd⟩

omit [DecidableEq π] in
theorem Alone.put (h : Alone c d) (t : Session β π) :
    Alone c { d with responderSessions := d.responderSessions.set c t } :=
  ⟨h.established, fun j hj => (Dict.get?_set_of_ne _ hj _).trans (h.responder j hj), h.template,
    h.fork⟩

/-- Delivery to the responder session of the cid. -/
theorem keepsUp_deliver (halone : Alone c d) (hout : SameOutput c d b)
    (he : d.established.get? c = none)
    (hu : Session.Workable P d.keys d.config now ((s.postPdu der).update P now e)) :
    KeepsUp P c now (d.deliverResponder P s der now c e).1
      (b.readOut ((s.postPdu der).update P now e).1) := by
  obtain ⟨x, hd⟩ := deliver_drains (c := c) d hu.quiet
  have hout₁ := hout.drain ((s.postPdu der).update P now e).1
  unfold deliverResponder
  rw [hd]
  have halone₁ : Alone c (d.drain ((s.postPdu der).update P now e).1 c).1 :=
    ⟨halone.established, halone.responder, halone.template, halone.fork⟩
  cases x with
  | some x =>
    exact keepsUp_put ⟨hout₁.pdus, hout₁.payloads⟩ (halone₁.put _) he (Dict.get?_set_self ..) hu
  | none =>
    exact keepsUp_reap ⟨hout₁.pdus, hout₁.payloads⟩ (halone₁.put _) he (Dict.get?_set_self ..) hu

/-- A first request opens a responder session. -/
theorem keepsUp_open (halone : Alone c d) (hout : SameOutput c d b)
    (he : d.established.get? c = none) (hroom : d.candidates.Admits c now)
    (hs : s = .new .responder none d.keys d.config)
    (hu : Session.Workable P d.keys d.config now ((s.postPdu der).update P now e)) :
    KeepsUp P c now (d.openResponder P der now c e).1
      (b.readOut ((s.postPdu der).update P now e).1) := by
  obtain ⟨candidate, hadd⟩ := (add_admits d.candidates c der P.noPdu now).mpr hroom
  rcases hst : d.candidates.add c der P.noPdu now with ⟨candidates, r⟩
  rw [hst] at hadd
  cases hadd
  obtain ⟨x, hd⟩ := deliver_drains (c := c) { d with candidates } hu.quiet
  have hout₁ : SameOutput c { d with candidates } b := ⟨hout.pdus, hout.payloads⟩
  have hout₁ := hout₁.drain ((s.postPdu der).update P now e).1
  have halone₁ : Alone c (drain { d with candidates } ((s.postPdu der).update P now e).1 c).1 :=
    ⟨halone.established, halone.responder, halone.template, halone.fork⟩
  unfold openResponder
  rw [hst]
  simp only
  rw [← hs, hd]
  cases x with
  | some x =>
    exact keepsUp_put ⟨hout₁.pdus, hout₁.payloads⟩ (halone₁.put _) he (Dict.get?_set_self ..) hu
  | none =>
    simp only
    split
    · rename_i hi
      exact keepsUp_drop ⟨hout₁.pdus, hout₁.payloads⟩ (halone₁.put _) he hu hi
    · split
      · have halone₂ := halone₁.put ((s.postPdu der).update P now e).1.drained
        exact keepsUp_reap ⟨hout₁.pdus, hout₁.payloads⟩
          ⟨halone₂.established, halone₂.responder, halone₂.template, halone₂.fork⟩ he
          (Dict.get?_set_self ..) hu
      · exact keepsUp_reap ⟨hout₁.pdus, hout₁.payloads⟩ (halone₁.put _) he (Dict.get?_set_self ..)
          hu

/-! ## One call to both -/

theorem postPdu_responder (hl : P.load der = .ok msg) (he : d.established.get? msg.cid = none)
    (hr : d.responderSessions.get? msg.cid = some s)
    (hp : ∀ resp, msg.payload ≠ .sessionInitResponse resp) :
    d.postPdu P der now e = d.deliverResponder P s der now msg.cid e := by
  unfold postPdu
  rw [hl]
  simp only [he]
  cases hm : msg.payload with
  | sessionInitRequest req => simp only [MakePayload.name, routeSessionInitRequest, hr]
  | sessionInitResponse resp => exact absurd hm (hp resp)
  | sessionCompletionRequest | sessionCompletionResponse | message =>
    simp only [MakePayload.name, hr]

/-- Nothing to route to, or a response to nothing that was initiated. -/
theorem postPdu_unrouted (hl : P.load der = .ok msg) (he : d.established.get? msg.cid = none)
    (halone : Alone msg.cid d) (hp : (∃ resp, msg.payload = .sessionInitResponse resp) ∨
      d.responderSessions.get? msg.cid = none ∧ ∀ req, msg.payload ≠ .sessionInitRequest req) :
    d.postPdu P der now e = (d, none) := by
  unfold postPdu
  rw [hl]
  simp only [he]
  cases hm : msg.payload with
  | sessionInitResponse resp => simp only [MakePayload.name, routeSessionInitResponse, halone.template]
  | sessionInitRequest req =>
    obtain ⟨resp, hresp⟩ | ⟨_, hp⟩ := hp
    · rw [hm] at hresp
      cases hresp
    · exact absurd hm (hp req)
  | sessionCompletionRequest | sessionCompletionResponse | message =>
    obtain ⟨resp, hresp⟩ | ⟨hr, _⟩ := hp
    · rw [hm] at hresp
      cases hresp
    · simp only [MakePayload.name, hr, halone.fork]

theorem keepsUp_postPdu (hP : P.Correct) (hkept : Kept (Tidy P) (fun _ => True) d)
    (hout : SameOutput msg.cid d b) (h : Abreast P msg.cid d b) (hl : P.load der = .ok msg)
    (hroom : d.candidates.Admits msg.cid now)
    (hok : Undisturbed P msg.cid d (.postPdu der now e)) :
    KeepsUp P msg.cid now (d.postPdu P der now e).1 (b.perform P (.postPdu der now e)) := by
  obtain ⟨halone, hstanding, hheard, hquiet⟩ := h
  have hstay : ((b.session.postPdu der).update P now e).1 = b.session →
      d.postPdu P der now e = (d, none) →
      KeepsUp P msg.cid now (d.postPdu P der now e).1 (b.perform P (.postPdu der now e)) := by
    intro hs hd
    have hb : b.perform P (.postPdu der now e) = b := by
      simp only [Bare.perform, hs, Bare.readOut, hquiet.drained_eq, hquiet.1, hquiet.2,
        List.append_nil]
    rw [hb, hd]
    exact ⟨hout, .inr ⟨halone, hstanding, hheard, hquiet⟩⟩
  cases hstanding with
  | idle cid he hr hb =>
    by_cases hp : ∃ req, msg.payload = .sessionInitRequest req
    · obtain ⟨req, hp⟩ := hp
      have hfirst : (b.session.postPdu der).update P now e =
          ((Session.new .responder none d.keys d.config).postPdu der).update P now e := by
        change _ = ((Session.blank d.keys d.config none).postPdu der).update P now e
        rw [hb, Session.update_first hl hp, Session.update_first hl hp]
      have hopen : d.postPdu P der now e = d.openResponder P der now msg.cid e := by
        unfold postPdu
        rw [hl]
        simp only [he, hp, MakePayload.name, routeSessionInitRequest, hr]
      rw [hopen, Bare.perform, hfirst]
      have hwork : Session.Workable P d.keys d.config now
          (((Session.blank d.keys d.config none).postPdu der).update P now e) :=
        Session.workable_first hP hl hp
      exact keepsUp_open halone hout he hroom rfl hwork
    · have hp : ∀ req, msg.payload ≠ .sessionInitRequest req := fun req hreq => hp ⟨req, hreq⟩
      apply hstay
      · rw [hb]
        exact Session.update_ignored hl hp
      · exact postPdu_unrouted hl he halone (.inr ⟨hr, hp⟩)
  | pending he hr hd hb =>
    have htidy := hkept.responder _ _ hr
    have hq := htidy.2.resolve_right hd
    by_cases hp : ∃ resp, msg.payload = .sessionInitResponse resp
    · obtain ⟨resp, hp⟩ := hp
      apply hstay
      · by_cases hi : b.session.state = .initial
        · obtain ⟨cid, hb⟩ := hb hi
          rw [hb]
          exact Session.update_ignored hl (by simp [hp])
        · exact Session.update_stray hheard hq hi hd htidy.1.2.2.1 (htidy.1.2.2.2 hi) hl hp
      · exact postPdu_unrouted hl he halone (.inl ⟨resp, hp⟩)
    · have hp : ∀ resp, msg.payload ≠ .sessionInitResponse resp := fun resp hresp => hp ⟨resp, hresp⟩
      rw [postPdu_responder hl he hr hp]
      exact keepsUp_deliver halone hout he (Session.workable_pending hP htidy.1.1 hheard hq hquiet hd
        htidy.1.2.2.1 hb htidy.1.2.2.2 hl)
  | confirmed he hr =>
    have htidy := hkept.established _ _ he
    have hd : b.session.state ≠ .dropped := by simp [htidy.1.2.1]
    have hq := htidy.2.resolve_right hd
    have hpost : d.postPdu P der now e = d.deliverEstablished P b.session der now msg.cid e := by
      unfold postPdu
      rw [hl]
      simp only [he]
    have hescape : ∀ x, ((b.session.postPdu der).update P now e).2 = .error x → x.caught = false →
        ((b.session.postPdu der).update P now e).1.Still := fun x hx _ =>
      Session.still_of_delivery hP htidy.1.1 (.inl hq) hl hquiet (hok _ _ he hl) hx
    obtain ⟨x, hdel⟩ := deliver_drains (c := msg.cid) d hescape
    have hout₁ := hout.drain ((b.session.postPdu der).update P now e).1
    rw [hpost, deliverEstablished, hdel]
    refine ⟨⟨hout₁.pdus, hout₁.payloads⟩, .inr ⟨⟨?_, halone.responder, halone.template, halone.fork⟩,
      .confirmed (Dict.get?_set_self ..) hr, (hheard.postPdu der).update hP.encrypt_ne_nil,
      Session.still_drained _⟩⟩
    exact fun j hj => (Dict.get?_set_of_ne _ hj _).trans (halone.established j hj)

omit [DecidableEq π] in
theorem keepsUp_postPayload (hout : SameOutput c d b) (h : Abreast P c d b) {payload : List β}
    {x : Stimulus β π} (hx : x = .postPayload payload now) (hc : Addressed P c d x) :
    KeepsUp P c now (d.postPayload c payload).1 (b.readOut (b.session.postPayload payload).1) := by
  obtain ⟨halone, hstanding, hheard, hquiet⟩ := h
  subst hx
  have hquiet₁ : (b.session.postPayload payload).1.Still := by
    rw [Session.postPayload_eq]
    exact hquiet
  have hheard₁ : (b.session.postPayload payload).1.Answering P := by
    rw [Session.postPayload_eq]
    exact hheard
  have hstate : (b.session.postPayload payload).1.state = b.session.state := by
    rw [Session.postPayload_eq]
  have hout₁ := hout.drain (b.session.postPayload payload).1
  rw [drain_emptied hquiet₁] at hout₁
  obtain ⟨s, hs, hi⟩ := hc
  cases hstanding with
  | idle cid he hr _ =>
    rw [he, hr] at hs
    simp at hs
  | pending he hr hd hb =>
    have hsame : b.session = s := by
      rw [he, hr] at hs
      simpa using hs
    subst hsame
    have hpost : (d.postPayload c payload).1 = { d with
        responderSessions := d.responderSessions.set c (b.session.postPayload payload).1.drained } := by
      unfold postPayload
      rw [hquiet₁.drained_eq]
      simp only [he, hr]
    rw [hpost]
    exact keepsUp_put (u := ((b.session.postPayload payload).1, Except.ok ()))
      ⟨hout₁.pdus, hout₁.payloads⟩ (halone.put _) he (Dict.get?_set_self ..)
      ⟨hheard₁, by simp, fun hd₁ => absurd (hstate.symm.trans hd₁) hd,
        fun hi₁ => absurd (hstate.symm.trans hi₁) hi⟩
  | confirmed he hr =>
    have hpost : (d.postPayload c payload).1 = { d with
        established := d.established.set c (b.session.postPayload payload).1.drained } := by
      unfold postPayload
      rw [hquiet₁.drained_eq]
      simp only [he]
    rw [hpost]
    refine ⟨⟨hout₁.pdus, hout₁.payloads⟩, .inr ⟨⟨?_, halone.responder, halone.template, halone.fork⟩,
      .confirmed (Dict.get?_set_self ..) hr, hheard₁, Session.still_drained _⟩⟩
    exact fun j hj => (Dict.get?_set_of_ne _ hj _).trans (halone.established j hj)

/-! ## The crank -/

omit [DecidableEq π] in
theorem Alone.no_forks (h : Alone c d) : d.initiatorForks.keys = [] := Dict.keys_eq_nil h.fork

omit [DecidableEq π] in
theorem Alone.established_keys (h : Alone c d) (he : d.established.get? c = none) :
    d.established.keys = [] := by
  apply Dict.keys_eq_nil
  intro j
  by_cases hj : j = c
  · rw [hj, he]
  · exact h.established j hj

omit [DecidableEq π] in
theorem Alone.responder_keys (h : Alone c d) (hr : d.responderSessions.get? c = none) :
    d.responderSessions.keys = [] := by
  apply Dict.keys_eq_nil
  intro j
  by_cases hj : j = c
  · rw [hj, hr]
  · exact h.responder j hj

/-- Nothing to crank. -/
theorem crank_idle (h : Alone c d) (he : d.established.get? c = none)
    (hr : d.responderSessions.get? c = none) : (d.crank P now e).1 = d := by
  simp only [crank, h.established_keys he, sweep, h.responder_keys hr, h.no_forks]

/-- A responder session whose time is not up is left as it is. -/
theorem crank_pending (h : Alone c d) (he : d.established.get? c = none)
    (hr : d.responderSessions.get? c = some s) (hs : s.state ≠ .established)
    (hd : s.state ≠ .dropped) (hquiet : s.Still) {r : UpdateResult × WithTop Int}
    (hu : s.update P now e = (s, .ok r)) :
    (d.crank P now e).1 = { d with responderSessions := d.responderSessions.set c s } := by
  have hstep : ∀ next, updateResponder P now e d c next =
      ({ d with responderSessions := d.responderSessions.set c s }, .ok (min next r.2)) := by
    intro next
    have hdrain : d.drain s c = (d, s) := Prod.ext (drain_emptied hquiet d c) hquiet.drained_eq
    simp only [updateResponder, hr, hu, hdrain, if_neg hs, if_neg hd]
  have hkeys := Dict.keys_eq_singleton hr h.responder
  have hforks : ({ d with responderSessions := d.responderSessions.set c s } :
      Dispatcher β π).initiatorForks.keys = [] := h.no_forks
  simp only [crank, h.established_keys he, sweep, hkeys, hstep, hforks]

/-- An established session is put back as its update leaves it. -/
theorem crank_confirmed (h : Alone c d) (he : d.established.get? c = some s)
    (hr : d.responderSessions.get? c = none)
    (hquiet : ∀ x, (s.update P now e).2 = .error x → (s.update P now e).1.Still) :
    (d.crank P now e).1 = { (d.drain (s.update P now e).1 c).1 with
      established := d.established.set c (s.update P now e).1.drained } := by
  have hkeys := Dict.keys_eq_singleton he h.established
  have hstep : ∀ next, ∃ r, updateEstablished P now e d c next =
      ({ (d.drain (s.update P now e).1 c).1 with
        established := d.established.set c (s.update P now e).1.drained }, r) := by
    intro next
    unfold updateEstablished
    rw [he]
    rcases hu : s.update P now e with ⟨s', x | ⟨r, deadline⟩⟩
    · have hq : s'.Still := by
        have hq := hquiet x (by rw [hu])
        rw [hu] at hq
        exact hq
      simp only [hu]
      split
      · exact ⟨_, rfl⟩
      · refine ⟨.error x, ?_⟩
        rw [drain_emptied hq, hq.drained_eq]
    · simp only [hu]
      exact ⟨_, rfl⟩
  obtain ⟨r, hstep⟩ := hstep ⊤
  have hresp : ({ (d.drain (s.update P now e).1 c).1 with
      established := d.established.set c (s.update P now e).1.drained } :
      Dispatcher β π).responderSessions.keys = [] := h.responder_keys hr
  have hforks : ({ (d.drain (s.update P now e).1 c).1 with
      established := d.established.set c (s.update P now e).1.drained } :
      Dispatcher β π).initiatorForks.keys = [] := h.no_forks
  simp only [crank, hkeys, sweep, hstep]
  cases r with
  | error x => rfl
  | ok next => simp only [hresp, hforks, sweep]

theorem keepsUp_update (hP : P.Correct) (hkept : Kept (Tidy P) (fun _ => True) d)
    (hout : SameOutput c d b) (h : Abreast P c d b) (htime : ¬ b.Expired now)
    (hok : Undisturbed P c d (.update now e)) :
    KeepsUp P c now (d.update P now e).1 (b.perform P (.update now e)) := by
  obtain ⟨halone, hstanding, hheard, hquiet⟩ := h
  have hrec : ∀ j, Reconciled j { d with candidates := d.candidates.expire now } _ := fun j =>
    reconciled { d with candidates := d.candidates.expire now } j
  rw [update_fst]
  generalize { d with candidates := d.candidates.expire now }.reconcileExpiredCandidates = d₀ at hrec
  have hkeys₀ : d₀.keys = d.keys := (hrec c).keys
  have hconfig₀ : d₀.config = d.config := (hrec c).config
  have halone₀ : Alone c d₀ := by
    refine ⟨fun j hj => ?_, fun j hj => ?_, fun j => ?_, fun j => ?_⟩
    · rw [(hrec j).established]
      exact halone.established j hj
    · rw [(hrec j).responder]
      split
      · rfl
      · exact halone.responder j hj
    · rw [(hrec j).template]
      split
      · rfl
      · exact halone.template j
    · rw [(hrec j).fork]
      split
      · rfl
      · exact halone.fork j
  have hout₀ : SameOutput c d₀ b :=
    ⟨(hrec c).pdus.trans hout.pdus, (hrec c).payloads.trans hout.payloads⟩
  have hestablished : d₀.established.get? c = d.established.get? c := by rw [(hrec c).established]
  have hresponder := (hrec c).responder
  have hblank : ∀ cid, b.session = .blank d.keys d.config cid → d₀.established.get? c = none →
      d₀.responderSessions.get? c = none →
      KeepsUp P c now (d₀.crank P now e).1 (b.perform P (.update now e)) := by
    intro cid hb he hr
    rw [crank_idle halone₀ he hr]
    have hperform : b.perform P (.update now e) = b := by
      have hu : (b.session.update P now e).1 = b.session := by rw [hb]; rfl
      simp only [Bare.perform, hu, Bare.readOut, hquiet.drained_eq, hquiet.1, hquiet.2, List.append_nil]
    rw [hperform]
    exact ⟨hout₀, .inr ⟨halone₀, .idle cid he hr (by rw [hb, hkeys₀, hconfig₀]), hheard, hquiet⟩⟩
  cases hstanding with
  | idle cid he hr hb =>
    refine hblank cid hb (hestablished.trans he) (hresponder.trans ?_)
    split
    · rfl
    · exact hr
  | pending he hr hd hb =>
    have hs : b.session.state ≠ .established := (hkept.responder _ _ hr).1.2.2.1
    have hq := (hkept.responder _ _ hr).2.resolve_right hd
    by_cases hgone : { d with candidates := d.candidates.expire now }.candidates.candidatesFor c = []
    · -- the store's entry has expired: allowed of a session that has answered nothing
      rw [if_pos hgone] at hresponder
      have hi : b.session.state = .initial := by
        by_contra hi
        apply hok _ hr hi
        rw [live, ← candidatesFor_expire]
        exact congrArg List.length hgone
      obtain ⟨cid, hb⟩ := hb hi
      exact hblank cid hb (hestablished.trans he) hresponder
    · rw [if_neg hgone] at hresponder
      have hu : b.session.update P now e = (b.session, .ok (b.session.updateResult now)) := by
        refine Session.update_waiting hq hs hd fun deadline hdl => ?_
        by_contra hlate
        exact htime ⟨deadline, hdl, by omega⟩
      have hperform : b.perform P (.update now e) = b := by
        simp only [Bare.perform, hu, Bare.readOut, hquiet.drained_eq, hquiet.1, hquiet.2,
          List.append_nil]
      rw [crank_pending halone₀ (hestablished.trans he) (hresponder.trans hr) hs hd hquiet hu, hperform]
      refine ⟨⟨hout₀.pdus, hout₀.payloads⟩, .inr ⟨halone₀.put _, .pending (hestablished.trans he)
        (Dict.get?_set_self ..) hd fun hi => ?_, hheard, hquiet⟩⟩
      obtain ⟨cid, hb⟩ := hb hi
      exact ⟨cid, by rw [hb, ← hkeys₀, ← hconfig₀]⟩
  | confirmed he hr =>
    have htidy := hkept.established _ _ he
    have hd : b.session.state ≠ .dropped := by simp [htidy.1.2.1]
    have hq := htidy.2.resolve_right hd
    have hr₀ : d₀.responderSessions.get? c = none := by
      rw [hresponder]
      split
      · rfl
      · exact hr
    have hout₁ := hout₀.drain (b.session.update P now e).1
    rw [crank_confirmed halone₀ (hestablished.trans he) hr₀ fun x hx =>
      Session.still_of_idle hP htidy.1.1 hq hquiet hx]
    refine ⟨⟨hout₁.pdus, hout₁.payloads⟩, .inr ⟨⟨?_, halone₀.responder, halone₀.template,
      halone₀.fork⟩, .confirmed (Dict.get?_set_self ..) hr₀, hheard.update hP.encrypt_ne_nil,
      Session.still_drained _⟩⟩
    exact fun j hj => (Dict.get?_set_of_ne _ hj _).trans (halone₀.established j hj)

/-! ## Whole sequences -/

variable {keys : KeyLookup β} {config : SessionConfig} {last : Int}

theorem Matched.run {ok : Dispatcher β π → Stimulus β π → Prop}
    (h : Matched P ok keys config c d b last) :
    Run P (fun _ _ => True) (new keys config {}) d := by
  induction h with
  | start now => exact .refl
  | step _ _ _ _ _ ih => exact .step ih trivial

theorem Matched.keepsUp (hP : P.Correct) (h : Matched P (Undisturbed P c) keys config c d b last) :
    KeepsUp P c last d b := by
  induction h with
  | start now =>
    refine ⟨⟨rfl, rfl⟩, .inr ⟨⟨fun _ _ => rfl, fun _ _ => rfl, fun _ => rfl, fun _ => rfl⟩,
      .idle none rfl rfl rfl, Session.answering_blank none, ⟨rfl, rfl⟩⟩⟩
  | @step d b last x hpair hle htime haddr hok ih =>
    obtain ⟨hout, hexpired | habreast⟩ := ih
    · obtain ⟨deadline, hdl, hlast⟩ := hexpired
      exact absurd ⟨deadline, hdl, by omega⟩ htime
    · have hkept := tidy_run hP hpair.run (kept_new keys config {})
      cases x with
      | postPdu der now e =>
        obtain ⟨⟨msg, hl, rfl⟩, hroom⟩ := haddr
        exact keepsUp_postPdu hP hkept hout habreast hl hroom hok
      | postPayload payload now => exact keepsUp_postPayload hout habreast rfl haddr
      | update now e => exact keepsUp_update hP hkept hout habreast htime hok

/-- Up to the end of the session's time, the dispatcher puts out what the session does. -/
theorem Matched.outputs (hP : P.Correct) (h : Matched P (Undisturbed P c) keys config c d b last) :
    d.outgoingPdus = b.pdus ∧ d.outgoingPayloads = b.payloads.map fun p => (c, p) :=
  ⟨(h.keepsUp hP).1.pdus, (h.keepsUp hP).1.payloads⟩

end

/-! ## Bob (1) answers Alice (0), and takes 120 seconds for it -/

/-- A time that the session still has. -/
theorem not_expired {b : Bare Sym Pdu} {now : Int}
    (h : b.session.deadline.all (fun deadline => decide (now < deadline)) = true) :
    ¬ b.Expired now := by
  rintro ⟨deadline, hdl, hle⟩
  rw [hdl] at h
  have hlt : now < deadline := by simpa using h
  omega

theorem addressed_of_cid {c : List Sym} {d : Dispatcher Sym Pdu} {der : Pdu} {now : Int}
    {e : Entropy Sym} (hl : (ideal.load der).map (·.cid) = .ok c)
    (ha : d.candidates.Admits c now) : Addressed ideal c d (.postPdu der now e) := by
  obtain ⟨msg, hload, hcid⟩ := map_ok.mp hl
  exact ⟨⟨msg, hload, hcid⟩, ha⟩

def patience : SessionConfig := { ttlSeconds := 120 }

def aliceRequest : Pdu := aliceCalling.outgoingPdus.headD ideal.noPdu

def bobAsked : Stimulus Sym Pdu := .postPdu aliceRequest 0 (draw 1)

def bobAnswered : Dispatcher Sym Pdu :=
  (new (staticLookup 1) patience aliceCalling.candidates.limits).step ideal (bobAsked.toOp (draw 0).uuid)

def bareAnswered : Bare Sym Pdu := (Bare.new (staticLookup 1) patience).perform ideal bobAsked

theorem matched_answered (ok : Dispatcher Sym Pdu → Stimulus Sym Pdu → Prop)
    (hok : ok (new (staticLookup 1) patience {}) bobAsked) :
    Matched ideal ok (staticLookup 1) patience (draw 0).uuid bobAnswered bareAnswered 0 :=
  .step (.start 0) (Int.le_refl 0) (not_expired rfl)
    (addressed_of_cid (by decide +kernel) ⟨by decide, by decide⟩) hok

def aliceCompletion : Pdu :=
  ((((aliceCalling.initiatorTemplates.get? (draw 0).uuid).getD
    (.new .initiator none (staticLookup 0) {})).postPdu
      (bareAnswered.pdus.headD ideal.noPdu)).update ideal 1 (draw 3)).1.outgoingPdus.headD ideal.noPdu

def joining : Stimulus Sym Pdu := .postPdu aliceCompletion 20 (draw 4)

def loading : Stimulus Sym Pdu := .postPayload [.octet 9] 21

/-- Bob cranks while he waits, is established, and has a payload to send. -/
def bobCranked : Dispatcher Sym Pdu := bobAnswered.step ideal (.update 10 (draw 2))

def bareCranked : Bare Sym Pdu := bareAnswered.perform ideal (.update 10 (draw 2))

def bobJoined : Dispatcher Sym Pdu := bobCranked.step ideal (joining.toOp (draw 0).uuid)

def bareJoined : Bare Sym Pdu := bareCranked.perform ideal joining

def bobLoaded : Dispatcher Sym Pdu := bobJoined.step ideal (loading.toOp (draw 0).uuid)

def bareLoaded : Bare Sym Pdu := bareJoined.perform ideal loading

theorem addressed_of_established {c : List Sym} {d : Dispatcher Sym Pdu} {payload : List Sym}
    {now : Int} (h : (d.established.get? c).any (fun s => decide (s.state ≠ .initial)) = true) :
    Addressed ideal c d (.postPayload payload now) := by
  obtain ⟨s, hs, hstate⟩ := (Option.any_eq_true _ _).mp h
  exact ⟨s, .inl hs, of_decide_eq_true hstate⟩

/-- The entry is there when Bob cranks, and he is not established when the completion comes. -/
theorem matched_loaded : Matched ideal (Undisturbed ideal (draw 0).uuid) (staticLookup 1) patience
    (draw 0).uuid bobLoaded bareLoaded loading.now := by
  have hcranked : Matched ideal (Undisturbed ideal (draw 0).uuid) (staticLookup 1) patience
      (draw 0).uuid bobCranked bareCranked 10 := by
    have hlive : bobAnswered.live 10 (draw 0).uuid ≠ 0 := by decide +kernel
    exact .step (x := .update 10 (draw 2)) (matched_answered _ fun _ _ h => nomatch h) (by decide)
      (not_expired (by decide +kernel)) trivial fun _ _ _ => hlive
  have hjoined : Matched ideal (Undisturbed ideal (draw 0).uuid) (staticLookup 1) patience
      (draw 0).uuid bobJoined bareJoined 20 := by
    have hadmits : bobCranked.candidates.Admits (draw 0).uuid 20 :=
      ⟨by decide +kernel, by decide +kernel⟩
    have hnone : bobCranked.established.get? (draw 0).uuid = none := by decide +kernel
    exact .step (x := joining) hcranked (by decide) (not_expired (by decide +kernel))
      (addressed_of_cid (by decide +kernel) hadmits) fun _ _ hs => by
        rw [hnone] at hs
        cases hs
  exact .step (x := loading) hjoined (by decide) (not_expired (by decide +kernel))
    (addressed_of_established (by decide +kernel)) trivial

/-- Both put out the response, the confirmation and the message. -/
theorem outputs_sent :
    let d := bobLoaded.step ideal (.update 22 (draw 5))
    let b := bareLoaded.perform ideal (.update 22 (draw 5))
    d.outgoingPdus = b.pdus ∧
      d.outgoingPayloads = b.payloads.map (fun p => ((draw 0).uuid, p)) ∧
      d.outgoingPdus.length = 3 := by
  have hnone : bobLoaded.responderSessions.get? (draw 0).uuid = none := by decide +kernel
  have hsent := Matched.step (x := .update 22 (draw 5)) matched_loaded (by decide)
    (not_expired (by decide +kernel)) trivial fun _ hs => by
      rw [hnone] at hs
      cases hs
  obtain ⟨hpdus, hpayloads⟩ := Matched.outputs Ideal.ideal_correct hsent
  exact ⟨hpdus, hpayloads, by decide +kernel⟩

/-- The store of a dispatcher keeps to 60 seconds. -/
def bobWaited : Dispatcher Sym Pdu := bobAnswered.step ideal (.update 60 (draw 2))

def bareWaited : Bare Sym Pdu := bareAnswered.perform ideal (.update 60 (draw 2))

def bobCompleted : Stimulus Sym Pdu := .postPdu aliceCompletion 61 (draw 4)

/-- The completion that comes after 61 seconds finds a session of its own still waiting, and
the dispatcher's gone. -/
theorem outputs_differ : ∃ d b last,
    Matched ideal (fun _ _ => True) (staticLookup 1) patience (draw 0).uuid d b last ∧
      d.outgoingPdus ≠ b.pdus := by
  have hwaited : Matched ideal (fun _ _ => True) (staticLookup 1) patience (draw 0).uuid
      bobWaited bareWaited 60 :=
    .step (x := .update 60 (draw 2)) (matched_answered _ trivial) (by decide)
      (not_expired (by decide +kernel)) trivial trivial
  have hcompleted := Matched.step (x := bobCompleted) hwaited (by decide)
    (not_expired (by decide +kernel)) (addressed_of_cid (by decide +kernel)
      ⟨by decide +kernel, by decide +kernel⟩) trivial
  refine ⟨_, _, _, hcompleted, ?_⟩
  decide +kernel

end Dispatcher

end KemMake
