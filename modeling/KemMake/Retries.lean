import KemMake.Abandoned
import KemMake.Rejected

/-!
# Retries and cached replies

A session keeps one PDU to repeat. `Chronicle` runs a session and writes down what the session
forgets: the handshake PDUs put out, the PDU accepted last, and the resends on a timeout in each
state.
-/

namespace KemMake

/-- The PDU that a session of this role puts out in its first waiting state. -/
def Role.opening : Role → PayloadName
  | .initiator => .sessionInitRequest
  | .responder => .sessionInitResponse

/-- The PDU that it puts out after that. -/
def Role.closing : Role → PayloadName
  | .initiator => .sessionCompletionRequest
  | .responder => .sessionCompletionResponse

variable {β π : Type}

/-- The PDU is the encoding of a message of this kind. -/
def OfKind (P : Primitives β π) (name : PayloadName) (der : π) : Prop :=
  ∃ cid payload, payload.name = name ∧ der = P.dump (.build cid payload)

/-- The PDUs that `s'` has beyond those of `s`. -/
def Session.newPdus (s s' : Session β π) : List π := s'.outgoingPdus.drop s.outgoingPdus.length

theorem Session.newPdus_append {s s' : Session β π} {ders : List π}
    (h : s'.outgoingPdus = s.outgoingPdus ++ ders) : s.newPdus s' = ders := by
  simp [newPdus, h]

@[simp] theorem Session.newPdus_of_eq {s s' : Session β π} (h : s'.outgoingPdus = s.outgoingPdus) :
    s.newPdus s' = [] :=
  newPdus_append (by simpa using h)

theorem Session.append_newPdus_of_eq {s s' : Session β π} {ders : List π}
    (h : s'.outgoingPdus = s.outgoingPdus) : ders ++ s.newPdus s' = ders := by
  rw [newPdus_of_eq h, List.append_nil]

/-- A session with the handshake PDUs it has put out, the PDU it has accepted last, and the
number of its resends on a timeout in each state. -/
structure Chronicle (β π : Type) where
  session : Session β π
  handshake : List π := []
  accepted : Option π := none
  resends : SessionState → Nat := fun _ => 0

namespace Chronicle

section
variable (P : Primitives β π) (c : Chronicle β π)

def start (role : Role) (own : Option (KeyId β)) (keys : KeyLookup β) (config : SessionConfig) :
    Chronicle β π := { session := .new role own keys config }

def initiate (peerKeyId : KeyId β) (now : Int) (e : Entropy β) : Chronicle β π :=
  let s := (c.session.initiate P peerKeyId now e).1
  { c with session := s, handshake := c.handshake ++ c.session.newPdus s }

/-- What `_send_established_payload` puts out is no handshake PDU. -/
def send : Chronicle β π := { c with session := (c.session.sendPending P).1 }

def tick (now : Int) : Chronicle β π :=
  let s := c.session.checkDeadline now
  { c with
    session := s
    handshake := c.handshake ++ c.session.newPdus s
    resends := fun st =>
      c.resends st + if st = c.session.state then (c.session.newPdus s).length else 0 }

variable [DecidableEq β] [DecidableEq π]

/-- The PDU is accepted if it moves the state machine on. -/
def take (now : Int) (e : Entropy β) : Chronicle β π :=
  let s := (c.session.takeIncoming P now e).1
  { c with
    session := s
    handshake := c.handshake ++ c.session.newPdus s
    accepted := if s.state = c.session.state then c.accepted else c.session.incomingQueue.head? }

def update (now : Int) (e : Entropy β) : Chronicle β π :=
  if c.session.state = .dropped then c
  else
    match (c.session.takeIncoming P now e).2 with
    | some _ => c.take P now e
    | none =>
      match ((c.take P now e).session.sendPending P).2 with
      | some _ => (c.take P now e).send P
      | none =>
        if ((c.take P now e).send P).session.state = .dropped then (c.take P now e).send P
        else ((c.take P now e).send P).tick now

def act : Act β π → Chronicle β π
  | .initiate peerKeyId now e => c.initiate P peerKeyId now e
  | .postPdu der => { c with session := c.session.postPdu der }
  | .postPayload payload => { c with session := (c.session.postPayload payload).1 }
  | .update now e => c.update P now e
  | .getPdu => { c with session := c.session.getPdu.1 }
  | .getPayload => { c with session := c.session.getPayload.1 }

def acts (as : List (Act β π)) : Chronicle β π := as.foldl (fun c a => c.act P a) c

theorem update_session (now : Int) (e : Entropy β) :
    (c.update P now e).session = (c.session.update P now e).1 := by
  unfold update Session.update
  split
  · rfl
  cases ht : c.session.takeIncoming P now e with
  | mk s₁ x =>
    cases x with
    | some x => simp [take, ht]
    | none =>
      have htake : (c.take P now e).session = s₁ := by simp [take, ht]
      cases hs : s₁.sendPending P with
      | mk s₂ y =>
        cases y with
        | some y => simp [send, htake, hs]
        | none =>
          simp only [send, htake, hs]
          split <;> simp [tick]

/-- The session of a chronicle is the session that is called. -/
theorem act_session (a : Act β π) : (c.act P a).session = (c.session.perform P a).1 := by
  cases a with
  | update now e => exact update_session P c now e
  | _ => rfl

theorem acts_session (as : List (Act β π)) : (c.acts P as).session = (c.session.performAll P as).1 := by
  induction as generalizing c with
  | nil => rfl
  | cons a rest ih =>
    have h := ih (c.act P a)
    rw [act_session] at h
    exact h

end

/-! ## What the session keeps -/

/-- What has been put out in the handshake, and the last of it is kept while it may be asked
for again. -/
inductive Shape (P : Primitives β π) (s : Session β π) : List π → Prop
  | silent : s.state = .initial → s.lastSent = none → s.lastReceived = none → Shape P s []
  | opening {first n} :
      s.state = .expectSessionInitResponse ∨ s.state = .expectSessionCompletionRequest ∨
        s.state = .dropped →
      OfKind P s.role.opening first → s.lastSent = some first →
      Shape P s (List.replicate (n + 1) first)
  | closing {first second m n} :
      s.state = .expectSessionCompletionResponse ∨ s.state = .established ∨ s.state = .dropped →
      OfKind P s.role.opening first → OfKind P s.role.closing second →
      s.lastSent = some second ∨ s.lastSent = none ∧ s.state = .established →
      Shape P s (List.replicate (m + 1) first ++ List.replicate (n + 1) second)

/-- The resends of a waiting initiator are counted, and no others are made. -/
structure Counted (c : Chronicle β π) : Prop where
  bounded : ∀ st, (c.resends st : Int) ≤ c.session.config.maxRetries
  mute : c.session.role = .responder → ∀ st, c.resends st = 0
  side : c.session.state = .expectSessionCompletionRequest → c.session.role = .responder
  current : c.session.role = .initiator →
    c.session.state = .expectSessionInitResponse ∨
      c.session.state = .expectSessionCompletionResponse →
    c.resends c.session.state = c.session.attemptCount
  ahead : c.session.state = .initial ∨ c.session.state = .expectSessionInitResponse →
    c.resends .expectSessionCompletionResponse = 0
  unasked : c.session.state = .initial → c.resends .expectSessionInitResponse = 0

structure Lawful (P : Primitives β π) (c : Chronicle β π) : Prop where
  shape : Shape P c.session c.handshake
  accepted : c.accepted = c.session.lastReceived
  counted : Counted c

section
variable {P : Primitives β π} {c : Chronicle β π}

/-- The PDU kept is the one put out last. -/
theorem Shape.cached {s : Session β π} {ders : List π} (h : Shape P s ders) {der : π}
    (hsent : s.lastSent = some der) : ders.getLast? = some der := by
  cases h with
  | silent _ hs => simp [hs] at hsent
  | opening _ _ hs =>
    obtain rfl : _ = der := by simpa [hs] using hsent
    simp [List.getLast?_replicate]
  | closing _ _ _ hs =>
    obtain hs | ⟨hs, _⟩ := hs
    · obtain rfl : _ = der := by simpa [hs] using hsent
      simp [List.getLast?_replicate]
    · simp [hs] at hsent

theorem Lawful.start {role : Role} {own : Option (KeyId β)} {keys : KeyLookup β}
    {config : SessionConfig} (hmax : 0 ≤ config.maxRetries) :
    (start role own keys config : Chronicle β π).Lawful P where
  shape := .silent rfl rfl rfl
  accepted := rfl
  counted := ⟨fun _ => hmax, fun _ _ => rfl, fun h => (nomatch h), fun _ h => by simp [Chronicle.start, Session.new] at h,
    fun _ => rfl, fun _ => rfl⟩

/-- A repetition of the PDU kept. -/
theorem Shape.again {s : Session β π} {ders : List π} (h : Shape P s ders)
    (hs : s.state ≠ .initial) : Shape P s (ders ++ s.lastSent.toList) := by
  cases h with
  | silent hi => exact absurd hi hs
  | opening hst hk hsent =>
    rw [hsent, Option.toList_some, ← List.replicate_succ']
    exact .opening hst hk hsent
  | closing hst hk hk' hsent =>
    obtain hsent | ⟨hsent, hest⟩ := hsent
    · rw [hsent, Option.toList_some, List.append_assoc, ← List.replicate_succ']
      exact .closing hst hk hk' (.inl hsent)
    · rw [hsent, Option.toList_none, List.append_nil]
      exact .closing hst hk hk' (.inr ⟨hsent, hest⟩)

/-- The shape is that of the state, the role and the two PDUs kept. -/
theorem Shape.congr {s s' : Session β π} {ders : List π} (h : Shape P s ders)
    (hstate : s'.state = s.state) (hrole : s'.role = s.role) (hsent : s'.lastSent = s.lastSent)
    (hrecv : s'.lastReceived = s.lastReceived) : Shape P s' ders := by
  cases h with
  | silent hi hs hr => exact .silent (hstate.trans hi) (hsent.trans hs) (hrecv.trans hr)
  | opening hst hk hs =>
    rw [← hstate] at hst
    rw [← hrole] at hk
    exact .opening hst hk (hsent.trans hs)
  | closing hst hk hk' hs =>
    rw [← hstate, ← hsent] at *
    rw [← hrole] at hk hk'
    exact .closing hst hk hk' hs

/-- A change of what neither the shape nor the counters read. -/
theorem Lawful.congr {c' : Chronicle β π} (h : c.Lawful P)
    (hs : c'.session.state = c.session.state ∧ c'.session.identity = c.session.identity ∧
      c'.session.lastSent = c.session.lastSent ∧ c'.session.lastReceived = c.session.lastReceived ∧
      c'.session.attemptCount = c.session.attemptCount)
    (hc : c'.handshake = c.handshake ∧ c'.accepted = c.accepted ∧ c'.resends = c.resends) :
    c'.Lawful P := by
  obtain ⟨hstate, hid, hsent, hrecv, hcount⟩ := hs
  obtain ⟨hhand, hacc, hres⟩ := hc
  obtain ⟨hrole, -, -, hconfig⟩ : c'.session.role = c.session.role ∧ _ ∧ _ ∧
      c'.session.config = c.session.config := by
    simpa [Session.identity] using hid
  refine ⟨?_, ?_, ?_⟩
  · rw [hhand]
    exact h.shape.congr hstate hrole hsent hrecv
  · rw [hacc, hrecv]
    exact h.accepted
  · obtain ⟨hb, hm, hside, hcur, hahead, hun⟩ := h.counted
    constructor <;> simp only [hres, hstate, hrole, hconfig, hcount] <;> assumption

theorem Shape.dropped {s : Session β π} {ders : List π} (h : Shape P s ders)
    (hest : s.state ≠ .established) (hini : s.state ≠ .initial) :
    Shape P { s with state := .dropped } ders := by
  cases h with
  | silent hi => exact absurd hi hini
  | opening _ hk hs => exact .opening (.inr (.inr rfl)) hk hs
  | closing _ hk hk' hs =>
    exact .closing (.inr (.inr rfl)) hk hk' (.inl (hs.resolve_right fun hs => hest hs.2))

/-- A session that waits has a PDU to repeat. -/
theorem Shape.kept {s : Session β π} {ders : List π} (h : Shape P s ders)
    (hest : s.state ≠ .established) (hini : s.state ≠ .initial) : ∃ der, s.lastSent = some der := by
  cases h with
  | silent hi => exact absurd hi hini
  | opening _ _ hs => exact ⟨_, hs⟩
  | closing _ _ _ hs => exact ⟨_, hs.resolve_right fun hs => hest hs.2⟩

/-! ## The three parts of an update -/

theorem Lawful.send (h : c.Lawful P) : (c.send P).Lawful P := by
  have hs := Session.sendPending_sent (P := P) c.session
  refine h.congr ?_ ⟨rfl, rfl, rfl⟩
  simp only [Chronicle.send]
  generalize (c.session.sendPending P).1 = s', (c.session.sendPending P).2 = x at hs
  cases hs with
  | message => simp [Session.countSent_eq, Session.identity]
  | _ => exact ⟨rfl, rfl, rfl, rfl, rfl⟩

/-- The only opening PDU so far is the one that is kept. -/
theorem Shape.opened {s : Session β π} {ders : List π} (h : Shape P s ders)
    (hs : s.state = .expectSessionInitResponse ∨ s.state = .expectSessionCompletionRequest) :
    ∃ first n, ders = List.replicate (n + 1) first ∧ OfKind P s.role.opening first := by
  cases h with
  | silent hi => simp [hi] at hs
  | opening _ hk => exact ⟨_, _, rfl, hk⟩
  | closing hst => obtain hst | hst | hst := hst <;> simp [hst] at hs

theorem Shape.unheard {s : Session β π} {ders : List π} (h : Shape P s ders)
    (hs : s.state = .initial) : ders = [] ∧ s.lastReceived = none := by
  cases h with
  | silent _ _ hr => exact ⟨rfl, hr⟩
  | opening hst => simp [hs] at hst
  | closing hst => simp [hs] at hst

/-- Both PDUs have been put out once the initiator waits for the last one. -/
theorem Shape.closed {s s' : Session β π} {ders : List π} (h : Shape P s ders)
    (hs : s.state = .expectSessionCompletionResponse) (hrole : s'.role = s.role)
    (hs' : s'.state = .established) (hsent : s'.lastSent = none) : Shape P s' ders := by
  cases h with
  | silent hi => simp [hs] at hi
  | opening hst => simp [hs] at hst
  | closing _ hk hk' _ =>
    rw [← hrole] at hk hk'
    exact .closing (.inr (.inl hs')) hk hk' (.inr ⟨hsent, hs'⟩)

/-- The counters of a session that has moved on to a state it has not timed out in. -/
theorem Counted.moved {c' : Chronicle β π} (h : Counted c)
    (hid : c'.session.identity = c.session.identity) (hres : c'.resends = c.resends)
    (hini : c'.session.state ≠ .initial) (hask : c'.session.state ≠ .expectSessionInitResponse)
    (hside : c'.session.state = .expectSessionCompletionRequest → c.session.role = .responder)
    (hcur : c'.session.state = .expectSessionCompletionResponse →
      c.resends .expectSessionCompletionResponse = c'.session.attemptCount) : Counted c' := by
  obtain ⟨hrole, -, -, hconfig⟩ : c'.session.role = c.session.role ∧ _ ∧ _ ∧
      c'.session.config = c.session.config := by
    simpa [Session.identity] using hid
  refine ⟨?_, ?_, ?_, ?_, ?_, fun hs => absurd hs hini⟩
  · rw [hres, hconfig]
    exact h.bounded
  · rw [hres, hrole]
    exact h.mute
  · rw [hrole]
    exact hside
  · intro _ hs
    obtain hs | hs := hs
    · exact absurd hs hask
    · rw [hs, hres]
      exact hcur hs
  · intro hs
    obtain hs | hs := hs
    · exact absurd hs hini
    · exact absurd hs hask

section
variable [DecidableEq β] [DecidableEq π]

/-- Taking a PDU leaves the discipline in place, accepted or not. -/
theorem Lawful.take (hP : ∀ aead key nonce text ad, P.encrypt aead key nonce text ad ≠ [])
    (h : c.Lawful P) (now : Int) (e : Entropy β) : (c.take P now e).Lawful P := by
  have ht := Session.takeIncoming_took hP c.session now e
  simp only [Chronicle.take]
  generalize (c.session.takeIncoming P now e).1 = s', (c.session.takeIncoming P now e).2 = x at ht
  cases ht with
  | idle | ignored | undecoded | refused =>
    exact h.congr ⟨rfl, rfl, rfl, rfl, rfl⟩ ⟨Session.append_newPdus_of_eq rfl, if_pos rfl, rfl⟩
  | received =>
    rw [Session.countReceived_eq]
    exact h.congr ⟨rfl, rfl, rfl, rfl, rfl⟩ ⟨Session.append_newPdus_of_eq rfl, if_pos rfl, rfl⟩
  | resent hq hdup =>
    have hini : c.session.state ≠ .initial := by
      intro hi
      simp [(h.shape.unheard hi).2] at hdup
    rw [Session.resend_eq]
    refine ⟨?_, (if_pos rfl).trans h.accepted, ?_⟩
    · simp only
      rw [Session.newPdus_append rfl]
      exact (h.shape.again hini).congr rfl rfl rfl rfl
    · obtain ⟨hb, hm, hside, hcur, hahead, hun⟩ := h.counted
      exact ⟨hb, hm, hside, hcur, hahead, hun⟩
  | answered hq hl hp hs hr hreply =>
    obtain ⟨parts⟩ := Session.initReply_ok hreply
    refine ⟨?_, ?_, h.counted.moved rfl rfl (by simp [Session.acceptInitRequest])
      (by simp [Session.acceptInitRequest]) (fun _ => hr) (by simp [Session.acceptInitRequest])⟩
    · simp only
      rw [Session.newPdus_append rfl, (h.shape.unheard hs).1]
      refine .opening (n := 0) (.inr (.inl rfl)) ?_ rfl
      exact ⟨_, _, by simp [Session.acceptInitRequest, hr, Role.opening, MakePayload.name], parts.out⟩
    · simp [Session.acceptInitRequest, hs, hq]
  | completed hq hl hp hs hr hc ho =>
    obtain ⟨first, n, hders, hk⟩ := h.shape.opened (.inr hs)
    refine ⟨?_, ?_, h.counted.moved rfl rfl (by simp [Session.acceptCompletion])
      (by simp [Session.acceptCompletion]) (by simp [Session.acceptCompletion])
      (by simp [Session.acceptCompletion])⟩
    · simp only
      rw [Session.newPdus_append rfl, hders]
      refine .closing (n := 0) (.inr (.inl rfl)) hk ?_ (.inl rfl)
      exact ⟨_, _, by simp [Session.acceptCompletion, Session.opened, hr, Role.closing, MakePayload.name], rfl⟩
    · simp [Session.acceptCompletion, hs, hq]
  | called hq hl hp hs hr hc hcall =>
    obtain ⟨first, n, hders, hk⟩ := h.shape.opened (.inl hs)
    refine ⟨?_, ?_, h.counted.moved rfl rfl (by simp [Session.acceptInitResponse])
      (by simp [Session.acceptInitResponse]) (by simp [Session.acceptInitResponse])
      (fun _ => h.counted.ahead (.inr hs))⟩
    · simp only
      rw [Session.newPdus_append rfl, hders]
      refine .closing (n := 0) (.inl rfl) hk ?_ (.inl rfl)
      exact ⟨_, _, by simp [Session.acceptInitResponse, hr, Role.closing, MakePayload.name], rfl⟩
    · simp [Session.acceptInitResponse, hs, hq]
  | confirmed hq hl hp hs hr hc hsent hm =>
    refine ⟨?_, ?_, h.counted.moved rfl rfl (by simp [Session.acceptReply])
      (by simp [Session.acceptReply]) (by simp [Session.acceptReply])
      (by simp [Session.acceptReply])⟩
    · refine (congrArg (Shape P _) (Session.append_newPdus_of_eq ?_)).mpr
        (h.shape.closed hs ?_ ?_ ?_) <;> rfl
    · simp [Session.acceptReply, hs, hq]
  | replied hq hl hp hs hr hc hsent hm =>
    refine ⟨?_, ?_, h.counted.moved rfl rfl (by simp [Session.acceptReply])
      (by simp [Session.acceptReply]) (by simp [Session.acceptReply])
      (by simp [Session.acceptReply])⟩
    · refine (congrArg (Shape P _) (Session.append_newPdus_of_eq ?_)).mpr
        (h.shape.closed hs ?_ ?_ ?_) <;> rfl
    · simp [Session.acceptReply, hs, hq]

end

/-- A timeout of a waiting session repeats what is kept, and is counted, or drops the session. -/
theorem Lawful.tick (h : c.Lawful P) (hne : c.session.state ≠ .dropped) (now : Int) :
    (c.tick now).Lawful P := by
  have hk := Session.checkDeadline_ticked c.session now
  simp only [Chronicle.tick]
  generalize c.session.checkDeadline now = s' at hk
  cases hk with
  | idle => exact h.congr ⟨rfl, rfl, rfl, rfl, rfl⟩ (by simp)
  | dropped hest hini =>
    have hnone : c.session.newPdus { c.session with state := .dropped } = [] :=
      Session.newPdus_of_eq rfl
    simp only [hnone, List.append_nil, List.length_nil, ite_self, Nat.add_zero]
    exact {
      shape := h.shape.dropped hest hini
      accepted := h.accepted
      counted := ⟨h.counted.bounded, h.counted.mute, fun hs => (nomatch hs), by simp, by simp,
        by simp⟩ }
  | retried hest hini hr hlt =>
    -- the role leaves two states to wait in
    have hwait : c.session.state = .expectSessionInitResponse ∨
        c.session.state = .expectSessionCompletionResponse := by
      cases hs : c.session.state with
      | initial => exact absurd hs hini
      | established => exact absurd hs hest
      | dropped => exact absurd hs hne
      | expectSessionCompletionRequest => simp [h.counted.side hs] at hr
      | expectSessionInitResponse => exact .inl rfl
      | expectSessionCompletionResponse => exact .inr rfl
    obtain ⟨der, hsent⟩ := h.shape.kept hest hini
    have hcount := h.counted.current hr hwait
    rw [Session.resend_eq]
    have hnew : c.session.newPdus { c.session with
        attemptCount := c.session.attemptCount + 1
        deadline := some (now + c.session.config.retryIntervalSeconds)
        outgoingPdus := c.session.outgoingPdus ++ c.session.lastSent.toList } =
        c.session.lastSent.toList := Session.newPdus_append rfl
    simp only [hnew]
    exact {
      shape := (h.shape.again hini).congr rfl rfl rfl rfl
      accepted := h.accepted
      counted := {
        bounded := by
          intro st
          have hb := h.counted.bounded st
          simp only [hsent, Option.toList_some, List.length_singleton]
          split
          · rename_i hst
            subst hst
            omega
          · simpa using hb
        mute := fun hresp => by simp [hr] at hresp
        side := fun hs => by
          obtain hw | hw := hwait <;> rw [hw] at hs <;> cases hs
        current := fun _ _ => by simp [hsent, hcount]
        ahead := fun hs => by
          obtain hs | hs := hs
          · exact absurd hs hini
          · have hs : c.session.state = .expectSessionInitResponse := hs
            simp [hs, h.counted.ahead (.inr hs)]
        unasked := fun hs => absurd hs hini } }

/-! ## Calls -/

/-- An `initiate` puts the first request out, or nothing. -/
theorem Lawful.initiate (h : c.Lawful P) (peerKeyId : KeyId β) (now : Int) (e : Entropy β) :
    (c.initiate P peerKeyId now e).Lawful P := by
  have hi := Session.initiate_cases (P := P) c.session peerKeyId now e
  simp only [Chronicle.initiate]
  generalize (c.session.initiate P peerKeyId now e).1 = s' at hi
  cases hi with
  | refused | failed =>
    exact h.congr ⟨rfl, rfl, rfl, rfl, rfl⟩ ⟨Session.append_newPdus_of_eq rfl, rfl, rfl⟩
  | called hr hs hder =>
    refine ⟨?_, h.accepted, ?_⟩
    · simp only
      rw [Session.newPdus_append rfl, (h.shape.unheard hs).1]
      exact .opening (n := 0) (.inl rfl) ⟨_, _, by simp [hr, Role.opening, MakePayload.name], hder⟩ rfl
    · obtain ⟨hb, hm, -, -, hahead, hun⟩ := h.counted
      exact ⟨hb, hm, by simp, fun _ _ => hun hs, fun _ => hahead (.inl hs), by simp⟩

section
variable [DecidableEq β] [DecidableEq π]
  (hP : ∀ aead key nonce text ad, P.encrypt aead key nonce text ad ≠ [])
include hP

theorem Lawful.update (h : c.Lawful P) (now : Int) (e : Entropy β) :
    (c.update P now e).Lawful P := by
  unfold Chronicle.update
  split
  · exact h
  have htake := h.take hP now e
  split
  · exact htake
  split
  · exact htake.send
  split
  · exact htake.send
  · rename_i hne
    exact htake.send.tick hne now

theorem Lawful.act (h : c.Lawful P) (a : Act β π) : (c.act P a).Lawful P := by
  cases a with
  | initiate peerKeyId now e => exact h.initiate peerKeyId now e
  | postPdu der => exact h.congr ⟨rfl, rfl, rfl, rfl, rfl⟩ ⟨rfl, rfl, rfl⟩
  | postPayload payload =>
    refine h.congr ?_ ⟨rfl, rfl, rfl⟩
    simp [Chronicle.act, Session.postPayload_eq, Session.identity]
  | update now e => exact h.update hP now e
  | getPdu =>
    refine h.congr ?_ ⟨rfl, rfl, rfl⟩
    simp only [Chronicle.act, Session.getPdu]
    split <;> exact ⟨rfl, rfl, rfl, rfl, rfl⟩
  | getPayload =>
    refine h.congr ?_ ⟨rfl, rfl, rfl⟩
    simp only [Chronicle.act, Session.getPayload]
    split <;> exact ⟨rfl, rfl, rfl, rfl, rfl⟩

theorem Lawful.acts (h : c.Lawful P) (as : List (Act β π)) : (c.acts P as).Lawful P := by
  induction as generalizing c with
  | nil => exact h
  | cons a rest ih => exact ih (h.act hP a)

end

end

/-! ## Exact and bounded -/

section
variable [DecidableEq β] [DecidableEq π]

structure Disciplined (P : Primitives β π) (c : Chronicle β π) : Prop where
  /-- Copies of the opening PDU, and after them only copies of the closing one. -/
  two : ∃ first second m n, c.handshake = List.replicate m first ++ List.replicate n second ∧
    (0 < m → OfKind P c.session.role.opening first) ∧
    (0 < n → OfKind P c.session.role.closing second) ∧
    (c.session.state = .expectSessionInitResponse ∨
      c.session.state = .expectSessionCompletionRequest → n = 0)
  /-- The cached reply is the handshake PDU put out last. -/
  cached : ∀ der, c.session.lastSent = some der → c.handshake.getLast? = some der
  duplicate : ∀ der rest now e, c.accepted = some der → c.session.incomingQueue = der :: rest →
    c.session.takeIncoming P now e = ({ c.session with
      incomingQueue := rest
      outgoingPdus := c.session.outgoingPdus ++ c.session.lastSent.toList }, none)
  bounded : ∀ st, (c.resends st : Int) ≤ c.session.config.maxRetries
  mute : c.session.role = .responder → ∀ st, c.resends st = 0
  /-- A timeout that no PDU forestalls is one more resend, or the end. -/
  timeout : ∀ now e t, c.session.role = .initiator →
    c.session.state = .expectSessionInitResponse ∨
      c.session.state = .expectSessionCompletionResponse →
    c.session.deadline = some t → t ≤ now → (c.session.takeIncoming P now e).2 = none →
    (c.session.takeIncoming P now e).1.state = c.session.state →
    if (c.resends c.session.state : Int) < c.session.config.maxRetries then
      (c.update P now e).resends c.session.state = c.resends c.session.state + 1 ∧
        (c.update P now e).session.state = c.session.state
    else (c.update P now e).resends = c.resends ∧ (c.update P now e).session.state = .dropped
  established : c.session.state = .established →
    ∀ as, (c.acts P as).session.state = .established
  /-- Nothing is put out any more; what is still queued may be taken. -/
  dropped : c.session.state = .dropped → ∀ as, (c.acts P as).session.state = .dropped ∧
    (c.acts P as).session.outgoingPdus <:+ c.session.outgoingPdus ∧
    (c.acts P as).session.outgoingPayloads <:+ c.session.outgoingPayloads

variable {P : Primitives β π} {c : Chronicle β π}

omit [DecidableEq β] [DecidableEq π] in
theorem Shape.two {s : Session β π} {ders : List π} (h : Shape P s ders) :
    ∃ first second m n, ders = List.replicate m first ++ List.replicate n second ∧
      (0 < m → OfKind P s.role.opening first) ∧ (0 < n → OfKind P s.role.closing second) ∧
      (s.state = .expectSessionInitResponse ∨ s.state = .expectSessionCompletionRequest →
        n = 0) := by
  cases h with
  | silent => exact ⟨P.noPdu, P.noPdu, 0, 0, by simp⟩
  | @opening first n hst hk => exact ⟨first, first, n + 1, 0, by simp [hk]⟩
  | @closing first second m n hst hk hk' =>
    refine ⟨first, second, m + 1, n + 1, rfl, fun _ => hk, fun _ => hk', fun hs => ?_⟩
    obtain hs | hs := hs <;> simp [hs] at hst

omit [DecidableEq β] [DecidableEq π] in
theorem act_dropped [DecidableEq β] [DecidableEq π] (hs : c.session.state = .dropped)
    (a : Act β π) : (c.act P a).session.state = .dropped ∧
      (c.act P a).session.outgoingPdus <:+ c.session.outgoingPdus ∧
      (c.act P a).session.outgoingPayloads <:+ c.session.outgoingPayloads := by
  cases a with
  | initiate peerKeyId now e =>
    have hi : (c.session.initiate P peerKeyId now e).1 = c.session := by
      unfold Session.initiate
      split
      · rfl
      · simp [hs]
    simp only [Chronicle.act, Chronicle.initiate, hi]
    exact ⟨hs, List.suffix_rfl, List.suffix_rfl⟩
  | postPdu der => exact ⟨hs, List.suffix_rfl, List.suffix_rfl⟩
  | postPayload payload =>
    simp only [Chronicle.act, Session.postPayload_eq]
    exact ⟨hs, List.suffix_rfl, List.suffix_rfl⟩
  | update now e =>
    simp only [Chronicle.act, Chronicle.update, hs, ↓reduceIte]
    exact ⟨trivial, List.suffix_rfl, List.suffix_rfl⟩
  | getPdu =>
    simp only [Chronicle.act, Session.getPdu]
    split
    · exact ⟨hs, List.suffix_rfl, List.suffix_rfl⟩
    · rename_i pdu rest hout
      rw [hout]
      exact ⟨hs, List.suffix_cons pdu rest, List.suffix_rfl⟩
  | getPayload =>
    simp only [Chronicle.act, Session.getPayload]
    split
    · exact ⟨hs, List.suffix_rfl, List.suffix_rfl⟩
    · rename_i payload rest hout
      rw [hout]
      exact ⟨hs, List.suffix_rfl, List.suffix_cons payload rest⟩

theorem acts_dropped (hs : c.session.state = .dropped) (as : List (Act β π)) :
    (c.acts P as).session.state = .dropped ∧
      (c.acts P as).session.outgoingPdus <:+ c.session.outgoingPdus ∧
      (c.acts P as).session.outgoingPayloads <:+ c.session.outgoingPayloads := by
  induction as generalizing c with
  | nil => exact ⟨hs, List.suffix_rfl, List.suffix_rfl⟩
  | cons a rest ih =>
    obtain ⟨hd, hpdus, hpayloads⟩ := act_dropped (P := P) hs a
    obtain ⟨hd', hpdus', hpayloads'⟩ := ih hd
    exact ⟨hd', hpdus'.trans hpdus, hpayloads'.trans hpayloads⟩

variable (hP : ∀ aead key nonce text ad, P.encrypt aead key nonce text ad ≠ [])
include hP

theorem act_established (hs : c.session.state = .established) (a : Act β π) :
    (c.act P a).session.state = .established := by
  rw [act_session]
  cases a with
  | initiate peerKeyId now e =>
    have hi := Session.initiate_cases (P := P) c.session peerKeyId now e
    simp only [Session.perform]
    generalize (c.session.initiate P peerKeyId now e).1 = s' at hi
    cases hi with
    | refused => exact hs
    | failed hini | called _ hini => simp [hs] at hini
  | update now e =>
    refine Session.update_preserves hP (I := fun s => s.state = .established)
      (fun s' x ht hs => ?_) (fun s₁ s' x hsent hs => ?_)
      (fun s₁ s' hk hs => ?_) hs
    · cases ht.advances with
      | stays hst => exact hst.trans hs
      | answers hst | completes hst | calls hst | confirms _ _ _ hst => simp [hs] at hst
    · exact hsent.frame.1.trans hs
    · obtain hst | ⟨_, hne, _⟩ := hk.frame.1
      · exact hst.trans hs
      · exact absurd hs hne
  | postPdu der => exact hs
  | postPayload payload => simpa [Session.perform, Session.postPayload_eq] using hs
  | getPdu =>
    simp only [Session.perform, Session.getPdu]
    split <;> exact hs
  | getPayload =>
    simp only [Session.perform, Session.getPayload]
    split <;> exact hs

theorem acts_established (hs : c.session.state = .established) (as : List (Act β π)) :
    (c.acts P as).session.state = .established := by
  induction as generalizing c with
  | nil => exact hs
  | cons a rest ih => exact ih (act_established hP hs a)

/-- What the clock reads is left alone by a PDU that leaves the state. -/
theorem take_waits {now : Int} {e : Entropy β} (hest : c.session.state ≠ .established)
    (hsame : (c.session.takeIncoming P now e).1.state = c.session.state) :
    let s := (c.take P now e).session
    s.identity = c.session.identity ∧ s.deadline = c.session.deadline ∧
      s.attemptCount = c.session.attemptCount ∧ s.lastSent = c.session.lastSent := by
  have ht := Session.takeIncoming_took hP c.session now e
  simp only [Chronicle.take]
  generalize (c.session.takeIncoming P now e).1 = s', (c.session.takeIncoming P now e).2 = x at *
  cases ht with
  | idle | ignored | undecoded | refused => exact ⟨rfl, rfl, rfl, rfl⟩
  | resent =>
    rw [Session.resend_eq]
    exact ⟨rfl, rfl, rfl, rfl⟩
  | answered _ _ _ hs | completed _ _ _ hs | called _ _ _ hs | confirmed _ _ _ hs
  | replied _ _ _ hs =>
    rw [hs] at hsame
    cases hsame
  | received _ _ _ hs => exact absurd hs hest

theorem update_timeout {now t : Int} {e : Entropy β} (h : c.Lawful P)
    (hr : c.session.role = .initiator)
    (hwait : c.session.state = .expectSessionInitResponse ∨
      c.session.state = .expectSessionCompletionResponse)
    (hd : c.session.deadline = some t) (hle : t ≤ now)
    (hok : (c.session.takeIncoming P now e).2 = none)
    (hsame : (c.session.takeIncoming P now e).1.state = c.session.state) :
    if (c.resends c.session.state : Int) < c.session.config.maxRetries then
      (c.update P now e).resends c.session.state = c.resends c.session.state + 1 ∧
        (c.update P now e).session.state = c.session.state
    else (c.update P now e).resends = c.resends ∧ (c.update P now e).session.state = .dropped := by
  have hne : c.session.state ≠ .dropped ∧ c.session.state ≠ .established ∧
      c.session.state ≠ .initial := by
    obtain hs | hs := hwait <;> simp [hs]
  obtain ⟨hid, hd₁, hcount, hsent⟩ := take_waits hP hne.2.1 hsame
  obtain ⟨hr₁, -, -, hconfig⟩ : (c.take P now e).session.role = c.session.role ∧ _ ∧ _ ∧
      (c.take P now e).session.config = c.session.config := by
    simpa [Session.identity] using hid
  have hs₁ : (c.take P now e).session.state = c.session.state := hsame
  have hsend : (c.take P now e).session.sendPending P = ((c.take P now e).session, none) := by
    simp only [Session.sendPending, hs₁, hne.2.1, ↓reduceIte]
  have hupdate : c.update P now e = (c.take P now e).tick now := by
    have hsent : (c.take P now e).send P = c.take P now e := by
      simp only [Chronicle.send, hsend]
    unfold Chronicle.update
    rw [if_neg hne.1]
    simp only [hok, hsend, hsent, hs₁, hne.1, ↓reduceIte]
  have hcur : c.resends c.session.state = c.session.attemptCount := h.counted.current hr hwait
  obtain ⟨der, hkept⟩ := h.shape.kept hne.2.1 hne.2.2
  have hdue : now ≥ t ∧ (c.take P now e).session.state ≠ .established ∧
      (c.take P now e).session.state ≠ .initial := by
    rw [hs₁]
    exact ⟨hle, hne.2⟩
  have hcheck : (c.take P now e).session.checkDeadline now =
      (c.take P now e).session.onTimeout now := by
    unfold Session.checkDeadline
    rw [hd₁, hd]
    exact if_pos hdue
  have hresp : (c.take P now e).session.role ≠ .responder := by simp [hr₁, hr]
  rw [hupdate, hcur]
  simp only [Chronicle.tick, hcheck]
  split
  · rename_i hlt
    have hresend : (c.take P now e).session.onTimeout now = { (c.take P now e).session with
        attemptCount := (c.take P now e).session.attemptCount + 1
        deadline := some (now + (c.take P now e).session.config.retryIntervalSeconds)
        outgoingPdus := (c.take P now e).session.outgoingPdus ++
          (c.take P now e).session.lastSent.toList } := by
      unfold Session.onTimeout
      rw [if_neg hresp, if_neg (by rw [hcount, hconfig]; omega), Session.resend_eq]
    have hnew : (c.take P now e).session.newPdus ((c.take P now e).session.onTimeout now) = [der] := by
      rw [hresend, Session.newPdus_append rfl, hsent, hkept, Option.toList_some]
    refine ⟨?_, ?_⟩
    · rw [hnew, if_pos hs₁.symm, ← hcur]
      rfl
    · rw [hresend]
      exact hs₁
  · rename_i hge
    have hdrop : (c.take P now e).session.onTimeout now =
        { (c.take P now e).session with state := .dropped } := by
      unfold Session.onTimeout
      rw [if_neg hresp, if_pos (by rw [hcount, hconfig]; omega)]
    have hnew : (c.take P now e).session.newPdus ((c.take P now e).session.onTimeout now) = [] := by
      rw [hdrop]
      exact Session.newPdus_of_eq rfl
    rw [hnew, hdrop]
    refine ⟨funext fun st => ?_, rfl⟩
    split <;> rfl

/-- Whatever is called, retries and cached replies are exact and bounded. -/
theorem disciplined {role : Role} {own : Option (KeyId β)} {keys : KeyLookup β}
    {config : SessionConfig} (hmax : 0 ≤ config.maxRetries) (as : List (Act β π)) :
    ((start role own keys config).acts P as).session =
        ((Session.new role own keys config).performAll P as).1 ∧
      ((start role own keys config).acts P as).Disciplined P := by
  have h : ((start role own keys config).acts P as).Lawful P := (Lawful.start hmax).acts hP as
  refine ⟨acts_session P _ as, ?_⟩
  exact {
    two := h.shape.two
    cached := fun _ => h.shape.cached
    duplicate := fun der rest now e hacc hq => by
      rw [Session.takeIncoming_resent hq (h.accepted.symm.trans hacc), Session.resend_eq]
    bounded := h.counted.bounded
    mute := h.counted.mute
    timeout := fun _ _ _ hr hwait hd hle hok hsame => update_timeout hP h hr hwait hd hle hok hsame
    established := acts_established hP
    dropped := acts_dropped }

end

/-! ## Alice asks until she gives up -/

open KemMake.Ideal

/-- Every request of Alice's goes unanswered but one, of which she gets the answer twice. -/
def aliceRetries : List (Act Sym Pdu) :=
  [.initiate (staticId 1) 0 (draw 0), .update 5 (draw 2), .postPdu Dispatcher.bobResponse,
    .update 6 (draw 2), .postPdu Dispatcher.bobResponse, .update 7 (draw 3), .update 11 (draw 3),
    .update 16 (draw 3)]

theorem disciplined_aliceRetries :
    ((start .initiator (some (staticId 0)) (staticLookup 0) {}).acts ideal aliceRetries).session =
        ((Session.new .initiator (some (staticId 0)) (staticLookup 0) {}).performAll ideal
          aliceRetries).1 ∧
      ((start .initiator (some (staticId 0)) (staticLookup 0) {}).acts ideal
        aliceRetries).Disciplined ideal :=
  disciplined ideal_correct.encrypt_ne_nil (by decide) aliceRetries

/-- Two requests, then four requests for completion: the first, one for the duplicate, two
retries; the next timeout ends it. -/
example :
    let c := (start .initiator (some (staticId 0)) (staticLookup 0) {}).acts ideal aliceRetries
    c.handshake.length = 6 ∧ c.resends .expectSessionInitResponse = 1 ∧
      c.resends .expectSessionCompletionResponse = 2 ∧
      (c.update ideal 21 (draw 3)).session.state = .dropped := by
  decide +kernel

end Chronicle

end KemMake
