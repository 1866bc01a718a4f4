import KemMake.Lossy

/-!
# What a FIFO channel carries

A position is what the reader of a channel has come to: the handshake, or the number of the
next Message. A channel that keeps the order leads from the position of its reader to that of
its writer.
-/

namespace KemMake

variable {β π : Type} {P : Primitives β π} {q : Peers P}

/-! ## Positions -/

/-- Where a PDU takes its reader, if it may come there. -/
def MakePayload.next : MakePayload β → Option Nat → Option (Option Nat)
  | .sessionInitRequest _, none => some none
  | .sessionInitResponse _, none => some none
  | .sessionCompletionRequest _, none => some (some 1)
  | .sessionCompletionResponse resp, none => some (some (if resp.m.isSome then 1 else 0))
  | .sessionCompletionRequest _, some n => some (some n)
  | .sessionCompletionResponse _, some n => some (some n)
  | .message msg, some n => if msg.seq = n then some (some (n + 1)) else none
  | _, _ => none

/-- One PDU. -/
def readOne (P : Primitives β π) (position : Option Nat) (der : π) : Option (Option Nat) :=
  (P.load der).toOption.bind fun msg => msg.payload.next position

/-- The PDUs take a reader from one position to the other. -/
def Reads (P : Primitives β π) (position : Option Nat) (ders : List π) (last : Option Nat) : Prop :=
  ders.foldlM (readOne P) position = some last

theorem reads_nil {i j : Option Nat} : Reads P i [] j ↔ i = j := by
  simp [Reads]

theorem reads_cons {i j : Option Nat} {der : π} {ders : List π} :
    Reads P i (der :: ders) j ↔ ∃ k, readOne P i der = some k ∧ Reads P k ders j := by
  simp [Reads, Option.bind_eq_some_iff]

theorem reads_append {i j : Option Nat} {ders more : List π} :
    Reads P i (ders ++ more) j ↔ ∃ k, Reads P i ders k ∧ Reads P k more j := by
  simp [Reads, List.foldlM_append, Option.bind_eq_some_iff]

theorem reads_singleton {i j : Option Nat} {der : π} :
    Reads P i [der] j ↔ readOne P i der = some j := by
  rw [reads_cons]
  simp [reads_nil]

theorem readOne_load {der : π} {msg : MakeMessage β} (hl : P.load der = .ok msg)
    (i : Option Nat) : readOne P i der = msg.payload.next i := by
  simp [readOne, hl, Except.toOption]

namespace Session

/-- What this end expects next. -/
def expects (s : Session β π) : Option Nat :=
  if s.state = .established then some s.recvCount else none

/-- Where the reader of all that this end has sent will be. -/
def writes (s : Session β π) : Option Nat := s.sessionKeys.map fun _ => s.sendCount

end Session

/-! ## The PDUs of a handshake -/

section
variable (hP : P.Correct)
include hP

theorem Offered.readOne_pdu (o : Offered q) : readOne P none o.pdu = some none := by
  rw [readOne_load (o.load_pdu hP)]
  rfl

theorem Answered.readOne_pdu (r : Answered q) : readOne P none r.pdu = some none := by
  rw [readOne_load (r.load_pdu hP)]
  rfl

theorem Called.readOne_pdu (c : Called q) : readOne P none c.pdu = some (some 1) := by
  rw [readOne_load (c.load_pdu hP)]
  rfl

theorem Called.readOne_again (c : Called q) (n : Nat) : readOne P (some n) c.pdu = some (some n) := by
  rw [readOne_load (c.load_pdu hP)]
  rfl

theorem Called.readOne_replyPdu (c : Called q) (reply : Option (List β)) :
    readOne P none (c.replyPdu reply) = some (some (if reply.isSome then 1 else 0)) := by
  rw [readOne_load (c.load_replyPdu hP reply)]
  simp [MakeMessage.build, MakePayload.next, Called.confirmation]

theorem Called.readOne_replyAgain (c : Called q) (reply : Option (List β)) (n : Nat) :
    readOne P (some n) (c.replyPdu reply) = some (some n) := by
  rw [readOne_load (c.load_replyPdu hP reply)]
  rfl

end

/-! ## What an end writes -/

section
variable {t t' : Progress q} {a b : End β π} {s s' : Session β π}

/-- A step that sends nothing. -/
theorem reads_quiet (hw : s'.writes = s.writes) (ho : s'.outgoingPdus = s.outgoingPdus) :
    ∃ ders, s'.outgoingPdus = s.outgoingPdus ++ ders ∧ Reads P s.writes ders s'.writes :=
  ⟨[], by rw [ho, List.append_nil], by rw [reads_nil, hw]⟩

theorem AliceAt.resends (hP : P.Correct) (h : AliceAt t s) (hd : s.state ≠ .dropped) :
    Reads P s.writes s.lastSent.toList s.writes := by
  have hkeyed := h.keyed
  cases h.phase with
  | silent _ _ hlast | established _ _ _ _ _ _ hlast =>
    rw [hlast]
    exact reads_nil.mpr rfl
  | calling o _ _ hcall _ hlast =>
    rw [hcall] at hkeyed
    simp only [Session.writes, hkeyed, hlast, Option.map_none, Option.toList_some]
    exact reads_singleton.mpr (o.readOne_pdu hP)
  | called c _ hcall _ _ hlast =>
    rw [hcall] at hkeyed
    simp only [Session.writes, hkeyed, hlast, Option.map_some, Option.toList_some]
    exact reads_singleton.mpr (c.readOne_again hP _)
  | dropped hdrop => exact absurd hdrop hd

theorem BobAt.resends (hP : P.Correct) (h : BobAt t s) (hd : s.state ≠ .dropped) :
    Reads P s.writes s.lastSent.toList s.writes := by
  have hkeyed := h.keyed
  cases h.phase with
  | silent _ _ hlast =>
    rw [hlast]
    exact reads_nil.mpr rfl
  | waiting r _ _ hreply _ hlast =>
    rw [hreply] at hkeyed
    simp only [Session.writes, hkeyed, hlast, Option.map_none, Option.toList_some]
    exact reads_singleton.mpr (r.readOne_pdu hP)
  | established c reply _ hreply _ hlast =>
    rw [hreply] at hkeyed
    simp only [Session.writes, hkeyed, hlast, Option.map_some, Option.toList_some]
    exact reads_singleton.mpr (c.readOne_replyAgain hP reply _)
  | dropped hdrop => exact absurd hdrop hd

theorem Linked.alice_took_writes (hP : P.Correct) (h : Linked q t a b) {now : Int}
    {e : Entropy β} {x : Option PyError} {calls : List (EncryptCall β)}
    (hd : a.session.state ≠ .dropped)
    (ht : Session.TookEncrypting P a.session now e s' x calls) :
    ∃ ders, s'.outgoingPdus = a.session.outgoingPdus ++ ders ∧
      Reads P a.session.writes ders s'.writes := by
  have hrole := h.aliceAt.role
  have hall := h.alice_took hP hd ht
  cases ht with
  | nothing ht hst =>
    have hw : s'.writes = a.session.writes := by
      have ho := ht.outbound hst
      simp only [Session.outbound, Prod.mk.injEq] at ho
      simp [Session.writes, ho]
    cases ht with
    | idle | ignored | undecoded | refused | confirmed | replied => exact reads_quiet hw rfl
    | resent =>
      rw [Session.resend_eq]
      exact ⟨_, rfl, h.aliceAt.resends hP hd⟩
    | answered _ _ _ _ hresp | completed _ _ _ _ hresp =>
      rw [hrole] at hresp
      cases hresp
    | called _ _ _ hs =>
      have := hst (.inl hs)
      simp [Session.acceptInitResponse, hs] at this
    | received =>
      refine reads_quiet hw ?_
      rw [Session.countReceived_eq]
  | completed _ _ _ _ hresp =>
    rw [hrole] at hresp
    cases hresp
  | called hq hl hp hs hr hc hcall =>
    -- the session it leaves has what it sent last
    obtain ⟨t', h'⟩ := hall
    obtain ⟨c, _, _, _, hlast, _⟩ := h'.aliceAt.calledPhase rfl
    have hkeys := h.aliceLog.unkeyed (.inr (.inl hs))
    refine ⟨[c.pdu], ?_, ?_⟩
    · simp only [Session.acceptInitResponse, Option.some.injEq] at hlast ⊢
      rw [hlast]
    · simp only [Session.writes, hkeys, Session.acceptInitResponse, Session.sendCount, hrole,
        Option.map_none, Option.map_some]
      exact reads_singleton.mpr (c.readOne_pdu hP)

theorem Linked.bob_took_writes (hP : P.Correct) (h : Linked q t a b) {now : Int}
    {e : Entropy β} (he : e.Fits P) {x : Option PyError} {calls : List (EncryptCall β)}
    (hd : b.session.state ≠ .dropped)
    (ht : Session.TookEncrypting P b.session now e s' x calls) :
    ∃ ders, s'.outgoingPdus = b.session.outgoingPdus ++ ders ∧
      Reads P b.session.writes ders s'.writes := by
  have hrole := h.bobAt.role
  have hall := h.bob_took hP he hd ht
  cases ht with
  | nothing ht hst =>
    have hw : s'.writes = b.session.writes := by
      have ho := ht.outbound hst
      simp only [Session.outbound, Prod.mk.injEq] at ho
      simp [Session.writes, ho]
    cases ht with
    | idle | ignored | undecoded | refused => exact reads_quiet hw rfl
    | resent =>
      rw [Session.resend_eq]
      exact ⟨_, rfl, h.bobAt.resends hP hd⟩
    | answered hq hl hp hs =>
      obtain ⟨t', h'⟩ := hall
      obtain ⟨r, _, _, _, hlast, _⟩ := h'.bobAt.waitingPhase rfl
      have hkeys := h.bobLog.unkeyed (.inl hs)
      refine ⟨[r.pdu], ?_, ?_⟩
      · simp only [Session.acceptInitRequest, Option.some.injEq] at hlast ⊢
        rw [hlast]
      · rw [hw]
        simp only [Session.writes, hkeys, Option.map_none]
        exact reads_singleton.mpr (r.readOne_pdu hP)
    | completed _ _ _ hs =>
      have := hst (.inr hs)
      simp [Session.acceptCompletion, hs] at this
    | called _ _ _ _ hri | confirmed _ _ _ _ hri | replied _ _ _ _ hri =>
      rw [hrole] at hri
      cases hri
    | received =>
      refine reads_quiet hw ?_
      rw [Session.countReceived_eq]
  | @completed der rest msg req o hq hl hp hs hr hc ho =>
    obtain ⟨r, hans, hnone, hholds, _⟩ := h.bobAt.waitingPhase hs
    obtain ⟨c, hcall, rfl, rfl⟩ := h.said_completion hP (hq ▸ List.mem_cons_self) hl hp
    cases hans.symm.trans (Progress.answer_of_call hcall)
    cases (openCompletion_call hP hholds).symm.trans ho
    have hkeys := h.bobLog.unkeyed (.inr (.inr hs))
    have hcount := h.bobLog.counted
    rw [h.bobLog.silent hkeys] at hcount
    simp only [Session.sendCount, hrole, List.length_nil, Nat.zero_min] at hcount
    refine ⟨[c.replyPdu b.session.pendingPayload], rfl, ?_⟩
    simp only [Session.writes, hkeys, Session.acceptCompletion, Session.opened, Session.sendCount,
      hrole, hcount, Option.map_none, Option.map_some]
    exact reads_singleton.mpr (c.readOne_replyPdu hP _)
  | called _ _ _ _ hri =>
    rw [hrole] at hri
    cases hri

/-- A Message has the number that is next. -/
theorem sent_writes (hP : P.Correct)
    (hcid : ∀ cid, s.state = .established → s.cid = some cid → P.octets cid = cidLen)
    {x : Option PyError} (hs : Session.Sent P s s' x) :
    ∃ ders, s'.outgoingPdus = s.outgoingPdus ++ ders ∧ Reads P s.writes ders s'.writes := by
  cases hs with
  | idle | failed => exact reads_quiet rfl rfl
  | @message payload pdu hest hp hm =>
    obtain ⟨keys, cid, nonce, hk, hc, _, rfl⟩ := messagePdu_parts hm
    have hload := hP.load_dump (MakeMessage.build cid (.message
      ⟨s.sendCount, P.encrypt keys.aeadName (s.sending keys).1 nonce payload cid⟩))
      ⟨hcid cid hest hc, fun _ h => by cases h⟩
    have hnext : s.countSent.sendCount = s.sendCount + 1 := by
      unfold Session.countSent Session.sendCount
      cases s.role <;> simp
    rw [Session.countSent_eq] at hnext ⊢
    refine ⟨[_], rfl, reads_singleton.mpr ?_⟩
    rw [readOne_load hload]
    simp only [Session.writes, hk, Option.map_some, MakeMessage.build, MakePayload.next,
      ↓reduceIte]
    exact congrArg (fun n => some (some n)) hnext.symm

theorem Linked.alice_sent_writes (hP : P.Correct) (h : Linked q t a b) {x : Option PyError}
    (hs : Session.Sent P a.session s' x) :
    ∃ ders, s'.outgoingPdus = a.session.outgoingPdus ++ ders ∧
      Reads P a.session.writes ders s'.writes := by
  refine sent_writes hP (fun cid hest hc => ?_) hs
  obtain ⟨c, _, _, hcid, _⟩ := h.aliceAt.establishedPhase hest
  cases hc.symm.trans hcid
  exact c.cid_fits

theorem Linked.bob_sent_writes (hP : P.Correct) (h : Linked q t a b) {x : Option PyError}
    (hs : Session.Sent P b.session s' x) :
    ∃ ders, s'.outgoingPdus = b.session.outgoingPdus ++ ders ∧
      Reads P b.session.writes ders s'.writes := by
  refine sent_writes hP (fun cid hest hc => ?_) hs
  obtain ⟨c, _, _, hcid, _⟩ := h.bobAt.establishedPhase hest
  cases hc.symm.trans hcid
  exact c.cid_fits

theorem ticked_writes {now : Int} (hre : Reads P s.writes s.lastSent.toList s.writes)
    (hk : Session.Ticked s now s') :
    ∃ ders, s'.outgoingPdus = s.outgoingPdus ++ ders ∧ Reads P s.writes ders s'.writes := by
  cases hk with
  | idle | dropped => exact reads_quiet rfl rfl
  | retried =>
    rw [Session.resend_eq]
    exact ⟨_, rfl, hre⟩

end

/-! ## What an end takes -/

namespace Session
variable [DecidableEq β] [DecidableEq π] {s : Session β π} {der : π} {rest : List π} {now : Int}
  {e : Entropy β}

theorem takeIncoming_again (hq : s.incomingQueue = der :: rest)
    (hlast : s.lastReceived = some der) :
    s.takeIncoming P now e = ((s.popped rest).resend, none) := by
  unfold takeIncoming
  simp only [hq]
  unfold processIncoming
  exact if_pos hlast

theorem takeIncoming_dispatch {msg : MakeMessage β} (hq : s.incomingQueue = der :: rest)
    (hlast : s.lastReceived ≠ some der) (hl : P.load der = .ok msg) (hs : s.state ≠ .initial)
    (hc : s.cid = some msg.cid) :
    s.takeIncoming P now e = (s.popped rest).dispatch P msg.payload der now e := by
  unfold takeIncoming
  simp only [hq]
  exact processIncoming_dispatch (s := s.popped rest) hlast hl hs hc

theorem takeIncoming_first {msg : MakeMessage β} {req : SessionInitRequest β}
    (hq : s.incomingQueue = der :: rest) (hlast : s.lastReceived ≠ some der)
    (hl : P.load der = .ok msg) (hs : s.state = .initial) (hr : s.role = .responder)
    (hp : msg.payload = .sessionInitRequest req) : s.takeIncoming P now e =
      { s.popped rest with cid := some msg.cid }.handleSessionInitRequest P req der now e := by
  unfold takeIncoming
  simp only [hq]
  exact processIncoming_first (s := s.popped rest) hlast hl hs hr hp

omit [DecidableEq π] in
theorem dispatch_response {resp : SessionInitResponse β} (hs : s.state = .expectSessionInitResponse)
    (hr : s.role = .initiator) : s.dispatch P (.sessionInitResponse resp) der now e =
      s.handleSessionInitResponse P resp der now e := by
  simp only [dispatch, hs, hr]

omit [DecidableEq π] in
theorem dispatch_reply {resp : SessionCompletionResponse β}
    (hs : s.state = .expectSessionCompletionResponse) (hr : s.role = .initiator) :
    s.dispatch P (.sessionCompletionResponse resp) der now e =
      s.handleSessionCompletionResponse P resp der := by
  simp only [dispatch, hs, hr]

omit [DecidableEq π] in
theorem dispatch_completion {req : SessionCompletionRequest β}
    (hs : s.state = .expectSessionCompletionRequest) (hr : s.role = .responder) :
    s.dispatch P (.sessionCompletionRequest req) der now e =
      s.handleSessionCompletionRequest P req der := by
  simp only [dispatch, hs, hr]

omit [DecidableEq π] in
theorem dispatch_message {msg : Message β} (hs : s.state = .established) :
    s.dispatch P (.message msg) der now e = s.handleEstablishedMessage P msg := by
  simp only [dispatch, hs]

omit [DecidableEq β] [DecidableEq π] in
theorem expects_early (hs : s.state ≠ .established) : s.expects = none := by
  simp [expects, hs]

omit [DecidableEq β] [DecidableEq π] in
theorem expects_established (hs : s.state = .established) : s.expects = some s.recvCount := by
  simp [expects, hs]

omit [DecidableEq β] [DecidableEq π] in
theorem expects_resend : s.resend.expects = s.expects := by
  rw [resend_eq]
  rfl

end Session

/-! What the handlers make of honest PDUs. -/

section
variable {s : Session β π} {der : π} {now : Int} {e : Entropy β}

theorem handleSessionInitResponse_call (hP : P.Correct) {r : Answered q}
    (h : HoldsOffer r.toOffered s) : ∃ c outDer, s.handleSessionInitResponse P r.response der now e =
      (s.acceptInitResponse r.response der now e c outDer, none) := by
  obtain ⟨c, _, _, _, hok⟩ := completionCall_answer hP (e := e) h
  have hne : c.completionCall.cM ≠ [] := hP.encrypt_ne_nil _ _ _ _ _
  refine ⟨c.completionCall, P.dump (MakeMessage.build c.cid (.sessionCompletionRequest
    ⟨c.completionCall.cM, c.completionCall.ct4, e.nonce⟩)), ?_⟩
  simp only [Session.handleSessionInitResponse, hok, SessionCompletionRequest.build, hne, ↓reduceIte]
  rfl

theorem handleSessionCompletionResponse_confirmation [DecidableEq β] (hP : P.Correct) {c : Called q}
    (reply : Option (List β)) (hk : s.sessionKeys = some c.keys) (hc : s.cid = some c.cid)
    (ht : s.sentPlaintextForHM = some c.text) :
    s.handleSessionCompletionResponse P (c.confirmation reply) der =
      ({ s with
          seqB2a := if reply.isSome then 1 else s.seqB2a
          outgoingPayloads := s.outgoingPayloads ++ reply.toList }.acceptReply der, none) := by
  simp only [Session.handleSessionCompletionResponse, ht, Called.confirmation, ne_eq,
    not_true_eq_false, ↓reduceIte]
  cases reply with
  | none => simp [Session.acceptReply, ht]
  | some payload =>
    simp only [Option.map_some, openReply_call hP payload hk hc]
    rfl

theorem handleEstablishedMessage_call (hP : P.Correct) {c : Called q} {key nonce : List β}
    (text : List β) (hk : s.sessionKeys = some c.keys) (hc : s.cid = some c.cid)
    (hkey : (s.receiving c.keys).1 = key)
    (hn : nonceForSeq P (s.receiving c.keys).2.1 s.recvCount = .ok nonce) :
    s.handleEstablishedMessage P ⟨s.recvCount, P.encrypt c.aead key nonce text c.cid⟩ =
      ({ s.countReceived with
          outgoingPayloads := s.countReceived.outgoingPayloads ++ [text] }, none) := by
  have hopen := openMessage_call hP text hk hc hn
  rw [hkey, if_pos rfl] at hopen
  simp only [Session.handleEstablishedMessage, hopen]

end

section
variable [DecidableEq β] [DecidableEq π] {t : Progress q} {a b : End β π} {der : π}
  {rest : List π} {now : Int} {e : Entropy β} {k : Option Nat}

/-- A duplicate leaves the position. -/
theorem takes_again {s : Session β π} (hq : s.incomingQueue = der :: rest)
    (hlast : s.lastReceived = some der) (hk : k = s.expects) :
    (s.takeIncoming P now e).2 = none ∧ (s.takeIncoming P now e).1.expects = k := by
  rw [Session.takeIncoming_again hq hlast, Session.expects_resend]
  exact ⟨rfl, hk.symm⟩

theorem chooseAead_common {acceptable requested : List Aead} :
    (∃ aead, chooseAead acceptable (requested.map aeadOid) = .ok aead) ↔
      ∃ aead ∈ acceptable, aead ∈ requested := by
  constructor
  · rintro ⟨aead, hok⟩
    obtain ⟨ha, hr⟩ := Session.chooseAead_ok hok
    obtain ⟨aead', hr', heq⟩ := List.mem_map.mp hr
    exact ⟨aead, ha, aeadOid_inj heq ▸ hr'⟩
  · rintro ⟨aead, ha, hr⟩
    unfold chooseAead
    cases hf : acceptable.find? fun name => decide (aeadOid name ∈ requested.map aeadOid) with
    | some chosen => exact ⟨chosen, rfl⟩
    | none =>
      have := List.find?_eq_none.mp hf aead ha
      simp only [decide_eq_true_eq] at this
      exact absurd (List.mem_map_of_mem hr) this

/-- The next Message takes its reader one further. -/
theorem takes_message (hP : P.Correct) {s : Session β π} {c : Called q} {key nonce text : List β}
    {n : Nat} (hs : s.state = .established) (hk : s.sessionKeys = some c.keys)
    (hc : s.cid = some c.cid) (hkey : (s.receiving c.keys).1 = key) (hseq : n = s.recvCount)
    (hn : nonceForSeq P (s.receiving c.keys).2.1 n = .ok nonce)
    (hq : s.incomingQueue = c.messagePdu key nonce n text :: rest)
    (hlast : s.lastReceived ≠ some (c.messagePdu key nonce n text)) :
    (s.takeIncoming P now e).2 = none ∧
      (s.takeIncoming P now e).1.expects = some (n + 1) := by
  subst hseq
  have hok : (s.popped rest).handleEstablishedMessage P
      ⟨s.recvCount, P.encrypt c.aead key nonce text c.cid⟩ = _ :=
    handleEstablishedMessage_call hP text hk hc hkey hn
  have hdispatch : (s.popped rest).dispatch P (.message
      ⟨s.recvCount, P.encrypt c.aead key nonce text c.cid⟩)
      (c.messagePdu key nonce s.recvCount text) now e = _ := Session.dispatch_message hs
  rw [Session.takeIncoming_dispatch hq hlast (c.load_messagePdu hP key nonce s.recvCount text)
    (by simp [hs]) hc]
  simp only [MakeMessage.build, hdispatch, hok, Session.countReceived_eq]
  refine ⟨trivial, ?_⟩
  cases hr : s.role <;> simp [Session.expects, Session.recvCount, hs, hr]

/-- Alice takes what Bob writes in order without an exception. -/
theorem Linked.alice_takes (hP : P.Correct) (h : Linked q t a b)
    (hd : a.session.state ≠ .dropped) (hq : a.session.incomingQueue = der :: rest)
    (hread : readOne P a.session.expects der = some k) :
    (a.session.takeIncoming P now e).2 = none ∧
      (a.session.takeIncoming P now e).1.expects = k := by
  have hsaid := h.bobSaid der (List.mem_append_left _ (h.toAlice der (hq ▸ List.mem_cons_self)))
  have hrole := h.aliceAt.role
  cases h.aliceAt.phase with
  | dropped hdrop => exact absurd hdrop hd
  | silent hs hoffer =>
    have hans : t.answer? = none := by
      rw [Progress.silent_of_offer hoffer]
      rfl
    rcases hsaid with ⟨r, hr, _⟩ | ⟨c, reply, hr, _⟩
    · rw [hans] at hr
      cases hr
    · rw [Progress.answer_of_call (Progress.call_of_reply hr)] at hans
      cases hans
  | calling o hs hoffer hcall hholds _ hlast =>
    rcases hsaid with ⟨r, hr, rfl⟩ | ⟨c, reply, hr, _⟩
    · cases hoffer.symm.trans (Progress.offer_of_answer hr)
      have hearly : a.session.expects = none := Session.expects_early (by simp [hs])
      rw [hearly, Answered.readOne_pdu hP] at hread
      cases hread
      obtain ⟨c, outDer, hok⟩ : ∃ c outDer, (a.session.popped rest).handleSessionInitResponse P
          r.response r.pdu now e = (_, none) := handleSessionInitResponse_call hP
        ⟨hholds.own, hholds.keys, hholds.config, hholds.cid, hholds.ephemeral, hholds.first⟩
      have hdispatch : (a.session.popped rest).dispatch P (.sessionInitResponse r.response) r.pdu now
          e = _ := Session.dispatch_response hs hrole
      rw [Session.takeIncoming_dispatch hq (by simp [hlast]) (r.load_pdu hP) (by simp [hs])
        hholds.cid]
      simp only [MakeMessage.build, hdispatch, hok]
      exact ⟨trivial, rfl⟩
    · rw [Progress.call_of_reply hr] at hcall
      cases hcall
  | called c hs hcall hcid htext _ hlast =>
    have hearly : a.session.expects = none := Session.expects_early (by simp [hs])
    have hkeys : a.session.sessionKeys = some c.keys := by rw [h.aliceAt.keyed, hcall]; rfl
    rw [hearly] at hread
    rcases hsaid with ⟨r, hr, rfl⟩ | ⟨c', reply, hr, rfl | ⟨n, call, nonce, _, _, rfl⟩⟩
    · cases hr.symm.trans (Progress.answer_of_call hcall)
      rw [Answered.readOne_pdu hP] at hread
      cases hread
      exact takes_again hq hlast hearly.symm
    · cases hcall.symm.trans (Progress.call_of_reply hr)
      rw [Called.readOne_replyPdu hP] at hread
      cases hread
      have hne : a.session.lastReceived ≠ some (c.replyPdu reply) := by
        rw [hlast]
        intro heq
        have := Option.some.inj heq ▸ c.toAnswered.load_pdu hP
        rw [c.load_replyPdu hP] at this
        cases this
      rw [Session.takeIncoming_dispatch hq hne (c.load_replyPdu hP reply) (by simp [hs]) hcid]
      have hcount := (h.aliceRec.early (by simp [hs])).2
      simp only [Session.recvCount, hrole] at hcount
      have hdispatch : (a.session.popped rest).dispatch P
          (.sessionCompletionResponse (c.confirmation reply)) (c.replyPdu reply) now e = _ :=
        Session.dispatch_reply hs hrole
      simp only [MakeMessage.build, hdispatch,
        handleSessionCompletionResponse_confirmation hP (s := a.session.popped rest) reply hkeys hcid
          htext]
      refine ⟨trivial, ?_⟩
      simp [Session.expects, Session.acceptReply, Session.recvCount, hrole, hcount]
    · rw [readOne_load (c'.load_messagePdu hP _ _ _ _)] at hread
      cases hread
  | established c reply hs hreply hcid _ _ hlast =>
    have hcall := Progress.call_of_reply hreply
    have hexp := Session.expects_established hs
    have hkeys : a.session.sessionKeys = some c.keys := by rw [h.aliceAt.keyed, hcall]; rfl
    rw [hexp] at hread
    rcases hsaid with ⟨r, hr, rfl⟩ | ⟨c', reply', hr, rfl | ⟨n, call, nonce, hn, hnonce, rfl⟩⟩
    · rw [readOne_load (r.load_pdu hP)] at hread
      cases hread
    · cases hreply.symm.trans hr
      rw [Called.readOne_replyAgain hP] at hread
      cases hread
      exact takes_again hq hlast hexp.symm
    · cases hreply.symm.trans hr
      have hload := c.load_messagePdu hP c.keys.keyB2a nonce n call.plaintext
      rw [readOne_load hload] at hread
      simp only [MakeMessage.build, MakePayload.next] at hread
      split at hread
      · rename_i hseq
        obtain rfl : n = a.session.recvCount := by exact_mod_cast hseq
        cases hread
        have hne : a.session.lastReceived ≠ some (c.messagePdu c.keys.keyB2a nonce a.session.recvCount
            call.plaintext) := by
          rw [hlast]
          intro heq
          have := Option.some.inj heq ▸ c.load_replyPdu hP reply
          rw [hload] at this
          cases this
        have hrecv : a.session.receiving c.keys =
            (c.keys.keyB2a, c.keys.ivB2a, a.session.recvCount) := by
          rw [Session.receiving_eq, hrole]
        exact takes_message hP hs hkeys hcid (by rw [hrecv]) rfl (by rw [hrecv]; exact hnonce) hq hne
      · cases hread

/-- The two have an AEAD that Bob can choose. -/
def Peers.Common (q : Peers P) : Prop :=
  ∃ aead ∈ q.bobConfig.acceptableAeads, aead ∈ q.aliceConfig.acceptableAeads

theorem Linked.bob_takes_request (hP : P.Correct) (h : Linked q t a b) (he : e.Fits P)
    {o : Offered q} (hs : b.session.state = .initial) (hlast : b.session.lastReceived = none)
    (hq : b.session.incomingQueue = o.pdu :: rest) :
    ((b.session.takeIncoming P now e).2 = none ↔ q.Common) ∧
      (b.session.takeIncoming P now e).1.expects = none := by
  rw [Session.takeIncoming_first hq (by simp [hlast]) (o.load_pdu hP) hs h.bobAt.role rfl]
  unfold Session.handleSessionInitRequest
  have hcommon : (∃ aead, chooseAead q.bobConfig.acceptableAeads
      (q.aliceConfig.acceptableAeads.map aeadOid) = .ok aead) ↔ q.Common := chooseAead_common
  cases ha : chooseAead q.bobConfig.acceptableAeads (q.aliceConfig.acceptableAeads.map aeadOid) with
  | ok aead =>
    obtain ⟨r, rfl, _, hok⟩ := initReply_offer hP (o := o) (e := e)
      (s := { b.session.popped rest with cid := some o.cid }) h.bobAt.keys h.bobAt.config rfl he ha
    have hok' : { b.session.popped rest with cid := some (MakeMessage.build r.cid
        (.sessionInitRequest r.toOffered.request)).cid }.initReply P r.toOffered.request e =
          .ok r.initReply := hok
    rw [hok']
    exact ⟨iff_of_true rfl (hcommon.mp ⟨aead, ha⟩), rfl⟩
  | error y =>
    have hno : ¬ q.Common := by
      intro hc
      obtain ⟨aead, hok⟩ := hcommon.mpr hc
      rw [ha] at hok
      cases hok
    have hx : { b.session.popped rest with cid := some (MakeMessage.build o.cid
        (.sessionInitRequest o.request)).cid }.initReply P o.request e = .error y :=
      initReply_disjoint hP h.bobAt.keys h.bobAt.config ha
    rw [hx]
    exact ⟨iff_of_false (by simp) hno, Session.expects_early (by simp [hs])⟩

theorem Linked.bob_takes_completion (hP : P.Correct) (h : Linked q t a b) {c : Called q}
    (hs : b.session.state = .expectSessionCompletionRequest)
    (hholds : HoldsAnswer c.toAnswered b.session)
    (hlast : b.session.lastReceived = some c.toOffered.pdu)
    (hq : b.session.incomingQueue = c.pdu :: rest) :
    (b.session.takeIncoming P now e).2 = none ∧
      (b.session.takeIncoming P now e).1.expects = some 1 := by
  have hrole := h.bobAt.role
  have hne : b.session.lastReceived ≠ some c.pdu := by
    rw [hlast]
    intro heq
    have := Option.some.inj heq ▸ c.toOffered.load_pdu hP
    rw [c.load_pdu hP] at this
    cases this
  have hopen := openCompletion_call hP (s := b.session.popped rest) (c := c)
    ⟨hholds.config, hholds.cid, hholds.ephemeral, hholds.peer, hholds.first, hholds.second,
      hholds.third, hholds.nonce, hholds.aead⟩
  have hdispatch : (b.session.popped rest).dispatch P (.sessionCompletionRequest c.completion)
      c.pdu now e = _ := Session.dispatch_completion hs hrole
  rw [Session.takeIncoming_dispatch hq hne (c.load_pdu hP) (by simp [hs]) hholds.cid]
  simp only [MakeMessage.build, hdispatch, Session.handleSessionCompletionRequest_eq, hopen]
  refine ⟨trivial, ?_⟩
  simp [Session.expects, Session.acceptCompletion, Session.opened, Session.recvCount, hrole]

/-- Bob takes what Alice writes in order, but for a request without an AEAD of his. -/
theorem Linked.bob_takes (hP : P.Correct) (h : Linked q t a b) (he : e.Fits P)
    (hd : b.session.state ≠ .dropped) (hq : b.session.incomingQueue = der :: rest)
    (hread : readOne P b.session.expects der = some k) :
    ((b.session.takeIncoming P now e).2 = none ↔ b.session.state ≠ .initial ∨ q.Common) ∧
      (b.session.takeIncoming P now e).1.expects = k := by
  have htakes : b.session.state ≠ .initial → ((b.session.takeIncoming P now e).2 = none ∧
      (b.session.takeIncoming P now e).1.expects = k) →
      ((b.session.takeIncoming P now e).2 = none ↔ b.session.state ≠ .initial ∨ q.Common) ∧
        (b.session.takeIncoming P now e).1.expects = k :=
    fun hs hk => ⟨iff_of_true hk.1 (.inl hs), hk.2⟩
  have hsaid := h.aliceSaid der (List.mem_append_left _ (h.toBob der (hq ▸ List.mem_cons_self)))
  have hrole := h.bobAt.role
  cases h.bobAt.phase with
  | dropped hdrop => exact absurd hdrop hd
  | silent hs hans _ hlast =>
    have hearly : b.session.expects = none := Session.expects_early (by simp [hs])
    rcases hsaid with ⟨o, ho, rfl⟩ | ⟨c, hc, _⟩
    · rw [hearly, Offered.readOne_pdu hP] at hread
      cases hread
      simpa [hs] using h.bob_takes_request hP he hs hlast hq
    · rw [Progress.answer_of_call hc] at hans
      cases hans
  | waiting r hs hans hreply hholds _ hlast =>
    have hearly : b.session.expects = none := Session.expects_early (by simp [hs])
    rw [hearly] at hread
    rcases hsaid with ⟨o, ho, rfl⟩ | ⟨c, hc, rfl | ⟨n, call, nonce, _, _, _, rfl⟩⟩
    · cases ho.symm.trans (Progress.offer_of_answer hans)
      rw [Offered.readOne_pdu hP] at hread
      cases hread
      exact htakes (by simp [hs]) (takes_again hq hlast hearly.symm)
    · cases hans.symm.trans (Progress.answer_of_call hc)
      rw [Called.readOne_pdu hP] at hread
      cases hread
      exact htakes (by simp [hs]) (h.bob_takes_completion hP hs hholds hlast hq)
    · rw [readOne_load (c.load_messagePdu hP _ _ _ _)] at hread
      cases hread
  | established c reply hs hreply hcid _ hlast =>
    have hexp := Session.expects_established hs
    have hkeys : b.session.sessionKeys = some c.keys := by rw [h.bobAt.keyed, hreply]; rfl
    rw [hexp] at hread
    rcases hsaid with ⟨o, ho, rfl⟩ | ⟨c', hc, rfl | ⟨n, call, nonce, _, _, hnonce, rfl⟩⟩
    · rw [readOne_load (o.load_pdu hP)] at hread
      cases hread
    · cases (Progress.call_of_reply hreply).symm.trans hc
      rw [Called.readOne_again hP] at hread
      cases hread
      exact htakes (by simp [hs]) (takes_again hq hlast hexp.symm)
    · cases (Progress.call_of_reply hreply).symm.trans hc
      have hload := c.load_messagePdu hP c.keys.keyA2b nonce n call.plaintext
      rw [readOne_load hload] at hread
      simp only [MakeMessage.build, MakePayload.next] at hread
      split at hread
      · rename_i hseq
        obtain rfl : n = b.session.recvCount := by exact_mod_cast hseq
        cases hread
        have hne : b.session.lastReceived ≠ some (c.messagePdu c.keys.keyA2b nonce b.session.recvCount
            call.plaintext) := by
          rw [hlast]
          intro heq
          have := Option.some.inj heq ▸ c.load_pdu hP
          rw [hload] at this
          cases this
        have hrecv : b.session.receiving c.keys =
            (c.keys.keyA2b, c.keys.ivA2b, b.session.recvCount) := by
          rw [Session.receiving_eq, hrole]
        exact htakes (by simp [hs]) (takes_message hP hs hkeys hcid (by rw [hrecv]) rfl
          (by rw [hrecv]; exact hnonce) hq hne)
      · cases hread

end

end KemMake
