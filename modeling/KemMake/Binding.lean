import KemMake.Ideal
import KemMake.Tables

/-!
# What a cid is bound to

`initiate` returns a cid for one peer. The responder table takes any cid that a
request names, the pending ones of this side included; as long as no request
opens a responder session under the cid, every session it has is an initiator's
with the key and the peer it was opened with.
-/

namespace KemMake

namespace Session
variable {β π : Type}

/-- An initiator's session with these two key ids. -/
structure BoundTo (ownKeyId peerKeyId : KeyId β) (s : Session β π) : Prop where
  role : s.role = .initiator
  own : s.ownKeyId = some ownKeyId
  peer : s.peerKeyId = some peerKeyId

variable {ownKeyId peerKeyId : KeyId β} {s : Session β π}

theorem BoundTo.of_eq {s' : Session β π} (h : s.BoundTo ownKeyId peerKeyId)
    (hi : s'.identity = s.identity) (hp : s'.pursuit = s.pursuit) : s'.BoundTo ownKeyId peerKeyId := by
  simp only [identity, pursuit, Prod.mk.injEq] at hi hp
  exact ⟨hi.1.trans h.role, hi.2.1.trans h.own, hp.2.1.trans h.peer⟩

theorem BoundTo.update {P : Primitives β π} [DecidableEq β] [DecidableEq π]
    (hP : ∀ aead key nonce text ad, P.encrypt aead key nonce text ad ≠ [])
    (h : s.BoundTo ownKeyId peerKeyId) (now : Int) (e : Entropy β) :
    (s.update P now e).1.BoundTo ownKeyId peerKeyId :=
  h.of_eq (update_identity hP s now e) (update_pursuit hP h.role now e)

theorem BoundTo.postPdu (h : s.BoundTo ownKeyId peerKeyId) (der : π) :
    (s.postPdu der).BoundTo ownKeyId peerKeyId := ⟨h.role, h.own, h.peer⟩

theorem BoundTo.postPayload (h : s.BoundTo ownKeyId peerKeyId) (payload : List β) :
    (s.postPayload payload).1.BoundTo ownKeyId peerKeyId := by
  unfold Session.postPayload
  split <;> exact ⟨h.role, h.own, h.peer⟩

theorem BoundTo.fork {t : Session β π} (h : s.BoundTo ownKeyId peerKeyId)
    (hf : s.fork = .ok t) : t.BoundTo ownKeyId peerKeyId := by
  obtain ⟨_, _, _, rfl⟩ := fork_ok.mp hf
  exact ⟨h.role, h.own, h.peer⟩

end Session

namespace Dispatcher
variable {β π : Type}

/-- The sessions under the cid are those of the initiator it was opened by. -/
def Owned (ownKeyId peerKeyId : KeyId β) (cid c : List β) (t : Slot) (s : Session β π) : Prop :=
  c = cid → t ≠ .responder ∧ s.BoundTo ownKeyId peerKeyId

variable {ownKeyId peerKeyId : KeyId β} {cid : List β}

theorem owned_handled :
    Handled (Owned ownKeyId peerKeyId cid) (fun _ : π => True) where
  sent _ _ _ _ _ _ := trivial
  drained _ _ _ h hc := ⟨(h hc).1, (h hc).2.role, (h hc).2.own, (h hc).2.peer⟩
  establish _ _ _ h _ hc := ⟨by simp, (h hc).2⟩

variable [DecidableEq β]

/-- No table has the cid. -/
structure Unused (d : Dispatcher β π) (cid : List β) : Prop where
  established : d.established.get? cid = none
  responder : d.responderSessions.get? cid = none
  template : d.initiatorTemplates.get? cid = none
  fork : d.initiatorForks.get? cid = none

theorem owned_initiate {P : Primitives β π} {d₀ d : Dispatcher β π} {now : Int} {e : Entropy β}
    (hfree : d₀.Unused cid) (hi : d₀.initiate P ownKeyId peerKeyId now e = (d, .ok cid)) :
    Kept (Owned ownKeyId peerKeyId cid) (fun _ => True) d := by
  have h : Kept (Owned ownKeyId peerKeyId cid) (fun _ => True) d₀ := by
    refine ⟨fun c s hs hc => ?_, fun c s hs hc => ?_, fun c s hs hc => ?_,
      fun c s hs _ _ hc => ?_, fun _ _ => trivial⟩
    all_goals subst hc
    · simp [hfree.established] at hs
    · simp [hfree.responder] at hs
    · simp [hfree.template] at hs
    · simp [hfree.fork] at hs
  suffices hk : Kept (Owned ownKeyId peerKeyId cid) (fun _ => True)
      (d₀.initiate P ownKeyId peerKeyId now e).1 by rwa [hi] at hk
  refine kept_initiate h fun primary c hp hc => ⟨fun _ => ?_, fun _ _ => trivial⟩
  obtain ⟨_, _, _, _, _, rfl⟩ := Session.initiate_ok hp
  exact ⟨by simp, rfl, rfl, rfl⟩

/-- A payload for the cid changes sessions of that peer only. -/
theorem owned_postPayload {d : Dispatcher β π}
    (h : Kept (Owned ownKeyId peerKeyId cid) (fun _ => True) d) {payload c : List β} {t : Slot}
    {s : Session β π} (hs : (d.postPayload cid payload).1.Holds c t s) :
    d.Holds c t s ∨ s.BoundTo ownKeyId peerKeyId := by
  suffices hk : Kept (fun c t s => d.Holds c t s ∧ Owned ownKeyId peerKeyId cid c t s ∨
      s.BoundTo ownKeyId peerKeyId) (fun _ => True) (d.postPayload cid payload).1 from
    (hk.holds hs).imp_left And.left
  refine kept_postPayload (kept_of_holds (fun c t s hs => .inl ⟨hs, h.holds hs⟩) fun _ _ => trivial)
    fun t s hs => .inr ?_
  rcases hs with ⟨_, ho⟩ | hb
  · exact (ho rfl).2.postPayload payload
  · exact hb.postPayload payload

variable (P : Primitives β π) [DecidableEq π]

/-- No request opens a responder session under the cid: while it is not established,
each request for it is refused by the candidate store, or by the responder with
`HandshakeFailed`. Later handshakes draw other cids. -/
def Unclaimed (cid : List β) (d : Dispatcher β π) : Op β π → Prop
  | .initiate _ _ _ e => e.uuid ≠ cid
  | .postPdu der now e => ∀ msg req, P.load der = .ok msg → msg.cid = cid →
      msg.payload = .sessionInitRequest req → d.established.get? cid = none →
      (∃ x, (d.candidates.add cid der P.noPdu now).2 = .error x) ∨
      ∃ why, { Session.new .responder none d.keys d.config with cid := some cid }.initReply P req e =
        (.error (.handshakeFailed why) : Except PyError (Session.InitReply β π))
  | _ => True

variable {P}

/-- A first request that is refused leaves a responder session initial. -/
theorem update_refused {keys : KeyLookup β} {config : SessionConfig} {der : π} {now : Int}
    {e : Entropy β} {msg : MakeMessage β} {req : SessionInitRequest β} {x : PyError}
    (hl : P.load der = .ok msg) (hp : msg.payload = .sessionInitRequest req)
    (hr : { Session.new .responder none keys config with cid := some msg.cid }.initReply P req e =
      (.error x : Except PyError (Session.InitReply β π))) :
    ((Session.new .responder none keys config).postPdu der).update P now e =
      ({ Session.new .responder none keys config with cid := some msg.cid }, .error x) := by
  have hproc : (Session.new .responder none keys config).processIncoming P der now e =
      ({ Session.new .responder none keys config with cid := some msg.cid }, some x) := by
    rw [Session.processIncoming_first (by simp [Session.new]) hl rfl rfl hp]
    unfold Session.handleSessionInitRequest
    rw [show ({ Session.new .responder none keys config with cid := some msg.cid } :
      Session β π).initReply P req e = .error x from hr]
  exact Session.update_of_raise rfl (by simp [Session.new]) hproc

section
variable (hP : ∀ aead key nonce text ad, P.encrypt aead key nonce text ad ≠ [])
include hP

theorem owned_serves {d : Dispatcher β π} {der : π} {now : Int} {e : Entropy β}
    (hok : Unclaimed P cid d (.postPdu der now e)) :
    Serves P d der now e (Owned ownKeyId peerKeyId cid) (Owned ownKeyId peerKeyId cid) where
  deliver msg t s _ _ h := .inl fun hc => ⟨(h hc).1, ((h hc).2.postPdu der).update hP now e⟩
  call msg resp s _ _ h hc := ⟨(h hc).1, ((h hc).2.postPdu der).update hP now e⟩
  fork msg s twin _ h hf hc := ⟨by simp, (h hc).2.fork hf⟩
  opened msg req candidate hl hp he _ hadd hopen hc := by
    rcases hok msg req hl hc hp (hc ▸ he) with ⟨x, hx⟩ | ⟨why, hwhy⟩
    · rw [hc, hx] at hadd
      cases hadd
    · rw [← hc] at hwhy
      rw [update_refused hl hp hwhy] at hopen
      rcases hopen with hs | ⟨x, hx, hcaught⟩
      · exact absurd rfl hs
      · cases hx
        cases hcaught

theorem owned_stable : Stable P (Unclaimed P cid) (Owned ownKeyId peerKeyId cid) where
  handled := owned_handled
  initiate _ _ _ _ _ _ _ hok hp hc := by
    intro hcid
    obtain ⟨_, _, _, _, _, rfl⟩ := Session.initiate_ok hp
    cases hc
    exact absurd hcid hok
  serves _ _ _ _ hok := owned_serves hP hok
  postPayload _ _ _ payload h hc := ⟨(h hc).1, (h hc).2.postPayload payload⟩
  update _ _ _ now e _ h := .inl fun hc => ⟨(h hc).1, (h hc).2.update hP now e⟩

/-- Runs in which no request claims the cid keep it with the initiator that opened it. -/
theorem cid_stays_bound {d₀ d d' : Dispatcher β π} {now : Int} {e : Entropy β}
    (hfree : d₀.Unused cid) (hi : d₀.initiate P ownKeyId peerKeyId now e = (d, .ok cid))
    (hrun : Run P (Unclaimed P cid) d d') :
    (∀ s, d'.established.get? cid = some s →
      s.role = .initiator ∧ s.ownKeyId = some ownKeyId ∧ s.peerKeyId = some peerKeyId) ∧
    ∀ payload c t s, (d'.postPayload cid payload).1.Holds c t s →
      d'.Holds c t s ∨ s.peerKeyId = some peerKeyId := by
  have h := (owned_stable hP).run hP hrun (owned_initiate hfree hi)
  refine ⟨fun s hs => ?_, fun payload c t s hs => (owned_postPayload h hs).imp_right fun hb => hb.peer⟩
  have hb := (h.established _ _ hs rfl).2
  exact ⟨hb.role, hb.own, hb.peer⟩

end

/-! ## Alice (0) calls Bob (1), and Mallory (2) calls Alice under the same cid -/

def aliceCalling : Dispatcher Sym Pdu :=
  ((new (staticLookup 0) {} {}).initiate ideal (staticId 0) (staticId 1) 0 (draw 0)).1

theorem initiate_aliceCalling : (new (staticLookup 0) {} {}).initiate ideal (staticId 0)
    (staticId 1) 0 (draw 0) = (aliceCalling, .ok (draw 0).uuid) :=
  Prod.ext rfl (by decide)

def bobAnswering : Session Sym Pdu :=
  (((Session.new .responder none (staticLookup 1) {}).postPdu
    (aliceCalling.outgoingPdus.headD ideal.noPdu)).update ideal 0 (draw 1)).1

/-- A request under the cid that asks for no AEAD. -/
def refusedRequest : SessionInitRequest Sym where
  ct1 := ⟨kemAlg (mlkemOid .mlkem768), [.encap .mlkem768 (staticKey 0).publicKey (draw 2).coins]⟩
  keyIdB := staticId 0
  pkAStar := ⟨kemAlg (mlkemOid .mlkem768), [.pub .mlkem768 (draw 2).seed]⟩
  keyIdA := staticId 2
  acceptableAeads := []

/-- The call with a payload for Bob, and a request of Mallory's that is refused. -/
def aliceDisturbed : Dispatcher Sym Pdu :=
  (aliceCalling.step ideal (.postPayload (draw 0).uuid [.octet 1])).step ideal
    (.postPdu (ideal.dump (.build (draw 0).uuid (.sessionInitRequest refusedRequest))) 0 (draw 2))

/-- Bob has answered. -/
def aliceHeard : Dispatcher Sym Pdu :=
  aliceDisturbed.step ideal (.postPdu (bobAnswering.outgoingPdus.headD ideal.noPdu) 1 (draw 3))

def bobConfirmation : Pdu :=
  ((bobAnswering.postPdu (aliceHeard.outgoingPdus.getLastD ideal.noPdu)).update ideal 1
    (draw 4)).1.outgoingPdus.getLastD ideal.noPdu

/-- Bob has confirmed, and another payload goes out. -/
def aliceBound : Dispatcher Sym Pdu :=
  ((aliceHeard.step ideal (.postPdu bobConfirmation 2 (draw 5))).step ideal
    (.postPayload (draw 0).uuid [.octet 2])).step ideal (.update 3 (draw 6))

theorem unclaimed_of_name {d : Dispatcher Sym Pdu} {cid : List Sym} {der : Pdu} {now : Int}
    {e : Entropy Sym} (h : (ideal.load der).map (·.payload.name) ≠ .ok .sessionInitRequest) :
    Unclaimed ideal cid d (.postPdu der now e) := by
  intro msg req hl _ hp _
  simp [hl, hp, Except.map, MakePayload.name] at h

theorem run_aliceBound : Run ideal (Unclaimed ideal (draw 0).uuid) aliceCalling aliceBound := by
  have hposted : Run ideal (Unclaimed ideal (draw 0).uuid) aliceCalling
      (aliceCalling.step ideal (.postPayload (draw 0).uuid [.octet 1])) := .step .refl trivial
  have hrefused : Run ideal (Unclaimed ideal (draw 0).uuid) aliceCalling aliceDisturbed := by
    apply hposted.step
    intro msg req hl _ hp _
    have hmsg : msg = .build (draw 0).uuid (.sessionInitRequest refusedRequest) :=
      (Except.ok.inj (hl.symm.trans (by decide +kernel)))
    obtain rfl : refusedRequest = req := by
      rw [hmsg] at hp
      exact MakePayload.sessionInitRequest.inj hp
    exact .inr ⟨.noMutuallyAcceptableAead, rfl⟩
  have hheard : Run ideal (Unclaimed ideal (draw 0).uuid) aliceCalling aliceHeard :=
    hrefused.step (unclaimed_of_name (by decide +kernel))
  have hconfirmed : Run ideal (Unclaimed ideal (draw 0).uuid) aliceCalling
      (aliceHeard.step ideal (.postPdu bobConfirmation 2 (draw 5))) :=
    hheard.step (unclaimed_of_name (by decide +kernel))
  have hanswered : Run ideal (Unclaimed ideal (draw 0).uuid) aliceCalling
      ((aliceHeard.step ideal (.postPdu bobConfirmation 2 (draw 5))).step ideal
        (.postPayload (draw 0).uuid [.octet 2])) := hconfirmed.step trivial
  exact hanswered.step trivial

/-- The call ends with Bob, and what Alice posts next is for him as well. -/
theorem cid_stays_bound_example :
    (aliceBound.established.get? (draw 0).uuid).isSome = true ∧
    (∀ s, aliceBound.established.get? (draw 0).uuid = some s →
      s.role = .initiator ∧ s.ownKeyId = some (staticId 0) ∧ s.peerKeyId = some (staticId 1)) ∧
    ∀ payload c t s, (aliceBound.postPayload (draw 0).uuid payload).1.Holds c t s →
      aliceBound.Holds c t s ∨ s.peerKeyId = some (staticId 1) :=
  ⟨by decide +kernel, cid_stays_bound Ideal.ideal_correct.encrypt_ne_nil ⟨rfl, rfl, rfl, rfl⟩
    initiate_aliceCalling run_aliceBound⟩

/-- Mallory's own session, which draws the cid she has seen. -/
def malloryCalling : Session Sym Pdu :=
  ((Session.new .initiator (some (staticId 2)) (staticLookup 2) {}).initiate ideal (staticId 0) 0
    { draw 1 with uuid := (draw 0).uuid }).1

def malloryRequest : Pdu := malloryCalling.outgoingPdus.headD ideal.noPdu

def aliceAnswered : Dispatcher Sym Pdu :=
  (aliceCalling.postPdu ideal malloryRequest 0 (draw 2)).1

def malloryCompletion : Pdu :=
  ((malloryCalling.postPdu (aliceAnswered.outgoingPdus.getLastD ideal.noPdu)).update ideal 0
    (draw 3)).1.outgoingPdus.getLastD ideal.noPdu

def aliceTaken : Dispatcher Sym Pdu := (aliceAnswered.postPdu ideal malloryCompletion 0 (draw 4)).1

/-- The cid of the call to Bob ends with Mallory, and what Alice sends to it goes there. -/
theorem cid_taken :
    (aliceTaken.established.get? (draw 0).uuid).map (fun s => (s.role, s.peerKeyId)) =
      some (.responder, some (staticId 2)) ∧
    ((aliceAnswered.postPayload (draw 0).uuid [.name (.secret 0)]).1.responderSessions.get?
      (draw 0).uuid).map (fun s => (s.pendingPayload, s.peerKeyId)) =
        some (some [.name (.secret 0)], some (staticId 2)) := by
  decide +kernel

end Dispatcher

end KemMake
