import KemMake.Tidy
import KemMake.Handlers
import KemMake.Frame

/-!
# The cid of what is sent

Every PDU that a session sends bears the session's cid, and so does every PDU that the
dispatcher puts out for a cid.
-/

namespace KemMake

variable {β π : Type} {P : Primitives β π}

/-- The cid of an encoded PDU. -/
def cidOf (P : Primitives β π) (pdu : π) : Option (List β) :=
  (P.load pdu).toOption.map (·.cid)

theorem cidOf_dump (hP : P.Correct) {c : List β} (hc : P.octets c = cidLen) {payload : MakePayload β}
    (hcM : ∀ req, payload = .sessionCompletionRequest req → req.cM ≠ []) :
    cidOf P (P.dump (MakeMessage.build c payload)) = some c := by
  have hl : P.load (P.dump (MakeMessage.build c payload)) = .ok (MakeMessage.build c payload) :=
    hP.load_dump _ ⟨hc, hcM⟩
  rw [cidOf, hl]
  rfl

namespace Session

/-- What it has to send, and what it would send again, bears the cid. -/
structure Speaks (P : Primitives β π) (c : List β) (s : Session β π) : Prop where
  outgoing : ∀ pdu ∈ s.outgoingPdus, cidOf P pdu = some c
  last : ∀ pdu, s.lastSent = some pdu → cidOf P pdu = some c

variable {c : List β} {s s' : Session β π} {now : Int} {e : Entropy β} {x : Option PyError}

/-- One more PDU, which is kept for later. -/
theorem Speaks.add (h : s.Speaks P c) {pdu : π} (hp : cidOf P pdu = some c)
    (ho : s'.outgoingPdus = s.outgoingPdus ++ [pdu]) (hl : s'.lastSent = some pdu) :
    s'.Speaks P c := by
  constructor
  · intro q hq
    rw [ho, List.mem_append, List.mem_singleton] at hq
    cases hq with
    | inl hq => exact h.outgoing q hq
    | inr hq => rw [hq, hp]
  · intro q hq
    rw [hl] at hq
    cases hq
    exact hp

theorem Speaks.resend (h : s.Speaks P c) : s.resend.Speaks P c := by
  rw [resend_eq]
  refine ⟨fun pdu hpdu => ?_, h.last⟩
  rw [List.mem_append, Option.mem_toList] at hpdu
  exact hpdu.elim (h.outgoing pdu) (h.last pdu)

theorem Took.speaks (hP : P.Correct) (hc : P.octets c = cidLen) (ht : Took P s now e s' x)
    (hq : ∀ der rest msg, s.incomingQueue = der :: rest → P.load der = .ok msg → msg.cid = c)
    (hname : s.state ≠ .initial → s.cid = some c) (h : s.Speaks P c) : s'.Speaks P c := by
  cases ht with
  | idle => exact h
  | resent => exact Speaks.resend ⟨h.outgoing, h.last⟩
  | ignored | undecoded | refused => exact ⟨h.outgoing, h.last⟩
  | answered hq' hl _ _ _ hr =>
    obtain ⟨answer⟩ := initReply_ok hr
    have hcid : answer.cid = c := (Option.some.inj answer.has_cid).symm.trans (hq _ _ _ hq' hl)
    refine h.add ?_ rfl rfl
    rw [answer.out, hcid]
    exact cidOf_dump hP hc (by simp)
  | completed _ _ _ hs _ _ ho =>
    obtain ⟨opening⟩ := openCompletion_ok ho
    have hcid : c = _ := Option.some.inj ((hname (by simp [hs])).symm.trans opening.has_cid)
    refine h.add ?_ rfl rfl
    rw [← hcid]
    exact cidOf_dump hP hc (by simp)
  | called _ _ _ hs _ _ hcall =>
    obtain ⟨call⟩ := completionCall_ok hcall
    have hcid : c = _ := Option.some.inj ((hname (by simp [hs])).symm.trans call.has_cid)
    refine h.add ?_ rfl rfl
    rw [← hcid]
    refine cidOf_dump hP hc fun req hreq => ?_
    cases hreq
    exact completionCall_cM hP.encrypt_ne_nil hcall
  | confirmed | replied => exact ⟨h.outgoing, nofun⟩
  | received =>
    rw [countReceived_eq]
    exact ⟨h.outgoing, h.last⟩

theorem Sent.speaks (hP : P.Correct) (hc : P.octets c = cidLen) (hs : Sent P s s' x)
    (hname : s.state ≠ .initial → s.cid = some c) (h : s.Speaks P c) : s'.Speaks P c := by
  cases hs with
  | idle => exact h
  | failed => exact ⟨h.outgoing, h.last⟩
  | message hest hp hm =>
    rw [countSent_eq]
    refine ⟨fun pdu hpdu => ?_, h.last⟩
    rw [List.mem_append, List.mem_singleton] at hpdu
    obtain hpdu | rfl := hpdu
    · exact h.outgoing pdu hpdu
    · simp only [messagePdu, bind_ok, attr_ok, pure, Except.pure, Except.ok.injEq] at hm
      obtain ⟨keys, _, cid, hcid, ct, _, rfl⟩ := hm
      have heq : c = cid := Option.some.inj ((hname (by simp [hest])).symm.trans hcid)
      rw [← heq]
      exact cidOf_dump hP hc (by simp)

theorem Ticked.speaks (hk : Ticked s now s') (h : s.Speaks P c) : s'.Speaks P c := by
  cases hk with
  | idle => exact h
  | dropped => exact ⟨h.outgoing, h.last⟩
  | retried =>
    have hretry : { s with
        attemptCount := s.attemptCount + 1
        deadline := some (now + s.config.retryIntervalSeconds) }.Speaks P c := ⟨h.outgoing, h.last⟩
    exact hretry.resend

variable [DecidableEq β] [DecidableEq π]

theorem Speaks.update (hP : P.Correct) (hc : P.octets c = cidLen)
    (hq : ∀ der rest msg, s.incomingQueue = der :: rest → P.load der = .ok msg → msg.cid = c)
    (hname : s.state ≠ .initial → s.cid = some c) (h : s.Speaks P c) :
    (s.update P now e).1.Speaks P c := by
  refine (update_preserves (I := fun s => (s.state ≠ .initial → s.cid = some c) ∧ s.Speaks P c)
    hP.encrypt_ne_nil (fun s' x ht hs => ?_) (fun s₁ s₂ x hs h₁ => ?_) (fun s₁ s₂ hk h₁ => ?_)
    ⟨hname, h⟩).2
  · exact ⟨ht.named hq hs.1, ht.speaks hP hc hq hs.1 hs.2⟩
  · refine ⟨?_, hs.speaks hP hc h₁.1 h₁.2⟩
    rw [hs.cid, hs.frame.1]
    exact h₁.1
  · refine ⟨fun hs₂ => ?_, hk.speaks h₁.2⟩
    rw [hk.cid]
    obtain hs | ⟨_, _, hi⟩ := hk.frame.1
    · exact h₁.1 (hs ▸ hs₂)
    · exact h₁.1 hi

end Session

namespace Dispatcher
variable [DecidableEq β] {c : List β} {t : Slot} {s : Session β π}

/-- A tidy session that speaks for its cid, one of 128 bits. -/
structure Spoken (P : Primitives β π) (c : List β) (t : Slot) (s : Session β π) : Prop where
  tidy : Tidy P c t s
  length : P.octets c = cidLen
  speaks : s.Speaks P c

/-- `load` has checked the length of the cid. -/
def ChecksCid (P : Primitives β π) : Prop :=
  ∀ der msg, P.load der = .ok msg → P.octets msg.cid = cidLen

/-- The calls, whose `uuid4()` has 128 bits. -/
def DrawsCid (P : Primitives β π) (_ : Dispatcher β π) : Op β π → Prop
  | .initiate _ _ _ e => P.octets e.uuid = cidLen
  | _ => True

omit [DecidableEq β] in
theorem Left.spoken {ρ : Type} {u : Session β π × Except PyError ρ} (h : Left (Tidy P) c t u)
    (hc : P.octets c = cidLen) (hs : u.1.Speaks P c) : Left (Spoken P) c t u :=
  h.imp (fun ht => ⟨ht, hc, hs⟩) fun ht => ⟨ht.1, ht.2, hc, hs⟩

omit [DecidableEq β] in
theorem spoken_handled : Handled (Spoken P) (fun _ : π => True) where
  sent _ _ _ _ _ _ := trivial
  drained c t s h := ⟨tidy_handled.drained c t s h.tidy, h.length, (fun _ hp => nomatch hp), h.speaks.last⟩
  establish c t s h hs := ⟨tidy_handled.establish c t s h.tidy hs, h.length, h.speaks⟩

section
variable [DecidableEq π] (hP : P.Correct) {d : Dispatcher β π} {now : Int} {e : Entropy β}
include hP

theorem Spoken.update (h : Spoken P c t s) (ht : t ≠ .template) :
    Left (Spoken P) c t (s.update P now e) := by
  refine (tidy_update hP h.tidy ht).spoken h.length ?_
  obtain hq | hd := h.tidy.2
  · refine h.speaks.update hP h.length (fun der rest msg hq' => ?_) h.tidy.1.named
    rw [hq] at hq'
    cases hq'
  · rw [Session.update_dropped hd]
    exact h.speaks

theorem Spoken.speaks_deliver {der : π} {msg : MakeMessage β} (hl : P.load der = .ok msg)
    (h : Spoken P msg.cid t s) : ((s.postPdu der).update P now e).1.Speaks P msg.cid := by
  obtain hq | hd := h.tidy.2
  · refine Session.Speaks.update hP h.length (fun der' rest msg' hq' hl' => ?_) h.tidy.1.named
      ⟨h.speaks.outgoing, h.speaks.last⟩
    simp only [Session.postPdu, hq, List.nil_append, List.cons.injEq] at hq'
    rw [← hq'.1, hl] at hl'
    cases hl'
    rfl
  · rw [Session.update_dropped (show (s.postPdu der).state = .dropped from hd)]
    exact ⟨h.speaks.outgoing, h.speaks.last⟩

theorem Spoken.deliver {der : π} {msg : MakeMessage β} (hl : P.load der = .ok msg)
    (h : Spoken P msg.cid t s) (ht : t ≠ .template) :
    Left (Spoken P) msg.cid t ((s.postPdu der).update P now e) :=
  (tidy_deliver hP hl h.tidy ht).spoken h.length (h.speaks_deliver hP hl)

omit hP [DecidableEq β] [DecidableEq π] in
theorem Spoken.fork {twin : Session β π} (h : Spoken P c .template s) (hf : s.fork = .ok twin) :
    Spoken P c .fork twin := by
  refine ⟨h.tidy.fork hf, h.length, ?_⟩
  obtain ⟨_, _, _, rfl⟩ := Session.fork_ok.mp hf
  exact ⟨(fun _ hp => nomatch hp), h.speaks.last⟩

theorem speaks_opened (hV : ChecksCid P) {keys : KeyLookup β} {config : SessionConfig} {der : π}
    {msg : MakeMessage β} (hl : P.load der = .ok msg) (now : Int) (e : Entropy β) :
    (((Session.new .responder none keys config).postPdu der).update P now e).1.Speaks P msg.cid := by
  refine Session.Speaks.update hP (hV der msg hl) (fun der' rest msg' hq hl' => ?_)
    (fun hs => absurd rfl hs) ⟨(fun _ hp => nomatch hp), fun _ hp => nomatch hp⟩
  simp only [Session.postPdu, Session.new, List.nil_append, List.cons.injEq] at hq
  rw [← hq.1, hl] at hl'
  cases hl'
  rfl

omit [DecidableEq β] [DecidableEq π] in
theorem spoken_initiate {own peer : KeyId β} {keys : KeyLookup β} {config : SessionConfig}
    {primary : Session β π} (he : P.octets e.uuid = cidLen)
    (hp : (Session.new .initiator (some own) keys config).initiate P peer now e = (primary, none)) :
    primary.cid = some e.uuid ∧ primary.Speaks P e.uuid := by
  obtain ⟨_, s1, ct1, _, _, rfl⟩ := Session.initiate_ok hp
  have hcid : cidOf P (P.dump (MakeMessage.build e.uuid (.sessionInitRequest
      { ct1, keyIdB := peer, pkAStar := ⟨kemAlg (mlkemOid config.kemLevel),
          P.publicBytes config.kemLevel e.seed⟩, keyIdA := own
        acceptableAeads := config.acceptableAeads.map aeadOid }))) = some e.uuid :=
    cidOf_dump hP he (by simp)
  refine ⟨rfl, fun pdu hpdu => ?_, fun pdu hpdu => ?_⟩
  · cases List.mem_singleton.mp hpdu
    exact hcid
  · cases hpdu
    exact hcid

theorem spoken_stable (hV : ChecksCid P) : Stable P (DrawsCid P) (Spoken P) where
  handled := spoken_handled
  initiate d own peer now e primary c hok hp hc := by
    obtain ⟨hcid, hs⟩ := spoken_initiate hP hok hp
    rw [hcid] at hc
    cases hc
    exact ⟨tidy_initiate hp hcid, hok, (fun _ hq => nomatch hq), hs.last⟩
  serves d der now e _ :=
    { deliver := fun msg t s hl ht h => h.deliver hP hl ht
      call := fun msg resp s hl hp h => ((h.deliver hP hl (by simp)).of_state
        (not_established hP hl h.tidy (by simp [hp, MakePayload.name])))
      fork := fun msg s twin _ h hf => h.fork hf
      opened := fun msg req candidate hl _ _ _ _ _ =>
        ⟨tidy_opened hP hl now e, hV der msg hl, speaks_opened hP hV hl now e⟩ }
  postPayload c t s payload h := by
    refine ⟨h.tidy.postPayload payload, h.length, ?_⟩
    rw [Session.postPayload_eq]
    exact ⟨h.speaks.outgoing, h.speaks.last⟩
  update c t s now e ht h := h.update hP ht

end

end Dispatcher

end KemMake
