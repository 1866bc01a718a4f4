import KemMake.Ideal
import KemMake.Tidy

/-!
# When post_pdu raises

`Dispatcher.Escapes` says, route by route, which PDUs raise an exception that the
dispatcher does not catch. Forks never do so on what is routed to them. While no
PDU of this kind is posted, no responder session stays initial.
-/

namespace KemMake

variable {β π : Type} {P : Primitives β π}

namespace Dispatcher
variable [DecidableEq β]

/-- The PDU raises past the dispatcher: in `load`, in the session it is delivered to, in the
responder session it opens, or in the fork it gets. -/
def Escapes (P : Primitives β π) (d : Dispatcher β π) (der : π) (now : Int) (e : Entropy β) : Prop :=
  (∃ x, P.load der = .error x ∧ x.isValueError = false) ∨
  ∃ msg, P.load der = .ok msg ∧
    match d.established.get? msg.cid, msg.payload.name, d.responderSessions.get? msg.cid with
    | some s, _, _ => s.Escapes P der e msg.payload
    | none, .sessionInitResponse, _ =>
      ∃ template, d.initiatorTemplates.get? msg.cid = some template ∧
        (∀ fork ∈ (d.initiatorForks.get? msg.cid).getD [], fork.lastReceived ≠ some der) ∧
        d.candidates.Admits msg.cid now ∧ template.Stumbles P e msg.payload
    | none, _, some s => s.Escapes P der e msg.payload
    | none, .sessionInitRequest, none =>
      d.candidates.Admits msg.cid now ∧
        (Session.new .responder none d.keys d.config : Session β π).Stumbles P e msg.payload
    | none, _, none => False

section
variable [DecidableEq π] (hP : P.Correct) {d : Dispatcher β π} {s : Session β π} {der : π}
  {now : Int} {e : Entropy β} {msg : MakeMessage β} (hl : P.load der = .ok msg)
include hP hl

theorem escaping_tidy {t : Slot} (h : Tidy P msg.cid t s) (now : Int) (e : Entropy β) :
    Escaping ((s.postPdu der).update P now e).2 ↔ s.Escapes P der e msg.payload := by
  refine Session.escaping_update hP h.1.1 h.2 hl ?_ now e
  by_cases hs : s.state = .initial
  · cases t with
    | established | template => simp [h.1.2.1] at hs
    | responder => exact .inl ⟨hs, h.1.2.1⟩
    | fork => rcases h.1.2.1 with h | h | h <;> simp [h] at hs
  · exact .inr ⟨hs, h.1.named hs⟩

omit hP hl in
theorem deliver_raises (P : Primitives β π) (d : Dispatcher β π) (s : Session β π) (der : π)
    (now : Int) (cid : List β) (e : Entropy β) : (d.deliver P s der now cid e).2.2 = none ↔
    ¬ Escaping ((s.postPdu der).update P now e).2 := by
  rcases deliver_cases P d s der now cid e with ⟨x, hx, hc, hd⟩ | ⟨hc, hd⟩
  · simp [hd, hx, hc]
  · rw [hd]
    refine iff_of_true rfl ?_
    rintro ⟨x, hx, hx'⟩
    simp [hc x hx] at hx'

theorem deliverEstablished_raises (h : Tidy P msg.cid .established s) :
    (d.deliverEstablished P s der now msg.cid e).2 = none ↔ ¬ s.Escapes P der e msg.payload := by
  rw [← escaping_tidy hP hl h now e, ← deliver_raises P d s der now msg.cid e]
  rfl

theorem deliverResponder_raises (h : Tidy P msg.cid .responder s) :
    (d.deliverResponder P s der now msg.cid e).2 = none ↔ ¬ s.Escapes P der e msg.payload := by
  rw [← escaping_tidy hP hl h now e, ← deliver_raises P d s der now msg.cid e]
  unfold deliverResponder
  rcases d.deliver P s der now msg.cid e with ⟨d', s', x | _⟩ <;> rfl

theorem openResponder_raises : (d.openResponder P der now msg.cid e).2 = none ↔
    ¬ (d.candidates.Admits msg.cid now ∧
      (Session.new .responder none d.keys d.config : Session β π).Stumbles P e msg.payload) := by
  have hesc := Session.escaping_update hP
    (Session.coherent_new .responder none d.keys d.config) (.inl rfl) hl (.inl ⟨rfl, rfl⟩) now e
  have hnew : (Session.new .responder none d.keys d.config : Session β π).Escapes P der e msg.payload ↔
      (Session.new .responder none d.keys d.config : Session β π).Stumbles P e msg.payload := by
    simp [Session.Escapes, Session.Overflows, Session.new]
  rw [← CandidateStore.add_admits _ _ der P.noPdu]
  unfold openResponder
  rcases d.candidates.add msg.cid der P.noPdu now with ⟨candidates, x | candidate⟩
  · simp
  · have hd := deliver_raises P { d with candidates } (.new .responder none d.keys d.config) der now
      msg.cid e
    rw [hesc, hnew] at hd
    simp only [Except.ok.injEq, exists_eq', true_and]
    rw [← hd]
    rcases Dispatcher.deliver P { d with candidates } (.new .responder none d.keys d.config) der now
      msg.cid e with ⟨d', s', x | _⟩
    · simp only
      split <;> simp
    · rfl

omit hP hl [DecidableEq β] [DecidableEq π] in
/-- A fork stumbles where its template does. -/
theorem stumbles_fork {t : Session β π} {resp : SessionInitResponse β} (hf : s.fork = .ok t) :
    t.Stumbles P e (.sessionInitResponse resp) ↔ s.Stumbles P e (.sessionInitResponse resp) := by
  obtain ⟨_, hs, _, rfl⟩ := Session.fork_ok.mp hf
  simp [Session.Stumbles, Session.twin, Session.new, hs]

omit hP hl [DecidableEq β] [DecidableEq π] in
theorem fork_lastReceived {t : Session β π} (hf : s.fork = .ok t) : t.lastReceived = none := by
  obtain ⟨_, _, _, rfl⟩ := Session.fork_ok.mp hf
  rfl

omit hP hl [DecidableEq β] [DecidableEq π] in
theorem exists_fork {c : List β} (h : Tidy P c .template s) : ∃ t, s.fork = .ok t := by
  obtain ⟨hr, _, _, eph, _, _, _, heph, _⟩ := h.1.1.calling h.1.2.1
  exact ⟨s.twin, Session.fork_ok.mpr ⟨hr, h.1.2.1, by simp [heph], rfl⟩⟩

theorem resendFork_raises (d : Dispatcher β π) (now : Int) (e : Entropy β)
    {forks : List (Session β π)} (hf : ∀ s ∈ forks, Tidy P msg.cid .fork s) :
    d.resendFork P der now msg.cid e forks = none ∧ (∀ fork ∈ forks, fork.lastReceived ≠ some der) ∨
      ∃ r, d.resendFork P der now msg.cid e forks = some r ∧ r.2.2 = none ∧
        ∃ fork ∈ forks, fork.lastReceived = some der := by
  induction forks with
  | nil => exact .inl ⟨rfl, by simp⟩
  | cons fork rest ih =>
    unfold resendFork
    by_cases hd : fork.lastReceived = some der
    · have hno : ¬ fork.Escapes P der e msg.payload := by
        have hs : fork.state ≠ .established := by
          rcases (hf fork List.mem_cons_self).1.2.1 with hs | hs | hs <;> simp [hs]
        simp [Session.Escapes, Session.Overflows, hd, hs]
      rw [← escaping_tidy hP hl (hf fork List.mem_cons_self) now e,
        ← deliver_raises P d fork der now msg.cid e] at hno
      rw [if_pos hd]
      exact .inr ⟨_, rfl, hno, fork, List.mem_cons_self, hd⟩
    · rw [if_neg hd]
      rcases ih fun s hs => hf s (List.mem_cons_of_mem _ hs) with ⟨hr, hne⟩ | ⟨r, hr, hn, f, hm, hl'⟩
      · exact .inl ⟨by simp [hr], List.forall_mem_cons.mpr ⟨hd, hne⟩⟩
      · rw [hr]
        exact .inr ⟨_, rfl, hn, f, List.mem_cons_of_mem _ hm, hl'⟩

theorem openFork_raises {template : Session β π} {resp : SessionInitResponse β}
    (hp : msg.payload = .sessionInitResponse resp) (ht : Tidy P msg.cid .template template) :
    (d.openFork P template der now msg.cid e).2 = none ↔
      ¬ (d.candidates.Admits msg.cid now ∧ template.Stumbles P e msg.payload) := by
  rw [← CandidateStore.add_admits _ _ der P.noPdu]
  unfold openFork
  rcases d.candidates.add msg.cid der P.noPdu now with ⟨candidates, x | candidate⟩
  · simp
  · obtain ⟨twin, hfork⟩ := exists_fork ht
    have htwin : Tidy P msg.cid .fork twin := ht.fork hfork
    have hs : twin.state ≠ .established := by
      rcases htwin.1.2.1 with hs | hs | hs <;> simp [hs]
    have hesc : twin.Escapes P der e msg.payload ↔ template.Stumbles P e msg.payload := by
      rw [hp, ← stumbles_fork hfork]
      simp [Session.Escapes, Session.Overflows, hs, fork_lastReceived hfork]
    have hd := deliver_raises P { d with candidates } twin der now msg.cid e
    rw [escaping_tidy hP hl htwin, hesc] at hd
    simp only [Except.ok.injEq, exists_eq', true_and, hfork]
    rw [← hd]
    rcases Dispatcher.deliver P { d with candidates } twin der now msg.cid e with ⟨d', s', x | _⟩ <;>
      rfl

/-- What is offered to the forks raises in none of them. -/
theorem offer_raises {forks : List (Session β π)} (hf : ∀ s ∈ forks, Tidy P msg.cid .fork s)
    (hq : msg.payload.name ≠ .sessionInitRequest) (hp : msg.payload.name ≠ .sessionInitResponse) :
    ∀ x, (offer P der now e forks).2 ≠ .raised x := by
  intro x
  induction forks with
  | nil => simp [offer]
  | cons fork rest ih =>
    have ih := ih fun s hs => hf s (List.mem_cons_of_mem _ hs)
    have hfork := hf fork List.mem_cons_self
    have hno : ¬ fork.Escapes P der e msg.payload := by
      rcases hfork.1.2.1 with hs | hs | hs <;> cases hpay : msg.payload <;>
        simp_all [Session.Escapes, Session.Overflows, Session.Stumbles, MakePayload.name]
    rw [← escaping_tidy hP hl hfork now e] at hno
    unfold offer
    rcases hu : (fork.postPdu der).update P now e with ⟨fork', y | r⟩ <;> rw [hu] at hno
    · have hy : y.caught = true := by simpa using hno
      simpa [hy] using ih
    · simp only
      split
      · simp
      · exact ih

theorem routeToForks_returns {forks : List (Session β π)} (hf : ∀ s ∈ forks, Tidy P msg.cid .fork s)
    (hq : msg.payload.name ≠ .sessionInitRequest) (hp : msg.payload.name ≠ .sessionInitResponse) :
    (d.routeToForks P msg.cid forks der now e).2 = none := by
  have hr : ∀ x, (offer P der now e forks).2 ≠ .raised x := offer_raises hP hl hf hq hp
  unfold routeToForks
  rcases ho : offer P der now e forks with ⟨forks', contest⟩
  rw [ho] at hr
  cases contest with
  | «open» => rfl
  | won => rfl
  | raised x => exact absurd rfl (hr x)

end

/-- On tidy tables, an exception leaves the dispatcher exactly where `Escapes` says. -/
theorem postPdu_raises [DecidableEq π] (hP : P.Correct) {d : Dispatcher β π}
    (h : Kept (Tidy P) (fun _ => True) d) (der : π) (now : Int) (e : Entropy β) :
    (d.postPdu P der now e).2 = none ↔ ¬ d.Escapes P der now e := by
  unfold postPdu Escapes
  cases hl : P.load der with
  | error x => cases hx : x.isValueError <;> simp [hx]
  | ok msg =>
    simp only [reduceCtorEq, false_and, exists_false, Except.ok.injEq, exists_eq_left', false_or]
    cases he : d.established.get? msg.cid with
    | some s => exact deliverEstablished_raises hP hl (h.established _ _ he)
    | none =>
      cases hname : msg.payload.name with
      | sessionInitResponse =>
        obtain ⟨resp, hp⟩ : ∃ resp, msg.payload = .sessionInitResponse resp := by
          cases hp : msg.payload <;> simp_all [MakePayload.name]
        simp only [routeSessionInitResponse]
        cases ht : d.initiatorTemplates.get? msg.cid with
        | none => simp
        | some template =>
          have hf : ∀ s ∈ (d.initiatorForks.get? msg.cid).getD [], Tidy P msg.cid .fork s := by
            cases hforks : d.initiatorForks.get? msg.cid with
            | none => simp
            | some forks => exact h.fork _ _ hforks
          simp only [Option.some.injEq, exists_eq_left']
          rcases resendFork_raises hP hl d now e hf with
            ⟨hr, hne⟩ | ⟨r, hr, hn, fork, hm, hd⟩
          · simp only [hr, iff_true_intro hne, true_and]
            exact openFork_raises hP hl hp (h.template _ _ ht)
          · simp only [hr, hn, true_iff]
            exact fun hc => hc.1 fork hm hd
      | sessionInitRequest =>
        simp only [routeSessionInitRequest]
        cases hr : d.responderSessions.get? msg.cid with
        | some s => exact deliverResponder_raises hP hl (h.responder _ _ hr)
        | none => exact openResponder_raises hP hl
      | _ =>
        cases hr : d.responderSessions.get? msg.cid with
        | some s => exact deliverResponder_raises hP hl (h.responder _ _ hr)
        | none =>
          cases hforks : d.initiatorForks.get? msg.cid with
          | none => simp
          | some forks =>
            simpa using routeToForks_returns hP hl (h.fork _ _ hforks) (by simp [hname])
              (by simp [hname])

/-! ## Initial responders -/

/-- Tidy, and no responder session is initial. -/
def Settled (P : Primitives β π) (c : List β) (t : Slot) (s : Session β π) : Prop :=
  Tidy P c t s ∧ (t = .responder → s.state ≠ .initial)

omit [DecidableEq β] in
theorem settled_handled : Handled (Settled P) (fun _ : π => True) where
  sent _ _ _ _ _ _ := trivial
  drained _ _ _ h := ⟨tidy_handled.drained _ _ _ h.1, h.2⟩
  establish _ _ _ h hs := ⟨tidy_handled.establish _ _ _ h.1 hs, by simp⟩

section
variable [DecidableEq π] (hP : P.Correct) {d : Dispatcher β π} {s : Session β π} {now : Int}
  {e : Entropy β}
include hP

theorem update_not_initial (hs : s.state ≠ .initial) : (s.update P now e).1.state ≠ .initial := by
  by_cases hd : s.state = .dropped
  · rw [Session.update_dropped hd]
    exact hs
  · obtain ⟨_, s₁, hadv, hst⟩ := Session.update_frame hP hd now e
    rcases hst with hst | ⟨hst, _⟩
    · rw [hst]
      cases hadv with
      | stays h => exact h ▸ hs
      | answers _ _ h | completes _ h | calls _ h | confirms _ _ _ _ h => simp [h]
    · simp [hst]

theorem settled_update {c : List β} {t : Slot} (ht : t ≠ .template) (h : Settled P c t s) :
    Left (Settled P) c t (s.update P now e) :=
  (tidy_update hP h.1 ht).imp (fun hl => ⟨hl, fun hr => update_not_initial hP (h.2 hr)⟩)
    fun hl => ⟨hl.1, hl.2, by simp⟩

theorem settled_serves {der : π} (hok : ¬ d.Escapes P der now e) :
    Serves P d der now e (Settled P) (Settled P) where
  deliver _ _ s hl ht h := (tidy_deliver hP hl h.1 ht).imp
    (fun hd => ⟨hd, fun hr => update_not_initial hP (s := s.postPdu der) (h.2 hr)⟩)
    fun hd => ⟨hd.1, hd.2, by simp⟩
  call _ _ _ hl hp h := ⟨(tidy_serves (d := d) hP der now e).call _ _ _ hl hp h.1, by simp⟩
  fork _ _ _ _ h hf := ⟨h.1.fork hf, by simp⟩
  opened msg req candidate hl hp he hr hadd hopen := by
    refine ⟨tidy_opened hP hl now e, fun _ => hopen.resolve_right fun hx => hok ?_⟩
    have hadm := (CandidateStore.add_admits _ _ _ _ _).mp ⟨candidate, hadd⟩
    rw [show (∃ x, _ = Except.error x ∧ _) = Escaping _ from rfl,
      Session.escaping_update hP (Session.coherent_new _ _ _ _) (.inl rfl) hl
        (.inl ⟨rfl, rfl⟩)] at hx
    refine .inr ⟨msg, hl, ?_⟩
    simp only [he, hr, hp, MakePayload.name]
    rw [hp] at hx
    exact ⟨hadm, by simpa [Session.Escapes, Session.Overflows, Session.new] using hx⟩

/-- No PDU that is posted raises past the dispatcher. -/
def Harmless (P : Primitives β π) (d : Dispatcher β π) : Op β π → Prop
  | .postPdu der now e => ¬ d.Escapes P der now e
  | _ => True

theorem settled_stable : Stable P (Harmless P) (Settled P) where
  handled := settled_handled
  initiate _ _ _ _ _ _ _ _ hp hc := ⟨tidy_initiate hp hc, by simp⟩
  serves _ _ _ _ hok := settled_serves hP hok
  postPayload _ _ _ payload h := by
    refine ⟨h.1.postPayload payload, fun hr => ?_⟩
    rw [Session.postPayload_eq]
    exact h.2 hr
  update _ _ _ _ _ ht h := settled_update hP ht h

/-- A PDU that post_pdu returns for is of no harm to the run. -/
theorem run_of_returns {keys : KeyLookup β} {config : SessionConfig} {limits : CandidateLimits}
    (hrun : Run P (Harmless P) (new keys config limits) d) {der : π}
    (h : (d.postPdu P der now e).2 = none) :
    Run P (Harmless P) (new keys config limits) (d.step P (.postPdu der now e)) :=
  .step hrun ((postPdu_raises hP (tidy_run hP hrun (kept_new ..)) der now e).mp h)

/-- In every reachable state post_pdu returns for exactly the PDUs that are not of the
kind `Escapes`, and runs without PDUs of this kind leave no responder session initial. -/
theorem postPdu_returns (keys : KeyLookup β) (config : SessionConfig) (limits : CandidateLimits)
    (d : Dispatcher β π) :
    (Run P (fun _ _ => True) (new keys config limits) d →
      ∀ der now e, (d.postPdu P der now e).2 = none ↔ ¬ d.Escapes P der now e) ∧
    (Run P (Harmless P) (new keys config limits) d →
      ∀ c s, d.responderSessions.get? c = some s → s.state ≠ .initial) :=
  ⟨fun hrun der now e => postPdu_raises hP (tidy_run hP hrun (kept_new ..)) der now e,
    fun hrun c s hs => (((settled_stable hP).run hP.encrypt_ne_nil hrun (kept_new ..)).responder c s hs).2 rfl⟩

end

/-! ## Alice (0) calls Bob (1) -/

def aliceCall (k : Nat) : Session Sym Pdu :=
  ((Session.new .initiator (some (staticId 0)) (staticLookup 0) {}).initiate ideal (staticId 1) 0
    (draw k)).1

def callRequest (k : Nat) : Pdu := (aliceCall k).outgoingPdus.headD ideal.noPdu

def callAnswer (k : Nat) : Pdu :=
  (((Session.new .responder none (staticLookup 1) {}).postPdu (callRequest k)).update ideal 0
    (draw (k + 1))).1.outgoingPdus.headD ideal.noPdu

def callCompletion (k : Nat) : Pdu :=
  (((aliceCall k).postPdu (callAnswer k)).update ideal 0
    (draw (k + 2))).1.outgoingPdus.getLastD ideal.noPdu

/-- A request with a first ciphertext one octet long. -/
def missizedRequest : Pdu := ideal.dump (MakeMessage.build (draw 1).uuid (.sessionInitRequest
  { ct1 := ⟨kemAlg (mlkemOid .mlkem768), [.octet 0]⟩
    keyIdB := staticId 0
    pkAStar := staticKey 1
    keyIdA := staticId 1
    acceptableAeads := [aeadOid .aes256Gcm] }))

/-- Bob has had junk and a call of Alice's. -/
def bobCalled (limits : CandidateLimits) : Dispatcher Sym Pdu :=
  ((new (staticLookup 1) {} limits).step ideal (.postPdu (.junk 1) 0 (draw 9))).step ideal
    (.postPdu (callRequest 0) 0 (draw 1))

/-- The call is through, and another one is pending. -/
def bobServing (limits : CandidateLimits) : Dispatcher Sym Pdu :=
  ((bobCalled limits).step ideal (.postPdu (callCompletion 0) 0 (draw 3))).step ideal
    (.postPdu (callRequest 10) 0 (draw 11))

theorem run_bobServing : Run ideal (Harmless ideal) (new (staticLookup 1) {} {}) (bobServing {}) := by
  have hP := Ideal.ideal_correct
  have hjunk : Run ideal (Harmless ideal) (new (staticLookup 1) {} {})
      ((new (staticLookup 1) {} {}).step ideal (.postPdu (.junk 1) 0 (draw 9))) :=
    run_of_returns hP .refl (by decide +kernel)
  have hcalled : Run ideal (Harmless ideal) (new (staticLookup 1) {} {}) (bobCalled {}) :=
    run_of_returns hP hjunk (by decide +kernel)
  have hthrough : Run ideal (Harmless ideal) (new (staticLookup 1) {} {})
      ((bobCalled {}).step ideal (.postPdu (callCompletion 0) 0 (draw 3))) :=
    run_of_returns hP hcalled (by decide +kernel)
  exact run_of_returns hP hthrough (by decide +kernel)

/-- A message of the session that Alice did not encrypt. -/
def forgedMessage (seq : Int) : Pdu :=
  ideal.dump (MakeMessage.build (draw 0).uuid (.message ⟨seq, [.octet 0]⟩))

/-- Raised are the PDU that `load` raises on, the next message and one whose number is not
formatted; not raised are a message out of order and the completion of the pending call. -/
theorem postPdu_returns_example :
    (∀ der now e, ((bobServing {}).postPdu ideal der now e).2 = none ↔
      ¬ (bobServing {}).Escapes ideal der now e) ∧
    (∀ c s, (bobServing {}).responderSessions.get? c = some s → s.state ≠ .initial) ∧
    ((bobServing {}).established.get? (draw 0).uuid).isSome = true ∧
    ((bobServing {}).responderSessions.get? (draw 10).uuid).isSome = true ∧
    (bobServing {}).Escapes ideal (.odd 0) 1 (draw 20) ∧
    (bobServing {}).Escapes ideal (forgedMessage 1) 1 (draw 20) ∧
    (bobServing {}).Escapes ideal (forgedMessage (10 ^ intMaxStrDigits : Nat)) 1 (draw 20) ∧
    ¬ (bobServing {}).Escapes ideal (forgedMessage 2) 1 (draw 20) ∧
    ¬ (bobServing {}).Escapes ideal (callCompletion 10) 1 (draw 20) := by
  have h := postPdu_returns Ideal.ideal_correct (staticLookup 1) {} {} (bobServing {})
  have hreturns := h.1 (run_bobServing.mono fun _ _ _ => trivial)
  have hraised : ∀ der, ((bobServing {}).postPdu ideal der 1 (draw 20)).2 ≠ none →
      (bobServing {}).Escapes ideal der 1 (draw 20) := fun der hne =>
    not_not.mp fun hno => hne ((hreturns der 1 (draw 20)).mpr hno)
  refine ⟨hreturns, h.2 run_bobServing, by decide +kernel, by decide +kernel, ?_, ?_, ?_, ?_, ?_⟩
  · exact hraised _ (by decide +kernel)
  · exact hraised _ (by decide +kernel)
  · exact hraised _ (by decide +kernel)
  · exact (hreturns _ 1 (draw 20)).mp (by decide +kernel)
  · exact (hreturns _ 1 (draw 20)).mp (by decide +kernel)

/-- The ValueError of the decapsulation gets through, and its session stays initial. -/
theorem missized_raises :
    ((new (staticLookup 0) {} {}).postPdu ideal missizedRequest 0 (draw 0)).2 = some .valueError ∧
    ((((new (staticLookup 0) {} {}).postPdu ideal missizedRequest 0 (draw 0)).1.responderSessions.get?
      (draw 1).uuid).map fun s => s.state) = some .initial := by
  decide +kernel

end Dispatcher
end KemMake
