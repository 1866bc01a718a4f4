import KemMake.Crank
import KemMake.Tidy

/-!
# Output left in the sessions

Every delivery ends with a drain, unless an exception gets through; `update` drains
established sessions, responders and a winning fork. A fork that resends on its
timeout keeps what it resent.
-/

namespace KemMake

variable {β π : Type} {P : Primitives β π}

namespace Session

/-- Nothing is waiting for a drain. -/
def Still (s : Session β π) : Prop := s.outgoingPdus = [] ∧ s.outgoingPayloads = []

/-- Has an answer or a payload from the PDU when the payload to be sent overflows. -/
def Strands (P : Primitives β π) (s : Session β π) (der : π) (payload : MakePayload β) : Prop :=
  s.Overflows ∧ (s.lastReceived = some der ∧ s.lastSent ≠ none ∨
    s.lastReceived ≠ some der ∧ s.Accepts P payload)

/-- The deadline has passed, and there are attempts left. -/
def Resends (s : Session β π) (now : Int) : Prop :=
  s.state ≠ .dropped ∧ s.state ≠ .established ∧ s.state ≠ .initial ∧ s.role = .initiator ∧
    s.lastSent ≠ none ∧ (s.attemptCount : Int) < s.config.maxRetries ∧
    ∃ t, s.deadline = some t ∧ t ≤ now

theorem Still.postPdu {s : Session β π} (h : s.Still) (der : π) : (s.postPdu der).Still := h

theorem still_drained (s : Session β π) : s.drained.Still := ⟨rfl, rfl⟩

theorem Still.drained_eq {s : Session β π} (h : s.Still) : s.drained = s := by
  obtain ⟨hp, hq⟩ := h
  cases s
  cases hp
  cases hq
  rfl

/-- What an initiator has accepted before it is established is a response. -/
def Responded (P : Primitives β π) (s : Session β π) : Prop :=
  s.state ≠ .established → ∀ der msg, s.lastReceived = some der → P.load der = .ok msg →
    msg.payload.name = .sessionInitResponse

theorem Took.responded {s s' : Session β π} {now : Int} {e : Entropy β} {x : Option PyError}
    (ht : Took P s now e s' x) (hr : s.role = .initiator) (h : s.Responded P) : s'.Responded P := by
  cases ht with
  | idle | ignored | undecoded | refused => exact h
  | resent => rw [resend_eq]; exact h
  | received => rw [countReceived_eq]; exact h
  | answered _ _ _ _ hr' =>
    rw [hr] at hr'
    cases hr'
  | completed | confirmed | replied => exact fun hs => absurd rfl hs
  | called _ hl hp =>
    intro _ der msg hd hl'
    cases hd
    rw [hl] at hl'
    cases hl'
    rw [hp]
    rfl

variable {s : Session β π} {now : Int}

/-- The clock makes no output when nothing is to be resent. -/
theorem checkDeadline_quiet (hn : ¬ s.Resends now) (hd : s.state ≠ .dropped) :
    ((s.checkDeadline now).outgoingPdus = s.outgoingPdus ∧
      (s.checkDeadline now).outgoingPayloads = s.outgoingPayloads) ∧
      ¬ (s.checkDeadline now).Resends now := by
  unfold checkDeadline
  split
  · exact ⟨⟨rfl, rfl⟩, hn⟩
  · rename_i t ht
    split
    · rename_i hdue
      unfold onTimeout
      split
      · exact ⟨⟨rfl, rfl⟩, fun h => h.1 rfl⟩
      · rename_i hr
        split
        · exact ⟨⟨rfl, rfl⟩, fun h => h.1 rfl⟩
        · rename_i hc
          have hr : s.role = .initiator := by cases hs : s.role <;> simp_all
          have hlast : s.lastSent = none := by
            apply not_not.mp
            intro hne
            exact hn ⟨hd, hdue.2.1, hdue.2.2, hr, hne, by omega, t, ht, by omega⟩
          simp [resend_eq, hlast, Resends]
    · exact ⟨⟨rfl, rfl⟩, hn⟩

section
variable [DecidableEq β] [DecidableEq π] {e : Entropy β} {der : π} {msg : MakeMessage β}

/-- A session that is not established and has no PDU only looks at the clock. -/
theorem update_pending (hq : s.incomingQueue = []) (hs : s.state ≠ .established)
    (hd : s.state ≠ .dropped) :
    s.update P now e = (s.checkDeadline now, .ok ((s.checkDeadline now).updateResult now)) := by
  simp only [update, hd, ↓reduceIte, takeIncoming, hq, sendPending, hs]

variable (hP : P.Correct)
include hP

/-- An update that raises leaves no output but that of the PDU it has taken. -/
theorem still_of_error (hcoh : s.Coherent P) (h : s.Still) {x : PyError}
    (hx : (s.update P now e).2 = .error x)
    (ht : (s.takeIncoming P now e).2 = none → s.Overflows → (s.takeIncoming P now e).1.Still) :
    (s.update P now e).1.Still := by
  have htook := takeIncoming_took hP.encrypt_ne_nil s now e
  unfold update at hx ⊢
  split at hx
  · cases hx
  · rename_i hd
    rw [if_neg hd]
    rcases hti : s.takeIncoming P now e with ⟨s₁, _ | y⟩ <;> rw [hti] at ht htook hx
    · have hsent := sendPending_sent (P := P) s₁
      have hover := sendPending_raises (htook.coherent hP hcoh)
      rw [htook.overflows hcoh] at hover
      rcases hsp : s₁.sendPending P with ⟨s₂, _ | y⟩ <;> rw [hsp] at hsent hover
      · simp only [hsp] at hx
        split at hx <;> cases hx
      · simp only [hsp]
        obtain ⟨hno, _⟩ | ⟨_, ho⟩ := hover
        · cases hno
        · cases hsent
          exact ht rfl ho
    · cases htook with
      | undecoded | refused => exact h

/-- An update that raises on a PDU it does not strand leaves no output. -/
theorem still_of_delivery (hcoh : s.Coherent P) (hq : s.incomingQueue = [] ∨ s.state = .dropped)
    (hl : P.load der = .ok msg) (h : s.Still) (hn : ¬ s.Strands P der msg.payload) {x : PyError}
    (hx : ((s.postPdu der).update P now e).2 = .error x) :
    ((s.postPdu der).update P now e).1.Still := by
  by_cases hd : s.state = .dropped
  · rw [update_dropped (show (s.postPdu der).state = .dropped from hd)] at hx
    cases hx
  have hq := hq.resolve_right hd
  refine still_of_error hP (hcoh.postPdu der) h hx fun hnone ho => ?_
  have ho : s.Overflows := ho
  have htook := takeIncoming_took hP.encrypt_ne_nil (s.postPdu der) now e
  rw [takeIncoming_postPdu hq] at hnone htook ⊢
  by_cases hdup : s.lastReceived = some der
  · have hlast : s.lastSent = none := not_not.mp fun hne => hn ⟨ho, .inl ⟨hdup, hne⟩⟩
    simp only [processIncoming, hdup, ↓reduceIte, resend_eq, hlast]
    exact ⟨by simp [h.1], h.2⟩
  · have htaken : ∀ hc, _ := fun hc => (processIncoming_none hcoh ho.1 hl hc).mp hnone
    rw [hnone] at htook
    generalize (s.processIncoming P der now e).1 = s₁ at htook
    cases htook with
    | idle | ignored => exact h
    | resent hq' hd' => simp_all [Session.postPdu]
    | answered _ _ _ hs | completed _ _ _ hs | called _ _ _ hs | confirmed _ _ _ hs
    | replied _ _ _ hs =>
      have hs' := ho.1
      exact absurd (hs'.symm.trans hs) (by simp)
    | received hq' hl' _ _ hc =>
      simp only [Session.postPdu, hq, List.nil_append, List.cons.injEq] at hq'
      rw [← hq'.1, hl] at hl'
      cases hl'
      exact absurd ⟨ho, .inr ⟨hdup, (htaken hc).resolve_left hdup⟩⟩ hn

theorem responded_update (hr : s.role = .initiator) (h : s.Responded P) (now : Int)
    (e : Entropy β) : (s.update P now e).1.Responded P := by
  refine update_preserves hP.encrypt_ne_nil (fun _ _ ht h => ht.responded hr h)
    (fun _ _ _ hs h => ?_) (fun _ _ hk h => ?_) h
  · cases hs with
    | message => rw [countSent_eq]; exact h
    | _ => exact h
  · cases hk with
    | idle => exact h
    | dropped hs => exact fun _ => h hs
    | retried => rw [resend_eq]; exact h

end

end Session

namespace Dispatcher

/-- Tidy, and the forks have accepted responses only. -/
def Heard (P : Primitives β π) (c : List β) (t : Slot) (s : Session β π) : Prop :=
  Tidy P c t s ∧ (t = .fork → s.Responded P)

theorem heard_handled : Handled (Heard P) (fun _ : π => True) where
  sent _ _ _ _ _ _ := trivial
  drained _ _ _ h := ⟨tidy_handled.drained _ _ _ h.1, h.2⟩
  establish _ _ _ h hs := ⟨tidy_handled.establish _ _ _ h.1 hs, fun ht => by cases ht⟩

theorem Fits.initiator {c : List β} {s : Session β π} (h : Fits P c .fork s)
    (hd : s.state ≠ .dropped) : s.role = .initiator := by
  obtain hs | hs | hs := h.2.1
  · exact (h.1.calling hs).1
  · exact (h.1.called hs).1
  · exact absurd hs hd

theorem Fits.not_established {c : List β} {s : Session β π} (h : Fits P c .fork s) :
    s.state ≠ .established := by
  rcases h.2.1 with hs | hs | hs <;> simp [hs]

section
variable [DecidableEq β] [DecidableEq π] (hP : P.Correct) {d : Dispatcher β π} {s : Session β π}
  {now : Int} {e : Entropy β} {der : π} {msg : MakeMessage β} {c : List β} {t : Slot}
include hP

theorem heard_left (hr : t = .fork → s.state ≠ .dropped → s.role = .initiator)
    (h : t = .fork → s.Responded P) (hleft : Left (Tidy P) c t (s.update P now e)) :
    Left (Heard P) c t (s.update P now e) := by
  refine hleft.imp (fun hT => ⟨hT, fun ht => ?_⟩) fun ⟨hready, hT⟩ => ⟨hready, hT, fun ht => by cases ht⟩
  by_cases hd : s.state = .dropped
  · rw [Session.update_dropped hd]
    exact h ht
  · exact Session.responded_update hP (hr ht hd) (h ht) now e

theorem heard_deliver (hl : P.load der = .ok msg) (h : Heard P msg.cid t s) (ht : t ≠ .template) :
    Left (Heard P) msg.cid t ((s.postPdu der).update P now e) :=
  heard_left hP (fun htf hd => (htf ▸ h.1.1 : Fits P msg.cid .fork s).initiator hd) h.2
    (tidy_deliver hP hl h.1 ht)

theorem heard_serves (der : π) (now : Int) (e : Entropy β) :
    Serves P d der now e (Heard P) (Heard P) where
  deliver _ _ _ hl ht h := heard_deliver hP hl h ht
  call _ _ _ hl hp h := (heard_deliver hP hl h (by simp)).of_state
    (not_established hP hl h.1 (by simp [hp, MakePayload.name]))
  fork _ s twin _ h hf := by
    refine ⟨h.1.fork hf, fun _ _ der _ hd => ?_⟩
    obtain ⟨_, _, _, rfl⟩ := Session.fork_ok.mp hf
    cases hd
  opened _ _ _ hl _ _ _ _ _ := ⟨tidy_opened hP hl now e, fun ht => by cases ht⟩

theorem heard_stable (ok : Dispatcher β π → Op β π → Prop) : Stable P ok (Heard P) where
  handled := heard_handled
  initiate _ _ _ _ _ _ _ _ hp hc := ⟨tidy_initiate hp hc, fun ht => by cases ht⟩
  serves _ der now e _ := heard_serves hP der now e
  postPayload _ _ _ payload h := by
    refine ⟨h.1.postPayload payload, fun ht => ?_⟩
    rw [Session.postPayload_eq]
    exact h.2 ht
  update _ _ s now e ht h :=
    heard_left hP (fun htf hd => (htf ▸ h.1.1 : Fits P _ .fork s).initiator hd) h.2
      (tidy_update hP h.1 ht)

/-- Offered something other than a response, a fork is established or has no output. -/
theorem still_of_offer (hl : P.load der = .ok msg) (h : Heard P msg.cid .fork s) (hs : s.Still)
    (hname : msg.payload.name ≠ .sessionInitResponse) (now : Int) (e : Entropy β)
    (he : ((s.postPdu der).update P now e).1.state ≠ .established) :
    ((s.postPdu der).update P now e).1.Still := by
  by_cases hd : s.state = .dropped
  · rw [Session.update_dropped (show (s.postPdu der).state = .dropped from hd)]
    exact hs
  have hq := h.1.2.resolve_right hd
  have hstate : s.state ≠ .established ∧ s.state ≠ .initial ∧
      s.state ≠ .expectSessionCompletionRequest := by
    rcases h.1.1.2.1 with hs | hs | hs <;> simp [hs]
  have hu := Session.update_cases hP.encrypt_ne_nil (s.postPdu der) now e
  cases hr : ((s.postPdu der).update P now e).2 with
  | error x =>
    exact Session.still_of_delivery hP h.1.1.1 h.1.2 hl hs (fun hst => hstate.1 hst.1.1) hr
  | ok r =>
    rw [hr] at hu
    generalize ((s.postPdu der).update P now e).1 = s' at hu he
    cases hu with
    | dropped hd' => exact absurd hd' hd
    | @done s₁ _ _ _ _ ht hsent hk =>
      have hqueue : ∀ {der' rest}, (s.postPdu der).incomingQueue = der' :: rest → der' = der := by
        intro der' rest hq'
        simp only [Session.postPdu, hq, List.nil_append, List.cons.injEq] at hq'
        exact hq'.1.symm
      have hest : s₁.state ≠ .established := by
        intro hs₁
        have hs₂ := hsent.frame.1.trans hs₁
        obtain hs' | ⟨_, hne, _⟩ := hk.frame.1
        · exact he (hs'.trans hs₂)
        · exact hne hs₂
      cases ht with
      | idle hq' => simp [Session.postPdu, hq] at hq'
      | resent hq' hdup =>
        cases hqueue hq'
        exact absurd (h.2 rfl hstate.1 _ _ hdup hl) hname
      | ignored hq' hc =>
        cases hqueue hq'
        obtain ⟨hi, _⟩ | hc := hc msg hl
        · exact absurd hi hstate.2.1
        · exact absurd h.1.1.2.2 hc
      | answered _ _ _ hs' => exact absurd hs' hstate.2.1
      | completed _ _ _ hs' => exact absurd hs' hstate.2.2
      | received _ _ _ hs' => exact absurd hs' hstate.1
      | called hq' hl' hp =>
        cases hqueue hq'
        rw [hl] at hl'
        cases hl'
        simp [hp, MakePayload.name] at hname
      | confirmed | replied => exact absurd rfl hest

end

/-- Nothing is waiting in any session. -/
def Emptied (_ : List β) (_ : Slot) (s : Session β π) : Prop := s.Still

theorem emptied_handled : Handled (Emptied (β := β)) (fun _ : π => True) where
  sent _ _ _ _ _ _ := trivial
  drained _ _ s _ := Session.still_drained s
  establish _ _ _ h _ := h

section
variable [DecidableEq β] [DecidableEq π] {d : Dispatcher β π} {s : Session β π} {now : Int}
  {e : Entropy β} {der : π} {msg : MakeMessage β} {c : List β} {t : Slot}

variable (hP : P.Correct) (hl : P.load der = .ok msg) (h : Kept Emptied (fun _ => True) d)
include hP hl h

theorem emptied_deliver (hs : Tidy P msg.cid t s) (hstill : s.Still)
    (hn : ¬ s.Strands P der msg.payload) (now : Int) (e : Entropy β) :
    Kept Emptied (fun _ => True) (d.deliver P s der now msg.cid e).1 ∧
      (d.deliver P s der now msg.cid e).2.1.Still := by
  obtain ⟨x, hx, _, hd⟩ | ⟨_, hd⟩ := deliver_cases P d s der now msg.cid e
  · rw [hd]
    exact ⟨h, Session.still_of_delivery hP hs.1.1 hs.2 hl hstill hn hx⟩
  · rw [hd]
    exact ⟨h.drain fun _ _ => trivial, Session.still_drained _⟩

theorem emptied_deliverEstablished (hs : Tidy P msg.cid .established s) (hstill : s.Still)
    (hn : ¬ s.Strands P der msg.payload) (now : Int) (e : Entropy β) :
    Kept Emptied (fun _ => True) (d.deliverEstablished P s der now msg.cid e).1 := by
  obtain ⟨hk, hs'⟩ := emptied_deliver hP hl h hs hstill hn now e
  exact hk.setEstablished hs'

theorem emptied_deliverResponder (hs : Tidy P msg.cid .responder s) (hstill : s.Still) (now : Int)
    (e : Entropy β) :
    Kept Emptied (fun _ => True) (d.deliverResponder P s der now msg.cid e).1 := by
  have hd := emptied_deliver hP hl h hs hstill (fun hn => hs.1.2.2.1 hn.1.1) now e
  unfold deliverResponder
  rcases hu : d.deliver P s der now msg.cid e with ⟨d', s', _ | x⟩ <;> rw [hu] at hd
  · exact (hd.1.setResponder hd.2).reapResponder emptied_handled msg.cid
  · exact hd.1.setResponder hd.2

theorem emptied_openResponder (now : Int) (e : Entropy β) :
    Kept Emptied (fun _ => True) (d.openResponder P der now msg.cid e).1 := by
  have hnew : Tidy P msg.cid .responder (Session.new .responder none d.keys d.config) :=
    ⟨⟨Session.coherent_new _ _ _ _, rfl, by simp [Session.new], by simp [Session.new]⟩, .inl rfl⟩
  unfold openResponder
  rcases d.candidates.add msg.cid der P.noPdu now with ⟨candidates, x | candidate⟩
  · exact h.withCandidates candidates
  · have hd := emptied_deliver hP hl (h.withCandidates candidates) hnew ⟨rfl, rfl⟩
      (fun hn => by cases hn.1.1) now e
    simp only
    rcases hu : Dispatcher.deliver P { d with candidates } (.new .responder none d.keys d.config) der now
      msg.cid e with ⟨d', s', _ | x⟩ <;> rw [hu] at hd
    · have hset := hd.1.setResponder (c := msg.cid) hd.2
      simp only
      split
      · exact hset.dropResponder msg.cid
      · refine Kept.reapResponder ?_ emptied_handled msg.cid
        split
        · exact hset.withCandidates _
        · exact hset
    · exact hd.1.setResponder hd.2

omit [DecidableEq β] [DecidableEq π] hP hl h in
theorem Heard.not_strands (hs : Heard P msg.cid .fork s) : ¬ s.Strands P der msg.payload :=
  fun hn => hs.1.1.not_established hn.1.1

theorem emptied_resendFork {forks : List (Session β π)}
    (hf : ∀ s ∈ forks, Heard P msg.cid .fork s ∧ s.Still)
    {r : Dispatcher β π × List (Session β π) × Option PyError}
    (hr : d.resendFork P der now msg.cid e forks = some r) :
    Kept Emptied (fun _ => True) r.1 ∧ ∀ s ∈ r.2.1, s.Still := by
  induction forks generalizing r with
  | nil => cases hr
  | cons fork rest ih =>
    obtain ⟨⟨hfork, hstill⟩, hrest⟩ := List.forall_mem_cons.mp hf
    unfold resendFork at hr
    split at hr
    · have hd := emptied_deliver hP hl h hfork.1 hstill hfork.not_strands now e
      cases hr
      exact ⟨hd.1, List.forall_mem_cons.mpr ⟨hd.2, fun s hs => (hrest s hs).2⟩⟩
    · cases hrec : d.resendFork P der now msg.cid e rest with
      | none => simp [hrec] at hr
      | some q =>
        rw [hrec] at hr
        cases hr
        obtain ⟨hk, hq⟩ := ih hrest hrec
        exact ⟨hk, List.forall_mem_cons.mpr ⟨hstill, hq⟩⟩

theorem emptied_openFork (hT : Kept (Heard P) (fun _ => True) d)
    (hs : d.initiatorTemplates.get? msg.cid = some s) (now : Int) (e : Entropy β) :
    Kept Emptied (fun _ => True) (d.openFork P s der now msg.cid e).1 := by
  unfold openFork
  rcases d.candidates.add msg.cid der P.noPdu now with ⟨candidates, x | candidate⟩
  · exact h.withCandidates candidates
  · have hc := h.withCandidates candidates
    simp only
    split
    · exact hc
    · rename_i twin hfork
      have htwin : Heard P msg.cid .fork twin :=
        (heard_serves (d := d) hP der now e).fork _ _ _ hl (hT.template _ _ hs) hfork
      have hstill : twin.Still := by
        obtain ⟨_, _, _, rfl⟩ := Session.fork_ok.mp hfork
        exact ⟨rfl, rfl⟩
      have hd := emptied_deliver hP hl hc htwin.1 hstill htwin.not_strands now e
      rcases hu : Dispatcher.deliver P { d with candidates } twin der now msg.cid e with ⟨d', s', x⟩
      rw [hu] at hd
      have hall : ∀ s ∈ (d.initiatorForks.get? msg.cid).getD [] ++ [s'], s.Still := by
        intro s hs
        rcases List.mem_append.mp hs with hs | hs
        · cases hforks : d.initiatorForks.get? msg.cid with
          | none => simp [hforks] at hs
          | some forks => exact h.fork _ _ hforks s (by simpa [hforks] using hs)
        · rw [List.mem_singleton.mp hs]
          exact hd.2
      have hset := hd.1.setForks (c := msg.cid) hall
      cases x with
      | some x => exact hset
      | none => exact hset.withCandidates _

omit h in
theorem still_offer (hname : msg.payload.name ≠ .sessionInitResponse) (now : Int) (e : Entropy β)
    {forks : List (Session β π)} (hf : ∀ s ∈ forks, Heard P msg.cid .fork s ∧ s.Still) :
    (∀ winner, (offer P der now e forks).2 ≠ .won winner) →
      ∀ s ∈ (offer P der now e forks).1, s.Still := by
  induction forks with
  | nil => simp [offer]
  | cons fork rest ih =>
    obtain ⟨⟨hfork, hstill⟩, hrest⟩ := List.forall_mem_cons.mp hf
    have hs := still_of_offer hP hl hfork hstill hname now e
    have hready : Left (Tidy P) msg.cid .fork ((fork.postPdu der).update P now e) :=
      tidy_deliver hP hl hfork.1 (by simp)
    unfold offer
    rcases hu : (fork.postPdu der).update P now e with ⟨fork', x | r⟩ <;> rw [hu] at hs hready
    · have he : fork'.state ≠ .established := (hready.of_error rfl).1.not_established
      simp only
      split
      · exact fun hn => List.forall_mem_cons.mpr ⟨hs he, ih hrest hn⟩
      · exact fun _ => List.forall_mem_cons.mpr ⟨hs he, fun s hs => (hrest s hs).2⟩
    · simp only
      split
      · exact fun hn => absurd rfl (hn _)
      · rename_i he
        exact fun hn => List.forall_mem_cons.mpr ⟨hs he, ih hrest hn⟩

theorem emptied_routeToForks {forks : List (Session β π)}
    (hf : ∀ s ∈ forks, Heard P msg.cid .fork s ∧ s.Still)
    (hname : msg.payload.name ≠ .sessionInitResponse) (now : Int) (e : Entropy β) :
    Kept Emptied (fun _ => True) (d.routeToForks P msg.cid forks der now e).1 := by
  have hoffer := still_offer hP hl hname now e hf
  unfold routeToForks
  rcases ho : offer P der now e forks with ⟨forks', contest⟩
  rw [ho] at hoffer
  cases contest with
  | «open» => exact h.setForks (hoffer (by simp))
  | raised x => exact h.setForks (hoffer (by simp))
  | won winner =>
    refine h.promote_of (Session.still_drained winner) rfl (fun _ _ => rfl) (fun _ _ => rfl)
      (fun j hj => Dict.get?_set_of_ne _ hj _) fun _ _ => trivial

/-- A PDU leaves nothing behind, unless it is an established session that it strands. -/
theorem emptied_postPdu (hT : Kept (Heard P) (fun _ => True) d)
    (hn : ∀ s, d.established.get? msg.cid = some s → ¬ s.Strands P der msg.payload) (now : Int)
    (e : Entropy β) : Kept Emptied (fun _ => True) (d.postPdu P der now e).1 := by
  have hforks : ∀ forks, d.initiatorForks.get? msg.cid = some forks →
      ∀ s ∈ forks, Heard P msg.cid .fork s ∧ s.Still :=
    fun forks hf s hs => ⟨hT.fork _ _ hf s hs, h.fork _ _ hf s hs⟩
  simp only [postPdu, hl]
  split
  · rename_i s hs
    exact emptied_deliverEstablished hP hl h (hT.established _ _ hs).1 (h.established _ _ hs)
      (hn s hs) now e
  · split
    · unfold routeSessionInitRequest
      split
      · rename_i s hs
        exact emptied_deliverResponder hP hl h (hT.responder _ _ hs).1 (h.responder _ _ hs) now e
      · exact emptied_openResponder hP hl h now e
    · unfold routeSessionInitResponse
      split
      · exact h
      · rename_i template ht
        split
        · rename_i hr
          have hf : ∀ s ∈ (d.initiatorForks.get? msg.cid).getD [], Heard P msg.cid .fork s ∧ s.Still := by
            cases hf : d.initiatorForks.get? msg.cid with
            | none => simp
            | some forks => exact hforks forks hf
          obtain ⟨hk, hq⟩ := emptied_resendFork hP hl h hf hr
          exact hk.setForks hq
        · exact emptied_openFork hP hl h hT ht now e
    · rename_i hname
      split
      · rename_i s hs
        exact emptied_deliverResponder hP hl h (hT.responder _ _ hs).1 (h.responder _ _ hs) now e
      · split
        · rename_i forks hf
          exact emptied_routeToForks hP hl h (hforks forks hf) hname now e
        · exact h

end

/-! ## The crank -/

/-- Heard, with nothing waiting; if `R`, no fork is due. -/
def Calm (P : Primitives β π) (now : Int) (R : Prop) (c : List β) (t : Slot) (s : Session β π) :
    Prop := Heard P c t s ∧ s.Still ∧ (R → t = .fork → ¬ s.Resends now)

section
variable [DecidableEq β] [DecidableEq π] (hP : P.Correct) {d : Dispatcher β π} {s : Session β π}
  {now : Int} {e : Entropy β} {c : List β} {t : Slot} {R : Prop}

omit [DecidableEq β] [DecidableEq π] in
theorem calm_handled : Handled (Calm P now R) (fun _ : π => True) where
  sent _ _ _ _ _ _ := trivial
  drained _ _ s h := ⟨heard_handled.drained _ _ _ h.1, s.still_drained, h.2.2⟩
  establish _ _ _ h hs := ⟨heard_handled.establish _ _ _ h.1 hs, h.2.1, fun _ ht => by cases ht⟩

include hP

theorem calm_drained (h : Calm P now R c t s) (ht : t ≠ .template) (hf : t ≠ .fork) (e : Entropy β) :
    Left (Calm P now R) c t ((s.update P now e).1.drained, (s.update P now e).2) := by
  have hleft : Left (Heard P) c t (s.update P now e) :=
    (heard_stable hP fun _ _ => True).update c t s now e ht h.1
  refine hleft.imp (fun hh => ?_) fun ⟨hready, hh⟩ => ⟨hready, ?_⟩
  · exact ⟨heard_handled.drained _ _ _ hh, Session.still_drained _, fun _ htf => absurd htf hf⟩
  · exact ⟨heard_handled.drained _ _ _ hh, Session.still_drained _, fun _ ht => by cases ht⟩

/-- An update without a PDU that raises. -/
theorem calm_of_error (h : Calm P now R c t s) (ht : t ≠ .template) (hf : t ≠ .fork)
    {x : PyError} (hx : (s.update P now e).2 = .error x) :
    Calm P now R c t (s.update P now e).1 := by
  have hleft : Left (Heard P) c t (s.update P now e) :=
    (heard_stable hP fun _ _ => True).update c t s now e ht h.1
  refine ⟨hleft.of_error hx, ?_, fun _ htf => absurd htf hf⟩
  by_cases hd : s.state = .dropped
  · rw [Session.update_dropped hd]
    exact h.2.1
  · have htake : s.takeIncoming P now e = (s, none) := by
      simp [Session.takeIncoming, h.1.1.2.resolve_right hd]
    exact Session.still_of_error hP h.1.1.1.1 h.2.1 hx fun _ _ => by rw [htake]; exact h.2.1

theorem calm_updateEstablished (h : Kept (Calm P now R) (fun _ => True) d) (c : List β)
    (next : WithTop Int) :
    Kept (Calm P now R) (fun _ => True) (updateEstablished P now e d c next).1 := by
  unfold updateEstablished
  split
  · exact h
  · rename_i s hs
    have hd := (calm_drained hP (h.established _ _ hs) (by simp) (by simp) e).established
    have hx : ∀ x, (s.update P now e).2 = .error x →
        Calm P now R c .established (s.update P now e).1 := fun x =>
      calm_of_error hP (h.established _ _ hs) (by simp) (by simp)
    rcases hu : s.update P now e with ⟨s', x | ⟨r, deadline⟩⟩ <;> rw [hu] at hd hx
    · simp only
      split
      · exact (h.drain (c := c) fun _ _ => trivial).setEstablished hd
      · exact h.setEstablished (hx x rfl)
    · exact (h.drain (c := c) fun _ _ => trivial).setEstablished hd

theorem calm_updateResponder (h : Kept (Calm P now R) (fun _ => True) d) (c : List β)
    (next : WithTop Int) :
    Kept (Calm P now R) (fun _ => True) (updateResponder P now e d c next).1 := by
  unfold updateResponder
  split
  · exact h
  · rename_i s hs
    have hd := calm_drained hP (h.responder _ _ hs) (by simp) (by simp) e
    have hx : ∀ x, (s.update P now e).2 = .error x →
        Calm P now R c .responder (s.update P now e).1 := fun x =>
      calm_of_error hP (h.responder _ _ hs) (by simp) (by simp)
    rcases hu : s.update P now e with ⟨s', x | ⟨r, deadline⟩⟩ <;> rw [hu] at hd hx
    · simp only
      split
      · exact h.dropResponder c
      · exact h.setResponder (hx x rfl)
    · simp only
      split
      · rename_i hu
        have he := hd.promote calm_handled hu
        exact h.promote_of he rfl (fun j hj => Dict.get?_set_of_ne _ hj _)
          (fun _ _ => rfl) (fun _ _ => rfl) fun _ _ => trivial
      · rename_i hu
        have hdrain : Kept (Calm P now R) (fun _ => True) (d.drain s' c).1 := h.drain fun _ _ => trivial
        have hset := hdrain.setResponder (hd.of_state hu)
        split
        · exact hset.dropResponder c
        · exact hset

/-- A fork that is not due stays as it is, or is dropped. -/
theorem calm_fork (hR : R) (h : Calm P now R c .fork s) (e : Entropy β) :
    (∃ r, (s.update P now e).2 = .ok r) ∧ Calm P now R c .fork (s.update P now e).1 := by
  have hleft : Left (Heard P) c .fork (s.update P now e) :=
    (heard_stable hP fun _ _ => True).update c .fork s now e (by simp) h.1
  by_cases hd : s.state = .dropped
  · rw [Session.update_dropped hd]
    exact ⟨⟨_, rfl⟩, h⟩
  · obtain ⟨hout, hn⟩ := Session.checkDeadline_quiet (h.2.2 hR rfl) hd
    have hu : s.update P now e = _ := Session.update_pending (h.1.1.2.resolve_right hd)
      h.1.1.1.not_established hd
    rw [hu] at hleft ⊢
    refine ⟨⟨_, rfl⟩, hleft.of_state ?_, ?_, fun _ _ => hn⟩
    · obtain hs | ⟨hs, _⟩ := (Session.checkDeadline_ticked s now).frame.1
      · rw [hs]
        exact h.1.1.1.not_established
      · simp [hs]
    · exact ⟨hout.1.trans h.2.1.1, hout.2.trans h.2.1.2⟩

theorem calm_crankForks (hR : R) {forks : List (Session β π)}
    (hf : ∀ s ∈ forks, Calm P now R c .fork s) (next : WithTop Int) :
    (crankForks P now e forks next).2.2.1 = .open ∧
      ∀ s ∈ (crankForks P now e forks next).2.1, Calm P now R c .fork s := by
  induction forks generalizing next with
  | nil => simp [crankForks]
  | cons fork rest ih =>
    obtain ⟨hfork, hrest⟩ := List.forall_mem_cons.mp hf
    obtain ⟨⟨r, hr⟩, hcalm⟩ := calm_fork hP hR hfork e
    unfold crankForks
    rcases hu : fork.update P now e with ⟨fork', _ | ⟨r, deadline⟩⟩ <;> rw [hu] at hr hcalm
    · cases hr
    · obtain ⟨hopen, hk⟩ := ih hrest (min next deadline)
      have he : fork'.state ≠ .established := hcalm.1.1.1.not_established
      simp only [he, ↓reduceIte]
      refine ⟨hopen, ?_⟩
      split
      · exact hk
      · exact List.forall_mem_cons.mpr ⟨hcalm, hk⟩

theorem calm_updateForks (hR : R) (h : Kept (Calm P now R) (fun _ => True) d) (c : List β)
    (next : WithTop Int) :
    Kept (Calm P now R) (fun _ => True) (updateForks P now e d c next).1 := by
  unfold updateForks
  split
  · exact h
  · rename_i forks hf
    obtain ⟨hopen, hk⟩ := calm_crankForks hP hR (h.fork _ _ hf) next (e := e)
    rcases hc : crankForks P now e forks next with ⟨forks', surviving, contest, next'⟩
    rw [hc] at hopen hk
    cases hopen
    cases surviving with
    | nil =>
      exact h.shrink (fun _ _ => id) (fun _ _ => id) (fun _ _ => Dict.get?_of_erase)
        (fun _ _ => Dict.get?_of_erase) (fun _ => id)
    | cons fork rest => exact h.setForks hk

omit hP in
/-- An established session without a sequence number left ends the crank. -/
theorem update_overflows (h : Tidy P c .established s) (ho : s.Overflows) (now : Int)
    (e : Entropy β) : (s.update P now e).2 = .error .overflowError := by
  have hd : s.state ≠ .dropped := by simp [ho.1]
  have htake : s.takeIncoming P now e = (s, none) := by
    simp [Session.takeIncoming, h.2.resolve_right hd]
  obtain ⟨_, hno⟩ | ⟨hx, _⟩ := Session.sendPending_raises (P := P) h.1.1
  · exact absurd ho hno
  · unfold Session.update
    rw [if_neg hd, htake]
    rcases hs : s.sendPending P with ⟨s', x⟩
    rw [hs] at hx
    cases hx
    simp only [hs]

omit hP in
theorem sweep_overflows (cids : List (List β)) (hmem : c ∈ cids)
    (hs : d.established.get? c = some s) (h : Tidy P c .established s) (ho : s.Overflows)
    (next : WithTop Int) : ∃ x, (sweep (updateEstablished P now e) d cids next).2 = .error x := by
  induction cids generalizing d next with
  | nil => cases hmem
  | cons j rest ih =>
    unfold sweep
    by_cases hj : c = j
    · subst hj
      have hx := update_overflows h ho now e
      rcases hu : s.update P now e with ⟨s', x | r⟩ <;> rw [hu] at hx <;> cases hx
      simp [updateEstablished, hs, hu, PyError.caught]
    · have hb : (updateEstablished P now e d j next).1.established.get? c = _ :=
        (beside_updateEstablished hj d next).established
      rcases hu : updateEstablished P now e d j next with ⟨d', x | next'⟩ <;> rw [hu] at hb
      · exact ⟨x, rfl⟩
      · exact ih ((List.mem_cons.mp hmem).resolve_left hj) (hb.trans hs) next'

theorem calm_crank (hR : R) (h : Kept (Calm P now R) (fun _ => True) d) :
    Kept (Calm P now R) (fun _ => True) (d.crank P now e).1 := by
  have h1 := sweep_keeps (Q := Kept (Calm P now R) fun _ => True)
    (fun d c next h => calm_updateEstablished hP h c next (e := e)) d.established.keys ⊤ h
  unfold crank
  split
  · rename_i hd
    rwa [hd] at h1
  · rename_i d₁ next₁ hd₁
    rw [hd₁] at h1
    have h2 := sweep_keeps (Q := Kept (Calm P now R) fun _ => True)
      (fun d c next h => calm_updateResponder hP h c next (e := e)) d₁.responderSessions.keys next₁ h1
    split
    · rename_i hd
      rwa [hd] at h2
    · rename_i d₂ next₂ hd₂
      rw [hd₂] at h2
      exact sweep_keeps (Q := Kept (Calm P now R) fun _ => True)
        (fun d c next h => calm_updateForks hP hR h c next) _ _ h2

/-- A crank that an overflow ends has not reached the forks. -/
theorem calm_crank_overflows (hs : d.established.get? c = some s) (ho : s.Overflows)
    (h : Kept (Calm P now R) (fun _ => True) d) :
    Kept (Calm P now R) (fun _ => True) (d.crank P now e).1 := by
  have h1 := sweep_keeps (Q := Kept (Calm P now R) fun _ => True)
    (fun d c next h => calm_updateEstablished hP h c next (e := e)) d.established.keys ⊤ h
  obtain ⟨x, hx⟩ : ∃ x, (sweep (updateEstablished P now e) d d.established.keys ⊤).2 = .error x :=
    sweep_overflows d.established.keys (Dict.mem_keys_iff.mpr ⟨s, hs⟩) hs
      (h.established _ _ hs).1.1 ho ⊤
  unfold crank
  rcases hd : sweep (updateEstablished P now e) d d.established.keys ⊤ with ⟨d', y | next⟩ <;>
    rw [hd] at hx h1
  · exact h1
  · cases hx

end

/-- The calls that leave output in a session: a PDU that an established session strands,
and a crank that reaches a fork which is due. -/
def Strands [DecidableEq β] (P : Primitives β π) (d : Dispatcher β π) : Op β π → Prop
  | .postPdu der _ _ => ∃ msg s, P.load der = .ok msg ∧ d.established.get? msg.cid = some s ∧
      s.Strands P der msg.payload
  | .update now _ => (∀ c s, d.established.get? c = some s → ¬ s.Overflows) ∧
      ∃ c forks fork, d.initiatorForks.get? c = some forks ∧ fork ∈ forks ∧ fork.Resends now ∧
        (CandidateStore.survivors now (d.candidates.candidatesFor c) ≠ [] ∨
          d.established.get? c ≠ none)
  | _ => False

section
variable [DecidableEq β] [DecidableEq π] (hP : P.Correct) {d d' : Dispatcher β π} {now : Int}
  {e : Entropy β}
include hP

theorem emptied_update (hT : Kept (Heard P) (fun _ => True) d) (h : Kept Emptied (fun _ => True) d)
    (hn : ¬ d.Strands P (.update now e)) : Kept Emptied (fun _ => True) (d.update P now e).1 := by
  have hcalm : Kept (Calm P now (∀ c s, d.established.get? c = some s → ¬ s.Overflows))
      (fun _ => True)
      ({ d with candidates := d.candidates.expire now } : Dispatcher β π).reconcileExpiredCandidates := by
    have hJ : Kept (fun c t s => Heard P c t s ∧ s.Still) (fun _ => True) d :=
      kept_of_holds (fun _ _ _ hs => ⟨hT.holds hs, h.holds hs⟩) fun _ _ => trivial
    have hJ := (hJ.withCandidates (d.candidates.expire now)).reconcile
    refine kept_of_holds (fun c t s hs => ⟨(hJ.holds hs).1, (hJ.holds hs).2, ?_⟩) fun _ _ => trivial
    rintro hR rfl hdue
    obtain ⟨forks, hf, hmem⟩ := hs
    rw [(reconciled _ c).fork, CandidateStore.candidatesFor_expire] at hf
    split at hf
    · cases hf
    · rename_i hkeep
      refine hn ⟨hR, c, forks, s, hf, hmem, hdue, ?_⟩
      by_cases hc : CandidateStore.survivors now (d.candidates.candidatesFor c) = []
      · exact .inr fun he => hkeep ⟨hc, he⟩
      · exact .inl hc
  have hcrank : Kept Emptied (fun _ => True)
      (crank P ({ d with candidates := d.candidates.expire now } : Dispatcher β π).reconcileExpiredCandidates
        now e).1 := by
    by_cases hR : ∀ c s, d.established.get? c = some s → ¬ s.Overflows
    · exact (calm_crank hP hR hcalm).mono (fun _ _ _ h => h.2.1) fun _ => id
    · obtain ⟨c, s, hs, ho⟩ : ∃ c s, d.established.get? c = some s ∧ s.Overflows := by
        simpa only [not_forall, not_not, exists_prop] using hR
      rw [← (reconciled { d with candidates := d.candidates.expire now } c).established] at hs
      exact (calm_crank_overflows hP hs ho hcalm).mono (fun _ _ _ h => h.2.1) fun _ => id
  unfold update
  simp only
  split
  · rename_i hd
    rwa [hd] at hcrank
  · rename_i hd
    rwa [hd] at hcrank

theorem emptied_step {op : Op β π} (hT : Kept (Heard P) (fun _ => True) d)
    (h : Kept Emptied (fun _ => True) d) (hn : ¬ d.Strands P op) :
    Kept Emptied (fun _ => True) (d.step P op) := by
  cases op with
  | initiate own peer now e =>
    refine kept_initiate h fun primary c hp _ => ⟨?_, fun _ _ => trivial⟩
    obtain ⟨_, _, _, _, _, rfl⟩ := Session.initiate_ok hp
    exact ⟨rfl, rfl⟩
  | postPdu der now e =>
    cases hl : P.load der with
    | error x =>
      simp only [step, postPdu, hl]
      exact h
    | ok msg =>
      exact emptied_postPdu hP hl h hT (fun s hs hst => hn ⟨msg, s, hl, hs, hst⟩) now e
  | postPayload c payload =>
    refine kept_postPayload h fun t s hs => ?_
    rw [Session.postPayload_eq]
    exact hs
  | getPdu => exact kept_getPdu h
  | getPayload => exact kept_getPayload h
  | close c => exact kept_close h c
  | update now e => exact emptied_update hP hT h hn

theorem emptied_run (hrun : Run P (fun d op => ¬ d.Strands P op) d d')
    (hT : Kept (Heard P) (fun _ => True) d) (h : Kept Emptied (fun _ => True) d) :
    Kept (Heard P) (fun _ => True) d' ∧ Kept Emptied (fun _ => True) d' := by
  induction hrun with
  | refl => exact ⟨hT, h⟩
  | step _ hn ih =>
    exact ⟨(heard_stable hP fun _ _ => True).step hP.encrypt_ne_nil trivial ih.1,
      emptied_step hP ih.1 ih.2 hn⟩

/-- In runs without calls of the kind `Strands` no session ever keeps output. -/
theorem no_output_stranded {keys : KeyLookup β} {config : SessionConfig}
    {limits : CandidateLimits}
    (hrun : Run P (fun d op => ¬ d.Strands P op) (new keys config limits) d) {c : List β} {t : Slot}
    {s : Session β π} (hs : d.Holds c t s) : s.outgoingPdus = [] ∧ s.outgoingPayloads = [] :=
  (emptied_run hP hrun (kept_new ..) (kept_new ..)).2.holds hs

end

/-! ## Alice's fork, before and after its first timeout -/

def aliceForked : Dispatcher Sym Pdu := (aliceCalling.postPdu ideal bobResponse 1 (draw 2)).1

def aliceFork : Session Sym Pdu :=
  ((aliceForked.initiatorForks.get? (draw 0).uuid).get (by decide +kernel)).head (by decide +kernel)

theorem aliceFork_holds : aliceForked.Holds (draw 0).uuid .fork aliceFork :=
  ⟨_, (Option.some_get _).symm, List.head_mem _⟩

theorem no_output_stranded_example : aliceFork.outgoingPdus = [] ∧ aliceFork.outgoingPayloads = [] :=
  have hcall : Run ideal (fun d op => ¬ d.Strands ideal op) (new (staticLookup 0) {} {}) aliceCalling :=
    @Run.step _ _ _ _ _ _ _ _ (.initiate (staticId 0) (staticId 1) 0 (draw 0)) .refl id
  have hforked : Run ideal (fun d op => ¬ d.Strands ideal op) (new (staticLookup 0) {} {}) aliceForked :=
    @Run.step _ _ _ _ _ _ _ _ (.postPdu bobResponse 1 (draw 2)) hcall
      (by rintro ⟨_, _, _, hs, _⟩; cases hs)
  no_output_stranded Ideal.ideal_correct hforked aliceFork_holds

/-- Its request for completion is resent to its own queue, and stays there. -/
theorem resend_stranded :
    Run ideal (fun _ _ => True) (new (staticLookup 0) {} {})
      (aliceForked.step ideal (.update 6 (draw 3))) ∧
    (aliceForked.update ideal 6 (draw 3)).2.isOk ∧
    ∃ s, (aliceForked.step ideal (.update 6 (draw 3))).Holds (draw 0).uuid .fork s ∧
      s.outgoingPdus ≠ [] := by
  refine ⟨?_, by decide +kernel, ?_⟩
  · have hcall : Run ideal (fun _ _ => True) (new (staticLookup 0) {} {}) aliceCalling :=
      @Run.step _ _ _ _ _ _ _ _ (.initiate (staticId 0) (staticId 1) 0 (draw 0)) .refl trivial
    have hforked : Run ideal (fun _ _ => True) (new (staticLookup 0) {} {}) aliceForked :=
      @Run.step _ _ _ _ _ _ _ _ (.postPdu bobResponse 1 (draw 2)) hcall trivial
    exact @Run.step _ _ _ _ _ _ _ _ (.update 6 (draw 3)) hforked trivial
  · have h : ((aliceForked.step ideal (.update 6 (draw 3))).initiatorForks.get? (draw 0).uuid).map
        (fun forks => forks.map fun s => s.outgoingPdus.isEmpty) = some [false] := by decide +kernel
    generalize aliceForked.step ideal (.update 6 (draw 3)) = d at h
    obtain ⟨forks, hf, hmap⟩ := Option.map_eq_some_iff.mp h
    obtain ⟨s, rfl, hs⟩ : ∃ s, forks = [s] ∧ s.outgoingPdus.isEmpty = false := by
      simpa [List.map_eq_singleton_iff] using hmap
    exact ⟨s, ⟨_, hf, List.mem_singleton_self s⟩, by simpa using hs⟩

end Dispatcher

end KemMake
