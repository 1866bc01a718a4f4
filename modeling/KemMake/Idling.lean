import KemMake.Crank
import KemMake.Exchange
import KemMake.Flooded
import KemMake.Lifetimes
import Mathlib.Data.Int.ConditionallyCompleteOrder
import Mathlib.Order.ConditionallyCompleteLattice.Basic

/-!
# Between two cranks

A crank returns the earliest deadline of all sessions. Every pending session it leaves waits
until then at least, and no established session has anything to do. So a crank before that
time touches no session and puts nothing out: it only sweeps out what has expired in the store.
-/

namespace KemMake

@[simp] theorem nextUpdateResult_snd (pollPayload pollPdu : Bool) (next : WithTop Int) :
    (nextUpdateResult pollPayload pollPdu next).2 = next := by
  unfold nextUpdateResult
  split
  · rfl
  · split <;> rfl

namespace Session
variable {β π : Type}

/-- A pending session whose clock has nothing to do before `next`. -/
structure Waits (next : WithTop Int) (s : Session β π) : Prop where
  queue : s.incomingQueue = []
  state : s.state ≠ .established ∧ s.state ≠ .dropped
  deadline : ∀ t, s.deadline = some t → next ≤ (t : WithTop Int)

variable {s : Session β π} {next next' : WithTop Int} {now : Int}

theorem Waits.mono (h : s.Waits next) (hle : next' ≤ next) : s.Waits next' :=
  ⟨h.queue, h.state, fun t ht => hle.trans (h.deadline t ht)⟩

/-- No deadline is missed by a session that has just looked at the clock. -/
theorem checkDeadline_waits (hq : s.incomingQueue = []) (hs : s.state ≠ .established)
    (hd : (s.checkDeadline now).state ≠ .dropped) :
    (s.checkDeadline now).Waits ((s.checkDeadline now).updateResult now).2 := by
  have hframe := (checkDeadline_ticked s now).frame
  refine ⟨hframe.2.trans hq, ⟨?_, hd⟩, fun t ht => ?_⟩
  · obtain hk | ⟨hk, -⟩ := hframe.1
    · exact hk ▸ hs
    · simp [hk]
  · unfold updateResult
    rw [if_neg hd, nextUpdateResult_snd, ht]
    exact le_refl _

/-- A session looks at the clock in the initial state and once established, but has no deadline. -/
def Clocked (s : Session β π) : Prop :=
  s.state = .initial ∨ s.state = .established → s.deadline = none

theorem Took.clocked {P : Primitives β π} {s s' : Session β π} {now : Int} {e : Entropy β}
    {x : Option PyError} (ht : Took P s now e s' x) (h : s.Clocked) : s'.Clocked := by
  cases ht with
  | idle | ignored | undecoded | refused => exact h
  | resent =>
    rw [resend_eq]
    exact h
  | answered => simp [Clocked, acceptInitRequest]
  | called => simp [Clocked, acceptInitResponse]
  | completed => exact fun _ => rfl
  | confirmed | replied => exact fun _ => rfl
  | received =>
    rw [countReceived_eq]
    exact h

section
variable [DecidableEq β] [DecidableEq π] {P : Primitives β π} {e : Entropy β}

theorem Waits.update (h : s.Waits next) (hlt : (now : WithTop Int) < next) :
    s.update P now e = (s, .ok (s.updateResult now)) := by
  have hcheck : s.checkDeadline now = s := by
    unfold checkDeadline
    split
    · rfl
    · rename_i t ht
      have hle : now < t := by exact_mod_cast hlt.trans_le (h.deadline t ht)
      exact if_neg fun hdue => absurd hdue.1 (by omega)
  rw [update_pending h.queue h.state.1 h.state.2, hcheck]

theorem clocked_update (hP : P.Correct) (h : s.Clocked) (now : Int) (e : Entropy β) :
    (s.update P now e).1.Clocked := by
  refine update_preserves hP.encrypt_ne_nil (fun _ _ ht => ht.clocked) (fun s₁ s₂ x hs h => ?_)
    (fun s₁ s₂ hk h => ?_) h
  · cases hs with
    | idle | failed => exact h
    | message =>
      rw [countSent_eq]
      exact h
  · cases hk with
    | idle => exact h
    | dropped => simp [Clocked]
    | retried hne hni =>
      rw [resend_eq]
      exact fun hs => hs.elim (fun hs => absurd hs hni) fun hs => absurd hs hne

end

/-- What an update returns is read off the session it leaves. -/
theorem update_result [DecidableEq β] [DecidableEq π] {P : Primitives β π} {e : Entropy β}
    {r : UpdateResult × WithTop Int} (h : (s.update P now e).2 = .ok r) :
    r = (s.update P now e).1.updateResult now := by
  unfold update at h ⊢
  split
  · rename_i hd
    rw [if_pos hd] at h
    cases h
    simp only [updateResult, hd, ↓reduceIte]
  · rename_i hd
    rw [if_neg hd] at h
    rcases htake : s.takeIncoming P now e with ⟨s₁, _ | x⟩ <;> simp only [htake] at h ⊢
    · rcases hsend : s₁.sendPending P with ⟨s₂, _ | x⟩ <;> simp only [hsend] at h ⊢
      · split at h
        · rename_i hd₂
          rw [if_pos hd₂]
          cases h
          simp only [updateResult, hd₂, ↓reduceIte]
        · rename_i hd₂
          rw [if_neg hd₂]
          cases h
          rfl
      · cases h
    · cases h

/-- The next deadline is in the future. -/
theorem updateResult_later (h : s.deadline = none) (hr : 0 < s.config.retryIntervalSeconds) :
    (now : WithTop Int) < (s.updateResult now).2 := by
  have hlater : now < now + s.config.retryIntervalSeconds := by omega
  unfold updateResult
  split
  · exact WithTop.coe_lt_top now
  · rw [nextUpdateResult_snd, h]
    exact_mod_cast hlater

theorem checkDeadline_later (h : s.Clocked) (hr : 0 < s.config.retryIntervalSeconds) :
    (now : WithTop Int) < ((s.checkDeadline now).updateResult now).2 := by
  have hlater : (now : WithTop Int) < ((now + s.config.retryIntervalSeconds : Int) : WithTop Int) := by
    exact_mod_cast (by omega : now < now + s.config.retryIntervalSeconds)
  unfold updateResult
  split
  · exact WithTop.coe_lt_top now
  · rename_i hd
    rw [nextUpdateResult_snd]
    revert hd
    unfold checkDeadline
    split
    · rename_i hnone
      rw [hnone]
      exact fun _ => hlater
    · rename_i t ht
      split
      · unfold onTimeout
        split
        · simp
        · split
          · simp
          · rw [resend_eq]
            exact fun _ => hlater
      · rename_i hno
        intro _
        have hne : s.state ≠ .established ∧ s.state ≠ .initial := by
          constructor
          · exact fun hs => by simp [h (.inr hs)] at ht
          · exact fun hi => by simp [h (.inl hi)] at ht
        rw [ht]
        simp only [Option.getD_some]
        exact_mod_cast (by grind : now < t)

end Session

namespace Dispatcher
open CandidateStore
variable {β π : Type} [DecidableEq β]

/-- No session has anything to do before `next`. -/
structure Idle (next : WithTop Int) (d : Dispatcher β π) : Prop where
  established : ∀ c s, d.established.get? c = some s →
    s.Steady ∧ s.Still ∧ s.pendingPayload = none
  responder : ∀ c s, d.responderSessions.get? c = some s → s.Waits next ∧ s.Still
  fork : ∀ c forks, d.initiatorForks.get? c = some forks →
    forks ≠ [] ∧ ∀ fork ∈ forks, fork.Waits next

variable {d d' : Dispatcher β π} {s : Session β π} {c : List β} {now : Int} {next : WithTop Int}

theorem Idle.expired (h : d.Idle next) (now : Int) :
    ({ d with candidates := d.candidates.expire now }.reconcileExpiredCandidates).Idle next := by
  have hrec := reconciled { d with candidates := d.candidates.expire now }
  constructor
  · intro c s hs
    rw [(hrec c).established] at hs
    exact h.established c s hs
  · intro c s hs
    rw [(hrec c).responder] at hs
    split at hs
    · cases hs
    · exact h.responder c s hs
  · intro c forks hf
    rw [(hrec c).fork] at hf
    split at hf
    · cases hf
    · exact h.fork c forks hf

section
variable [DecidableEq π] {P : Primitives β π} {e : Entropy β}

/-! ## A crank that comes early -/

theorem updateResponder_idle (h : d.Idle next) (hlt : (now : WithTop Int) < next) (c : List β)
    (next₁ : WithTop Int) : ∃ next₂, updateResponder P now e d c next₁ = (d, .ok next₂) := by
  unfold updateResponder
  split
  · exact ⟨_, rfl⟩
  · rename_i s hs
    obtain ⟨hw, hstill⟩ := h.responder c s hs
    have hset : d.responderSessions.set c { s with outgoingPdus := [], outgoingPayloads := [] } =
        d.responderSessions := by
      rw [show { s with outgoingPdus := [], outgoingPayloads := [] } = s from hstill.drained_eq]
      exact Dict.set_get? hs
    simp only [hw.update hlt, drain, hstill.1, hstill.2, hw.state.1, hw.state.2, List.map_nil,
      List.append_nil, hset, ↓reduceIte]
    exact ⟨_, rfl⟩

theorem crankForks_idle {forks : List (Session β π)} (h : ∀ fork ∈ forks, fork.Waits next)
    (hlt : (now : WithTop Int) < next) (next₁ : WithTop Int) :
    ∃ next₂, crankForks P now e forks next₁ = (forks, forks, .open, next₂) := by
  induction forks generalizing next₁ with
  | nil => exact ⟨next₁, rfl⟩
  | cons fork rest ih =>
    obtain ⟨hw, hrest⟩ := List.forall_mem_cons.mp h
    obtain ⟨next₂, hcrank⟩ := ih hrest (min next₁ (fork.updateResult now).2)
    refine ⟨next₂, ?_⟩
    unfold crankForks
    simp only [hw.update hlt, hw.state.1, hw.state.2, hcrank, ↓reduceIte]

theorem updateForks_idle (h : d.Idle next) (hlt : (now : WithTop Int) < next) (c : List β)
    (next₁ : WithTop Int) : ∃ next₂, updateForks P now e d c next₁ = (d, .ok next₂) := by
  unfold updateForks
  split
  · exact ⟨_, rfl⟩
  · rename_i forks hf
    obtain ⟨hne, hw⟩ := h.fork c forks hf
    obtain ⟨next₂, hcrank⟩ := crankForks_idle (P := P) (e := e) hw hlt next₁
    rw [hcrank]
    cases forks with
    | nil => exact absurd rfl hne
    | cons fork rest =>
      simp only [Dict.set_get? hf]
      exact ⟨_, rfl⟩

omit [DecidableEq π] [DecidableEq β] in
/-- A sweep of steps that do nothing. -/
theorem sweep_idle (step : Dispatcher β π → List β → WithTop Int →
      Dispatcher β π × Except PyError (WithTop Int)) (cids : List (List β))
    (h : ∀ c ∈ cids, ∀ next₁, ∃ next₂, step d c next₁ = (d, .ok next₂)) (next₁ : WithTop Int) :
    ∃ next₂, sweep step d cids next₁ = (d, .ok next₂) := by
  induction cids generalizing next₁ with
  | nil => exact ⟨next₁, rfl⟩
  | cons c rest ih =>
    obtain ⟨hc, hrest⟩ := List.forall_mem_cons.mp h
    obtain ⟨next₂, hstep⟩ := hc next₁
    rw [sweep, hstep]
    exact ih hrest next₂

theorem Idle.crank (h : d.Idle next) (hlt : (now : WithTop Int) < next) (e : Entropy β) :
    ∃ next₁, d.crank P now e = (d, .ok next₁) := by
  obtain ⟨next₁, h₁⟩ := sweep_idle (updateEstablished P now e) d.established.keys
    (fun c hc next₀ => by
      obtain ⟨s, hs⟩ := Dict.mem_keys_iff.mp hc
      obtain ⟨hsteady, hstill, hp⟩ := h.established c s hs
      exact updateEstablished_idle hs hsteady hstill hp now e next₀) ⊤
  obtain ⟨next₂, h₂⟩ := sweep_idle (updateResponder P now e) d.responderSessions.keys
    (fun c _ next₀ => updateResponder_idle h hlt c next₀) next₁
  obtain ⟨next₃, h₃⟩ := sweep_idle (updateForks P now e) d.initiatorForks.keys
    (fun c _ next₀ => updateForks_idle h hlt c next₀) next₂
  unfold Dispatcher.crank
  simp only [h₁, h₂, h₃]
  exact ⟨_, rfl⟩

/-- An early crank sweeps the store, and that is all. -/
theorem Idle.update (h : d.Idle next) (hlt : (now : WithTop Int) < next) (e : Entropy β) :
    ∃ next₁, d.update P now e =
      ({ d with candidates := d.candidates.expire now }.reconcileExpiredCandidates,
        .ok (nextUpdateResult d.pollPayload d.pollPdu next₁)) := by
  obtain ⟨next₁, hcrank⟩ := (h.expired now).crank (P := P) hlt e
  have hrec := reconciled { d with candidates := d.candidates.expire now } []
  unfold Dispatcher.update
  simp only [hcrank, pollPayload, pollPdu, hrec.pdus, hrec.payloads]
  exact ⟨_, rfl⟩

/-! ## What a crank leaves -/

/-- The session looks at the clock as it should, by the settings of the dispatcher. -/
def Punctual (P : Primitives β π) (config : SessionConfig) (c : List β) (t : Slot)
    (s : Session β π) : Prop := Tidy P c t s ∧ s.Clocked ∧ s.config = config

variable {config : SessionConfig} {t : Slot}

omit [DecidableEq β] [DecidableEq π] in
theorem punctual_handled : Handled (Punctual P config) (fun _ : π => True) where
  sent _ _ _ _ _ _ := trivial
  drained _ _ _ h := ⟨tidy_handled.drained _ _ _ h.1, h.2⟩
  establish _ _ _ h hs := ⟨tidy_handled.establish _ _ _ h.1 hs, h.2⟩

/-- No call changes the settings. -/
theorem step_settings (P : Primitives β π) (d : Dispatcher β π) (op : Op β π) :
    (d.step P op).keys = d.keys ∧ (d.step P op).config = d.config := by
  cases op with
  | initiate own peer now e =>
    have h := touches_initiate (P := P) (O := fun _ => True) now d own peer e fun _ _ _ _ => trivial
    exact ⟨h.keys, h.config⟩
  | postPdu der now e =>
    cases hl : P.load der with
    | error x =>
      simp only [step, postPdu, hl, and_self]
    | ok msg =>
      have h : Touches msg.cid now (fun _ => True) d (d.postPdu P der now e).1 :=
        touches_postPdu hl d fun _ _ _ _ => trivial
      exact ⟨h.keys, h.config⟩
  | postPayload c payload =>
    have h := touches_postPayload (O := fun _ => True) 0 d c payload
    exact ⟨h.keys, h.config⟩
  | getPdu =>
    exact ⟨(beside_getPdu (c := []) 0 d).keys, (beside_getPdu (c := []) 0 d).config⟩
  | getPayload =>
    exact ⟨(beside_getPayload (c := []) 0 d).keys, (beside_getPayload (c := []) 0 d).config⟩
  | close c => exact ⟨rfl, rfl⟩
  | update now e =>
    have hrec := reconciled { d with candidates := d.candidates.expire now } []
    simp only [step]
    rw [update_fst]
    apply crank_keeps (Q := fun d' => d'.keys = d.keys ∧ d'.config = d.config)
    · intro d' c next h
      have ht : Touches c now (fun _ => True) d' (updateEstablished P now e d' c next).1 :=
        touches_updateEstablished d' c next fun _ _ _ _ => trivial
      exact ⟨ht.keys.trans h.1, ht.config.trans h.2⟩
    · intro d' c next h
      have ht : Touches c now (fun _ => True) d' (updateResponder P now e d' c next).1 :=
        touches_updateResponder d' c next fun _ _ _ _ => trivial
      exact ⟨ht.keys.trans h.1, ht.config.trans h.2⟩
    · intro d' c next h
      have ht : Touches c now (fun _ => True) d' (updateForks P now e d' c next).1 :=
        touches_updateForks d' c next fun _ _ _ _ => trivial
      exact ⟨ht.keys.trans h.1, ht.config.trans h.2⟩
    · exact ⟨hrec.keys, hrec.config⟩

section
variable (hP : P.Correct)
include hP

theorem punctual_left {u : Session β π} (hu : u.Clocked ∧ u.config = config)
    (h : Left (Tidy P) c t (u.update P now e)) :
    Left (Punctual P config) c t (u.update P now e) := by
  have hid := Session.update_identity hP.encrypt_ne_nil u now e
  simp only [Session.identity, Prod.mk.injEq] at hid
  have hkeep : (u.update P now e).1.Clocked ∧ (u.update P now e).1.config = config :=
    ⟨Session.clocked_update hP hu.1 now e, hid.2.2.2.trans hu.2⟩
  exact h.imp (fun hT => ⟨hT, hkeep⟩) fun hT => ⟨hT.1, hT.2, hkeep⟩

theorem punctual_update (h : Punctual P config c t s) (ht : t ≠ .template) :
    Left (Punctual P config) c t (s.update P now e) :=
  punctual_left hP h.2 (tidy_update hP h.1 ht)

theorem punctual_serves (hconfig : d.config = config) (der : π) (now : Int) (e : Entropy β) :
    Serves P d der now e (Punctual P config) (Punctual P config) where
  deliver _ _ _ hl ht h := punctual_left hP h.2 (tidy_deliver hP hl h.1 ht)
  call _ _ s hl hp h :=
    (punctual_left hP (u := s.postPdu der) h.2 (tidy_deliver hP hl h.1 (by simp))).of_state
      (not_established hP hl h.1 (by simp [hp, MakePayload.name]))
  fork _ s twin _ h hf := by
    have hT := h.1.fork hf
    obtain ⟨_, _, _, rfl⟩ := Session.fork_ok.mp hf
    exact ⟨hT, by simp [Session.Clocked, Session.twin], h.2.2⟩
  opened _ _ _ hl _ _ _ _ _ := by
    have hnew : ((Session.new .responder none d.keys d.config).postPdu der).Clocked :=
      fun _ => rfl
    exact (punctual_left hP ⟨hnew, hconfig⟩ (.inl (tidy_opened hP hl now e))).of_state
      (tidy_opened hP hl now e).1.2.2.1

theorem punctual_stable : Stable P (fun d _ => d.config = config) (Punctual P config) where
  handled := punctual_handled
  initiate _ _ _ _ _ _ _ hconfig hp hc := by
    have hT := tidy_initiate hp hc
    obtain ⟨_, _, _, _, _, rfl⟩ := Session.initiate_ok hp
    exact ⟨hT, by simp [Session.Clocked, Session.calling], hconfig⟩
  serves _ der now e hconfig := punctual_serves hP hconfig der now e
  postPayload _ _ _ payload h := by
    have hT := h.1.postPayload payload
    rw [Session.postPayload_eq] at hT ⊢
    exact ⟨hT, h.2⟩
  update _ _ _ _ _ ht h := punctual_update hP h ht

theorem punctual_run {ok : Dispatcher β π → Op β π → Prop} (hrun : Run P ok d d')
    (hconfig : d.config = config) (h : Kept (Punctual P config) (fun _ => True) d) :
    d'.config = config ∧ Kept (Punctual P config) (fun _ => True) d' := by
  induction hrun with
  | refl => exact ⟨hconfig, h⟩
  | step _ _ ih =>
    exact ⟨(step_settings P _ _).2.trans ih.1, (punctual_stable hP).step hP.encrypt_ne_nil ih.1 ih.2⟩

end

/-- An established session that does not end the crank has nothing left to send. -/
theorem update_rests (h : Tidy P c .established s)
    (hno : ∀ x, (s.update P now e).2 = .error x → x.caught = true) :
    (∃ r, (s.update P now e).2 = .ok r) ∧ (s.update P now e).1.pendingPayload = none := by
  have hsteady : s.Steady := ⟨h.1.2.1, h.2.resolve_right (by simp [h.1.2.1])⟩
  cases hp : s.pendingPayload with
  | none =>
    rw [hsteady.update_idle hp now e]
    exact ⟨⟨_, rfl⟩, hp⟩
  | some payload =>
    by_cases hk : s.sendCount < seqLimit
    · obtain ⟨s', _, r, hu, _, hp', _⟩ := hsteady.update_sends h.1.1 hk hp now e
      rw [hu]
      exact ⟨⟨r, rfl⟩, hp'⟩
    · have hover : s.Overflows :=
        (Session.overflows_iff h.1.1 h.1.2.1).mpr ⟨by simp [hp], by omega⟩
      cases hno _ (update_overflows h hover now e)

/-- A pending session waits for its next deadline, unless it has been dropped. -/
theorem Punctual.pending (h : Punctual P config c t s) (hs : s.state ≠ .established) (now : Int)
    (e : Entropy β) : ∃ s' r deadline, s.update P now e = (s', .ok (r, deadline)) ∧
      s'.state ≠ .established ∧ (s'.state ≠ .dropped → s'.Waits deadline) ∧
      (0 < config.retryIntervalSeconds → (now : WithTop Int) < deadline) := by
  by_cases hd : s.state = .dropped
  · rw [Session.update_dropped hd]
    exact ⟨s, _, _, rfl, hs, fun hnd => absurd hd hnd, fun _ => WithTop.coe_lt_top now⟩
  · have hq := h.1.2.resolve_right hd
    have hkept : (s.checkDeadline now).state ≠ .established := by
      obtain hk | ⟨hk, -⟩ := (Session.checkDeadline_ticked s now).frame.1
      · exact hk ▸ hs
      · simp [hk]
    rw [Session.update_pending hq hs hd]
    refine ⟨_, _, _, rfl, hkept, fun hnd => Session.checkDeadline_waits hq hs hnd, fun hr => ?_⟩
    exact Session.checkDeadline_later h.2.1 (h.2.2 ▸ hr)

/-- The deadlines that a step of a sweep has taken in. -/
structure Scheduled (config : SessionConfig) (now : Int) (next next' : WithTop Int) : Prop where
  earlier : next' ≤ next
  later : 0 < config.retryIntervalSeconds → (now : WithTop Int) < next → (now : WithTop Int) < next'

omit [DecidableEq β] [DecidableEq π] in
theorem scheduled_refl (config : SessionConfig) (now : Int) (next : WithTop Int) :
    Scheduled config now next next := ⟨le_refl next, fun _ => id⟩

theorem Scheduled.trans {next' next'' : WithTop Int} (h : Scheduled config now next next')
    (h' : Scheduled config now next' next'') : Scheduled config now next next'' :=
  ⟨h'.earlier.trans h.earlier, fun hr hn => h'.later hr (h.later hr hn)⟩

theorem scheduled_min {deadline : WithTop Int}
    (h : 0 < config.retryIntervalSeconds → (now : WithTop Int) < deadline) (next : WithTop Int) :
    Scheduled config now next (min next deadline) :=
  ⟨min_le_left _ _, fun hr hn => lt_min hn (h hr)⟩

section
variable (hP : P.Correct)
include hP

theorem updateEstablished_rests (hT : Kept (Punctual P config) (fun _ => True) d) {next' : WithTop Int}
    (hok : (updateEstablished P now e d c next).2 = .ok next') :
    Scheduled config now next next' ∧
      ∀ s, (updateEstablished P now e d c next).1.established.get? c = some s →
        s.Steady ∧ s.Still ∧ s.pendingPayload = none := by
  unfold updateEstablished at hok ⊢
  cases hs : d.established.get? c with
  | none =>
    simp only [hs] at hok ⊢
    cases hok
    exact ⟨scheduled_refl config now next, fun s hs' => by cases hs'⟩
  | some s =>
    have h := hT.established c s hs
    have hleft : Punctual P config c .established (s.update P now e).1 :=
      (punctual_update hP h (by simp)).established
    have hno : ∀ x, (s.update P now e).2 = .error x → x.caught = true := by
      intro x hx
      rcases hu : s.update P now e with ⟨s', r⟩
      rw [hu] at hx
      cases hx
      by_contra hcaught
      simp [hs, hu, hcaught] at hok
    obtain ⟨⟨r, hr⟩, hp⟩ := update_rests h.1 hno
    have hresult := Session.update_result hr
    rcases hu : s.update P now e with ⟨s', r'⟩
    rw [hu] at hr hleft hp hresult
    cases hr
    simp only [hs, hu] at hok ⊢
    cases hok
    obtain ⟨⟨⟨_, hstate, _⟩, hq⟩, hclocked, hconfig⟩ : Punctual P config c .established s' := hleft
    constructor
    · apply scheduled_min
      intro hpos
      rw [hresult]
      exact Session.updateResult_later (hclocked (.inr hstate)) (hconfig ▸ hpos)
    · intro s₁ hs₁
      rw [Dict.get?_set_self] at hs₁
      cases hs₁
      exact ⟨⟨hstate, hq.resolve_right (by simp [hstate])⟩, Session.still_drained s', hp⟩

end

theorem updateResponder_rests (hT : Kept (Punctual P config) (fun _ => True) d) {next' : WithTop Int}
    (hok : (updateResponder P now e d c next).2 = .ok next') :
    Scheduled config now next next' ∧
      ∀ s, (updateResponder P now e d c next).1.responderSessions.get? c = some s →
        s.Waits next' ∧ s.Still := by
  unfold updateResponder at hok ⊢
  cases hs : d.responderSessions.get? c with
  | none =>
    simp only [hs] at hok ⊢
    cases hok
    exact ⟨scheduled_refl config now next, fun s hs' => by cases hs'⟩
  | some s =>
    have h := hT.responder c s hs
    obtain ⟨s', r, deadline, hu, hne, hwaits, hlater⟩ := h.pending h.1.1.2.2.1 now e
    have hne' : (d.drain s' c).2.state ≠ .established := hne
    simp only [hs, hu, hne', ↓reduceIte] at hok ⊢
    split at hok
    · rename_i hd
      rw [if_pos hd]
      cases hok
      exact ⟨scheduled_min hlater next, fun s₁ hs₁ => by simp [dropResponder] at hs₁⟩
    · rename_i hd
      rw [if_neg hd]
      cases hok
      refine ⟨scheduled_min hlater next, fun s₁ hs₁ => ?_⟩
      simp only [Dict.get?_set_self, Option.some.injEq] at hs₁
      subst hs₁
      have hw := (hwaits hd).mono (min_le_right next deadline)
      exact ⟨⟨hw.queue, hw.state, hw.deadline⟩, Session.still_drained s'⟩

theorem crankForks_rests {forks : List (Session β π)}
    (hf : ∀ s ∈ forks, Punctual P config c .fork s) (now : Int) (e : Entropy β)
    (next : WithTop Int) :
    ∃ forks' surviving next', crankForks P now e forks next = (forks', surviving, .open, next') ∧
      Scheduled config now next next' ∧ ∀ fork ∈ surviving, fork.Waits next' := by
  induction forks generalizing next with
  | nil => exact ⟨[], [], next, rfl, scheduled_refl config now next, by simp⟩
  | cons fork rest ih =>
    obtain ⟨hfork, hrest⟩ := List.forall_mem_cons.mp hf
    obtain ⟨fork', r, deadline, hu, hne, hwaits, hlater⟩ :=
      hfork.pending hfork.1.1.not_established now e
    obtain ⟨rest', surviving, next', hcrank, hnext, hw⟩ := ih hrest (min next deadline)
    have hle := (scheduled_min hlater next).trans hnext
    unfold crankForks
    simp only [hu, hne, hcrank, ↓reduceIte]
    refine ⟨_, _, _, rfl, hle, ?_⟩
    split
    · exact hw
    · rename_i hd
      exact List.forall_mem_cons.mpr
        ⟨(hwaits hd).mono (hnext.earlier.trans (min_le_right next deadline)), hw⟩

theorem updateForks_rests (hT : Kept (Punctual P config) (fun _ => True) d) {next' : WithTop Int}
    (hok : (updateForks P now e d c next).2 = .ok next') :
    Scheduled config now next next' ∧
      ∀ forks, (updateForks P now e d c next).1.initiatorForks.get? c = some forks →
        forks ≠ [] ∧ ∀ fork ∈ forks, fork.Waits next' := by
  unfold updateForks at hok ⊢
  cases hf : d.initiatorForks.get? c with
  | none =>
    simp only [hf] at hok ⊢
    cases hok
    exact ⟨scheduled_refl config now next, fun _ hf' => by cases hf'⟩
  | some forks =>
    obtain ⟨forks', surviving, next₁, hcrank, hnext, hw⟩ :=
      crankForks_rests (hT.fork c forks hf) now e next
    simp only [hf, hcrank] at hok ⊢
    cases surviving with
    | nil =>
      cases hok
      exact ⟨hnext, fun forks hf' => by simp at hf'⟩
    | cons fork rest =>
      cases hok
      refine ⟨hnext, fun forks hf' => ?_⟩
      simp only [Dict.get?_set_self, Option.some.injEq] at hf'
      subst hf'
      exact ⟨by simp, hw⟩

omit [DecidableEq π] in
/-- A sweep leaves each cid as its own step has left it, for the deadline of the whole sweep. -/
theorem sweep_rests {step : Dispatcher β π → List β → WithTop Int →
      Dispatcher β π × Except PyError (WithTop Int)} {Q : WithTop Int → Dispatcher β π → Prop}
    {A : List β → WithTop Int → Dispatcher β π → Prop}
    (hstep : ∀ d c next next', Q next d → (step d c next).2 = .ok next' →
      Scheduled config now next next' ∧ Q next' (step d c next).1 ∧ A c next' (step d c next).1)
    (hother : ∀ c j, c ≠ j → ∀ d next, Beside c now d (step d j next).1)
    (hbeside : ∀ c d d' next next', next' ≤ next → Beside c now d d' → A c next d → A c next' d')
    {cids : List (List β)} (h : Q next d) {next' : WithTop Int}
    (hok : (sweep step d cids next).2 = .ok next') :
    Scheduled config now next next' ∧ Q next' (sweep step d cids next).1 ∧
      ∀ c, (c ∉ cids → A c next d) → A c next' (sweep step d cids next).1 := by
  induction cids generalizing d next with
  | nil =>
    cases hok
    exact ⟨scheduled_refl config now next', h, fun c hc => hc (by simp)⟩
  | cons j rest ih =>
    unfold sweep at hok ⊢
    have hj := hstep d j next
    rcases hs : step d j next with ⟨d₁, x | next₁⟩ <;> rw [hs] at hj <;> simp only [hs] at hok ⊢
    · cases hok
    · obtain ⟨hnext₁, hQ, hA⟩ := hj next₁ h rfl
      obtain ⟨hnext', hQ', hA'⟩ := ih hQ hok
      refine ⟨hnext₁.trans hnext', hQ', fun c hc => hA' c fun hrest => ?_⟩
      by_cases heq : c = j
      · exact heq ▸ hA
      · have hb := hother c j heq d next
        rw [hs] at hb
        exact hbeside c d d₁ next next₁ hnext₁.earlier hb (hc (by simp [heq, hrest]))

/-- Without a PDU, no pending session becomes established. -/
theorem updateResponder_established (hT : Kept (Punctual P config) (fun _ => True) d)
    (c : List β) (next : WithTop Int) :
    (updateResponder P now e d c next).1.established = d.established := by
  unfold updateResponder
  split
  · rfl
  · rename_i s hs
    have h := hT.responder c s hs
    obtain ⟨s', r, deadline, hu, hne, -, -⟩ := h.pending h.1.1.2.2.1 now e
    have hne' : (d.drain s' c).2.state ≠ .established := hne
    simp only [hu, hne', ↓reduceIte]
    split <;> rfl

theorem updateForks_others (hT : Kept (Punctual P config) (fun _ => True) d) (c : List β)
    (next : WithTop Int) : (updateForks P now e d c next).1.established = d.established ∧
      (updateForks P now e d c next).1.responderSessions = d.responderSessions := by
  unfold updateForks
  split
  · exact ⟨rfl, rfl⟩
  · rename_i forks hf
    obtain ⟨forks', surviving, next', hcrank, -, -⟩ :=
      crankForks_rests (hT.fork c forks hf) now e next
    rw [hcrank]
    cases surviving <;> exact ⟨rfl, rfl⟩

/-- A crank that returns leaves all sessions idle until the deadline it returns. -/
theorem crank_rests (hP : P.Correct) (hT : Kept (Punctual P config) (fun _ => True) d)
    {next : WithTop Int} (hok : (d.crank P now e).2 = .ok next) :
    Scheduled config now ⊤ next ∧ (d.crank P now e).1.Idle next := by
  have hupdate : ∀ c t s, t ≠ .template → Punctual P config c t s →
      Left (Punctual P config) c t (s.update P now e) := fun c t s ht h => punctual_update hP h ht
  unfold crank at hok ⊢
  rcases h₁ : sweep (updateEstablished P now e) d d.established.keys ⊤ with ⟨d₁, x | next₁⟩ <;>
    simp only [h₁] at hok ⊢
  · cases hok
  obtain ⟨hnext₁, hT₁, hest⟩ := sweep_rests
    (Q := fun _ d => Kept (Punctual P config) (fun _ => True) d)
    (A := fun c _ d => ∀ s, d.established.get? c = some s →
      s.Steady ∧ s.Still ∧ s.pendingPayload = none)
    (fun d' c next₀ next' hT' hok' => by
      obtain ⟨hnext, hA⟩ := updateEstablished_rests hP hT' hok'
      exact ⟨hnext, updateEstablished_kept punctual_handled hupdate hT' c next₀, hA⟩)
    (fun c j hj d' next₀ => beside_updateEstablished hj d' next₀)
    (fun c d' d'' _ _ _ hb hA s hs => hA s (hb.established ▸ hs)) hT (congrArg Prod.snd h₁)
  rw [h₁] at hT₁ hest
  have hest₁ : ∀ c s, d₁.established.get? c = some s →
      s.Steady ∧ s.Still ∧ s.pendingPayload = none := fun c =>
    hest c fun hc s hs => absurd (Dict.mem_keys_iff.mpr ⟨s, hs⟩) hc
  rcases h₂ : sweep (updateResponder P now e) d₁ d₁.responderSessions.keys next₁ with
    ⟨d₂, x | next₂⟩ <;> simp only [h₂] at hok ⊢
  · cases hok
  obtain ⟨hnext₂, ⟨hT₂, hest₂⟩, hresp⟩ := sweep_rests
    (Q := fun _ d => Kept (Punctual P config) (fun _ => True) d ∧ d.established = d₁.established)
    (A := fun c next d => ∀ s, d.responderSessions.get? c = some s → s.Waits next ∧ s.Still)
    (fun d' c next₀ next' hQ hok' => by
      obtain ⟨hnext, hA⟩ := updateResponder_rests hQ.1 hok'
      exact ⟨hnext, ⟨updateResponder_kept punctual_handled hupdate hQ.1 c next₀,
        (updateResponder_established hQ.1 c next₀).trans hQ.2⟩, hA⟩)
    (fun c j hj d' next₀ => beside_updateResponder hj d' next₀)
    (fun c d' d'' _ _ hle hb hA s hs => by
      obtain ⟨hw, hstill⟩ := hA s (hb.responder ▸ hs)
      exact ⟨hw.mono hle, hstill⟩) ⟨hT₁, rfl⟩ (congrArg Prod.snd h₂)
  rw [h₂] at hT₂ hest₂ hresp
  have hresp₂ : ∀ c s, d₂.responderSessions.get? c = some s → s.Waits next₂ ∧ s.Still := by
    intro c
    refine hresp c fun hc s hs => absurd (Dict.mem_keys_iff.mpr ⟨s, hs⟩) hc
  obtain ⟨hnext₃, ⟨hT₃, hest₃, hresp₃⟩, hfork⟩ := sweep_rests
    (Q := fun _ d => Kept (Punctual P config) (fun _ => True) d ∧
      d.established = d₁.established ∧ d.responderSessions = d₂.responderSessions)
    (A := fun c next d => ∀ forks, d.initiatorForks.get? c = some forks →
      forks ≠ [] ∧ ∀ fork ∈ forks, fork.Waits next)
    (fun d' c next₀ next' hQ hok' => by
      obtain ⟨hnext, hA⟩ := updateForks_rests hQ.1 hok'
      obtain ⟨he, hr⟩ := updateForks_others hQ.1 c next₀
      exact ⟨hnext, ⟨updateForks_kept punctual_handled hupdate hQ.1 c next₀, he.trans hQ.2.1,
        hr.trans hQ.2.2⟩, hA⟩)
    (fun c j hj d' next₀ => beside_updateForks hj d' next₀)
    (fun c d' d'' _ _ hle hb hA forks hf => by
      obtain ⟨hne, hw⟩ := hA forks (hb.fork ▸ hf)
      exact ⟨hne, fun fork hmem => (hw fork hmem).mono hle⟩) ⟨hT₂, hest₂, rfl⟩ hok
  refine ⟨(hnext₁.trans hnext₂).trans hnext₃, ?_, ?_, ?_⟩
  · rw [hest₃]
    exact hest₁
  · rw [hresp₃]
    exact fun c s hs => ⟨(hresp₂ c s hs).1.mono hnext₃.earlier, (hresp₂ c s hs).2⟩
  · exact fun c => hfork c fun hc forks hf => absurd (Dict.mem_keys_iff.mpr ⟨forks, hf⟩) hc

omit [DecidableEq π] in
theorem Idle.mono {next' : WithTop Int} (h : d.Idle next) (hle : next' ≤ next) :
    d.Idle next' where
  established := h.established
  responder c s hs := ⟨(h.responder c s hs).1.mono hle, (h.responder c s hs).2⟩
  fork c forks hf := ⟨(h.fork c forks hf).1, fun fork hmem => ((h.fork c forks hf).2 fork hmem).mono hle⟩

/-- So does an update, which asks for the next one later than now. -/
theorem update_idle (hP : P.Correct) (hconfig : d.config = config)
    (hT : Kept (Punctual P config) (fun _ => True) d) {r : UpdateResult}
    (hok : (d.update P now e).2 = .ok (r, next)) :
    (0 < config.retryIntervalSeconds → (now : WithTop Int) < next) ∧ (d.update P now e).1.Idle next := by
  have hT₀ := (hT.withCandidates (d.candidates.expire now)).reconcile
  have hrec := reconciled { d with candidates := d.candidates.expire now } []
  have hconfig' := (step_settings P d (.update now e)).2
  simp only [step] at hconfig'
  rw [update_fst] at hconfig' ⊢
  unfold Dispatcher.update at hok
  rcases hc : ({ d with candidates := d.candidates.expire now } :
    Dispatcher β π).reconcileExpiredCandidates.crank P now e with ⟨d', x | next'⟩
  · simp only [hc] at hok
    cases hok
  · obtain ⟨hnext, hidle⟩ := crank_rests hP hT₀ (congrArg Prod.snd hc)
    rw [hc] at hidle hconfig'
    simp only [hc] at hok
    have heq := congrArg Prod.snd (Except.ok.inj hok)
    rw [nextUpdateResult_snd] at heq
    simp only at heq hidle hconfig' ⊢
    by_cases htop : next' = ⊤
    · rw [if_pos htop, hconfig', hconfig] at heq
      subst heq
      constructor
      · intro hr
        exact_mod_cast (by omega : now < now + config.retryIntervalSeconds)
      · rw [htop] at hidle
        exact hidle.mono le_top
    · rw [if_neg htop] at heq
      subst heq
      exact ⟨fun hr => hnext.later hr (WithTop.coe_lt_top now), hidle⟩

/-! ## Early cranks -/

/-- What has expired at one of the times is gone, with the sessions that had nothing else. -/
structure Faded (times : List Int) (d d' : Dispatcher β π) : Prop where
  established : d'.established = d.established
  pdus : d'.outgoingPdus = d.outgoingPdus
  payloads : d'.outgoingPayloads = d.outgoingPayloads
  candidates : ∀ c, d'.candidates.candidatesFor c =
    (d.candidates.candidatesFor c).filter fun entry => times.all fun t => !entry.isExpired t
  responder : ∀ c, d'.responderSessions.get? c =
    if d'.candidates.candidatesFor c = [] then none else d.responderSessions.get? c
  template : ∀ c, d'.initiatorTemplates.get? c =
    if d'.candidates.candidatesFor c = [] then none else d.initiatorTemplates.get? c
  fork : ∀ c, d'.initiatorForks.get? c =
    if d'.candidates.candidatesFor c = [] then none else d.initiatorForks.get? c

omit [DecidableEq π] in
theorem Faded.trans {times times' : List Int} {d₁ d₂ : Dispatcher β π} (h : Faded times d d₁)
    (h' : Faded times' d₁ d₂) : Faded (times ++ times') d d₂ := by
  have hnil : ∀ c, d₁.candidates.candidatesFor c = [] → d₂.candidates.candidatesFor c = [] := by
    intro c hc
    rw [h'.candidates, hc, List.filter_nil]
  refine ⟨h'.established.trans h.established, h'.pdus.trans h.pdus, h'.payloads.trans h.payloads,
    fun c => ?_, fun c => ?_, fun c => ?_, fun c => ?_⟩
  · rw [h'.candidates, h.candidates, List.filter_filter]
    apply List.filter_congr
    intro entry _
    rw [List.all_append, Bool.and_comm]
  · rw [h'.responder, h.responder]
    split
    · rfl
    · exact if_neg fun hc => absurd (hnil c hc) (by assumption)
  · rw [h'.template, h.template]
    split
    · rfl
    · exact if_neg fun hc => absurd (hnil c hc) (by assumption)
  · rw [h'.fork, h.fork]
    split
    · rfl
    · exact if_neg fun hc => absurd (hnil c hc) (by assumption)

omit [DecidableEq π] in
/-- A sweep of the store, and the reconciliation after it. -/
theorem faded_expired (hx : ∀ c, Exclusive d c) (now : Int) :
    Faded [now] d { d with candidates := d.candidates.expire now }.reconcileExpiredCandidates := by
  have hrec := reconciled { d with candidates := d.candidates.expire now }
  refine ⟨(hrec []).established, (hrec []).pdus, (hrec []).payloads, fun c => ?_, fun c => ?_,
    fun c => ?_, fun c => ?_⟩
  · rw [(hrec c).candidates, candidatesFor_expire]
    simp only [survivors, List.all_cons, List.all_nil, Bool.and_true]
  · rw [(hrec c).responder, (hrec c).candidates]
  · rw [(hrec c).template, (hrec c).candidates]
    by_cases he : d.established.get? c = none
    · by_cases hf : d.initiatorForks.get? c = none
      · simp [(hx c).paired.mpr hf]
      · simp [he, hf]
    · simp [((hx c).alone he).2.1]
  · rw [(hrec c).fork, (hrec c).candidates]
    by_cases he : d.established.get? c = none
    · simp [he]
    · simp [(hx c).paired.mp ((hx c).alone he).2.1]

theorem faded_cranks (h : d.Idle next) (hx : ∀ c, Exclusive d c)
    {times : List (Int × Entropy β)} (hne : times ≠ [])
    (hearly : ∀ now ∈ times, (now.1 : WithTop Int) < next) :
    Faded (times.map (·.1)) d (d.cranks P times) := by
  induction times generalizing d with
  | nil => exact absurd rfl hne
  | cons now rest ih =>
    obtain ⟨hnow, hrest⟩ := List.forall_mem_cons.mp hearly
    obtain ⟨next', hu⟩ := h.update (P := P) hnow now.2
    have hstep : Faded [now.1] d (d.update P now.1 now.2).1 := by
      rw [hu]
      exact faded_expired hx now.1
    cases rest with
    | nil => exact hstep
    | cons now' rest =>
      have hidle : (d.update P now.1 now.2).1.Idle next := by
        rw [hu]
        exact h.expired now.1
      have hx' : ∀ c, Exclusive (d.update P now.1 now.2).1 c := fun c =>
        (promotes_update P now.1 now.2 (hx c)).exclusive
      have hfaded := ih hidle hx' (by simp) hrest
      rw [cranks, List.foldl_cons, List.map_cons, ← List.singleton_append]
      exact hstep.trans hfaded

theorem idle_cranks (h : d.Idle next) {times : List (Int × Entropy β)}
    (hearly : ∀ now ∈ times, (now.1 : WithTop Int) < next) :
    (d.cranks P times).Idle next ∧ (d.cranks P times).pollPdu = d.pollPdu ∧
      (d.cranks P times).pollPayload = d.pollPayload := by
  induction times generalizing d with
  | nil => exact ⟨h, rfl, rfl⟩
  | cons now rest ih =>
    obtain ⟨hnow, hrest⟩ := List.forall_mem_cons.mp hearly
    obtain ⟨next', hu⟩ := h.update (P := P) hnow now.2
    have hrec := reconciled { d with candidates := d.candidates.expire now.1 } []
    have hidle : (d.update P now.1 now.2).1.Idle next := by
      rw [hu]
      exact h.expired now.1
    have hqueues : (d.update P now.1 now.2).1.pollPdu = d.pollPdu ∧
        (d.update P now.1 now.2).1.pollPayload = d.pollPayload := by
      rw [hu]
      simp only [pollPdu, pollPayload, hrec.pdus, hrec.payloads, and_self]
    obtain ⟨hidle', hpdu, hpayload⟩ := ih hidle hrest
    rw [cranks, List.foldl_cons]
    exact ⟨hidle', hpdu.trans hqueues.1, hpayload.trans hqueues.2⟩

/-- The deadline that a crank returns is in the future, for a positive retry interval, and until
then there is nothing to do: any cranks before it return, report what is ready as before, and
take away what has expired in the store with the sessions that had nothing else, no more. -/
theorem early_cranks (hP : P.Correct) {keys : KeyLookup β} {limits : CandidateLimits}
    (hrun : Run P FreshCids (new keys config limits) d) {r : UpdateResult}
    (hok : (d.update P now e).2 = .ok (r, next)) :
    (0 < config.retryIntervalSeconds → (now : WithTop Int) < next) ∧
    ∀ times : List (Int × Entropy β), (∀ t ∈ times, (t.1 : WithTop Int) < next) →
      (times ≠ [] → Faded (times.map (·.1)) (d.update P now e).1
        ((d.update P now e).1.cranks P times)) ∧
      ∀ (t : Int) (e' : Entropy β), (t : WithTop Int) < next → ∃ next',
        (((d.update P now e).1.cranks P times).update P t e').2 = .ok (nextUpdateResult
          (d.update P now e).1.pollPayload (d.update P now e).1.pollPdu next') := by
  obtain ⟨hconfig, hT⟩ : d.config = config ∧ Kept (Punctual P config) (fun _ => True) d :=
    punctual_run hP hrun rfl (kept_new keys config limits)
  obtain ⟨hlater, hidle⟩ := update_idle hP hconfig hT hok
  have hx : ∀ c, Exclusive (d.update P now e).1 c := fun c =>
    (promotes_update P now e (exclusive_run hrun (exclusive_new keys config limits c))).exclusive
  refine ⟨hlater, fun times hearly => ⟨fun hne => faded_cranks hidle hx hne hearly, ?_⟩⟩
  intro t e' ht
  obtain ⟨hidle', hpdu, hpayload⟩ := idle_cranks (P := P) hidle hearly
  obtain ⟨next', hu⟩ := hidle'.update (P := P) ht e'
  rw [hu, hpdu, hpayload]
  exact ⟨next', rfl⟩

end

/-- Entries of Bob's store last half as long as his sessions. The session is to be looked at after
sixty ticks, but a crank after thirty finds its entry expired. -/
theorem early_cranks_calledTwice :
    let d := (bobCalledTwice { ttlSeconds := 30 }).update ideal 50 (draw 20)
    d.2 = .ok (.pduReady, ((110 : Int) : WithTop Int)) ∧
    (d.1.cranks ideal [(79, draw 21)]).responderSessions.keys = [(draw 10).uuid] ∧
    (d.1.cranks ideal [(79, draw 21), (80, draw 22)]).responderSessions.keys = [] ∧
    Faded [79, 80] d.1 (d.1.cranks ideal [(79, draw 21), (80, draw 22)]) := by
  have hrun : Run ideal FreshCids (new (staticLookup 1) {} { ttlSeconds := 30 })
      (bobCalledTwice { ttlSeconds := 30 }) := .step (.step .refl trivial) trivial
  have hok : ((bobCalledTwice { ttlSeconds := 30 }).update ideal 50 (draw 20)).2 =
      .ok (.pduReady, ((110 : Int) : WithTop Int)) := by rfl
  have hearly : ∀ t ∈ [((79 : Int), draw 21), (80, draw 22)],
      (t.1 : WithTop Int) < ((110 : Int) : WithTop Int) := by
    intro t ht
    have ht : t.1 < 110 := by
      revert t
      decide
    exact_mod_cast ht
  have hfaded := ((early_cranks Ideal.ideal_correct hrun hok).2 _ hearly).1 (by simp)
  exact ⟨hok, by decide +kernel, by decide +kernel, hfaded⟩

end Dispatcher

end KemMake
