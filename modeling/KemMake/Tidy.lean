import KemMake.Raising

/-!
# The sessions in the dispatcher's tables

`Fits` is what each table may hold: established sessions in one table, responders
that have not completed in another, initiators before their confirmation in the
other two, each under its own cid. Between calls no PDU is left unprocessed, except
by a dropped session.
-/

namespace KemMake

variable {β π : Type} {P : Primitives β π}

namespace Session

theorem Took.named {s s' : Session β π} {now : Int} {e : Entropy β} {x : Option PyError}
    {c : List β} (ht : Took P s now e s' x)
    (hq : ∀ der rest msg, s.incomingQueue = der :: rest → P.load der = .ok msg → msg.cid = c)
    (h : s.state ≠ .initial → s.cid = some c) : s'.state ≠ .initial → s'.cid = some c := by
  cases ht with
  | idle | ignored | undecoded => exact h
  | resent => rw [resend_eq]; exact h
  | refused _ _ hc =>
    rcases hc with rfl | ⟨hs, _, _⟩
    · exact h
    · exact fun hs' => absurd hs hs'
  | answered hq' hl => exact fun _ => congrArg some (hq _ _ _ hq' hl)
  | completed _ _ _ hs _ hc | called _ _ _ hs _ hc | confirmed _ _ _ hs _ hc
  | replied _ _ _ hs _ hc => exact fun _ => h (by simp [hs])
  | received => rw [countReceived_eq]; exact h

theorem Sent.cid {s s' : Session β π} {x : Option PyError} (hs : Sent P s s' x) :
    s'.cid = s.cid := by
  cases hs with
  | message => rw [countSent_eq]
  | _ => rfl

theorem Ticked.cid {s s' : Session β π} {now : Int} (hk : Ticked s now s') : s'.cid = s.cid := by
  cases hk with
  | retried => rw [resend_eq]
  | _ => rfl

section
variable [DecidableEq β] [DecidableEq π] {s : Session β π} {now : Int} {e : Entropy β}

theorem update_named {c : List β} (hP : P.Correct)
    (hq : ∀ der rest msg, s.incomingQueue = der :: rest → P.load der = .ok msg → msg.cid = c)
    (h : s.state ≠ .initial → s.cid = some c) (now : Int) (e : Entropy β) :
    (s.update P now e).1.state ≠ .initial → (s.update P now e).1.cid = some c := by
  refine update_preserves (I := fun s => s.state ≠ .initial → s.cid = some c) hP.encrypt_ne_nil
    (fun _ _ ht => ht.named hq) (fun _ _ _ hs h => ?_) (fun _ _ hk h => ?_) h
  · rw [hs.cid, hs.frame.1]
    exact h
  · intro hs'
    rw [hk.cid]
    rcases hk.frame.1 with hs | ⟨_, _, hi⟩
    · exact h (hs ▸ hs')
    · exact h hi

theorem update_frame (hP : P.Correct) (hd : s.state ≠ .dropped) (now : Int) (e : Entropy β) :
    (s.update P now e).1.incomingQueue = s.incomingQueue.tail ∧
      ∃ s₁ : Session β π, Advances P s s₁ ∧ ((s.update P now e).1.state = s₁.state ∨
        (s.update P now e).1.state = .dropped ∧ s₁.state ≠ .established ∧ s₁.state ≠ .initial) := by
  have hu := update_cases hP.encrypt_ne_nil s now e
  generalize (s.update P now e).1 = s', (s.update P now e).2 = r at hu
  cases hu with
  | dropped hs => exact absurd hs hd
  | raised _ ht => exact ⟨ht.queue, _, ht.advances, .inl rfl⟩
  | sendRaised _ ht hs => exact ⟨hs.frame.2.trans ht.queue, _, ht.advances, .inl hs.frame.1⟩
  | done _ ht hs hk =>
    refine ⟨hk.frame.2.trans (hs.frame.2.trans ht.queue), _, ht.advances, ?_⟩
    rw [← hs.frame.1]
    exact hk.frame.1

/-- A session that becomes established is reported so: the update returns. -/
theorem update_ready (hP : P.Correct) (h : s.Coherent P) (now : Int) (e : Entropy β)
    (hs : s.state ≠ .established) (he : (s.update P now e).1.state = .established) : ∃ r, (s.update P now e).2 = .ok r := by
  have hu := update_cases hP.encrypt_ne_nil s now e
  generalize (s.update P now e).1 = s', (s.update P now e).2 = r at hu he
  cases hu with
  | dropped => exact ⟨_, rfl⟩
  | done => exact ⟨_, rfl⟩
  | raised _ ht => cases ht with
    | undecoded | refused => exact absurd he hs
  | sendRaised _ ht hsent =>
    have hno : ¬ s.Overflows := fun ho => hs ho.1
    rw [← ht.overflows h] at hno
    cases hsent with
    | failed hs₁ hp hm =>
      have hc := ht.coherent hP h
      obtain ⟨keys, _, hk, _⟩ := hc.established hs₁
      rcases messagePdu_cases _ hc hs₁ hk with ⟨_, _, hpdu⟩ | ⟨hle, _⟩
      · rw [hm] at hpdu
        cases hpdu
      · exact absurd ⟨hs₁, by simp [hp], keys, hk, hle⟩ hno

end

end Session

namespace Dispatcher

/-- What a table may hold under a cid. -/
def Fits (P : Primitives β π) (c : List β) (t : Slot) (s : Session β π) : Prop :=
  s.Coherent P ∧ match t with
  | .established => s.state = .established ∧ s.cid = some c
  | .responder => s.role = .responder ∧ s.state ≠ .established ∧
      (s.state ≠ .initial → s.cid = some c)
  | .template => s.state = .expectSessionInitResponse ∧ s.cid = some c
  | .fork => (s.state = .expectSessionInitResponse ∨ s.state = .expectSessionCompletionResponse ∨
      s.state = .dropped) ∧ s.cid = some c

def Tidy (P : Primitives β π) (c : List β) (t : Slot) (s : Session β π) : Prop :=
  Fits P c t s ∧ (s.incomingQueue = [] ∨ s.state = .dropped)

variable {c : List β} {t : Slot} {s : Session β π}

theorem Fits.postPdu (h : Fits P c t s) (der : π) : Fits P c t (s.postPdu der) :=
  ⟨h.1.postPdu der, by cases t <;> exact h.2⟩

theorem Fits.named (h : Fits P c t s) : s.state ≠ .initial → s.cid = some c := by
  cases t with
  | established | template | fork => exact fun _ => h.2.2
  | responder => exact h.2.2.2

section
variable [DecidableEq β] [DecidableEq π] (hP : P.Correct) {now : Int} {e : Entropy β}
include hP

theorem fits_update (h : Fits P c t s) (ht : t ≠ .template)
    (hq : ∀ der rest msg, s.incomingQueue = der :: rest → P.load der = .ok msg → msg.cid = c) :
    Left (Fits P) c t (s.update P now e) := by
  have hcoh := h.1.update hP now e
  have hname := Session.update_named hP hq h.named now e
  by_cases hd : s.state = .dropped
  · rw [Session.update_dropped hd]
    exact .inl h
  obtain ⟨_, s₁, hadv, hst⟩ := Session.update_frame hP hd now e
  have hready := Session.update_ready hP h.1 now e
  have hrole := Session.update_identity hP.encrypt_ne_nil s now e
  generalize s.update P now e = u at *
  by_cases he : u.1.state = .established ∧ s.state ≠ .established
  · exact .inr ⟨⟨he.1, hready he.2 he.1⟩, hcoh, he.1, hname (by simp [he.1])⟩
  · refine .inl ⟨hcoh, ?_⟩
    cases t with
    | template => exact absurd rfl ht
    | established =>
      have hs : s.state = .established := h.2.1
      have hu : u.1.state = .established := by
        cases hadv <;> simp_all
      exact ⟨hu, hname (by simp [hu])⟩
    | responder =>
      have hs : s.state ≠ .established := h.2.2.1
      simp only [Session.identity, Prod.mk.injEq] at hrole
      exact ⟨hrole.1.trans h.2.1, fun hu => he ⟨hu, hs⟩, hname⟩
    | fork =>
      have hu : u.1.state = .expectSessionInitResponse ∨
          u.1.state = .expectSessionCompletionResponse ∨ u.1.state = .dropped := by
        rcases hst with hst | hst <;> rcases h.2.1 with hs | hs | hs <;> cases hadv <;> simp_all
      exact ⟨hu, hname (by rcases hu with hu | hu | hu <;> simp [hu])⟩

theorem tidy_update_of_fits (h : Fits P c t s) (ht : t ≠ .template)
    (hq : ∀ der rest msg, s.incomingQueue = der :: rest → P.load der = .ok msg → msg.cid = c)
    (hone : s.incomingQueue.tail = [] ∨ s.state = .dropped) :
    Left (Tidy P) c t (s.update P now e) := by
  have hleft : Left (Fits P) c t (s.update P now e) := fits_update hP h ht hq
  have hqueue : (s.update P now e).1.incomingQueue = [] ∨
      (s.update P now e).1.state = .dropped := by
    by_cases hd : s.state = .dropped
    · rw [Session.update_dropped hd]
      exact .inr hd
    · rw [(Session.update_frame hP hd now e).1]
      exact hone.imp_right fun hs => absurd hs hd
  exact hleft.imp (fun hf => ⟨hf, hqueue⟩) fun ⟨hr, hf⟩ => ⟨hr, hf, hqueue⟩

theorem tidy_update (h : Tidy P c t s) (ht : t ≠ .template) :
    Left (Tidy P) c t (s.update P now e) := by
  rcases h with ⟨hf, hq | hd⟩
  · exact tidy_update_of_fits hP hf ht (by simp [hq]) (.inl (by simp [hq]))
  · rw [Session.update_dropped hd]
    exact .inl ⟨hf, .inr hd⟩

theorem tidy_deliver {der : π} {msg : MakeMessage β} (hl : P.load der = .ok msg)
    (h : Tidy P msg.cid t s) (ht : t ≠ .template) :
    Left (Tidy P) msg.cid t ((s.postPdu der).update P now e) := by
  rcases h with ⟨hf, hq | hd⟩
  · refine tidy_update_of_fits hP (hf.postPdu der) ht (fun der' rest msg' hq' hl' => ?_)
      (.inl (by simp [Session.postPdu, hq]))
    simp only [Session.postPdu, hq, List.nil_append, List.cons.injEq] at hq'
    rw [← hq'.1, hl] at hl'
    cases hl'
    rfl
  · have hd' : (s.postPdu der).state = .dropped := hd
    rw [Session.update_dropped hd']
    exact .inl ⟨hf.postPdu der, .inr hd⟩

/-- A PDU that confirms nothing establishes no initiator. -/
theorem not_established {der : π} {msg : MakeMessage β} (hl : P.load der = .ok msg)
    (h : Tidy P msg.cid .fork s) (hp : msg.payload.name ≠ .sessionCompletionResponse) :
    ((s.postPdu der).update P now e).1.state ≠ .established := by
  have hs : s.state ≠ .established ∧ s.state ≠ .expectSessionCompletionRequest := by
    rcases h.1.2.1 with hs | hs | hs <;> simp [hs]
  by_cases hd : s.state = .dropped
  · have hd' : (s.postPdu der).state = .dropped := hd
    rw [Session.update_dropped hd', hd']
    simp
  · have hd' : (s.postPdu der).state ≠ .dropped := hd
    have hq := h.2.resolve_right hd
    obtain ⟨_, s₁, hadv, hst⟩ := Session.update_frame hP hd' now e
    have hs₁ : s₁.state ≠ .established := by
      cases hadv with
      | stays hs₁ => exact hs₁ ▸ hs.1
      | answers _ _ hs₁ | calls _ hs₁ => simp [hs₁]
      | completes hs' => exact absurd hs' hs.2
      | confirms hq' hl' hp' =>
        simp only [Session.postPdu, hq, List.nil_append, List.cons.injEq] at hq'
        rw [← hq'.1, hl] at hl'
        cases hl'
        simp [hp', MakePayload.name] at hp
    rcases hst with hst | ⟨hst, _⟩
    · exact hst ▸ hs₁
    · simp [hst]

end

theorem tidy_handled : Handled (Tidy P) (fun _ : π => True) where
  sent _ _ _ _ _ _ := trivial
  drained _ t _ h := by
    obtain ⟨⟨hc, hf⟩, hq⟩ := h
    refine ⟨⟨⟨hc.calling, hc.answered, hc.called, hc.established, hc.ivs⟩, ?_⟩, hq⟩
    cases t <;> exact hf
  establish _ _ _ h hs := ⟨⟨h.1.1, hs, h.1.named (by simp [hs])⟩, h.2⟩

theorem Tidy.postPayload (h : Tidy P c t s) (payload : List β) :
    Tidy P c t (s.postPayload payload).1 := by
  have hcoh := h.1.1.postPayload payload
  rw [Session.postPayload_eq] at hcoh ⊢
  exact ⟨⟨hcoh, by cases t <;> exact h.1.2⟩, h.2⟩

theorem Tidy.fork {twin : Session β π} (h : Tidy P c .template s) (hf : s.fork = .ok twin) :
    Tidy P c .fork twin := by
  have hcoh := h.1.1.fork hf
  obtain ⟨_, _, _, rfl⟩ := Session.fork_ok.mp hf
  exact ⟨⟨hcoh, .inl rfl, h.1.2.2⟩, .inl rfl⟩

theorem tidy_initiate {own peer : KeyId β} {keys : KeyLookup β} {config : SessionConfig}
    {now : Int} {e : Entropy β} {primary : Session β π}
    (hp : (Session.new .initiator (some own) keys config).initiate P peer now e = (primary, none))
    (hc : primary.cid = some c) : Tidy P c .template { primary with outgoingPdus := [] } := by
  obtain ⟨_, s1, ct1, _, _, rfl⟩ := Session.initiate_ok hp
  have hcoh := Session.coherent_calling (P := P) own peer keys config now e s1 ct1
  exact ⟨⟨⟨hcoh.calling, hcoh.answered, hcoh.called, hcoh.established, hcoh.ivs⟩, rfl, hc⟩, .inl rfl⟩

/-! ## Reachable dispatchers -/

section
variable [DecidableEq β] [DecidableEq π] (hP : P.Correct) {d : Dispatcher β π}
include hP

theorem tidy_opened {keys : KeyLookup β} {config : SessionConfig} {der : π}
    {msg : MakeMessage β} (hl : P.load der = .ok msg) (now : Int) (e : Entropy β) :
    Tidy P msg.cid .responder
      (((Session.new .responder none keys config).postPdu der).update P now e).1 := by
  have h : Tidy P msg.cid .responder (Session.new .responder none keys config) :=
    ⟨⟨Session.coherent_new _ _ _ _, rfl, by simp [Session.new], by simp [Session.new]⟩, .inl rfl⟩
  have hd : ((Session.new .responder none keys config).postPdu der).state ≠ .dropped := by
    simp [Session.postPdu, Session.new]
  refine (tidy_deliver hP hl h (by simp)).of_state ?_
  obtain ⟨_, s₁, hadv, hst⟩ := Session.update_frame hP hd now e
  have hs₁ : s₁.state ≠ .established := by
    cases hadv with
    | stays hs => rw [hs]; simp [Session.postPdu, Session.new]
    | answers _ _ hs | calls _ hs => simp [hs]
    | completes hs | confirms _ _ _ hs => simp [Session.postPdu, Session.new] at hs
  rcases hst with hst | ⟨hst, _⟩
  · exact hst ▸ hs₁
  · simp [hst]

theorem tidy_serves (der : π) (now : Int) (e : Entropy β) :
    Serves P d der now e (Tidy P) (Tidy P) where
  deliver _ _ _ hl ht h := tidy_deliver hP hl h ht
  call _ _ _ hl hp h := (tidy_deliver hP hl h (by simp)).of_state
    (not_established hP hl h (by simp [hp, MakePayload.name]))
  fork _ _ _ _ h hf := h.fork hf
  opened _ _ _ hl _ _ _ _ _ := tidy_opened hP hl now e

theorem tidy_stable (ok : Dispatcher β π → Op β π → Prop) : Stable P ok (Tidy P) where
  handled := tidy_handled
  initiate _ _ _ _ _ _ _ _ hp hc := tidy_initiate hp hc
  serves _ der now e _ := tidy_serves hP der now e
  postPayload _ _ _ payload h := h.postPayload payload
  update _ _ _ _ _ ht h := tidy_update hP h ht

/-- Every dispatcher that calls can lead to has tidy tables. -/
theorem tidy_run {ok : Dispatcher β π → Op β π → Prop} {d' : Dispatcher β π}
    (hrun : Run P ok d d') (h : Kept (Tidy P) (fun _ => True) d) :
    Kept (Tidy P) (fun _ => True) d' := (tidy_stable hP ok).run hP.encrypt_ne_nil hrun h

end

end Dispatcher

end KemMake
