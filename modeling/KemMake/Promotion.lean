import KemMake.Binding
import KemMake.Frame

/-!
# Promotion

A cid with an established session has nothing else in the dispatcher, and templates come
with fork lists. An established session is never exchanged for another one; only `close`
ends it.
-/

namespace KemMake

variable {β π : Type} [DecidableEq β] [DecidableEq π]

/-- What calls on a session can make of it. -/
inductive Session.Continues (P : Primitives β π) (s : Session β π) : Session β π → Prop
  | refl : Continues P s s
  | postPdu {s'} (der : π) : Continues P s s' → Continues P s (s'.postPdu der)
  | postPayload {s'} (payload : List β) : Continues P s s' →
      Continues P s (s'.postPayload payload).1
  | update {s'} (now : Int) (e : Entropy β) : Continues P s s' → Continues P s (s'.update P now e).1
  | drained {s'} : Continues P s s' → Continues P s s'.drained

theorem Session.Continues.trans {P : Primitives β π} {s s' s'' : Session β π}
    (h : s.Continues P s') (h' : s'.Continues P s'') : s.Continues P s'' := by
  induction h' with
  | refl => exact h
  | postPdu der _ ih => exact .postPdu der ih
  | postPayload payload _ ih => exact .postPayload payload ih
  | update now e _ ih => exact .update now e ih
  | drained _ ih => exact .drained ih

namespace Dispatcher

structure Exclusive (d : Dispatcher β π) (c : List β) : Prop where
  alone : d.established.get? c ≠ none → d.responderSessions.get? c = none ∧
    d.initiatorTemplates.get? c = none ∧ d.candidates.candidatesFor c = []
  paired : d.initiatorTemplates.get? c = none ↔ d.initiatorForks.get? c = none

/-- The established session of the cid is still there. -/
def Remains (P : Primitives β π) (c : List β) (d d' : Dispatcher β π) : Prop :=
  ∀ s, d.established.get? c = some s → ∃ s', d'.established.get? c = some s' ∧ s.Continues P s'

/-- What a call does for a cid. -/
structure Promotes (P : Primitives β π) (c : List β) (d d' : Dispatcher β π) : Prop where
  exclusive : Exclusive d' c
  remains : Remains P c d d'

section
variable {P : Primitives β π} {c j : List β} {d d' d'' : Dispatcher β π} {s : Session β π} {now : Int}
  {e : Entropy β} {der : π}

theorem Remains.trans (h : Remains P c d d') (h' : Remains P c d' d'') : Remains P c d d'' := by
  intro s hs
  obtain ⟨s', hs', hc⟩ := h s hs
  obtain ⟨s'', hs'', hc'⟩ := h' s' hs'
  exact ⟨s'', hs'', hc.trans hc'⟩

theorem Promotes.trans (h : Promotes P c d d') (h' : Promotes P c d' d'') : Promotes P c d d'' :=
  ⟨h'.exclusive, h.remains.trans h'.remains⟩

theorem Exclusive.stays (h : Exclusive d c) : Promotes P c d d := ⟨h, fun s hs => ⟨s, hs, .refl⟩⟩

theorem Beside.promotes (hb : Beside c now d d') (h : Exclusive d c) : Promotes P c d d' := by
  refine ⟨⟨fun he => ?_, ?_⟩, fun s hs => ⟨s, hb.established.trans hs, .refl⟩⟩
  · rw [hb.established] at he
    obtain ⟨hr, ht, hc⟩ := h.alone he
    exact ⟨hb.responder.trans hr, hb.template.trans ht, hb.candidates.nil hc⟩
  · rw [hb.template, hb.fork]
    exact h.paired

/-- Nothing was established and nothing is. -/
theorem promotes_of_none (he : d.established.get? c = none) (he' : d'.established.get? c = none)
    (hp : d'.initiatorTemplates.get? c = none ↔ d'.initiatorForks.get? c = none) :
    Promotes P c d d' :=
  ⟨⟨fun h => absurd he' h, hp⟩, fun s hs => by simp [he] at hs⟩

theorem promotes_promote (he : d.established.get? c = none) (d' : Dispatcher β π)
    (s : Session β π) : Promotes P c d (d'.promote c s) := by
  refine ⟨⟨fun _ => ⟨?_, ?_, ?_⟩, ?_⟩, fun s hs => by simp [he] at hs⟩
  · exact Dict.get?_erase_self ..
  · exact Dict.get?_erase_self ..
  · simp [promote, CandidateStore.candidatesFor, CandidateStore.discard]
  · simp [promote]

theorem promotes_dropResponder (h : Exclusive d c) (he : d.established.get? c = none) :
    Promotes P c d (d.dropResponder c) :=
  promotes_of_none he he h.paired

theorem promotes_reapResponder (h : Exclusive d c) (he : d.established.get? c = none) :
    Promotes P c d (d.reapResponder c) := by
  unfold reapResponder
  split
  · exact h.stays
  · split
    · exact promotes_promote he _ _
    · split
      · exact promotes_dropResponder h he
      · exact h.stays

theorem promotes_setResponder (h : Exclusive d c) (he : d.established.get? c = none)
    (responderSessions : Dict (List β) (Session β π)) :
    Promotes P c d { d with responderSessions } :=
  promotes_of_none he he h.paired

theorem promotes_setEstablished {s s' : Session β π} (h : Exclusive d c)
    (hs : d.established.get? c = some s) (hc : s.Continues P s') :
    Promotes P c d { d with established := d.established.set c s' } := by
  refine ⟨⟨fun _ => h.alone (by simp [hs]), h.paired⟩, fun s₁ hs₁ => ?_⟩
  rw [hs] at hs₁
  cases hs₁
  exact ⟨s', Dict.get?_set_self .., hc⟩

theorem promotes_deliver (h : Exclusive d c) (s : Session β π) (der : π) (now : Int) (j : List β)
    (e : Entropy β) : Promotes P c d (d.deliver P s der now j e).1 :=
  (beside_deliver P d s der now j e).promotes h

theorem deliver_continues (P : Primitives β π) (d : Dispatcher β π) (s : Session β π) (der : π)
    (now : Int) (j : List β) (e : Entropy β) : s.Continues P (d.deliver P s der now j e).2.1 := by
  have hu : s.Continues P ((s.postPdu der).update P now e).1 := .update now e (.postPdu der .refl)
  obtain ⟨x, _, _, hd⟩ | ⟨_, hd⟩ := deliver_cases P d s der now j e
  · rw [hd]
    exact hu
  · rw [hd]
    exact .drained hu

theorem promotes_deliverEstablished (h : Exclusive d c) (hs : d.established.get? c = some s) :
    Promotes P c d (d.deliverEstablished P s der now c e).1 := by
  have hd := promotes_deliver (P := P) h s der now c e
  have hs' := (beside_deliver (c := c) P d s der now c e).established.trans hs
  exact hd.trans (promotes_setEstablished hd.exclusive hs' (deliver_continues P d s der now c e))

theorem promotes_deliverResponder (h : Exclusive d c) (he : d.established.get? c = none) :
    Promotes P c d (d.deliverResponder P s der now c e).1 := by
  have hd := promotes_deliver (P := P) h s der now c e
  have he' := (beside_deliver (c := c) P d s der now c e).established.trans he
  unfold deliverResponder
  rcases hu : d.deliver P s der now c e with ⟨d', s', _ | x⟩ <;> rw [hu] at hd he'
  · have hset := hd.trans (promotes_setResponder hd.exclusive he' (d'.responderSessions.set c s'))
    exact hset.trans (promotes_reapResponder hset.exclusive he')
  · exact hd.trans (promotes_setResponder hd.exclusive he' _)

theorem promotes_openResponder (h : Exclusive d c) (he : d.established.get? c = none) :
    Promotes P c d (d.openResponder P der now c e).1 := by
  have hadd : ∀ candidates, Promotes P c d { d with candidates } :=
    fun candidates => promotes_of_none he he h.paired
  unfold openResponder
  rcases d.candidates.add c der P.noPdu now with ⟨candidates, x | candidate⟩
  · exact hadd candidates
  · have hd := (hadd candidates).trans (promotes_deliver (hadd candidates).exclusive
      (.new .responder none d.keys d.config) der now c e)
    have he' := (beside_deliver (c := c) P { d with candidates } (.new .responder none d.keys d.config)
      der now c e).established.trans he
    simp only
    rcases hu : Dispatcher.deliver P { d with candidates } (.new .responder none d.keys d.config) der
      now c e with ⟨d', s', _ | x⟩ <;> rw [hu] at hd he'
    · have hset := hd.trans (promotes_setResponder hd.exclusive he' (d'.responderSessions.set c s'))
      simp only
      split
      · exact hset.trans (promotes_dropResponder hset.exclusive he')
      · split
        · have hrec : Promotes P c { d' with responderSessions := d'.responderSessions.set c s' }
              (recordAnswer P { d' with responderSessions := d'.responderSessions.set c s' } c s') :=
            promotes_of_none he' he' hset.exclusive.paired
          exact hset.trans (hrec.trans (promotes_reapResponder hrec.exclusive he'))
        · exact hset.trans (promotes_reapResponder hset.exclusive he')
    · exact hd.trans (promotes_setResponder hd.exclusive he' _)

theorem promotes_openFork (h : Exclusive d c) (he : d.established.get? c = none)
    (ht : d.initiatorTemplates.get? c = some s) : Promotes P c d (d.openFork P s der now c e).1 := by
  have hadd : ∀ candidates, Promotes P c d { d with candidates } :=
    fun candidates => promotes_of_none he he h.paired
  unfold openFork
  rcases d.candidates.add c der P.noPdu now with ⟨candidates, x | candidate⟩
  · exact hadd candidates
  · simp only
    split
    · exact hadd candidates
    · rename_i twin _
      have hb := beside_deliver (c := c) P { d with candidates } twin der now c e
      have he' := hb.established.trans he
      have ht' := hb.template.trans ht
      rcases hu : Dispatcher.deliver P { d with candidates } twin der now c e with ⟨d', s', _ | x⟩ <;>
        rw [hu] at he' ht'
      · exact promotes_of_none he he' (by simp [recordCall, ht'])
      · exact promotes_of_none he he' (by simp [ht'])

theorem promotes_routeToForks (h : Exclusive d c) (he : d.established.get? c = none)
    {forks : List (Session β π)} (hf : d.initiatorForks.get? c = some forks) :
    Promotes P c d (d.routeToForks P c forks der now e).1 := by
  have ht : d.initiatorTemplates.get? c ≠ none := by simp [h.paired, hf]
  unfold routeToForks
  rcases offer P der now e forks with ⟨forks', contest⟩
  cases contest with
  | «open» => exact promotes_of_none he he (by simp [ht])
  | raised x => exact promotes_of_none he he (by simp [ht])
  | won winner => exact promotes_promote he _ _

theorem promotes_postPdu (h : Exclusive d c) (der : π) (now : Int) (e : Entropy β) :
    Promotes P c d (d.postPdu P der now e).1 := by
  by_cases hc : ∀ msg, P.load der = .ok msg → msg.cid ≠ c
  · exact (beside_postPdu hc d now e).promotes h
  · have hmsg : ∃ msg, P.load der = .ok msg ∧ msg.cid = c := by
      simpa only [not_forall, not_not, exists_prop] using hc
    obtain ⟨msg, hl, rfl⟩ := hmsg
    simp only [postPdu, hl]
    split
    · rename_i s hs
      exact promotes_deliverEstablished h hs
    · rename_i he
      split
      · unfold routeSessionInitRequest
        split
        · exact promotes_deliverResponder h he
        · exact promotes_openResponder h he
      · unfold routeSessionInitResponse
        split
        · exact h.stays
        · rename_i template ht
          split
          · rename_i d' forks x hr
            have hb : Beside msg.cid now d d' := beside_resendFork hr
            exact promotes_of_none he (hb.established.trans he) (by simp [hb.template.trans ht])
          · exact promotes_openFork h he ht
      · split
        · exact promotes_deliverResponder h he
        · split
          · rename_i forks hf
            exact promotes_routeToForks h he hf
          · exact h.stays

/-! ## The crank -/

theorem promotes_updateEstablished (P : Primitives β π) (now : Int) (e : Entropy β)
    (h : Exclusive d c) (next : WithTop Int) :
    Promotes P c d (updateEstablished P now e d c next).1 := by
  unfold updateEstablished
  split
  · exact h.stays
  · rename_i s hs
    have hu : s.Continues P (s.update P now e).1 := .update now e .refl
    rcases hs' : s.update P now e with ⟨s', x | ⟨r, deadline⟩⟩ <;> rw [hs'] at hu
    · simp only
      split
      · have hd : Promotes P c d _ := (beside_drain c now d s' c).promotes h
        exact hd.trans (promotes_setEstablished hd.exclusive hs (.drained hu))
      · exact promotes_setEstablished h hs hu
    · have hd : Promotes P c d _ := (beside_drain c now d s' c).promotes h
      exact hd.trans (promotes_setEstablished hd.exclusive hs (.drained hu))

theorem promotes_updateResponder (P : Primitives β π) (now : Int) (e : Entropy β)
    (h : Exclusive d c) (next : WithTop Int) :
    Promotes P c d (updateResponder P now e d c next).1 := by
  unfold updateResponder
  split
  · exact h.stays
  · rename_i s hs
    have he : d.established.get? c = none := by
      apply not_not.mp
      intro hne
      simp [(h.alone hne).1] at hs
    rcases s.update P now e with ⟨s', x | ⟨r, deadline⟩⟩
    · simp only
      split
      · exact promotes_dropResponder h he
      · exact promotes_setResponder h he _
    · simp only
      split
      · exact promotes_promote he _ _
      · split
        · exact promotes_of_none he he h.paired
        · exact promotes_of_none he he h.paired

theorem promotes_updateForks (P : Primitives β π) (now : Int) (e : Entropy β)
    (h : Exclusive d c) (next : WithTop Int) :
    Promotes P c d (updateForks P now e d c next).1 := by
  unfold updateForks
  split
  · exact h.stays
  · rename_i forks hf
    have ht : d.initiatorTemplates.get? c ≠ none := by simp [h.paired, hf]
    have he : d.established.get? c = none := by
      apply not_not.mp
      intro hne
      exact ht (h.alone hne).2.1
    split
    · exact promotes_of_none he he (by simp [ht])
    · exact promotes_promote he _ _
    · exact promotes_of_none he he (by simp)
    · exact promotes_of_none he he (by simp [ht])

/-- A sweep does for each cid what its step there does. -/
theorem promotes_sweep {step : Dispatcher β π → List β → WithTop Int →
      Dispatcher β π × Except PyError (WithTop Int)}
    (hat : ∀ d next, Exclusive d c → Promotes P c d (step d c next).1)
    (hother : ∀ j, c ≠ j → ∀ d next, Beside c now d (step d j next).1) (cids : List (List β))
    (next : WithTop Int) (h : Exclusive d c) : Promotes P c d (sweep step d cids next).1 := by
  refine sweep_keeps (Q := Promotes P c d) (fun d' j next hp => ?_) cids next h.stays
  by_cases hj : c = j
  · subst hj
    exact hp.trans (hat d' next hp.exclusive)
  · exact hp.trans ((hother j hj d' next).promotes hp.exclusive)

theorem promotes_crank (P : Primitives β π) (now : Int) (e : Entropy β) (h : Exclusive d c) :
    Promotes P c d (d.crank P now e).1 := by
  have h1 := promotes_sweep (fun d next h => promotes_updateEstablished P now e h next)
    (fun j hj d next => beside_updateEstablished hj d next) d.established.keys ⊤ h
  unfold crank
  split
  · rename_i hd
    rwa [hd] at h1
  · rename_i d₁ next₁ hd₁
    rw [hd₁] at h1
    have h2 := h1.trans (promotes_sweep
      (fun d next h => promotes_updateResponder P now e h next)
      (fun j hj d next => beside_updateResponder hj d next) d₁.responderSessions.keys next₁ h1.exclusive)
    split
    · rename_i hd
      rwa [hd] at h2
    · rename_i d₂ next₂ hd₂
      rw [hd₂] at h2
      exact h2.trans (promotes_sweep
        (fun d next h => promotes_updateForks P now e h next)
        (fun j hj d next => beside_updateForks hj d next) _ _ h2.exclusive)

theorem promotes_update (P : Primitives β π) (now : Int) (e : Entropy β) (h : Exclusive d c) :
    Promotes P c d (d.update P now e).1 := by
  have hrec := reconciled { d with candidates := d.candidates.expire now } c
  have hfade : CandidateStore.candidatesFor (d.candidates.expire now) c =
      CandidateStore.survivors now (d.candidates.candidatesFor c) :=
    CandidateStore.candidatesFor_expire d.candidates now c
  have hprom : Promotes P c d
      ({ d with candidates := d.candidates.expire now } : Dispatcher β π).reconcileExpiredCandidates := by
    refine ⟨⟨fun he => ?_, ?_⟩, fun s hs => ⟨s, by rw [hrec.established]; exact hs, .refl⟩⟩
    · rw [hrec.established] at he
      obtain ⟨hr, ht, hc⟩ := h.alone he
      have hnil : CandidateStore.candidatesFor (d.candidates.expire now) c = [] := by
        rw [hfade, hc]
        rfl
      refine ⟨?_, ?_, ?_⟩
      · simp [hrec.responder, hnil]
      · simp [hrec.template, ht]
      · rw [hrec.candidates]
        exact hnil
    · rw [hrec.template, hrec.fork]
      have hpair := h.paired
      by_cases hf : d.initiatorForks.get? c = none
      · simp [hf, hpair.mpr hf]
      · have ht : d.initiatorTemplates.get? c ≠ none := fun ht => hf (hpair.mp ht)
        by_cases hgone : CandidateStore.candidatesFor (d.candidates.expire now) c = [] ∧
            d.established.get? c = none
        · simp [hgone, hf]
        · have hgone' : ¬ (CandidateStore.candidatesFor (d.candidates.expire now) c = [] ∧
              d.established.get? c = none ∧ d.initiatorForks.get? c ≠ none) :=
            fun hg => hgone ⟨hg.1, hg.2.1⟩
          simp only [hgone, hgone', ↓reduceIte]
          exact hpair
  have hk := hprom.trans (promotes_crank P now e hprom.exclusive)
  unfold update
  simp only
  split
  · rename_i hd
    rwa [hd] at hk
  · rename_i hd
    rwa [hd] at hk

end

/-! ## Runs -/

/-- The cids that `uuid4()` draws are not those of established sessions. -/
def FreshCids (d : Dispatcher β π) : Op β π → Prop
  | .initiate _ _ _ e => d.established.get? e.uuid = none
  | _ => True

section
variable {P : Primitives β π} {c : List β} {d d' : Dispatcher β π}

theorem promotes_initiate (h : Exclusive d c) (own peer : KeyId β) {now : Int} {e : Entropy β}
    (he : d.established.get? e.uuid = none) : Promotes P c d (d.initiate P own peer now e).1 := by
  by_cases hc : e.uuid = c
  · subst hc
    unfold initiate
    split
    · exact h.stays
    · rename_i primary hp
      obtain ⟨_, s1, ct1, _, _, rfl⟩ := Session.initiate_ok hp
      exact promotes_of_none he he (by simp [Session.calling])
  · exact (beside_initiate now d own peer hc).promotes h

theorem promotes_postPayload (h : Exclusive d c) (j payload : List β) :
    Promotes P c d (d.postPayload j payload).1 := by
  by_cases hc : c = j
  · subst hc
    unfold postPayload
    split
    · rename_i s hs
      exact promotes_setEstablished h hs (.postPayload payload .refl)
    · rename_i he
      split
      · exact promotes_setResponder h he _
      · split
        · exact h.stays
        · rename_i template ht
          split
          · exact h.stays
          · have hf : d.initiatorForks.get? c ≠ none := by simp [← h.paired, ht]
            simp only
            split
            · exact absurd ‹_› hf
            · exact promotes_of_none he he (by simp)
  · exact (beside_postPayload 0 d hc payload).promotes h

/-- A call keeps a cid exclusive, and its established session if it is not closed. -/
theorem exclusive_step (h : Exclusive d c) {op : Op β π} (hop : FreshCids d op) :
    Exclusive (d.step P op) c ∧ (op ≠ .close c → Remains P c d (d.step P op)) := by
  have hof : Promotes P c d (d.step P op) →
      Exclusive (d.step P op) c ∧ (op ≠ .close c → Remains P c d (d.step P op)) :=
    fun hp => ⟨hp.exclusive, fun _ => hp.remains⟩
  cases op with
  | initiate own peer now e => exact hof (promotes_initiate h own peer hop)
  | postPdu der now e => exact hof (promotes_postPdu h der now e)
  | postPayload j payload => exact hof (promotes_postPayload h j payload)
  | getPdu => exact hof ((beside_getPdu 0 d).promotes h)
  | getPayload => exact hof ((beside_getPayload 0 d).promotes h)
  | close j =>
    by_cases hc : c = j
    · subst hc
      exact ⟨⟨fun he => absurd (Dict.get?_erase_self ..) he, h.paired⟩, fun hne => absurd rfl hne⟩
    · exact hof ((beside_close 0 d hc).promotes h)
  | update now e => exact hof (promotes_update P now e h)

omit [DecidableEq π] in
theorem exclusive_new (keys : KeyLookup β) (config : SessionConfig) (limits : CandidateLimits)
    (c : List β) : Exclusive (new keys config limits : Dispatcher β π) c :=
  ⟨fun h => absurd rfl h, ⟨fun _ => rfl, fun _ => rfl⟩⟩

theorem exclusive_run (hrun : Run P FreshCids d d') (h : Exclusive d c) : Exclusive d' c := by
  induction hrun with
  | refl => exact h
  | step _ hop ih => exact (exclusive_step ih hop).1

/-- The established table holds established sessions. -/
def Stands (_ : List β) (t : Slot) (s : Session β π) : Prop :=
  t = .established → s.state = .established

theorem stands_stable (hP : ∀ aead key nonce text ad, P.encrypt aead key nonce text ad ≠ [])
    (ok : Dispatcher β π → Op β π → Prop) : Stable P ok Stands where
  handled := ⟨fun _ _ _ _ _ _ => trivial, fun _ _ _ h => h, fun _ _ _ _ hs _ => hs⟩
  initiate _ _ _ _ _ _ _ _ _ _ (ht : Slot.template = Slot.established) := by cases ht
  serves _ der now e _ :=
    { deliver := fun _ _ s _ _ h => .inl fun ht =>
        Session.update_established hP (show (s.postPdu der).state = .established from h ht) now e
      call := fun _ _ _ _ _ _ (ht : Slot.fork = Slot.established) => by cases ht
      fork := fun _ _ _ _ _ _ (ht : Slot.fork = Slot.established) => by cases ht
      opened := fun _ _ _ _ _ _ _ _ _ (ht : Slot.responder = Slot.established) => by cases ht }
  postPayload _ _ _ payload h := by
    rw [Session.postPayload_eq]
    exact h
  update _ _ _ now e _ h := .inl fun ht => Session.update_established hP (h ht) now e

/-- In every reachable dispatcher an established cid has its session in that state and
nothing else, templates and fork lists come together, and an established session stays
until `close`. -/
theorem promotion_total (hP : ∀ aead key nonce text ad, P.encrypt aead key nonce text ad ≠ [])
    {keys : KeyLookup β} {config : SessionConfig} {limits : CandidateLimits}
    (hrun : Run P FreshCids (new keys config limits) d) (c : List β) :
    (∀ s, d.established.get? c = some s → s.state = .established ∧
      d.responderSessions.get? c = none ∧ d.initiatorForks.get? c = none ∧
      d.initiatorTemplates.get? c = none ∧ d.candidates.candidatesFor c = []) ∧
    (d.initiatorTemplates.get? c = none ↔ d.initiatorForks.get? c = none) ∧
    ∀ op s, FreshCids d op → d.established.get? c = some s → op ≠ .close c →
      ∃ s', (d.step P op).established.get? c = some s' ∧ s.Continues P s' := by
  have hx := exclusive_run hrun (exclusive_new keys config limits c)
  refine ⟨fun s hs => ?_, hx.paired, fun op s hop hs hne => (exclusive_step hx hop).2 hne s hs⟩
  obtain ⟨hr, ht, hc⟩ := hx.alone (by simp [hs])
  exact ⟨((stands_stable hP _).run hP hrun (kept_new keys config limits)).established c s hs rfl, hr,
    hx.paired.mp ht, ht, hc⟩

end

/-- Mallory, who has taken Alice's cid, is alone in the tables. -/
theorem promotion_total_example :
    (∀ s, aliceTaken.established.get? (draw 0).uuid = some s → s.state = .established ∧
      aliceTaken.responderSessions.get? (draw 0).uuid = none ∧
      aliceTaken.initiatorForks.get? (draw 0).uuid = none ∧
      aliceTaken.initiatorTemplates.get? (draw 0).uuid = none ∧
      aliceTaken.candidates.candidatesFor (draw 0).uuid = []) ∧
    (aliceTaken.initiatorTemplates.get? (draw 0).uuid = none ↔
      aliceTaken.initiatorForks.get? (draw 0).uuid = none) ∧
    ∀ op s, FreshCids aliceTaken op → aliceTaken.established.get? (draw 0).uuid = some s →
      op ≠ .close (draw 0).uuid → ∃ s',
        (aliceTaken.step ideal op).established.get? (draw 0).uuid = some s' ∧ s.Continues ideal s' :=
  have hcall : Run ideal FreshCids (new (staticLookup 0) {} {}) aliceCalling :=
    @Run.step _ _ _ _ _ _ _ _ (.initiate (staticId 0) (staticId 1) 0 (draw 0)) .refl rfl
  have hanswer : Run ideal FreshCids (new (staticLookup 0) {} {}) aliceAnswered :=
    @Run.step _ _ _ _ _ _ _ _ (.postPdu malloryRequest 0 (draw 2)) hcall trivial
  have htaken : Run ideal FreshCids (new (staticLookup 0) {} {}) aliceTaken :=
    @Run.step _ _ _ _ _ _ _ _ (.postPdu malloryCompletion 0 (draw 4)) hanswer trivial
  promotion_total Ideal.ideal_correct.encrypt_ne_nil htaken (draw 0).uuid

end Dispatcher

end KemMake
