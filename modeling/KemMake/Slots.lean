import KemMake.Inherited

/-!
# The entries of responses

A SessionInitResponse that opens a fork takes an entry of the store for it. Every other call
leaves each cid no more forks than it had and no entry of a response that it had not.
-/

namespace KemMake

/-- The PDU is a SessionInitResponse. -/
def isResponse {β π : Type} (P : Primitives β π) (pdu : π) : Bool :=
  match P.load pdu with
  | .ok msg => decide (msg.payload.name = .sessionInitResponse)
  | .error _ => false

namespace CandidateStore
variable {β π : Type}

/-- The entries of responses: what for, and until when. -/
def slotsIn (P : Primitives β π) (l : List (HandshakeCandidate β π)) : List (π × Int) :=
  (l.filter fun c => isResponse P c.receivedPdu).map fun c => (c.receivedPdu, c.expiresAt)

theorem slotsIn_sublist (P : Primitives β π) {l l' : List (HandshakeCandidate β π)}
    (h : l'.Sublist l) : (slotsIn P l').Sublist (slotsIn P l) := (h.filter _).map _

theorem slotsIn_append (P : Primitives β π) (l l' : List (HandshakeCandidate β π)) :
    slotsIn P (l ++ l') = slotsIn P l ++ slotsIn P l' := by
  simp [slotsIn]

/-- Assignments to other fields do not matter. -/
theorem slotsIn_map (P : Primitives β π) {f : HandshakeCandidate β π → HandshakeCandidate β π}
    (hf : ∀ c, (f c).receivedPdu = c.receivedPdu ∧ (f c).expiresAt = c.expiresAt)
    (l : List (HandshakeCandidate β π)) : slotsIn P (l.map f) = slotsIn P l := by
  induction l with
  | nil => rfl
  | cons c rest ih =>
    have hcons : ∀ (c : HandshakeCandidate β π) l, c :: l = [c] ++ l := fun _ _ => rfl
    rw [List.map_cons, hcons (f c), hcons c, slotsIn_append, slotsIn_append, ih]
    simp [slotsIn, List.filter_cons, (hf c).1, (hf c).2, apply_ite]

variable [DecidableEq β]

def slots (P : Primitives β π) (st : CandidateStore β π) (c : List β) : List (π × Int) :=
  slotsIn P (st.candidatesFor c)

theorem slots_expire (P : Primitives β π) (st : CandidateStore β π) (now : Int) (c : List β) :
    ((st.expire now).slots P c).Sublist (st.slots P c) := by
  rw [slots, candidatesFor_expire]
  exact slotsIn_sublist P List.filter_sublist

theorem slots_discard (P : Primitives β π) (st : CandidateStore β π) (j c : List β) :
    ((st.discard j).slots P c).Sublist (st.slots P c) := by
  by_cases hc : c = j
  · subst hc
    simp [slots, slotsIn, candidatesFor, discard]
  · rw [slots, candidatesFor_discard st hc]
    exact List.Sublist.refl _

theorem slots_modify (P : Primitives β π) (st : CandidateStore β π) (j c : List β)
    {f : List (HandshakeCandidate β π) → List (HandshakeCandidate β π)}
    (hf : ∀ l, slotsIn P (f l) = slotsIn P l) : (st.modify j f).slots P c = st.slots P c := by
  by_cases hc : c = j
  · subst hc
    unfold modify
    split
    · rfl
    · rename_i l hl
      simp [slots, candidatesFor, hl, hf]
  · rw [slots, candidatesFor_modify st hc, slots]

theorem limits_add (st : CandidateStore β π) (c : List β) (receivedPdu sentPdu : π) (now : Int) :
    (st.add c receivedPdu sentPdu now).1.limits = st.limits := by
  unfold add
  simp only
  split
  · rfl
  · split <;> rfl

/-- An addition to a cid: what has expired goes, and the new entry comes if there is room. -/
theorem slots_add (P : Primitives β π) (st : CandidateStore β π) (c : List β)
    (receivedPdu sentPdu : π) (now : Int) : (st.add c receivedPdu sentPdu now).1.slots P c =
      slotsIn P (survivors now (st.candidatesFor c)) ++
        if (st.add c receivedPdu sentPdu now).2.isOk ∧ isResponse P receivedPdu then
          [(receivedPdu, now + st.limits.ttlSeconds)] else [] := by
  rw [← candidatesFor_expire]
  have hlimits : (st.expire now).limits = st.limits := rfl
  unfold add
  simp only
  split
  · simp [slots, candidatesFor, Except.isOk, Except.toBool]
  · split
    · simp [slots, candidatesFor, Except.isOk, Except.toBool]
    · cases hr : isResponse P receivedPdu <;>
        simp [slots, candidatesFor, slotsIn, Except.isOk, Except.toBool, hr, hlimits]

end CandidateStore

namespace Dispatcher
open CandidateStore
variable {β π : Type} [DecidableEq β]

/-! ## Calls that open no fork -/

/-- No cid has more forks than before, and no entry for a response is new. -/
structure Unopened (P : Primitives β π) (d d' : Dispatcher β π) : Prop where
  limits : d'.candidates.limits = d.candidates.limits
  forks : ∀ c, (d'.forksOf c).length ≤ (d.forksOf c).length
  slots : ∀ c, (d'.candidates.slots P c).Sublist (d.candidates.slots P c)

section
variable {P : Primitives β π} {d d₁ d₂ : Dispatcher β π} {c : List β} {s : Session β π}

theorem unopened_refl (d : Dispatcher β π) : Unopened P d d :=
  ⟨rfl, fun _ => Nat.le_refl _, fun _ => List.Sublist.refl _⟩

theorem Unopened.trans (h : Unopened P d d₁) (h' : Unopened P d₁ d₂) : Unopened P d d₂ :=
  ⟨h'.limits.trans h.limits, fun c => (h'.forks c).trans (h.forks c),
    fun c => (h'.slots c).trans (h.slots c)⟩

/-- What has changed is in the other tables and in the queues. -/
theorem Unopened.elsewhere (h : Unopened P d d₁) (hf : d₂.initiatorForks = d₁.initiatorForks)
    (hst : d₂.candidates = d₁.candidates) : Unopened P d d₂ := by
  refine ⟨hst ▸ h.limits, fun c => ?_, fun c => hst ▸ h.slots c⟩
  simp only [forksOf, hf]
  exact h.forks c

theorem Unopened.discard (h : Unopened P d d₁) (hst : d₂.candidates = d₁.candidates.discard c)
    (hf : ∀ j, (d₂.forksOf j).length ≤ (d₁.forksOf j).length) : Unopened P d d₂ :=
  ⟨hst ▸ h.limits, fun j => (hf j).trans (h.forks j), fun j => by
    rw [hst]
    exact (slots_discard P _ c j).trans (h.slots j)⟩

theorem forksOf_erase (forks : Dict (List β) (List (Session β π))) (c j : List β) :
    (((forks.erase c).get? j).getD []).length ≤ ((forks.get? j).getD []).length := by
  by_cases hj : j = c
  · subst hj
    simp
  · rw [Dict.get?_erase_of_ne _ hj]

theorem Unopened.promote (h : Unopened P d d₁) (c : List β) (s : Session β π) :
    Unopened P d (d₁.promote c s) :=
  h.discard (c := c) rfl fun j => forksOf_erase d₁.initiatorForks c j

theorem Unopened.dropResponder (h : Unopened P d d₁) (c : List β) :
    Unopened P d (d₁.dropResponder c) :=
  h.discard (c := c) rfl fun _ => Nat.le_refl _

theorem Unopened.reapResponder (h : Unopened P d d₁) (c : List β) :
    Unopened P d (d₁.reapResponder c) := by
  unfold Dispatcher.reapResponder
  split
  · exact h
  · rename_i s _
    split
    · have hdrain : Unopened P d (d₁.drain s c).1 := h.elsewhere rfl rfl
      exact hdrain.promote c _
    · split
      · exact h.dropResponder c
      · exact h

theorem Unopened.setForks (h : Unopened P d d₁) {forks : List (Session β π)}
    (hlen : forks.length ≤ (d₁.forksOf c).length) :
    Unopened P d { d₁ with initiatorForks := d₁.initiatorForks.set c forks } := by
  refine ⟨h.limits, fun j => ?_, h.slots⟩
  refine Nat.le_trans ?_ (h.forks j)
  by_cases hj : j = c
  · subst hj
    simp only [forksOf, Dict.get?_set_self, Option.getD_some] at hlen ⊢
    exact hlen
  · simp [forksOf, Dict.get?_set_of_ne _ hj]

theorem Unopened.modify (h : Unopened P d d₁) (c : List β)
    {f : List (HandshakeCandidate β π) → List (HandshakeCandidate β π)}
    (hf : ∀ l, slotsIn P (f l) = slotsIn P l) :
    Unopened P d { d₁ with candidates := d₁.candidates.modify c f } := by
  refine ⟨?_, h.forks, fun j => ?_⟩
  · rw [← h.limits]
    unfold CandidateStore.modify
    split <;> rfl
  · rw [slots_modify P _ c j hf]
    exact h.slots j

theorem Unopened.expire (h : Unopened P d d₁) (now : Int) :
    Unopened P d { d₁ with candidates := d₁.candidates.expire now } :=
  ⟨h.limits, h.forks, fun c => (slots_expire P _ now c).trans (h.slots c)⟩

/-- An addition that is refused, or not for a response. -/
theorem Unopened.add (h : Unopened P d d₁) (c : List β) (receivedPdu sentPdu : π) (now : Int)
    (hno : ¬ ((d₁.candidates.add c receivedPdu sentPdu now).2.isOk ∧ isResponse P receivedPdu)) :
    Unopened P d
      { d₁ with candidates := (d₁.candidates.add c receivedPdu sentPdu now).1 } := by
  refine ⟨(limits_add ..).trans h.limits, h.forks, fun j => List.Sublist.trans ?_ (h.slots j)⟩
  by_cases hj : j = c
  · subst hj
    simp only [slots_add, if_neg hno, List.append_nil]
    exact slotsIn_sublist P List.filter_sublist
  · simp only [CandidateStore.slots, candidatesFor_add _ hj]
    exact slotsIn_sublist P List.filter_sublist

end

section
variable [DecidableEq π] {P : Primitives β π} {d : Dispatcher β π} {s : Session β π} {der : π}
  {now : Int} {c : List β} {e : Entropy β}

theorem unopened_deliver (P : Primitives β π) (d : Dispatcher β π) (s : Session β π) (der : π)
    (now : Int) (c : List β) (e : Entropy β) : Unopened P d (d.deliver P s der now c e).1 := by
  obtain ⟨outgoingPdus, outgoingPayloads, hd⟩ := deliver_queues P d s der now c e
  rw [hd]
  exact (unopened_refl d).elsewhere rfl rfl

theorem unopened_deliverEstablished :
    Unopened P d (d.deliverEstablished P s der now c e).1 := by
  have hd := unopened_deliver P d s der now c e
  unfold deliverEstablished
  rcases hu : d.deliver P s der now c e with ⟨d', s', x⟩
  rw [hu] at hd
  exact hd.elsewhere rfl rfl

theorem unopened_deliverResponder : Unopened P d (d.deliverResponder P s der now c e).1 := by
  have hd := unopened_deliver P d s der now c e
  unfold deliverResponder
  rcases hu : d.deliver P s der now c e with ⟨d', s', x⟩
  rw [hu] at hd
  have hset : Unopened P d { d' with responderSessions := d'.responderSessions.set c s' } :=
    hd.elsewhere rfl rfl
  cases x with
  | none => exact hset.reapResponder c
  | some x => exact hset

theorem unopened_openResponder (hno : isResponse P der = false) :
    Unopened P d (d.openResponder P der now c e).1 := by
  have hadd := (unopened_refl (P := P) d).add c der P.noPdu now (by simp [hno])
  unfold openResponder
  rcases ha : d.candidates.add c der P.noPdu now with ⟨candidates, x | candidate⟩ <;> rw [ha] at hadd
  · exact hadd
  · have hd := hadd.trans (unopened_deliver P { d with candidates }
      (.new .responder none d.keys d.config) der now c e)
    simp only
    rcases hu : Dispatcher.deliver P { d with candidates } (.new .responder none d.keys d.config)
      der now c e with ⟨d', s', x⟩
    rw [hu] at hd
    have hset : Unopened P d { d' with responderSessions := d'.responderSessions.set c s' } :=
      hd.elsewhere rfl rfl
    cases x with
    | some x => exact hset
    | none =>
      simp only
      split
      · exact hset.dropResponder c
      · split
        · refine Unopened.reapResponder (hset.modify c fun l => ?_) c
          cases l <;> simp [slotsIn, List.filter_cons, apply_ite]
        · exact hset.reapResponder c

theorem unopened_resendFork {forks : List (Session β π)}
    {r : Dispatcher β π × List (Session β π) × Option PyError}
    (hr : d.resendFork P der now c e forks = some r) :
    r.2.1.length = forks.length ∧ Unopened P d r.1 := by
  obtain ⟨hlen, outgoingPdus, outgoingPayloads, hd⟩ := resendFork_length hr
  rw [hd]
  exact ⟨hlen, (unopened_refl d).elsewhere rfl rfl⟩

theorem unopened_routeToForks {forks : List (Session β π)}
    (hf : d.initiatorForks.get? c = some forks) :
    Unopened P d (d.routeToForks P c forks der now e).1 := by
  have hlen := offer_length P der now e forks
  unfold routeToForks
  rcases ho : offer P der now e forks with ⟨forks', contest⟩
  rw [ho] at hlen
  have hset : Unopened P d { d with initiatorForks := d.initiatorForks.set c forks' } :=
    (unopened_refl d).setForks (by simpa [forksOf, hf] using Nat.le_of_eq hlen)
  cases contest with
  | «open» => exact hset
  | raised x => exact hset
  | won winner =>
    have hdrain : Unopened P d (({ d with initiatorForks := d.initiatorForks.set c forks' } :
        Dispatcher β π).drain winner c).1 := hset.elsewhere rfl rfl
    exact hdrain.promote c _

/-- Every PDU but a response that opens a fork. -/
theorem unopened_postPdu {msg : MakeMessage β} (hl : P.load der = .ok msg)
    (hno : ¬ (d.established.get? msg.cid = none ∧ d.OpensFork msg der now)) :
    Unopened P d (d.postPdu P der now e).1 := by
  unfold postPdu
  simp only [hl]
  split
  · exact unopened_deliverEstablished
  · rename_i he
    split
    · rename_i hname
      unfold routeSessionInitRequest
      split
      · exact unopened_deliverResponder
      · exact unopened_openResponder (by simp [isResponse, hl, hname])
    · rename_i hname
      unfold routeSessionInitResponse
      split
      · exact unopened_refl d
      · rename_i template ht
        split
        · rename_i d' forks x hr
          obtain ⟨hlen, hd⟩ := unopened_resendFork hr
          refine hd.setForks ?_
          obtain ⟨_, _, hd'⟩ := (resendFork_length hr).2
          simp only at hd' hlen
          rw [hd', hlen]
          exact Nat.le_refl _
        · rename_i hr
          have hadm : ¬ d.candidates.Admits msg.cid now := fun hadm => hno ⟨he, hname, by
            simp only [Opens, hname, ht]
            exact ⟨by simp, resendFork_none hr⟩, hadm⟩
          rw [← add_admits _ _ der P.noPdu] at hadm
          have hadd := (unopened_refl (P := P) d).add msg.cid der P.noPdu now
          unfold openFork
          rcases ha : d.candidates.add msg.cid der P.noPdu now with ⟨candidates, x | candidate⟩ <;>
            rw [ha] at hadd hadm
          · exact hadd (by simp [Except.isOk, Except.toBool])
          · exact absurd ⟨candidate, rfl⟩ hadm
    · split
      · exact unopened_deliverResponder
      · split
        · rename_i forks hf
          exact unopened_routeToForks hf
        · exact unopened_refl d

theorem crankForks_length (P : Primitives β π) (now : Int) (e : Entropy β)
    (forks : List (Session β π)) (next : WithTop Int) :
    (crankForks P now e forks next).1.length = forks.length ∧
      (crankForks P now e forks next).2.1.length ≤ forks.length := by
  induction forks generalizing next with
  | nil => exact ⟨rfl, Nat.le_refl _⟩
  | cons fork rest ih =>
    unfold crankForks
    rcases fork.update P now e with ⟨fork', x | ⟨r, deadline⟩⟩
    · have hrest := ih next
      rcases hc : crankForks P now e rest next with ⟨rest', surviving, contest, next'⟩
      rw [hc] at hrest
      simp only
      split
      · exact ⟨congrArg Nat.succ hrest.1, Nat.le_succ_of_le hrest.2⟩
      · simp
    · have hrest := ih (min next deadline)
      simp only
      split
      · simp
      · refine ⟨congrArg Nat.succ hrest.1, ?_⟩
        split
        · exact Nat.le_succ_of_le hrest.2
        · exact Nat.succ_le_succ hrest.2

theorem unopened_updateEstablished (d : Dispatcher β π) (next : WithTop Int) :
    Unopened P d (updateEstablished P now e d c next).1 := by
  obtain ⟨hf, _, hst⟩ :
      (updateEstablished P now e d c next).1.initiatorForks = d.initiatorForks ∧ _ ∧
        (updateEstablished P now e d c next).1.candidates = d.candidates :=
    updateEstablished_frame d c next
  exact (unopened_refl d).elsewhere hf hst

theorem unopened_updateResponder (d : Dispatcher β π) (next : WithTop Int) :
    Unopened P d (updateResponder P now e d c next).1 := by
  have hd := unopened_refl (P := P) d
  unfold updateResponder
  split
  · exact hd
  · rename_i s _
    rcases s.update P now e with ⟨s', x | ⟨r, deadline⟩⟩
    · simp only
      split
      · exact hd.dropResponder c
      · exact hd.elsewhere rfl rfl
    · have hset : Unopened P d { (d.drain s' c).1 with
          responderSessions := d.responderSessions.set c (d.drain s' c).2 } := hd.elsewhere rfl rfl
      simp only
      split
      · exact hset.promote c _
      · split
        · exact hset.dropResponder c
        · exact hset

theorem unopened_updateForks (d : Dispatcher β π) (next : WithTop Int) :
    Unopened P d (updateForks P now e d c next).1 := by
  have hd := unopened_refl (P := P) d
  unfold updateForks
  split
  · exact hd
  · rename_i forks hf
    have hlen := crankForks_length P now e forks next
    have hof : d.forksOf c = forks := by rw [forksOf, hf, Option.getD_some]
    rcases hc : crankForks P now e forks next with ⟨forks', surviving, contest, next'⟩
    rw [hc, ← hof] at hlen
    cases contest with
    | raised x => exact hd.setForks (Nat.le_of_eq hlen.1)
    | won winner =>
      have hdrain : Unopened P d (d.drain winner c).1 := hd.elsewhere rfl rfl
      exact hdrain.promote c _
    | «open» =>
      cases surviving with
      | nil => exact hd.discard (c := c) rfl fun j => forksOf_erase d.initiatorForks c j
      | cons fork rest => exact hd.setForks hlen.2

theorem unopened_update (d : Dispatcher β π) : Unopened P d (d.update P now e).1 := by
  rw [update_fst]
  have hrec : Unopened P d
      ({ d with candidates := d.candidates.expire now } : Dispatcher β π).reconcileExpiredCandidates := by
    have hexp := (unopened_refl (P := P) d).expire now
    refine ⟨?_, fun c => ?_, fun c => ?_⟩
    · rw [(reconciled _ []).candidates]
      exact hexp.limits
    · refine Nat.le_trans ?_ (hexp.forks c)
      simp only [forksOf, (reconciled _ c).fork]
      split <;> simp
    · rw [(reconciled _ c).candidates]
      exact hexp.slots c
  have hsweep : ∀ (step : Dispatcher β π → List β → WithTop Int →
      Dispatcher β π × Except PyError (WithTop Int)),
      (∀ d j next, Unopened P d (step d j next).1) → ∀ {d₁ : Dispatcher β π} cids next,
      Unopened P d d₁ → Unopened P d (sweep step d₁ cids next).1 :=
    fun step hstep _ cids next h =>
      sweep_keeps (fun d' j next' h' => h'.trans (hstep d' j next')) cids next h
  have h₁ := hsweep (updateEstablished P now e) (fun d' _ next => unopened_updateEstablished d' next)
    ({ d with candidates := d.candidates.expire now } :
      Dispatcher β π).reconcileExpiredCandidates.established.keys ⊤ hrec
  unfold crank
  split
  · rename_i hd₁
    rwa [hd₁] at h₁
  · rename_i d₁ next₁ hd₁
    rw [hd₁] at h₁
    have h₂ := hsweep (updateResponder P now e) (fun d' _ next => unopened_updateResponder d' next)
      d₁.responderSessions.keys next₁ h₁
    split
    · rename_i hd₂
      rwa [hd₂] at h₂
    · rename_i d₂ next₂ hd₂
      rw [hd₂] at h₂
      exact hsweep (updateForks P now e) (fun d' _ next => unopened_updateForks d' next)
        d₂.initiatorForks.keys next₂ h₂

/-! ## The call that opens a fork -/

theorem resendFork_unheard {forks : List (Session β π)}
    (h : ∀ fork ∈ forks, fork.lastReceived ≠ some der) :
    d.resendFork P der now c e forks = none := by
  induction forks with
  | nil => rfl
  | cons fork rest ih =>
    obtain ⟨hfork, hrest⟩ := List.forall_mem_cons.mp h
    unfold resendFork
    rw [if_neg hfork, ih hrest]
    rfl

/-- One more fork under the cid, and an entry for it. -/
structure TakesSlot (P : Primitives β π) (c : List β) (der : π) (now : Int)
    (d d' : Dispatcher β π) : Prop where
  limits : d'.candidates.limits = d.candidates.limits
  fork : (d'.forksOf c).length = (d.forksOf c).length + 1
  slots : d'.candidates.slots P c = slotsIn P (survivors now (d.candidates.candidatesFor c)) ++
    [(der, now + d.candidates.limits.ttlSeconds)]
  forks : ∀ j, j ≠ c → d'.forksOf j = d.forksOf j
  elsewhere : ∀ j, j ≠ c → (d'.candidates.slots P j).Sublist (d.candidates.slots P j)

theorem takesSlot_openFork {template : Session β π} (ht : Tidy P c .template template)
    (hr : isResponse P der) (hadm : d.candidates.Admits c now) :
    TakesSlot P c der now d (d.openFork P template der now c e).1 := by
  obtain ⟨candidate, hok⟩ := (add_admits d.candidates c der P.noPdu now).mpr hadm
  obtain ⟨twin, htwin⟩ := exists_fork ht
  have hslots := slots_add P d.candidates c der P.noPdu now
  have hother : ∀ j, j ≠ c → ((d.candidates.add c der P.noPdu now).1.slots P j).Sublist
      (d.candidates.slots P j) := by
    intro j hj
    simp only [CandidateStore.slots, candidatesFor_add _ hj]
    exact slotsIn_sublist P List.filter_sublist
  have hlimits := limits_add d.candidates c der P.noPdu now
  rw [hok, hr] at hslots
  unfold openFork
  rcases ha : d.candidates.add c der P.noPdu now with ⟨candidates, r⟩
  rw [ha] at hok hslots hother hlimits
  cases hok
  simp only [htwin]
  obtain ⟨outgoingPdus, outgoingPayloads, hd⟩ := deliver_queues P { d with candidates } twin der now c e
  rcases hu : Dispatcher.deliver P { d with candidates } twin der now c e with ⟨d', s', x⟩
  rw [hu] at hd
  cases hd
  have hset : TakesSlot P c der now d { d with
      candidates, outgoingPdus, outgoingPayloads,
      initiatorForks := d.initiatorForks.set c (d.forksOf c ++ [s']) } :=
    ⟨hlimits, by simp [forksOf], by simpa [Except.isOk, Except.toBool] using hslots,
      fun j hj => by simp [forksOf, Dict.get?_set_of_ne _ hj], hother⟩
  cases x with
  | some x => exact hset
  | none =>
    have hmap : ∀ l : List (HandshakeCandidate β π), slotsIn P (l.map fun entry =>
        if entry.receivedPdu = der then { entry with sentPdu := s'.lastSent.getD P.noPdu }
        else entry) = slotsIn P l :=
      slotsIn_map P fun entry => by split <;> exact ⟨rfl, rfl⟩
    refine ⟨?_, hset.fork, ?_, hset.forks, fun j hj => ?_⟩
    · rw [← hset.limits]
      simp only [recordCall, CandidateStore.modify]
      split <;> rfl
    · rw [← hset.slots]
      exact slots_modify P _ c c hmap
    · simp only [recordCall]
      rw [slots_modify P _ c j hmap]
      exact hset.elsewhere j hj

theorem takesSlot_postPdu {msg : MakeMessage β} (hT : Kept (Tidy P) (fun _ => True) d)
    (hl : P.load der = .ok msg) (he : d.established.get? msg.cid = none)
    (ho : d.OpensFork msg der now) :
    TakesSlot P msg.cid der now d (d.postPdu P der now e).1 := by
  obtain ⟨hname, hopens, hadm⟩ := ho
  simp only [Opens, hname] at hopens
  obtain ⟨template, ht⟩ := Option.ne_none_iff_exists'.mp hopens.1
  have hr : isResponse P der = true := by simp [isResponse, hl, hname]
  have hnone : d.resendFork P der now msg.cid e ((d.initiatorForks.get? msg.cid).getD []) = none :=
    resendFork_unheard hopens.2
  simp only [postPdu, hl, he, hname, routeSessionInitResponse, ht, hnone]
  exact takesSlot_openFork (hT.template _ _ ht) hr hadm

end

end Dispatcher

end KemMake
