import KemMake.Duplicates

/-!
# When slots are released

The store has no way to take one entry back: entries go with their cid, or when they expire.
So each entry belongs to a cid that still has sessions, forks for the entry of a response and
the responder session for any other (`Manned`). A crank leaves no session that it has dropped,
but the entry of a fork that has died stays as long as a sibling lives.
-/

namespace KemMake

namespace CandidateStore
variable {β π : Type} [DecidableEq β]

/-- What the entries of the cid are for. -/
def received (st : CandidateStore β π) (c : List β) : List π :=
  (st.candidatesFor c).map (·.receivedPdu)

/-- What the entries of the cid are for, and until when. -/
def receipts (st : CandidateStore β π) (c : List β) : List (π × Int) :=
  (st.candidatesFor c).map fun entry => (entry.receivedPdu, entry.expiresAt)

theorem receipts_expire (st : CandidateStore β π) (now : Int) (c : List β) :
    (st.expire now).receipts c ⊆ st.receipts c := by
  rw [receipts, candidatesFor_expire]
  exact List.map_subset _ List.filter_sublist.subset

theorem receipts_discard_self (st : CandidateStore β π) (c : List β) :
    (st.discard c).receipts c = [] := by
  simp [receipts, candidatesFor, discard]

theorem receipts_discard (st : CandidateStore β π) {j c : List β} (hc : c ≠ j) :
    (st.discard j).receipts c = st.receipts c := by
  rw [receipts, candidatesFor_discard st hc, receipts]

theorem receipts_modify (st : CandidateStore β π) (j c : List β)
    {f : List (HandshakeCandidate β π) → List (HandshakeCandidate β π)}
    (hf : ∀ l, (f l).map (fun entry => (entry.receivedPdu, entry.expiresAt)) =
      l.map fun entry => (entry.receivedPdu, entry.expiresAt)) :
    (st.modify j f).receipts c = st.receipts c := by
  by_cases hc : c = j
  · subst hc
    unfold modify
    split
    · rfl
    · rename_i l hl
      simp [receipts, candidatesFor, hl, hf]
  · rw [receipts, candidatesFor_modify st hc, receipts]

theorem receipts_add (st : CandidateStore β π) (j c : List β) (receivedPdu sentPdu : π) (now : Int) :
    ∀ r ∈ (st.add j receivedPdu sentPdu now).1.receipts c, r ∈ st.receipts c ∨
      (c = j ∧ r = (receivedPdu, now + st.limits.ttlSeconds) ∧
        (st.add j receivedPdu sentPdu now).2.isOk) := by
  intro r hr
  by_cases hc : c = j
  · subst hc
    have hold := receipts_expire st now c
    revert hr
    unfold add
    simp only
    split
    · intro hr
      left
      apply hold
      simpa [receipts, candidatesFor] using hr
    · split
      · intro hr
        left
        apply hold
        simpa [receipts, candidatesFor] using hr
      · intro hr
        simp only [receipts, candidatesFor, Dict.get?_set_self, Option.getD_some, List.map_append,
          List.map_cons, List.map_nil, List.mem_append, List.mem_singleton] at hr
        obtain hr | rfl := hr
        · exact .inl (hold hr)
        · exact .inr ⟨trivial, rfl, rfl⟩
  · left
    rw [receipts, candidatesFor_add st hc] at hr
    exact List.map_subset _ List.filter_sublist.subset hr

end CandidateStore

namespace Dispatcher
open CandidateStore
variable {β π : Type} [DecidableEq β]

/-! ## Entries and the sessions they are for -/

/-- Under a cid with an entry for a response there are forks, and under one with any other
entry there is a responder session; each entry is one of those that `O` allows. -/
def Manned (P : Primitives β π) (O : List β → π × Int → Prop) (d : Dispatcher β π) : Prop :=
  ∀ c, ∀ r ∈ d.candidates.receipts c, O c r ∧
    (isResponse P r.1 → d.initiatorForks.get? c ≠ none) ∧
    (isResponse P r.1 = false → d.responderSessions.get? c ≠ none)

section
variable {P : Primitives β π} {O O' : List β → π × Int → Prop} {d d' : Dispatcher β π} {c : List β}

theorem manned_new (keys : KeyLookup β) (config : SessionConfig) (limits : CandidateLimits) :
    Manned P O (new keys config limits : Dispatcher β π) := by
  intro c r hr
  cases hr

theorem Manned.mono (h : Manned P O d) (hO : ∀ c r, O c r →
    (isResponse P r.1 = false → d.responderSessions.get? c ≠ none) → O' c r) : Manned P O' d := by
  intro c r hr
  obtain ⟨hold, hfork, hresponder⟩ := h c r hr
  exact ⟨hO c r hold hresponder, hfork, hresponder⟩

/-- Entries go, and sessions only where all entries do. -/
theorem Manned.keep (h : Manned P O d)
    (hst : ∀ j, d'.candidates.receipts j ⊆ d.candidates.receipts j)
    (hf : ∀ j, d'.candidates.receipts j ≠ [] → d.initiatorForks.get? j ≠ none →
      d'.initiatorForks.get? j ≠ none)
    (hr : ∀ j, d'.candidates.receipts j ≠ [] → d.responderSessions.get? j ≠ none →
      d'.responderSessions.get? j ≠ none) : Manned P O d' := by
  intro j r hmem
  obtain ⟨hold, hfork, hresponder⟩ := h j r (hst j hmem)
  have hne : d'.candidates.receipts j ≠ [] := List.ne_nil_of_mem hmem
  exact ⟨hold, fun hp => hf j hne (hfork hp), fun hp => hr j hne (hresponder hp)⟩

theorem Manned.elsewhere (h : Manned P O d) (hst : d'.candidates = d.candidates)
    (hf : d'.initiatorForks = d.initiatorForks)
    (hr : d'.responderSessions = d.responderSessions) : Manned P O d' :=
  h.keep (fun j => by rw [hst]; exact List.Subset.refl _) (fun j _ => by rw [hf]; exact id)
    (fun j _ => by rw [hr]; exact id)

theorem get?_set_ne_none {υ : Type} {m : Dict (List β) υ} {j : List β} (c : List β) (v : υ)
    (h : m.get? j ≠ none) : (m.set c v).get? j ≠ none := by
  by_cases hj : j = c
  · subst hj
    simp
  · rwa [Dict.get?_set_of_ne _ hj]

theorem Manned.setResponder (h : Manned P O d) (c : List β) (s : Session β π) :
    Manned P O { d with responderSessions := d.responderSessions.set c s } :=
  h.keep (fun _ => List.Subset.refl _) (fun _ _ => id) (fun _ _ => get?_set_ne_none c s)

theorem Manned.setForks (h : Manned P O d) (c : List β) (forks : List (Session β π)) :
    Manned P O { d with initiatorForks := d.initiatorForks.set c forks } :=
  h.keep (fun _ => List.Subset.refl _) (fun _ _ => get?_set_ne_none c forks) (fun _ _ => id)

/-- All entries of a cid go with what is under it. -/
theorem Manned.discard (h : Manned P O d) (hst : d'.candidates = d.candidates.discard c)
    (hf : ∀ j, j ≠ c → d'.initiatorForks.get? j = d.initiatorForks.get? j)
    (hr : ∀ j, j ≠ c → d'.responderSessions.get? j = d.responderSessions.get? j) :
    Manned P O d' := by
  have hne : ∀ {j}, d'.candidates.receipts j ≠ [] → j ≠ c := by
    intro j hj heq
    rw [heq, hst, receipts_discard_self] at hj
    exact hj rfl
  refine h.keep (fun j => ?_) (fun j hj => ?_) (fun j hj => ?_)
  · by_cases hj : j = c
    · rw [hj, hst, receipts_discard_self]
      exact List.nil_subset _
    · rw [hst, receipts_discard _ hj]
      exact List.Subset.refl _
  · rw [hf j (hne hj)]
    exact id
  · rw [hr j (hne hj)]
    exact id

theorem Manned.promote (h : Manned P O d) (c : List β) (s : Session β π) : Manned P O (d.promote c s) :=
  h.discard (c := c) rfl (fun _ hj => Dict.get?_erase_of_ne _ hj)
    (fun _ hj => Dict.get?_erase_of_ne _ hj)

theorem Manned.dropResponder (h : Manned P O d) (c : List β) : Manned P O (d.dropResponder c) :=
  h.discard (c := c) rfl (fun _ _ => rfl) (fun _ hj => Dict.get?_erase_of_ne _ hj)

theorem Manned.reapResponder (h : Manned P O d) (c : List β) : Manned P O (d.reapResponder c) := by
  unfold Dispatcher.reapResponder
  split
  · exact h
  · rename_i s _
    split
    · have hdrain : Manned P O (d.drain s c).1 := h.elsewhere rfl rfl rfl
      exact hdrain.promote c _
    · split
      · exact h.dropResponder c
      · exact h

theorem Manned.modify (h : Manned P O d) (c : List β)
    {f : List (HandshakeCandidate β π) → List (HandshakeCandidate β π)}
    (hf : ∀ l, (f l).map (fun entry => (entry.receivedPdu, entry.expiresAt)) =
      l.map fun entry => (entry.receivedPdu, entry.expiresAt)) :
    Manned P O { d with candidates := d.candidates.modify c f } :=
  h.keep (fun j => by rw [receipts_modify _ c j hf]; exact List.Subset.refl _) (fun _ _ => id)
    (fun _ _ => id)

theorem Manned.expire (h : Manned P O d) (now : Int) :
    Manned P O { d with candidates := d.candidates.expire now } :=
  h.keep (fun j => receipts_expire _ now j) (fun _ _ => id) (fun _ _ => id)

/-- An addition to a cid, in `d'` with the session that the entry is for. -/
theorem Manned.add (h : Manned P O d) (c : List β) (receivedPdu sentPdu : π) (now : Int)
    (hst : d'.candidates = (d.candidates.add c receivedPdu sentPdu now).1)
    (hf : ∀ j, d.initiatorForks.get? j ≠ none → d'.initiatorForks.get? j ≠ none)
    (hr : ∀ j, d.responderSessions.get? j ≠ none → d'.responderSessions.get? j ≠ none)
    (hO : O c (receivedPdu, now + d.candidates.limits.ttlSeconds))
    (hnew : (d.candidates.add c receivedPdu sentPdu now).2.isOk →
      (isResponse P receivedPdu → d'.initiatorForks.get? c ≠ none) ∧
        (isResponse P receivedPdu = false → d'.responderSessions.get? c ≠ none)) :
    Manned P O d' := by
  intro j r hmem
  rw [hst] at hmem
  obtain hold | ⟨rfl, rfl, hok⟩ := receipts_add d.candidates c j receivedPdu sentPdu now r hmem
  · obtain ⟨hallowed, hfork, hresponder⟩ := h j r hold
    exact ⟨hallowed, fun hp => hf j (hfork hp), fun hp => hr j (hresponder hp)⟩
  · exact ⟨hO, hnew hok⟩

end

section
variable [DecidableEq π] {P : Primitives β π} {O : List β → π × Int → Prop} {d : Dispatcher β π}
  {s : Session β π} {der : π} {now : Int} {c : List β} {e : Entropy β}

theorem manned_deliver (h : Manned P O d) (s : Session β π) (der : π) (now : Int) (c : List β)
    (e : Entropy β) : Manned P O (d.deliver P s der now c e).1 := by
  obtain ⟨outgoingPdus, outgoingPayloads, hd⟩ := deliver_queues P d s der now c e
  rw [hd]
  exact h.elsewhere rfl rfl rfl

theorem manned_deliverEstablished (h : Manned P O d) :
    Manned P O (d.deliverEstablished P s der now c e).1 := by
  have hd := manned_deliver h s der now c e
  unfold deliverEstablished
  rcases hu : d.deliver P s der now c e with ⟨d', s', x⟩
  rw [hu] at hd
  exact hd.elsewhere rfl rfl rfl

theorem manned_deliverResponder (h : Manned P O d) :
    Manned P O (d.deliverResponder P s der now c e).1 := by
  have hd := manned_deliver h s der now c e
  unfold deliverResponder
  rcases hu : d.deliver P s der now c e with ⟨d', s', x⟩
  rw [hu] at hd
  have hset := hd.setResponder c s'
  cases x with
  | none => exact hset.reapResponder c
  | some x => exact hset

theorem manned_openResponder (h : Manned P O d) (hr : isResponse P der = false)
    (hO : O c (der, now + d.candidates.limits.ttlSeconds)) :
    Manned P O (d.openResponder P der now c e).1 := by
  unfold openResponder
  rcases ha : d.candidates.add c der P.noPdu now with ⟨candidates, x | candidate⟩
  · refine h.add c der P.noPdu now (by rw [ha]) (fun _ => id) (fun _ => id) hO fun hok => ?_
    rw [ha] at hok
    cases hok
  · simp only
    obtain ⟨outgoingPdus, outgoingPayloads, hd⟩ := deliver_queues P { d with candidates }
      (.new .responder none d.keys d.config) der now c e
    rcases hu : Dispatcher.deliver P { d with candidates } (.new .responder none d.keys d.config)
      der now c e with ⟨d', s', x⟩
    rw [hu] at hd
    cases hd
    have hset : Manned P O { d with
        candidates, outgoingPdus, outgoingPayloads,
        responderSessions := d.responderSessions.set c s' } :=
      h.add c der P.noPdu now (by rw [ha]) (fun _ => id) (fun _ => get?_set_ne_none c s')
        hO fun _ => ⟨fun hp => absurd (hr.symm.trans hp) (by simp), by simp⟩
    cases x with
    | some x => exact hset
    | none =>
      simp only
      split
      · exact hset.dropResponder c
      · split
        · refine Manned.reapResponder (hset.modify c fun l => ?_) c
          cases l <;> rfl
        · exact hset.reapResponder c

theorem manned_openFork {template : Session β π} (h : Manned P O d)
    (ht : Tidy P c .template template) (hr : isResponse P der)
    (hO : O c (der, now + d.candidates.limits.ttlSeconds)) :
    Manned P O (d.openFork P template der now c e).1 := by
  obtain ⟨twin, htwin⟩ := exists_fork ht
  unfold openFork
  rcases ha : d.candidates.add c der P.noPdu now with ⟨candidates, x | candidate⟩
  · refine h.add c der P.noPdu now (by rw [ha]) (fun _ => id) (fun _ => id) hO fun hok => ?_
    rw [ha] at hok
    cases hok
  · simp only [htwin]
    obtain ⟨outgoingPdus, outgoingPayloads, hd⟩ :=
      deliver_queues P { d with candidates } twin der now c e
    rcases hu : Dispatcher.deliver P { d with candidates } twin der now c e with ⟨d', s', x⟩
    rw [hu] at hd
    cases hd
    have hset : Manned P O { d with
        candidates, outgoingPdus, outgoingPayloads,
        initiatorForks := d.initiatorForks.set c (d.forksOf c ++ [s']) } :=
      h.add c der P.noPdu now (by rw [ha]) (fun _ => get?_set_ne_none c _) (fun _ => id)
        hO fun _ => ⟨by simp, fun hp => absurd (hr.symm.trans hp) (by simp)⟩
    cases x with
    | some x => exact hset
    | none =>
      refine hset.modify c fun l => ?_
      rw [List.map_map]
      apply List.map_congr_left
      intro entry _
      simp only [Function.comp_apply]
      split <;> rfl

theorem manned_routeToForks {forks : List (Session β π)} (h : Manned P O d) :
    Manned P O (d.routeToForks P c forks der now e).1 := by
  unfold routeToForks
  rcases offer P der now e forks with ⟨forks', contest⟩
  have hset := h.setForks c forks'
  cases contest with
  | «open» => exact hset
  | raised x => exact hset
  | won winner =>
    have hdrain : Manned P O (({ d with initiatorForks := d.initiatorForks.set c forks' } :
        Dispatcher β π).drain winner c).1 := hset.elsewhere rfl rfl rfl
    exact hdrain.promote c _

/-- The call takes what entry it takes for the PDU, without a responder session of the cid if
the PDU is not a response. -/
theorem manned_postPdu (hT : Kept (Tidy P) (fun _ => True) d) (h : Manned P O d) (der : π)
    (now : Int) (e : Entropy β)
    (hO : ∀ c, (isResponse P der = false → d.responderSessions.get? c = none) →
      O c (der, now + d.candidates.limits.ttlSeconds)) : Manned P O (d.postPdu P der now e).1 := by
  unfold postPdu
  split
  · exact h
  · rename_i msg hl
    split
    · exact manned_deliverEstablished h
    · split
      · rename_i hname
        unfold routeSessionInitRequest
        split
        · exact manned_deliverResponder h
        · rename_i hnone
          exact manned_openResponder h (by simp [isResponse, hl, hname]) (hO _ fun _ => hnone)
      · rename_i hname
        unfold routeSessionInitResponse
        split
        · exact h
        · rename_i template ht
          split
          · rename_i hr
            obtain ⟨_, _, _, rfl⟩ := resendFork_length hr
            exact (h.elsewhere rfl rfl rfl).setForks msg.cid _
          · have hr : isResponse P der = true := by simp [isResponse, hl, hname]
            exact manned_openFork h (hT.template _ _ ht) hr
              (hO _ fun hno => absurd (hr.symm.trans hno) (by simp))
      · split
        · exact manned_deliverResponder h
        · split
          · exact manned_routeToForks h
          · exact h

theorem manned_updateEstablished (h : Manned P O d) (next : WithTop Int) :
    Manned P O (updateEstablished P now e d c next).1 := by
  obtain ⟨hf, hr, hst⟩ :
      (updateEstablished P now e d c next).1.initiatorForks = d.initiatorForks ∧ _ ∧ _ :=
    updateEstablished_frame d c next
  exact h.elsewhere hst hf hr

theorem manned_updateResponder (h : Manned P O d) (next : WithTop Int) :
    Manned P O (updateResponder P now e d c next).1 := by
  unfold updateResponder
  split
  · exact h
  · rename_i s _
    rcases s.update P now e with ⟨s', x | ⟨r, deadline⟩⟩
    · simp only
      split
      · exact h.dropResponder c
      · exact h.setResponder c s'
    · have hdrain : Manned P O (d.drain s' c).1 := h.elsewhere rfl rfl rfl
      have hset := hdrain.setResponder c (d.drain s' c).2
      simp only
      split
      · exact hset.promote c _
      · split
        · exact hset.dropResponder c
        · exact hset

theorem manned_updateForks (h : Manned P O d) (next : WithTop Int) :
    Manned P O (updateForks P now e d c next).1 := by
  unfold updateForks
  split
  · exact h
  · rename_i forks hf
    rcases crankForks P now e forks next with ⟨forks', surviving, contest, next'⟩
    cases contest with
    | raised x => exact h.setForks c forks'
    | won winner =>
      have hdrain : Manned P O (d.drain winner c).1 := h.elsewhere rfl rfl rfl
      exact hdrain.promote c _
    | «open» =>
      cases surviving with
      | nil =>
        exact h.discard (c := c) rfl (fun _ hj => Dict.get?_erase_of_ne _ hj) (fun _ _ => rfl)
      | cons fork rest => exact h.setForks c (fork :: rest)

omit [DecidableEq π] in
theorem manned_reconcile (h : Manned P O d) : Manned P O d.reconcileExpiredCandidates := by
  have hrec := fun j => reconciled d j
  have hne : ∀ {j}, d.reconcileExpiredCandidates.candidates.receipts j ≠ [] →
      d.candidates.candidatesFor j ≠ [] := by
    intro j hj hnil
    rw [(hrec j).candidates, CandidateStore.receipts, hnil] at hj
    exact hj rfl
  refine h.keep (fun j => by rw [(hrec j).candidates]; exact List.Subset.refl _)
    (fun j hj hf => ?_) (fun j hj hr => ?_)
  · rwa [(hrec j).fork, if_neg fun hand => hne hj hand.1]
  · rwa [(hrec j).responder, if_neg (hne hj)]

theorem manned_update (h : Manned P O d) (now : Int) (e : Entropy β) :
    Manned P O (d.update P now e).1 := by
  rw [update_fst]
  have hrec := manned_reconcile (h.expire now)
  generalize ({ d with candidates := d.candidates.expire now } :
    Dispatcher β π).reconcileExpiredCandidates = d₀ at hrec
  have h₁ : Manned P O (sweep (updateEstablished P now e) d₀ d₀.established.keys ⊤).1 :=
    sweep_keeps (Q := Manned P O) (fun _ _ next hk => manned_updateEstablished hk next)
      d₀.established.keys ⊤ hrec
  unfold crank
  split
  · rename_i hd₁
    rwa [hd₁] at h₁
  · rename_i d₁ next₁ hd₁
    rw [hd₁] at h₁
    have h₂ : Manned P O (sweep (updateResponder P now e) d₁ d₁.responderSessions.keys next₁).1 :=
      sweep_keeps (Q := Manned P O) (fun _ _ next hk => manned_updateResponder hk next)
        d₁.responderSessions.keys next₁ h₁
    split
    · rename_i hd₂
      rwa [hd₂] at h₂
    · rename_i d₂ next₂ hd₂
      rw [hd₂] at h₂
      exact sweep_keeps (Q := Manned P O) (fun _ _ next hk => manned_updateForks hk next)
        d₂.initiatorForks.keys next₂ h₂

theorem manned_step (hT : Kept (Tidy P) (fun _ => True) d) (h : Manned P O d) (op : Op β π)
    (hO : ∀ der now e c, op = .postPdu der now e →
      (isResponse P der = false → d.responderSessions.get? c = none) →
      O c (der, now + d.candidates.limits.ttlSeconds)) : Manned P O (d.step P op) := by
  cases op with
  | initiate own peer now e =>
    simp only [step, initiate]
    split
    · exact h
    · split
      · exact h
      · exact (h.setForks _ []).elsewhere rfl rfl rfl
  | postPdu der now e => exact manned_postPdu hT h der now e fun c => hO der now e c rfl
  | postPayload j payload =>
    simp only [step, postPayload]
    split
    · exact h.elsewhere rfl rfl rfl
    · split
      · exact h.setResponder j _
      · split
        · exact h
        · split
          · exact h
          · rename_i template _
            have hset : Manned P O { d with initiatorTemplates := d.initiatorTemplates.set j template } :=
              h.elsewhere rfl rfl rfl
            split
            · exact hset
            · exact hset.setForks j _
  | getPdu =>
    simp only [step, getPdu]
    split
    · exact h
    · exact h.elsewhere rfl rfl rfl
  | getPayload =>
    simp only [step, getPayload]
    split
    · exact h
    · exact h.elsewhere rfl rfl rfl
  | close j => exact h.elsewhere rfl rfl rfl
  | update now e => exact manned_update h now e

end

/-! ## The sessions that a crank leaves -/

/-- No pending session has been dropped, and each list of forks has some. -/
structure Undropped (d : Dispatcher β π) : Prop where
  responder : ∀ c s, d.responderSessions.get? c = some s → s.state ≠ .dropped
  fork : ∀ c forks, d.initiatorForks.get? c = some forks →
    forks ≠ [] ∧ ∀ fork ∈ forks, fork.state ≠ .dropped

section
variable [DecidableEq π] {P : Primitives β π} {d : Dispatcher β π} {now : Int} {c : List β}
  {e : Entropy β}

omit [DecidableEq π] in
/-- In a sweep whose steps return, a cid is left as its own step leaves it. -/
theorem sweep_settles {step : Dispatcher β π → List β → WithTop Int →
      Dispatcher β π × Except PyError (WithTop Int)} {Q A : Dispatcher β π → Prop}
    (hother : ∀ j, c ≠ j → ∀ d next, Beside c now d (step d j next).1)
    (hreturn : ∀ d j next, Q d → ∃ next', (step d j next).2 = .ok next')
    (hkeep : ∀ d j next, Q d → Q (step d j next).1)
    (hbeside : ∀ d d', Beside c now d d' → A d → A d')
    (hat : ∀ d next, Q d → A (step d c next).1) {cids : List (List β)} (hnodup : cids.Nodup)
    (hout : c ∉ cids → A d) (h : Q d) (next : WithTop Int) : A (sweep step d cids next).1 := by
  obtain ⟨-, hno, hin⟩ := sweep_at hother hreturn hkeep hnodup h next
  by_cases hc : c ∈ cids
  · obtain ⟨d₁, next₁, hq, -, hb⟩ := hin hc
    exact hbeside _ _ hb (hat d₁ next₁ hq)
  · exact hbeside _ _ (hno hc) (hout hc)

theorem updateResponder_undropped (hT : Kept (Tidy P) (fun _ => True) d) (next : WithTop Int)
    (s : Session β π) (hs : (updateResponder P now e d c next).1.responderSessions.get? c = some s) :
    s.state ≠ .dropped := by
  obtain ⟨next', hok⟩ : ∃ next', (updateResponder P now e d c next).2 = .ok next' :=
    (updateResponder_at hT c next).1
  unfold updateResponder at hs hok
  split at hs
  · rename_i hnone
    rw [hnone] at hs
    cases hs
  · rename_i s₀ h₀
    simp only [h₀] at hok
    rcases hu : s₀.update P now e with ⟨s', x | ⟨r, deadline⟩⟩ <;> simp only [hu] at hs hok
    · split at hs
      · simp [dropResponder] at hs
      · rename_i hx
        rw [if_neg hx] at hok
        cases hok
    · split at hs
      · simp [Dispatcher.promote] at hs
      · split at hs
        · simp [dropResponder] at hs
        · rename_i hd
          simp only [Dict.get?_set_self, Option.some.injEq] at hs
          subst hs
          exact hd

theorem crankForks_undropped (P : Primitives β π) (now : Int) (e : Entropy β)
    (forks : List (Session β π)) (next : WithTop Int) :
    ∀ fork ∈ (crankForks P now e forks next).2.1, fork.state ≠ .dropped := by
  induction forks generalizing next with
  | nil => simp [crankForks]
  | cons fork rest ih =>
    unfold crankForks
    rcases fork.update P now e with ⟨fork', x | ⟨r, deadline⟩⟩
    · have hrest := ih next
      simp only
      split
      · exact hrest
      · simp
    · have hrest := ih (min next deadline)
      simp only
      split
      · simp
      · split
        · exact hrest
        · rename_i hd
          exact List.forall_mem_cons.mpr ⟨hd, hrest⟩

theorem updateForks_undropped (hT : Kept (Tidy P) (fun _ => True) d) (next : WithTop Int)
    (forks : List (Session β π))
    (hf : (updateForks P now e d c next).1.initiatorForks.get? c = some forks) :
    forks ≠ [] ∧ ∀ fork ∈ forks, fork.state ≠ .dropped := by
  unfold updateForks at hf
  split at hf
  · rename_i hnone
    rw [hnone] at hf
    cases hf
  · rename_i forks₀ h₀
    obtain ⟨hopen, -, -⟩ : (crankForks P now e forks₀ next).2.2.1 = .open ∧ _ ∧ _ :=
      crankForks_at (hT.fork c forks₀ h₀) next
    have hlive := crankForks_undropped P now e forks₀ next
    rcases hc : crankForks P now e forks₀ next with ⟨forks', surviving, contest, next'⟩
    rw [hc] at hopen hlive
    cases hopen
    simp only [hc] at hf
    cases surviving with
    | nil => simp at hf
    | cons fork rest =>
      simp only [Dict.get?_set_self, Option.some.injEq] at hf
      subst hf
      exact ⟨by simp, hlive⟩

theorem updateForks_responders (d : Dispatcher β π) (next : WithTop Int) {j : List β}
    {s : Session β π}
    (hs : (updateForks P now e d c next).1.responderSessions.get? j = some s) :
    d.responderSessions.get? j = some s := by
  unfold updateForks at hs
  split at hs
  · exact hs
  · rename_i forks _
    rcases hc : crankForks P now e forks next with ⟨forks', surviving, contest, next'⟩
    rw [hc] at hs
    cases contest with
    | raised x => exact hs
    | won winner => exact Dict.get?_of_erase hs
    | «open» => cases surviving <;> exact hs

theorem undropped_crank (hP : P.Correct) (hT : Kept (Tidy P) (fun _ => True) d)
    {next : WithTop Int} (hok : (d.crank P now e).2 = .ok next) :
    Undropped (d.crank P now e).1 := by
  have htidy : ∀ c t (s : Session β π), t ≠ .template → Tidy P c t s →
      Left (Tidy P) c t (s.update P now e) := fun _ _ _ ht hs => tidy_update hP hs ht
  have hT₁ : Kept (Tidy P) (fun _ => True)
      (sweep (updateEstablished P now e) d d.established.keys ⊤).1 :=
    sweep_keeps (Q := Kept (Tidy P) (fun _ => True))
      (fun d' j next' hk => updateEstablished_kept tidy_handled htidy hk j next') d.established.keys ⊤ hT
  unfold crank at hok ⊢
  rcases hd₁ : sweep (updateEstablished P now e) d d.established.keys ⊤ with ⟨d₁, x | next₁⟩ <;>
    rw [hd₁] at hT₁ <;> simp only [hd₁] at hok ⊢
  · cases hok
  have hkeep₂ : ∀ (d' : Dispatcher β π) j next', Kept (Tidy P) (fun _ => True) d' →
      Kept (Tidy P) (fun _ => True) (updateResponder P now e d' j next').1 :=
    fun d' j next' hk => updateResponder_kept tidy_handled htidy hk j next'
  have hT₂ := sweep_keeps (Q := Kept (Tidy P) (fun _ => True)) hkeep₂ d₁.responderSessions.keys
    next₁ hT₁
  have hresponder : ∀ c s, (sweep (updateResponder P now e) d₁ d₁.responderSessions.keys
      next₁).1.responderSessions.get? c = some s → s.state ≠ .dropped := by
    intro c
    refine sweep_settles
      (A := fun d' => ∀ s, d'.responderSessions.get? c = some s → s.state ≠ .dropped)
      (fun j hj d' next' => beside_updateResponder hj d' next')
      (fun d' j next' hk => (updateResponder_at hk j next').1) hkeep₂ (fun d' d'' hb h s hs => ?_)
      (fun d' next' hk => updateResponder_undropped hk next') d₁.responderSessions.nodup
      (fun hc s hs => ?_) hT₁ next₁
    · rw [hb.responder] at hs
      exact h s hs
    · rw [Dict.get?_eq_none_iff.mpr hc] at hs
      cases hs
  rcases hd₂ : sweep (updateResponder P now e) d₁ d₁.responderSessions.keys next₁ with
    ⟨d₂, x | next₂⟩ <;> rw [hd₂] at hT₂ hresponder <;> simp only [hd₂] at hok ⊢
  · cases hok
  constructor
  · exact sweep_keeps
      (Q := fun d' : Dispatcher β π => ∀ c s, d'.responderSessions.get? c = some s → s.state ≠ .dropped)
      (fun d' j next' hk c s hs => hk c s (updateForks_responders d' next' hs))
      d₂.initiatorForks.keys next₂ hresponder
  · intro c
    refine sweep_settles (Q := Kept (Tidy P) (fun _ => True))
      (A := fun d' => ∀ forks, d'.initiatorForks.get? c = some forks →
        forks ≠ [] ∧ ∀ fork ∈ forks, fork.state ≠ .dropped)
      (fun j hj d' next' => beside_updateForks hj d' next')
      (fun d' j next' hk => (updateForks_at hk j next').1)
      (fun d' j next' hk => updateForks_kept tidy_handled htidy hk j next')
      (fun d' d'' hb h forks hf => ?_) (fun d' next' hk => updateForks_undropped hk next')
      d₂.initiatorForks.nodup (fun hc forks hf => ?_) hT₂ next₂
    · rw [hb.fork] at hf
      exact h forks hf
    · rw [Dict.get?_eq_none_iff.mpr hc] at hf
      cases hf

/-- The crank takes back the entries of a cid or none. -/
theorem updateResponder_candidates (d : Dispatcher β π) (next : WithTop Int) :
    (updateResponder P now e d c next).1.candidates = d.candidates ∨
      (updateResponder P now e d c next).1.candidates = d.candidates.discard c := by
  unfold updateResponder
  split
  · exact .inl rfl
  · rename_i s _
    rcases s.update P now e with ⟨s', x | ⟨r, deadline⟩⟩
    · simp only
      split
      · exact .inr rfl
      · exact .inl rfl
    · simp only
      split
      · exact .inr rfl
      · split
        · exact .inr rfl
        · exact .inl rfl

theorem updateForks_candidates (d : Dispatcher β π) (next : WithTop Int) :
    (updateForks P now e d c next).1.candidates = d.candidates ∨
      (updateForks P now e d c next).1.candidates = d.candidates.discard c := by
  unfold updateForks
  split
  · exact .inl rfl
  · rename_i forks _
    rcases crankForks P now e forks next with ⟨forks', surviving, contest, next'⟩
    cases contest with
    | raised x => exact .inl rfl
    | won winner => exact .inr rfl
    | «open» =>
      cases surviving with
      | nil => exact .inr rfl
      | cons fork rest => exact .inl rfl

/-- What a crank keeps of the store, if its sweep of what has expired does and discarding does. -/
theorem update_keeps {R : CandidateStore β π → Prop} (hdiscard : ∀ st c, R st → R (st.discard c))
    (hexpire : R (d.candidates.expire now)) (e : Entropy β) :
    R (d.update P now e).1.candidates := by
  rw [update_fst]
  have hrec : R ({ d with candidates := d.candidates.expire now } :
      Dispatcher β π).reconcileExpiredCandidates.candidates := by
    rw [(reconciled _ []).candidates]
    exact hexpire
  generalize ({ d with candidates := d.candidates.expire now } :
    Dispatcher β π).reconcileExpiredCandidates = d₀ at hrec
  have hor : ∀ {d₁ d₂ : Dispatcher β π} {c : List β}, R d₁.candidates →
      d₂.candidates = d₁.candidates ∨ d₂.candidates = d₁.candidates.discard c → R d₂.candidates := by
    intro d₁ d₂ c hk hst
    obtain hst | hst := hst
    · rwa [hst]
    · rw [hst]
      exact hdiscard _ c hk
  have h₁ : R (sweep (updateEstablished P now e) d₀ d₀.established.keys ⊤).1.candidates :=
    sweep_keeps (Q := fun d' => R d'.candidates) (fun d' c next hk => by
      rw [(updateEstablished_frame d' c next).2.2]
      exact hk) d₀.established.keys ⊤ hrec
  unfold crank
  split
  · rename_i hd₁
    rwa [hd₁] at h₁
  · rename_i d₁ next₁ hd₁
    rw [hd₁] at h₁
    have h₂ : R (sweep (updateResponder P now e) d₁ d₁.responderSessions.keys next₁).1.candidates :=
      sweep_keeps (Q := fun d' => R d'.candidates)
        (fun d' c next hk => hor hk (updateResponder_candidates d' next))
        d₁.responderSessions.keys next₁ h₁
    split
    · rename_i hd₂
      rwa [hd₂] at h₂
    · rename_i d₂ next₂ hd₂
      rw [hd₂] at h₂
      exact sweep_keeps (Q := fun d' => R d'.candidates)
        (fun d' c next hk => hor hk (updateForks_candidates d' next)) d₂.initiatorForks.keys next₂ h₂

theorem unexpired_update (d : Dispatcher β π) (now : Int) (e : Entropy β) :
    ∀ c, ∀ entry ∈ (d.update P now e).1.candidates.candidatesFor c, now < entry.expiresAt := by
  refine update_keeps (R := fun st => ∀ c, ∀ entry ∈ st.candidatesFor c, now < entry.expiresAt)
    (fun st j h c entry hentry => ?_) (fun c entry hentry => ?_) e
  · by_cases hc : c = j
    · subst hc
      simp [candidatesFor, CandidateStore.discard] at hentry
    · rw [candidatesFor_discard st hc] at hentry
      exact h c entry hentry
  · rw [candidatesFor_expire, survivors, List.mem_filter] at hentry
    simpa [HandshakeCandidate.isExpired] using hentry.2

theorem tallies_step {limits : CandidateLimits} (h : d.candidates.Tallies limits) (op : Op β π) :
    (d.step P op).candidates.Tallies limits := by
  cases op with
  | initiate own peer now e =>
    exact (touches_initiate (O := fun _ => True) now d own peer e fun _ _ _ _ => trivial).tallies limits h
  | postPdu der now e =>
    cases hl : P.load der with
    | error x =>
      simp only [step, postPdu, hl]
      exact h
    | ok msg =>
      exact (touches_postPdu (O := fun _ => True) hl d fun _ _ _ _ => trivial).tallies limits h
  | postPayload c payload =>
    exact (touches_postPayload (O := fun _ => True) 0 d c payload).tallies limits h
  | getPdu =>
    simp only [step, getPdu]
    split <;> exact h
  | getPayload =>
    simp only [step, getPayload]
    split <;> exact h
  | close c => exact h
  | update now e =>
    exact update_keeps (R := fun st => st.Tallies limits) (fun _ c ht => ht.discard c) (h.expire now) e

end

/-! ## Right after a crank -/

/-- The roll, and for the responder session of each cid the PDU that opened it and when. -/
structure Register (β π : Type) extends Roll β π where
  opening : List β → Option (π × Int) := fun _ => none

def Register.start (keys : KeyLookup β) (config : SessionConfig) (limits : CandidateLimits) :
    Register β π := { toRoll := Roll.start keys config limits }

/-- What an entry of the cid is for, right after a crank at `now`: for a response that has
opened a fork within the TTL, in which case the cid still has forks, or else for the PDU that
opened the responder session of the cid, which has been in the table since. -/
structure Register.Entitled (P : Primitives β π) (ttl now : Int) (w : Register β π) (c : List β)
    (entry : HandshakeCandidate β π) : Prop where
  unexpired : now < entry.expiresAt
  response : isResponse P entry.receivedPdu →
    (∃ f ∈ w.forks, f.cid = c ∧ f.response = entry.receivedPdu ∧
      entry.expiresAt = f.openedAt + ttl) ∧ w.dispatcher.initiatorForks.get? c ≠ none
  request : isResponse P entry.receivedPdu = false →
    (∃ openedAt, w.opening c = some (entry.receivedPdu, openedAt) ∧
      entry.expiresAt = openedAt + ttl) ∧ w.dispatcher.responderSessions.get? c ≠ none

section
variable [DecidableEq π] {P : Primitives β π} {w : Register β π} {limits : CandidateLimits}
  {now : Int} {e : Entropy β}

/-- By cid, what opened the responder session that the call leaves. -/
def openings (P : Primitives β π) (d : Dispatcher β π) (opening : List β → Option (π × Int))
    (op : Op β π) (c : List β) : Option (π × Int) :=
  match (d.step P op).responderSessions.get? c, d.responderSessions.get? c, op with
  | some _, some _, _ => opening c
  | some _, none, .postPdu der now _ => some (der, now)
  | _, _, _ => none

def Register.perform (P : Primitives β π) (w : Register β π) (op : Op β π) : Register β π where
  toRoll := w.toRoll.perform P op
  opening := w.dispatcher.openings P w.opening op

def Register.performAll (P : Primitives β π) (w : Register β π) (ops : List (Op β π)) :
    Register β π :=
  ops.foldl (Register.perform P) w

/-- The entry for a PDU that is no response is that of the session it has opened. -/
def Register.Allows (P : Primitives β π) (ttl : Int) (w : Register β π) (c : List β)
    (r : π × Int) : Prop :=
  isResponse P r.1 = false → ∃ openedAt, w.opening c = some (r.1, openedAt) ∧ r.2 = openedAt + ttl

/-- What holds of the register in every run. -/
structure Register.Sound (P : Primitives β π) (limits : CandidateLimits) (w : Register β π) :
    Prop where
  backed : w.toRoll.Backed P limits
  manned : Manned P (w.Allows P limits.ttlSeconds) w.dispatcher
  tallies : w.dispatcher.candidates.Tallies limits

/-- A session that was there and is there keeps its opening, and one that was not has been
opened by the call. -/
theorem Register.Sound.perform (hP : P.Correct) (h : w.Sound P limits) (op : Op β π) :
    (w.perform P op).Sound P limits := by
  -- An entry is an old one, whose session was there before, or that of a session not there.
  let O : List β → π × Int → Prop := fun c r => isResponse P r.1 = false →
    ((∃ openedAt, w.opening c = some (r.1, openedAt) ∧ r.2 = openedAt + limits.ttlSeconds) ∧
      w.dispatcher.responderSessions.get? c ≠ none) ∨
    ∃ now e, op = .postPdu r.1 now e ∧ r.2 = now + limits.ttlSeconds ∧
      w.dispatcher.responderSessions.get? c = none
  have hold : Manned P O w.dispatcher :=
    h.manned.mono fun c r hallows hpresent hr => .inl ⟨hallows hr, hpresent hr⟩
  have hstep : Manned P O (w.dispatcher.step P op) := by
    refine manned_step h.backed.tidy hold op fun der now e c hop habsent hr => ?_
    exact .inr ⟨now, e, hop, by rw [h.backed.fixed], habsent hr⟩
  refine ⟨h.backed.perform hP op, hstep.mono fun c r hallowed hpresent hr => ?_,
    tallies_step h.tallies op⟩
  obtain ⟨s', hs'⟩ := Option.ne_none_iff_exists'.mp (hpresent hr)
  obtain ⟨⟨openedAt, hopening, hexpires⟩, hwas⟩ | ⟨now, e, rfl, hexpires, hwas⟩ := hallowed hr
  · obtain ⟨s, hs⟩ := Option.ne_none_iff_exists'.mp hwas
    refine ⟨openedAt, ?_, hexpires⟩
    simp only [Register.perform, openings, hs', hs, hopening]
  · refine ⟨now, ?_, hexpires⟩
    simp only [Register.perform, openings, hs', hwas]

theorem Register.Sound.performAll (hP : P.Correct) (h : w.Sound P limits) (ops : List (Op β π)) :
    (w.performAll P ops).Sound P limits := by
  induction ops generalizing w with
  | nil => exact h
  | cons op rest ih => exact ih (h.perform hP op)

omit [DecidableEq π] in
theorem Register.sound_start (keys : KeyLookup β) (config : SessionConfig)
    (limits : CandidateLimits) : (Register.start keys config limits).Sound P limits :=
  ⟨Roll.backed_start keys config limits, manned_new keys config limits, tallies_new limits⟩

omit [DecidableEq π] in
/-- Where nothing has expired, a refusal means that a cap is reached. -/
theorem full_of_refused {d : Dispatcher β π} {c : List β} (ht : d.candidates.Tallies limits)
    (hlive : ∀ entry ∈ d.candidates.candidatesFor c, now < entry.expiresAt)
    (hno : ¬ d.candidates.Admits c now) :
    limits.maxPerCid ≤ (d.candidates.candidatesFor c).length ∨
      limits.maxTotal ≤ d.candidates.held := by
  have hsame : survivors now (d.candidates.candidatesFor c) = d.candidates.candidatesFor c := by
    rw [survivors, List.filter_eq_self]
    intro entry hentry
    simpa [HandshakeCandidate.isExpired] using hlive entry hentry
  have htotal : (d.candidates.expire now).total ≤ d.candidates.held := by
    rw [← ht.total]
    simp only [CandidateStore.expire]
    omega
  rw [Admits, candidatesFor_expire, hsame, ht.same] at hno
  omega

theorem undropped_update (hP : P.Correct) {d : Dispatcher β π}
    (hT : Kept (Tidy P) (fun _ => True) d) (hok : (d.update P now e).2.isOk) :
    Undropped (d.update P now e).1 := by
  have hT' := (hT.withCandidates (d.candidates.expire now)).reconcile
  rw [update_fst]
  unfold update at hok
  rcases hc : ({ d with candidates := d.candidates.expire now } :
    Dispatcher β π).reconcileExpiredCandidates.crank P now e with ⟨d', x | next⟩
  · simp only [hc] at hok
    cases hok
  · have hun := undropped_crank hP hT' (congrArg Prod.snd hc)
    rwa [hc] at hun

/-- Right after a crank every entry of the store is that of a cid with a session of its kind,
all of them live if the crank has returned; and a new response to a pending call is refused only
for the caps. -/
theorem slots_released (hP : P.Correct) (keys : KeyLookup β) (config : SessionConfig)
    (limits : CandidateLimits) (ops : List (Op β π)) (now : Int) (e : Entropy β) :
    let w := (Register.start keys config limits).performAll P ops
    let after := w.perform P (.update now e)
    let d := after.dispatcher
    (∀ c, ∀ entry ∈ d.candidates.candidatesFor c,
      after.Entitled P limits.ttlSeconds now c entry) ∧
    ((w.dispatcher.update P now e).2.isOk → Undropped d) ∧
    ∀ der msg e', P.load der = .ok msg → msg.payload.name = .sessionInitResponse →
      d.established.get? msg.cid = none → d.Opens msg der →
      ((d.postPdu P der now e').1.forksOf msg.cid).length ≤ (d.forksOf msg.cid).length →
      limits.maxPerCid ≤ (d.candidates.candidatesFor msg.cid).length ∨
        limits.maxTotal ≤ d.candidates.held := by
  intro w after d
  have hw : w.Sound P limits := (Register.sound_start keys config limits).performAll hP ops
  have h : after.Sound P limits := hw.perform hP (.update now e)
  have hlive : ∀ c, ∀ entry ∈ d.candidates.candidatesFor c, now < entry.expiresAt :=
    unexpired_update w.dispatcher now e
  refine ⟨fun c entry hentry => ⟨hlive c entry hentry, fun hr => ?_, fun hr => ?_⟩,
    undropped_update hP hw.backed.tidy, ?_⟩
  · have hmem : (entry.receivedPdu, entry.expiresAt) ∈ d.candidates.slots P c := by
      simp only [CandidateStore.slots, slotsIn, List.mem_map, List.mem_filter]
      exact ⟨entry, ⟨hentry, hr⟩, rfl⟩
    exact ⟨h.backed.backed c _ hmem, (h.manned c _ (List.mem_map_of_mem hentry)).2.1 hr⟩
  · obtain ⟨hallows, -, hpresent⟩ := h.manned c _ (List.mem_map_of_mem hentry)
    exact ⟨hallows hr, hpresent hr⟩
  · intro der msg e' hl hname he hopens hle
    apply full_of_refused h.tallies (hlive msg.cid)
    intro hadm
    have hslot : TakesSlot P msg.cid der now d (d.postPdu P der now e').1 :=
      takesSlot_postPdu h.backed.tidy hl he ⟨hname, hopens, hadm⟩
    rw [hslot.fork] at hle
    omega

end

/-- Three responses, of which the first two come at once; each crank is due. -/
def staggered : List (Op Sym Pdu) :=
  [.initiate (staticId 0) (staticId 1) 0 (draw 0), .postPdu (forgedResponse 1) 0 (draw 11),
    .postPdu (forgedResponse 2) 0 (draw 12), .update 5 (draw 13), .update 10 (draw 14),
    .postPdu (forgedResponse 3) 12 (draw 15)]

/-- A call of Mallory's, who is registered with Alice. -/
def malloryCall : Pdu :=
  ((Session.new .initiator (some (staticId 2)) (staticLookup 2) {}).initiate ideal (staticId 0) 12
    (draw 18)).1.outgoingPdus.headD ideal.noPdu

/-- The register after the crank at 15, with Mallory's call posted before it. -/
def staggeredRegister (limits : CandidateLimits) : Register Sym Pdu :=
  ((Register.start (staticLookup 0) {} limits).performAll ideal
    (staggered ++ [.postPdu malloryCall 12 (draw 19)])).perform ideal (.update 15 (draw 16))

/-- What the fourth response says. -/
def fourthResponse : MakeMessage Sym :=
  .build (draw 0).uuid (.sessionInitResponse { bobAnswer with nB := (draw 4).nonce })

/-- The entries left are three for responses and one for Mallory's request, and the fourth
response is refused for the cap of its cid. -/
theorem slots_released_staggered :
    let d := (staggeredRegister {}).dispatcher
    (∀ c, ∀ entry ∈ d.candidates.candidatesFor c,
      (staggeredRegister {}).Entitled ideal 60 15 c entry) ∧
    Undropped d ∧
    d.candidates.received (draw 0).uuid =
      [forgedResponse 1, forgedResponse 2, forgedResponse 3] ∧
    d.candidates.received (draw 18).uuid = [malloryCall] ∧
    (3 ≤ (d.candidates.candidatesFor (draw 0).uuid).length ∨ 1024 ≤ d.candidates.held) := by
  obtain ⟨hentries, hlive, hfull⟩ := slots_released Ideal.ideal_correct (staticLookup 0) {} {}
    (staggered ++ [.postPdu malloryCall 12 (draw 19)]) 15 (draw 16)
  refine ⟨hentries, hlive (by decide +kernel), by decide +kernel, by decide +kernel, ?_⟩
  have hload : ideal.load (forgedResponse 4) = .ok fourthResponse := by decide +kernel
  have hpending : (staggeredRegister {}).dispatcher.established.get? (draw 0).uuid = none := by
    decide +kernel
  have hopens : (staggeredRegister {}).dispatcher.Opens fourthResponse (forgedResponse 4) :=
    ⟨by decide +kernel, by decide +kernel⟩
  have hrefused : (((staggeredRegister {}).dispatcher.postPdu ideal (forgedResponse 4) 15
      (draw 17)).1.forksOf (draw 0).uuid).length ≤
        ((staggeredRegister {}).dispatcher.forksOf (draw 0).uuid).length := by decide +kernel
  exact hfull (forgedResponse 4) fourthResponse (draw 17) hload rfl hpending hopens hrefused

/-- The crank at 15 drops the first two forks and keeps the third. All three entries stay, and
a fourth response finds no room beside one fork. -/
theorem dead_forks_keep_slots :
    let w := (Roll.start (staticLookup 0) {} {}).performAll ideal staggered
    let d := (w.dispatcher.update ideal 15 (draw 16)).1
    (w.dispatcher.update ideal 15 (draw 16)).2.isOk ∧
      (d.forksOf (draw 0).uuid).map (·.lastReceived) = [some (forgedResponse 3)] ∧
      d.candidates.received (draw 0).uuid =
        [forgedResponse 1, forgedResponse 2, forgedResponse 3] ∧
      d.candidates.held = 3 ∧
      (d.postPdu ideal (forgedResponse 4) 15 (draw 17)).1.candidates.received (draw 0).uuid =
        [forgedResponse 1, forgedResponse 2, forgedResponse 3] ∧
      ((d.postPdu ideal (forgedResponse 4) 15 (draw 17)).1.forksOf (draw 0).uuid).length = 1 := by
  decide +kernel

end Dispatcher

end KemMake
