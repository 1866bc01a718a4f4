import KemMake.Tables
import KemMake.Tallies

/-!
# Calls that concern other cids

A call works on the tables of one cid. `Beside c now d d'`: under `c` the tables are as
they were, and candidates have gone only because they had expired at `now`.
`Touches j now O d d'`: so they are under every cid but `j`, and what was put on the two
queues is of `j`.
-/

namespace KemMake

namespace CandidateStore
variable {β π : Type}

/-- Candidates have expired, none of them later than `now`. -/
def Fades (now : Int) (l l' : List (HandshakeCandidate β π)) : Prop :=
  l' = l ∨ ∃ t ≤ now, l' = survivors t l

variable {now t : Int} {l l' l'' : List (HandshakeCandidate β π)}

theorem survivors_survivors (t u : Int) (l : List (HandshakeCandidate β π)) :
    survivors u (survivors t l) = survivors (max t u) l := by
  simp only [survivors, List.filter_filter]
  apply List.filter_congr
  intro c _
  simp only [HandshakeCandidate.isExpired, ge_iff_le, ← decide_not, ← Bool.decide_and]
  apply decide_eq_decide.mpr
  omega

theorem Fades.trans (h : Fades now l l') (h' : Fades now l' l'') : Fades now l l'' := by
  obtain rfl | ⟨t, ht, rfl⟩ := h
  · exact h'
  · obtain rfl | ⟨u, hu, rfl⟩ := h'
    · exact .inr ⟨t, ht, rfl⟩
    · exact .inr ⟨max t u, by omega, survivors_survivors t u l⟩

theorem Fades.mono (h : Fades t l l') (hle : t ≤ now) : Fades now l l' := by
  obtain heq | ⟨u, hu, heq⟩ := h
  · exact .inl heq
  · exact .inr ⟨u, by omega, heq⟩

/-- Once all that had expired then is gone, nothing has changed. -/
theorem Fades.survivors (h : Fades now l l') (hle : now ≤ t) :
    CandidateStore.survivors t l' = CandidateStore.survivors t l := by
  obtain rfl | ⟨u, hu, rfl⟩ := h
  · rfl
  · rw [survivors_survivors, Int.max_eq_right (by omega)]

theorem Fades.sublist (h : Fades now l l') : l'.Sublist l := by
  obtain rfl | ⟨u, _, rfl⟩ := h
  · exact List.Sublist.refl l'
  · exact List.filter_sublist

/-- Nothing fades where nothing has expired. -/
theorem Fades.fixed (h : Fades now l l') (hl : CandidateStore.survivors now l = l) : l' = l := by
  have hs := h.survivors (Int.le_refl now)
  rw [hl] at hs
  apply h.sublist.eq_of_length_le
  rw [← hs]
  exact List.length_filter_le _ _

theorem Fades.nil (h : Fades now l l') (hl : l = []) : l' = [] := by
  have hs := h.sublist
  rw [hl] at hs
  exact List.sublist_nil.mp hs

end CandidateStore

namespace Dispatcher
open CandidateStore
variable {β π : Type} [DecidableEq β]

structure Beside (c : List β) (now : Int) (d d' : Dispatcher β π) : Prop where
  keys : d'.keys = d.keys
  config : d'.config = d.config
  limits : d'.candidates.limits = d.candidates.limits
  established : d'.established.get? c = d.established.get? c
  responder : d'.responderSessions.get? c = d.responderSessions.get? c
  template : d'.initiatorTemplates.get? c = d.initiatorTemplates.get? c
  fork : d'.initiatorForks.get? c = d.initiatorForks.get? c
  candidates : Fades now (d.candidates.candidatesFor c) (d'.candidates.candidatesFor c)

section
variable {c j : List β} {now : Int} {d d₁ d₂ : Dispatcher β π} {s : Session β π}

theorem beside_refl (d : Dispatcher β π) : Beside c now d d :=
  ⟨rfl, rfl, rfl, rfl, rfl, rfl, rfl, .inl rfl⟩

theorem Beside.trans (h₁ : Beside c now d d₁) (h₂ : Beside c now d₁ d₂) : Beside c now d d₂ :=
  ⟨h₂.keys.trans h₁.keys, h₂.config.trans h₁.config, h₂.limits.trans h₁.limits,
    h₂.established.trans h₁.established, h₂.responder.trans h₁.responder,
    h₂.template.trans h₁.template, h₂.fork.trans h₁.fork, h₁.candidates.trans h₂.candidates⟩

end

/-- The entries of the cid that `now` leaves. -/
def live (d : Dispatcher β π) (now : Int) (c : List β) : Nat :=
  (survivors now (d.candidates.candidatesFor c)).length

theorem Beside.live {c : List β} {now t : Int} {d d' : Dispatcher β π} (h : Beside c now d d')
    (ht : now ≤ t) : d'.live t c = d.live t c :=
  congrArg List.length (h.candidates.survivors ht)

/-- The session has only PDUs of the kind `O` to send. -/
def Emits (O : π → Prop) (s : Session β π) : Prop := ∀ pdu ∈ s.outgoingPdus, O pdu

/-- Works under `j` alone, and adds PDUs of the kind `O` and payloads of `j`. -/
structure Touches (j : List β) (now : Int) (O : π → Prop) (d d' : Dispatcher β π) : Prop where
  beside : ∀ c, c ≠ j → Beside c now d d'
  keys : d'.keys = d.keys
  config : d'.config = d.config
  limits : d'.candidates.limits = d.candidates.limits
  tallies : ∀ limits, d.candidates.Tallies limits → d'.candidates.Tallies limits
  pdus : ∃ made, d'.outgoingPdus = d.outgoingPdus ++ made ∧ ∀ pdu ∈ made, O pdu
  payloads : ∃ made, d'.outgoingPayloads = d.outgoingPayloads ++ made ∧ ∀ p ∈ made, p.1 = j

section
variable {c j : List β} {now : Int} {O : π → Prop} {d d₁ d₂ : Dispatcher β π} {s : Session β π}

/-- Nothing is put on the queues, and the entries of the store stay or are discarded. -/
theorem touches_quiet {d d' : Dispatcher β π} (hb : ∀ c, c ≠ j → Beside c now d d')
    (hst : d'.candidates = d.candidates ∨ d'.candidates = d.candidates.discard j)
    (hk : d'.keys = d.keys ∧ d'.config = d.config)
    (hq : d'.outgoingPdus = d.outgoingPdus ∧ d'.outgoingPayloads = d.outgoingPayloads) :
    Touches j now O d d' := by
  refine ⟨hb, hk.1, hk.2, ?_, fun limits ht => ?_, ⟨[], by simp [hq.1]⟩, ⟨[], by simp [hq.2]⟩⟩
  · obtain hst | hst := hst <;> rw [hst]
    rfl
  · obtain hst | hst := hst <;> rw [hst]
    · exact ht
    · exact ht.discard j

theorem touches_refl (d : Dispatcher β π) : Touches j now O d d :=
  touches_quiet (fun _ _ => beside_refl d) (.inl rfl) ⟨rfl, rfl⟩ ⟨rfl, rfl⟩

theorem Touches.trans (h₁ : Touches j now O d d₁) (h₂ : Touches j now O d₁ d₂) :
    Touches j now O d d₂ := by
  obtain ⟨made₁, hm₁, hO₁⟩ := h₁.pdus
  obtain ⟨made₂, hm₂, hO₂⟩ := h₂.pdus
  obtain ⟨tags₁, ht₁, hj₁⟩ := h₁.payloads
  obtain ⟨tags₂, ht₂, hj₂⟩ := h₂.payloads
  refine ⟨fun c hc => (h₁.beside c hc).trans (h₂.beside c hc), h₂.keys.trans h₁.keys,
    h₂.config.trans h₁.config, h₂.limits.trans h₁.limits,
    fun limits ht => h₂.tallies limits (h₁.tallies limits ht), ⟨made₁ ++ made₂, ?_, ?_⟩,
    ⟨tags₁ ++ tags₂, ?_, ?_⟩⟩
  · rw [hm₂, hm₁, List.append_assoc]
  · exact List.forall_mem_append.mpr ⟨hO₁, hO₂⟩
  · rw [ht₂, ht₁, List.append_assoc]
  · exact List.forall_mem_append.mpr ⟨hj₁, hj₂⟩

theorem touches_drain (d : Dispatcher β π) (hs : Emits O s) (j : List β) :
    Touches j now O d (d.drain s j).1 := by
  refine ⟨fun c _ => ⟨rfl, rfl, rfl, rfl, rfl, rfl, rfl, .inl rfl⟩, rfl, rfl, rfl,
    fun limits ht => ht, ⟨s.outgoingPdus, rfl, hs⟩,
    ⟨s.outgoingPayloads.map fun p => (j, p), rfl, fun p hp => ?_⟩⟩
  obtain ⟨_, _, rfl⟩ := List.mem_map.mp hp
  rfl

theorem touches_setEstablished (d : Dispatcher β π) (j : List β) (s : Session β π) :
    Touches j now O d { d with established := d.established.set j s } :=
  touches_quiet (fun _ hc => ⟨rfl, rfl, rfl, Dict.get?_set_of_ne _ hc _, rfl, rfl, rfl, .inl rfl⟩)
    (.inl rfl) ⟨rfl, rfl⟩ ⟨rfl, rfl⟩

theorem touches_setResponder (d : Dispatcher β π) (j : List β) (s : Session β π) :
    Touches j now O d { d with responderSessions := d.responderSessions.set j s } :=
  touches_quiet (fun _ hc => ⟨rfl, rfl, rfl, rfl, Dict.get?_set_of_ne _ hc _, rfl, rfl, .inl rfl⟩)
    (.inl rfl) ⟨rfl, rfl⟩ ⟨rfl, rfl⟩

theorem touches_setTemplate (d : Dispatcher β π) (j : List β) (s : Session β π) :
    Touches j now O d { d with initiatorTemplates := d.initiatorTemplates.set j s } :=
  touches_quiet (fun _ hc => ⟨rfl, rfl, rfl, rfl, rfl, Dict.get?_set_of_ne _ hc _, rfl, .inl rfl⟩)
    (.inl rfl) ⟨rfl, rfl⟩ ⟨rfl, rfl⟩

theorem touches_setForks (d : Dispatcher β π) (j : List β) (forks : List (Session β π)) :
    Touches j now O d { d with initiatorForks := d.initiatorForks.set j forks } :=
  touches_quiet (fun _ hc => ⟨rfl, rfl, rfl, rfl, rfl, rfl, Dict.get?_set_of_ne _ hc _, .inl rfl⟩)
    (.inl rfl) ⟨rfl, rfl⟩ ⟨rfl, rfl⟩

theorem touches_promote (d : Dispatcher β π) (j : List β) (s : Session β π) :
    Touches j now O d (d.promote j s) :=
  touches_quiet (fun _ hc => ⟨rfl, rfl, rfl, Dict.get?_set_of_ne _ hc _, Dict.get?_erase_of_ne _ hc,
    Dict.get?_erase_of_ne _ hc, Dict.get?_erase_of_ne _ hc, .inl (candidatesFor_discard _ hc)⟩)
    (.inr rfl) ⟨rfl, rfl⟩ ⟨rfl, rfl⟩

theorem touches_dropResponder (d : Dispatcher β π) (j : List β) :
    Touches j now O d (d.dropResponder j) :=
  touches_quiet (fun _ hc => ⟨rfl, rfl, rfl, rfl, Dict.get?_erase_of_ne _ hc, rfl, rfl,
    .inl (candidatesFor_discard _ hc)⟩) (.inr rfl) ⟨rfl, rfl⟩ ⟨rfl, rfl⟩

theorem touches_dropForks (d : Dispatcher β π) (j : List β) :
    Touches j now O d { d with
      initiatorForks := d.initiatorForks.erase j
      initiatorTemplates := d.initiatorTemplates.erase j
      candidates := d.candidates.discard j } :=
  touches_quiet (fun _ hc => ⟨rfl, rfl, rfl, rfl, rfl, Dict.get?_erase_of_ne _ hc,
    Dict.get?_erase_of_ne _ hc, .inl (candidatesFor_discard _ hc)⟩) (.inr rfl) ⟨rfl, rfl⟩ ⟨rfl, rfl⟩

theorem touches_reapResponder (d : Dispatcher β π)
    (hO : ∀ s, d.responderSessions.get? j = some s → Emits O s) :
    Touches j now O d (d.reapResponder j) := by
  unfold reapResponder
  split
  · exact touches_refl d
  · rename_i s hs
    split
    · exact (touches_drain d (hO s hs) j).trans (touches_promote _ j _)
    · split
      · exact touches_dropResponder d j
      · exact touches_refl d

theorem touches_modify (d : Dispatcher β π) (j : List β)
    {f : List (HandshakeCandidate β π) → List (HandshakeCandidate β π)}
    (hf : ∀ l, (f l).length = l.length) :
    Touches j now O d { d with candidates := d.candidates.modify j f } := by
  have hl : (d.candidates.modify j f).limits = d.candidates.limits := by
    simp only [CandidateStore.modify]
    split <;> rfl
  exact ⟨fun c hc => ⟨rfl, rfl, hl, rfl, rfl, rfl, rfl, .inl (candidatesFor_modify _ hc f)⟩, rfl, rfl,
    hl, fun _ ht => ht.modify j hf, ⟨[], by simp⟩, ⟨[], by simp⟩⟩

theorem touches_add (d : Dispatcher β π) (j : List β) (receivedPdu sentPdu : π) (now : Int) :
    Touches j now O d { d with candidates := (d.candidates.add j receivedPdu sentPdu now).1 } := by
  have hl : (d.candidates.add j receivedPdu sentPdu now).1.limits = d.candidates.limits := by
    simp only [CandidateStore.add]
    split
    · rfl
    · split <;> rfl
  exact ⟨fun c hc => ⟨rfl, rfl, hl, rfl, rfl, rfl, rfl,
    .inr ⟨now, le_refl now, candidatesFor_add _ hc receivedPdu sentPdu now⟩⟩, rfl, rfl, hl,
    fun _ ht => ht.add j receivedPdu sentPdu now, ⟨[], by simp⟩, ⟨[], by simp⟩⟩

end

section
variable {P : Primitives β π} [DecidableEq π] {d : Dispatcher β π} {s : Session β π} {der : π}
  {now : Int} {e : Entropy β} {O : π → Prop} {c j : List β}

theorem touches_deliver (d : Dispatcher β π) (hs : Emits O ((s.postPdu der).update P now e).1)
    (j : List β) : Touches j now O d (d.deliver P s der now j e).1 := by
  obtain ⟨x, _, _, hd⟩ | ⟨_, hd⟩ := deliver_cases P d s der now j e
  · rw [hd]
    exact touches_refl d
  · rw [hd]
    exact touches_drain d hs j

/-- What a delivery that returns leaves in the session. -/
theorem deliver_emptied {d d' : Dispatcher β π} {s' : Session β π}
    (h : d.deliver P s der now j e = (d', s', none)) : s'.outgoingPdus = [] := by
  obtain ⟨x, _, _, hd⟩ | ⟨_, hd⟩ := deliver_cases P d s der now j e
  · rw [hd] at h
    cases h
  · rw [hd] at h
    cases h
    rfl

theorem touches_deliverEstablished (d : Dispatcher β π) (j : List β)
    (hs : Emits O ((s.postPdu der).update P now e).1) :
    Touches j now O d (d.deliverEstablished P s der now j e).1 :=
  (touches_deliver d hs j).trans (touches_setEstablished _ j _)

theorem touches_deliverResponder (d : Dispatcher β π) (j : List β)
    (hs : Emits O ((s.postPdu der).update P now e).1) :
    Touches j now O d (d.deliverResponder P s der now j e).1 := by
  have hd : Touches j now O d _ := touches_deliver d hs j
  unfold deliverResponder
  rcases hu : d.deliver P s der now j e with ⟨d', s', _ | x⟩ <;> rw [hu] at hd
  · refine (hd.trans (touches_setResponder d' j _)).trans (touches_reapResponder _ fun s₁ hs₁ => ?_)
    rw [Dict.get?_set_self] at hs₁
    cases hs₁
    simp [Emits, deliver_emptied hu]
  · exact hd.trans (touches_setResponder d' j _)

theorem touches_openResponder (d : Dispatcher β π) (j : List β)
    (hs : Emits O (((Session.new .responder none d.keys d.config).postPdu der).update P now e).1) :
    Touches j now O d (d.openResponder P der now j e).1 := by
  have ha : Touches j now O d _ := touches_add d j der P.noPdu now
  unfold openResponder
  rcases hc : d.candidates.add j der P.noPdu now with ⟨candidates, x | candidate⟩ <;> rw [hc] at ha
  · exact ha
  · have hd := ha.trans (touches_deliver { d with candidates } hs j)
    simp only
    rcases hu : Dispatcher.deliver P { d with candidates } (.new .responder none d.keys d.config) der
      now j e with ⟨d', s', _ | x⟩ <;> rw [hu] at hd
    · have hset := hd.trans (touches_setResponder d' j s')
      simp only
      split
      · exact hset.trans (touches_dropResponder _ j)
      · refine Touches.trans ?_ (touches_reapResponder _ fun s₁ hs₁ => ?_)
        · split
          · exact hset.trans (touches_modify _ j fun l => by cases l <;> rfl)
          · exact hset
        · have hs' : (d'.responderSessions.set j s').get? j = some s₁ := by
            split at hs₁ <;> exact hs₁
          rw [Dict.get?_set_self] at hs'
          cases hs'
          simp [Emits, deliver_emptied hu]
    · exact hd.trans (touches_setResponder d' j _)

theorem touches_resendFork {forks : List (Session β π)}
    (hs : ∀ fork ∈ forks, Emits O ((fork.postPdu der).update P now e).1)
    {r : Dispatcher β π × List (Session β π) × Option PyError}
    (hr : d.resendFork P der now j e forks = some r) : Touches j now O d r.1 := by
  induction forks generalizing r with
  | nil => cases hr
  | cons fork rest ih =>
    obtain ⟨hfork, hrest⟩ := List.forall_mem_cons.mp hs
    unfold resendFork at hr
    split at hr
    · cases hr
      exact touches_deliver d hfork j
    · cases hrec : d.resendFork P der now j e rest with
      | none => simp [hrec] at hr
      | some q =>
        rw [hrec] at hr
        cases hr
        have hq : Touches j now O d q.1 := ih hrest hrec
        exact hq

theorem touches_openFork (d : Dispatcher β π) (j : List β) {template : Session β π}
    (hs : ∀ twin, template.fork = .ok twin → Emits O ((twin.postPdu der).update P now e).1) :
    Touches j now O d (d.openFork P template der now j e).1 := by
  have ha : Touches j now O d _ := touches_add d j der P.noPdu now
  unfold openFork
  rcases hc : d.candidates.add j der P.noPdu now with ⟨candidates, x | candidate⟩ <;> rw [hc] at ha
  · exact ha
  · simp only
    split
    · exact ha
    · rename_i twin htwin
      have hd := ha.trans (touches_deliver { d with candidates } (hs twin htwin) j)
      rcases hu : Dispatcher.deliver P { d with candidates } twin der now j e with ⟨d', s', _ | x⟩ <;>
        rw [hu] at hd
      · exact (hd.trans (touches_setForks d' j _)).trans (touches_modify _ j fun l => List.length_map _)
      · exact hd.trans (touches_setForks d' j _)

theorem offer_winner {forks forks' : List (Session β π)} {winner : Session β π}
    (h : offer P der now e forks = (forks', .won winner)) :
    ∃ fork ∈ forks, winner = ((fork.postPdu der).update P now e).1 := by
  induction forks generalizing forks' with
  | nil => cases h
  | cons fork rest ih =>
    unfold offer at h
    rcases hu : (fork.postPdu der).update P now e with ⟨s', x | r⟩ <;> simp only [hu] at h
    · split at h
      · rcases hrec : offer P der now e rest with ⟨rest', contest⟩
        rw [hrec] at h
        cases h
        obtain ⟨fork', hmem, hwin⟩ := ih hrec
        exact ⟨fork', List.mem_cons_of_mem _ hmem, hwin⟩
      · cases h
    · split at h
      · cases h
        exact ⟨fork, List.mem_cons_self, by rw [hu]⟩
      · rcases hrec : offer P der now e rest with ⟨rest', contest⟩
        rw [hrec] at h
        cases h
        obtain ⟨fork', hmem, hwin⟩ := ih hrec
        exact ⟨fork', List.mem_cons_of_mem _ hmem, hwin⟩

theorem touches_routeToForks (d : Dispatcher β π) (j : List β) {forks : List (Session β π)}
    (hs : ∀ fork ∈ forks, Emits O ((fork.postPdu der).update P now e).1) :
    Touches j now O d (d.routeToForks P j forks der now e).1 := by
  unfold routeToForks
  rcases ho : offer P der now e forks with ⟨forks', contest⟩
  cases contest with
  | «open» => exact touches_setForks d j _
  | raised x => exact touches_setForks d j _
  | won winner =>
    obtain ⟨fork, hmem, hwin⟩ := offer_winner ho
    have hdrain : Touches j now O { d with initiatorForks := d.initiatorForks.set j forks' } _ :=
      touches_drain _ (hwin ▸ hs fork hmem) j
    exact ((touches_setForks d j _).trans hdrain).trans (touches_promote _ j _)

/-- The sessions of the cid that can be given the PDU. -/
def Receives (d : Dispatcher β π) (c : List β) (s : Session β π) : Prop :=
  (∃ t ≠ .template, d.Holds c t s) ∨
    (∃ template, d.Holds c .template template ∧ template.fork = .ok s) ∨
    s = .new .responder none d.keys d.config

omit [DecidableEq π] in
theorem Receives.fork {forks : List (Session β π)} (hf : d.initiatorForks.get? c = some forks)
    (hs : s ∈ forks) : d.Receives c s :=
  .inl ⟨.fork, by simp, forks, hf, hs⟩

/-- A PDU works on its own cid. -/
theorem touches_postPdu {msg : MakeMessage β} (hl : P.load der = .ok msg) (d : Dispatcher β π)
    (hs : ∀ s, d.Receives msg.cid s → Emits O ((s.postPdu der).update P now e).1) :
    Touches msg.cid now O d (d.postPdu P der now e).1 := by
  have hforks : ∀ fork ∈ (d.initiatorForks.get? msg.cid).getD [],
      Emits O ((fork.postPdu der).update P now e).1 := by
    intro fork hmem
    cases hf : d.initiatorForks.get? msg.cid with
    | none =>
      rw [hf] at hmem
      cases hmem
    | some forks =>
      rw [hf] at hmem
      exact hs fork (.fork hf hmem)
  have hresponder : ∀ s, d.responderSessions.get? msg.cid = some s →
      Emits O ((s.postPdu der).update P now e).1 := fun s h => hs s (.inl ⟨.responder, by simp, h⟩)
  unfold postPdu
  simp only [hl]
  split
  · rename_i s he
    exact touches_deliverEstablished d msg.cid (hs s (.inl ⟨.established, by simp, he⟩))
  · split
    · unfold routeSessionInitRequest
      split
      · rename_i s hr
        exact touches_deliverResponder d msg.cid (hresponder s hr)
      · exact touches_openResponder d msg.cid (hs _ (.inr (.inr rfl)))
    · unfold routeSessionInitResponse
      split
      · exact touches_refl d
      · rename_i template ht
        split
        · rename_i hr
          exact (touches_resendFork hforks hr).trans (touches_setForks _ msg.cid _)
        · exact touches_openFork d msg.cid fun twin htwin => hs twin (.inr (.inl ⟨template, ht, htwin⟩))
    · split
      · rename_i s hr
        exact touches_deliverResponder d msg.cid (hresponder s hr)
      · split
        · rename_i forks hf
          exact touches_routeToForks d msg.cid fun fork hmem => hs fork (.fork hf hmem)
        · exact touches_refl d

/-! ## The steps of the crank -/

theorem touches_updateEstablished (d : Dispatcher β π) (j : List β) (next : WithTop Int)
    (hs : ∀ s, d.established.get? j = some s → Emits O (s.update P now e).1) :
    Touches j now O d (updateEstablished P now e d j next).1 := by
  unfold updateEstablished
  split
  · exact touches_refl d
  · rename_i s he
    have hs := hs s he
    rcases hu : s.update P now e with ⟨s', x | ⟨r, deadline⟩⟩ <;> rw [hu] at hs
    · simp only
      split
      · exact (touches_drain d hs j).trans (touches_setEstablished _ j _)
      · exact touches_setEstablished d j _
    · exact (touches_drain d hs j).trans (touches_setEstablished _ j _)

theorem touches_updateResponder (d : Dispatcher β π) (j : List β) (next : WithTop Int)
    (hs : ∀ s, d.responderSessions.get? j = some s → Emits O (s.update P now e).1) :
    Touches j now O d (updateResponder P now e d j next).1 := by
  unfold updateResponder
  split
  · exact touches_refl d
  · rename_i s hr
    have hs := hs s hr
    rcases hu : s.update P now e with ⟨s', x | ⟨r, deadline⟩⟩ <;> rw [hu] at hs
    · simp only
      split
      · exact touches_dropResponder d j
      · exact touches_setResponder d j _
    · have hset : Touches j now O d _ :=
        (touches_drain d hs j).trans (touches_setResponder _ j (d.drain s' j).2)
      simp only
      split
      · exact hset.trans (touches_promote _ j _)
      · split
        · exact hset.trans (touches_dropResponder _ j)
        · exact hset

theorem crankForks_winner {forks forks' surviving : List (Session β π)} {winner : Session β π}
    {next next' : WithTop Int}
    (h : crankForks P now e forks next = (forks', surviving, .won winner, next')) :
    ∃ fork ∈ forks, winner = (fork.update P now e).1 := by
  induction forks generalizing next forks' surviving with
  | nil => cases h
  | cons fork rest ih =>
    unfold crankForks at h
    rcases hu : fork.update P now e with ⟨s', x | ⟨r, deadline⟩⟩ <;> simp only [hu] at h
    · split at h
      · rcases hrec : crankForks P now e rest next with ⟨rest', surviving', contest, next₁⟩
        rw [hrec] at h
        cases h
        obtain ⟨fork', hmem, hwin⟩ := ih hrec
        exact ⟨fork', List.mem_cons_of_mem _ hmem, hwin⟩
      · cases h
    · split at h
      · cases h
        exact ⟨fork, List.mem_cons_self, by rw [hu]⟩
      · rcases hrec : crankForks P now e rest (min next deadline) with
          ⟨rest', surviving', contest, next₁⟩
        rw [hrec] at h
        cases h
        obtain ⟨fork', hmem, hwin⟩ := ih hrec
        exact ⟨fork', List.mem_cons_of_mem _ hmem, hwin⟩

theorem touches_updateForks (d : Dispatcher β π) (j : List β) (next : WithTop Int)
    (hs : ∀ s, d.Holds j .fork s → Emits O (s.update P now e).1) :
    Touches j now O d (updateForks P now e d j next).1 := by
  unfold updateForks
  split
  · exact touches_refl d
  · rename_i forks hf
    split
    · exact touches_setForks d j _
    · rename_i hc
      obtain ⟨fork, hmem, hwin⟩ := crankForks_winner hc
      have hdrain : Touches j now O d _ := touches_drain d (hwin ▸ hs fork ⟨forks, hf, hmem⟩) j
      exact hdrain.trans (touches_promote _ j _)
    · exact touches_dropForks d j
    · exact touches_setForks d j _

/-! ## Where the queues do not matter -/

omit [DecidableEq π] in
theorem beside_drain (c : List β) (now : Int) (d : Dispatcher β π) (s : Session β π) (j : List β) :
    Beside c now d (d.drain s j).1 := ⟨rfl, rfl, rfl, rfl, rfl, rfl, rfl, .inl rfl⟩

theorem beside_deliver (P : Primitives β π) (d : Dispatcher β π) (s : Session β π) (der : π)
    (now : Int) (j : List β) (e : Entropy β) : Beside c now d (d.deliver P s der now j e).1 := by
  obtain ⟨x, _, _, hd⟩ | ⟨_, hd⟩ := deliver_cases P d s der now j e
  · rw [hd]
    exact beside_refl d
  · rw [hd]
    exact beside_drain c now d _ j

theorem beside_resendFork {forks : List (Session β π)}
    {r : Dispatcher β π × List (Session β π) × Option PyError}
    (hr : d.resendFork P der now j e forks = some r) : Beside c now d r.1 := by
  induction forks generalizing r with
  | nil => cases hr
  | cons fork rest ih =>
    unfold resendFork at hr
    split at hr
    · cases hr
      exact beside_deliver P d fork der now j e
    · cases hrec : d.resendFork P der now j e rest with
      | none => simp [hrec] at hr
      | some q =>
        rw [hrec] at hr
        cases hr
        have hq : Beside c now d q.1 := ih hrec
        exact hq

theorem beside_postPdu (hc : ∀ msg, P.load der = .ok msg → msg.cid ≠ c) (d : Dispatcher β π)
    (now : Int) (e : Entropy β) : Beside c now d (d.postPdu P der now e).1 := by
  cases hl : P.load der with
  | error x =>
    simp only [postPdu, hl]
    exact beside_refl d
  | ok msg =>
    exact (touches_postPdu (O := fun _ => True) hl d fun _ _ _ _ => trivial).beside c (hc msg hl).symm

variable (h : c ≠ j)
include h

theorem beside_updateEstablished (d : Dispatcher β π) (next : WithTop Int) :
    Beside c now d (updateEstablished P now e d j next).1 :=
  (touches_updateEstablished (O := fun _ => True) d j next fun _ _ _ _ => trivial).beside c h

theorem beside_updateResponder (d : Dispatcher β π) (next : WithTop Int) :
    Beside c now d (updateResponder P now e d j next).1 :=
  (touches_updateResponder (O := fun _ => True) d j next fun _ _ _ _ => trivial).beside c h

theorem beside_updateForks (d : Dispatcher β π) (next : WithTop Int) :
    Beside c now d (updateForks P now e d j next).1 :=
  (touches_updateForks (O := fun _ => True) d j next fun _ _ _ _ => trivial).beside c h

end

/-- In a sweep whose steps return, a cid sees its own step and nothing else. -/
theorem sweep_at {step : Dispatcher β π → List β → WithTop Int →
      Dispatcher β π × Except PyError (WithTop Int)} {Q : Dispatcher β π → Prop} {c : List β} {now : Int}
    (hother : ∀ j, c ≠ j → ∀ d next, Beside c now d (step d j next).1)
    (hreturn : ∀ d j next, Q d → ∃ next', (step d j next).2 = .ok next')
    (hkeep : ∀ d j next, Q d → Q (step d j next).1) {cids : List (List β)} (hnodup : cids.Nodup)
    {d : Dispatcher β π} (h : Q d) (next : WithTop Int) :
    (∃ next', (sweep step d cids next).2 = .ok next') ∧
      (c ∉ cids → Beside c now d (sweep step d cids next).1) ∧
      (c ∈ cids → ∃ d₁ next₁, Q d₁ ∧ Beside c now d d₁ ∧
        Beside c now (step d₁ c next₁).1 (sweep step d cids next).1) := by
  induction cids generalizing d next with
  | nil => exact ⟨⟨next, rfl⟩, fun _ => beside_refl d, by simp⟩
  | cons j rest ih =>
    obtain ⟨hj, hrest⟩ := List.nodup_cons.mp hnodup
    have hk := hkeep d j next h
    obtain ⟨next', hr⟩ := hreturn d j next h
    unfold sweep
    rcases hs : step d j next with ⟨d', r⟩
    rw [hs] at hk hr
    cases hr
    obtain ⟨hreturned, hout, hin⟩ := ih hrest hk next'
    refine ⟨hreturned, fun hc => ?_, fun hc => ?_⟩
    · have hb := hother j (fun heq => hc (heq ▸ List.mem_cons_self)) d next
      rw [hs] at hb
      exact hb.trans (hout fun hmem => hc (List.mem_cons_of_mem j hmem))
    · by_cases heq : c = j
      · subst heq
        refine ⟨d, next, h, beside_refl d, ?_⟩
        rw [hs]
        exact hout hj
      · have hb := hother j heq d next
        rw [hs] at hb
        obtain ⟨d₁, next₁, hq, hb₁, hb₂⟩ := hin ((List.mem_cons.mp hc).resolve_left heq)
        exact ⟨d₁, next₁, hq, hb.trans hb₁, hb₂⟩

/-! ## Reconciliation -/

/-- What reconciliation leaves under a cid: without candidates no responder session, and
no forks and no template either, unless a session is established. -/
structure Reconciled (c : List β) (d d' : Dispatcher β π) : Prop where
  keys : d'.keys = d.keys
  config : d'.config = d.config
  candidates : d'.candidates = d.candidates
  pdus : d'.outgoingPdus = d.outgoingPdus
  payloads : d'.outgoingPayloads = d.outgoingPayloads
  established : d'.established = d.established
  responder : d'.responderSessions.get? c =
    if d.candidates.candidatesFor c = [] then none else d.responderSessions.get? c
  fork : d'.initiatorForks.get? c =
    if d.candidates.candidatesFor c = [] ∧ d.established.get? c = none then none
    else d.initiatorForks.get? c
  template : d'.initiatorTemplates.get? c =
    if d.candidates.candidatesFor c = [] ∧ d.established.get? c = none ∧
      d.initiatorForks.get? c ≠ none then none
    else d.initiatorTemplates.get? c

/-- Entries of a dictionary erased one by one. -/
theorem foldl_erase {υ : Type} (p : List β → Prop) [DecidablePred p] (ks : List (List β))
    (m : Dict (List β) υ) (c : List β) :
    (ks.foldl (fun m k => if p k then m.erase k else m) m).get? c =
      if c ∈ ks ∧ p c then none else m.get? c := by
  induction ks generalizing m with
  | nil => simp
  | cons k ks ih =>
    rw [List.foldl_cons, ih]
    by_cases hc : c = k
    · subst hc
      by_cases hp : p c <;> simp [hp]
    · by_cases hp : p k <;> simp [hp, hc, Dict.get?_erase_of_ne _ hc]

theorem reconciled (d : Dispatcher β π) (c : List β) :
    Reconciled c d d.reconcileExpiredCandidates := by
  have hfirst : ∀ (ks : List (List β)) (d : Dispatcher β π),
      ks.foldl (fun d cid => if d.candidates.candidatesFor cid = [] then
        { d with responderSessions := d.responderSessions.erase cid } else d) d =
      { d with responderSessions := ks.foldl (fun m k =>
          if d.candidates.candidatesFor k = [] then m.erase k else m) d.responderSessions } := by
    intro ks
    induction ks with
    | nil => exact fun _ => rfl
    | cons k ks ih =>
      intro d
      rw [List.foldl_cons, ih, List.foldl_cons]
      split <;> rfl
  have hsecond : ∀ (ks : List (List β)) (d : Dispatcher β π),
      ks.foldl (fun d cid =>
        if d.candidates.candidatesFor cid = [] ∧ d.established.get? cid = none then
          { d with
            initiatorForks := d.initiatorForks.erase cid
            initiatorTemplates := d.initiatorTemplates.erase cid }
        else d) d =
      { d with
        initiatorForks := ks.foldl (fun m k =>
          if d.candidates.candidatesFor k = [] ∧ d.established.get? k = none then m.erase k else m)
          d.initiatorForks
        initiatorTemplates := ks.foldl (fun m k =>
          if d.candidates.candidatesFor k = [] ∧ d.established.get? k = none then m.erase k else m)
          d.initiatorTemplates } := by
    intro ks
    induction ks with
    | nil => exact fun _ => rfl
    | cons k ks ih =>
      intro d
      rw [List.foldl_cons, ih, List.foldl_cons, List.foldl_cons]
      split <;> rfl
  have hkeys : ∀ {υ : Type} (m : Dict (List β) υ), c ∉ m.keys → m.get? c = none :=
    fun _ h => Dict.get?_eq_none_iff.mpr h
  unfold reconcileExpiredCandidates
  rw [hfirst, hsecond]
  refine ⟨rfl, rfl, rfl, rfl, rfl, rfl, ?_, ?_, ?_⟩
  · simp only
    rw [foldl_erase]
    by_cases hc : c ∈ d.responderSessions.keys
    · simp [hc]
    · simp [hc, hkeys _ hc]
  · simp only
    rw [foldl_erase]
    by_cases hc : c ∈ d.initiatorForks.keys
    · simp [hc]
    · simp [hc, hkeys _ hc]
  · simp only
    rw [foldl_erase]
    by_cases hc : c ∈ d.initiatorForks.keys
    · obtain ⟨forks, hf⟩ := Dict.mem_keys_iff.mp hc
      simp [hc, hf]
    · simp [hc, hkeys _ hc]

theorem update_fst [DecidableEq π] {P : Primitives β π} (d : Dispatcher β π) (now : Int)
    (e : Entropy β) : (d.update P now e).1 =
    (({ d with candidates := d.candidates.expire now }.reconcileExpiredCandidates).crank P now e).1 := by
  unfold update
  simp only
  split
  · rename_i hc
    rw [hc]
  · rename_i hc
    rw [hc]

/-! ## The other operations -/

section
variable {P : Primitives β π} {c j : List β} {O : π → Prop}

theorem touches_initiate (now : Int) (d : Dispatcher β π) (own peer : KeyId β) (e : Entropy β)
    (hO : ∀ primary, (Session.new .initiator (some own) d.keys d.config).initiate P peer now e =
      (primary, none) → Emits O primary) :
    Touches e.uuid now O d (d.initiate P own peer now e).1 := by
  unfold initiate
  split
  · exact touches_refl d
  · rename_i primary hp
    have hs := hO primary hp
    obtain ⟨_, s1, ct1, _, _, rfl⟩ := Session.initiate_ok hp
    exact ⟨fun c hc => ⟨rfl, rfl, rfl, rfl, rfl, Dict.get?_set_of_ne _ hc _,
      Dict.get?_set_of_ne _ hc _, .inl rfl⟩, rfl, rfl, rfl, fun _ ht => ht, ⟨_, rfl, hs⟩,
      ⟨[], by simp [Session.calling]⟩⟩

theorem touches_postPayload (now : Int) (d : Dispatcher β π) (j payload : List β) :
    Touches j now O d (d.postPayload j payload).1 := by
  unfold postPayload
  split
  · exact touches_setEstablished d j _
  · split
    · exact touches_setResponder d j _
    · split
      · exact touches_refl d
      · split
        · exact touches_refl d
        · simp only
          split
          · exact touches_setTemplate d j _
          · exact (touches_setTemplate d j _).trans (touches_setForks _ j _)

theorem touches_close (now : Int) (d : Dispatcher β π) (j : List β) : Touches j now O d (d.close j) :=
  touches_quiet (fun _ hc => ⟨rfl, rfl, rfl, Dict.get?_erase_of_ne _ hc, rfl, rfl, rfl, .inl rfl⟩)
    (.inl rfl) ⟨rfl, rfl⟩ ⟨rfl, rfl⟩

theorem beside_initiate (now : Int) (d : Dispatcher β π) (own peer : KeyId β) {e : Entropy β}
    (h : e.uuid ≠ c) : Beside c now d (d.initiate P own peer now e).1 :=
  (touches_initiate (O := fun _ => True) now d own peer e fun _ _ _ _ => trivial).beside c h.symm

theorem beside_postPayload (now : Int) (d : Dispatcher β π) (h : c ≠ j) (payload : List β) :
    Beside c now d (d.postPayload j payload).1 :=
  (touches_postPayload (O := fun _ => True) now d j payload).beside c h

theorem beside_close (now : Int) (d : Dispatcher β π) (h : c ≠ j) : Beside c now d (d.close j) :=
  (touches_close (O := fun _ => True) now d j).beside c h

theorem beside_getPdu (now : Int) (d : Dispatcher β π) : Beside c now d d.getPdu.1 := by
  unfold getPdu
  split <;> exact ⟨rfl, rfl, rfl, rfl, rfl, rfl, rfl, .inl rfl⟩

theorem beside_getPayload (now : Int) (d : Dispatcher β π) : Beside c now d d.getPayload.1 := by
  unfold getPayload
  split <;> exact ⟨rfl, rfl, rfl, rfl, rfl, rfl, rfl, .inl rfl⟩

end

end Dispatcher

end KemMake
