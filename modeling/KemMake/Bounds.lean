import KemMake.Draining

/-!
# Sessions and the store's entries

The caps of the store bound its entries. They bound the sessions as long as each fork
and each pending responder session still has an entry of its own under its cid.
-/

namespace KemMake

variable {β π : Type} [DecidableEq β]

namespace Dispatcher

def forksOf (d : Dispatcher β π) (c : List β) : List (Session β π) := (d.initiatorForks.get? c).getD []

/-- The sessions of a cid that are not established. -/
def pending (d : Dispatcher β π) (c : List β) : Nat :=
  (d.forksOf c).length + (d.responderSessions.get? c).toList.length

structure Covered (limits : CandidateLimits) (d : Dispatcher β π) : Prop where
  tallies : d.candidates.Tallies limits
  covered : ∀ c, d.pending c ≤ (d.candidates.candidatesFor c).length

section
variable {limits : CandidateLimits} {d d' : Dispatcher β π} {c : List β} {now : Int}

theorem Covered.of_pending (h : Covered limits d) (hst : d'.candidates = d.candidates)
    (hp : ∀ j, d'.pending j ≤ d.pending j) : Covered limits d' := by
  refine ⟨hst ▸ h.tallies, fun j => ?_⟩
  rw [hst]
  exact Nat.le_trans (hp j) (h.covered j)

/-- Entries go with all sessions of their cid. -/
theorem Covered.discard (h : Covered limits d) (hst : d'.candidates = d.candidates.discard c)
    (hc : d'.pending c = 0) (hp : ∀ j, j ≠ c → d'.pending j ≤ d.pending j) : Covered limits d' := by
  refine ⟨hst ▸ h.tallies.discard c, fun j => ?_⟩
  by_cases hj : j = c
  · rw [hj, hc]
    exact Nat.zero_le _
  · rw [hst, CandidateStore.candidatesFor_discard _ hj]
    exact Nat.le_trans (hp j hj) (h.covered j)

theorem Covered.modify (h : Covered limits d) (c : List β)
    {f : List (HandshakeCandidate β π) → List (HandshakeCandidate β π)}
    (hf : ∀ l, (f l).length = l.length) :
    Covered limits { d with candidates := d.candidates.modify c f } := by
  refine ⟨h.tallies.modify c hf, fun j => ?_⟩
  have hlen : ((d.candidates.modify c f).candidatesFor j).length =
      (d.candidates.candidatesFor j).length := by
    by_cases hj : j = c
    · subst hj
      unfold CandidateStore.modify
      split
      · rfl
      · rename_i l hl
        simp [CandidateStore.candidatesFor, hl, hf]
    · rw [CandidateStore.candidatesFor_modify _ hj]
  exact hlen ▸ h.covered j

theorem Covered.promote (h : Covered limits d) (hst : d'.candidates = d.candidates)
    (hp : ∀ j, j ≠ c → d'.pending j ≤ d.pending j) (s : Session β π) :
    Covered limits (d'.promote c s) := by
  refine h.discard (c := c) (by simp [Dispatcher.promote, hst]) ?_ fun j hj => ?_
  · simp [pending, forksOf, Dispatcher.promote]
  · refine Nat.le_trans (Nat.le_of_eq ?_) (hp j hj)
    simp [pending, forksOf, Dispatcher.promote, Dict.get?_erase_of_ne _ hj]

theorem pending_setResponder (d : Dispatcher β π) {c j : List β} (hj : j ≠ c) (s : Session β π) :
    pending { d with responderSessions := d.responderSessions.set c s } j = d.pending j := by
  simp [pending, forksOf, Dict.get?_set_of_ne _ hj]

theorem pending_setForks (d : Dispatcher β π) {c j : List β} (hj : j ≠ c)
    (forks : List (Session β π)) :
    pending { d with initiatorForks := d.initiatorForks.set c forks } j = d.pending j := by
  simp [pending, forksOf, Dict.get?_set_of_ne _ hj]

/-- The responder session of a cid takes another form. -/
theorem Covered.setResponder (h : Covered limits d) {s : Session β π}
    (hs : d.responderSessions.get? c = some s) (s' : Session β π) :
    Covered limits { d with responderSessions := d.responderSessions.set c s' } := by
  refine h.of_pending rfl fun j => ?_
  by_cases hj : j = c
  · subst hj
    simp [pending, forksOf, hs]
  · rw [pending_setResponder d hj]

theorem Covered.setForks (h : Covered limits d) {forks : List (Session β π)}
    (hlen : forks.length ≤ (d.forksOf c).length) :
    Covered limits { d with initiatorForks := d.initiatorForks.set c forks } := by
  refine h.of_pending rfl fun j => ?_
  by_cases hj : j = c
  · subst hj
    simp only [pending, forksOf, Dict.get?_set_self, Option.getD_some] at hlen ⊢
    omega
  · rw [pending_setForks d hj]

theorem Covered.dropResponder (h : Covered limits d) (hf : d.forksOf c = []) :
    Covered limits (d.dropResponder c) := by
  refine h.discard rfl ?_ fun j hj => ?_
  · simp only [forksOf] at hf
    simp [pending, forksOf, Dispatcher.dropResponder, hf]
  · simp [pending, forksOf, Dispatcher.dropResponder, Dict.get?_erase_of_ne _ hj]

theorem Covered.reapResponder (h : Covered limits d) {s : Session β π}
    (hs : d.responderSessions.get? c = some s) (hd : d.forksOf c ≠ [] → s.state ≠ .dropped) :
    Covered limits (d.reapResponder c) := by
  unfold Dispatcher.reapResponder
  rw [hs]
  simp only
  split
  · have hdrain : Covered limits (d.drain s c).1 := h.of_pending rfl fun _ => Nat.le_refl _
    exact hdrain.promote rfl (fun _ _ => Nat.le_refl _) _
  · split
    · rename_i hdrop
      refine h.dropResponder ?_
      apply not_not.mp
      exact fun hne => hd hne hdrop
    · exact h

/-- An addition that leaves every cid its entries. -/
theorem Covered.add (h : Covered limits d) (c : List β) (receivedPdu sentPdu : π)
    (hlive : ∀ j, d.pending j ≤ d.live now j) :
    Covered limits { d with candidates := (d.candidates.add c receivedPdu sentPdu now).1 } ∧
      ((d.candidates.add c receivedPdu sentPdu now).2.isOk →
        d.pending c < (((d.candidates.add c receivedPdu sentPdu now).1).candidatesFor c).length) := by
  have hlen := d.candidates.candidatesFor_added c receivedPdu sentPdu now
  have hc := hlive c
  simp only [live] at hc
  refine ⟨⟨h.tallies.add c receivedPdu sentPdu now, fun j => ?_⟩, fun hok => ?_⟩
  · by_cases hj : j = c
    · subst hj
      simp only [pending, forksOf] at hc ⊢
      omega
    · have hj' := hlive j
      rw [CandidateStore.candidatesFor_add _ hj]
      exact hj'
  · simp only [hok, ↓reduceIte] at hlen
    omega

end

section
variable [DecidableEq π] {P : Primitives β π} {limits : CandidateLimits} {d : Dispatcher β π}
  {s : Session β π} {der : π} {now : Int} {c : List β} {e : Entropy β}

/-- A delivery changes nothing but the queues of the dispatcher. -/
theorem deliver_queues (P : Primitives β π) (d : Dispatcher β π) (s : Session β π) (der : π)
    (now : Int) (c : List β) (e : Entropy β) :
    ∃ outgoingPdus outgoingPayloads,
      (d.deliver P s der now c e).1 = { d with outgoingPdus, outgoingPayloads } := by
  obtain ⟨_, _, _, hd⟩ | ⟨_, hd⟩ := deliver_cases P d s der now c e
  · rw [hd]
    exact ⟨_, _, rfl⟩
  · rw [hd]
    exact ⟨_, _, rfl⟩

omit [DecidableEq π] in
theorem Covered.queues (h : Covered limits d) (outgoingPdus : List π)
    (outgoingPayloads : List (List β × List β)) :
    Covered limits { d with outgoingPdus, outgoingPayloads } :=
  h.of_pending rfl fun _ => Nat.le_refl _

theorem covered_deliverEstablished (h : Covered limits d) :
    Covered limits (d.deliverEstablished P s der now c e).1 := by
  obtain ⟨outgoingPdus, outgoingPayloads, hd⟩ := deliver_queues P d s der now c e
  unfold deliverEstablished
  rcases hu : d.deliver P s der now c e with ⟨d', s', x⟩
  rw [hu] at hd
  cases hd
  exact h.of_pending rfl fun _ => Nat.le_refl _

theorem covered_deliverResponder (h : Covered limits d) (hs : d.responderSessions.get? c = some s)
    (hn : d.forksOf c ≠ [] → ((s.postPdu der).update P now e).1.state ≠ .dropped) :
    Covered limits (d.deliverResponder P s der now c e).1 := by
  unfold deliverResponder
  obtain ⟨x, _, _, hd⟩ | ⟨_, hd⟩ := deliver_cases P d s der now c e
  · rw [hd]
    exact h.setResponder hs _
  · rw [hd]
    have hset := (h.queues (d.drain ((s.postPdu der).update P now e).1 c).1.outgoingPdus
      (d.drain ((s.postPdu der).update P now e).1 c).1.outgoingPayloads).setResponder hs
      ((s.postPdu der).update P now e).1.drained
    exact hset.reapResponder (Dict.get?_set_self ..) hn

/-- A new responder session is reaped at once: it has refused the request, or has dropped. -/
def Refuses (P : Primitives β π) (d : Dispatcher β π) (der : π) (now : Int) (e : Entropy β) : Prop :=
  (∀ x, (((Session.new .responder none d.keys d.config).postPdu der).update P now e).2 = .error x →
    x.caught = true) ∧
  ((((Session.new .responder none d.keys d.config).postPdu der).update P now e).1.state = .initial ∨
    (((Session.new .responder none d.keys d.config).postPdu der).update P now e).1.state = .dropped)

theorem covered_openResponder (h : Covered limits d) (hr : d.responderSessions.get? c = none)
    (hlive : ∀ j, d.pending j ≤ d.live now j)
    (hn : d.candidates.Admits c now → d.forksOf c ≠ [] → ¬ d.Refuses P der now e) :
    Covered limits (d.openResponder P der now c e).1 := by
  obtain ⟨hadd, hroom⟩ := h.add c der P.noPdu hlive
  have hadm := d.candidates.add_admits c der P.noPdu now
  unfold openResponder
  rcases ha : d.candidates.add c der P.noPdu now with ⟨candidates, x | candidate⟩ <;>
    rw [ha] at hadd hroom hadm
  · exact hadd
  · have hroom := hroom rfl
    have hn := hn (hadm.mp ⟨candidate, rfl⟩)
    -- the session takes the room that its entry has made
    have hset : ∀ outgoingPdus outgoingPayloads s', Covered limits ({ d with
        candidates, outgoingPdus, outgoingPayloads,
        responderSessions := d.responderSessions.set c s' } : Dispatcher β π) := by
      intro outgoingPdus outgoingPayloads s'
      refine ⟨hadd.tallies, fun j => ?_⟩
      by_cases hj : j = c
      · subst hj
        simp only [pending, forksOf, hr, Dict.get?_set_self, Option.toList_none, Option.toList_some,
          List.length_nil, List.length_singleton] at hroom ⊢
        omega
      · have hold := hadd.covered j
        simp only [pending, forksOf, Dict.get?_set_of_ne _ hj] at hold ⊢
        exact hold
    simp only
    obtain ⟨x, _, _, hd⟩ | ⟨hcaught, hd⟩ := deliver_cases P { d with candidates }
      (.new .responder none d.keys d.config) der now c e
    · rw [hd]
      exact hset _ _ _
    · rw [hd]
      simp only
      split
      · rename_i hinit
        refine (hset _ _ _).dropResponder ?_
        apply not_not.mp
        exact fun hne => hn hne ⟨hcaught, .inl hinit⟩
      · have hdrop : d.forksOf c ≠ [] → _ := fun hne hst => hn hne ⟨hcaught, .inr hst⟩
        split
        · refine Covered.reapResponder ((hset _ _ _).modify c fun l => ?_) (Dict.get?_set_self ..) hdrop
          cases l <;> rfl
        · exact (hset _ _ _).reapResponder (Dict.get?_set_self ..) hdrop

theorem resendFork_length {forks : List (Session β π)}
    {r : Dispatcher β π × List (Session β π) × Option PyError}
    (hr : d.resendFork P der now c e forks = some r) : r.2.1.length = forks.length ∧
      ∃ outgoingPdus outgoingPayloads, r.1 = { d with outgoingPdus, outgoingPayloads } := by
  induction forks generalizing r with
  | nil => cases hr
  | cons fork rest ih =>
    unfold resendFork at hr
    split at hr
    · have hd := deliver_queues P d fork der now c e
      cases hr
      exact ⟨rfl, hd⟩
    · cases hrec : d.resendFork P der now c e rest with
      | none => simp [hrec] at hr
      | some q =>
        rw [hrec] at hr
        cases hr
        obtain ⟨hlen, hq⟩ := ih hrec
        exact ⟨by simp [hlen], hq⟩

theorem covered_openFork (h : Covered limits d) (hlive : ∀ j, d.pending j ≤ d.live now j) :
    Covered limits (d.openFork P s der now c e).1 := by
  obtain ⟨hadd, hroom⟩ := h.add c der P.noPdu hlive
  unfold openFork
  rcases ha : d.candidates.add c der P.noPdu now with ⟨candidates, x | candidate⟩ <;>
    rw [ha] at hadd hroom
  · exact hadd
  · have hroom := hroom rfl
    simp only
    split
    · exact hadd
    · rename_i twin _
      obtain ⟨outgoingPdus, outgoingPayloads, hd⟩ :=
        deliver_queues P { d with candidates } twin der now c e
      rcases hu : Dispatcher.deliver P { d with candidates } twin der now c e with ⟨d', s', x⟩
      rw [hu] at hd
      cases hd
      have hset : Covered limits ({ d with
          candidates, outgoingPdus, outgoingPayloads,
          initiatorForks := d.initiatorForks.set c (d.forksOf c ++ [s']) } : Dispatcher β π) := by
        refine ⟨hadd.tallies, fun j => ?_⟩
        by_cases hj : j = c
        · subst hj
          simp only [pending, forksOf, Dict.get?_set_self, Option.getD_some, List.length_append,
            List.length_singleton] at hroom ⊢
          omega
        · have hold := hadd.covered j
          simp only [pending, forksOf, Dict.get?_set_of_ne _ hj] at hold ⊢
          exact hold
      cases x with
      | some x => exact hset
      | none => exact hset.modify c fun l => List.length_map _

theorem offer_length (P : Primitives β π) (der : π) (now : Int) (e : Entropy β)
    (forks : List (Session β π)) : (offer P der now e forks).1.length = forks.length := by
  induction forks with
  | nil => rfl
  | cons fork rest ih =>
    unfold offer
    rcases (fork.postPdu der).update P now e with ⟨fork', x | r⟩
    · simp only
      split <;> simp [ih]
    · simp only
      split <;> simp [ih]

theorem covered_routeToForks (h : Covered limits d) {forks : List (Session β π)}
    (hf : d.initiatorForks.get? c = some forks) :
    Covered limits (d.routeToForks P c forks der now e).1 := by
  have hlen := offer_length P der now e forks
  unfold routeToForks
  rcases ho : offer P der now e forks with ⟨forks', contest⟩
  rw [ho] at hlen
  have hset : Covered limits { d with initiatorForks := d.initiatorForks.set c forks' } :=
    h.setForks (by simpa [forksOf, hf] using Nat.le_of_eq hlen)
  cases contest with
  | «open» => exact hset
  | raised x => exact hset
  | won winner =>
    have hdrain : Covered limits (({ d with initiatorForks := d.initiatorForks.set c forks' } :
        Dispatcher β π).drain winner c).1 := hset.queues _ _
    exact hdrain.promote rfl (fun _ _ => Nat.le_refl _) _

end

/-- The PDU makes a session: a request without a responder session, or a response that
none of the forks has accepted. -/
def Opens (d : Dispatcher β π) (msg : MakeMessage β) (der : π) : Prop :=
  match msg.payload.name with
  | .sessionInitRequest => d.responderSessions.get? msg.cid = none
  | .sessionInitResponse => d.initiatorTemplates.get? msg.cid ≠ none ∧
      ∀ fork ∈ d.forksOf msg.cid, fork.lastReceived ≠ some der
  | _ => False

/-- The calls that take the entries of sessions that stay. -/
inductive Orphans [DecidableEq π] (P : Primitives β π) (d : Dispatcher β π) : Op β π → Prop
  /-- In the sweep before an addition. -/
  | swept {der now e msg j} : P.load der = .ok msg → d.established.get? msg.cid = none →
      d.Opens msg der → d.live now j < d.pending j → Orphans P d (.postPdu der now e)
  /-- With a responder session that is dropped beside forks. -/
  | dropped {der now e msg s} : P.load der = .ok msg → d.established.get? msg.cid = none →
      msg.payload.name ≠ .sessionInitResponse → d.responderSessions.get? msg.cid = some s →
      d.forksOf msg.cid ≠ [] → ((s.postPdu der).update P now e).1.state = .dropped →
      Orphans P d (.postPdu der now e)
  /-- With a new responder session that does not stay. -/
  | refused {der now e msg} : P.load der = .ok msg → d.established.get? msg.cid = none →
      msg.payload.name = .sessionInitRequest → d.responderSessions.get? msg.cid = none →
      d.candidates.Admits msg.cid now → d.forksOf msg.cid ≠ [] → d.Refuses P der now e →
      Orphans P d (.postPdu der now e)
  /-- In the sweep of a crank that leaves some. -/
  | expired {now e j} : CandidateStore.survivors now (d.candidates.candidatesFor j) ≠ [] →
      d.live now j < d.pending j → Orphans P d (.update now e)
  /-- Forks that reconciliation keeps for an established session. -/
  | kept {now e j} : CandidateStore.survivors now (d.candidates.candidatesFor j) = [] →
      d.established.get? j ≠ none → d.forksOf j ≠ [] → Orphans P d (.update now e)
  /-- The crank drops the responder session or all forks of a cid, and not the other. -/
  | parted {now e j forks s} : (∀ c s, d.established.get? c = some s → ¬ s.Overflows) →
      CandidateStore.survivors now (d.candidates.candidatesFor j) ≠ [] →
      d.initiatorForks.get? j = some forks → d.responderSessions.get? j = some s →
      ¬ ((s.update P now e).1.state = .dropped ↔
        ∀ fork ∈ forks, (fork.update P now e).1.state = .dropped) →
      Orphans P d (.update now e)

section
variable [DecidableEq π] {P : Primitives β π} {limits : CandidateLimits} {d : Dispatcher β π}
  {s : Session β π} {der : π} {now : Int} {c : List β} {e : Entropy β}

theorem resendFork_none {forks : List (Session β π)}
    (hr : d.resendFork P der now c e forks = none) :
    ∀ fork ∈ forks, fork.lastReceived ≠ some der := by
  induction forks with
  | nil => simp
  | cons fork rest ih =>
    unfold resendFork at hr
    split at hr
    · cases hr
    · rename_i hne
      exact List.forall_mem_cons.mpr ⟨hne, ih (by simpa using hr)⟩

theorem covered_postPdu (h : Covered limits d) (hn : ¬ d.Orphans P (.postPdu der now e)) :
    Covered limits (d.postPdu P der now e).1 := by
  unfold postPdu
  split
  · exact h
  · rename_i msg hl
    split
    · exact covered_deliverEstablished h
    · rename_i he
      have hlive : d.Opens msg der → ∀ j, d.pending j ≤ d.live now j := by
        intro ho j
        exact Nat.le_of_not_lt fun hlt => hn (.swept hl he ho hlt)
      split
      · rename_i hname
        unfold routeSessionInitRequest
        split
        · rename_i s hs
          exact covered_deliverResponder h hs fun hf hd =>
            hn (.dropped hl he (by simp [hname]) hs hf hd)
        · rename_i hr
          exact covered_openResponder h hr (hlive (by simpa [Opens, hname] using hr))
            fun ha hf href => hn (.refused hl he hname hr ha hf href)
      · rename_i hname
        unfold routeSessionInitResponse
        split
        · exact h
        · rename_i template ht
          split
          · rename_i d' forks x hr
            obtain ⟨hlen, outgoingPdus, outgoingPayloads, hd⟩ := resendFork_length hr
            cases hd
            exact (h.queues _ _).setForks (Nat.le_of_eq hlen)
          · rename_i hr
            refine covered_openFork h (hlive ?_)
            simp only [Opens, hname, ht]
            exact ⟨by simp, resendFork_none hr⟩
      · rename_i hname
        split
        · rename_i s hs
          exact covered_deliverResponder h hs fun hf hd => hn (.dropped hl he hname hs hf hd)
        · split
          · rename_i forks hf
            exact covered_routeToForks h hf
          · exact h

end

/-! ## The crank -/

section
variable [DecidableEq π] {P : Primitives β π} {limits : CandidateLimits} {d d' : Dispatcher β π}
  {s : Session β π} {now : Int} {c : List β} {e : Entropy β}

theorem updateEstablished_frame (d : Dispatcher β π) (c : List β) (next : WithTop Int) :
    (updateEstablished P now e d c next).1.initiatorForks = d.initiatorForks ∧
      (updateEstablished P now e d c next).1.responderSessions = d.responderSessions ∧
      (updateEstablished P now e d c next).1.candidates = d.candidates := by
  unfold updateEstablished
  split
  · exact ⟨rfl, rfl, rfl⟩
  · rename_i s _
    rcases s.update P now e with ⟨s', x | ⟨r, deadline⟩⟩
    · simp only
      split <;> exact ⟨rfl, rfl, rfl⟩
    · exact ⟨rfl, rfl, rfl⟩

/-- Without a PDU, nothing but an overflow raises. -/
theorem update_returns {t : Slot} (h : Tidy P c t s) (hs : s.state ≠ .established) (now : Int)
    (e : Entropy β) : (∃ r, (s.update P now e).2 = .ok r) ∧
      (s.update P now e).1.state ≠ .established := by
  by_cases hd : s.state = .dropped
  · rw [Session.update_dropped hd]
    exact ⟨⟨_, rfl⟩, hs⟩
  · rw [Session.update_pending (h.2.resolve_right hd) hs hd]
    refine ⟨⟨_, rfl⟩, ?_⟩
    obtain hk | ⟨hk, _⟩ := (Session.checkDeadline_ticked s now).frame.1
    · exact hk ▸ hs
    · simp [hk]

/-- The responder session of the cid goes in a crank at `now`. -/
def LosesResponder (P : Primitives β π) (d : Dispatcher β π) (now : Int) (e : Entropy β)
    (c : List β) : Prop :=
  ∃ s, d.responderSessions.get? c = some s ∧ (s.update P now e).1.state = .dropped

/-- The forks of the cid go in a crank at `now`, all of them. -/
def LosesForks (P : Primitives β π) (d : Dispatcher β π) (now : Int) (e : Entropy β)
    (c : List β) : Prop :=
  ∃ forks, d.initiatorForks.get? c = some forks ∧
    ∀ fork ∈ forks, (fork.update P now e).1.state = .dropped

/-- What the second sweep does with a cid. -/
structure Responded (P : Primitives β π) (now : Int) (e : Entropy β) (c : List β)
    (d d' : Dispatcher β π) : Prop where
  fork : d'.initiatorForks.get? c = d.initiatorForks.get? c
  lost : d.LosesResponder P now e c →
    d'.responderSessions.get? c = none ∧ d'.candidates.candidatesFor c = []
  stays : ¬ d.LosesResponder P now e c →
    (d'.responderSessions.get? c).toList.length = (d.responderSessions.get? c).toList.length ∧
      d'.candidates.candidatesFor c = d.candidates.candidatesFor c

/-- What the third sweep does with a cid. -/
structure Forked (P : Primitives β π) (now : Int) (e : Entropy β) (c : List β)
    (d d' : Dispatcher β π) : Prop where
  responder : d'.responderSessions.get? c = d.responderSessions.get? c
  lost : d.LosesForks P now e c → d'.forksOf c = [] ∧ d'.candidates.candidatesFor c = []
  stays : ¬ d.LosesForks P now e c → (d'.forksOf c).length ≤ (d.forksOf c).length ∧
    d'.candidates.candidatesFor c = d.candidates.candidatesFor c

theorem updateResponder_at (hT : Kept (Tidy P) (fun _ => True) d) (c : List β) (next : WithTop Int) :
    (∃ next', (updateResponder P now e d c next).2 = .ok next') ∧
      Responded P now e c d (updateResponder P now e d c next).1 ∧
      ∀ limits, d.candidates.Tallies limits →
        (updateResponder P now e d c next).1.candidates.Tallies limits := by
  unfold updateResponder
  cases hs : d.responderSessions.get? c with
  | none =>
    have hno : ¬ d.LosesResponder P now e c := by
      rintro ⟨s, hs', _⟩
      rw [hs] at hs'
      cases hs'
    exact ⟨⟨next, rfl⟩, ⟨rfl, fun h => absurd h hno, fun _ => ⟨rfl, rfl⟩⟩, fun _ => id⟩
  | some s =>
    have hfit := hT.responder c s hs
    obtain ⟨⟨r, hr⟩, he⟩ := update_returns hfit hfit.1.2.2.1 now e
    have hlose : d.LosesResponder P now e c ↔ (s.update P now e).1.state = .dropped := by
      constructor
      · rintro ⟨s', hs', hd⟩
        rw [hs] at hs'
        cases hs'
        exact hd
      · exact fun hd => ⟨s, hs, hd⟩
    rcases hu : s.update P now e with ⟨s', r'⟩
    rw [hu] at hr he hlose
    cases hr
    have he' : (d.drain s' c).2.state ≠ .established := he
    simp only [hu, he', ↓reduceIte]
    split
    · rename_i hd
      refine ⟨⟨_, rfl⟩, ⟨rfl, fun _ => ⟨Dict.get?_erase_self .., ?_⟩, fun h => absurd (hlose.mpr hd) h⟩,
        fun _ ht => ht.discard c⟩
      simp [dropResponder, CandidateStore.candidatesFor, CandidateStore.discard]
    · rename_i hd
      refine ⟨⟨_, rfl⟩, ⟨rfl, fun h => absurd (hlose.mp h) hd, fun _ => ⟨?_, rfl⟩⟩, fun _ => id⟩
      simp [hs]

theorem crankForks_at {forks : List (Session β π)} (hf : ∀ s ∈ forks, Tidy P c .fork s)
    (next : WithTop Int) :
    (crankForks P now e forks next).2.2.1 = .open ∧
      (crankForks P now e forks next).2.1.length ≤ forks.length ∧
      ((crankForks P now e forks next).2.1 = [] ↔
        ∀ fork ∈ forks, (fork.update P now e).1.state = .dropped) := by
  induction forks generalizing next with
  | nil => simp [crankForks]
  | cons fork rest ih =>
    obtain ⟨hfork, hrest⟩ := List.forall_mem_cons.mp hf
    obtain ⟨⟨⟨r, deadline⟩, hr⟩, he⟩ := update_returns hfork hfork.1.not_established now e
    rcases hu : fork.update P now e with ⟨fork', r'⟩
    rw [hu] at hr he
    cases hr
    obtain ⟨hopen, hlen, hnil⟩ := ih hrest (min next deadline)
    have he' : fork'.state ≠ .established := he
    unfold crankForks
    simp only [hu, he', ↓reduceIte, List.forall_mem_cons]
    refine ⟨hopen, ?_, ?_⟩
    · split
      · exact Nat.le_succ_of_le hlen
      · exact Nat.succ_le_succ hlen
    · split
      · rename_i hd
        rw [hnil]
        simp [hd]
      · rename_i hd
        simp [hd]

theorem updateForks_at (hT : Kept (Tidy P) (fun _ => True) d) (c : List β) (next : WithTop Int) :
    (∃ next', (updateForks P now e d c next).2 = .ok next') ∧
      Forked P now e c d (updateForks P now e d c next).1 ∧
      ∀ limits, d.candidates.Tallies limits →
        (updateForks P now e d c next).1.candidates.Tallies limits := by
  unfold updateForks
  cases hf : d.initiatorForks.get? c with
  | none =>
    have hno : ¬ d.LosesForks P now e c := by
      rintro ⟨forks, hf', _⟩
      rw [hf] at hf'
      cases hf'
    exact ⟨⟨next, rfl⟩, ⟨rfl, fun h => absurd h hno, fun _ => ⟨Nat.le_refl _, rfl⟩⟩, fun _ => id⟩
  | some forks =>
    obtain ⟨hopen, hlen, hnil⟩ : (crankForks P now e forks next).2.2.1 = .open ∧ _ ∧ _ :=
      crankForks_at (hT.fork c forks hf) next
    have hlose : d.LosesForks P now e c ↔
        ∀ fork ∈ forks, (fork.update P now e).1.state = .dropped := by
      constructor
      · rintro ⟨forks', hf', hd⟩
        rw [hf] at hf'
        cases hf'
        exact hd
      · exact fun hd => ⟨forks, hf, hd⟩
    rw [← hlose] at hnil
    rcases hc : crankForks P now e forks next with ⟨forks', surviving, contest, next'⟩
    rw [hc] at hopen hlen hnil
    cases hopen
    simp only [hc]
    cases surviving with
    | nil =>
      refine ⟨⟨_, rfl⟩, ⟨rfl, fun _ => ⟨?_, ?_⟩, fun h => absurd (hnil.mp rfl) h⟩,
        fun _ ht => ht.discard c⟩
      · simp [forksOf]
      · simp [CandidateStore.candidatesFor, CandidateStore.discard]
    | cons fork rest =>
      refine ⟨⟨_, rfl⟩, ⟨rfl, fun h => absurd (hnil.mpr h) (by simp), fun _ => ⟨?_, rfl⟩⟩, fun _ => id⟩
      simp only [forksOf, Dict.get?_set_self, Option.getD_some, hf]
      exact hlen

/-- What an unexpired cid keeps through the steps of others. -/
theorem Responded.beside {d₁ d₂ d₃ : Dispatcher β π}
    (hlive : CandidateStore.survivors now (d.candidates.candidatesFor c) = d.candidates.candidatesFor c)
    (hb : Beside c now d d₁) (h : Responded P now e c d₁ d₂) (hb' : Beside c now d₂ d₃) :
    Responded P now e c d d₃ := by
  have heq := hb.candidates.fixed hlive
  have hlose : d₁.LosesResponder P now e c ↔ d.LosesResponder P now e c := by
    unfold LosesResponder
    rw [hb.responder]
  refine ⟨hb'.fork.trans (h.fork.trans hb.fork), fun hl => ?_, fun hl => ?_⟩
  · obtain ⟨hr, hc⟩ := h.lost (hlose.mpr hl)
    exact ⟨hb'.responder.trans hr, hb'.candidates.nil hc⟩
  · obtain ⟨hr, hc⟩ := h.stays fun h' => hl (hlose.mp h')
    rw [hb.responder] at hr
    have hc := hc.trans heq
    exact ⟨by rw [hb'.responder, hr], (hb'.candidates.fixed (by rw [hc, hlive])).trans hc⟩

theorem Forked.beside {d₁ d₂ d₃ : Dispatcher β π}
    (hlive : CandidateStore.survivors now (d.candidates.candidatesFor c) = d.candidates.candidatesFor c)
    (hb : Beside c now d d₁) (h : Forked P now e c d₁ d₂) (hb' : Beside c now d₂ d₃) :
    Forked P now e c d d₃ := by
  have heq := hb.candidates.fixed hlive
  have hlose : d₁.LosesForks P now e c ↔ d.LosesForks P now e c := by
    unfold LosesForks
    rw [hb.fork]
  refine ⟨hb'.responder.trans (h.responder.trans hb.responder), fun hl => ?_, fun hl => ?_⟩
  · obtain ⟨hf, hc⟩ := h.lost (hlose.mpr hl)
    refine ⟨?_, hb'.candidates.nil hc⟩
    simp only [forksOf] at hf ⊢
    rw [hb'.fork, hf]
  · obtain ⟨hf, hc⟩ := h.stays fun h' => hl (hlose.mp h')
    have hc := hc.trans heq
    refine ⟨?_, (hb'.candidates.fixed (by rw [hc, hlive])).trans hc⟩
    simp only [forksOf] at hf ⊢
    rw [hb'.fork, ← hb.fork]
    exact hf

/-- A sweep that has done `R` for every cid that had nothing expired. -/
structure Swept (P : Primitives β π) (now : Int) (limits : CandidateLimits)
    (R : List β → Dispatcher β π → Dispatcher β π → Prop) (d : Dispatcher β π)
    (r : Dispatcher β π × Except PyError (WithTop Int)) : Prop where
  returns : ∃ next, r.2 = .ok next
  tidy : Kept (Tidy P) (fun _ => True) r.1
  tallies : r.1.candidates.Tallies limits
  does : ∀ c, CandidateStore.survivors now (d.candidates.candidatesFor c) =
    d.candidates.candidatesFor c → R c d r.1

omit [DecidableEq π] in
/-- A sweep does for each cid what its step does. -/
theorem sweep_does {R : List β → Dispatcher β π → Dispatcher β π → Prop}
    {step : Dispatcher β π → List β → WithTop Int → Dispatcher β π × Except PyError (WithTop Int)}
    (hkeep : ∀ d j next, Kept (Tidy P) (fun _ => True) d →
      Kept (Tidy P) (fun _ => True) (step d j next).1)
    (hat : ∀ d j next, Kept (Tidy P) (fun _ => True) d → (∃ next', (step d j next).2 = .ok next') ∧
      R j d (step d j next).1 ∧
      ∀ limits, d.candidates.Tallies limits → (step d j next).1.candidates.Tallies limits)
    (hother : ∀ c j, c ≠ j → ∀ d next, Beside c now d (step d j next).1)
    (hbeside : ∀ c d d₁ d₂ d₃,
      CandidateStore.survivors now (d.candidates.candidatesFor c) = d.candidates.candidatesFor c →
      Beside c now d d₁ → R c d₁ d₂ → Beside c now d₂ d₃ → R c d d₃)
    {cids : List (List β)} (hnodup : cids.Nodup) (hout : ∀ c, c ∉ cids → R c d d)
    (hT : Kept (Tidy P) (fun _ => True) d) (ht : d.candidates.Tallies limits) (next : WithTop Int) :
    Swept P now limits R d (sweep step d cids next) := by
  have hQ : ∀ (d : Dispatcher β π) j next,
      Kept (Tidy P) (fun _ => True) d ∧ d.candidates.Tallies limits →
      Kept (Tidy P) (fun _ => True) (step d j next).1 ∧ (step d j next).1.candidates.Tallies limits :=
    fun d j next h => ⟨hkeep d j next h.1, (hat d j next h.1).2.2 limits h.2⟩
  have hcid := fun c => sweep_at (hother c) (fun d j next h => (hat d j next (And.left h)).1) hQ hnodup
    ⟨hT, ht⟩ next
  obtain ⟨hT', ht'⟩ := sweep_keeps hQ cids next ⟨hT, ht⟩
  refine ⟨(hcid []).1, hT', ht', fun c hlive => ?_⟩
  by_cases hc : c ∈ cids
  · obtain ⟨d₁, next₁, hq, hb, hb'⟩ := (hcid c).2.2 hc
    exact hbeside c _ _ _ _ hlive hb (hat d₁ c next₁ hq.1).2.1 hb'
  · exact hbeside c _ _ _ _ hlive (beside_refl d) (hout c hc) ((hcid c).2.1 hc)

section
variable (hP : P.Correct)
include hP

/-- A crank right after the entries have been swept and reconciled. -/
theorem covered_crank (hT : Kept (Tidy P) (fun _ => True) d) (h : Covered limits d)
    (hlive : ∀ c, CandidateStore.survivors now (d.candidates.candidatesFor c) =
      d.candidates.candidatesFor c)
    (hpart : (∀ c s, d.established.get? c = some s → ¬ s.Overflows) →
      ∀ c forks s, d.initiatorForks.get? c = some forks → d.responderSessions.get? c = some s →
        (d.LosesResponder P now e c ↔ d.LosesForks P now e c)) :
    Covered limits (d.crank P now e).1 := by
  have htidy : ∀ c t (s : Session β π), t ≠ .template → Tidy P c t s →
      Left (Tidy P) c t (s.update P now e) := fun _ _ _ ht hs => tidy_update hP hs ht
  -- the first sweep concerns established sessions only
  obtain ⟨hT₁, hfork₁, hresp₁, hst₁⟩ :
      Kept (Tidy P) (fun _ => True) (sweep (updateEstablished P now e) d d.established.keys ⊤).1 ∧
        _ ∧ _ ∧ _ := sweep_keeps
    (Q := fun d' => Kept (Tidy P) (fun _ => True) d' ∧ d'.initiatorForks = d.initiatorForks ∧
      d'.responderSessions = d.responderSessions ∧ d'.candidates = d.candidates)
    (fun d' c next hq => ⟨updateEstablished_kept tidy_handled htidy hq.1 c next,
      (updateEstablished_frame d' c next).1.trans hq.2.1,
      (updateEstablished_frame d' c next).2.1.trans hq.2.2.1,
      (updateEstablished_frame d' c next).2.2.trans hq.2.2.2⟩)
    d.established.keys ⊤ ⟨hT, rfl, rfl, rfl⟩
  have hfirst : Covered limits (sweep (updateEstablished P now e) d d.established.keys ⊤).1 := by
    refine h.of_pending hst₁ fun j => ?_
    simp only [pending, forksOf, hfork₁, hresp₁]
    exact Nat.le_refl _
  have hno : ∀ next, (sweep (updateEstablished P now e) d d.established.keys ⊤).2 = .ok next →
      ∀ c s, d.established.get? c = some s → ¬ s.Overflows := by
    intro next hok c s hs ho
    obtain ⟨x, hx⟩ : ∃ x, (sweep (updateEstablished P now e) d d.established.keys ⊤).2 = .error x :=
      sweep_overflows d.established.keys (Dict.mem_keys_iff.mpr ⟨s, hs⟩) hs
        (hT.established c s hs) ho ⊤
    rw [hx] at hok
    cases hok
  unfold crank
  rcases hd₁ : sweep (updateEstablished P now e) d d.established.keys ⊤ with ⟨d₁, x | next₁⟩ <;>
    rw [hd₁] at hfirst hno hT₁ hfork₁ hresp₁ hst₁
  · exact hfirst
  simp only at hfork₁ hresp₁ hst₁
  have hpart := hpart (hno next₁ rfl)
  have hlive₁ : ∀ c, CandidateStore.survivors now (d₁.candidates.candidatesFor c) =
      d₁.candidates.candidatesFor c := fun c => by rw [hst₁]; exact hlive c
  -- then the responders, then the forks
  have hsecond : Swept P now limits (Responded P now e) d₁
      (sweep (updateResponder P now e) d₁ d₁.responderSessions.keys next₁) :=
    sweep_does (fun d j next hk => updateResponder_kept tidy_handled htidy hk j next)
      (fun d j next hk => updateResponder_at hk j next)
      (fun c j hj d next => beside_updateResponder hj d next)
      (fun c d d₁ d₂ d₃ hl hb hR hb' => hR.beside hl hb hb') d₁.responderSessions.nodup
      (fun c hc => ⟨rfl, fun h => h.elim fun s hs => absurd (Dict.mem_keys_iff.mpr ⟨s, hs.1⟩) hc,
        fun _ => ⟨rfl, rfl⟩⟩) hT₁ hfirst.tallies next₁
  simp only
  rcases hd₂ : sweep (updateResponder P now e) d₁ d₁.responderSessions.keys next₁ with
    ⟨d₂, x | next₂⟩ <;> rw [hd₂] at hsecond
  · obtain ⟨_, hx⟩ := hsecond.returns
    cases hx
  have hlive₂ : ∀ c, CandidateStore.survivors now (d₂.candidates.candidatesFor c) =
      d₂.candidates.candidatesFor c := by
    intro c
    have hR := hsecond.does c (hlive₁ c)
    by_cases hl : d₁.LosesResponder P now e c
    · rw [(hR.lost hl).2]
      rfl
    · rw [(hR.stays hl).2]
      exact hlive₁ c
  have hthird : Swept P now limits (Forked P now e) d₂
      (sweep (updateForks P now e) d₂ d₂.initiatorForks.keys next₂) :=
    sweep_does (fun d j next hk => updateForks_kept tidy_handled htidy hk j next)
      (fun d j next hk => updateForks_at hk j next)
      (fun c j hj d next => beside_updateForks hj d next)
      (fun c d d₁ d₂ d₃ hl hb hR hb' => hR.beside hl hb hb') d₂.initiatorForks.nodup
      (fun c hc => ⟨rfl, fun h => h.elim fun s hs => absurd (Dict.mem_keys_iff.mpr ⟨s, hs.1⟩) hc,
        fun _ => ⟨Nat.le_refl _, rfl⟩⟩) hsecond.tidy hsecond.tallies next₂
  refine ⟨hthird.tallies, fun c => ?_⟩
  have hR := hsecond.does c (hlive₁ c)
  have hF := hthird.does c (hlive₂ c)
  have hold := hfirst.covered c
  simp only at hR hF hold ⊢
  generalize (sweep (updateForks P now e) d₂ d₂.initiatorForks.keys next₂).1 = d₃ at hF
  have hforks : d₂.LosesForks P now e c ↔ d.LosesForks P now e c := by
    unfold LosesForks
    rw [hR.fork, hfork₁]
  have hresponder : d₁.LosesResponder P now e c ↔ d.LosesResponder P now e c := by
    unfold LosesResponder
    rw [hresp₁]
  have hof : d₂.forksOf c = d₁.forksOf c := by simp only [forksOf, hR.fork]
  unfold pending at hold ⊢
  rw [hF.responder]
  by_cases hl : d.LosesResponder P now e c <;> by_cases hf : d.LosesForks P now e c
  · rw [(hF.lost (hforks.mpr hf)).1, (hR.lost (hresponder.mpr hl)).1]
    exact Nat.zero_le _
  · have hnone : d.initiatorForks.get? c = none := by
      obtain ⟨s, hs, _⟩ := id hl
      cases hfs : d.initiatorForks.get? c with
      | none => rfl
      | some forks => exact absurd ((hpart c forks s hfs hs).mp hl) hf
    have hlen := (hF.stays fun h => hf (hforks.mp h)).1
    have hnil : d₁.forksOf c = [] := by
      simp only [forksOf, hfork₁, hnone]
      rfl
    rw [hof, hnil] at hlen
    rw [List.length_eq_zero_iff.mp (Nat.le_zero.mp hlen), (hR.lost (hresponder.mpr hl)).1]
    exact Nat.zero_le _
  · have hnone : d.responderSessions.get? c = none := by
      obtain ⟨forks, hfs, _⟩ := id hf
      cases hs : d.responderSessions.get? c with
      | none => rfl
      | some s => exact absurd ((hpart c forks s hfs hs).mpr hf) hl
    have hr := (hR.stays fun h => hl (hresponder.mp h)).1
    rw [hresp₁, hnone] at hr
    rw [(hF.lost (hforks.mpr hf)).1, hr]
    exact Nat.zero_le _
  · obtain ⟨hr, hc⟩ := hR.stays fun h => hl (hresponder.mp h)
    obtain ⟨hlen, hc'⟩ := hF.stays fun h => hf (hforks.mp h)
    rw [hc', hc, hr]
    rw [hof] at hlen
    omega

theorem covered_update (hT : Kept (Tidy P) (fun _ => True) d) (h : Covered limits d)
    (hn : ¬ d.Orphans P (.update now e)) : Covered limits (d.update P now e).1 := by
  have hrec := fun c => reconciled { d with candidates := d.candidates.expire now } c
  have hlen : ∀ c, CandidateStore.candidatesFor (d.candidates.expire now) c =
      CandidateStore.survivors now (d.candidates.candidatesFor c) :=
    CandidateStore.candidatesFor_expire d.candidates now
  have hcov : Covered limits
      ({ d with candidates := d.candidates.expire now } : Dispatcher β π).reconcileExpiredCandidates := by
    refine ⟨(hrec []).candidates ▸ h.tallies.expire now, fun c => ?_⟩
    rw [(hrec c).candidates]
    simp only [pending, forksOf, (hrec c).fork, (hrec c).responder, hlen]
    by_cases hnil : CandidateStore.survivors now (d.candidates.candidatesFor c) = []
    · by_cases he : d.established.get? c = none
      · simp [hnil, he]
      · have hf : d.forksOf c = [] := by
          apply not_not.mp
          exact fun hne => hn (.kept hnil he hne)
        simp only [forksOf] at hf
        simp [hnil, he, hf]
    · have hle : ¬ d.live now c < d.pending c := fun hlt => hn (.expired hnil hlt)
      simp only [hnil, ↓reduceIte, false_and]
      exact Nat.le_of_not_lt hle
  have hk : Covered limits (({ d with candidates := d.candidates.expire now } :
      Dispatcher β π).reconcileExpiredCandidates.crank P now e).1 :=
    covered_crank hP ((hT.withCandidates (d.candidates.expire now)).reconcile) hcov
      (fun c => ?_) fun hover c forks s hf hs => ?_
  · unfold update
    simp only
    split
    · rename_i hd
      rwa [hd] at hk
    · rename_i hd
      rwa [hd] at hk
  · rw [(hrec c).candidates]
    simp only [hlen, CandidateStore.survivors_survivors, max_self]
  · -- where a responder session remains, the tables are those of `d`
    rw [(hrec c).established] at hover
    have hs' := hs
    have hf' := hf
    rw [(hrec c).responder, hlen] at hs'
    rw [(hrec c).fork, hlen] at hf'
    split at hs'
    · cases hs'
    · rename_i hlive
      simp only [hlive, false_and, ↓reduceIte] at hf'
      have hpart : ((s.update P now e).1.state = .dropped ↔
          ∀ fork ∈ forks, (fork.update P now e).1.state = .dropped) := by
        apply not_not.mp
        exact fun hne => hn (.parted hover hlive hf' hs' hne)
      constructor
      · rintro ⟨s₁, hs₁, hd⟩
        rw [hs] at hs₁
        cases hs₁
        exact ⟨forks, hf, hpart.mp hd⟩
      · rintro ⟨forks₁, hf₁, hd⟩
        rw [hf] at hf₁
        cases hf₁
        exact ⟨s, hs, hpart.mpr hd⟩

theorem covered_step {op : Op β π} (hT : Kept (Tidy P) (fun _ => True) d) (h : Covered limits d)
    (hn : ¬ d.Orphans P op) : Covered limits (d.step P op) := by
  cases op with
  | initiate own peer now e =>
    simp only [step, initiate]
    split
    · exact h
    · split
      · exact h
      · exact h.of_pending rfl fun j => by
          simp only [pending, forksOf, Dict.get?_set]
          split <;> simp
  | postPdu der now e => exact covered_postPdu h hn
  | postPayload c payload =>
    simp only [step, postPayload]
    split
    · exact h.of_pending rfl fun _ => Nat.le_refl _
    · split
      · rename_i s hs
        exact h.setResponder hs _
      · split
        · exact h
        · split
          · exact h
          · rename_i template _
            have hset : Covered limits { d with
                initiatorTemplates := d.initiatorTemplates.set c template } :=
              h.of_pending rfl fun _ => Nat.le_refl _
            split
            · exact hset
            · rename_i forks hf
              exact hset.setForks (by simp [forksOf, hf])
  | getPdu =>
    simp only [step, getPdu]
    split
    · exact h
    · exact h.queues _ _
  | getPayload =>
    simp only [step, getPayload]
    split
    · exact h
    · exact h.queues _ _
  | close c => exact h.of_pending rfl fun _ => Nat.le_refl _
  | update now e => exact covered_update hP hT h hn

theorem covered_run (hrun : Run P (fun d op => ¬ d.Orphans P op) d d')
    (hT : Kept (Tidy P) (fun _ => True) d) (h : Covered limits d) :
    Kept (Tidy P) (fun _ => True) d' ∧ Covered limits d' := by
  induction hrun with
  | refl => exact ⟨hT, h⟩
  | step _ hn ih =>
    exact ⟨(tidy_stable hP fun _ _ => True).step hP.encrypt_ne_nil trivial ih.1,
      covered_step hP ih.1 ih.2 hn⟩

omit [DecidableEq π] hP in
/-- Sessions that have entries of their own number no more than the entries. -/
theorem Covered.total (h : Covered limits d) :
    (d.initiatorForks.entries.map fun entry => entry.2.length).sum +
      d.responderSessions.entries.length ≤ d.candidates.held := by
  have hforks : ∀ k ∈ d.initiatorForks.keys, k ∈ (d.initiatorForks.keys ++
      d.responderSessions.keys ++ d.candidates.byCid.keys).toFinset := by
    intro k hk
    simp [hk]
  have hresponders : ∀ k ∈ d.responderSessions.keys, k ∈ (d.initiatorForks.keys ++
      d.responderSessions.keys ++ d.candidates.byCid.keys).toFinset := by
    intro k hk
    simp [hk]
  have hentries : ∀ k ∈ d.candidates.byCid.keys, k ∈ (d.initiatorForks.keys ++
      d.responderSessions.keys ++ d.candidates.byCid.keys).toFinset := by
    intro k hk
    simp [hk]
  have hcount : d.responderSessions.entries.length =
      (d.responderSessions.entries.map fun _ => 1).sum := by simp
  rw [d.candidates.held_sum hentries, Dict.sum_entries _ List.length hforks, hcount,
    Dict.sum_entries _ (fun _ => 1) hresponders, ← Finset.sum_add_distrib]
  apply Finset.sum_le_sum
  intro c _
  have hc := h.covered c
  simp only [pending, forksOf] at hc
  have hlen : ((d.initiatorForks.get? c).map List.length).getD 0 =
      ((d.initiatorForks.get? c).getD []).length := by
    cases d.initiatorForks.get? c <;> rfl
  have hone : ((d.responderSessions.get? c).map fun _ => 1).getD 0 =
      (d.responderSessions.get? c).toList.length := by
    cases d.responderSessions.get? c <;> rfl
  rw [hlen, hone]
  exact hc

/-- In runs without calls of the kind `Orphans` the caps of the store bound the sessions
that are not established. -/
theorem sessions_bounded {keys : KeyLookup β} {config : SessionConfig} {limits : CandidateLimits}
    (hrun : Run P (fun d op => ¬ d.Orphans P op) (new keys config limits) d) :
    (∀ c, (d.forksOf c).length ≤ limits.maxPerCid) ∧
    (d.initiatorForks.entries.map fun entry => entry.2.length).sum +
      d.responderSessions.entries.length ≤ limits.maxTotal := by
  have hnew : Covered limits (new keys config limits : Dispatcher β π) :=
    ⟨CandidateStore.tallies_new limits, fun c => by simp [pending, forksOf, new]⟩
  obtain ⟨_, h⟩ := covered_run hP hrun (kept_new ..) hnew
  refine ⟨fun c => ?_, ?_⟩
  · have hc := h.covered c
    have hper := h.tallies.perCid c
    simp only [pending] at hc
    omega
  · have htotal := h.total
    have hheld := h.tallies.total
    have hin := h.tallies.inTotal
    omega

end

end

/-- A response to Alice that anyone can make. -/
def forgedResponse (i : Nat) : Pdu := ideal.dump (.build (draw 0).uuid (.sessionInitResponse
  { bobAnswer with nB := (draw i).nonce }))

/-- Alice's dispatcher with one fork more, or two. -/
def aliceOffered : Dispatcher Sym Pdu :=
  aliceCalling.step ideal (.postPdu (forgedResponse 1) 0 (draw 11))

def aliceOfferedTwice : Dispatcher Sym Pdu :=
  aliceOffered.step ideal (.postPdu (forgedResponse 2) 0 (draw 12))

section
variable {β π : Type} [DecidableEq β] [DecidableEq π] {P : Primitives β π} {d : Dispatcher β π}
  {c j : List β} {now : Int}

omit [DecidableEq π] in
theorem pending_elsewhere (hf : d.initiatorForks.keys = [c]) (hr : d.responderSessions.keys = [])
    (hj : j ≠ c) : d.pending j = 0 := by
  have hfork : d.initiatorForks.get? j = none := by
    rw [Dict.get?_eq_none_iff, hf]
    simpa using hj
  have hresponder : d.responderSessions.get? j = none := by
    rw [Dict.get?_eq_none_iff, hr]
    exact List.not_mem_nil
  simp [pending, forksOf, hfork, hresponder]

/-- With one call pending and nothing else, cranks and PDUs that are no requests take no entry
of a session that stays. -/
theorem not_orphans (hf : d.initiatorForks.keys = [c]) (hr : d.responderSessions.keys = [])
    (he : d.established.keys = []) (hlive : d.pending c ≤ d.live now c) {op : Op β π}
    (hop : (∃ der e, op = .postPdu der now e ∧
        ∀ msg, P.load der = .ok msg → msg.payload.name ≠ .sessionInitRequest) ∨
      ∃ e, op = .update now e) : ¬ Orphans P d op := by
  have hcovered : ∀ j, ¬ d.live now j < d.pending j := by
    intro j
    by_cases hj : j = c
    · rw [hj]
      exact Nat.not_lt.mpr hlive
    · rw [pending_elsewhere hf hr hj]
      exact Nat.not_lt_zero _
  have hresponder : ∀ j, d.responderSessions.get? j = none := by
    intro j
    rw [Dict.get?_eq_none_iff, hr]
    exact List.not_mem_nil
  have hestablished : ∀ j, d.established.get? j = none := by
    intro j
    rw [Dict.get?_eq_none_iff, he]
    exact List.not_mem_nil
  obtain ⟨der, e, rfl, hname⟩ | ⟨e, rfl⟩ := hop
  · intro h
    cases h with
    | swept _ _ _ hlt => exact hcovered _ hlt
    | dropped _ _ _ hs =>
      rw [hresponder] at hs
      cases hs
    | refused hl _ hn => exact hname _ hl hn
  · intro h
    cases h with
    | expired _ hlt => exact hcovered _ hlt
    | kept _ hs => exact hs (hestablished _)
    | parted _ _ _ hs =>
      rw [hresponder] at hs
      cases hs

end

theorem forgedResponse_name (i : Nat) (msg : MakeMessage Sym)
    (h : ideal.load (forgedResponse i) = .ok msg) : msg.payload.name ≠ .sessionInitRequest := by
  have hload : ideal.load (forgedResponse i) = .ok (.build (draw 0).uuid (.sessionInitResponse
    { bobAnswer with nB := (draw i).nonce })) := Ideal.ideal_correct.load_dump _ ⟨rfl, nofun⟩
  cases hload.symm.trans h
  exact nofun

theorem run_aliceOfferedTwice : Run ideal (fun d op => ¬ d.Orphans ideal op)
    (new (staticLookup 0) {} {}) aliceOfferedTwice := by
  have hcall : ¬ Orphans ideal (new (staticLookup 0) {} {})
      (.initiate (staticId 0) (staticId 1) 0 (draw 0)) := nofun
  have hfirst : ¬ Orphans ideal aliceCalling (.postPdu (forgedResponse 1) 0 (draw 11)) := by
    have hf : aliceCalling.initiatorForks.keys = [(draw 0).uuid] := by decide +kernel
    have hlive : aliceCalling.pending (draw 0).uuid ≤ aliceCalling.live 0 (draw 0).uuid := by
      decide +kernel
    exact not_orphans hf (by decide +kernel) (by decide +kernel) hlive
      (.inl ⟨_, _, rfl, forgedResponse_name 1⟩)
  have hsecond : ¬ Orphans ideal aliceOffered (.postPdu (forgedResponse 2) 0 (draw 12)) := by
    have hf : aliceOffered.initiatorForks.keys = [(draw 0).uuid] := by decide +kernel
    have hlive : aliceOffered.pending (draw 0).uuid ≤ aliceOffered.live 0 (draw 0).uuid := by
      decide +kernel
    exact not_orphans hf (by decide +kernel) (by decide +kernel) hlive
      (.inl ⟨_, _, rfl, forgedResponse_name 2⟩)
  have hcalling : Run ideal (fun d op => ¬ d.Orphans ideal op) (new (staticLookup 0) {} {})
      aliceCalling :=
    @Run.step _ _ _ _ _ _ _ _ (.initiate (staticId 0) (staticId 1) 0 (draw 0)) .refl hcall
  exact .step (.step hcalling hfirst) hsecond

/-- The caps hold of the two forks, and after a crank that retries them. -/
theorem sessions_bounded_offered :
    let d := aliceOfferedTwice.step ideal (.update 5 (draw 13))
    (d.forksOf (draw 0).uuid).length = 2 ∧ (∀ c, (d.forksOf c).length ≤ 3) ∧
    (d.initiatorForks.entries.map fun entry => entry.2.length).sum +
      d.responderSessions.entries.length ≤ 1024 := by
  have hcrank : ¬ Orphans ideal aliceOfferedTwice (.update 5 (draw 13)) := by
    have hf : aliceOfferedTwice.initiatorForks.keys = [(draw 0).uuid] := by decide +kernel
    have hlive : aliceOfferedTwice.pending (draw 0).uuid ≤
        aliceOfferedTwice.live 5 (draw 0).uuid := by decide +kernel
    exact not_orphans hf (by decide +kernel) (by decide +kernel) hlive (.inr ⟨_, rfl⟩)
  exact ⟨by decide +kernel, sessions_bounded Ideal.ideal_correct
    (.step run_aliceOfferedTwice hcrank)⟩

def aliceCrowded : Dispatcher Sym Pdu :=
  ((((aliceCalling.step ideal (.postPdu (forgedResponse 1) 0 (draw 11))).step ideal
    (.postPdu (forgedResponse 2) 0 (draw 12))).step ideal
    (.postPdu (forgedResponse 3) 0 (draw 13))).step ideal
    (.postPdu (forgedResponse 4) 60 (draw 14)))

/-- The entries of the first three forks have expired when the fourth comes. -/
theorem forks_exceed_cap :
    Run ideal (fun _ _ => True) (new (staticLookup 0) {} {}) aliceCrowded ∧
      (aliceCrowded.forksOf (draw 0).uuid).length = 4 := by
  refine ⟨?_, by decide +kernel⟩
  have hcall : Run ideal (fun _ _ => True) (new (staticLookup 0) {} {}) aliceCalling :=
    @Run.step _ _ _ _ _ _ _ _ (.initiate (staticId 0) (staticId 1) 0 (draw 0)) .refl trivial
  exact .step (.step (.step (.step hcall trivial) trivial) trivial) trivial

end Dispatcher

end KemMake
