import KemMake.Isolation
import KemMake.Promotion
import KemMake.Released

/-!
# How long a handshake is remembered

An opening PDU that is admitted leaves an entry in the store, which lasts for the TTL of the
store, and a crank forgets the handshakes that have no entry left. So once the TTL has passed
since the last opening PDU under a cid, a crank leaves nothing of it but a session that is
established, whatever else the dispatcher has had to do meanwhile.
-/

namespace KemMake

/-- The first PDU of either direction. -/
def PayloadName.opens : PayloadName → Bool
  | .sessionInitRequest | .sessionInitResponse => true
  | _ => false

namespace CandidateStore
variable {β π : Type} [DecidableEq β] {st : CandidateStore β π} {c j : List β} {last now ttl : Int}

/-- No entry of the cid outlasts one that is made at `last`. -/
structure Fleeting (c : List β) (last ttl : Int) (st : CandidateStore β π) : Prop where
  lasts : st.limits.ttlSeconds = ttl
  expires : ∀ entry ∈ st.candidatesFor c, entry.expiresAt ≤ last + ttl

theorem fleeting_new (limits : CandidateLimits) (c : List β) (last : Int) :
    (new limits : CandidateStore β π).Fleeting c last limits.ttlSeconds :=
  ⟨rfl, by simp⟩

theorem Fleeting.expire (h : st.Fleeting c last ttl) (now : Int) :
    (st.expire now).Fleeting c last ttl := by
  constructor
  · exact h.lasts
  · intro entry hentry
    rw [candidatesFor_expire] at hentry
    exact h.expires entry (List.filter_sublist.subset hentry)

theorem Fleeting.discard (h : st.Fleeting c last ttl) (j : List β) :
    (st.discard j).Fleeting c last ttl := by
  constructor
  · exact h.lasts
  · intro entry hentry
    by_cases hc : c = j
    · subst hc
      simp [candidatesFor, CandidateStore.discard] at hentry
    · rw [candidatesFor_discard st hc] at hentry
      exact h.expires entry hentry

theorem Fleeting.modify (h : st.Fleeting c last ttl) (j : List β)
    {f : List (HandshakeCandidate β π) → List (HandshakeCandidate β π)}
    (hf : ∀ l, due (f l) = due l) : (st.modify j f).Fleeting c last ttl := by
  constructor
  · rw [← h.lasts, CandidateStore.modify]
    split <;> rfl
  · intro entry hentry
    by_cases hc : c = j
    · subst hc
      cases hl : st.byCid.get? c with
      | none =>
        apply h.expires entry
        simpa [CandidateStore.modify, hl] using hentry
      | some l =>
        have hmem : entry.expiresAt ∈ due (f l) := by
          apply List.mem_map_of_mem
          simpa [CandidateStore.modify, hl, candidatesFor] using hentry
        rw [hf] at hmem
        obtain ⟨old, hold, heq⟩ := List.mem_map.mp hmem
        rw [← heq]
        apply h.expires old
        simpa [candidatesFor, hl] using hold
    · rw [candidatesFor_modify st hc] at hentry
      exact h.expires entry hentry

/-- An entry of another cid does not matter, and one of this cid must come in time. -/
theorem Fleeting.add (h : st.Fleeting c last ttl) (hle : j = c → now ≤ last)
    (receivedPdu sentPdu : π) : (st.add j receivedPdu sentPdu now).1.Fleeting c last ttl := by
  have he := h.expire now
  constructor
  · exact (congrArg CandidateLimits.ttlSeconds (limits_add st j receivedPdu sentPdu now)).trans h.lasts
  · intro entry hentry
    by_cases hc : c = j
    · subst hc
      revert hentry
      unfold CandidateStore.add
      simp only
      split
      · intro hentry
        apply he.expires entry
        simpa [candidatesFor] using hentry
      · split
        · intro hentry
          apply he.expires entry
          simpa [candidatesFor] using hentry
        · intro hentry
          simp only [candidatesFor, Dict.get?_set_self, Option.getD_some, List.mem_append,
            List.mem_singleton] at hentry
          obtain hold | rfl := hentry
          · exact he.expires entry hold
          · have httl : (st.expire now).limits.ttlSeconds = ttl := he.lasts
            have := hle rfl
            simp only [httl]
            omega
    · rw [candidatesFor_add st hc] at hentry
      exact h.expires entry (List.filter_sublist.subset hentry)

end CandidateStore

namespace Dispatcher
open CandidateStore
variable {β π : Type} [DecidableEq β] [DecidableEq π] {P : Primitives β π} {d d' : Dispatcher β π}
  {s : Session β π} {c j : List β} {der : π} {last now ttl : Int} {e : Entropy β}

/-! ## What a PDU does to the store -/

theorem deliver_candidates (P : Primitives β π) (d : Dispatcher β π) (s : Session β π) (der : π)
    (now : Int) (j : List β) (e : Entropy β) :
    (d.deliver P s der now j e).1.candidates = d.candidates := by
  obtain ⟨_, _, hd⟩ := deliver_queues P d s der now j e
  rw [hd]

section
variable {R : CandidateStore β π → Prop} (hdiscard : ∀ st c, R st → R (st.discard c))
  (hmodify : ∀ st c f, (∀ l, due (f l) = due l) → R st → R (st.modify c f))
include hdiscard

omit [DecidableEq π] in
theorem reapResponder_keeps (h : R d.candidates) (j : List β) : R (d.reapResponder j).candidates := by
  unfold reapResponder
  split
  · exact h
  · split
    · exact hdiscard _ j h
    · split
      · exact hdiscard _ j h
      · exact h

theorem deliverResponder_keeps (h : R d.candidates) (s : Session β π) (der : π) (now : Int)
    (j : List β) (e : Entropy β) : R (d.deliverResponder P s der now j e).1.candidates := by
  rw [← deliver_candidates P d s der now j e] at h
  unfold deliverResponder
  rcases hu : d.deliver P s der now j e with ⟨d', s', _ | x⟩ <;> rw [hu] at h
  · apply reapResponder_keeps hdiscard
    exact h
  · exact h

theorem routeToForks_keeps (h : R d.candidates) (forks : List (Session β π)) (der : π) (now : Int)
    (j : List β) (e : Entropy β) : R (d.routeToForks P j forks der now e).1.candidates := by
  unfold routeToForks
  rcases offer P der now e forks with ⟨forks', contest⟩
  cases contest with
  | «open» | raised => exact h
  | won winner => exact hdiscard _ j h

include hmodify

theorem openResponder_keeps (h : R (d.candidates.add j der P.noPdu now).1) (e : Entropy β) :
    R (d.openResponder P der now j e).1.candidates := by
  unfold openResponder
  rcases ha : d.candidates.add j der P.noPdu now with ⟨candidates, x | candidate⟩ <;> rw [ha] at h
  · exact h
  · have hd : R (Dispatcher.deliver P { d with candidates } (.new .responder none d.keys d.config) der
        now j e).1.candidates := by
      rw [deliver_candidates]
      exact h
    simp only
    rcases hu : Dispatcher.deliver P { d with candidates } (.new .responder none d.keys d.config) der
      now j e with ⟨d', s', _ | x⟩ <;> rw [hu] at hd <;> simp only
    · split
      · exact hdiscard _ j hd
      · apply reapResponder_keeps hdiscard
        split
        · apply hmodify _ j _ _ hd
          intro l
          cases l <;> rfl
        · exact hd
    · exact hd

omit hdiscard in
theorem openFork_keeps (h : R (d.candidates.add j der P.noPdu now).1) (template : Session β π)
    (e : Entropy β) : R (d.openFork P template der now j e).1.candidates := by
  unfold openFork
  rcases ha : d.candidates.add j der P.noPdu now with ⟨candidates, x | candidate⟩ <;> rw [ha] at h
  · exact h
  · simp only
    cases template.fork with
    | error x => exact h
    | ok twin =>
      have hd : R (Dispatcher.deliver P { d with candidates } twin der now j e).1.candidates := by
        rw [deliver_candidates]
        exact h
      simp only
      rcases hu : Dispatcher.deliver P { d with candidates } twin der now j e with
        ⟨d', s', _ | x⟩ <;> rw [hu] at hd <;> simp only
      · apply hmodify _ j _ _ hd
        intro l
        simp only [due, List.map_map]
        apply List.map_congr_left
        intro entry _
        simp only [Function.comp_apply]
        split <;> rfl
      · exact hd

/-- Only a PDU that opens a handshake adds an entry. -/
theorem postPdu_keeps (hadd : ∀ msg, P.load der = .ok msg → msg.payload.name.opens →
      ∀ st receivedPdu sentPdu, R st → R (st.add msg.cid receivedPdu sentPdu now).1)
    (h : R d.candidates) (e : Entropy β) : R (d.postPdu P der now e).1.candidates := by
  unfold postPdu
  split
  · exact h
  · rename_i msg hl
    split
    · rename_i s _
      have hd := deliver_candidates P d s der now msg.cid e
      unfold deliverEstablished
      simp only [hd]
      exact h
    · split
      · rename_i hname
        have hst := hadd msg hl (by simp [hname, PayloadName.opens]) d.candidates der P.noPdu h
        unfold routeSessionInitRequest
        split
        · exact deliverResponder_keeps hdiscard h _ der now msg.cid e
        · exact openResponder_keeps hdiscard hmodify hst e
      · rename_i hname
        have hst := hadd msg hl (by simp [hname, PayloadName.opens]) d.candidates der P.noPdu h
        unfold routeSessionInitResponse
        split
        · exact h
        · split
          · rename_i hr
            obtain ⟨_, _, _, rfl⟩ := resendFork_length hr
            exact h
          · exact openFork_keeps hmodify hst _ e
      · split
        · exact deliverResponder_keeps hdiscard h _ der now msg.cid e
        · split
          · exact routeToForks_keeps hdiscard h _ der now msg.cid e
          · exact h

end

/-! ## Runs -/

/-- Calls that leave the store alone. -/
theorem step_candidates {op : Op β π} (hpdu : ∀ der now e, op ≠ .postPdu der now e)
    (hupdate : ∀ now e, op ≠ .update now e) : (d.step P op).candidates = d.candidates := by
  cases op with
  | initiate own peer now e =>
    simp only [step, initiate]
    split
    · rfl
    · split <;> rfl
  | postPdu der now e => exact absurd rfl (hpdu der now e)
  | postPayload cid payload =>
    simp only [step, postPayload]
    split
    · rfl
    · split
      · rfl
      · split
        · rfl
        · split
          · rfl
          · split <;> rfl
  | getPdu =>
    simp only [step, getPdu]
    split <;> rfl
  | getPayload =>
    simp only [step, getPayload]
    split <;> rfl
  | close cid => rfl
  | update now e => exact absurd rfl (hupdate now e)

/-- No handshake is opened under the cid after `last`. -/
def OpensBy (P : Primitives β π) (c : List β) (last : Int) : Op β π → Prop
  | .postPdu der now _ =>
    ∀ msg, P.load der = .ok msg → msg.payload.name.opens → msg.cid = c → now ≤ last
  | _ => True

theorem fleeting_step (h : d.candidates.Fleeting c last ttl) {op : Op β π}
    (hop : OpensBy P c last op) : (d.step P op).candidates.Fleeting c last ttl := by
  cases op with
  | postPdu der now e =>
    exact postPdu_keeps (R := CandidateStore.Fleeting c last ttl) (fun _ j hst => hst.discard j)
      (fun _ j _ hf hst => hst.modify j hf)
      (fun msg hl hopens _ receivedPdu sentPdu hst =>
        hst.add (hop msg hl hopens) receivedPdu sentPdu) h e
  | update now e =>
    exact update_keeps (R := CandidateStore.Fleeting c last ttl) (fun _ j hst => hst.discard j)
      (h.expire now) e
  | initiate | postPayload | getPdu | getPayload | close =>
    rw [step_candidates (by simp) (by simp)]
    exact h

theorem fleeting_run {ok : Dispatcher β π → Op β π → Prop} (hrun : Run P ok d d')
    (hok : ∀ d op, ok d op → OpensBy P c last op) (h : d.candidates.Fleeting c last ttl) :
    d'.candidates.Fleeting c last ttl := by
  induction hrun with
  | refl => exact h
  | step _ hop ih => exact fleeting_step ih (hok _ _ hop)

theorem tallies_run {limits : CandidateLimits} {ok : Dispatcher β π → Op β π → Prop}
    (hrun : Run P ok d d') (h : d.candidates.Tallies limits) : d'.candidates.Tallies limits := by
  induction hrun with
  | refl => exact h
  | step _ _ ih => exact tallies_step ih _

/-- Nothing is under the cid, an established session apart. -/
structure Forgotten (c : List β) (d : Dispatcher β π) : Prop where
  responder : d.responderSessions.get? c = none
  template : d.initiatorTemplates.get? c = none
  fork : d.initiatorForks.get? c = none
  candidates : d.candidates.byCid.get? c = none

omit [DecidableEq π] in
theorem Forgotten.beside (h : Forgotten c d) (hb : Beside c now d d')
    (hst : d'.candidates = d.candidates ∨ d'.candidates = d.candidates.discard j) :
    Forgotten c d' := by
  constructor
  · exact hb.responder.trans h.responder
  · exact hb.template.trans h.template
  · exact hb.fork.trans h.fork
  · obtain hst | hst := hst
    · rw [hst]
      exact h.candidates
    · rw [hst, CandidateStore.discard, Dict.get?_erase, h.candidates, ite_self]

/-- What each step of the three sweeps keeps. -/
theorem crank_keeps {Q : Dispatcher β π → Prop}
    (hestablished : ∀ d c next, Q d → Q (updateEstablished P now e d c next).1)
    (hresponder : ∀ d c next, Q d → Q (updateResponder P now e d c next).1)
    (hforks : ∀ d c next, Q d → Q (updateForks P now e d c next).1) (h : Q d) :
    Q (d.crank P now e).1 := by
  have h₁ := sweep_keeps hestablished d.established.keys ⊤ h
  unfold crank
  split
  · rename_i hd₁
    rwa [hd₁] at h₁
  · rename_i d₁ next₁ hd₁
    rw [hd₁] at h₁
    have h₂ := sweep_keeps hresponder d₁.responderSessions.keys next₁ h₁
    split
    · rename_i hd₂
      rwa [hd₂] at h₂
    · rename_i d₂ next₂ hd₂
      rw [hd₂] at h₂
      exact sweep_keeps hforks d₂.initiatorForks.keys next₂ h₂

/-- What a sweep keeps of a cid that is forgotten. -/
def StaysForgotten (c : List β) (d d' : Dispatcher β π) : Prop :=
  Forgotten c d' ∧ (d.established.get? c = none → d'.established.get? c = none)

theorem forgotten_updateEstablished (h : Forgotten c d) (j : List β) (next : WithTop Int) :
    StaysForgotten c d (updateEstablished P now e d j next).1 := by
  by_cases hc : j = c
  · subst hc
    unfold updateEstablished
    split
    · exact ⟨h, id⟩
    · rename_i s hs
      rcases s.update P now e with ⟨s', x | ⟨r, deadline⟩⟩
      · simp only
        split
        · exact ⟨⟨h.responder, h.template, h.fork, h.candidates⟩, by simp [hs]⟩
        · exact ⟨⟨h.responder, h.template, h.fork, h.candidates⟩, by simp [hs]⟩
      · exact ⟨⟨h.responder, h.template, h.fork, h.candidates⟩, by simp [hs]⟩
  · have hb : Beside c now d (updateEstablished P now e d j next).1 :=
      beside_updateEstablished (Ne.symm hc) d next
    exact ⟨h.beside (j := j) hb (.inl (updateEstablished_frame d j next).2.2),
      fun he => hb.established.trans he⟩

theorem forgotten_updateResponder (h : Forgotten c d) (j : List β) (next : WithTop Int) :
    StaysForgotten c d (updateResponder P now e d j next).1 := by
  by_cases hc : j = c
  · subst hc
    simp only [updateResponder, h.responder]
    exact ⟨h, id⟩
  · have hb : Beside c now d (updateResponder P now e d j next).1 :=
      beside_updateResponder (Ne.symm hc) d next
    exact ⟨h.beside hb (updateResponder_candidates d next), fun he => hb.established.trans he⟩

theorem forgotten_updateForks (h : Forgotten c d) (j : List β) (next : WithTop Int) :
    StaysForgotten c d (updateForks P now e d j next).1 := by
  by_cases hc : j = c
  · subst hc
    simp only [updateForks, h.fork]
    exact ⟨h, id⟩
  · have hb : Beside c now d (updateForks P now e d j next).1 :=
      beside_updateForks (Ne.symm hc) d next
    exact ⟨h.beside hb (updateForks_candidates d next), fun he => hb.established.trans he⟩

/-- No sweep brings back what is forgotten. -/
theorem forgotten_crank (h : Forgotten c d) (now : Int) (e : Entropy β) :
    StaysForgotten c d (d.crank P now e).1 := by
  have hstep : ∀ {d₁ d₂ : Dispatcher β π}, StaysForgotten c d d₁ → StaysForgotten c d₁ d₂ →
      StaysForgotten c d d₂ := fun h₁ h₂ => ⟨h₂.1, fun he => h₂.2 (h₁.2 he)⟩
  apply crank_keeps (Q := StaysForgotten c d)
  · exact fun _ j next h₁ => hstep h₁ (forgotten_updateEstablished h₁.1 j next)
  · exact fun _ j next h₁ => hstep h₁ (forgotten_updateResponder h₁.1 j next)
  · exact fun _ j next h₁ => hstep h₁ (forgotten_updateForks h₁.1 j next)
  · exact ⟨h, id⟩

/-- A crank that finds every entry of the cid expired. -/
theorem forgotten_update (hx : Exclusive d c) (hf : d.candidates.Fleeting c last ttl)
    (hle : last + ttl ≤ now) (e : Entropy β) : StaysForgotten c d (d.update P now e).1 := by
  have hnil : survivors now (d.candidates.candidatesFor c) = [] := by
    rw [survivors, List.filter_eq_nil_iff]
    intro entry hentry
    have := hf.expires entry hentry
    simp only [HandshakeCandidate.isExpired, ge_iff_le, Bool.not_eq_true',
      decide_eq_false_iff_not, not_not]
    omega
  have hrec := reconciled { d with candidates := d.candidates.expire now } c
  have hnone : (d.candidates.expire now).candidatesFor c = [] := by
    rw [candidatesFor_expire, hnil]
  rw [update_fst]
  generalize ({ d with candidates := d.candidates.expire now } :
    Dispatcher β π).reconcileExpiredCandidates = d₀ at hrec
  have h₀ : Forgotten c d₀ := by
    have halone : d.established.get? c ≠ none → d.initiatorTemplates.get? c = none :=
      fun he => (hx.alone he).2.1
    constructor
    · rw [hrec.responder, if_pos hnone]
    · rw [hrec.template]
      split
      · rfl
      · rename_i hno
        by_cases he : d.established.get? c = none
        · by_cases hforks : d.initiatorForks.get? c = none
          · exact hx.paired.mpr hforks
          · exact absurd ⟨hnone, he, hforks⟩ hno
        · exact halone he
    · rw [hrec.fork]
      split
      · rfl
      · rename_i hno
        by_cases he : d.established.get? c = none
        · exact absurd ⟨hnone, he⟩ hno
        · exact hx.paired.mp (halone he)
    · rw [hrec.candidates]
      exact (get?_swept now d.candidates.byCid c).trans (if_pos hnil)
  obtain ⟨hforgotten, hest⟩ := forgotten_crank h₀ now e
  rw [hrec.established] at hest
  exact ⟨hforgotten, hest⟩

/-- Once the TTL of the store has passed since the last opening PDU under a cid, a crank, raising
or not, leaves no trace of its handshakes, whatever goes on under other cids. A session that is
established stays, and none becomes so. If that goes for all cids, the counter is zero. -/
theorem handshakes_forgotten {keys : KeyLookup β} {config : SessionConfig} {limits : CandidateLimits}
    {cids : Set (List β)}
    (hrun : Run P (fun d op => FreshCids d op ∧ ∀ c ∈ cids, OpensBy P c last op)
      (new keys config limits) d) (hle : last + limits.ttlSeconds ≤ now) (e : Entropy β) :
    (∀ c ∈ cids, Forgotten c (d.update P now e).1 ∧ Remains P c d (d.update P now e).1 ∧
      (d.established.get? c = none → (d.update P now e).1.established.get? c = none)) ∧
    ((∀ c, c ∈ cids) → (d.update P now e).1.candidates.total = 0) := by
  have hfresh : Run P FreshCids (new keys config limits) d := hrun.mono fun _ _ h => h.1
  have hstays : ∀ c ∈ cids, StaysForgotten c d (d.update P now e).1 := by
    intro c hc
    exact forgotten_update (exclusive_run hfresh (exclusive_new keys config limits c))
      (fleeting_run hrun (fun _ _ hop => hop.2 c hc) (fleeting_new limits c last)) hle e
  constructor
  · intro c hc
    have hx := exclusive_run hfresh (exclusive_new keys config limits c)
    exact ⟨(hstays c hc).1, (promotes_update P now e hx).remains, (hstays c hc).2⟩
  · intro hall
    have ht : (d.update P now e).1.candidates.Tallies limits :=
      tallies_step (tallies_run hrun (tallies_new limits)) (.update now e)
    rw [ht.total, held_sum _ (S := ∅) fun c hc => ?_]
    · rfl
    · obtain ⟨v, hv⟩ := Dict.mem_keys_iff.mp hc
      cases (hstays c (hall c)).1.candidates.symm.trans hv

/-- Two calls of Alice, the second fifty ticks after the first. -/
def bobCalledTwice (limits : CandidateLimits) : Dispatcher Sym Pdu :=
  ((new (staticLookup 1) {} limits).step ideal (.postPdu (callRequest 0) 0 (draw 1))).step ideal
    (.postPdu (callRequest 10) 50 (draw 11))

/-- When the TTL of the first call is over, the second is still pending. -/
theorem handshakes_forgotten_calledTwice :
    let d := ((bobCalledTwice {}).update ideal 60 (draw 20)).1
    ((∀ c ∈ ({(draw 0).uuid} : Set (List Sym)), Forgotten c d ∧
      Remains ideal c (bobCalledTwice {}) d ∧
      ((bobCalledTwice {}).established.get? c = none → d.established.get? c = none)) ∧
      ((∀ c, c ∈ ({(draw 0).uuid} : Set (List Sym))) → d.candidates.total = 0)) ∧
    (bobCalledTwice {}).responderSessions.keys = [(draw 0).uuid, (draw 10).uuid] ∧
    d.responderSessions.keys = [(draw 10).uuid] := by
  have hsecond : (ideal.load (callRequest 10)).map (·.cid) = .ok (draw 10).uuid := by
    decide +kernel
  have hne : (draw 10).uuid ≠ (draw 0).uuid := by decide
  have hfirst : Run ideal (fun d op => FreshCids d op ∧
      ∀ c ∈ ({(draw 0).uuid} : Set (List Sym)), OpensBy ideal c 0 op) (new (staticLookup 1) {} {})
      ((new (staticLookup 1) {} {}).step ideal (.postPdu (callRequest 0) 0 (draw 1))) :=
    .step .refl ⟨trivial, fun _ _ _ _ _ _ => Int.le_refl 0⟩
  have hboth : Run ideal (fun d op => FreshCids d op ∧
      ∀ c ∈ ({(draw 0).uuid} : Set (List Sym)), OpensBy ideal c 0 op) (new (staticLookup 1) {} {})
      (bobCalledTwice {}) := by
    apply Run.step hfirst
    refine ⟨trivial, fun c hc msg hl _ hcid => ?_⟩
    rw [hl] at hsecond
    exact absurd ((Except.ok.inj hsecond).symm.trans (hcid.trans hc)) hne
  exact ⟨handshakes_forgotten hboth (by decide) (draw 20), by decide +kernel, by decide +kernel⟩

end Dispatcher

end KemMake
