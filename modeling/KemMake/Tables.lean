import KemMake.Dispatcher
import KemMake.SessionCases

/-!
# What the dispatcher's operations do to the sessions they hold

`Kept I O d`: every session in the tables of `d` satisfies `I` for its cid and its
table, and every PDU in the outgoing queue satisfies `O`. Each operation keeps
this if single sessions do under the calls that the operation makes on them.
-/

namespace KemMake

/-- The drained session: both output queues empty. -/
abbrev Session.drained {β π : Type} (s : Session β π) : Session β π :=
  { s with outgoingPdus := [], outgoingPayloads := [] }

namespace Dispatcher
variable {β π : Type} [DecidableEq β]

/-- The four tables. -/
inductive Slot where
  | established
  | responder
  | template
  | fork
  deriving DecidableEq

/-- `s` is in the table `t` under the cid `c`. -/
def Holds (d : Dispatcher β π) (c : List β) : Slot → Session β π → Prop
  | .established, s => d.established.get? c = some s
  | .responder, s => d.responderSessions.get? c = some s
  | .template, s => d.initiatorTemplates.get? c = some s
  | .fork, s => ∃ forks, d.initiatorForks.get? c = some forks ∧ s ∈ forks

structure Kept (I : List β → Slot → Session β π → Prop) (O : π → Prop) (d : Dispatcher β π) :
    Prop where
  established : ∀ c s, d.established.get? c = some s → I c .established s
  responder : ∀ c s, d.responderSessions.get? c = some s → I c .responder s
  template : ∀ c s, d.initiatorTemplates.get? c = some s → I c .template s
  fork : ∀ c forks, d.initiatorForks.get? c = some forks → ∀ s ∈ forks, I c .fork s
  sent : ∀ pdu ∈ d.outgoingPdus, O pdu

section
variable {I J : List β → Slot → Session β π → Prop} {O O' : π → Prop} {d d' : Dispatcher β π}

theorem kept_new (keys : KeyLookup β) (config : SessionConfig) (limits : CandidateLimits) :
    Kept I O (new keys config limits : Dispatcher β π) where
  established _ _ h := by cases h
  responder _ _ h := by cases h
  template _ _ h := by cases h
  fork _ _ h := by cases h
  sent _ h := by cases h

theorem Kept.mono (h : Kept I O d) (hI : ∀ c t s, I c t s → J c t s) (hO : ∀ pdu, O pdu → O' pdu) :
    Kept J O' d where
  established c s hs := hI _ _ _ (h.established c s hs)
  responder c s hs := hI _ _ _ (h.responder c s hs)
  template c s hs := hI _ _ _ (h.template c s hs)
  fork c forks hf s hs := hI _ _ _ (h.fork c forks hf s hs)
  sent pdu hp := hO _ (h.sent pdu hp)

theorem Kept.holds (h : Kept I O d) {c : List β} {t : Slot} {s : Session β π} (hs : d.Holds c t s) :
    I c t s := by
  cases t with
  | established => exact h.established c s hs
  | responder => exact h.responder c s hs
  | template => exact h.template c s hs
  | fork =>
    obtain ⟨forks, hf, hmem⟩ := hs
    exact h.fork c forks hf s hmem

theorem kept_of_holds (hI : ∀ c t s, d.Holds c t s → I c t s)
    (hO : ∀ pdu ∈ d.outgoingPdus, O pdu) : Kept I O d :=
  ⟨fun c s hs => hI c .established s hs, fun c s hs => hI c .responder s hs,
    fun c s hs => hI c .template s hs, fun c forks hf s hs => hI c .fork s ⟨forks, hf, hs⟩, hO⟩

/-- Dropping entries and changing anything but the tables and the queue keeps `Kept`. -/
theorem Kept.shrink (h : Kept I O d)
    (he : ∀ c s, d'.established.get? c = some s → d.established.get? c = some s)
    (hr : ∀ c s, d'.responderSessions.get? c = some s → d.responderSessions.get? c = some s)
    (ht : ∀ c s, d'.initiatorTemplates.get? c = some s → d.initiatorTemplates.get? c = some s)
    (hf : ∀ c s, d'.initiatorForks.get? c = some s → d.initiatorForks.get? c = some s)
    (ho : ∀ pdu ∈ d'.outgoingPdus, pdu ∈ d.outgoingPdus) : Kept I O d' where
  established c s hs := h.established c s (he c s hs)
  responder c s hs := h.responder c s (hr c s hs)
  template c s hs := h.template c s (ht c s hs)
  fork c forks hs := h.fork c forks (hf c forks hs)
  sent pdu hp := h.sent pdu (ho pdu hp)

theorem Kept.withCandidates (h : Kept I O d) (candidates : CandidateStore β π) :
    Kept I O { d with candidates } :=
  h.shrink (fun _ _ => id) (fun _ _ => id) (fun _ _ => id) (fun _ _ => id) (fun _ => id)

theorem Kept.setEstablished (h : Kept I O d) {c : List β} {s : Session β π}
    (hs : I c .established s) : Kept I O { d with established := d.established.set c s } := by
  refine ⟨fun c' s' h' => ?_, h.responder, h.template, h.fork, h.sent⟩
  simp only [Dict.get?_set] at h'
  split at h'
  · rename_i hc
    cases h'
    exact hc ▸ hs
  · exact h.established c' s' h'

theorem Kept.setResponder (h : Kept I O d) {c : List β} {s : Session β π}
    (hs : I c .responder s) :
    Kept I O { d with responderSessions := d.responderSessions.set c s } := by
  refine ⟨h.established, fun c' s' h' => ?_, h.template, h.fork, h.sent⟩
  simp only [Dict.get?_set] at h'
  split at h'
  · rename_i hc
    cases h'
    exact hc ▸ hs
  · exact h.responder c' s' h'

theorem Kept.setTemplate (h : Kept I O d) {c : List β} {s : Session β π}
    (hs : I c .template s) :
    Kept I O { d with initiatorTemplates := d.initiatorTemplates.set c s } := by
  refine ⟨h.established, h.responder, fun c' s' h' => ?_, h.fork, h.sent⟩
  simp only [Dict.get?_set] at h'
  split at h'
  · rename_i hc
    cases h'
    exact hc ▸ hs
  · exact h.template c' s' h'

theorem Kept.setForks (h : Kept I O d) {c : List β} {forks : List (Session β π)}
    (hs : ∀ s ∈ forks, I c .fork s) :
    Kept I O { d with initiatorForks := d.initiatorForks.set c forks } := by
  refine ⟨h.established, h.responder, h.template, fun c' forks' h' => ?_, h.sent⟩
  simp only [Dict.get?_set] at h'
  split at h'
  · rename_i hc
    cases h'
    exact hc ▸ hs
  · exact h.fork c' forks' h'

theorem Kept.drain (h : Kept I O d) {c : List β} {s : Session β π}
    (hs : ∀ pdu ∈ s.outgoingPdus, O pdu) : Kept I O (d.drain s c).1 :=
  ⟨h.established, h.responder, h.template, h.fork, fun pdu hp =>
    (List.mem_append.mp hp).elim (h.sent pdu) (hs pdu)⟩

theorem Kept.dropResponder (h : Kept I O d) (c : List β) : Kept I O (d.dropResponder c) :=
  h.shrink (fun _ _ => id) (fun _ _ => Dict.get?_of_erase) (fun _ _ => id) (fun _ _ => id)
    (fun _ => id)

/-- Promotion out of a dispatcher that differs from `d` at the promoted cid only. -/
theorem Kept.promote_of (h : Kept I O d) {c : List β} {s : Session β π}
    (hs : I c .established s) (he : d'.established = d.established)
    (hr : ∀ j, j ≠ c → d'.responderSessions.get? j = d.responderSessions.get? j)
    (ht : ∀ j, j ≠ c → d'.initiatorTemplates.get? j = d.initiatorTemplates.get? j)
    (hf : ∀ j, j ≠ c → d'.initiatorForks.get? j = d.initiatorForks.get? j)
    (ho : ∀ pdu ∈ d'.outgoingPdus, O pdu) : Kept I O (d'.promote c s) := by
  refine ⟨fun j s' h' => ?_, fun j s' h' => ?_, fun j s' h' => ?_, fun j s' h' => ?_, ho⟩
  · simp only [Dispatcher.promote, he, Dict.get?_set] at h'
    split at h'
    · rename_i hj
      cases h'
      exact hj ▸ hs
    · exact h.established j s' h'
  · obtain ⟨hj, h'⟩ := Dict.get?_erase_eq_some.mp h'
    exact h.responder j s' (hr j hj ▸ h')
  · obtain ⟨hj, h'⟩ := Dict.get?_erase_eq_some.mp h'
    exact h.template j s' (ht j hj ▸ h')
  · obtain ⟨hj, h'⟩ := Dict.get?_erase_eq_some.mp h'
    exact h.fork j s' (hf j hj ▸ h')

theorem Kept.promote (h : Kept I O d) {c : List β} {s : Session β π} (hs : I c .established s) :
    Kept I O (d.promote c s) :=
  h.promote_of hs rfl (fun _ _ => rfl) (fun _ _ => rfl) (fun _ _ => rfl) h.sent

/-- What `I` and `O` need of the sessions on their way through the bookkeeping. -/
structure Handled (I : List β → Slot → Session β π → Prop) (O : π → Prop) : Prop where
  sent : ∀ c t s, I c t s → ∀ pdu ∈ s.outgoingPdus, O pdu
  drained : ∀ c t s, I c t s → I c t s.drained
  establish : ∀ c t s, I c t s → s.state = .established → I c .established s

theorem Kept.reapResponder (h : Kept I O d) (hH : Handled I O) (c : List β) :
    Kept I O (d.reapResponder c) := by
  unfold Dispatcher.reapResponder
  split
  · exact h
  · rename_i s hs
    have hI := h.responder c s hs
    split
    · rename_i he
      exact (h.drain (hH.sent _ _ _ hI)).promote
        (hH.establish _ _ _ (hH.drained _ _ _ hI) he)
    · split
      · exact h.dropResponder c
      · exact h

omit [DecidableEq β] in
theorem foldl_keeps {Q : Dispatcher β π → Prop} {κ : Type} {f : Dispatcher β π → κ → Dispatcher β π}
    (hf : ∀ d k, Q d → Q (f d k)) (ks : List κ) (h : Q d) : Q (ks.foldl f d) := by
  induction ks generalizing d with
  | nil => exact h
  | cons k rest ih => exact ih (hf d k h)

theorem Kept.reconcile (h : Kept I O d) : Kept I O d.reconcileExpiredCandidates := by
  unfold reconcileExpiredCandidates
  refine foldl_keeps (Q := Kept I O) (fun d c hd => ?_) _
    (foldl_keeps (Q := Kept I O) (fun d c hd => ?_) _ h)
  · split
    · exact hd.shrink (fun _ _ => id) (fun _ _ => id) (fun _ _ => Dict.get?_of_erase)
        (fun _ _ => Dict.get?_of_erase) (fun _ => id)
    · exact hd
  · split
    · exact hd.shrink (fun _ _ => id) (fun _ _ => Dict.get?_of_erase) (fun _ _ => id)
        (fun _ _ => id) (fun _ => id)
    · exact hd

end

variable {P : Primitives β π}

/-! ## Delivery -/

section
variable [DecidableEq π] {J : List β → Slot → Session β π → Prop} {O : π → Prop}
  {d : Dispatcher β π} {s : Session β π} {der : π} {now : Int} {cid : List β} {e : Entropy β}

/-- `deliver` returns the updated session, drained unless an exception escapes. -/
theorem deliver_cases (P : Primitives β π) (d : Dispatcher β π) (s : Session β π) (der : π)
    (now : Int) (cid : List β) (e : Entropy β) :
    (∃ x, ((s.postPdu der).update P now e).2 = .error x ∧ x.caught = false ∧
      d.deliver P s der now cid e = (d, ((s.postPdu der).update P now e).1, some x)) ∨
    (∀ x, ((s.postPdu der).update P now e).2 = .error x → x.caught = true) ∧
      d.deliver P s der now cid e = ((d.drain ((s.postPdu der).update P now e).1 cid).1,
        ((s.postPdu der).update P now e).1.drained, none) := by
  unfold deliver
  rcases (s.postPdu der).update P now e with ⟨s', x | r⟩
  · cases hx : x.caught with
    | false => exact .inl ⟨x, rfl, hx, by simp [hx]⟩
    | true =>
      refine .inr ⟨fun y hy => ?_, by simp [hx]; rfl⟩
      cases hy
      exact hx
  · exact .inr ⟨fun y hy => (by cases hy), rfl⟩

theorem Kept.deliver (h : Kept J O d) (hJ : Handled J O) (cid : List β) {t : Slot} {c : List β}
    (hs : J c t ((s.postPdu der).update P now e).1) :
    Kept J O (d.deliver P s der now cid e).1 ∧ J c t (d.deliver P s der now cid e).2.1 := by
  rcases deliver_cases P d s der now cid e with ⟨x, _, _, hd⟩ | ⟨_, hd⟩
  · rw [hd]
    exact ⟨h, hs⟩
  · rw [hd]
    exact ⟨h.drain (hJ.sent _ _ _ hs), hJ.drained _ _ _ hs⟩

/-- What a call may leave of a session of the table `t`: it stays, or it has returned
established and is due for promotion. -/
def Left (J : List β → Slot → Session β π → Prop) (c : List β) (t : Slot) {ρ : Type}
    (u : Session β π × Except PyError ρ) : Prop :=
  J c t u.1 ∨ (u.1.state = .established ∧ ∃ r, u.2 = .ok r) ∧ J c .established u.1

section
variable {c : List β} {t : Slot} {ρ : Type} {u : Session β π × Except PyError ρ}

omit [DecidableEq β] [DecidableEq π] in
theorem Left.established (h : Left J c .established u) : J c .established u.1 :=
  h.elim id And.right

omit [DecidableEq β] [DecidableEq π] in
theorem Left.of_error {x : PyError} (h : Left J c t u) (hx : u.2 = .error x) : J c t u.1 := by
  rcases h with h | ⟨⟨_, r, hr⟩, _⟩
  · exact h
  · rw [hx] at hr
    cases hr

omit [DecidableEq β] [DecidableEq π] in
theorem Left.of_state (h : Left J c t u) (hs : u.1.state ≠ .established) : J c t u.1 :=
  h.elim id fun h => absurd h.1.1 hs

omit [DecidableEq β] [DecidableEq π] in
theorem Left.promote (h : Left J c t u) (hJ : Handled J O) (hs : u.1.state = .established) :
    J c .established u.1 :=
  h.elim (fun h => hJ.establish _ _ _ h hs) And.right

end

/-- What one PDU needs of `I` before it and `J` after it. -/
structure Serves (P : Primitives β π) (d : Dispatcher β π) (der : π) (now : Int) (e : Entropy β)
    (I J : List β → Slot → Session β π → Prop) : Prop where
  deliver : ∀ msg t s, P.load der = .ok msg → t ≠ .template → I msg.cid t s →
    Left J msg.cid t ((s.postPdu der).update P now e)
  /-- A response establishes no fork. -/
  call : ∀ msg resp s, P.load der = .ok msg → msg.payload = .sessionInitResponse resp →
    I msg.cid .fork s → J msg.cid .fork ((s.postPdu der).update P now e).1
  fork : ∀ msg s twin, P.load der = .ok msg → I msg.cid .template s → s.fork = .ok twin →
    I msg.cid .fork twin
  opened : ∀ msg req candidate, P.load der = .ok msg → msg.payload = .sessionInitRequest req →
    d.established.get? msg.cid = none → d.responderSessions.get? msg.cid = none →
    (d.candidates.add msg.cid der P.noPdu now).2 = .ok candidate →
    (((Session.new .responder none d.keys d.config).postPdu der).update P now e).1.state ≠ .initial ∨
      (∃ x, (((Session.new .responder none d.keys d.config).postPdu der).update P now e).2 =
        .error x ∧ x.caught = false) →
    J msg.cid .responder
      (((Session.new .responder none d.keys d.config).postPdu der).update P now e).1

section
variable (hP : ∀ aead key nonce text ad, P.encrypt aead key nonce text ad ≠ [])
  {I : List β → Slot → Session β π → Prop} (h : Kept I O d) (hS : Serves P d der now e I J)
  (hJ : Handled J O) (hIJ : ∀ c t s, I c t s → J c t s)
include h hS hJ hIJ

theorem kept_deliverEstablished {msg : MakeMessage β} (hl : P.load der = .ok msg)
    (hs : d.established.get? msg.cid = some s) :
    Kept J O (d.deliverEstablished P s der now msg.cid e).1 := by
  have hk := (h.mono hIJ fun _ => id).deliver hJ msg.cid
    (hS.deliver _ _ _ hl (by simp) (h.established _ _ hs)).established
  exact hk.1.setEstablished hk.2

theorem kept_deliverResponder {msg : MakeMessage β} (hl : P.load der = .ok msg)
    (hs : d.responderSessions.get? msg.cid = some s) :
    Kept J O (d.deliverResponder P s der now msg.cid e).1 := by
  have hm := h.mono hIJ fun _ => id
  have hleft := hS.deliver _ _ _ hl (by simp) (h.responder _ _ hs)
  unfold Dispatcher.deliverResponder
  rcases deliver_cases P d s der now msg.cid e with ⟨x, hx, _, hd⟩ | ⟨_, hd⟩
  · rw [hd]
    exact hm.setResponder (hleft.of_error hx)
  · rw [hd]
    generalize (s.postPdu der).update P now e = u at hleft
    by_cases hu : u.1.state = .established
    · have he := hleft.promote hJ hu
      have hreap : ∀ d' : Dispatcher β π, d'.responderSessions.get? msg.cid = some u.1.drained →
          d'.reapResponder msg.cid = (d'.drain u.1.drained msg.cid).1.promote msg.cid u.1.drained := by
        intro d' hd'
        simp only [reapResponder, hd', hu, ↓reduceIte]
        rfl
      simp only
      rw [hreap _ (Dict.get?_set_self ..)]
      refine hm.promote_of (hJ.drained _ _ _ he) rfl (fun j hj => Dict.get?_set_of_ne _ hj _)
        (fun _ _ => rfl) (fun _ _ => rfl) fun pdu hp => ?_
      simp only [drain, List.append_nil, List.mem_append] at hp
      exact hp.elim (hm.sent pdu) (hJ.sent _ _ _ he pdu)
    · have hr := hleft.of_state hu
      exact ((hm.drain (hJ.sent _ _ _ hr)).setResponder (hJ.drained _ _ _ hr)).reapResponder hJ _

include hP in
theorem kept_openResponder {msg : MakeMessage β} {req : SessionInitRequest β}
    (hl : P.load der = .ok msg) (hp : msg.payload = .sessionInitRequest req)
    (he : d.established.get? msg.cid = none) (hr : d.responderSessions.get? msg.cid = none) :
    Kept J O (d.openResponder P der now msg.cid e).1 := by
  have hm := h.mono hIJ fun _ => id
  unfold openResponder
  rcases ha : d.candidates.add msg.cid der P.noPdu now with ⟨candidates, x | candidate⟩
  · exact hm.withCandidates candidates
  · have hopen := hS.opened msg req candidate hl hp he hr (by rw [ha])
    have hc := hm.withCandidates candidates
    have hsilent : ((Session.new .responder none d.keys d.config).postPdu der).Silent :=
      fun _ => ⟨rfl, rfl⟩
    have hsilent := Session.update_silent hP hsilent now e
    simp only
    rcases deliver_cases P { d with candidates } (.new .responder none d.keys d.config) der now
      msg.cid e with ⟨x, hx, hcaught, hd⟩ | ⟨hcaught, hd⟩
    · rw [hd]
      exact hc.setResponder (hopen (.inr ⟨x, hx, hcaught⟩))
    · rw [hd]
      simp only
      split
      · rename_i hstate
        have hdrain : Kept J O (({ d with candidates } : Dispatcher β π).drain _ msg.cid).1 :=
          hc.drain (c := msg.cid) (by rw [(hsilent hstate).1]; simp)
        refine hdrain.shrink (fun _ _ => id) (fun c s hs => ?_) (fun _ _ => id) (fun _ _ => id)
          (fun _ => id)
        simp only [dropResponder, Dict.get?_erase] at hs
        split at hs
        · cases hs
        · rename_i hne
          rwa [Dict.get?_set_of_ne _ hne] at hs
      · rename_i hstate
        have hJr := hopen (.inl hstate)
        have hset := (hc.drain (c := msg.cid) (hJ.sent _ _ _ hJr)).setResponder
          (hJ.drained _ _ _ hJr)
        refine Kept.reapResponder ?_ hJ _
        split
        · exact hset.withCandidates _
        · exact hset

theorem kept_resendFork {msg : MakeMessage β} {resp : SessionInitResponse β}
    (hl : P.load der = .ok msg) (hp : msg.payload = .sessionInitResponse resp) (forks : List (Session β π)) (hf : ∀ s ∈ forks, I msg.cid .fork s)
    {r : Dispatcher β π × List (Session β π) × Option PyError}
    (hr : d.resendFork P der now msg.cid e forks = some r) :
    Kept J O r.1 ∧ ∀ s ∈ r.2.1, J msg.cid .fork s := by
  induction forks generalizing r with
  | nil => cases hr
  | cons fork rest ih =>
    have hrest : ∀ s ∈ rest, I msg.cid .fork s := fun s hs => hf s (List.mem_cons_of_mem _ hs)
    have hfork := hf fork List.mem_cons_self
    unfold resendFork at hr
    split at hr
    · have hk := (h.mono hIJ fun _ => id).deliver hJ msg.cid (hS.call _ _ _ hl hp hfork)
      cases hr
      refine ⟨hk.1, fun s hs => ?_⟩
      rcases List.mem_cons.mp hs with rfl | hs
      · exact hk.2
      · exact hIJ _ _ _ (hrest s hs)
    · cases hrec : d.resendFork P der now msg.cid e rest with
      | none => simp [hrec] at hr
      | some q =>
        rw [hrec] at hr
        cases hr
        obtain ⟨hk, hq⟩ := ih hrest hrec
        refine ⟨hk, fun s hs => ?_⟩
        rcases List.mem_cons.mp hs with rfl | hs
        · exact hIJ _ _ _ hfork
        · exact hq s hs

theorem kept_openFork {msg : MakeMessage β} {resp : SessionInitResponse β}
    (hl : P.load der = .ok msg) (hp : msg.payload = .sessionInitResponse resp)
    (ht : d.initiatorTemplates.get? msg.cid = some s) :
    Kept J O (d.openFork P s der now msg.cid e).1 := by
  have hm := h.mono hIJ fun _ => id
  unfold openFork
  rcases d.candidates.add msg.cid der P.noPdu now with ⟨candidates, x | candidate⟩
  · exact hm.withCandidates candidates
  · have hc := hm.withCandidates candidates
    simp only
    split
    · exact hc
    · rename_i twin hfork
      have htwin := hS.call _ _ _ hl hp (hS.fork _ _ _ hl (h.template _ _ ht) hfork)
      have hk := hc.deliver hJ msg.cid htwin
      rcases hd : Dispatcher.deliver P { d with candidates } twin der now msg.cid e with ⟨d', s', x⟩
      rw [hd] at hk
      have hall : ∀ s ∈ (d.initiatorForks.get? msg.cid).getD [] ++ [s'], J msg.cid .fork s := by
        intro s hs
        rcases List.mem_append.mp hs with hs | hs
        · cases hforks : d.initiatorForks.get? msg.cid with
          | none => simp [hforks] at hs
          | some forks =>
            exact hIJ _ _ _ (h.fork _ _ hforks s (by simpa [hforks] using hs))
        · rw [List.mem_singleton.mp hs]
          exact hk.2
      have hset := hk.1.setForks hall
      cases x with
      | some x => exact hset
      | none => exact hset.withCandidates _

omit h in
theorem offer_kept {msg : MakeMessage β} (hl : P.load der = .ok msg) (forks : List (Session β π))
    (hf : ∀ s ∈ forks, I msg.cid .fork s) :
    (∀ winner, (offer P der now e forks).2 = .won winner → J msg.cid .established winner) ∧
      ((∀ winner, (offer P der now e forks).2 ≠ .won winner) →
        ∀ s ∈ (offer P der now e forks).1, J msg.cid .fork s) := by
  induction forks with
  | nil => exact ⟨by simp [offer], by simp [offer]⟩
  | cons fork rest ih =>
    obtain ⟨hwon, hrest⟩ := ih fun s hs => hf s (List.mem_cons_of_mem _ hs)
    have hkeep : ∀ s ∈ rest, J msg.cid .fork s :=
      fun s hs => hIJ _ _ _ (hf s (List.mem_cons_of_mem _ hs))
    have hleft := hS.deliver _ _ _ hl (by simp) (hf fork List.mem_cons_self)
    unfold offer
    rcases hu : (fork.postPdu der).update P now e with ⟨fork', x | r⟩
    · rw [hu] at hleft
      have hfork := hleft.of_error rfl
      simp only
      split
      · exact ⟨hwon, fun hn => List.forall_mem_cons.mpr ⟨hfork, hrest hn⟩⟩
      · exact ⟨by simp, fun _ => List.forall_mem_cons.mpr ⟨hfork, hkeep⟩⟩
    · rw [hu] at hleft
      simp only
      split
      · rename_i hs
        refine ⟨fun winner hw => ?_, fun hn => absurd rfl (hn _)⟩
        cases hw
        exact hleft.promote hJ hs
      · rename_i hs
        exact ⟨hwon, fun hn => List.forall_mem_cons.mpr ⟨hleft.of_state hs, hrest hn⟩⟩

theorem kept_routeToForks {msg : MakeMessage β} (hl : P.load der = .ok msg)
    {forks : List (Session β π)} (hf : d.initiatorForks.get? msg.cid = some forks) :
    Kept J O (d.routeToForks P msg.cid forks der now e).1 := by
  have hm := h.mono hIJ fun _ => id
  obtain ⟨hwon, hk⟩ := offer_kept hS hJ hIJ hl forks (h.fork _ _ hf)
  unfold routeToForks
  rcases ho : offer P der now e forks with ⟨forks', contest⟩
  rw [ho] at hk hwon
  cases contest with
  | «open» => exact hm.setForks (hk (by simp))
  | raised x => exact hm.setForks (hk (by simp))
  | won winner =>
    have hw := hwon winner rfl
    refine hm.promote_of (hJ.drained _ _ _ hw) rfl (fun _ _ => rfl) (fun _ _ => rfl)
      (fun j hj => Dict.get?_set_of_ne _ hj _) fun pdu hp => ?_
    exact (List.mem_append.mp hp).elim (hm.sent pdu) (hJ.sent _ _ _ hw pdu)

include hP in
/-- One PDU takes a dispatcher whose sessions satisfy `I` to one whose sessions satisfy `J`. -/
theorem kept_postPdu : Kept J O (d.postPdu P der now e).1 := by
  have hm := h.mono hIJ fun _ => id
  unfold postPdu
  split
  · exact hm
  · rename_i msg hl
    split
    · rename_i s hs
      exact kept_deliverEstablished h hS hJ hIJ hl hs
    · rename_i he
      split
      · rename_i hname
        obtain ⟨req, hp⟩ : ∃ req, msg.payload = .sessionInitRequest req := by
          cases hp : msg.payload <;> simp_all [MakePayload.name]
        unfold routeSessionInitRequest
        split
        · rename_i s hs
          exact kept_deliverResponder h hS hJ hIJ hl hs
        · rename_i hr
          exact kept_openResponder hP h hS hJ hIJ hl hp he hr
      · rename_i hname
        obtain ⟨resp, hp⟩ : ∃ resp, msg.payload = .sessionInitResponse resp := by
          cases hp : msg.payload <;> simp_all [MakePayload.name]
        unfold routeSessionInitResponse
        split
        · exact hm
        · rename_i template ht
          split
          · rename_i d' forks x hr
            have hf : ∀ s ∈ (d.initiatorForks.get? msg.cid).getD [], I msg.cid .fork s := by
              cases hforks : d.initiatorForks.get? msg.cid with
              | none => simp
              | some forks => exact h.fork _ _ hforks
            obtain ⟨hk, hq⟩ := kept_resendFork h hS hJ hIJ hl hp _ hf hr
            exact hk.setForks hq
          · exact kept_openFork h hS hJ hIJ hl hp ht
      · split
        · rename_i s hs
          exact kept_deliverResponder h hS hJ hIJ hl hs
        · split
          · rename_i forks hf
            exact kept_routeToForks h hS hJ hIJ hl hf
          · exact hm

end

/-! ## The crank -/

section
variable {I : List β → Slot → Session β π → Prop} (hI : Handled I O)
  (hU : ∀ c t s, t ≠ .template → I c t s → Left I c t (s.update P now e))
include hI hU

omit [DecidableEq β] [DecidableEq π] hI hU in
theorem sweep_keeps {Q : Dispatcher β π → Prop} {step : Dispatcher β π → List β → WithTop Int →
    Dispatcher β π × Except PyError (WithTop Int)}
    (hstep : ∀ d c next, Q d → Q (step d c next).1) (cids : List (List β))
    (next : WithTop Int) (h : Q d) : Q (sweep step d cids next).1 := by
  induction cids generalizing d next with
  | nil => exact h
  | cons c rest ih =>
    have hk := hstep d c next h
    unfold sweep
    split
    · rename_i d' x hd
      rwa [hd] at hk
    · rename_i d' next' hd
      rw [hd] at hk
      exact ih next' hk

theorem updateEstablished_kept (h : Kept I O d) (c : List β) (next : WithTop Int) :
    Kept I O (updateEstablished P now e d c next).1 := by
  unfold updateEstablished
  split
  · exact h
  · rename_i s hs
    have hu := (hU _ _ _ (by simp) (h.established _ _ hs)).established
    rcases hs' : s.update P now e with ⟨s', x | ⟨r, deadline⟩⟩ <;> rw [hs'] at hu
    · simp only
      split
      · exact (h.drain (c := c) (hI.sent _ _ _ hu)).setEstablished (hI.drained _ _ _ hu)
      · exact h.setEstablished hu
    · exact (h.drain (c := c) (hI.sent _ _ _ hu)).setEstablished (hI.drained _ _ _ hu)

theorem updateResponder_kept (h : Kept I O d) (c : List β) (next : WithTop Int) :
    Kept I O (updateResponder P now e d c next).1 := by
  unfold updateResponder
  split
  · exact h
  · rename_i s hs
    have hleft := hU _ _ _ (by simp) (h.responder _ _ hs)
    rcases hs' : s.update P now e with ⟨s', x | ⟨r, deadline⟩⟩ <;> rw [hs'] at hleft
    · simp only
      split
      · exact h.dropResponder c
      · exact h.setResponder (hleft.of_error rfl)
    · simp only
      split
      · rename_i hu
        have he := hleft.promote hI hu
        refine h.promote_of (hI.drained _ _ _ he) rfl (fun j hj => Dict.get?_set_of_ne _ hj _)
          (fun _ _ => rfl) (fun _ _ => rfl) fun pdu hp => ?_
        exact (List.mem_append.mp hp).elim (h.sent pdu) (hI.sent _ _ _ he pdu)
      · rename_i hu
        have hr := hleft.of_state hu
        have hset := (h.drain (c := c) (hI.sent _ _ _ hr)).setResponder (hI.drained _ _ _ hr)
        split
        · exact hset.dropResponder c
        · exact hset

theorem crankForks_kept {c : List β} (forks : List (Session β π)) (hf : ∀ s ∈ forks, I c .fork s)
    (next : WithTop Int) :
    (∀ winner, (crankForks P now e forks next).2.2.1 = .won winner → I c .established winner) ∧
      ((∀ winner, (crankForks P now e forks next).2.2.1 ≠ .won winner) →
        (∀ s ∈ (crankForks P now e forks next).1, I c .fork s) ∧
          ∀ s ∈ (crankForks P now e forks next).2.1, I c .fork s) := by
  induction forks generalizing next with
  | nil => simp [crankForks]
  | cons fork rest ih =>
    have hrest := fun s hs => hf s (List.mem_cons_of_mem _ hs)
    have hleft := hU _ _ _ (by simp) (hf fork List.mem_cons_self)
    unfold crankForks
    rcases hu : fork.update P now e with ⟨fork', x | ⟨r, deadline⟩⟩
    · rw [hu] at hleft
      have hfork := hleft.of_error rfl
      obtain ⟨hwon, hk⟩ := ih hrest next
      simp only
      split
      · exact ⟨hwon, fun hn => ⟨List.forall_mem_cons.mpr ⟨hfork, (hk hn).1⟩, (hk hn).2⟩⟩
      · exact ⟨by simp, fun _ => ⟨List.forall_mem_cons.mpr ⟨hfork, hrest⟩, by simp⟩⟩
    · rw [hu] at hleft
      obtain ⟨hwon, hk⟩ := ih hrest (min next deadline)
      simp only
      split
      · rename_i hs
        refine ⟨fun winner hw => ?_, fun hn => absurd rfl (hn _)⟩
        cases hw
        exact hleft.promote hI hs
      · rename_i hs
        have hfork := hleft.of_state hs
        refine ⟨hwon, fun hn => ⟨List.forall_mem_cons.mpr ⟨hfork, (hk hn).1⟩, ?_⟩⟩
        split
        · exact (hk hn).2
        · exact List.forall_mem_cons.mpr ⟨hfork, (hk hn).2⟩

theorem updateForks_kept (h : Kept I O d) (c : List β) (next : WithTop Int) :
    Kept I O (updateForks P now e d c next).1 := by
  unfold updateForks
  split
  · exact h
  · rename_i forks hf
    obtain ⟨hwon, hk⟩ := crankForks_kept hI hU forks (h.fork _ _ hf) next
    split
    · rename_i hc
      rw [hc] at hk
      exact h.setForks (hk (by simp)).1
    · rename_i winner _ hc
      rw [hc] at hwon
      have hw := hwon winner rfl
      exact (h.drain (hI.sent _ _ _ hw)).promote (hI.drained _ _ _ hw)
    · exact h.shrink (fun _ _ => id) (fun _ _ => id) (fun _ _ => Dict.get?_of_erase)
        (fun _ _ => Dict.get?_of_erase) (fun _ => id)
    · rename_i hc
      rw [hc] at hk
      exact h.setForks (hk (by simp)).2

theorem kept_crank (h : Kept I O d) : Kept I O (d.crank P now e).1 := by
  have h1 := sweep_keeps (Q := Kept I O) (fun d c next h => updateEstablished_kept hI hU h c next)
    d.established.keys ⊤ h
  unfold crank
  split
  · rename_i hd
    rwa [hd] at h1
  · rename_i d₁ next₁ hd₁
    rw [hd₁] at h1
    have h2 := sweep_keeps (Q := Kept I O) (fun d c next h => updateResponder_kept hI hU h c next)
      d₁.responderSessions.keys next₁ h1
    split
    · rename_i hd
      rwa [hd] at h2
    · rename_i d₂ next₂ hd₂
      rw [hd₂] at h2
      exact sweep_keeps (Q := Kept I O) (fun d c next h => updateForks_kept hI hU h c next) _ _ h2

/-- A crank keeps what every single update keeps. -/
theorem kept_update (h : Kept I O d) : Kept I O (d.update P now e).1 := by
  have hk := kept_crank hI hU ((h.withCandidates (d.candidates.expire now)).reconcile)
  unfold update
  simp only
  split
  · rename_i hd
    rwa [hd] at hk
  · rename_i hd
    rwa [hd] at hk

end

end

/-! ## The other operations -/

section
variable {I : List β → Slot → Session β π → Prop} {O : π → Prop} {d : Dispatcher β π}

theorem kept_initiate {ownKeyId peerKeyId : KeyId β} {now : Int} {e : Entropy β} (h : Kept I O d)
    (hnew : ∀ primary cid, (Session.new .initiator (some ownKeyId) d.keys d.config).initiate P
      peerKeyId now e = (primary, none) → primary.cid = some cid →
      I cid .template { primary with outgoingPdus := [] } ∧ ∀ pdu ∈ primary.outgoingPdus, O pdu) :
    Kept I O (d.initiate P ownKeyId peerKeyId now e).1 := by
  unfold initiate
  split
  · exact h
  · rename_i primary hp
    split
    · exact h
    · rename_i cid hc
      obtain ⟨ht, ho⟩ := hnew primary cid hp hc
      have hset := (h.setTemplate ht).setForks (c := cid) fun s (hs : s ∈ []) => by cases hs
      exact ⟨hset.established, hset.responder, hset.template, hset.fork, fun pdu hp =>
        (List.mem_append.mp hp).elim (hset.sent pdu) (ho pdu)⟩

theorem kept_postPayload {cid payload : List β} (h : Kept I O d)
    (hp : ∀ t s, I cid t s → I cid t (s.postPayload payload).1) :
    Kept I O (d.postPayload cid payload).1 := by
  unfold postPayload
  split
  · rename_i s hs
    exact h.setEstablished (hp _ _ (h.established _ _ hs))
  · split
    · rename_i s hs
      exact h.setResponder (hp _ _ (h.responder _ _ hs))
    · split
      · exact h
      · rename_i template ht
        have hI := hp _ _ (h.template _ _ ht)
        split
        · exact h
        · rename_i template' hpost
          rw [hpost] at hI
          have hset := h.setTemplate hI
          simp only
          split
          · exact hset
          · rename_i forks hf
            refine hset.setForks fun s hs => ?_
            obtain ⟨fork, hfork, rfl⟩ := List.mem_map.mp hs
            exact hp _ _ (h.fork _ _ hf fork hfork)

theorem kept_close (h : Kept I O d) (cid : List β) : Kept I O (d.close cid) :=
  h.shrink (fun _ _ => Dict.get?_of_erase) (fun _ _ => id) (fun _ _ => id) (fun _ _ => id)
    (fun _ => id)

theorem kept_getPdu (h : Kept I O d) : Kept I O d.getPdu.1 := by
  unfold getPdu
  split
  · exact h
  · rename_i pdu rest hout
    exact h.shrink (fun _ _ => id) (fun _ _ => id) (fun _ _ => id) (fun _ _ => id)
      (fun pdu hp => by rw [hout]; exact List.mem_cons_of_mem _ hp)

theorem kept_getPayload (h : Kept I O d) : Kept I O d.getPayload.1 := by
  unfold getPayload
  split
  · exact h
  · exact h.shrink (fun _ _ => id) (fun _ _ => id) (fun _ _ => id) (fun _ _ => id) (fun _ => id)

end

/-! ## Runs -/

/-- One call of an application or a transport, with the time and the draws of it. -/
inductive Op (β π : Type) where
  | initiate (ownKeyId peerKeyId : KeyId β) (now : Int) (e : Entropy β)
  | postPdu (der : π) (now : Int) (e : Entropy β)
  | postPayload (cid payload : List β)
  | getPdu
  | getPayload
  | close (cid : List β)
  | update (now : Int) (e : Entropy β)

section
variable [DecidableEq π]

/-- The dispatcher after a call, raising or not. -/
def step (P : Primitives β π) (d : Dispatcher β π) : Op β π → Dispatcher β π
  | .initiate ownKeyId peerKeyId now e => (d.initiate P ownKeyId peerKeyId now e).1
  | .postPdu der now e => (d.postPdu P der now e).1
  | .postPayload cid payload => (d.postPayload cid payload).1
  | .getPdu => d.getPdu.1
  | .getPayload => d.getPayload.1
  | .close cid => d.close cid
  | .update now e => (d.update P now e).1

/-- Calls that each meet `ok` in the state they are made in. -/
inductive Run (P : Primitives β π) (ok : Dispatcher β π → Op β π → Prop) (d : Dispatcher β π) :
    Dispatcher β π → Prop
  | refl : Run P ok d d
  | step {d' op} : Run P ok d d' → ok d' op → Run P ok d (d'.step P op)

theorem Run.mono {ok ok' : Dispatcher β π → Op β π → Prop} {d d' : Dispatcher β π}
    (hrun : Run P ok d d') (hok : ∀ d op, ok d op → ok' d op) : Run P ok' d d' := by
  induction hrun with
  | refl => exact .refl
  | step _ hop ih => exact .step ih (hok _ _ hop)

/-- Calls that meet `ok` keep `I` of the sessions in the tables. -/
structure Stable (P : Primitives β π) (ok : Dispatcher β π → Op β π → Prop)
    (I : List β → Slot → Session β π → Prop) : Prop where
  handled : Handled I (fun _ : π => True)
  initiate : ∀ d own peer now e primary c, ok d (.initiate own peer now e) →
    (Session.new .initiator (some own) d.keys d.config).initiate P peer now e = (primary, none) →
    primary.cid = some c → I c .template { primary with outgoingPdus := [] }
  serves : ∀ d der now e, ok d (.postPdu der now e) → Serves P d der now e I I
  postPayload : ∀ c t s payload, I c t s → I c t (s.postPayload payload).1
  update : ∀ c t s now e, t ≠ .template → I c t s → Left I c t (s.update P now e)

section
variable {P : Primitives β π} {ok : Dispatcher β π → Op β π → Prop}
  {I : List β → Slot → Session β π → Prop} {d d' : Dispatcher β π}
  (hP : ∀ aead key nonce text ad, P.encrypt aead key nonce text ad ≠ []) (hS : Stable P ok I)
include hP hS

theorem Stable.step {op : Op β π} (hok : ok d op) (h : Kept I (fun _ => True) d) :
    Kept I (fun _ => True) (d.step P op) := by
  cases op with
  | initiate own peer now e =>
    exact kept_initiate h fun primary c hp hc =>
      ⟨hS.initiate d own peer now e primary c hok hp hc, fun _ _ => trivial⟩
  | postPdu der now e =>
    exact kept_postPdu hP h (hS.serves d der now e hok) hS.handled fun _ _ _ => id
  | postPayload c payload => exact kept_postPayload h fun t s hs => hS.postPayload c t s payload hs
  | getPdu => exact kept_getPdu h
  | getPayload => exact kept_getPayload h
  | close c => exact kept_close h c
  | update now e => exact kept_update hS.handled (fun c t s => hS.update c t s now e) h

theorem Stable.run (hrun : Run P ok d d') (h : Kept I (fun _ => True) d) :
    Kept I (fun _ => True) d' := by
  induction hrun with
  | refl => exact h
  | step _ hok ih => exact hS.step hP hok ih

end

end

end Dispatcher

end KemMake
