import KemMake.Mirrors
import KemMake.Nonces
import KemMake.Escapes

/-!
# Handshakes under different cids

A dispatcher that serves many cids, and beside it one that is given the calls for one cid
only. All cids share the store, its sweeps and the crank; under the one cid both hold the
same all along and put out the same.
-/

namespace KemMake

namespace Dispatcher
open CandidateStore
variable {β π : Type} [DecidableEq β]

/-! ## A sweep of the crank -/

/-- A sweep over many cids beside one over the one cid. -/
theorem sweep_alongside {step : Dispatcher β π → List β → WithTop Int →
      Dispatcher β π × Except PyError (WithTop Int)}
    {R : List (List β) → Dispatcher β π → Dispatcher β π → Prop} {c : List β}
    (hother : ∀ j rest d d' next, j ≠ c → R (j :: rest) d d' →
      (step d j next).2.isOk ∧ R rest (step d j next).1 d')
    (hsame : ∀ rest d d' next next', R (c :: rest) d d' →
      (step d' c next').2.isOk = (step d c next).2.isOk ∧ R rest (step d c next).1 (step d' c next').1)
    (hweaken : ∀ rest d d', R rest d d' → R [] d d') {cids : List (List β)} (hnodup : cids.Nodup)
    {d d' : Dispatcher β π} (h : R cids d d') (next next' : WithTop Int) :
    (sweep step d' (if c ∈ cids then [c] else []) next').2.isOk = (sweep step d cids next).2.isOk ∧
      R [] (sweep step d cids next).1 (sweep step d' (if c ∈ cids then [c] else []) next').1 := by
  induction cids generalizing d d' next next' with
  | nil => exact ⟨rfl, h⟩
  | cons j rest ih =>
    obtain ⟨hj, hrest⟩ := List.nodup_cons.mp hnodup
    by_cases heq : j = c
    · subst heq
      obtain ⟨hok, hr⟩ := hsame rest d d' next next' h
      rw [if_pos List.mem_cons_self]
      unfold sweep
      rcases hs : step d j next with ⟨d₁, x | next₁⟩ <;>
        rcases hs' : step d' j next' with ⟨d₁', x' | next₁'⟩ <;> rw [hs, hs'] at hok hr
      · exact ⟨rfl, hweaken rest _ _ hr⟩
      · cases hok
      · cases hok
      · have hih := ih hrest hr next₁ next₁'
        rw [if_neg hj] at hih
        exact hih
    · obtain ⟨hok, hr⟩ := hother j rest d d' next heq h
      have hmem : c ∈ j :: rest ↔ c ∈ rest := by
        rw [List.mem_cons, or_iff_right fun hc => heq hc.symm]
      simp only [hmem]
      rcases hs : step d j next with ⟨d₁, x | next₁⟩ <;> rw [hs] at hok hr
      · cases hok
      · have hsweep : sweep step d (j :: rest) next = sweep step d₁ rest next₁ := by
          rw [sweep, hs]
        rw [hsweep]
        exact ih hrest hr next₁ next'

/-! ## The store of a dispatcher with one cid -/

theorem Sole.total {limits : CandidateLimits} {c : List β} {d : Dispatcher β π} (h : Sole c d)
    (ht : d.candidates.Tallies limits) :
    d.candidates.total = (d.candidates.candidatesFor c).length := by
  have hS : ∀ k ∈ d.candidates.byCid.keys, k ∈ insert c d.candidates.byCid.keys.toFinset := by
    intro k hk
    exact Finset.mem_insert_of_mem (List.mem_toFinset.mpr hk)
  have hsum : ∑ k ∈ insert c d.candidates.byCid.keys.toFinset,
      (d.candidates.candidatesFor k).length = (d.candidates.candidatesFor c).length := by
    apply Finset.sum_eq_single_of_mem c (Finset.mem_insert_self c _)
    intro k _ hk
    rw [h.candidates k hk]
    rfl
  rw [ht.total, held_sum _ hS, hsum]

theorem length_le_total {limits : CandidateLimits} {st : CandidateStore β π} (ht : st.Tallies limits)
    (c : List β) : (st.candidatesFor c).length ≤ st.total := by
  have hS : ∀ k ∈ st.byCid.keys, k ∈ insert c st.byCid.keys.toFinset := by
    intro k hk
    exact Finset.mem_insert_of_mem (List.mem_toFinset.mpr hk)
  rw [ht.total, held_sum _ hS]
  exact Int.ofNat_le.mpr (Finset.single_le_sum (f := fun k => (st.candidatesFor k).length)
    (fun _ _ => Nat.zero_le _) (Finset.mem_insert_self c _))

theorem Sole.expire {c : List β} {d : Dispatcher β π} (h : Sole c d) (now : Int) :
    Sole c { d with candidates := d.candidates.expire now } := by
  refine { h with candidates := fun j hj => ?_ }
  rw [candidatesFor_expire, h.candidates j hj]
  rfl

theorem Sole.reconcile {c : List β} {d : Dispatcher β π} (h : Sole c d) :
    Sole c d.reconcileExpiredCandidates := by
  constructor <;> intro j hj
  · rw [(reconciled d j).established]
    exact h.established j hj
  · rw [(reconciled d j).responder, h.responder j hj, ite_self]
  · rw [(reconciled d j).template, h.template j hj, ite_self]
  · rw [(reconciled d j).fork, h.fork j hj, ite_self]
  · rw [(reconciled d j).candidates]
    exact h.candidates j hj

/-- The keys of a table, beside those of one that has the one cid at most. -/
theorem keys_alone {υ : Type} {m m' : Dict (List β) υ} {c : List β} (h : m'.get? c = m.get? c)
    (hother : ∀ j, j ≠ c → m'.get? j = none) : m'.keys = if c ∈ m.keys then [c] else [] := by
  split
  · rename_i hc
    obtain ⟨v, hv⟩ := Dict.mem_keys_iff.mp hc
    exact Dict.keys_eq_singleton (h.trans hv) hother
  · rename_i hc
    apply Dict.keys_eq_nil
    intro j
    by_cases hj : j = c
    · rw [hj, h, Dict.get?_eq_none_iff.mpr hc]
    · exact hother j hj

/-! ## Both runs -/

/-- The dispatcher that has all the calls, and the one that has those for the cid. -/
structure Alongside (P : Primitives β π) (limits : CandidateLimits) (c : List β) (last : Int)
    (o o' : Got β π) (d d' : Dispatcher β π) : Prop where
  mirrors : Mirrors P c last o o' d d'
  kept : Kept (Spoken P) (fun _ => True) d
  sole : Sole c d'
  tallies : d.candidates.Tallies limits
  tallies' : d'.candidates.Tallies limits

section
variable {P : Primitives β π} {limits : CandidateLimits} {c : List β} {last now : Int}
  {o o' : Got β π} {d d' d₁ d₁' : Dispatcher β π}

/-- Where the cap leaves room among all cids, it does for the one. -/
theorem Alongside.notFull (a : Alongside P limits c last o o' d d') (hle : last ≤ now)
    (h : d.NotFull now) : d'.NotFull now := by
  have hsole := (a.sole.expire now).total (a.tallies'.expire now)
  have hall := length_le_total (a.tallies.expire now) c
  have hlen : ((d'.candidates.expire now).candidatesFor c).length =
      ((d.candidates.expire now).candidatesFor c).length := by
    rw [candidatesFor_expire, candidatesFor_expire, ← length_due, ← length_due,
      a.mirrors.candidates.survivors hle]
  unfold NotFull at h ⊢
  rw [a.mirrors.limits]
  simp only at hsole
  omega

/-- A call under another cid, that the second dispatcher does not get. -/
theorem Alongside.other {j : List β} (a : Alongside P limits c last o o' d d') (hle : last ≤ now)
    (hj : j ≠ c) (ht : Touches j now (fun pdu => cidOf P pdu = some j) d d₁)
    (hk : Kept (Spoken P) (fun _ => True) d₁) : Alongside P limits c now o o' d₁ d' :=
  ⟨a.mirrors.touched hle hj ht, hk, a.sole, ht.tallies limits a.tallies, a.tallies'⟩

/-- A call under the cid, that both get. -/
theorem Alongside.both (a : Alongside P limits c last o o' d d')
    (m : Mirrors P c now o o' d₁ d₁') (hk : Kept (Spoken P) (fun _ => True) d₁)
    (ht : Touches c now (fun _ => True) d d₁) (ht' : Touches c now (fun _ => True) d' d₁') :
    Alongside P limits c now o o' d₁ d₁' :=
  ⟨m, hk, a.sole.touched ht', ht.tallies limits a.tallies, ht'.tallies limits a.tallies'⟩

variable [DecidableEq π] (hP : P.Correct) {e : Entropy β}
include hP

theorem Spoken.emits {t : Slot} {s : Session β π} (h : Spoken P c t s) (ht : t ≠ .template) :
    Emits (fun pdu => cidOf P pdu = some c) (s.update P now e).1 := by
  obtain hk | ⟨_, hk⟩ := h.update hP ht
  · exact hk.speaks.outgoing
  · exact hk.speaks.outgoing

omit hP in
/-- Without a PDU, an established session raises when it overflows and not otherwise. -/
theorem updateEstablished_returns {s : Session β π} (hs : d.established.get? c = some s)
    (h : Tidy P c .established s) (hno : ¬ s.Overflows) (next : WithTop Int) :
    (updateEstablished P now e d c next).2.isOk := by
  have hd : s.state ≠ .dropped := by simp [h.1.2.1]
  have htake : s.takeIncoming P now e = (s, none) := by
    simp [Session.takeIncoming, h.2.resolve_right hd]
  obtain ⟨hsend, _⟩ | ⟨_, ho⟩ := Session.sendPending_raises (P := P) h.1.1
  · obtain ⟨r, hr⟩ : ∃ r, (s.update P now e).2 = .ok r := by
      unfold Session.update
      rw [if_neg hd, htake]
      rcases hx : s.sendPending P with ⟨s', x⟩
      rw [hx] at hsend
      cases hsend
      simp only [hx]
      split <;> exact ⟨_, rfl⟩
    unfold updateEstablished
    rcases hu : s.update P now e with ⟨s', x | ⟨r', deadline⟩⟩ <;> rw [hu] at hr
    · cases hr
    · simp only [hs, hu]
      rfl
  · exact absurd ho hno

/-- What the other cids' sessions do stays with them, and none of them raises. -/
theorem Alongside.sweepEstablished (a : Alongside P limits c now o o' d d')
    (hfree : ∀ j, j ≠ c → ∀ s, d.established.get? j = some s → ¬ s.Overflows) :
    (sweep (updateEstablished P now e) d' d'.established.keys ⊤).2.isOk =
        (sweep (updateEstablished P now e) d d.established.keys ⊤).2.isOk ∧
      Alongside P limits c now o o' (sweep (updateEstablished P now e) d d.established.keys ⊤).1
        (sweep (updateEstablished P now e) d' d'.established.keys ⊤).1 := by
  have hspoken : ∀ c t (s : Session β π), t ≠ .template → Spoken P c t s →
      Left (Spoken P) c t (s.update P now e) := fun _ _ _ ht hs => hs.update hP ht
  rw [keys_alone a.mirrors.established a.sole.established]
  refine And.imp_right And.left (sweep_alongside
    (R := fun rest d d' => Alongside P limits c now o o' d d' ∧ rest.Nodup ∧
      ∀ j ∈ rest, j ≠ c → ∀ s, d.established.get? j = some s → ¬ s.Overflows)
    (fun j rest d d' next hj h => ?_) (fun rest d d' next next' h => ?_)
    (fun rest d d' h => ⟨h.1, List.nodup_nil, fun _ hmem => nomatch hmem⟩) d.established.nodup
    ⟨a, d.established.nodup, fun j _ => hfree j⟩ ⊤ ⊤)
  · obtain ⟨a, hnodup, hfree⟩ := h
    obtain ⟨hj', hrest⟩ := List.nodup_cons.mp hnodup
    have hemits : ∀ s, d.established.get? j = some s →
        Emits (fun pdu => cidOf P pdu = some j) (s.update P now e).1 :=
      fun s hs => (a.kept.established j s hs).emits hP (by simp)
    have ht := touches_updateEstablished (P := P) d j next hemits
    refine ⟨?_, a.other (Int.le_refl now) hj ht
      (updateEstablished_kept spoken_handled hspoken a.kept j next), hrest, fun k hk hkc s hs => ?_⟩
    · cases hs : d.established.get? j with
      | none =>
        unfold updateEstablished
        rw [hs]
        rfl
      | some s =>
        exact updateEstablished_returns hs (a.kept.established j s hs).tidy
          (hfree j List.mem_cons_self hj s hs) next
    · have hkj : k ≠ j := fun heq => hj' (heq ▸ hk)
      rw [(ht.beside k hkj).established] at hs
      exact hfree k (List.mem_cons_of_mem j hk) hkc s hs
  · obtain ⟨a, hnodup, hfree⟩ := h
    obtain ⟨hj', hrest⟩ := List.nodup_cons.mp hnodup
    obtain ⟨hok, m⟩ := a.mirrors.updateEstablished now e next next'
    have ht : ∀ d next, Touches c now (fun _ => True) d (updateEstablished P now e d c next).1 :=
      fun d next => touches_updateEstablished d c next fun _ _ _ _ => trivial
    refine ⟨hok, a.both m (updateEstablished_kept spoken_handled hspoken a.kept c next)
      (ht d next) (ht d' next'), hrest, fun k hk hkc s hs => ?_⟩
    have hkc : k ≠ c := fun heq => hj' (heq ▸ hk)
    rw [((ht d next).beside k hkc).established] at hs
    exact hfree k (List.mem_cons_of_mem c hk) hkc s hs

omit [DecidableEq π] hP in
/-- A sweep whose steps work under their own cid and return. -/
theorem Alongside.sweepPending {step : Dispatcher β π → List β → WithTop Int →
      Dispatcher β π × Except PyError (WithTop Int)} {cids : List (List β)} (hnodup : cids.Nodup)
    (hstep : ∀ d j next, Kept (Spoken P) (fun _ => True) d → (step d j next).2.isOk ∧
      Kept (Spoken P) (fun _ => True) (step d j next).1 ∧
      Touches j now (fun pdu => cidOf P pdu = some j) d (step d j next).1)
    (htouches : ∀ d next, Touches c now (fun _ => True) d (step d c next).1)
    (hsame : ∀ d d' next next', Mirrors P c now o o' d d' →
      (step d' c next').2.isOk = (step d c next).2.isOk ∧
        Mirrors P c now o o' (step d c next).1 (step d' c next').1)
    (a : Alongside P limits c now o o' d d') (next next' : WithTop Int) :
    (sweep step d' (if c ∈ cids then [c] else []) next').2.isOk = (sweep step d cids next).2.isOk ∧
      Alongside P limits c now o o' (sweep step d cids next).1
        (sweep step d' (if c ∈ cids then [c] else []) next').1 := by
  refine sweep_alongside (R := fun _ d d' => Alongside P limits c now o o' d d')
    (fun j rest d d' next hj a => ?_) (fun rest d d' next next' a => ?_) (fun _ _ _ => id) hnodup a
    next next'
  · obtain ⟨hok, hk, ht⟩ := hstep d j next a.kept
    exact ⟨hok, a.other (Int.le_refl now) hj ht hk⟩
  · obtain ⟨hok, m⟩ := hsame d d' next next' a.mirrors
    exact ⟨hok, a.both m (hstep d c next a.kept).2.1 (htouches d next) (htouches d' next')⟩

theorem Alongside.sweepResponders (a : Alongside P limits c now o o' d d') (next next' : WithTop Int) :
    (sweep (updateResponder P now e) d' d'.responderSessions.keys next').2.isOk =
        (sweep (updateResponder P now e) d d.responderSessions.keys next).2.isOk ∧
      Alongside P limits c now o o' (sweep (updateResponder P now e) d d.responderSessions.keys next).1
        (sweep (updateResponder P now e) d' d'.responderSessions.keys next').1 := by
  rw [keys_alone a.mirrors.responder a.sole.responder]
  refine Alongside.sweepPending d.responderSessions.nodup (fun d j next hk => ⟨?_, ?_, ?_⟩)
    (fun d next => touches_updateResponder d c next fun _ _ _ _ => trivial)
    (fun d d' next next' m => m.updateResponder now e next next') a next next'
  · have hT : Kept (Tidy P) (fun _ => True) d := hk.mono (fun _ _ _ h => h.tidy) fun _ => id
    obtain ⟨next₁, h⟩ : ∃ next₁, (updateResponder P now e d j next).2 = .ok next₁ := (updateResponder_at hT j next).1
    rw [h]
    rfl
  · exact updateResponder_kept spoken_handled (fun _ _ _ ht hs => hs.update hP ht) hk j next
  · exact touches_updateResponder d j next fun s hs => (hk.responder j s hs).emits hP (by simp)

theorem Alongside.sweepForks (a : Alongside P limits c now o o' d d') (next next' : WithTop Int) :
    (sweep (updateForks P now e) d' d'.initiatorForks.keys next').2.isOk =
        (sweep (updateForks P now e) d d.initiatorForks.keys next).2.isOk ∧
      Alongside P limits c now o o' (sweep (updateForks P now e) d d.initiatorForks.keys next).1
        (sweep (updateForks P now e) d' d'.initiatorForks.keys next').1 := by
  rw [keys_alone a.mirrors.fork a.sole.fork]
  refine Alongside.sweepPending d.initiatorForks.nodup (fun d j next hk => ⟨?_, ?_, ?_⟩)
    (fun d next => touches_updateForks d c next fun _ _ _ _ => trivial)
    (fun d d' next next' m => m.updateForks now e next next') a next next'
  · have hT : Kept (Tidy P) (fun _ => True) d := hk.mono (fun _ _ _ h => h.tidy) fun _ => id
    obtain ⟨next₁, h⟩ : ∃ next₁, (updateForks P now e d j next).2 = .ok next₁ := (updateForks_at hT j next).1
    rw [h]
    rfl
  · exact updateForks_kept spoken_handled (fun _ _ _ ht hs => hs.update hP ht) hk j next
  · refine touches_updateForks d j next fun s hs => ?_
    obtain ⟨forks, hf, hmem⟩ := hs
    exact (hk.fork j forks hf s hmem).emits hP (by simp)

theorem Alongside.crank (a : Alongside P limits c now o o' d d')
    (hfree : ∀ j, j ≠ c → ∀ s, d.established.get? j = some s → ¬ s.Overflows) :
    Alongside P limits c now o o' (d.crank P now e).1 (d'.crank P now e).1 := by
  obtain ⟨hok, a₁⟩ := a.sweepEstablished hP hfree (e := e)
  unfold Dispatcher.crank
  rcases h₁ : sweep (updateEstablished P now e) d d.established.keys ⊤ with ⟨d₁, x | next₁⟩ <;>
    rcases h₁' : sweep (updateEstablished P now e) d' d'.established.keys ⊤ with
      ⟨d₁', x' | next₁'⟩ <;> rw [h₁, h₁'] at hok a₁
  · exact a₁
  · cases hok
  · cases hok
  simp only at a₁ ⊢
  obtain ⟨hok, a₂⟩ := a₁.sweepResponders hP next₁ next₁' (e := e)
  rcases h₂ : sweep (updateResponder P now e) d₁ d₁.responderSessions.keys next₁ with
      ⟨d₂, x | next₂⟩ <;>
    rcases h₂' : sweep (updateResponder P now e) d₁' d₁'.responderSessions.keys next₁' with
      ⟨d₂', x' | next₂'⟩ <;> rw [h₂, h₂'] at hok a₂
  · exact a₂
  · cases hok
  · cases hok
  exact (a₂.sweepForks hP next₂ next₂').2

theorem Alongside.update (a : Alongside P limits c last o o' d d') (hle : last ≤ now)
    (hfree : ∀ j, j ≠ c → ∀ s, d.established.get? j = some s → ¬ s.Overflows) :
    Alongside P limits c now o o' (d.update P now e).1 (d'.update P now e).1 := by
  rw [update_fst, update_fst]
  have hrec := fun d : Dispatcher β π => reconciled { d with candidates := d.candidates.expire now } c
  refine Alongside.crank hP ⟨a.mirrors.reconcile hle, (a.kept.withCandidates _).reconcile,
    (a.sole.expire now).reconcile, ?_, ?_⟩ ?_
  · rw [(hrec d).candidates]
    exact a.tallies.expire now
  · rw [(hrec d').candidates]
    exact a.tallies'.expire now
  · rw [(hrec d).established]
    exact hfree

end

end Dispatcher

namespace Dispatcher
open CandidateStore
variable {β π : Type}

/-! ## Runs that are read out -/

/-- A dispatcher and what has been read out of it. -/
structure Observed (β π : Type) where
  dispatcher : Dispatcher β π
  got : Got β π := {}

/-- A new dispatcher, out of which nothing has been read. -/
def Observed.start [DecidableEq β] (keys : KeyLookup β) (config : SessionConfig)
    (limits : CandidateLimits) : Observed β π := { dispatcher := new keys config limits }

namespace Op

/-- The time of the calls that have one. -/
def now? : Op β π → Option Int
  | .initiate _ _ now _ => some now
  | .postPdu _ now _ => some now
  | .update now _ => some now
  | _ => none

variable [DecidableEq β]

/-- The call concerns another cid. -/
def elsewhere (P : Primitives β π) (c : List β) : Op β π → Bool
  | .initiate _ _ _ e => decide (e.uuid ≠ c)
  | .postPdu der _ _ =>
    match P.load der with
    | .error _ => false
    | .ok msg => decide (msg.cid ≠ c)
  | .postPayload cid _ => decide (cid ≠ c)
  | .close cid => decide (cid ≠ c)
  | _ => false

end Op

variable [DecidableEq β] [DecidableEq π]

def Observed.perform (P : Primitives β π) (w : Observed β π) (op : Op β π) : Observed β π where
  dispatcher := w.dispatcher.step P op
  got :=
    match op with
    | .getPdu => { w.got with pdus := w.got.pdus ++ w.dispatcher.getPdu.2.toOption.toList }
    | .getPayload =>
      { w.got with payloads := w.got.payloads ++ w.dispatcher.getPayload.2.toOption.toList }
    | _ => w.got

def Observed.performAll (P : Primitives β π) (w : Observed β π) (ops : List (Op β π)) :
    Observed β π := ops.foldl (Observed.perform P) w

/-- Each call meets `ok` in the state it is made in. -/
def Meets (P : Primitives β π) (ok : Dispatcher β π → Op β π → Prop) :
    Dispatcher β π → List (Op β π) → Prop
  | _, [] => True
  | d, op :: rest => ok d op ∧ Meets P ok (d.step P op) rest

theorem Meets.imp {P : Primitives β π} {ok ok' : Dispatcher β π → Op β π → Prop}
    {ops : List (Op β π)} {d : Dispatcher β π} (h : Meets P ok d ops)
    (himp : ∀ d op, ok d op → ok' d op) : Meets P ok' d ops := by
  induction ops generalizing d with
  | nil => trivial
  | cons op rest ih => exact ⟨himp d op h.1, ih h.2⟩

theorem meets_append {P : Primitives β π} {ok : Dispatcher β π → Op β π → Prop}
    {ops ops' : List (Op β π)} {d : Dispatcher β π} :
    Meets P ok d (ops ++ ops') ↔ Meets P ok d ops ∧ Meets P ok (ops.foldl (step P) d) ops' := by
  induction ops generalizing d with
  | nil => simp [Meets]
  | cons op rest ih => rw [List.cons_append, Meets, Meets, ih, List.foldl_cons, and_assoc]

omit [DecidableEq π] in
/-- A PDU that finds the store below the cap on all entries. -/
def BelowCap (d : Dispatcher β π) : Op β π → Prop
  | .postPdu _ now _ => d.NotFull now
  | _ => True

instance (d : Dispatcher β π) (op : Op β π) : Decidable (d.BelowCap op) :=
  match op with
  | .postPdu _ now _ => inferInstanceAs (Decidable (d.NotFull now))
  | .initiate .. | .postPayload .. | .getPdu | .getPayload | .close _ | .update .. => isTrue trivial

omit [DecidableEq π] in
/-- An update that an established session of another cid cuts short: it holds a payload and
has no sequence number left. -/
def CutShort (c : List β) (d : Dispatcher β π) : Op β π → Prop
  | .update _ _ => ∃ j ≠ c, ∃ s, d.established.get? j = some s ∧ s.Overflows
  | _ => False

section
variable {P : Primitives β π} {limits : CandidateLimits} {c : List β} {last : Int}
  {w w' : Observed β π} {op : Op β π} (hP : P.Correct) (hV : ChecksCid P)

/-- Reading moves an output from a queue to what has been read. -/
theorem Observed.read (hop : op = .getPdu ∨ op = .getPayload) (P : Primitives β π) (c : List β)
    (w : Observed β π) :
    pdusOf P c (w.perform P op).got (w.perform P op).dispatcher = pdusOf P c w.got w.dispatcher ∧
      payloadsOf c (w.perform P op).got (w.perform P op).dispatcher = payloadsOf c w.got w.dispatcher ∧
      ∃ outgoingPdus outgoingPayloads,
        w.dispatcher.step P op = { w.dispatcher with outgoingPdus, outgoingPayloads } := by
  obtain rfl | rfl := hop
  · cases hq : w.dispatcher.outgoingPdus with
    | nil =>
      have hnone : w.dispatcher.getPdu = (w.dispatcher, .error .indexError) := by
        simp only [Dispatcher.getPdu, hq]
      refine ⟨?_, ?_, w.dispatcher.outgoingPdus, w.dispatcher.outgoingPayloads, ?_⟩ <;>
        simp [pdusOf, payloadsOf, Observed.perform, Dispatcher.step, hnone, Except.toOption]
    | cons pdu rest =>
      have hsome : w.dispatcher.getPdu = ({ w.dispatcher with outgoingPdus := rest }, .ok pdu) := by
        simp only [Dispatcher.getPdu, hq]
      refine ⟨?_, ?_, rest, w.dispatcher.outgoingPayloads, ?_⟩ <;>
        simp [pdusOf, payloadsOf, Observed.perform, Dispatcher.step, hsome, hq, Except.toOption]
  · cases hq : w.dispatcher.outgoingPayloads with
    | nil =>
      have hnone : w.dispatcher.getPayload = (w.dispatcher, .error .indexError) := by
        simp only [Dispatcher.getPayload, hq]
      refine ⟨?_, ?_, w.dispatcher.outgoingPdus, w.dispatcher.outgoingPayloads, ?_⟩ <;>
        simp [pdusOf, payloadsOf, Observed.perform, Dispatcher.step, hnone, Except.toOption]
    | cons p rest =>
      have hsome : w.dispatcher.getPayload =
          ({ w.dispatcher with outgoingPayloads := rest }, .ok p) := by
        simp only [Dispatcher.getPayload, hq]
      refine ⟨?_, ?_, w.dispatcher.outgoingPdus, rest, ?_⟩ <;>
        simp [pdusOf, payloadsOf, Observed.perform, Dispatcher.step, hsome, hq, Except.toOption]

theorem Alongside.read (hop : op = .getPdu ∨ op = .getPayload)
    (a : Alongside P limits c last w.got w'.got w.dispatcher w'.dispatcher) :
    Alongside P limits c last (w.perform P op).got (w'.perform P op).got
      (w.perform P op).dispatcher (w'.perform P op).dispatcher := by
  obtain ⟨hpdus, hpayloads, outgoingPdus, outgoingPayloads, hd⟩ := w.read hop P c
  obtain ⟨hpdus', hpayloads', outgoingPdus', outgoingPayloads', hd'⟩ := w'.read hop P c
  have hm := a.mirrors
  have hqueues := hpdus'.trans (hm.pdus.trans hpdus.symm)
  have hqueues' := hpayloads'.trans (hm.payloads.trans hpayloads.symm)
  have heq : (w.perform P op).dispatcher = w.dispatcher.step P op := rfl
  have heq' : (w'.perform P op).dispatcher = w'.dispatcher.step P op := rfl
  rw [heq, hd] at hqueues hqueues' ⊢
  rw [heq', hd'] at hqueues hqueues' ⊢
  exact ⟨{ hm with pdus := hqueues, payloads := hqueues' },
    ⟨a.kept.established, a.kept.responder, a.kept.template, a.kept.fork, fun _ _ => trivial⟩,
    ⟨a.sole.established, a.sole.responder, a.sole.template, a.sole.fork, a.sole.candidates⟩,
    a.tallies, a.tallies'⟩

include hP hV

/-- A call that the second run leaves out. -/
theorem Alongside.elsewhere (ho : op.elsewhere P c = true) (hdraw : w.dispatcher.DrawsCid P op)
    (a : Alongside P limits c last w.got w'.got w.dispatcher w'.dispatcher)
    (hle : ∀ now, op.now? = some now → last ≤ now) :
    Alongside P limits c (op.now?.getD last) (w.perform P op).got w'.got
      (w.perform P op).dispatcher w'.dispatcher := by
  have hk : Kept (Spoken P) (fun _ => True) (w.dispatcher.step P op) :=
    (spoken_stable hP hV).step hP.encrypt_ne_nil hdraw a.kept
  cases op with
  | initiate own peer now e =>
    refine a.other (hle now rfl) (of_decide_eq_true ho) ?_ hk
    exact touches_initiate now w.dispatcher own peer e fun primary hp =>
      (spoken_initiate hP hdraw hp).2.outgoing
  | postPdu der now e =>
    cases hl : P.load der with
    | error x => simp [Op.elsewhere, hl] at ho
    | ok msg =>
      simp only [Op.elsewhere, hl] at ho
      refine a.other (hle now rfl) (of_decide_eq_true ho) (touches_postPdu hl w.dispatcher
        fun s hs => ?_) hk
      obtain ⟨t, _, hs⟩ | ⟨template, htemplate, hfork⟩ | rfl := hs
      · exact ((a.kept.holds hs).speaks_deliver hP hl).outgoing
      · exact (((a.kept.template _ _ htemplate).fork hfork).speaks_deliver hP hl).outgoing
      · exact (speaks_opened hP hV hl now e).outgoing
  | postPayload cid payload =>
    exact a.other (Int.le_refl last) (of_decide_eq_true ho)
      (touches_postPayload last w.dispatcher cid payload) hk
  | close cid =>
    exact a.other (Int.le_refl last) (of_decide_eq_true ho) (touches_close last w.dispatcher cid) hk
  | update | getPdu | getPayload => cases ho

/-- A call that both runs make. -/
theorem Alongside.concerned (ho : op.elsewhere P c = false) (hdraw : w.dispatcher.DrawsCid P op)
    (hcap : w.dispatcher.BelowCap op) (hfree : ¬ CutShort c w.dispatcher op)
    (a : Alongside P limits c last w.got w'.got w.dispatcher w'.dispatcher)
    (hle : ∀ now, op.now? = some now → last ≤ now) :
    Alongside P limits c (op.now?.getD last) (w.perform P op).got (w'.perform P op).got
      (w.perform P op).dispatcher (w'.perform P op).dispatcher := by
  have hk : Kept (Spoken P) (fun _ => True) (w.dispatcher.step P op) :=
    (spoken_stable hP hV).step hP.encrypt_ne_nil hdraw a.kept
  cases op with
  | initiate own peer now e =>
    have hc : e.uuid = c := by simpa [Op.elsewhere] using ho
    subst hc
    have m := (a.mirrors.mono (hle now rfl)).initiate own peer now
    exact a.both m hk (touches_initiate now _ own peer e fun _ _ _ _ => trivial)
      (touches_initiate now _ own peer e fun _ _ _ _ => trivial)
  | postPdu der now e =>
    cases hl : P.load der with
    | error x =>
      have hnone : ∀ d : Dispatcher β π, (d.postPdu P der now e).1 = d := by
        intro d
        simp only [Dispatcher.postPdu, hl]
      have heq : ∀ w : Observed β π, w.perform P (.postPdu der now e) = w := by
        intro w
        simp only [Observed.perform, Dispatcher.step, hnone]
      rw [heq, heq]
      exact { a with mirrors := a.mirrors.mono (hle now rfl) }
    | ok msg =>
      have hc : msg.cid = c := by simpa [Op.elsewhere, hl] using ho
      subst hc
      have m := a.mirrors.postPdu (hle now rfl) hcap (a.notFull (hle now rfl) hcap) hl e
      exact a.both m hk (touches_postPdu hl w.dispatcher fun _ _ _ _ => trivial)
        (touches_postPdu hl w'.dispatcher fun _ _ _ _ => trivial)
  | postPayload cid payload =>
    have hc : cid = c := by simpa [Op.elsewhere] using ho
    subst hc
    exact a.both (a.mirrors.postPayload payload) hk (touches_postPayload last w.dispatcher cid payload)
      (touches_postPayload last w'.dispatcher cid payload)
  | close cid =>
    have hc : cid = c := by simpa [Op.elsewhere] using ho
    subst hc
    exact a.both a.mirrors.close hk (touches_close last w.dispatcher cid)
      (touches_close last w'.dispatcher cid)
  | update now e =>
    exact a.update hP (hle now rfl) fun j hj s hs hover => hfree ⟨j, hj, s, hs, hover⟩
  | getPdu => exact a.read (.inl rfl)
  | getPayload => exact a.read (.inr rfl)

/-- Both runs to the end. -/
theorem Alongside.performAll {ops : List (Op β π)} (htimes : (ops.filterMap Op.now?).Pairwise (· ≤ ·))
    (hdraw : Meets P (DrawsCid P) w.dispatcher ops) (hcap : Meets P BelowCap w.dispatcher ops)
    (hfree : Meets P (fun d op => ¬ CutShort c d op) w.dispatcher ops)
    (a : Alongside P limits c last w.got w'.got w.dispatcher w'.dispatcher)
    (hle : ∀ now ∈ ops.filterMap Op.now?, last ≤ now) :
    ∃ last, Alongside P limits c last (w.performAll P ops).got
      (w'.performAll P (ops.filter fun op => !op.elsewhere P c)).got
      (w.performAll P ops).dispatcher
      (w'.performAll P (ops.filter fun op => !op.elsewhere P c)).dispatcher := by
  induction ops generalizing w w' last with
  | nil => exact ⟨last, a⟩
  | cons op rest ih =>
    have hfirst : ∀ now, op.now? = some now → last ≤ now := by
      intro now hnow
      apply hle
      rw [List.filterMap_cons_some hnow]
      exact List.mem_cons_self
    have hlater : ∀ now ∈ rest.filterMap Op.now?, op.now?.getD last ≤ now := by
      intro now hmem
      cases hnow : op.now? with
      | none =>
        apply hle
        rw [List.filterMap_cons_none hnow]
        exact hmem
      | some t =>
        rw [List.filterMap_cons_some hnow] at htimes
        exact (List.pairwise_cons.mp htimes).1 now hmem
    have hrest : (rest.filterMap Op.now?).Pairwise (· ≤ ·) := by
      cases hnow : op.now? with
      | none =>
        rw [List.filterMap_cons_none hnow] at htimes
        exact htimes
      | some t =>
        rw [List.filterMap_cons_some hnow] at htimes
        exact (List.pairwise_cons.mp htimes).2
    cases ho : op.elsewhere P c with
    | true =>
      rw [List.filter_cons_of_neg (by simp [ho])]
      exact ih hrest hdraw.2 hcap.2 hfree.2 (a.elsewhere hP hV ho hdraw.1 hfirst) hlater
    | false =>
      rw [List.filter_cons_of_pos (by simp [ho])]
      exact ih hrest hdraw.2 hcap.2 hfree.2
        (a.concerned hP hV ho hdraw.1 hcap.1 hfree.1 hfirst) hlater

omit [DecidableEq π] hP hV in
theorem alongside_start (P : Primitives β π) (keys : KeyLookup β) (config : SessionConfig)
    (limits : CandidateLimits) (c : List β) (last : Int) :
    Alongside P limits c last (Observed.start keys config limits).got
      (Observed.start keys config limits).got (Observed.start keys config limits).dispatcher
      (Observed.start keys config limits).dispatcher where
  mirrors := ⟨rfl, rfl, rfl, rfl, rfl, rfl, rfl, fresh_of_due rfl, rfl, rfl⟩
  kept := kept_new ..
  sole := ⟨fun _ _ => rfl, fun _ _ => rfl, fun _ _ => rfl, fun _ _ => rfl, fun _ _ => rfl⟩
  tallies := tallies_new limits
  tallies' := tallies_new limits

/-- The calls of a run of a new dispatcher, and those of them that concern the cid. -/
theorem alongside_run {keys : KeyLookup β} {config : SessionConfig} {limits : CandidateLimits}
    (c : List β) {ops : List (Op β π)} (htimes : (ops.filterMap Op.now?).Pairwise (· ≤ ·))
    (hdraw : Meets P (DrawsCid P) (new keys config limits) ops)
    (hcap : Meets P BelowCap (new keys config limits) ops)
    (hfree : Meets P (fun d op => ¬ CutShort c d op) (new keys config limits) ops) :
    ∃ last, Alongside P limits c last ((Observed.start keys config limits).performAll P ops).got
      ((Observed.start keys config limits).performAll P (ops.filter fun op => !op.elsewhere P c)).got
      ((Observed.start keys config limits).performAll P ops).dispatcher
      ((Observed.start keys config limits).performAll P
        (ops.filter fun op => !op.elsewhere P c)).dispatcher := by
  obtain ⟨first, hfirst⟩ : ∃ first, ∀ now ∈ ops.filterMap Op.now?, first ≤ now := by
    cases hts : ops.filterMap Op.now? with
    | nil => exact ⟨0, fun _ hmem => nomatch hmem⟩
    | cons t rest =>
      rw [hts] at htimes
      exact ⟨t, List.forall_mem_cons.mpr ⟨Int.le_refl t, (List.pairwise_cons.mp htimes).1⟩⟩
  have a := alongside_start P keys config limits c first
  exact Alongside.performAll hP hV htimes (by exact hdraw) (by exact hcap) (by exact hfree) a hfirst

/-- Calls that concern other cids leave no trace in what is put out for the cid, unless an
update is cut short. -/
theorem isolated {keys : KeyLookup β} {config : SessionConfig} {limits : CandidateLimits}
    (c : List β) {ops : List (Op β π)} (htimes : (ops.filterMap Op.now?).Pairwise (· ≤ ·))
    (hdraw : Meets P (DrawsCid P) (new keys config limits) ops)
    (hcap : Meets P BelowCap (new keys config limits) ops)
    (hfree : Meets P (fun d op => ¬ CutShort c d op) (new keys config limits) ops) :
    let w := (Observed.start keys config limits).performAll P ops
    let w' := (Observed.start keys config limits).performAll P
      (ops.filter fun op => !op.elsewhere P c)
    pdusOf P c w'.got w'.dispatcher = pdusOf P c w.got w.dispatcher ∧
      payloadsOf c w'.got w'.dispatcher = payloadsOf c w.got w.dispatcher := by
  obtain ⟨_, a⟩ := alongside_run hP hV c htimes hdraw hcap hfree
  exact ⟨a.mirrors.pdus, a.mirrors.payloads⟩

end

/-! ## Alice (0) calls Bob (1) twice -/

theorem checksCid_ideal : ChecksCid ideal := by
  intro der msg hl
  cases der with
  | encoded msg' =>
    have hload : (if Ideal.valid msg' = true then .ok msg' else .error PyError.valueError) =
        Except.ok msg := hl
    by_cases hv : Ideal.valid msg' = true
    · rw [if_pos hv] at hload
      cases hload
      exact (Ideal.valid_iff.mp hv).1
    · rw [if_neg hv] at hload
      cases hload
  | junk | odd => cases hl

def bothCalls : List (Op Sym Pdu) := [0, 10].flatMap fun k =>
  [.postPdu (callRequest k) 0 (draw (k + 1)), .postPdu (callCompletion k) 0 (draw (k + 3))]

/-- Bob with both sessions established. -/
def bobBusy : Dispatcher Sym Pdu :=
  bothCalls.foldl (step ideal) (new (staticLookup 1) {} aliceCalling.candidates.limits)

theorem meets_bothCalls : Meets ideal (fun d op => DrawsCid ideal d op ∧ BelowCap d op ∧
    ¬ CutShort (draw 10).uuid d op) (new (staticLookup 1) {} {}) bothCalls :=
  ⟨⟨trivial, by decide +kernel, id⟩, ⟨trivial, by decide +kernel, id⟩,
    ⟨trivial, by decide +kernel, id⟩, ⟨trivial, by decide +kernel, id⟩, trivial⟩

/-- What Bob's second session puts out does not depend on the first. -/
theorem isolated_bothCalls :
    let w := (Observed.start (staticLookup 1) {} {}).performAll ideal bothCalls
    let w' := (Observed.start (staticLookup 1) {} {}).performAll ideal
      (bothCalls.filter fun op => !op.elsewhere ideal (draw 10).uuid)
    pdusOf ideal (draw 10).uuid w'.got w'.dispatcher = pdusOf ideal (draw 10).uuid w.got w.dispatcher ∧
      payloadsOf (draw 10).uuid w'.got w'.dispatcher = payloadsOf (draw 10).uuid w.got w.dispatcher :=
  isolated Ideal.ideal_correct checksCid_ideal (draw 10).uuid (by decide +kernel)
    (meets_bothCalls.imp fun _ _ h => h.1) (meets_bothCalls.imp fun _ _ h => h.2.1)
    (meets_bothCalls.imp fun _ _ h => h.2.2)

end Dispatcher

end KemMake
