import KemMake.Isolation

/-!
# When one session has no numbers left

An established session that overflows raises past the handlers of the crank, which ends before
it reaches the sessions behind. So what is posted to one cid keeps back what another has to
send, and both runs of `isolated` part.
-/

namespace KemMake

namespace Session
variable {β π : Type} [DecidableEq β] [DecidableEq π] {P : Primitives β π} {s s' : Session β π}

theorem Steady.update_eq (h : s.Steady) (hsend : s.sendPending P = (s', none))
    (hs : s'.state = .established) (now : Int) (e : Entropy β) :
    s.update P now e = (s', .ok (s'.updateResult now)) := by
  have htake : s.takeIncoming P now e = (s, none) := by
    simp only [takeIncoming, h.2]
  have hcheck : s'.checkDeadline now = s' := by
    unfold checkDeadline
    cases s'.deadline <;> simp [hs]
  unfold Session.update
  simp only [h.1, reduceCtorEq, ↓reduceIte, htake, hsend, hs, hcheck]

theorem Steady.update_idle (h : s.Steady) (hp : s.pendingPayload = none) (now : Int) (e : Entropy β) :
    s.update P now e = (s, .ok (s.updateResult now)) := by
  refine h.update_eq ?_ h.1 now e
  simp only [sendPending, h.1, hp, ↓reduceIte]

/-- One more payload, one more number. -/
theorem Steady.update_sends (h : s.Steady) (hc : s.Coherent P) (hk : s.sendCount < seqLimit)
    {payload : List β} (hp : s.pendingPayload = some payload) (now : Int) (e : Entropy β) :
    ∃ s' pdu r, s.update P now e = (s', .ok r) ∧ s'.outgoingPdus = s.outgoingPdus ++ [pdu] ∧
      s'.pendingPayload = none ∧ s'.sendCount = s.sendCount + 1 := by
  obtain ⟨keys, _, hkeys, _⟩ := hc.established h.1
  obtain ⟨_, pdu, hpdu⟩ | ⟨hle, _⟩ := messagePdu_cases payload hc h.1 hkeys
  · have hsend : s.sendPending P = ({ s.countSent with
        pendingPayload := none, outgoingPdus := s.outgoingPdus ++ [pdu] }, none) := by
      have hsent := sendPending_sent (P := P) s
      generalize s.sendPending P = u at hsent
      obtain ⟨s₁, x⟩ := u
      cases hsent with
      | idle hi => cases hp.symm.trans (hi.resolve_left fun hs => hs h.1)
      | failed _ hp' hm =>
        cases hp.symm.trans hp'
        cases hpdu.symm.trans hm
      | message _ hp' hm =>
        cases hp.symm.trans hp'
        cases hpdu.symm.trans hm
        rfl
    refine ⟨_, pdu, _, h.update_eq hsend ?_ now e, rfl, rfl, ?_⟩
    · rw [countSent_eq]
      exact h.1
    · rw [countSent_eq]
      unfold sendCount
      cases s.role <;> simp
  · have hover : s.Overflows := ⟨h.1, by simp [hp], keys, hkeys, hle⟩
    have hno := ((overflows_iff hc h.1).mp hover).2
    omega

end Session

namespace Dispatcher
open CandidateStore

section
variable {β π : Type} [DecidableEq β] [DecidableEq π] {P : Primitives β π} {j c : List β}
  {s s' : Session β π} {k : Nat} {d : Dispatcher β π} {payload : List β} {now : Int} {e : Entropy β}

omit [DecidableEq β] [DecidableEq π] in
theorem Spoken.steady (h : Spoken P c .established s) : s.Steady :=
  ⟨h.tidy.1.2.1, h.tidy.2.resolve_right (by simp [h.tidy.1.2.1])⟩

/-- An idle session leaves the crank as it was. -/
theorem updateEstablished_idle (hs : d.established.get? c = some s) (h : s.Steady) (hstill : s.Still)
    (hp : s.pendingPayload = none) (now : Int) (e : Entropy β) (next : WithTop Int) :
    ∃ next', updateEstablished P now e d c next = (d, .ok next') := by
  have hset : d.established.set c { s with outgoingPdus := [], outgoingPayloads := [] } =
      d.established := by
    rw [show { s with outgoingPdus := [], outgoingPayloads := [] } = s from hstill.drained_eq]
    exact Dict.set_get? hs
  unfold updateEstablished
  simp only [hs, h.update_idle hp, drain, hstill.1, hstill.2, List.map_nil, List.append_nil, hset]
  exact ⟨_, rfl⟩

/-- A session that has a payload to send, and a number for it. -/
theorem updateEstablished_sends (hP : P.Correct) (hs : d.established.get? j = some s)
    (h : Spoken P j .established s) (hp : s.pendingPayload = some payload)
    (hk : s.sendCount < seqLimit) (now : Int) (e : Entropy β) (next : WithTop Int) :
    ∃ s' pdus next', pdus ≠ [] ∧ (∀ pdu ∈ pdus, cidOf P pdu = some j) ∧
      (updateEstablished P now e d j next).2 = .ok next' ∧
      (updateEstablished P now e d j next).1.established = d.established.set j s' ∧
      (updateEstablished P now e d j next).1.outgoingPdus = d.outgoingPdus ++ pdus ∧
      s'.pendingPayload = none ∧ s'.sendCount = s.sendCount + 1 := by
  obtain ⟨s', pdu, ⟨r, deadline⟩, hu, hout, hp', hk'⟩ :=
    h.steady.update_sends h.tidy.1.1 hk hp now e
  have hcid : Emits (fun pdu => cidOf P pdu = some j) (s.update P now e).1 := h.emits hP (by simp)
  unfold updateEstablished
  simp only [hs, hu, drain]
  rw [hu] at hcid
  exact ⟨s'.drained, s'.outgoingPdus, _, by simp [hout], hcid, rfl, rfl, rfl, hp', hk'⟩

/-- With established sessions alone, `update` is their sweep. -/
theorem update_sweeps (hr : d.responderSessions.keys = []) (hf : d.initiatorForks.keys = []) :
    (d.update P now e).1 = (sweep (updateEstablished P now e)
      { d with candidates := d.candidates.expire now } d.established.keys ⊤).1 := by
  have hrec : ({ d with candidates := d.candidates.expire now } :
      Dispatcher β π).reconcileExpiredCandidates =
        { d with candidates := d.candidates.expire now } := by
    simp only [reconcileExpiredCandidates, hr, hf, List.foldl_nil]
  have hkeep : (sweep (updateEstablished P now e) { d with candidates := d.candidates.expire now }
      d.established.keys ⊤).1.responderSessions.keys = [] ∧
      (sweep (updateEstablished P now e) { d with candidates := d.candidates.expire now }
        d.established.keys ⊤).1.initiatorForks.keys = [] := by
    refine sweep_keeps (Q := fun d' => d'.responderSessions.keys = [] ∧ d'.initiatorForks.keys = [])
      (fun d' i next h => ?_) d.established.keys ⊤ ⟨hr, hf⟩
    rw [(updateEstablished_frame d' i next).1, (updateEstablished_frame d' i next).2.1]
    exact h
  rw [update_fst, hrec]
  unfold crank
  rcases hs : sweep (updateEstablished P now e) { d with candidates := d.candidates.expire now }
    d.established.keys ⊤ with ⟨d', x | next⟩
  · rfl
  · rw [hs] at hkeep
    obtain ⟨hr', hf'⟩ := hkeep
    simp only at hr' hf' ⊢
    simp only [hr', hf', sweep]

theorem step_postPayload (hs : d.established.get? c = some s) (hp : payload ≠ []) :
    d.step P (.postPayload c payload) = { d with
      established := d.established.set c { s with pendingPayload := some payload } } := by
  simp only [step, Dispatcher.postPayload, hs]
  rw [Session.postPayload_eq, if_neg hp]

/-- Established sessions alone, under `j` and then under `c`. The first has sent `k` payloads and
has `pending` to send; the second is `s'`. -/
structure Crowded (P : Primitives β π) (j c : List β) (s' : Session β π) (k : Nat)
    (pending : Option (List β)) (d : Dispatcher β π) : Prop where
  kept : Kept (Spoken P) (fun _ => True) d
  keys : d.established.keys = [j, c]
  busy : ∃ s, d.established.get? j = some s ∧ s.pendingPayload = pending ∧ s.sendCount = k
  other : d.established.get? c = some s'
  responder : d.responderSessions.keys = []
  fork : d.initiatorForks.keys = []

section
variable {pending : Option (List β)} (h : Crowded P j c s' k pending d)
include h

omit [DecidableEq π] in
theorem Crowded.ne : j ≠ c := by
  have hnodup : d.established.keys.Nodup := d.established.nodup
  rw [h.keys] at hnodup
  simpa using hnodup

omit [DecidableEq π] in
theorem Crowded.not_cutShort (hk : k < seqLimit) (op : Op β π) : ¬ CutShort c d op := by
  intro hcut
  cases op with
  | update now e =>
    obtain ⟨i, hi, s, hs, hover⟩ := hcut
    have hmem : i ∈ [j, c] := by
      rw [← h.keys]
      exact Dict.mem_keys_iff.mpr ⟨s, hs⟩
    obtain rfl : i = j := by simpa [hi] using hmem
    obtain ⟨s₁, hs₁, _, hcount⟩ := h.busy
    cases hs.symm.trans hs₁
    have hle := ((Session.overflows_iff (h.kept.established i s hs).tidy.1.1 hover.1).mp hover).2
    omega
  | _ => exact hcut

theorem Crowded.postPayload (hP : P.Correct) (hV : ChecksCid P) (hp : payload ≠ []) :
    Crowded P j c s' k (some payload) (d.step P (.postPayload j payload)) := by
  obtain ⟨s, hs, _, hcount⟩ := h.busy
  have hk : Kept (Spoken P) (fun _ => True) (d.step P (.postPayload j payload)) :=
    (spoken_stable hP hV).step hP.encrypt_ne_nil trivial h.kept
  rw [step_postPayload hs hp] at hk ⊢
  exact ⟨hk, (Dict.keys_set_of_mem (by simp [h.keys]) _).trans h.keys,
    ⟨_, Dict.get?_set_self _ j _, rfl, hcount⟩,
    (Dict.get?_set_of_ne _ h.ne.symm _).trans h.other, h.responder, h.fork⟩

theorem Crowded.postOther (hP : P.Correct) (hV : ChecksCid P) (hp : payload ≠ []) :
    Crowded P j c { s' with pendingPayload := some payload } k pending
      (d.step P (.postPayload c payload)) := by
  obtain ⟨s, hs, hpending, hcount⟩ := h.busy
  have hk : Kept (Spoken P) (fun _ => True) (d.step P (.postPayload c payload)) :=
    (spoken_stable hP hV).step hP.encrypt_ne_nil trivial h.kept
  rw [step_postPayload h.other hp] at hk ⊢
  exact ⟨hk, (Dict.keys_set_of_mem (by simp [h.keys]) _).trans h.keys,
    ⟨s, (Dict.get?_set_of_ne _ h.ne _).trans hs, hpending, hcount⟩,
    Dict.get?_set_self _ c _, h.responder, h.fork⟩

/-- While a number is left, the first session sends its payload. -/
theorem Crowded.sends (hP : P.Correct) (hV : ChecksCid P) (hpending : pending = some payload)
    (hk : k < seqLimit) (hstill : s'.Still) (hidle : s'.pendingPayload = none) (now : Int)
    (e : Entropy β) : Crowded P j c s' (k + 1) none (d.step P (.update now e)) := by
  obtain ⟨s, hs, hp, hcount⟩ := h.busy
  subst hcount
  have hkept : Kept (Spoken P) (fun _ => True) (d.step P (.update now e)) :=
    (spoken_stable hP hV).step hP.encrypt_ne_nil trivial h.kept
  have hspoken : Spoken P j .established s := h.kept.established j s hs
  obtain ⟨s₁, pdus, next, -, -, hok, hset, -, hp₁, hcount₁⟩ :=
    updateEstablished_sends (d := { d with candidates := d.candidates.expire now }) hP hs hspoken
      (hp.trans hpending) hk now e ⊤
  have hframe : (updateEstablished P now e { d with candidates := d.candidates.expire now } j
      ⊤).1.initiatorForks = d.initiatorForks ∧
    (updateEstablished P now e { d with candidates := d.candidates.expire now } j
      ⊤).1.responderSessions = d.responderSessions ∧ _ := updateEstablished_frame _ j ⊤
  have hother : (updateEstablished P now e { d with candidates := d.candidates.expire now } j
      ⊤).1.established.get? c = some s' := by
    rw [hset]
    exact (Dict.get?_set_of_ne _ h.ne.symm _).trans h.other
  have hsteady : s'.Steady := (h.kept.established c s' h.other).steady
  obtain ⟨next', hidle'⟩ := updateEstablished_idle (P := P) hother hsteady hstill hidle now e next
  have hd : d.step P (.update now e) = (updateEstablished P now e
      { d with candidates := d.candidates.expire now } j ⊤).1 := by
    rw [step, update_sweeps h.responder h.fork, h.keys]
    rcases hu : updateEstablished P now e { d with candidates := d.candidates.expire now } j ⊤ with
      ⟨d₁, x | next₁⟩ <;> rw [hu] at hok hidle'
    · cases hok
    · cases hok
      simp only [sweep, hu, hidle']
  rw [hd] at hkept ⊢
  constructor
  · exact hkept
  · rw [hset]
    exact (Dict.keys_set_of_mem (by simp [h.keys]) _).trans h.keys
  · rw [hset]
    exact ⟨s₁, Dict.get?_set_self _ j _, hp₁, hcount₁⟩
  · exact hother
  · rw [hframe.2.1]
    exact h.responder
  · rw [hframe.1]
    exact h.fork

/-- Without a number left the first session ends the crank, and nothing is put out. -/
theorem Crowded.overflows (hpending : pending = some payload) (hk : k = seqLimit) :
    (d.step P (.update now e)).outgoingPdus = d.outgoingPdus := by
  obtain ⟨s, hs, hp, hcount⟩ := h.busy
  have hspoken : Spoken P j .established s := h.kept.established j s hs
  have hover : s.Overflows := (Session.overflows_iff hspoken.tidy.1.1 hspoken.tidy.1.2.1).mpr
    ⟨by simp [hp, hpending], by omega⟩
  have hx := update_overflows hspoken.tidy hover now e
  rw [step, update_sweeps h.responder h.fork, h.keys]
  rcases hu : s.update P now e with ⟨s₁, x | r⟩ <;> rw [hu] at hx <;> cases hx
  simp [sweep, updateEstablished, hs, hu, PyError.caught]

end

/-- Payloads to the one session, and a crank after each. -/
def flood (j payload : List β) (e : Entropy β) (n : Nat) : List (Op β π) :=
  (List.replicate n [.postPayload j payload, .update 0 e]).flatten

theorem Crowded.flood (hP : P.Correct) (hV : ChecksCid P) (hp : payload ≠ []) (hstill : s'.Still)
    (hidle : s'.pendingPayload = none) (n : Nat) (h : Crowded P j c s' k none d)
    (hn : k + n ≤ seqLimit) : Meets P (fun d op => ¬ CutShort c d op) d (flood j payload e n) ∧
      Crowded P j c s' (k + n) none ((Dispatcher.flood j payload e n).foldl (step P) d) := by
  induction n generalizing k d with
  | zero => exact ⟨trivial, h⟩
  | succ n ih =>
    have hk : k < seqLimit := by omega
    have hposted := h.postPayload hP hV hp
    have hsent := hposted.sends hP hV rfl hk hstill hidle 0 e
    obtain ⟨hmeets, hcrowded⟩ := ih hsent (by omega)
    have hround : (Dispatcher.flood j payload e (n + 1) : List (Op β π)) =
        .postPayload j payload :: .update 0 e :: Dispatcher.flood j payload e n := by
      rw [Dispatcher.flood, List.replicate_succ, List.flatten_cons]
      rfl
    have hcount : k + (n + 1) = k + 1 + n := by omega
    rw [hround, hcount, List.foldl_cons, List.foldl_cons]
    exact ⟨⟨h.not_cutShort hk _, hposted.not_cutShort hk _, hmeets⟩, hcrowded⟩

/-- A dispatcher with one session, which has a payload and a number for it. -/
theorem alone_sends (hP : P.Correct) (hkeys : d.established.keys = [c])
    (hs : d.established.get? c = some s) (h : Spoken P c .established s)
    (hp : s.pendingPayload = some payload) (hk : s.sendCount < seqLimit)
    (hr : d.responderSessions.keys = []) (hf : d.initiatorForks.keys = []) :
    ∃ pdus, pdus ≠ [] ∧ (∀ pdu ∈ pdus, cidOf P pdu = some c) ∧
      (d.step P (.update now e)).outgoingPdus = d.outgoingPdus ++ pdus := by
  obtain ⟨_, pdus, next, hne, hcid, hok, -, hout, -⟩ :=
    updateEstablished_sends (d := { d with candidates := d.candidates.expire now }) hP hs h hp hk now e ⊤
  refine ⟨pdus, hne, hcid, ?_⟩
  rw [step, update_sweeps hr hf, hkeys]
  rcases hu : updateEstablished P now e { d with candidates := d.candidates.expire now } c ⊤ with
    ⟨d₁, x | next₁⟩ <;> rw [hu] at hok hout
  · cases hok
  · simp only [sweep, hu]
    exact hout

/-- A payload for each, and a crank. -/
def twoPayloads (j c payload : List β) (e : Entropy β) : List (Op β π) :=
  [.postPayload j payload, .postPayload c payload, .update 0 e]

/-- Both sessions get a payload, and the crank does not reach the second. Where it is alone, it
sends its own. -/
theorem Crowded.interferes (hP : P.Correct) (hV : ChecksCid P) {limits : CandidateLimits} {last : Int}
    {o o' : Got β π} {d' : Dispatcher β π} (h : Crowded P j c s' seqLimit none d)
    (hcount : s'.sendCount < seqLimit) (hp : payload ≠ []) (a : Alongside P limits c last o o' d d') :
    pdusOf P c o' ([.postPayload c payload, .update 0 e].foldl (step P) d') ≠
      pdusOf P c o ((twoPayloads j c payload e).foldl (step P) d) := by
  have hfirst := h.postPayload hP hV hp
  have hsecond := hfirst.postOther hP hV hp
  have hspoken := hsecond.kept.established c _ hsecond.other
  have hcut : ((twoPayloads j c payload e).foldl (step P) d).outgoingPdus = d.outgoingPdus := by
    obtain ⟨s, hs, -⟩ := h.busy
    simp only [twoPayloads, List.foldl_cons, List.foldl_nil]
    rw [hsecond.overflows rfl rfl, step_postPayload hfirst.other hp, step_postPayload hs hp]
  have hs' : d'.established.get? c = some s' := a.mirrors.established.trans h.other
  obtain ⟨pdus, hne, hcid, hsent⟩ : ∃ pdus, pdus ≠ [] ∧ (∀ pdu ∈ pdus, cidOf P pdu = some c) ∧
      ([.postPayload c payload, .update 0 e].foldl (step P) d').outgoingPdus =
        d'.outgoingPdus ++ pdus := by
    simp only [List.foldl_cons, List.foldl_nil]
    rw [step_postPayload hs' hp]
    refine alone_sends hP (Dict.keys_eq_singleton (Dict.get?_set_self _ c _) fun i hi => ?_)
      (Dict.get?_set_self _ c _) hspoken rfl hcount (Dict.keys_eq_nil fun i => ?_)
      (Dict.keys_eq_nil fun i => ?_)
    · rw [Dict.get?_set_of_ne _ hi]
      exact a.sole.established i hi
    · by_cases hi : i = c
      · rw [hi]
        refine a.mirrors.responder.trans (Dict.get?_eq_none_iff.mpr ?_)
        simp [h.responder]
      · exact a.sole.responder i hi
    · by_cases hi : i = c
      · rw [hi]
        refine a.mirrors.fork.trans (Dict.get?_eq_none_iff.mpr ?_)
        simp [h.fork]
      · exact a.sole.fork i hi
  have hall : pdus.filter (fun pdu => decide (cidOf P pdu = some c)) = pdus := by
    rw [List.filter_eq_self]
    exact fun pdu hpdu => decide_eq_true (hcid pdu hpdu)
  have hsame : pdusOf P c o' d' = pdusOf P c o d := a.mirrors.pdus
  intro heq
  simp only [pdusOf] at heq hsame
  rw [hcut, hsent, ← hsame, ← List.append_assoc, List.filter_append, hall] at heq
  exact hne (List.append_cancel_left (heq.trans (List.append_nil _).symm))

theorem performAll_dispatcher (P : Primitives β π) (w : Observed β π) (ops : List (Op β π)) :
    (w.performAll P ops).dispatcher = ops.foldl (step P) w.dispatcher := by
  induction ops generalizing w with
  | nil => rfl
  | cons op rest ih => exact ih (w.perform P op)

theorem Observed.performAll_append (P : Primitives β π) (w : Observed β π) (ops ops' : List (Op β π)) :
    w.performAll P (ops ++ ops') = (w.performAll P ops).performAll P ops' := List.foldl_append

/-- After any calls that end so. -/
theorem Crowded.interferes_performAll (hP : P.Correct) (hV : ChecksCid P) {limits : CandidateLimits}
    {last : Int} {w : Observed β π} {ops : List (Op β π)}
    (h : Crowded P j c s' seqLimit none (w.performAll P ops).dispatcher)
    (hcount : s'.sendCount < seqLimit) (hp : payload ≠ [])
    (a : Alongside P limits c last (w.performAll P ops).got
      (w.performAll P (ops.filter fun op => !op.elsewhere P c)).got (w.performAll P ops).dispatcher
      (w.performAll P (ops.filter fun op => !op.elsewhere P c)).dispatcher) (e : Entropy β) :
    pdusOf P c
        (w.performAll P ((ops ++ twoPayloads j c payload e).filter fun op => !op.elsewhere P c)).got
        (w.performAll P ((ops ++ twoPayloads j c payload e).filter fun op => !op.elsewhere P c)).dispatcher ≠
      pdusOf P c (w.performAll P (ops ++ twoPayloads j c payload e)).got
        (w.performAll P (ops ++ twoPayloads j c payload e)).dispatcher := by
  have hfilter : (twoPayloads j c payload e).filter (fun op : Op β π => !op.elsewhere P c) =
      [.postPayload c payload, .update 0 e] := by
    simp [twoPayloads, Op.elsewhere, h.ne]
  have hgot : ∀ w : Observed β π, (w.performAll P (twoPayloads j c payload e)).got = w.got := by
    intro w
    simp only [Observed.performAll, twoPayloads, List.foldl_cons, List.foldl_nil, Observed.perform]
  have hgot' : ∀ w : Observed β π, (w.performAll P
      [.postPayload c payload, .update 0 e]).got = w.got := by
    intro w
    simp only [Observed.performAll, List.foldl_cons, List.foldl_nil, Observed.perform]
  have hne := h.interferes hP hV (e := e) hcount hp a
  rw [← performAll_dispatcher, ← performAll_dispatcher] at hne
  rw [List.filter_append, hfilter, Observed.performAll_append, Observed.performAll_append, hgot, hgot']
  exact hne

theorem meets_of_forall {ok : Dispatcher β π → Op β π → Prop} {ops : List (Op β π)}
    (h : ∀ op ∈ ops, ∀ d, ok d op) (d : Dispatcher β π) : Meets P ok d ops := by
  induction ops generalizing d with
  | nil => trivial
  | cons op rest ih =>
    obtain ⟨hop, hrest⟩ := List.forall_mem_cons.mp h
    exact ⟨hop d, ih hrest _⟩

omit [DecidableEq β] [DecidableEq π] in
theorem mem_flood {n : Nat} {op : Op β π} (h : op ∈ flood j payload e n) :
    op = .postPayload j payload ∨ op = .update 0 e := by
  simp only [flood, List.mem_flatten, List.mem_replicate] at h
  obtain ⟨_, ⟨_, rfl⟩, hop⟩ := h
  simpa using hop

end

/-! ## Two sessions of Bob's -/

def oneOctet : List Sym := [.octet 1]

/-- `2 ^ 96` payloads to the first session are sent, and then there is one for each. -/
def flooded : List (Op Sym Pdu) :=
  bothCalls ++ flood (draw 0).uuid oneOctet (draw 20) seqLimit ++
    twoPayloads (draw 0).uuid (draw 10).uuid oneOctet (draw 20)

theorem bobBusy_eq : bothCalls.foldl (step ideal) (new (staticLookup 1) {} {}) = bobBusy := rfl

theorem crowded_bothCalls :
    ∃ s', s'.Still ∧ s'.pendingPayload = none ∧ s'.sendCount = 0 ∧
      Crowded ideal (draw 0).uuid (draw 10).uuid s' 0 none bobBusy := by
  have hbusy : (bobBusy.established.get? (draw 0).uuid).map
      (fun s => (s.pendingPayload, s.sendCount)) = some (none, 0) := by decide +kernel
  have hidle : (bobBusy.established.get? (draw 10).uuid).map
      (fun s => (s.outgoingPdus.isEmpty, s.outgoingPayloads.isEmpty, s.pendingPayload, s.sendCount)) =
        some (true, true, none, 0) := by decide +kernel
  obtain ⟨s, hs, heq⟩ := Option.map_eq_some_iff.mp hbusy
  obtain ⟨s', hs', heq'⟩ := Option.map_eq_some_iff.mp hidle
  simp only [Prod.mk.injEq, List.isEmpty_iff] at heq heq'
  obtain ⟨hpdus, hpayloads, hnone, hcount⟩ := heq'
  obtain ⟨_, a⟩ := alongside_run Ideal.ideal_correct checksCid_ideal (draw 10).uuid
    (by decide +kernel) (meets_bothCalls.imp fun _ _ h => h.1)
    (meets_bothCalls.imp fun _ _ h => h.2.1) (meets_bothCalls.imp fun _ _ h => h.2.2)
  have hkept := a.kept
  rw [performAll_dispatcher] at hkept
  refine ⟨s', ⟨hpdus, hpayloads⟩, hnone, hcount, hkept, by decide +kernel, ⟨s, hs, heq⟩, hs',
    by decide +kernel, by decide +kernel⟩

/-- The calls of the flood are in order, draw no cid and post no PDU. -/
theorem meets_flooded :
    (flooded.filterMap Op.now?).Pairwise (· ≤ ·) ∧
      Meets ideal (fun d op => DrawsCid ideal d op ∧ BelowCap d op) (new (staticLookup 1) {} {})
        flooded := by
  constructor
  · have hcalls : ∀ op ∈ bothCalls, op.now? = some 0 := by decide +kernel
    have hzero : ∀ now ∈ flooded.filterMap Op.now?, now = 0 := by
      intro now hmem
      obtain ⟨op, hop, hnow⟩ := List.mem_filterMap.mp hmem
      simp only [flooded, List.mem_append] at hop
      obtain (hop | hop) | hop := hop
      · exact Option.some.inj (hnow.symm.trans (hcalls op hop))
      · obtain rfl | rfl := mem_flood hop <;> cases hnow
        rfl
      · simp only [twoPayloads, List.mem_cons, List.not_mem_nil, or_false] at hop
        obtain rfl | rfl | rfl := hop <;> cases hnow
        rfl
    apply List.pairwise_of_forall_mem_list
    intro now hnow later hlater
    rw [hzero now hnow, hzero later hlater]
  · rw [flooded, meets_append, meets_append]
    refine ⟨⟨meets_bothCalls.imp fun _ _ h => ⟨h.1, h.2.1⟩, meets_of_forall (fun op hop d => ?_) _⟩,
      ⟨trivial, trivial⟩, ⟨trivial, trivial⟩, ⟨trivial, trivial⟩, trivial⟩
    obtain rfl | rfl := mem_flood hop
    · exact ⟨trivial, trivial⟩
    · exact ⟨trivial, trivial⟩

/-- Where the second session is alone, it sends a Message that it keeps beside the first. -/
theorem overflow_interferes :
    ((flooded.filterMap Op.now?).Pairwise (· ≤ ·) ∧
      Meets ideal (fun d op => DrawsCid ideal d op ∧ BelowCap d op) (new (staticLookup 1) {} {})
        flooded) ∧
    let w := (Observed.start (staticLookup 1) {} {}).performAll ideal flooded
    let w' := (Observed.start (staticLookup 1) {} {}).performAll ideal
      (flooded.filter fun op => !op.elsewhere ideal (draw 10).uuid)
    pdusOf ideal (draw 10).uuid w'.got w'.dispatcher ≠ pdusOf ideal (draw 10).uuid w.got w.dispatcher := by
  refine ⟨meets_flooded, ?_⟩
  have hp : oneOctet ≠ [] := by simp [oneOctet]
  obtain ⟨s', hstill, hidle, hcount, hbusy⟩ := crowded_bothCalls
  obtain ⟨hfree, hcrowded⟩ := hbusy.flood (e := draw 20) Ideal.ideal_correct checksCid_ideal hp hstill
    hidle seqLimit (by omega)
  -- both runs up to the flood's end
  obtain ⟨htimes, hmeets⟩ := meets_flooded
  rw [flooded, List.filterMap_append] at htimes
  rw [flooded, meets_append] at hmeets
  obtain ⟨_, a⟩ := alongside_run Ideal.ideal_correct checksCid_ideal (draw 10).uuid
    (List.pairwise_append.mp htimes).1 (hmeets.1.imp fun _ _ h => h.1)
    (hmeets.1.imp fun _ _ h => h.2)
    (meets_append.mpr ⟨meets_bothCalls.imp fun _ _ h => h.2.2, hfree⟩)
  rw [Nat.zero_add] at hcrowded
  have hlt : s'.sendCount < seqLimit := by
    rw [hcount]
    decide
  have hend : Crowded ideal (draw 0).uuid (draw 10).uuid s' seqLimit none
      ((Observed.start (staticLookup 1) {} {}).performAll ideal
        (bothCalls ++ flood (draw 0).uuid oneOctet (draw 20) seqLimit)).dispatcher := by
    rw [performAll_dispatcher, List.foldl_append, Observed.start, bobBusy_eq]
    exact hcrowded
  rw [flooded]
  exact hend.interferes_performAll Ideal.ideal_correct checksCid_ideal hlt hp a (draw 20)

end Dispatcher

end KemMake
