import KemMake.Bounds
import KemMake.Spoken

/-!
# Two dispatchers that hold the same under a cid

What a call for the cid does to either depends on what it holds under the cid and on the
free room in the store. Entries that have expired and that one of them has not swept yet do
not matter.
-/

namespace KemMake

namespace CandidateStore
variable {β π : Type}

/-- When entries expire. -/
def due (l : List (HandshakeCandidate β π)) : List Int := l.map (·.expiresAt)

theorem due_survivors (now : Int) (l : List (HandshakeCandidate β π)) :
    due (survivors now l) = (due l).filter fun t => decide (now < t) := by
  simp only [due, survivors, List.filter_map]
  congr 1
  apply List.filter_congr
  intro c _
  simp only [HandshakeCandidate.isExpired, Function.comp_apply, ← decide_not, Int.not_le, ge_iff_le]

theorem due_eq_nil {l : List (HandshakeCandidate β π)} : due l = [] ↔ l = [] := List.map_eq_nil_iff

theorem length_due (l : List (HandshakeCandidate β π)) : (due l).length = l.length := List.length_map _

/-- Lists that differ in expired entries only. -/
def Fresh (last : Int) (l l' : List (HandshakeCandidate β π)) : Prop :=
  ∀ t, last ≤ t → (due l').filter (fun u => decide (t < u)) = (due l).filter fun u => decide (t < u)

variable {last now : Int} {l l' l'' : List (HandshakeCandidate β π)}

theorem Fresh.mono (h : Fresh last l l') (hle : last ≤ now) : Fresh now l l' :=
  fun t ht => h t (by omega)

/-- What is left of them once both are swept. -/
theorem Fresh.survivors (h : Fresh last l l') (hle : last ≤ now) :
    due (CandidateStore.survivors now l') = due (CandidateStore.survivors now l) := by
  rw [due_survivors, due_survivors, h now hle]

theorem fresh_of_due (h : due l' = due l) : Fresh last l l' := fun t _ => by rw [h]

theorem Fresh.fades (h : Fresh last l l') (hle : last ≤ now) (hf : Fades now l l'') :
    Fresh now l'' l' := by
  intro t ht
  rw [h t (by omega), ← due_survivors, ← due_survivors, hf.survivors ht]

end CandidateStore

namespace Dispatcher
open CandidateStore
variable {β π : Type} [DecidableEq β]

/-- What has been read out of a dispatcher's queues. -/
structure Got (β π : Type) where
  pdus : List π := []
  payloads : List (List β × List β) := []

/-- The PDUs of the cid that were put out, whether or not they have been read. -/
def pdusOf (P : Primitives β π) (c : List β) (o : Got β π) (d : Dispatcher β π) : List π :=
  (o.pdus ++ d.outgoingPdus).filter fun pdu => decide (cidOf P pdu = some c)

def payloadsOf (c : List β) (o : Got β π) (d : Dispatcher β π) : List (List β × List β) :=
  (o.payloads ++ d.outgoingPayloads).filter fun p => decide (p.1 = c)

/-- Under the cid both hold the same and have put out the same. -/
structure Mirrors (P : Primitives β π) (c : List β) (last : Int) (o o' : Got β π)
    (d d' : Dispatcher β π) : Prop where
  keys : d'.keys = d.keys
  config : d'.config = d.config
  limits : d'.candidates.limits = d.candidates.limits
  established : d'.established.get? c = d.established.get? c
  responder : d'.responderSessions.get? c = d.responderSessions.get? c
  template : d'.initiatorTemplates.get? c = d.initiatorTemplates.get? c
  fork : d'.initiatorForks.get? c = d.initiatorForks.get? c
  candidates : Fresh last (d.candidates.candidatesFor c) (d'.candidates.candidatesFor c)
  pdus : pdusOf P c o' d' = pdusOf P c o d
  payloads : payloadsOf c o' d' = payloadsOf c o d

/-- No other cid holds anything. -/
structure Sole (c : List β) (d : Dispatcher β π) : Prop where
  established : ∀ j, j ≠ c → d.established.get? j = none
  responder : ∀ j, j ≠ c → d.responderSessions.get? j = none
  template : ∀ j, j ≠ c → d.initiatorTemplates.get? j = none
  fork : ∀ j, j ≠ c → d.initiatorForks.get? j = none
  candidates : ∀ j, j ≠ c → d.candidates.candidatesFor j = []

section
variable {P : Primitives β π} {c : List β} {last now : Int} {o o' : Got β π}
  {d d' d₁ : Dispatcher β π} {s : Session β π}

theorem Sole.touched {O : π → Prop} (h : Sole c d) (ht : Touches c now O d d₁) : Sole c d₁ where
  established j hj := (ht.beside j hj).established.trans (h.established j hj)
  responder j hj := (ht.beside j hj).responder.trans (h.responder j hj)
  template j hj := (ht.beside j hj).template.trans (h.template j hj)
  fork j hj := (ht.beside j hj).fork.trans (h.fork j hj)
  candidates j hj := (ht.beside j hj).candidates.nil (h.candidates j hj)

theorem Mirrors.mono (m : Mirrors P c last o o' d d') (hle : last ≤ now) : Mirrors P c now o o' d d' :=
  { m with candidates := m.candidates.mono hle }

/-- A call that works under another cid. -/
theorem Mirrors.touched {j : List β} (m : Mirrors P c last o o' d d') (hle : last ≤ now)
    (hj : j ≠ c) (ht : Touches j now (fun pdu => cidOf P pdu = some j) d d₁) :
    Mirrors P c now o o' d₁ d' := by
  have hb := ht.beside c hj.symm
  obtain ⟨made, hmade, hO⟩ := ht.pdus
  obtain ⟨tags, htags, hT⟩ := ht.payloads
  refine ⟨m.keys.trans hb.keys.symm, m.config.trans hb.config.symm, m.limits.trans hb.limits.symm,
    m.established.trans hb.established.symm, m.responder.trans hb.responder.symm,
    m.template.trans hb.template.symm, m.fork.trans hb.fork.symm,
    m.candidates.fades hle hb.candidates, ?_, ?_⟩
  · have hnone : made.filter (fun pdu => decide (cidOf P pdu = some c)) = [] := by
      rw [List.filter_eq_nil_iff]
      intro pdu hpdu
      rw [hO pdu hpdu]
      simpa using hj
    rw [m.pdus, pdusOf, pdusOf, hmade, ← List.append_assoc, List.filter_append _ made, hnone,
      List.append_nil]
  · have hnone : tags.filter (fun p => decide (p.1 = c)) = [] := by
      rw [List.filter_eq_nil_iff]
      intro p hp
      rw [hT p hp]
      simpa using hj
    rw [m.payloads, payloadsOf, payloadsOf, htags, ← List.append_assoc, List.filter_append _ tags,
      hnone, List.append_nil]

/-! ## The same change to both -/

theorem Mirrors.drain (m : Mirrors P c last o o' d d') (s : Session β π) :
    Mirrors P c last o o' (d.drain s c).1 (d'.drain s c).1 := by
  refine { m with pdus := ?_, payloads := ?_ }
  · have h := m.pdus
    simp only [pdusOf, Dispatcher.drain, ← List.append_assoc, List.filter_append _ s.outgoingPdus] at h ⊢
    rw [h]
  · have h := m.payloads
    simp only [payloadsOf, Dispatcher.drain, ← List.append_assoc,
      List.filter_append _ (s.outgoingPayloads.map _)] at h ⊢
    rw [h]

theorem Mirrors.send (m : Mirrors P c last o o' d d') (pdus : List π) : Mirrors P c last o o'
    { d with outgoingPdus := d.outgoingPdus ++ pdus }
    { d' with outgoingPdus := d'.outgoingPdus ++ pdus } := by
  refine { m with pdus := ?_ }
  have h := m.pdus
  simp only [pdusOf, ← List.append_assoc, List.filter_append _ pdus] at h ⊢
  rw [h]

theorem Mirrors.setEstablished (m : Mirrors P c last o o' d d') (s : Session β π) :
    Mirrors P c last o o' { d with established := d.established.set c s }
      { d' with established := d'.established.set c s } :=
  { m with established := by simp }

theorem Mirrors.setResponder (m : Mirrors P c last o o' d d') (s : Session β π) :
    Mirrors P c last o o' { d with responderSessions := d.responderSessions.set c s }
      { d' with responderSessions := d'.responderSessions.set c s } :=
  { m with responder := by simp }

theorem Mirrors.setTemplate (m : Mirrors P c last o o' d d') (s : Session β π) :
    Mirrors P c last o o' { d with initiatorTemplates := d.initiatorTemplates.set c s }
      { d' with initiatorTemplates := d'.initiatorTemplates.set c s } :=
  { m with template := by simp }

theorem Mirrors.setForks (m : Mirrors P c last o o' d d') (forks : List (Session β π)) :
    Mirrors P c last o o' { d with initiatorForks := d.initiatorForks.set c forks }
      { d' with initiatorForks := d'.initiatorForks.set c forks } :=
  { m with fork := by simp }

theorem fresh_discard (st st' : CandidateStore β π) (c : List β) :
    Fresh last ((st.discard c).candidatesFor c) ((st'.discard c).candidatesFor c) :=
  fresh_of_due (by simp [CandidateStore.discard, candidatesFor])

theorem Mirrors.dropResponder (m : Mirrors P c last o o' d d') :
    Mirrors P c last o o' (d.dropResponder c) (d'.dropResponder c) :=
  { m with
    responder := by simp [Dispatcher.dropResponder]
    candidates := fresh_discard _ _ c }

theorem Mirrors.dropForks (m : Mirrors P c last o o' d d') : Mirrors P c last o o'
    { d with
      initiatorForks := d.initiatorForks.erase c
      initiatorTemplates := d.initiatorTemplates.erase c
      candidates := d.candidates.discard c }
    { d' with
      initiatorForks := d'.initiatorForks.erase c
      initiatorTemplates := d'.initiatorTemplates.erase c
      candidates := d'.candidates.discard c } :=
  { m with
    fork := by simp
    template := by simp
    candidates := fresh_discard _ _ c }

theorem Mirrors.promote (m : Mirrors P c last o o' d d') (winner : Session β π) :
    Mirrors P c last o o' (d.promote c winner) (d'.promote c winner) :=
  { m with
    established := by simp [Dispatcher.promote]
    responder := by simp [Dispatcher.promote]
    fork := by simp [Dispatcher.promote]
    template := by simp [Dispatcher.promote]
    candidates := fresh_discard _ _ c }

theorem Mirrors.reapResponder (m : Mirrors P c last o o' d d') :
    Mirrors P c last o o' (d.reapResponder c) (d'.reapResponder c) := by
  unfold Dispatcher.reapResponder
  rw [m.responder]
  cases d.responderSessions.get? c with
  | none => exact m
  | some s =>
    simp only
    split
    · exact (m.drain s).promote _
    · split
      · exact m.dropResponder
      · exact m

/-- A change of what is recorded with the entries. -/
theorem Mirrors.modify (m : Mirrors P c last o o' d d')
    {f : List (HandshakeCandidate β π) → List (HandshakeCandidate β π)}
    (hf : ∀ l, due (f l) = due l) : Mirrors P c last o o'
      { d with candidates := d.candidates.modify c f }
      { d' with candidates := d'.candidates.modify c f } := by
  have hdue : ∀ st : CandidateStore β π, due ((st.modify c f).candidatesFor c) =
      due (st.candidatesFor c) := by
    intro st
    unfold CandidateStore.modify
    split
    · rfl
    · rename_i l hl
      simp [candidatesFor, hl, hf]
  have hlimits : ∀ st : CandidateStore β π, (st.modify c f).limits = st.limits := by
    intro st
    unfold CandidateStore.modify
    split <;> rfl
  refine { m with limits := ?_, candidates := fun t ht => ?_ }
  · rw [hlimits, hlimits, m.limits]
  · rw [hdue, hdue, m.candidates t ht]

end

/-! ## A call for the cid, made to both -/

/-- The cap on all entries is not reached once the expired ones are gone. -/
def NotFull (d : Dispatcher β π) (now : Int) : Prop :=
  (d.candidates.expire now).total < d.candidates.limits.maxTotal

instance (d : Dispatcher β π) (now : Int) : Decidable (d.NotFull now) :=
  inferInstanceAs (Decidable (_ < _))

/-- Below the cap on all entries, `add` depends on those of the cid alone. -/
theorem add_notFull (st : CandidateStore β π) (c : List β) (receivedPdu sentPdu : π) {now : Int}
    (h : (st.expire now).total < st.limits.maxTotal) :
    (st.add c receivedPdu sentPdu now).2.isOk =
        decide ((survivors now (st.candidatesFor c)).length < st.limits.maxPerCid) ∧
      due ((st.add c receivedPdu sentPdu now).1.candidatesFor c) =
        due (survivors now (st.candidatesFor c)) ++
          if (survivors now (st.candidatesFor c)).length < st.limits.maxPerCid then
            [now + st.limits.ttlSeconds] else [] := by
  have hlimits : (st.expire now).limits = st.limits := rfl
  have htotal : ¬ (st.expire now).total ≥ st.limits.maxTotal := by omega
  rw [← candidatesFor_expire]
  unfold CandidateStore.add
  simp only [hlimits, if_neg htotal]
  by_cases hlen : ((st.expire now).candidatesFor c).length < st.limits.maxPerCid
  · have hge : ¬ ((st.expire now).candidatesFor c).length ≥ st.limits.maxPerCid := by omega
    rw [if_neg hge, if_pos hlen]
    refine ⟨(decide_eq_true hlen).symm, ?_⟩
    simp only [candidatesFor, Dict.get?_set_self, Option.getD_some, due, List.map_append, List.map_cons,
      List.map_nil]
  · have hge : ((st.expire now).candidatesFor c).length ≥ st.limits.maxPerCid := by omega
    rw [if_pos hge, if_neg hlen]
    refine ⟨(decide_eq_false hlen).symm, ?_⟩
    simp only [candidatesFor, Dict.get?_set_self, Option.getD_some, List.append_nil]

section
variable {P : Primitives β π} {c : List β} {last now : Int} {o o' : Got β π}
  {d d' d₁ : Dispatcher β π} {s : Session β π}

theorem Mirrors.add (m : Mirrors P c last o o' d d') (hle : last ≤ now) (hfull : d.NotFull now)
    (hfull' : d'.NotFull now) (receivedPdu sentPdu : π) :
    (d'.candidates.add c receivedPdu sentPdu now).2.isOk =
        (d.candidates.add c receivedPdu sentPdu now).2.isOk ∧
      Mirrors P c now o o'
        { d with candidates := (d.candidates.add c receivedPdu sentPdu now).1 }
        { d' with candidates := (d'.candidates.add c receivedPdu sentPdu now).1 } := by
  obtain ⟨hok, hdue⟩ := add_notFull d.candidates c receivedPdu sentPdu hfull
  obtain ⟨hok', hdue'⟩ := add_notFull d'.candidates c receivedPdu sentPdu hfull'
  have hsame := m.candidates.survivors hle
  have hlen : (survivors now (d'.candidates.candidatesFor c)).length =
      (survivors now (d.candidates.candidatesFor c)).length := by
    rw [← length_due, ← length_due, hsame]
  have hlimits : ∀ st : CandidateStore β π, (st.add c receivedPdu sentPdu now).1.limits = st.limits := by
    intro st
    unfold CandidateStore.add
    simp only
    split
    · rfl
    · split <;> rfl
  rw [hlen, m.limits] at hok' hdue'
  refine ⟨hok'.trans hok.symm, { m with limits := ?_, candidates := fresh_of_due ?_ }⟩
  · rw [hlimits, hlimits, m.limits]
  · rw [hdue', hdue, hsame]

variable [DecidableEq π] {der : π} {e : Entropy β} {msg : MakeMessage β}

/-- What comes of a session does not depend on who delivers to it. -/
theorem Mirrors.deliver (m : Mirrors P c last o o' d d') (s : Session β π) (der : π) (now : Int)
    (e : Entropy β) : ∃ d₁ d₁' s' x, d.deliver P s der now c e = (d₁, s', x) ∧
      d'.deliver P s der now c e = (d₁', s', x) ∧ Mirrors P c last o o' d₁ d₁' := by
  unfold Dispatcher.deliver
  rcases (s.postPdu der).update P now e with ⟨s', x | r⟩
  · simp only
    split
    · exact ⟨_, _, _, _, rfl, rfl, m.drain s'⟩
    · exact ⟨_, _, _, _, rfl, rfl, m⟩
  · exact ⟨_, _, _, _, rfl, rfl, m.drain s'⟩

theorem Mirrors.deliverEstablished (m : Mirrors P c last o o' d d') (s : Session β π) (der : π)
    (now : Int) (e : Entropy β) : Mirrors P c last o o' (d.deliverEstablished P s der now c e).1
      (d'.deliverEstablished P s der now c e).1 := by
  obtain ⟨d₁, d₁', s', x, hd, hd', m₁⟩ := m.deliver s der now e
  unfold Dispatcher.deliverEstablished
  rw [hd, hd']
  exact m₁.setEstablished s'

theorem Mirrors.deliverResponder (m : Mirrors P c last o o' d d') (s : Session β π) (der : π)
    (now : Int) (e : Entropy β) : Mirrors P c last o o' (d.deliverResponder P s der now c e).1
      (d'.deliverResponder P s der now c e).1 := by
  obtain ⟨d₁, d₁', s', x, hd, hd', m₁⟩ := m.deliver s der now e
  unfold Dispatcher.deliverResponder
  rw [hd, hd']
  cases x with
  | some x => exact m₁.setResponder s'
  | none => exact (m₁.setResponder s').reapResponder

theorem Mirrors.openResponder (m : Mirrors P c last o o' d d') (hle : last ≤ now)
    (hfull : d.NotFull now) (hfull' : d'.NotFull now) (der : π) (e : Entropy β) :
    Mirrors P c now o o' (d.openResponder P der now c e).1 (d'.openResponder P der now c e).1 := by
  obtain ⟨hok, ma⟩ := m.add hle hfull hfull' der P.noPdu
  unfold Dispatcher.openResponder
  rcases hst : d.candidates.add c der P.noPdu now with ⟨st, x | a⟩ <;>
    rcases hst' : d'.candidates.add c der P.noPdu now with ⟨st', x' | a'⟩ <;> rw [hst, hst'] at hok ma
  · exact ma
  · cases hok
  · cases hok
  · obtain ⟨d₁, d₁', s', x, hd, hd', m₁⟩ := ma.deliver (.new .responder none d.keys d.config) der now e
    have hnew : (Session.new .responder none d'.keys d'.config : Session β π) =
        .new .responder none d.keys d.config := by rw [m.keys, m.config]
    simp only
    rw [hnew, hd, hd']
    cases x with
    | some x => exact m₁.setResponder s'
    | none =>
      simp only
      split
      · exact (m₁.setResponder s').dropResponder
      · split
        · refine ((m₁.setResponder s').modify fun l => ?_).reapResponder
          cases l <;> rfl
        · exact (m₁.setResponder s').reapResponder

theorem Mirrors.resendFork (m : Mirrors P c last o o' d d') (der : π) (now : Int) (e : Entropy β)
    (forks : List (Session β π)) :
    d.resendFork P der now c e forks = none ∧ d'.resendFork P der now c e forks = none ∨
      ∃ d₁ d₁' forks' x, d.resendFork P der now c e forks = some (d₁, forks', x) ∧
        d'.resendFork P der now c e forks = some (d₁', forks', x) ∧ Mirrors P c last o o' d₁ d₁' := by
  induction forks with
  | nil => exact .inl ⟨rfl, rfl⟩
  | cons fork rest ih =>
    unfold Dispatcher.resendFork
    split
    · obtain ⟨d₁, d₁', s', x, hd, hd', m₁⟩ := m.deliver fork der now e
      rw [hd, hd']
      exact .inr ⟨_, _, _, _, rfl, rfl, m₁⟩
    · obtain ⟨h, h'⟩ | ⟨d₁, d₁', forks', x, h, h', m₁⟩ := ih
      · rw [h, h']
        exact .inl ⟨rfl, rfl⟩
      · rw [h, h']
        exact .inr ⟨_, _, _, _, rfl, rfl, m₁⟩

theorem Mirrors.openFork (m : Mirrors P c last o o' d d') (hle : last ≤ now)
    (hfull : d.NotFull now) (hfull' : d'.NotFull now) (template : Session β π) (der : π)
    (e : Entropy β) : Mirrors P c now o o' (d.openFork P template der now c e).1
      (d'.openFork P template der now c e).1 := by
  obtain ⟨hok, ma⟩ := m.add hle hfull hfull' der P.noPdu
  unfold Dispatcher.openFork
  rcases hst : d.candidates.add c der P.noPdu now with ⟨st, x | a⟩ <;>
    rcases hst' : d'.candidates.add c der P.noPdu now with ⟨st', x' | a'⟩ <;> rw [hst, hst'] at hok ma
  · exact ma
  · cases hok
  · cases hok
  · cases template.fork with
    | error x => exact ma
    | ok twin =>
      obtain ⟨d₁, d₁', s', x, hd, hd', m₁⟩ := ma.deliver twin der now e
      simp only [hd, hd', m.fork]
      cases x with
      | some x => exact m₁.setForks _
      | none =>
        refine (m₁.setForks _).modify fun l => ?_
        simp only [due, List.map_map]
        apply List.map_congr_left
        intro entry _
        simp only [Function.comp_apply]
        split <;> rfl

theorem Mirrors.routeToForks (m : Mirrors P c last o o' d d') (forks : List (Session β π)) (der : π)
    (now : Int) (e : Entropy β) : Mirrors P c last o o' (d.routeToForks P c forks der now e).1
      (d'.routeToForks P c forks der now e).1 := by
  unfold Dispatcher.routeToForks
  rcases offer P der now e forks with ⟨forks', _ | winner | x⟩
  · exact m.setForks forks'
  · exact ((m.setForks forks').drain winner).promote _
  · exact m.setForks forks'

/-- A PDU of the cid. -/
theorem Mirrors.postPdu (m : Mirrors P msg.cid last o o' d d') (hle : last ≤ now)
    (hfull : d.NotFull now) (hfull' : d'.NotFull now) (hl : P.load der = .ok msg) (e : Entropy β) :
    Mirrors P msg.cid now o o' (d.postPdu P der now e).1 (d'.postPdu P der now e).1 := by
  unfold Dispatcher.postPdu
  rw [hl]
  simp only [m.established]
  cases d.established.get? msg.cid with
  | some s => exact (m.deliverEstablished s der now e).mono hle
  | none =>
    simp only
    cases msg.payload.name with
    | sessionInitRequest =>
      simp only [routeSessionInitRequest, m.responder]
      cases d.responderSessions.get? msg.cid with
      | some s => exact (m.deliverResponder s der now e).mono hle
      | none => exact m.openResponder hle hfull hfull' der e
    | sessionInitResponse =>
      simp only [routeSessionInitResponse, m.template]
      cases d.initiatorTemplates.get? msg.cid with
      | none => exact m.mono hle
      | some template =>
        simp only [m.fork]
        obtain ⟨h, h'⟩ | ⟨d₁, d₁', forks', x, h, h', m₁⟩ :=
          m.resendFork der now e ((d.initiatorForks.get? msg.cid).getD [])
        · rw [h, h']
          exact m.openFork hle hfull hfull' template der e
        · rw [h, h']
          exact (m₁.setForks forks').mono hle
    | sessionCompletionRequest | sessionCompletionResponse | message =>
      simp only [m.responder]
      cases d.responderSessions.get? msg.cid with
      | some s => exact (m.deliverResponder s der now e).mono hle
      | none =>
        simp only [m.fork]
        cases d.initiatorForks.get? msg.cid with
        | some forks => exact (m.routeToForks forks der now e).mono hle
        | none => exact m.mono hle

omit [DecidableEq π] in
theorem Mirrors.postPayload (m : Mirrors P c last o o' d d') (payload : List β) :
    Mirrors P c last o o' (d.postPayload c payload).1 (d'.postPayload c payload).1 := by
  unfold Dispatcher.postPayload
  rw [m.established]
  cases d.established.get? c with
  | some s => exact m.setEstablished _
  | none =>
    simp only [m.responder]
    cases d.responderSessions.get? c with
    | some s => exact m.setResponder _
    | none =>
      simp only [m.template]
      cases d.initiatorTemplates.get? c with
      | none => exact m
      | some template =>
        simp only
        rcases template.postPayload payload with ⟨template', _ | x⟩
        · simp only [m.fork]
          cases d.initiatorForks.get? c with
          | none => exact m.setTemplate template'
          | some forks => exact (m.setTemplate template').setForks _
        · exact m

omit [DecidableEq π] in
theorem Mirrors.close (m : Mirrors P c last o o' d d') :
    Mirrors P c last o o' (d.close c) (d'.close c) :=
  { m with established := by simp [Dispatcher.close] }

omit [DecidableEq π] in
theorem Mirrors.initiate (m : Mirrors P e.uuid last o o' d d') (own peer : KeyId β) (now : Int) :
    Mirrors P e.uuid last o o' (d.initiate P own peer now e).1 (d'.initiate P own peer now e).1 := by
  have hnew : (Session.new .initiator (some own) d'.keys d'.config : Session β π) =
      .new .initiator (some own) d.keys d.config := by rw [m.keys, m.config]
  unfold Dispatcher.initiate
  rw [hnew]
  rcases hp : (Session.new .initiator (some own) d.keys d.config).initiate P peer now e with
    ⟨primary, _ | x⟩
  · obtain ⟨_, s1, ct1, _, _, rfl⟩ := Session.initiate_ok hp
    exact ((m.setTemplate _).setForks []).send _
  · exact m

/-! ## The crank -/

omit [DecidableEq π] in
/-- The sweep of `update` over the store, and what follows from it. -/
theorem Mirrors.reconcile (m : Mirrors P c last o o' d d') (hle : last ≤ now) :
    Mirrors P c now o o'
      { d with candidates := d.candidates.expire now }.reconcileExpiredCandidates
      { d' with candidates := d'.candidates.expire now }.reconcileExpiredCandidates := by
  have h := reconciled { d with candidates := d.candidates.expire now } c
  have h' := reconciled { d' with candidates := d'.candidates.expire now } c
  have hdue : due ((d'.candidates.expire now).candidatesFor c) =
      due ((d.candidates.expire now).candidatesFor c) := by
    rw [candidatesFor_expire, candidatesFor_expire]
    exact m.candidates.survivors hle
  have hnil : (d'.candidates.expire now).candidatesFor c = [] ↔
      (d.candidates.expire now).candidatesFor c = [] := by
    rw [← due_eq_nil, hdue, due_eq_nil]
  generalize { d with candidates := d.candidates.expire now }.reconcileExpiredCandidates = d₁ at h
  generalize { d' with candidates := d'.candidates.expire now }.reconcileExpiredCandidates = d₁' at h'
  constructor
  · rw [h.keys, h'.keys]
    exact m.keys
  · rw [h.config, h'.config]
    exact m.config
  · rw [h.candidates, h'.candidates]
    exact m.limits
  · rw [h.established, h'.established]
    exact m.established
  · rw [h.responder, h'.responder]
    simp only [hnil, m.responder]
  · rw [h.template, h'.template]
    simp only [hnil, m.template, m.established, m.fork]
  · rw [h.fork, h'.fork]
    simp only [hnil, m.fork, m.established]
  · rw [h.candidates, h'.candidates]
    exact fresh_of_due hdue
  · rw [pdusOf, pdusOf, h.pdus, h'.pdus]
    exact m.pdus
  · rw [payloadsOf, payloadsOf, h.payloads, h'.payloads]
    exact m.payloads

theorem Mirrors.updateEstablished (m : Mirrors P c last o o' d d') (now : Int) (e : Entropy β)
    (next next' : WithTop Int) :
    (updateEstablished P now e d' c next').2.isOk = (updateEstablished P now e d c next).2.isOk ∧
      Mirrors P c last o o' (updateEstablished P now e d c next).1
        (updateEstablished P now e d' c next').1 := by
  unfold Dispatcher.updateEstablished
  rw [m.established]
  cases d.established.get? c with
  | none => exact ⟨rfl, m⟩
  | some s =>
    simp only
    rcases s.update P now e with ⟨s', x | r⟩
    · simp only
      split
      · exact ⟨rfl, (m.drain s').setEstablished _⟩
      · exact ⟨rfl, m.setEstablished _⟩
    · exact ⟨rfl, (m.drain s').setEstablished _⟩

theorem Mirrors.updateResponder (m : Mirrors P c last o o' d d') (now : Int) (e : Entropy β)
    (next next' : WithTop Int) :
    (updateResponder P now e d' c next').2.isOk = (updateResponder P now e d c next).2.isOk ∧
      Mirrors P c last o o' (updateResponder P now e d c next).1
        (updateResponder P now e d' c next').1 := by
  unfold Dispatcher.updateResponder
  rw [m.responder]
  cases d.responderSessions.get? c with
  | none => exact ⟨rfl, m⟩
  | some s =>
    simp only
    rcases s.update P now e with ⟨s', x | r⟩
    · simp only
      split
      · exact ⟨rfl, m.dropResponder⟩
      · exact ⟨rfl, m.setResponder _⟩
    · have mset := (m.drain s').setResponder s'.drained
      have hdrain : ∀ d : Dispatcher β π, (d.drain s' c).2 = s'.drained := fun _ => rfl
      simp only [hdrain]
      split
      · exact ⟨rfl, mset.promote _⟩
      · split
        · exact ⟨rfl, mset.dropResponder⟩
        · exact ⟨rfl, mset⟩

omit [DecidableEq π] in
/-- The deadline so far is only passed along. -/
theorem crankForks_next [DecidableEq π] (now : Int) (e : Entropy β) (forks : List (Session β π))
    (next next' : WithTop Int) :
    (crankForks P now e forks next').1 = (crankForks P now e forks next).1 ∧
      (crankForks P now e forks next').2.1 = (crankForks P now e forks next).2.1 ∧
      (crankForks P now e forks next').2.2.1 = (crankForks P now e forks next).2.2.1 := by
  induction forks generalizing next next' with
  | nil => exact ⟨rfl, rfl, rfl⟩
  | cons fork rest ih =>
    unfold crankForks
    rcases fork.update P now e with ⟨fork', x | ⟨r, deadline⟩⟩
    · obtain ⟨h₁, h₂, h₃⟩ := ih next next'
      simp only
      split
      · exact ⟨congrArg (fork' :: ·) h₁, h₂, h₃⟩
      · exact ⟨rfl, rfl, rfl⟩
    · obtain ⟨h₁, h₂, h₃⟩ := ih (min next deadline) (min next' deadline)
      simp only
      split
      · exact ⟨rfl, rfl, rfl⟩
      · refine ⟨congrArg (fork' :: ·) h₁, ?_, h₃⟩
        simp only [h₂]

theorem Mirrors.updateForks (m : Mirrors P c last o o' d d') (now : Int) (e : Entropy β)
    (next next' : WithTop Int) :
    (updateForks P now e d' c next').2.isOk = (updateForks P now e d c next).2.isOk ∧
      Mirrors P c last o o' (updateForks P now e d c next).1
        (updateForks P now e d' c next').1 := by
  unfold Dispatcher.updateForks
  rw [m.fork]
  cases d.initiatorForks.get? c with
  | none => exact ⟨rfl, m⟩
  | some forks =>
    obtain ⟨h₁, h₂, h₃⟩ := crankForks_next (P := P) now e forks next next'
    simp only
    rcases hc : crankForks P now e forks next with ⟨forks₁, surviving, contest, next₁⟩
    rcases hc' : crankForks P now e forks next' with ⟨forks₁', surviving', contest', next₁'⟩
    rw [hc, hc'] at h₁ h₂ h₃
    cases h₁
    cases h₂
    cases h₃
    cases contest with
    | raised x => exact ⟨rfl, m.setForks forks₁⟩
    | won winner => exact ⟨rfl, (m.drain winner).promote _⟩
    | «open» =>
      cases surviving with
      | nil => exact ⟨rfl, m.dropForks⟩
      | cons fork rest => exact ⟨rfl, m.setForks _⟩

end

end Dispatcher

end KemMake
