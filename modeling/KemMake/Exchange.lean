import KemMake.Frame
import KemMake.Handshake
import KemMake.Binding
import KemMake.Isolation

/-!
# A handshake between two dispatchers

Alice's dispatcher calls Bob's, and each of the four PDUs reaches the other side once, in order,
while both go on with other cids. Both end up with the session exactly when two sessions on their
own would (`joined_iff`).
-/

namespace KemMake

section
variable {β π : Type} [DecidableEq β] [DecidableEq π] {P : Primitives β π} (hP : P.Correct)
  {p : Parties P} {e : Nat → Entropy β} (x : Encapsulated p e)

/-- Alice's session after `failed` timeouts, where `t` is the time of the last, or of the call. -/
def Encapsulated.asking (t : Int) (failed : Nat) : Session β π :=
  { x.calling t with attemptCount := failed }

omit [DecidableEq β] [DecidableEq π] in
theorem asking_zero (t : Int) : x.asking t 0 = x.calling t := rfl

include hP

/-! ## The four updates, with what they return -/

theorem update_request {aead : Aead} (he : (e 0).Fits P) (t : Int)
    (ha : chooseAead p.bobConfig.acceptableAeads x.request.acceptableAeads = .ok aead) :
    ((Session.new .responder none p.bobKeys p.bobConfig).postPdu
      (x.pdu (.sessionInitRequest x.request))).update P t (e 1) =
      if p.aliceConfig.kemLevel = p.bob.level then
        ((x.answered t aead).checkDeadline t,
          .ok (((x.answered t aead).checkDeadline t).updateResult t))
      else (x.addressed, .error .valueError) := by
  have hproc : (Session.new .responder none p.bobKeys p.bobConfig).processIncoming P
      (x.pdu (.sessionInitRequest x.request)) t (e 1) =
      x.addressed.handleSessionInitRequest P x.request (x.pdu (.sessionInitRequest x.request)) t
        (e 1) := by
    rw [Session.processIncoming_first (by simp [Session.new])
      (load_pdu hP x he (.sessionInitRequest x.request) (by simp)) rfl rfl rfl]
    rfl
  rw [Session.handleSessionInitRequest, initReply_addressed hP x ha] at hproc
  by_cases hlevel : p.aliceConfig.kemLevel = p.bob.level
  · simp only [hlevel, ↓reduceIte] at hproc ⊢
    exact Session.update_of_process rfl (by simp [Session.new]) hproc
      (.inl (by simp [Encapsulated.answered, Session.acceptInitRequest]))
      (by simp [Encapsulated.answered, Session.acceptInitRequest])
  · simp only [hlevel, ↓reduceIte] at hproc ⊢
    exact Session.update_of_raise rfl (by simp [Session.new]) hproc

theorem update_response {aead : Aead} (he : (e 0).Fits P) (t t' : Int) (failed : Nat)
    (ha : aead ∈ p.aliceConfig.acceptableAeads) :
    ((x.asking t failed).postPdu (x.pdu (.sessionInitResponse (x.response aead)))).update P t'
      (e 2) =
      if p.aliceConfig.kemLevel = p.alice.level then
        ((x.called t t' aead).checkDeadline t',
          .ok (((x.called t t' aead).checkDeadline t').updateResult t'))
      else (x.asking t failed, .error .valueError) := by
  have hne : (x.completionCall aead).cM ≠ [] := hP.encrypt_ne_nil _ _ _ _ _
  have hproc : (x.asking t failed).processIncoming P
      (x.pdu (.sessionInitResponse (x.response aead))) t' (e 2) =
      (x.asking t failed).handleSessionInitResponse P (x.response aead)
        (x.pdu (.sessionInitResponse (x.response aead))) t' (e 2) := by
    rw [Session.processIncoming_dispatch
      (by simp [Encapsulated.asking, Encapsulated.calling, Session.new])
      (load_pdu hP x he (.sessionInitResponse (x.response aead)) (by simp))
      (by simp [Encapsulated.asking, Encapsulated.calling]) rfl]
    rfl
  have hcall : (x.asking t failed).completionCall P (x.response aead) (e 2) = _ :=
    completionCall_calling hP x t he ha
  rw [Session.handleSessionInitResponse, hcall] at hproc
  by_cases hlevel : p.aliceConfig.kemLevel = p.alice.level
  · simp only [hlevel, ↓reduceIte, SessionCompletionRequest.build, hne] at hproc ⊢
    exact Session.update_of_process rfl (by simp [Encapsulated.asking, Encapsulated.calling]) hproc
      (.inl (by simp [Encapsulated.called, Session.acceptInitResponse]))
      (by simp [Encapsulated.called, Session.acceptInitResponse])
  · simp only [hlevel, ↓reduceIte] at hproc ⊢
    exact Session.update_of_raise rfl (by simp [Encapsulated.asking, Encapsulated.calling]) hproc

theorem update_completion (aead : Aead) (h0 : (e 0).Fits P) (h1 : (e 1).Fits P) (t t' : Int)
    (d : Entropy β) :
    ((x.awaiting t aead).postPdu (x.pdu (.sessionCompletionRequest (x.completion aead)))).update P
      t' d =
      if p.bobConfig.kemLevel = p.aliceConfig.kemLevel then
        (x.served t aead, .ok ((x.served t aead).updateResult t'))
      else (x.awaiting t aead, .error .valueError) := by
  have hcM := completion_cM hP x aead
  have ho : (x.awaiting t aead).openCompletion P (x.completion aead) = _ :=
    openCompletion_answered hP x t h1
  have hnew : (x.awaiting t aead).lastReceived ≠
      some (x.pdu (.sessionCompletionRequest (x.completion aead))) := by
    simpa [Encapsulated.awaiting, Encapsulated.answered, Session.acceptInitRequest] using
      pdu_ne hP x h0 _ _ (by simp) hcM (by simp)
  have hproc : (x.awaiting t aead).processIncoming P
      (x.pdu (.sessionCompletionRequest (x.completion aead))) t' d =
      (x.awaiting t aead).handleSessionCompletionRequest P (x.completion aead)
        (x.pdu (.sessionCompletionRequest (x.completion aead))) := by
    rw [Session.processIncoming_dispatch hnew (load_pdu hP x h0 _ hcM)
      (by simp [Encapsulated.awaiting, Encapsulated.answered, Session.acceptInitRequest]) rfl]
    rfl
  rw [Session.handleSessionCompletionRequest_eq, ho] at hproc
  by_cases hlevel : p.bobConfig.kemLevel = p.aliceConfig.kemLevel
  · simp only [hlevel, ↓reduceIte] at hproc ⊢
    exact Session.update_of_process rfl
      (by simp [Encapsulated.awaiting, Encapsulated.answered, Session.acceptInitRequest]) hproc
      (.inr rfl) (by simp [Session.acceptCompletion])
  · simp only [hlevel, ↓reduceIte] at hproc ⊢
    exact Session.update_of_raise rfl
      (by simp [Encapsulated.awaiting, Encapsulated.answered, Session.acceptInitRequest]) hproc

theorem update_confirmation (aead : Aead) (h0 : (e 0).Fits P) (t t' t'' : Int) (count : Nat)
    (deadline : Option Int) (d : Entropy β) : ∃ result,
    ((x.waiting t t' aead count deadline []).postPdu
      (x.pdu (.sessionCompletionResponse x.confirmation))).update P t'' d =
      ((x.waiting t t' aead count deadline []).acceptReply
        (x.pdu (.sessionCompletionResponse x.confirmation)), .ok result) := by
  have hnew : (x.waiting t t' aead count deadline []).lastReceived ≠
      some (x.pdu (.sessionCompletionResponse x.confirmation)) := by
    simpa [Encapsulated.waiting, Encapsulated.called, Session.acceptInitResponse] using
      pdu_ne hP x h0 (.sessionInitResponse (x.response aead)) _ (by simp) (by simp) (by simp)
  have hproc : (x.waiting t t' aead count deadline []).processIncoming P
      (x.pdu (.sessionCompletionResponse x.confirmation)) t'' d =
      ((x.waiting t t' aead count deadline []).acceptReply
        (x.pdu (.sessionCompletionResponse x.confirmation)), none) := by
    rw [Session.processIncoming_dispatch hnew
      (load_pdu hP x h0 (.sessionCompletionResponse x.confirmation) (by simp))
      (by simp [Encapsulated.waiting, Encapsulated.called, Session.acceptInitResponse]) rfl]
    simp [Session.dispatch, MakeMessage.build, Session.handleSessionCompletionResponse,
      Encapsulated.waiting, Encapsulated.called, Session.acceptInitResponse, Encapsulated.calling,
      Session.new, Encapsulated.completionCall, Encapsulated.confirmation]
  exact ⟨_, Session.update_of_process rfl
    (by simp [Encapsulated.waiting, Encapsulated.called, Session.acceptInitResponse]) hproc
    (.inr rfl) (by simp [Session.acceptReply])⟩

end

/-! ## What a dispatcher holds under one cid -/

namespace Dispatcher
variable {β π : Type} [DecidableEq β]

structure Entry (β π : Type) where
  established : Option (Session β π) := none
  responder : Option (Session β π) := none
  template : Option (Session β π) := none
  forks : Option (List (Session β π)) := none

def entry (d : Dispatcher β π) (c : List β) : Entry β π where
  established := d.established.get? c
  responder := d.responderSessions.get? c
  template := d.initiatorTemplates.get? c
  forks := d.initiatorForks.get? c

/-- The first of the PDUs that have been queued since `d`. -/
def newPdu (d d' : Dispatcher β π) : Option π :=
  (d'.outgoingPdus.drop d.outgoingPdus.length).head?

/-- The call is not for this cid, and no `update`. -/
def Op.Aside (P : Primitives β π) (c : List β) : Op β π → Prop
  | .initiate _ _ _ e => e.uuid ≠ c
  | .postPdu der _ _ => ∀ msg, P.load der = .ok msg → msg.cid ≠ c
  | .postPayload cid _ | .close cid => cid ≠ c
  | .getPdu | .getPayload => True
  | .update _ _ => False

variable [DecidableEq π]

def steps (P : Primitives β π) (d : Dispatcher β π) (ops : List (Op β π)) : Dispatcher β π :=
  ops.foldl (step P) d

/-- Posts the PDU, if there is one. -/
def pass (P : Primitives β π) (d : Dispatcher β π) (pdu : Option π) (now : Int) (e : Entropy β) :
    Dispatcher β π :=
  match pdu with
  | none => d
  | some der => (d.postPdu P der now e).1

section
variable {P : Primitives β π} {c : List β} {d d' : Dispatcher β π}

omit [DecidableEq β] [DecidableEq π] in
theorem newPdu_self (d : Dispatcher β π) : d.newPdu d = none := by
  rw [newPdu, List.drop_length, List.head?_nil]

omit [DecidableEq β] [DecidableEq π] in
theorem newPdu_append {pdu : π} {rest : List π}
    (h : d'.outgoingPdus = d.outgoingPdus ++ pdu :: rest) : d.newPdu d' = some pdu := by
  rw [newPdu, h, List.drop_left, List.head?_cons]

omit [DecidableEq π] in
theorem Beside.entry {now : Int} (h : Beside c now d d') : d'.entry c = d.entry c := by
  simp only [Dispatcher.entry, h.established, h.responder, h.template, h.fork]

theorem step_aside {op : Op β π} (h : op.Aside P c) : (d.step P op).entry c = d.entry c ∧
    (d.step P op).keys = d.keys ∧ (d.step P op).config = d.config := by
  have hb : Beside c 0 d (d.step P op) ∨ ∃ now, Beside c now d (d.step P op) := by
    cases op with
    | initiate own peer now e => exact .inr ⟨now, beside_initiate now d own peer h⟩
    | postPdu der now e => exact .inr ⟨now, beside_postPdu h d now e⟩
    | postPayload cid payload => exact .inl (beside_postPayload 0 d (Ne.symm h) payload)
    | close cid => exact .inl (beside_close 0 d (Ne.symm h))
    | getPdu => exact .inl (beside_getPdu 0 d)
    | getPayload => exact .inl (beside_getPayload 0 d)
    | update => exact h.elim
  obtain hb | ⟨_, hb⟩ := hb <;> exact ⟨hb.entry, hb.keys, hb.config⟩

/-- The traffic of other cids. -/
theorem steps_aside {ops : List (Op β π)} (h : ∀ op ∈ ops, op.Aside P c) :
    (d.steps P ops).entry c = d.entry c ∧ (d.steps P ops).keys = d.keys ∧
      (d.steps P ops).config = d.config := by
  induction ops generalizing d with
  | nil => exact ⟨rfl, rfl, rfl⟩
  | cons op ops ih =>
    obtain ⟨he, hk, hc⟩ := step_aside (d := d) (h op List.mem_cons_self)
    obtain ⟨he', hk', hc'⟩ := ih (d := d.step P op) fun op' hop =>
      h op' (List.mem_cons_of_mem _ hop)
    exact ⟨he'.trans he, hk'.trans hk, hc'.trans hc⟩

theorem deliver_ok {s u : Session β π} {der : π} {now : Int} {e : Entropy β}
    {result : UpdateResult × WithTop Int} (h : (s.postPdu der).update P now e = (u, .ok result)) :
    d.deliver P s der now c e = ((d.drain u c).1, u.drained, none) := by
  simp only [deliver, h]
  rfl

theorem deliver_error {s u : Session β π} {der : π} {now : Int} {e : Entropy β}
    (h : (s.postPdu der).update P now e = (u, .error .valueError)) :
    d.deliver P s der now c e = (d, u, some .valueError) := by
  simp only [deliver, h]
  rfl

end

/-! ## The four calls -/

section
variable {P : Primitives β π} (hP : P.Correct) {p : Parties P}
  {e : Nat → Entropy β} (x : Encapsulated p e) {d : Dispatcher β π} {aead : Aead}
include hP

omit [DecidableEq π] in
theorem initiate_entry (hkeys : d.keys = p.aliceKeys) (hconfig : d.config = p.aliceConfig)
    (hfree : d.entry (e 0).uuid = {}) (t : Int) :
    (d.initiate P p.aliceId p.bobId t (e 0)).1.entry (e 0).uuid =
        { template := some (x.calling t), forks := some [] } ∧
      d.newPdu (d.initiate P p.aliceId p.bobId t (e 0)).1 =
        some (x.pdu (.sessionInitRequest x.request)) ∧
      (d.initiate P p.aliceId p.bobId t (e 0)).1.keys = p.aliceKeys ∧
      (d.initiate P p.aliceId p.bobId t (e 0)).1.config = p.aliceConfig := by
  simp only [entry, Entry.mk.injEq] at hfree
  have hcid : (x.calling t).cid = some (e 0).uuid := rfl
  have heq : d.initiate P p.aliceId p.bobId t (e 0) =
      ({ d with
          initiatorTemplates := d.initiatorTemplates.set (e 0).uuid (x.calling t)
          initiatorForks := d.initiatorForks.set (e 0).uuid []
          outgoingPdus := d.outgoingPdus ++ [x.pdu (.sessionInitRequest x.request)] },
        .ok (e 0).uuid) := by
    simp only [initiate, hkeys, hconfig, initiate_calling hP x, hcid]
    rfl
  rw [heq]
  refine ⟨?_, newPdu_append rfl, hkeys, hconfig⟩
  simp only [entry, Dict.get?_set_self, hfree]

/-- Bob's dispatcher has the request. -/
theorem request_entry (h0 : (e 0).Fits P) (hkeys : d.keys = p.bobKeys)
    (hconfig : d.config = p.bobConfig) (hfree : d.entry (e 0).uuid = {}) {t : Int}
    (hadm : d.candidates.Admits (e 0).uuid t)
    (ha : chooseAead p.bobConfig.acceptableAeads x.request.acceptableAeads = .ok aead)
    {d' : Dispatcher β π}
    (hd' : d' = (d.postPdu P (x.pdu (.sessionInitRequest x.request)) t (e 1)).1) :
    if p.aliceConfig.kemLevel = p.bob.level then
      d.newPdu d' = some (x.pdu (.sessionInitResponse (x.response aead))) ∧
        d'.entry (e 0).uuid = if 0 < p.bobConfig.ttlSeconds then
          { responder := some (x.awaiting t aead) } else {}
    else (d'.entry (e 0).uuid).established = none ∧ d.newPdu d' = none := by
  simp only [entry, Entry.mk.injEq] at hfree
  obtain ⟨candidate, hadd⟩ := (CandidateStore.add_admits d.candidates (e 0).uuid
    (x.pdu (.sessionInitRequest x.request)) P.noPdu t).mpr hadm
  obtain ⟨st, hst⟩ : ∃ st, d.candidates.add (e 0).uuid (x.pdu (.sessionInitRequest x.request))
      P.noPdu t = (st, .ok candidate) := ⟨_, Prod.ext rfl hadd⟩
  have hload := load_pdu hP x h0 (.sessionInitRequest x.request) (by simp)
  have hroute : d.postPdu P (x.pdu (.sessionInitRequest x.request)) t (e 1) =
      d.openResponder P (x.pdu (.sessionInitRequest x.request)) t (e 0).uuid (e 1) := by
    simp only [postPdu, hload, MakeMessage.build, hfree, MakePayload.name, routeSessionInitRequest]
  have hupdate := update_request hP x h0 t ha
  rw [← hkeys, ← hconfig] at hupdate
  rw [hroute] at hd'
  by_cases hlevel : p.aliceConfig.kemLevel = p.bob.level
  · rw [if_pos hlevel] at hupdate ⊢
    simp only [openResponder, hst] at hd'
    rw [deliver_ok (d := { d with candidates := st }) hupdate, answered_checkDeadline] at hd'
    by_cases httl : 0 < p.bobConfig.ttlSeconds
    · rw [if_pos httl] at hd' ⊢
      have hstate : (x.answered t aead).state = .expectSessionCompletionRequest := rfl
      simp only [hstate, reduceCtorEq, ↓reduceIte, recordAnswer, reapResponder,
        Dict.get?_set_self] at hd'
      rw [hd']
      refine ⟨newPdu_append rfl, ?_⟩
      simp only [entry, Dict.get?_set_self, hfree, drain]
      rfl
    · rw [if_neg httl] at hd' ⊢
      simp only [reduceCtorEq, ↓reduceIte, reapResponder, Dict.get?_set_self] at hd'
      rw [hd']
      refine ⟨newPdu_append rfl, ?_⟩
      simp only [entry, dropResponder, Dict.get?_erase_self, hfree, drain]
  · rw [if_neg hlevel] at hupdate ⊢
    simp only [openResponder, hst] at hd'
    rw [deliver_error (d := { d with candidates := st }) hupdate] at hd'
    rw [hd']
    exact ⟨hfree.1, newPdu_self d⟩

omit hP [DecidableEq π] [DecidableEq β] in
/-- Alice's fork once it has sent its completion request: it waits, or has been dropped at once. -/
theorem called_settled (t t' : Int) {s : Session β π}
    (hs : s = (x.called t t' aead).checkDeadline t') :
    (∃ rest, s.outgoingPdus =
      x.pdu (.sessionCompletionRequest (x.completion aead)) :: rest) ∧
      if 0 < p.aliceConfig.retryIntervalSeconds ∨ 0 < p.aliceConfig.maxRetries then
        ∃ count deadline, s.drained = x.waiting t t' aead count deadline []
      else s.drained.state = .dropped := by
  by_cases hretry : 0 < p.aliceConfig.retryIntervalSeconds ∨ 0 < p.aliceConfig.maxRetries
  · obtain ⟨count, deadline, rest, heq⟩ := called_checkDeadline x t t' aead hretry
    rw [if_pos hretry, hs, heq]
    exact ⟨⟨rest, rfl⟩, count, deadline, rfl⟩
  · have hd : t' ≥ t' + p.aliceConfig.retryIntervalSeconds := by omega
    have hm : 0 ≥ p.aliceConfig.maxRetries := by omega
    have heq : (x.called t t' aead).checkDeadline t' =
        { x.called t t' aead with state := .dropped } := by
      simp [Session.checkDeadline, Encapsulated.called, Session.acceptInitResponse,
        Encapsulated.calling, Session.new, Session.onTimeout, hd, hm]
    rw [if_neg hretry, hs, heq]
    exact ⟨⟨[], rfl⟩, rfl⟩

/-- Alice's dispatcher has the response. -/
theorem response_entry (h0 : (e 0).Fits P) {t t' : Int}
    (hentry : d.entry (e 0).uuid = { template := some (x.calling t), forks := some [] })
    (hadm : d.candidates.Admits (e 0).uuid t') (ha : aead ∈ p.aliceConfig.acceptableAeads)
    {d' : Dispatcher β π}
    (hd' : d' = (d.postPdu P (x.pdu (.sessionInitResponse (x.response aead))) t' (e 2)).1) :
    if p.aliceConfig.kemLevel = p.alice.level then
      d.newPdu d' = some (x.pdu (.sessionCompletionRequest (x.completion aead))) ∧ ∃ s,
        d'.entry (e 0).uuid = { template := some (x.calling t), forks := some [s] } ∧
        if 0 < p.aliceConfig.retryIntervalSeconds ∨ 0 < p.aliceConfig.maxRetries then
          ∃ count deadline, s = x.waiting t t' aead count deadline [] else s.state = .dropped
    else (d'.entry (e 0).uuid).established = none ∧ d.newPdu d' = none := by
  simp only [entry, Entry.mk.injEq] at hentry
  obtain ⟨candidate, hadd⟩ := (CandidateStore.add_admits d.candidates (e 0).uuid
    (x.pdu (.sessionInitResponse (x.response aead))) P.noPdu t').mpr hadm
  obtain ⟨st, hst⟩ : ∃ st, d.candidates.add (e 0).uuid
      (x.pdu (.sessionInitResponse (x.response aead))) P.noPdu t' = (st, .ok candidate) :=
    ⟨_, Prod.ext rfl hadd⟩
  have hload := load_pdu hP x h0 (.sessionInitResponse (x.response aead)) (by simp)
  have hfork : (x.calling t : Session β π).fork = .ok (x.calling t) :=
    Session.fork_ok.mpr ⟨rfl, rfl, by simp [Encapsulated.calling], rfl⟩
  have hroute : d.postPdu P (x.pdu (.sessionInitResponse (x.response aead))) t' (e 2) =
      d.openFork P (x.calling t) (x.pdu (.sessionInitResponse (x.response aead))) t' (e 0).uuid
        (e 2) := by
    simp only [postPdu, hload, MakeMessage.build, hentry, MakePayload.name,
      routeSessionInitResponse, Option.getD_some, resendFork]
  have hupdate := update_response hP x h0 t t' 0 ha
  rw [asking_zero] at hupdate
  rw [hroute] at hd'
  simp only [openFork, hst, hfork] at hd'
  by_cases hlevel : p.aliceConfig.kemLevel = p.alice.level
  · rw [if_pos hlevel] at hupdate ⊢
    obtain ⟨u, hu⟩ : ∃ u, u = (x.called t t' aead).checkDeadline t' := ⟨_, rfl⟩
    obtain ⟨⟨rest, hout⟩, hsettled⟩ := called_settled x t t' hu
    rw [← hu] at hupdate
    rw [deliver_ok (d := { d with candidates := st }) hupdate] at hd'
    simp only [recordCall, drain, hentry, hout, Option.getD_some, List.nil_append] at hd'
    rw [hd']
    refine ⟨newPdu_append rfl, u.drained, ?_, hsettled⟩
    simp only [entry, Dict.get?_set_self, hentry]
  · rw [if_neg hlevel] at hupdate ⊢
    rw [deliver_error (d := { d with candidates := st }) hupdate] at hd'
    rw [hd']
    exact ⟨hentry.1, newPdu_self d⟩

/-- Bob's dispatcher has the completion request. -/
theorem completion_entry (h0 : (e 0).Fits P) (h1 : (e 1).Fits P) {t t' : Int}
    (hentry : d.entry (e 0).uuid = { responder := some (x.awaiting t aead) }) {d' : Dispatcher β π}
    {ent : Entropy β} (hd' : d' = (d.postPdu P
      (x.pdu (.sessionCompletionRequest (x.completion aead))) t' ent).1) :
    if p.bobConfig.kemLevel = p.aliceConfig.kemLevel then
      d.newPdu d' = some (x.pdu (.sessionCompletionResponse x.confirmation)) ∧
        d'.entry (e 0).uuid = { established := some (x.served t aead).drained }
    else (d'.entry (e 0).uuid).established = none ∧ d.newPdu d' = none := by
  simp only [entry, Entry.mk.injEq] at hentry
  have hload := load_pdu hP x h0 _ (completion_cM hP x aead)
  have hroute : d.postPdu P (x.pdu (.sessionCompletionRequest (x.completion aead))) t' ent =
      d.deliverResponder P (x.awaiting t aead)
        (x.pdu (.sessionCompletionRequest (x.completion aead))) t' (e 0).uuid ent := by
    simp only [postPdu, hload, MakeMessage.build, hentry, MakePayload.name]
  have hupdate := update_completion hP x aead h0 h1 t t' ent
  rw [hroute] at hd'
  simp only [deliverResponder] at hd'
  by_cases hlevel : p.bobConfig.kemLevel = p.aliceConfig.kemLevel
  · rw [if_pos hlevel] at hupdate ⊢
    rw [deliver_ok hupdate] at hd'
    have hstate : (x.served t aead).state = .established := rfl
    simp only [reapResponder, Dict.get?_set_self, hstate, ↓reduceIte, drain, List.append_nil,
      List.map_nil, promote] at hd'
    rw [hd']
    refine ⟨newPdu_append rfl, ?_⟩
    simp only [entry, Dict.get?_set_self, Dict.get?_erase_self]
    rfl
  · rw [if_neg hlevel] at hupdate ⊢
    rw [deliver_error hupdate] at hd'
    rw [hd']
    exact ⟨hentry.1, newPdu_self d⟩

/-- A dispatcher without the cid ignores a completion request for it. -/
theorem completion_ignored (h0 : (e 0).Fits P) (hentry : d.entry (e 0).uuid = {}) (t : Int)
    (ent : Entropy β) :
    (d.postPdu P (x.pdu (.sessionCompletionRequest (x.completion aead))) t ent).1 = d := by
  simp only [entry, Entry.mk.injEq] at hentry
  have hload := load_pdu hP x h0 _ (completion_cM hP x aead)
  simp only [postPdu, hload, MakeMessage.build, hentry, MakePayload.name]

variable (aead) in
/-- Alice's dispatcher has the confirmation. -/
theorem confirmation_entry (h0 : (e 0).Fits P) {t : Int} (t' t'' : Int) {s : Session β π}
    (hentry : d.entry (e 0).uuid = { template := some (x.calling t), forks := some [s] })
    (ent : Entropy β) :
    (∀ count deadline, s = x.waiting t t' aead count deadline [] → ∃ s',
      ((d.postPdu P (x.pdu (.sessionCompletionResponse x.confirmation)) t'' ent).1.entry
        (e 0).uuid).established = some s' ∧ s'.state = .established ∧
          s'.sessionKeys = some (x.keys aead)) ∧
    (s.state = .dropped →
      ((d.postPdu P (x.pdu (.sessionCompletionResponse x.confirmation)) t'' ent).1.entry
        (e 0).uuid).established = none) := by
  simp only [entry, Entry.mk.injEq] at hentry
  have hload := load_pdu hP x h0 (.sessionCompletionResponse x.confirmation) (by simp)
  have hroute : d.postPdu P (x.pdu (.sessionCompletionResponse x.confirmation)) t'' ent =
      d.routeToForks P (e 0).uuid [s] (x.pdu (.sessionCompletionResponse x.confirmation)) t''
        ent := by
    simp only [postPdu, hload, MakeMessage.build, hentry, MakePayload.name]
  rw [hroute]
  constructor
  · rintro count deadline rfl
    obtain ⟨result, hupdate⟩ := update_confirmation hP x aead h0 t t' t'' count
      deadline ent
    have hstate : ((x.waiting t t' aead count deadline []).acceptReply
      (x.pdu (.sessionCompletionResponse x.confirmation))).state = .established := rfl
    simp only [routeToForks, offer, hupdate, hstate, ↓reduceIte, drain, promote, entry,
      Dict.get?_set_self]
    exact ⟨_, rfl, rfl, rfl⟩
  · intro hdropped
    have hposted : (s.postPdu
      (x.pdu (.sessionCompletionResponse x.confirmation))).state = .dropped := hdropped
    simp only [routeToForks, offer, Session.update_dropped hposted, hposted, reduceCtorEq,
      ↓reduceIte, entry, hentry]

end

/-! ## The exchange -/

/-- `a` calls `b`. Each of the four PDUs is posted once, as soon as the call before has put it out,
with the calls of `aside` in between. -/
def exchange (P : Primitives β π) (aliceId bobId : KeyId β) (a b : Dispatcher β π)
    (aside : Nat → List (Op β π)) (t : Nat → Int) (e : Nat → Entropy β) :
    Dispatcher β π × Dispatcher β π :=
  let a₁ := (a.initiate P aliceId bobId (t 0) (e 0)).1
  let b₁ := b.steps P (aside 0)
  let b₂ := b₁.pass P (a.newPdu a₁) (t 1) (e 1)
  let a₂ := a₁.steps P (aside 1)
  let a₃ := a₂.pass P (b₁.newPdu b₂) (t 2) (e 2)
  let b₃ := b₂.steps P (aside 2)
  let b₄ := b₃.pass P (a₂.newPdu a₃) (t 3) (e 3)
  let a₄ := a₃.steps P (aside 3)
  (a₄.pass P (b₃.newPdu b₄) (t 4) (e 4), b₄)

/-- Both have an established session under the cid, with the same secrets. -/
def Joined (c : List β) (ab : Dispatcher β π × Dispatcher β π) : Prop :=
  ∃ s r keys, ab.1.established.get? c = some s ∧ ab.2.established.get? c = some r ∧
    s.state = .established ∧ r.state = .established ∧ s.sessionKeys = some keys ∧
      r.sessionKeys = some keys

/-- A dispatcher that serves one of the parties and does not know the cid. -/
structure Serving (d : Dispatcher β π) (c : List β) (keys : KeyLookup β) (config : SessionConfig) :
    Prop where
  unused : d.Unused c
  keys : d.keys = keys
  config : d.config = config

section
variable {P : Primitives β π} (hP : P.Correct) {p : Parties P} {e : Nat → Entropy β}
  {a b : Dispatcher β π} {aside : Nat → List (Op β π)} {t : Nat → Int}

omit [DecidableEq π] in
theorem Serving.entry {c : List β} {keys : KeyLookup β} {config : SessionConfig}
    {d : Dispatcher β π} (h : d.Serving c keys config) : d.entry c = {} := by
  simp only [Dispatcher.entry, h.unused.established, h.unused.responder, h.unused.template,
    h.unused.fork]

include hP

/-- Once Bob has answered, the levels of Alice's key and of his configuration decide, and whether
her fork has time left. -/
theorem joined_of_answered (x : Encapsulated p e) (he : ∀ k, (e k).Fits P) {aead : Aead}
    (ha : aead ∈ p.aliceConfig.acceptableAeads)
    (haside : ∀ k, ∀ op ∈ aside k, op.Aside P (e 0).uuid) {a₂ a₃ b₂ b₃ b₄ : Dispatcher β π}
    (ha₂ : a₂.entry (e 0).uuid = { template := some (x.calling (t 0)), forks := some [] })
    (hadm : a₂.candidates.Admits (e 0).uuid (t 2))
    (ha₃ : a₃ = (a₂.postPdu P (x.pdu (.sessionInitResponse (x.response aead))) (t 2) (e 2)).1)
    (hb₂ : b₂.entry (e 0).uuid = if 0 < p.bobConfig.ttlSeconds then
      { responder := some (x.awaiting (t 1) aead) } else {})
    (hb₃ : b₃ = b₂.steps P (aside 2)) (hb₄ : b₄ = b₃.pass P (a₂.newPdu a₃) (t 3) (e 3)) :
    Joined (e 0).uuid ((a₃.steps P (aside 3)).pass P (b₃.newPdu b₄) (t 4) (e 4), b₄) ↔
      p.aliceConfig.kemLevel = p.alice.level ∧ p.bobConfig.kemLevel = p.aliceConfig.kemLevel ∧
        Timely P p := by
  have hentry₃ : b₃.entry (e 0).uuid = b₂.entry (e 0).uuid := hb₃ ▸ (steps_aside (haside 2)).1
  have hresponse := response_entry hP x (he 0) ha₂ hadm ha ha₃
  by_cases halice : p.aliceConfig.kemLevel = p.alice.level
  · rw [if_pos halice] at hresponse
    obtain ⟨hnew₃, s, hs, hsettled⟩ := hresponse
    have ha₄ : (a₃.steps P (aside 3)).entry (e 0).uuid =
        { template := some (x.calling (t 0)), forks := some [s] } :=
      (steps_aside (haside 3)).1.trans hs
    rw [hnew₃] at hb₄
    have hb₄ : b₄ = (b₃.postPdu P (x.pdu (.sessionCompletionRequest (x.completion aead))) (t 3)
      (e 3)).1 := hb₄
    by_cases httl : 0 < p.bobConfig.ttlSeconds
    · rw [if_pos httl] at hb₂
      have hcompletion := completion_entry hP x (he 0) (he 1) (hentry₃.trans hb₂) hb₄
      by_cases hbob : p.bobConfig.kemLevel = p.aliceConfig.kemLevel
      · rw [if_pos hbob] at hcompletion
        obtain ⟨hnew₄, hserved⟩ := hcompletion
        obtain ⟨hwins, hfails⟩ := confirmation_entry hP x aead (he 0) (t 2) (t 4) ha₄ (e 4)
        rw [hnew₄]
        change Joined _ (((a₃.steps P (aside 3)).postPdu P
          (x.pdu (.sessionCompletionResponse x.confirmation)) (t 4) (e 4)).1, b₄) ↔ _
        by_cases hretry : 0 < p.aliceConfig.retryIntervalSeconds ∨ 0 < p.aliceConfig.maxRetries
        · rw [if_pos hretry] at hsettled
          obtain ⟨count, deadline, hwaits⟩ := hsettled
          obtain ⟨s', hest, hstate, hkeys⟩ := hwins count deadline hwaits
          have hserved : b₄.established.get? (e 0).uuid = some (x.served (t 1) aead).drained :=
            congrArg Entry.established hserved
          simp only [halice, hbob, Timely, httl, hretry, and_self, iff_true]
          exact ⟨s', _, x.keys aead, hest, hserved, hstate, rfl, hkeys, rfl⟩
        · rw [if_neg hretry] at hsettled
          simp only [Timely, hretry, and_false, iff_false]
          rintro ⟨s', _, _, hest, _⟩
          rw [show Dict.get? _ _ = none from hfails hsettled] at hest
          cases hest
      · rw [if_neg hbob] at hcompletion
        simp only [hbob, false_and, and_false, iff_false]
        rintro ⟨_, r, _, _, hest, _⟩
        rw [show Dict.get? _ _ = none from hcompletion.1] at hest
        cases hest
    · -- Bob's session was dropped in the call that answered
      rw [if_neg httl] at hb₂
      rw [completion_ignored hP x (he 0) (hentry₃.trans hb₂)] at hb₄
      simp only [Timely, httl, false_and, and_false, iff_false]
      rintro ⟨_, r, _, _, hest, _⟩
      have hnone : b₄.established.get? (e 0).uuid = none := by
        rw [hb₄]
        exact congrArg Entry.established (hentry₃.trans hb₂)
      rw [hnone] at hest
      cases hest
  · -- Alice cannot open ct3
    rw [if_neg halice] at hresponse
    obtain ⟨hnone, hnew₃⟩ := hresponse
    have ha₄ : (a₃.steps P (aside 3)).entry (e 0).uuid = a₃.entry (e 0).uuid :=
      (steps_aside (haside 3)).1
    rw [hnew₃] at hb₄
    have hb₄ : b₄ = b₃ := hb₄
    rw [hb₄, newPdu_self]
    simp only [halice, false_and, iff_false]
    rintro ⟨s', _, _, hest, _⟩
    have hest : (a₃.steps P (aside 3)).established.get? (e 0).uuid = some s' := hest
    rw [show Dict.get? _ _ = none from (congrArg Entry.established ha₄).trans hnone] at hest
    cases hest

/-- For whatever passes by the exchange, the levels and the timers decide. -/
theorem joined_iff (ha : a.Serving (e 0).uuid p.aliceKeys p.aliceConfig)
    (hb : b.Serving (e 0).uuid p.bobKeys p.bobConfig)
    (haside : ∀ k, ∀ op ∈ aside k, op.Aside P (e 0).uuid) (he : ∀ k, (e k).Fits P)
    (hadm : (b.steps P (aside 0)).candidates.Admits (e 0).uuid (t 1))
    (hadm' : ((a.initiate P p.aliceId p.bobId (t 0) (e 0)).1.steps P
      (aside 1)).candidates.Admits (e 0).uuid (t 2)) :
    Joined (e 0).uuid (exchange P p.aliceId p.bobId a b aside t e) ↔
      SameLevel P p ∧ Timely P p := by
  obtain ⟨x⟩ := encapsulated_exists hP p e
  obtain ⟨aead, haead, hchosen⟩ := chosen_exists x
  obtain ⟨hentry₁, hnew₁, hkeys₁, hconfig₁⟩ :=
    initiate_entry hP x ha.keys ha.config ha.entry (t 0)
  obtain ⟨hbentry, hbkeys, hbconfig⟩ := steps_aside (d := b) (haside 0)
  have ha₂ := (steps_aside (d := (a.initiate P p.aliceId p.bobId (t 0) (e 0)).1) (haside 1)).1.trans
    hentry₁
  obtain ⟨b₂, hb₂⟩ : ∃ b₂, b₂ = ((b.steps P (aside 0)).postPdu P
    (x.pdu (.sessionInitRequest x.request)) (t 1) (e 1)).1 := ⟨_, rfl⟩
  have hrequest := request_entry hP x (he 0) (hbkeys.trans hb.keys) (hbconfig.trans hb.config)
    (hbentry.trans hb.entry) hadm hchosen hb₂
  obtain ⟨a₁, ha₁⟩ : ∃ a₁, a₁ = (a.initiate P p.aliceId p.bobId (t 0) (e 0)).1 := ⟨_, rfl⟩
  have hfinal : exchange P p.aliceId p.bobId a b aside t e =
      ((((a₁.steps P (aside 1)).pass P ((b.steps P (aside 0)).newPdu b₂) (t 2) (e 2)).steps P
          (aside 3)).pass P (((b₂.steps P (aside 2)).newPdu ((b₂.steps P (aside 2)).pass P
            ((a₁.steps P (aside 1)).newPdu ((a₁.steps P (aside 1)).pass P
              ((b.steps P (aside 0)).newPdu b₂) (t 2) (e 2))) (t 3) (e 3)))) (t 4) (e 4),
        (b₂.steps P (aside 2)).pass P ((a₁.steps P (aside 1)).newPdu ((a₁.steps P (aside 1)).pass P
          ((b.steps P (aside 0)).newPdu b₂) (t 2) (e 2))) (t 3) (e 3)) := by
    rw [ha₁, hb₂]
    simp only [exchange, hnew₁]
    rfl
  rw [hfinal]
  rw [← ha₁] at ha₂ hadm'
  by_cases hlevel : p.aliceConfig.kemLevel = p.bob.level
  · rw [if_pos hlevel] at hrequest
    rw [hrequest.1]
    refine (joined_of_answered hP x he haead haside ha₂ hadm' rfl hrequest.2 rfl rfl).trans ?_
    rw [SameLevel]
    constructor
    · rintro ⟨halice, hbob, htime⟩
      exact ⟨⟨hlevel, halice, hbob⟩, htime⟩
    · rintro ⟨⟨_, halice, hbob⟩, htime⟩
      exact ⟨halice, hbob, htime⟩
  · rw [if_neg hlevel] at hrequest
    obtain ⟨hnone, hnew₂⟩ := hrequest
    rw [hnew₂]
    -- Bob's dispatcher has put nothing out, so nothing more is posted on either side
    have hquiet : (b₂.steps P (aside 2)).pass P ((a₁.steps P (aside 1)).newPdu
        ((a₁.steps P (aside 1)).pass P none (t 2) (e 2))) (t 3) (e 3) = b₂.steps P (aside 2) := by
      rw [show (a₁.steps P (aside 1)).pass P none (t 2) (e 2) = a₁.steps P (aside 1) from rfl,
        newPdu_self]
      rfl
    rw [hquiet, SameLevel]
    simp only [hlevel, false_and, iff_false]
    rintro ⟨_, r, _, _, hest, _⟩
    have hest : ((b₂.steps P (aside 2)).entry (e 0).uuid).established = some r := hest
    rw [(steps_aside (haside 2)).1, hnone] at hest
    cases hest

end

end Dispatcher

end KemMake
