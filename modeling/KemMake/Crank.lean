import KemMake.Binding
import KemMake.Frame
import KemMake.Handlers

/-!
# Cranking a pending handshake

A handshake that `initiate` has opened is `Pending` until its first response: a
template, no forks and no candidates. Calls that concern other cids leave it so.
The first `update` takes the missing candidates for expired ones and drops it.
-/

namespace KemMake

variable {β π : Type}

namespace Dispatcher
variable [DecidableEq β]

/-- A response to come: the template is as fresh as a fork of it would be. -/
structure Pending (d : Dispatcher β π) (cid : List β) (template : Session β π) : Prop where
  named : template.cid = some cid
  fresh : template.fork = .ok template
  template : d.initiatorTemplates.get? cid = some template
  fork : d.initiatorForks.get? cid = some []
  established : d.established.get? cid = none
  candidates : d.candidates.candidatesFor cid = []

/-! ## Calls that concern other cids -/

/-- Nothing that is held under `j` has changed; candidates may have expired. -/
structure Alike (j : List β) (d d' : Dispatcher β π) : Prop where
  template : d'.initiatorTemplates.get? j = d.initiatorTemplates.get? j
  fork : d'.initiatorForks.get? j = d.initiatorForks.get? j
  established : d'.established.get? j = d.established.get? j
  candidates : d.candidates.candidatesFor j = [] → d'.candidates.candidatesFor j = []

section
variable {j c : List β} {d d₁ d₂ : Dispatcher β π} {s : Session β π}

theorem Pending.alike (h : d.Pending j s) (ha : Alike j d d₁) : d₁.Pending j s :=
  ⟨h.named, h.fresh, ha.template.trans h.template, ha.fork.trans h.fork,
    ha.established.trans h.established, ha.candidates h.candidates⟩

theorem Beside.alike {now : Int} (h : Beside j now d d₁) : Alike j d d₁ :=
  ⟨h.template, h.fork, h.established, h.candidates.nil⟩

theorem Alike.trans (h₁ : Alike j d d₁) (h₂ : Alike j d₁ d₂) : Alike j d d₂ :=
  ⟨h₂.template.trans h₁.template, h₂.fork.trans h₁.fork, h₂.established.trans h₁.established,
    h₂.candidates ∘ h₁.candidates⟩

theorem alike_setResponder (d : Dispatcher β π) (responderSessions : Dict (List β) (Session β π)) :
    Alike j d { d with responderSessions } := ⟨rfl, rfl, rfl, id⟩

variable (h : j ≠ c)
include h

theorem alike_setEstablished (d : Dispatcher β π) (s : Session β π) :
    Alike j d { d with established := d.established.set c s } :=
  ⟨rfl, rfl, Dict.get?_set_of_ne _ h _, id⟩

theorem alike_setForks (d : Dispatcher β π) (forks : List (Session β π)) :
    Alike j d { d with initiatorForks := d.initiatorForks.set c forks } :=
  ⟨rfl, Dict.get?_set_of_ne _ h _, rfl, id⟩

end

section
variable {P : Primitives β π} {d : Dispatcher β π} {cid : List β}

theorem pending_initiate {d₀ : Dispatcher β π} {own peer : KeyId β} {now : Int} {e : Entropy β}
    (hfree : d₀.Unused cid) (hnone : d₀.candidates.candidatesFor cid = [])
    (hi : d₀.initiate P own peer now e = (d, .ok cid)) : ∃ template, d.Pending cid template := by
  unfold initiate at hi
  split at hi
  · cases hi
  · rename_i primary hp
    obtain ⟨_, s1, ct1, _, _, rfl⟩ := Session.initiate_ok hp
    cases hi
    exact ⟨_, rfl, Session.fork_ok.mpr ⟨rfl, rfl, by simp [Session.calling], rfl⟩,
      Dict.get?_set_self .., Dict.get?_set_self .., hfree.established, hnone⟩

variable [DecidableEq π]

/-- Calls that neither crank nor concern the cid, its own payloads apart. -/
def Quiet (P : Primitives β π) (cid : List β) (_ : Dispatcher β π) : Op β π → Prop
  | .initiate _ _ _ e => e.uuid ≠ cid
  | .postPdu der _ _ => ∀ msg, P.load der = .ok msg → msg.cid ≠ cid
  | .update _ _ => False
  | _ => True

omit [DecidableEq π] in
theorem pending_postPayload {template : Session β π} (h : d.Pending cid template)
    (c payload : List β) : ∃ template, (d.postPayload c payload).1.Pending cid template := by
  unfold postPayload
  split
  · rename_i s hs
    have hne : cid ≠ c := fun hc => by simp [← hc, h.established] at hs
    exact ⟨_, h.alike (alike_setEstablished hne d _)⟩
  · split
    · exact ⟨_, h.alike (alike_setResponder d _)⟩
    · split
      · exact ⟨_, h⟩
      · rename_i t ht
        rcases hp : t.postPayload payload with ⟨t', _ | x⟩
        · have ht' : t' = { t with
              pendingPayload := if payload = [] then t.pendingPayload else some payload } := by
            rw [← Session.postPayload_eq, hp]
          by_cases hc : cid = c
          · subst hc
            obtain rfl : template = t := by simpa [h.template] using ht
            obtain ⟨hr, hs, he, htwin⟩ := Session.fork_ok.mp h.fresh
            simp only [h.fork, List.map_nil]
            refine ⟨t', ?_, Session.fork_ok.mpr ?_, Dict.get?_set_self .., Dict.get?_set_self ..,
              h.established, h.candidates⟩
            · rw [ht']
              exact h.named
            · rw [ht']
              exact ⟨hr, hs, he, by rw [htwin]; rfl⟩
          · have ha : Alike cid d { d with
                initiatorTemplates := d.initiatorTemplates.set c t' } :=
              ⟨Dict.get?_set_of_ne _ hc _, rfl, rfl, id⟩
            simp only
            split
            · exact ⟨_, h.alike ha⟩
            · exact ⟨_, h.alike (ha.trans (alike_setForks hc _ _))⟩
        · exact ⟨_, h⟩

theorem pending_step {op : Op β π} (hq : Quiet P cid d op) (h : ∃ template, d.Pending cid template) :
    ∃ template, (d.step P op).Pending cid template := by
  obtain ⟨template, h⟩ := h
  cases op with
  | initiate own peer now e => exact ⟨template, h.alike (beside_initiate now d own peer hq).alike⟩
  | postPdu der now e => exact ⟨template, h.alike (beside_postPdu hq d now e).alike⟩
  | postPayload c payload => exact pending_postPayload h c payload
  | getPdu => exact ⟨template, h.alike (beside_getPdu 0 d).alike⟩
  | getPayload => exact ⟨template, h.alike (beside_getPayload 0 d).alike⟩
  | close c =>
    refine ⟨template, h.named, h.fresh, h.template, h.fork, ?_, h.candidates⟩
    simp only [step, close, Dict.get?_erase, h.established, ite_self]
  | update now e => cases hq

theorem pending_run {d' : Dispatcher β π} (hrun : Run P (Quiet P cid) d d')
    (h : ∃ template, d.Pending cid template) : ∃ template, d'.Pending cid template := by
  induction hrun with
  | refl => exact h
  | step _ hq ih => exact pending_step hq ih

/-! ## Cranks -/

/-- No template under the cid. -/
def Abandoned (cid c : List β) (t : Slot) (_ : Session β π) : Prop := t = .template → c ≠ cid

omit [DecidableEq β] [DecidableEq π] in
theorem abandoned_handled : Handled (Abandoned cid) (fun _ : π => True) where
  sent _ _ _ _ _ _ := trivial
  drained _ _ _ h := h
  establish _ _ _ _ _ ht := by cases ht

omit [DecidableEq π] in
theorem kept_abandoned : Kept (Abandoned cid) (fun _ => True) d ↔
    d.initiatorTemplates.get? cid = none := by
  constructor
  · intro h
    cases ht : d.initiatorTemplates.get? cid with
    | none => rfl
    | some s => exact absurd rfl (h.template _ _ ht rfl)
  · intro h
    refine ⟨by simp [Abandoned], by simp [Abandoned], ?_, by simp [Abandoned], by simp⟩
    rintro c s hs - rfl
    rw [h] at hs
    cases hs

omit [DecidableEq π] in
/-- A pending handshake without candidates is reconciled away. -/
theorem reconcile_abandons {template : Session β π} (h : d.Pending cid template) :
    d.reconcileExpiredCandidates.initiatorTemplates.get? cid = none := by
  have hfirst : ∀ (cids : List (List β)) (d : Dispatcher β π), d.Pending cid template →
      (cids.foldl (fun d cid => if d.candidates.candidatesFor cid = [] then
        { d with responderSessions := d.responderSessions.erase cid } else d) d).Pending cid
          template := by
    intro cids
    induction cids with
    | nil => exact fun _ h => h
    | cons c rest ih =>
      intro d h
      refine ih _ ?_
      dsimp only
      split
      · exact h.alike (alike_setResponder d _)
      · exact h
  have hsecond : ∀ (cids : List (List β)) (d : Dispatcher β π),
      d.candidates.candidatesFor cid = [] → d.established.get? cid = none →
      cid ∈ cids ∨ d.initiatorTemplates.get? cid = none →
      (cids.foldl (fun d cid =>
        if d.candidates.candidatesFor cid = [] ∧ d.established.get? cid = none then
          { d with
            initiatorForks := d.initiatorForks.erase cid
            initiatorTemplates := d.initiatorTemplates.erase cid }
        else d) d).initiatorTemplates.get? cid = none := by
    intro cids
    induction cids with
    | nil => exact fun _ _ _ h => h.resolve_left (by simp)
    | cons c rest ih =>
      intro d hc he hor
      by_cases hcc : cid = c
      · subst hcc
        simp only [List.foldl_cons, if_pos (And.intro hc he)]
        exact ih _ hc he (.inr (Dict.get?_erase_self ..))
      · have hor : cid ∈ rest ∨ d.initiatorTemplates.get? cid = none := by
          simpa [hcc] using hor
        simp only [List.foldl_cons]
        split
        · exact ih _ hc he (hor.imp_right fun ht => by simp [Dict.get?_erase, ht])
        · exact ih _ hc he hor
  have hp := hfirst d.responderSessions.keys d h
  exact hsecond _ _ hp.candidates hp.established
    (.inl (Dict.mem_keys_iff.mpr ⟨_, hp.fork⟩))

theorem update_abandons {template : Session β π} (h : d.Pending cid template) (now : Int)
    (e : Entropy β) : (d.update P now e).1.initiatorTemplates.get? cid = none := by
  have hexp : ({ d with candidates := d.candidates.expire now } : Dispatcher β π).Pending cid
      template := by
    refine ⟨h.named, h.fresh, h.template, h.fork, h.established, ?_⟩
    simp [CandidateStore.candidatesFor_expire, h.candidates, CandidateStore.survivors]
  have hrec := kept_abandoned.mpr (reconcile_abandons hexp)
  have hk : Kept (Abandoned cid) (fun _ => True) (crank P _ now e).1 :=
    kept_crank abandoned_handled (fun _ _ _ ht _ => .inl fun h => absurd h ht) hrec
  rw [← kept_abandoned]
  unfold update
  simp only
  split
  · rename_i hd
    rwa [hd] at hk
  · rename_i hd
    rwa [hd] at hk

/-- The dispatcher after cranks at these times. -/
def cranks (P : Primitives β π) (d : Dispatcher β π) (ts : List (Int × Entropy β)) :
    Dispatcher β π := ts.foldl (fun d t => (d.update P t.1 t.2).1) d

theorem cranks_abandon {template : Session β π} (h : d.Pending cid template)
    {ts : List (Int × Entropy β)} (hts : ts ≠ []) :
    (d.cranks P ts).initiatorTemplates.get? cid = none := by
  obtain ⟨t, rest, rfl⟩ := List.exists_cons_of_ne_nil hts
  have hfirst := kept_abandoned.mpr (update_abandons (P := P) h t.1 t.2)
  rw [← kept_abandoned]
  unfold cranks
  rw [List.foldl_cons]
  clear hts
  generalize (d.update P t.1 t.2).1 = d' at hfirst
  induction rest generalizing d' with
  | nil => exact hfirst
  | cons t rest ih =>
    exact ih _ (kept_update abandoned_handled (fun _ _ _ ht _ => .inl fun h => absurd h ht) hfirst)

end

/-! ## The bare session in the template's place -/

/-- The session after updates at these times. -/
def bareCranks [DecidableEq π] (P : Primitives β π) (s : Session β π)
    (ts : List (Int × Entropy β)) : Session β π :=
  ts.foldl (fun s t => (s.update P t.1 t.2).1) s

section
variable {P : Primitives β π} [DecidableEq π] {d : Dispatcher β π} {cid : List β}
  {template : Session β π} {der : π} {now : Int} {e : Entropy β} {msg : MakeMessage β}
  {resp : SessionInitResponse β} {c : Session.CompletionCall β} (hP : P.Correct)
  (hl : P.load der = .ok msg) (hp : msg.payload = .sessionInitResponse resp)
include hP hl hp

/-- The response is accepted, and the request for completion is the first thing sent. -/
theorem update_calls {s : Session β π} (hfork : s.fork = .ok s) (hcid : s.cid = some msg.cid)
    (hcall : s.completionCall P resp e = .ok c) (now : Int) :
    ∃ s' r rest, (s.postPdu der).update P now e = (s', .ok r) ∧ s'.outgoingPdus =
      P.dump (.build msg.cid (.sessionCompletionRequest ⟨c.cM, c.ct4, e.nonce⟩)) :: rest := by
  obtain ⟨hr, hs, _, htwin⟩ := Session.fork_ok.mp hfork
  have hq : s.incomingQueue = [] := by rw [htwin]; rfl
  have hd : s.lastReceived ≠ some der := by rw [htwin]; simp [Session.twin, Session.new]
  have ho : s.outgoingPdus = [] := by rw [htwin]; rfl
  obtain ⟨parts⟩ := Session.completionCall_ok hcall
  have hc : c.cid = msg.cid := by simpa [hcid] using parts.has_cid.symm
  have hproc : s.processIncoming P der now e = (s.acceptInitResponse resp der now e c
      (P.dump (.build c.cid (.sessionCompletionRequest ⟨c.cM, c.ct4, e.nonce⟩))), none) := by
    rw [Session.processIncoming_dispatch hd hl (by simp [hs]) hcid]
    simp only [Session.dispatch, hs, hr, hp, Session.handleSessionInitResponse, hcall,
      SessionCompletionRequest.build, Session.completionCall_cM hP.encrypt_ne_nil hcall,
      ↓reduceIte]
  have hu := Session.update_of_process hq (by simp [hs]) hproc
    (.inl (by simp [Session.acceptInitResponse])) (by simp [Session.acceptInitResponse])
  obtain ⟨rest, hrest⟩ := (Session.checkDeadline_ticked (s.acceptInitResponse resp der now e c
    (P.dump (.build c.cid (.sessionCompletionRequest ⟨c.cM, c.ct4, e.nonce⟩)))) now).outgoing
  refine ⟨_, _, rest, hu, hrest.trans ?_⟩
  simp [Session.acceptInitResponse, ho, hc]

/-- A response that a fork accepts is answered if the store has room for it, and is
lost if it has none. -/
theorem pending_answers (h : d.Pending cid template) (hcid : msg.cid = cid)
    (hcall : template.completionCall P resp e = .ok c) :
    (∃ req rest, (d.postPdu P der now e).1.outgoingPdus = d.outgoingPdus ++
      P.dump (.build cid (.sessionCompletionRequest req)) :: rest) ↔ d.candidates.Admits cid now := by
  subst hcid
  have hname : msg.payload.name = .sessionInitResponse := by simp [hp, MakePayload.name]
  rw [← CandidateStore.add_admits _ _ der P.noPdu]
  simp only [postPdu, hl, h.established, hname, routeSessionInitResponse, h.template, h.fork,
    Option.getD_some, resendFork, openFork]
  rcases d.candidates.add msg.cid der P.noPdu now with ⟨candidates, x | candidate⟩
  · simp
  · obtain ⟨s', r, rest, hu, ho⟩ := update_calls hP hl hp h.fresh h.named hcall now
    simp only [h.fresh, deliver, hu, Except.ok.injEq, exists_eq', iff_true]
    exact ⟨_, _, by simp [recordCall, drain, ho]; exact ⟨rfl, rfl⟩⟩

end

/-- What the application may count on: the template is there, its request has been
queued as often as by a session of its own, and the response is answered. -/
structure Survives [DecidableEq π] (P : Primitives β π) (d : Dispatcher β π) (cid : List β)
    (template : Session β π) (ts : List (Int × Entropy β)) (der : π) (now : Int)
    (e : Entropy β) : Prop where
  kept : ∃ s, (d.cranks P ts).initiatorTemplates.get? cid = some s
  resent : ∀ request, template.lastSent = some request →
    (d.cranks P ts).outgoingPdus.count request =
      d.outgoingPdus.count request + (bareCranks P template ts).outgoingPdus.count request
  answered : ∃ req rest, ((d.cranks P ts).postPdu P der now e).1.outgoingPdus =
    (d.cranks P ts).outgoingPdus ++ P.dump (.build cid (.sessionCompletionRequest req)) :: rest

/-- A handshake that waits for its first response survives until that response exactly
if nobody cranks and the candidate store has room. -/
theorem pending_survives_iff [DecidableEq π] {P : Primitives β π} (hP : P.Correct)
    {d₀ d₁ d : Dispatcher β π} {own peer : KeyId β} {t₀ : Int} {e₀ : Entropy β} {cid : List β}
    (hfree : d₀.Unused cid) (hnone : d₀.candidates.candidatesFor cid = [])
    (hi : d₀.initiate P own peer t₀ e₀ = (d₁, .ok cid)) (hrun : Run P (Quiet P cid) d₁ d)
    {template : Session β π} (ht : d.initiatorTemplates.get? cid = some template) {der : π}
    {msg : MakeMessage β} {resp : SessionInitResponse β} (hl : P.load der = .ok msg)
    (hcid : msg.cid = cid) (hp : msg.payload = .sessionInitResponse resp) {e : Entropy β}
    (hgenuine : ∃ c, template.completionCall P resp e = .ok c) (now : Int)
    (ts : List (Int × Entropy β)) :
    d.Survives P cid template ts der now e ↔ ts = [] ∧ d.candidates.Admits cid now := by
  obtain ⟨c, hcall⟩ := hgenuine
  obtain ⟨template', h⟩ := pending_run hrun (pending_initiate hfree hnone hi)
  obtain rfl : template' = template := by simpa [h.template] using ht
  constructor
  · intro hs
    by_cases hts : ts = []
    · subst hts
      exact ⟨rfl, (pending_answers hP hl hp h hcid hcall).mp hs.answered⟩
    · obtain ⟨s, hkept⟩ := hs.kept
      rw [cranks_abandon h hts] at hkept
      cases hkept
  · rintro ⟨rfl, hadm⟩
    obtain ⟨_, _, _, htwin⟩ := Session.fork_ok.mp h.fresh
    have ho : template'.outgoingPdus = [] := by rw [htwin]; rfl
    exact ⟨⟨_, h.template⟩, by simp [cranks, bareCranks, ho],
      (pending_answers hP hl hp h hcid hcall).mpr hadm⟩

/-! ## Bob (1) answers Alice (0), who has cranked once in between -/

def aliceTemplate : Session Sym Pdu :=
  (aliceCalling.initiatorTemplates.get? (draw 0).uuid).get (by decide +kernel)

def bobAnswer : SessionInitResponse Sym where
  pkBStar := ⟨kemAlg (mlkemOid .mlkem768), [.pub .mlkem768 (draw 1).seed]⟩
  ct2 := ⟨kemAlg (mlkemOid .mlkem768), [.encap .mlkem768 [.pub .mlkem768 (draw 0).seed] (draw 1).coins]⟩
  ct3 := ⟨kemAlg (mlkemOid .mlkem768), [.encap .mlkem768 (staticKey 0).publicKey (draw 1).coins']⟩
  nB := (draw 1).nonce
  chosenAead := aeadOid .aes256Gcm

def bobResponse : Pdu := ideal.dump (.build (draw 0).uuid (.sessionInitResponse bobAnswer))

theorem bobAnswer_genuine : ∃ c, aliceTemplate.completionCall ideal bobAnswer (draw 2) = .ok c := by
  have h : (aliceTemplate.completionCall ideal bobAnswer (draw 2)).isOk = true := by decide +kernel
  generalize aliceTemplate.completionCall ideal bobAnswer (draw 2) = r at h
  cases r with
  | error x => simp [Except.isOk, Except.toBool] at h
  | ok c => exact ⟨c, rfl⟩

theorem pending_survives_iff_example :
    aliceCalling.Survives ideal (draw 0).uuid aliceTemplate [] bobResponse 1 (draw 2) ↔
      ([] : List (Int × Entropy Sym)) = [] ∧ aliceCalling.candidates.Admits (draw 0).uuid 1 :=
  have hload : ideal.load bobResponse = .ok (.build (draw 0).uuid (.sessionInitResponse bobAnswer)) :=
    by decide +kernel
  pending_survives_iff Ideal.ideal_correct ⟨rfl, rfl, rfl, rfl⟩ rfl initiate_aliceCalling .refl
    (Option.some_get _).symm hload rfl rfl bobAnswer_genuine 1 []

/-- One crank, long before the first retry is due, and Bob's answer gets no reply. -/
theorem pending_abandoned :
    bobAnswering.outgoingPdus = [bobResponse] ∧
    ((aliceCalling.update ideal 1 (draw 3)).1.initiatorTemplates.get? (draw 0).uuid).isNone ∧
    ((aliceCalling.update ideal 1 (draw 3)).1.postPdu ideal bobResponse 2 (draw 2)).1.outgoingPdus =
      aliceCalling.outgoingPdus ∧
    (aliceCalling.postPdu ideal bobResponse 2 (draw 2)).1.outgoingPdus.length = 2 := by
  decide +kernel

end Dispatcher

end KemMake
