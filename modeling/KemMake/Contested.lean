import KemMake.Rivals

/-!
# A contested cid

An initiator's dispatcher, the responder it calls, and a network that delivers what the
responder says in any order and as often as it likes, and responses made from public keys
besides. A confirmation establishes the first fork that takes it. One with `m` is taken by
the fork of the responder's own response alone; without `m`, by every fork with the same
false start.
-/

namespace KemMake
open Symbolic

theorem MakePayload.request_of_name {β : Type} {payload : MakePayload β}
    (h : payload.name = .sessionInitRequest) : ∃ req, payload = .sessionInitRequest req := by
  cases payload with
  | sessionInitRequest req => exact ⟨req, rfl⟩
  | _ => cases h

theorem MakePayload.confirmation_of_name {β : Type} {payload : MakePayload β}
    (h : payload.name = .sessionCompletionResponse) :
    ∃ resp, payload = .sessionCompletionResponse resp := by
  cases payload with
  | sessionCompletionResponse resp => exact ⟨resp, rfl⟩
  | _ => cases h

namespace Dispatcher

/-! ## The first fork that wins -/

section
variable {β π : Type} [DecidableEq β] [DecidableEq π] {P : Primitives β π} (hP : P.Correct)
  {der : π} {c : List β} {now : Int} {e : Entropy β} {forks forks' : List (Session β π)}
include hP

/-- A fork that raises has not been established. -/
theorem raised_not_established {s s' : Session β π} {x : PyError} (h : Tidy P c .fork s)
    (hu : (s.postPdu der).update P now e = (s', .error x)) : s'.state ≠ .established := by
  intro he
  have hs : (s.postPdu der).state ≠ .established := by
    rcases h.1.2.1 with hs | hs | hs <;> simp [Session.postPdu, hs]
  have hready := Session.update_ready hP (h.1.1.postPdu der) now e hs
  rw [hu] at hready
  obtain ⟨r, hr⟩ := hready he
  cases hr

theorem offer_won (hf : ∀ s ∈ forks, Tidy P c .fork s) {winner : Session β π}
    (h : offer P der now e forks = (forks', .won winner)) :
    ∃ before fork after, forks = before ++ fork :: after ∧
      (∀ s ∈ before, ((s.postPdu der).update P now e).1.state ≠ .established) ∧
      winner = ((fork.postPdu der).update P now e).1 ∧ winner.state = .established := by
  induction forks generalizing forks' with
  | nil => cases h
  | cons fork rest ih =>
    obtain ⟨hfork, hrest⟩ := List.forall_mem_cons.mp hf
    have hlater : ∀ {rest' : List (Session β π)}, offer P der now e rest = (rest', .won winner) →
        ((fork.postPdu der).update P now e).1.state ≠ .established →
        ∃ before fork' after, fork :: rest = before ++ fork' :: after ∧
          (∀ s ∈ before, ((s.postPdu der).update P now e).1.state ≠ .established) ∧
          winner = ((fork'.postPdu der).update P now e).1 ∧ winner.state = .established := by
      intro rest' hoffer hne
      obtain ⟨before, fork', after, rfl, hbefore, hwinner⟩ := ih hrest hoffer
      exact ⟨fork :: before, fork', after, rfl, List.forall_mem_cons.mpr ⟨hne, hbefore⟩, hwinner⟩
    unfold offer at h
    rcases hu : (fork.postPdu der).update P now e with ⟨s', x | r⟩ <;> rw [hu] at hlater <;>
      simp only [hu] at h
    · split at h
      · rcases ho : offer P der now e rest with ⟨rest', contest⟩
        rw [ho] at h
        cases h
        exact hlater ho (raised_not_established hP hfork hu)
      · cases h
    · split at h
      · rename_i he
        cases h
        exact ⟨[], fork, rest, rfl, by simp, by rw [hu], he⟩
      · rename_i hne
        rcases ho : offer P der now e rest with ⟨rest', contest⟩
        rw [ho] at h
        cases h
        exact hlater ho hne

/-- Nobody has won: every fork has had its update, and none of them is established. -/
theorem offer_open (hf : ∀ s ∈ forks, Tidy P c .fork s)
    (h : offer P der now e forks = (forks', .open)) :
    forks' = forks.map (fun s => ((s.postPdu der).update P now e).1) ∧
      ∀ s ∈ forks', s.state ≠ .established := by
  induction forks generalizing forks' with
  | nil =>
    cases h
    simp
  | cons fork rest ih =>
    obtain ⟨hfork, hrest⟩ := List.forall_mem_cons.mp hf
    unfold offer at h
    rcases hu : (fork.postPdu der).update P now e with ⟨s', x | r⟩ <;> simp only [hu] at h
    · split at h
      · rcases ho : offer P der now e rest with ⟨rest', contest⟩
        rw [ho] at h
        cases h
        obtain ⟨rfl, hne⟩ := ih hrest ho
        exact ⟨by simp [hu], List.forall_mem_cons.mpr ⟨raised_not_established hP hfork hu, hne⟩⟩
      · cases h
    · split at h
      · cases h
      · rename_i hs'
        rcases ho : offer P der now e rest with ⟨rest', contest⟩
        rw [ho] at h
        cases h
        obtain ⟨rfl, hne⟩ := ih hrest ho
        exact ⟨by simp [hu], List.forall_mem_cons.mpr ⟨hs', hne⟩⟩

end

/-! ## What the tables hold -/

/-- Under the cid: forks and templates of an initiator that takes responses of the kind
`src`, or a session that continues one that `G` holds of; under others anything. -/
def Stance (cid : List Sym) (src : Pdu → Prop) (G : Session Sym Pdu → Prop) (c : List Sym)
    (t : Slot) (s : Session Sym Pdu) : Prop :=
  Tidy ideal c t s ∧ (c = cid → match t with
    | .responder => False
    | .established => ∃ s₀, G s₀ ∧ s₀.Continues ideal s
    | .template | .fork => s.Rival src)

/-- Later handshakes have other cids, and no PDU under the cid is a request or a
confirmation; responses are of the kind `src`. -/
def Bystands (cid : List Sym) (src : Pdu → Prop) (_ : Dispatcher Sym Pdu) :
    Op Sym Pdu → Prop
  | .initiate _ _ _ e => e.uuid ≠ cid
  | .postPdu der _ _ => ∀ msg, ideal.load der = .ok msg → msg.cid = cid →
      msg.payload.name ≠ .sessionInitRequest ∧ msg.payload.name ≠ .sessionCompletionResponse ∧
      (msg.payload.name = .sessionInitResponse → src der)
  | _ => True

section
variable {cid c : List Sym} {src src' : Pdu → Prop} {G G' : Session Sym Pdu → Prop} {t : Slot}
  {s s' : Session Sym Pdu} {der : Pdu} {msg : MakeMessage Sym} {now : Int} {e : Entropy Sym}

theorem Stance.mono (h : Stance cid src G c t s) (hsrc : ∀ der, src der → src' der)
    (hG : ∀ s, G s → G' s) : Stance cid src' G' c t s := by
  refine ⟨h.1, fun hc => ?_⟩
  have h := h.2 hc
  cases t with
  | responder => exact h
  | established =>
    obtain ⟨s₀, hs₀, hcont⟩ := h
    exact ⟨s₀, hG s₀ hs₀, hcont⟩
  | template | fork => exact h.mono hsrc

/-- A call on the session that leaves a rival a rival. -/
theorem Stance.call (h : Stance cid src G c t s) (ht : Tidy ideal c t s')
    (hcont : s.Continues ideal s') (hr : s.Rival src → s'.Rival src) : Stance cid src G c t s' := by
  refine ⟨ht, fun hc => ?_⟩
  have h := h.2 hc
  cases t with
  | responder => exact h
  | established =>
    obtain ⟨s₀, hs₀, hcont₀⟩ := h
    exact ⟨s₀, hs₀, hcont₀.trans hcont⟩
  | template | fork => exact hr h

theorem stance_handled : Handled (Stance cid src G) (fun _ : Pdu => True) where
  sent _ _ _ _ _ _ := trivial
  drained c t s h := h.call (tidy_handled.drained c t s h.1) (.drained .refl)
    fun hr => hr.of_eq rfl rfl rfl rfl rfl rfl rfl rfl
  establish c t s h hs := by
    refine ⟨tidy_handled.establish c t s h.1 hs, fun hc => ?_⟩
    have hr := h.2 hc
    cases t with
    | responder => exact hr.elim
    | established => exact hr
    | template =>
      rw [h.1.1.2.1] at hs
      cases hs
    | fork =>
      rcases h.1.1.2.1 with hs' | hs' | hs' <;> rw [hs'] at hs <;> cases hs

/-- The update of a session that is not under the cid, that is established, or that the
update does not establish. -/
theorem Stance.update (h : Stance cid src G c t s) (hslot : t ≠ .template)
    {u : Session Sym Pdu × Except PyError (UpdateResult × WithTop Int)}
    (ht : Left (Tidy ideal) c t u) (hcont : s.Continues ideal u.1)
    (hne : c = cid → t = .fork → u.1.state ≠ .established)
    (hr : c = cid → s.Rival src → u.1.Rival src) : Left (Stance cid src G) c t u := by
  by_cases hc : c = cid
  · subst hc
    have hrival := h.2 rfl
    cases t with
    | responder => exact hrival.elim
    | template => exact absurd rfl hslot
    | established => exact .inl (h.call ht.established hcont (hr rfl))
    | fork => exact .inl ⟨ht.of_state (hne rfl rfl), fun _ => hr rfl hrival⟩
  · exact ht.imp (fun ht => ⟨ht, fun h => absurd h hc⟩) fun ⟨hs, ht⟩ =>
      ⟨hs, ht, fun h => absurd h hc⟩

/-- Nothing establishes a fork without a PDU. -/
theorem fork_not_established (h : Tidy ideal c .fork s) (now : Int) (e : Entropy Sym) :
    (s.update ideal now e).1.state ≠ .established := by
  by_cases hd : s.state = .dropped
  · rw [Session.update_dropped hd, hd]
    simp
  · have hq := h.2.resolve_right hd
    obtain ⟨_, s₁, hadv, hst⟩ := Session.update_frame Ideal.ideal_correct hd now e
    have hs₁ : s₁.state ≠ .established := by
      cases hadv with
      | stays hs₁ =>
        rw [hs₁]
        rcases h.1.2.1 with hs | hs | hs <;> simp [hs]
      | answers _ _ hs₁ | calls _ hs₁ => simp [hs₁]
      | completes hs => rcases h.1.2.1 with hs' | hs' | hs' <;> rw [hs'] at hs <;> cases hs
      | confirms hq' =>
        rw [hq] at hq'
        cases hq'
    rcases hst with hst | ⟨hst, _⟩
    · rwa [hst]
    · simp [hst]

/-- A PDU that confirms nothing, if it is under the cid. -/
theorem Stance.deliver (h : Stance cid src G msg.cid t s) (hslot : t ≠ .template)
    (hl : ideal.load der = .ok msg) (hok : msg.cid = cid →
      msg.payload.name ≠ .sessionCompletionResponse ∧
      (msg.payload.name = .sessionInitResponse → src der)) (now : Int) (e : Entropy Sym) :
    Left (Stance cid src G) msg.cid t ((s.postPdu der).update ideal now e) := by
  refine h.update hslot (tidy_deliver Ideal.ideal_correct hl h.1 hslot) (.update now e (.postPdu der .refl))
    (fun hc ht => ?_) fun hc hr => hr.deliver h.1.2 hl (hok hc).2 now e
  subst ht
  exact not_established Ideal.ideal_correct hl h.1 (hok hc).1

theorem stance_stable : Stable ideal (Bystands cid src) (Stance cid src G) where
  handled := stance_handled
  initiate d own peer now e primary c hok hp hc := by
    refine ⟨tidy_initiate hp hc, fun heq => ?_⟩
    obtain ⟨_, _, _, _, _, rfl⟩ := Session.initiate_ok hp
    exact absurd ((Option.some.inj hc).trans heq) hok
  serves d der now e hok :=
    { deliver := fun msg t s hl ht h => h.deliver ht hl
        (fun hc => ⟨(hok msg hl hc).2.1, (hok msg hl hc).2.2⟩) now e
      call := fun msg resp s hl hp h => by
        have hne : ((s.postPdu der).update ideal now e).1.state ≠ .established :=
          not_established Ideal.ideal_correct hl h.1 (by simp [hp, MakePayload.name])
        exact (h.deliver (by simp) hl (fun hc => ⟨(hok msg hl hc).2.1, (hok msg hl hc).2.2⟩) now
          e).of_state hne
      fork := fun msg s twin hl h hf =>
        ⟨h.1.fork hf, fun hc => (show s.Rival src from h.2 hc).fork hf⟩
      opened := fun msg req candidate hl hp _ _ _ _ => by
        refine ⟨tidy_opened Ideal.ideal_correct hl now e, fun hc => ?_⟩
        exact absurd (by simp [hp, MakePayload.name]) (hok msg hl hc).1 }
  postPayload c t s payload h := h.call (h.1.postPayload payload) (.postPayload payload .refl)
    fun hr => hr.postPayload payload
  update c t s now e ht h := by
    refine h.update ht (tidy_update Ideal.ideal_correct h.1 ht) (.update now e .refl) (fun _ ht => ?_)
      fun _ hr => hr.idle h.1.2 now e
    subst ht
    exact fork_not_established h.1 now e

end

/-! ## A confirmation -/

section
variable {cid : List Sym} {src : Pdu → Prop} {G : Session Sym Pdu → Prop} {d : Dispatcher Sym Pdu}
  {der : Pdu} {msg : MakeMessage Sym} {now : Int} {e : Entropy Sym}

theorem Kept.forks (h : Kept (Stance cid src G) (fun _ => True) d) {forks : List (Session Sym Pdu)}
    (hf : d.initiatorForks.get? cid = some forks) :
    ∀ s ∈ forks, Tidy ideal cid .fork s ∧ s.Rival src :=
  fun s hs => ⟨(h.fork cid forks hf s hs).1, (h.fork cid forks hf s hs).2 rfl⟩

/-- Where a confirmation goes. -/
theorem postPdu_confirmation (h : Kept (Stance cid src G) (fun _ => True) d)
    (hl : ideal.load der = .ok msg) (hc : msg.cid = cid)
    (hp : msg.payload.name = .sessionCompletionResponse) :
    (∀ s, d.established.get? cid = some s →
      d.postPdu ideal der now e = d.deliverEstablished ideal s der now cid e) ∧
    (d.established.get? cid = none →
      (∀ forks, d.initiatorForks.get? cid = some forks →
        d.postPdu ideal der now e = d.routeToForks ideal cid forks der now e) ∧
      (d.initiatorForks.get? cid = none → d.postPdu ideal der now e = (d, none))) := by
  subst hc
  have hr : d.responderSessions.get? msg.cid = none := by
    cases hr : d.responderSessions.get? msg.cid with
    | none => rfl
    | some s => exact ((h.responder _ s hr).2 rfl).elim
  refine ⟨fun s he => ?_, fun he => ⟨fun forks hf => ?_, fun hf => ?_⟩⟩
  · simp only [postPdu, hl, he]
  · simp only [postPdu, hl, he, hp, hr, hf]
  · simp only [postPdu, hl, he, hp, hr, hf]

/-- A confirmation keeps the stances if `G` holds of the first fork that it establishes. -/
theorem stance_confirmed (h : Kept (Stance cid src G) (fun _ => True) d)
    (hl : ideal.load der = .ok msg) (hc : msg.cid = cid)
    (hp : msg.payload.name = .sessionCompletionResponse)
    (hG : ∀ before fork after, d.established.get? cid = none →
      d.initiatorForks.get? cid = some (before ++ fork :: after) →
      (∀ s ∈ before, ((s.postPdu der).update ideal now e).1.state ≠ .established) →
      ((fork.postPdu der).update ideal now e).1.state = .established →
      G ((fork.postPdu der).update ideal now e).1) :
    Kept (Stance cid src G) (fun _ => True) (d.postPdu ideal der now e).1 := by
  obtain ⟨hestablished, hpending⟩ := postPdu_confirmation h hl hc hp
  cases he : d.established.get? cid with
  | some s =>
    rw [hestablished s he]
    have hs := h.established cid s he
    subst hc
    have ht : Tidy ideal msg.cid .established ((s.postPdu der).update ideal now e).1 :=
      (tidy_deliver Ideal.ideal_correct hl hs.1 (by simp)).established
    have hk := h.deliver stance_handled msg.cid
      (show Stance msg.cid src G msg.cid .established ((s.postPdu der).update ideal now e).1 from
        ⟨ht, fun hc => by
          obtain ⟨s₀, hs₀, hcont⟩ := hs.2 hc
          exact ⟨s₀, hs₀, .update now e (.postPdu der hcont)⟩⟩)
    exact hk.1.setEstablished hk.2
  | none =>
    cases hf : d.initiatorForks.get? cid with
    | none =>
      rw [(hpending he).2 hf]
      exact h
    | some forks =>
      rw [(hpending he).1 forks hf]
      have hforks := h.forks hf
      have htidy : ∀ s ∈ forks, Tidy ideal cid .fork s := fun s hs => (hforks s hs).1
      unfold routeToForks
      rcases ho : offer ideal der now e forks with ⟨forks', contest⟩
      cases contest with
      | raised x =>
        subst hc
        have hno : (offer ideal der now e forks).2 ≠ .raised x :=
          offer_raises Ideal.ideal_correct hl htidy (by simp [hp]) (by simp [hp]) x
        rw [ho] at hno
        exact absurd rfl hno
      | «open» =>
        obtain ⟨rfl, hne⟩ := offer_open Ideal.ideal_correct htidy ho
        refine h.setForks fun s' hs' => ?_
        obtain ⟨s, hs, rfl⟩ := List.mem_map.mp hs'
        have hstance : Stance cid src G cid .fork s := ⟨htidy s hs, fun _ => (hforks s hs).2⟩
        subst hc
        refine (hstance.update (by simp) (tidy_deliver Ideal.ideal_correct hl (htidy s hs) (by simp))
          (.update now e (.postPdu der .refl)) (fun _ _ => hne _ hs') fun _ hr => ?_).of_state (hne _ hs')
        exact hr.deliver (htidy s hs).2 hl (fun hname => by simp [hname] at hp) now e
      | won winner =>
        obtain ⟨before, fork, after, rfl, hbefore, rfl, hwon⟩ :=
          offer_won Ideal.ideal_correct htidy ho
        have hfork := htidy fork (by simp)
        have ht : Tidy ideal cid .established ((fork.postPdu der).update ideal now e).1 := by
          subst hc
          exact (tidy_deliver Ideal.ideal_correct hl hfork (by simp)).promote
            (tidy_handled (π := Pdu)) hwon
        refine h.promote_of ⟨tidy_handled.drained _ _ _ ht, fun _ =>
          ⟨_, hG before fork after he hf hbefore hwon, .drained .refl⟩⟩ rfl (fun _ _ => rfl)
          (fun _ _ => rfl) (fun j hj => Dict.get?_set_of_ne d.initiatorForks hj _) fun _ _ => trivial

end

end Dispatcher

/-! ## The network -/

/-- The dispatcher, the responder, and the PDUs that were got from the responder. -/
structure Siege where
  dispatcher : Dispatcher Sym Pdu
  responder : Session Sym Pdu
  said : List Pdu := []

/-- A call on the dispatcher, or one on the responder, whose `update` has the draws of the
call number `k`. -/
inductive Turn where
  | call (op : Dispatcher.Op Sym Pdu)
  | postPdu (der : Pdu)
  | postPayload (payload : List Sym)
  | update (now : Int) (k : Nat)
  | getPdu
  | getPayload

namespace Siege
open Dispatcher

def take (w : Siege) : Turn → Siege
  | .call op => { w with dispatcher := w.dispatcher.step ideal op }
  | .postPdu der => { w with responder := w.responder.postPdu der }
  | .postPayload payload => { w with responder := (w.responder.postPayload payload).1 }
  | .update now k => { w with responder := (w.responder.update ideal now (draw k)).1 }
  | .getPdu =>
    match w.responder.getPdu with
    | (_, .error _) => w
    | (s, .ok pdu) => { w with responder := s, said := w.said ++ [pdu] }
  | .getPayload => { w with responder := w.responder.getPayload.1 }

/-- Under the cid the dispatcher gets what the responder has said and responses made from
public keys. Later handshakes draw other cids. -/
def Permits (cid : List Sym) (w : Siege) : Turn → Prop
  | .call (.initiate _ _ _ e) => e.uuid ≠ cid
  | .call (.postPdu der _ _) => ∀ msg, ideal.load der = .ok msg → msg.cid = cid →
      der ∈ w.said ∨ Forged cid der
  | _ => True

/-- The first fork that waits for a confirmation with this hash. -/
def taker (w : Siege) (cid hM : List Sym) : Option (Session Sym Pdu) :=
  ((w.dispatcher.initiatorForks.get? cid).getD []).find? fun fork =>
    fork.state = .expectSessionCompletionResponse ∧
      fork.sentPlaintextForHM.map ideal.sha256 = some hM

/-- A confirmation without `m` comes first to a fork whose request the responder has
accepted. -/
def Fair (cid : List Sym) (w : Siege) : Turn → Prop
  | .call (.postPdu der _ _) => ∀ msg resp fork, ideal.load der = .ok msg → msg.cid = cid →
      msg.payload = .sessionCompletionResponse resp → resp.m = none →
      w.taker cid resp.hM = some fork → fork.lastSent = w.responder.lastReceived
  | _ => True

/-- A confirmation without `m`, while the cid is pending, comes first to a fork that has sent
the very c_m that the responder has accepted. -/
def Rightful (cid : List Sym) (w : Siege) : Turn → Prop
  | .call (.postPdu der _ _) => w.dispatcher.established.get? cid = none → ∀ msg resp fork,
      ideal.load der = .ok msg → msg.cid = cid → msg.payload = .sessionCompletionResponse resp →
      resp.m = none → w.taker cid resp.hM = some fork →
      fork.lastSent.bind falseStart = w.responder.lastReceived.bind falseStart
  | _ => True

/-- The turns of a script, each of which depends on what has gone before. -/
def play (w : Siege) (script : List (Siege → Turn)) : Siege :=
  script.foldl (fun w turn => w.take (turn w)) w

/-- Each of them meets `ok` in the state it is made in. -/
def Plays (ok : Siege → Turn → Prop) : Siege → List (Siege → Turn) → Prop
  | _, [] => True
  | w, turn :: rest => ok w (turn w) ∧ Plays ok (w.take (turn w)) rest

end Siege

/-- Turns that each meet `ok` in the state they are made in. -/
inductive Besieged (ok : Siege → Turn → Prop) (w₀ : Siege) : Siege → Prop
  | start : Besieged ok w₀ w₀
  | turn {w turn} : Besieged ok w₀ w → ok w turn → Besieged ok w₀ (w.take turn)

/-- The session goes on from a fork that had accepted the response. -/
def Session.Processed (der : Pdu) (s : Session Sym Pdu) : Prop :=
  ∃ fork : Session Sym Pdu, fork.role = .initiator ∧
    fork.state = .expectSessionCompletionResponse ∧ fork.lastReceived = some der ∧
    fork.Continues ideal s

namespace Siege
open Dispatcher
variable {cid : List Sym} {w w₀ : Siege} {G : Siege → Session Sym Pdu → Prop} {turn : Turn}

theorem Fair.rightful (h : w.Fair cid turn) : w.Rightful cid turn := by
  unfold Rightful
  split
  · intro _ msg resp fork hl hc hp hm htaker
    rw [h msg resp fork hl hc hp hm htaker]
  · trivial

/-- Nobody but the responder makes confirmations. -/
theorem said_of_confirmation {der : Pdu} {msg : MakeMessage Sym} {now : Int} {e : Entropy Sym}
    {resp : SessionCompletionResponse Sym} (hok : w.Permits cid (.call (.postPdu der now e)))
    (hl : ideal.load der = .ok msg) (hc : msg.cid = cid)
    (hp : msg.payload = .sessionCompletionResponse resp) : der ∈ w.said := by
  rcases hok msg hl hc with hs | ⟨msg', resp', hl', _, hp', _⟩
  · exact hs
  · obtain rfl := Except.ok.inj (hl.symm.trans hl')
    rw [hp] at hp'
    cases hp'

/-- What may come to the dispatcher as a response. -/
def Offers (cid : List Sym) (w : Siege) (der : Pdu) : Prop := der ∈ w.said ∨ Forged cid der

/-- Both ends, and what is under way from the responder. -/
structure Holds (cid : List Sym) (G : Siege → Session Sym Pdu → Prop) (w : Siege) : Prop where
  tables : Kept (Stance cid (w.Offers cid) (G w)) (fun _ => True) w.dispatcher
  responder : w.responder.Answers
  said : ∀ pdu ∈ w.said, w.responder.Vouches pdu

/-- A turn of the responder's: what is known of winners is not taken back. -/
theorem Holds.responds {w' : Siege} (h : w.Holds cid G) (hd : w'.dispatcher = w.dispatcher)
    (hr : w'.responder.Answers) (hstays : w.responder.Stays w'.responder)
    (hsaid : w.said ⊆ w'.said) (hnew : ∀ pdu ∈ w'.said, pdu ∈ w.said ∨ w'.responder.Vouches pdu)
    (hG : ∀ s, G w s → G w' s) : w'.Holds cid G where
  tables := by
    rw [hd]
    exact h.tables.mono (fun _ _ _ hs => hs.mono (fun _ => Or.imp_left fun hm => hsaid hm) hG)
      fun _ => id
  responder := hr
  said pdu hp := (hnew pdu hp).elim (fun hp => (h.said pdu hp).mono hstays) id

/-- The dispatcher's own turns. -/
theorem Holds.called (h : w.Holds cid G) {op : Op Sym Pdu} (hok : w.Permits cid (.call op))
    (hG : ∀ der msg resp now e before fork after, op = .postPdu der now e →
      ideal.load der = .ok msg → msg.cid = cid → der ∈ w.said →
      msg.payload = .sessionCompletionResponse resp → w.dispatcher.established.get? cid = none →
      w.dispatcher.initiatorForks.get? cid = some (before ++ fork :: after) →
      (∀ s ∈ before, ((s.postPdu der).update ideal now e).1.state ≠ .established) →
      ((fork.postPdu der).update ideal now e).1.state = .established →
      G w ((fork.postPdu der).update ideal now e).1)
    (hGmono : ∀ s, G w s → G (w.take (.call op)) s) : (w.take (.call op)).Holds cid G := by
  suffices hk : Kept (Stance cid (w.Offers cid) (G w)) (fun _ => True) (w.dispatcher.step ideal op) from
    ⟨hk.mono (fun _ _ _ hs => hs.mono (fun _ => id) hGmono) fun _ => id, h.responder, h.said⟩
  by_cases hconf : ∃ der now e msg resp, op = .postPdu der now e ∧ ideal.load der = .ok msg ∧
      msg.cid = cid ∧ msg.payload = .sessionCompletionResponse resp
  · obtain ⟨der, now, e, msg, resp, rfl, hl, hc, hp⟩ := hconf
    exact stance_confirmed h.tables hl hc (by simp [hp, MakePayload.name]) fun before fork after =>
      hG der msg resp now e before fork after rfl hl hc (said_of_confirmation hok hl hc hp) hp
  · refine stance_stable.step Ideal.ideal_correct.encrypt_ne_nil ?_ h.tables
    cases op with
    | postPayload | getPdu | getPayload | close | update => trivial
    | initiate => exact hok
    | postPdu der now e =>
      intro msg hl hc
      refine ⟨fun hname => ?_, fun hname => ?_, fun _ => hok msg hl hc⟩
      · obtain ⟨req, hp⟩ := MakePayload.request_of_name hname
        rcases hok msg hl hc with hs | ⟨msg', resp', hl', _, hp', _⟩
        · exact (h.said der hs).no_request msg req hl hp
        · obtain rfl := Except.ok.inj (hl.symm.trans hl')
          rw [hp] at hp'
          cases hp'
      · obtain ⟨resp, hp⟩ := MakePayload.confirmation_of_name hname
        exact hconf ⟨der, now, e, msg, resp, rfl, hl, hc, hp⟩

/-- Any turn: what `G` says of winners must hold when one wins, and go on holding. -/
theorem Holds.take (h : w.Holds cid G) (hok : w.Permits cid turn)
    (hG : ∀ der msg resp now e before fork after, turn = .call (.postPdu der now e) →
      ideal.load der = .ok msg → msg.cid = cid → der ∈ w.said →
      msg.payload = .sessionCompletionResponse resp → w.dispatcher.established.get? cid = none →
      w.dispatcher.initiatorForks.get? cid = some (before ++ fork :: after) →
      (∀ s ∈ before, ((s.postPdu der).update ideal now e).1.state ≠ .established) →
      ((fork.postPdu der).update ideal now e).1.state = .established →
      G w ((fork.postPdu der).update ideal now e).1)
    (hGmono : ∀ w' : Siege, w.responder.Stays w'.responder → w.said ⊆ w'.said →
      ∀ s, G w s → G w' s) : (w.take turn).Holds cid G := by
  have hsame : ∀ s : Session Sym Pdu, s.Stays s := fun s => .refl s
  cases turn with
  | call op =>
    exact h.called hok (fun der msg resp now e before fork after hop =>
      hG der msg resp now e before fork after (hop ▸ rfl)) (hGmono _ (hsame _) (List.Subset.refl _))
  | postPdu der =>
    exact h.responds rfl (h.responder.requeue _ _ _ (List.Subset.refl _))
      (fun hs => ⟨hs, rfl, rfl, rfl⟩) (List.Subset.refl _) (fun _ => .inl)
      (hGmono _ (fun hs => ⟨hs, rfl, rfl, rfl⟩) (List.Subset.refl _))
  | postPayload payload =>
    have hstays : w.responder.Stays (w.responder.postPayload payload).1 := by
      rw [Session.postPayload_eq]
      exact fun hs => ⟨hs, rfl, rfl, rfl⟩
    refine h.responds rfl ?_ hstays (List.Subset.refl _) (fun _ => .inl)
      (hGmono _ hstays (List.Subset.refl _))
    change (w.responder.postPayload payload).1.Answers
    rw [Session.postPayload_eq]
    exact h.responder.requeue _ _ _ (List.Subset.refl _)
  | update now k =>
    have hstays := Session.update_stays Ideal.ideal_correct.encrypt_ne_nil w.responder now (draw k)
    exact h.responds rfl (h.responder.update now k) hstays (List.Subset.refl _) (fun _ => .inl)
      (hGmono _ hstays (List.Subset.refl _))
  | getPdu =>
    unfold Siege.take Session.getPdu
    cases hout : w.responder.outgoingPdus with
    | nil => exact h
    | cons pdu rest =>
      have hstays : w.responder.Stays { w.responder with outgoingPdus := rest } :=
        fun hs => ⟨hs, rfl, rfl, rfl⟩
      have hrest : rest ⊆ w.responder.outgoingPdus := by simp [hout]
      refine h.responds rfl (h.responder.requeue _ _ _ hrest) hstays (List.subset_append_left _ _)
        (fun pdu' hp => ?_) (hGmono _ hstays (List.subset_append_left _ _))
      refine (List.mem_append.mp hp).imp_right fun hp => ?_
      rw [List.mem_singleton.mp hp]
      exact (h.responder.sent pdu (by simp [hout])).mono hstays
  | getPayload =>
    have heq : ∃ payloads, w.responder.getPayload.1 =
        { w.responder with outgoingPayloads := payloads } := by
      unfold Session.getPayload
      split
      · exact ⟨w.responder.outgoingPayloads, rfl⟩
      · exact ⟨_, rfl⟩
    obtain ⟨payloads, heq⟩ := heq
    have hstays : w.responder.Stays w.responder.getPayload.1 := by
      rw [heq]
      exact fun hs => ⟨hs, rfl, rfl, rfl⟩
    refine h.responds rfl ?_ hstays (List.Subset.refl _) (fun _ => .inl)
      (hGmono _ hstays (List.Subset.refl _))
    change w.responder.getPayload.1.Answers
    rw [heq]
    exact h.responder.requeue _ _ _ (List.Subset.refl _)

/-! ## Runs -/

/-- Both ends as they are when the initiator has called. -/
structure Opens (cid : List Sym) (w₀ : Siege) : Prop where
  called : ∃ keys config limits d own peer now e,
    Run ideal (fun _ _ => True) (new keys config limits) d ∧ d.Unused cid ∧
      d.initiate ideal own peer now e = (w₀.dispatcher, .ok cid)
  awaited : ∃ own keys config, w₀.responder = .new .responder own keys config
  silent : w₀.said = []

theorem Opens.holds (h : w₀.Opens cid) (G : Siege → Session Sym Pdu → Prop) : w₀.Holds cid G where
  tables := by
    obtain ⟨keys, config, limits, d, own, peer, now, e, hrun, hfree, hi⟩ := h.called
    have htidy : Kept (Tidy ideal) (fun _ => True) d :=
      tidy_run Ideal.ideal_correct hrun (kept_new keys config limits)
    have hd : Kept (Stance cid (w₀.Offers cid) (G w₀)) (fun _ => True) d := by
      refine kept_of_holds (fun c t s hs => ⟨htidy.holds hs, fun hc => ?_⟩) fun _ _ => trivial
      subst hc
      cases t with
      | established => simp [Dispatcher.Holds, hfree.established] at hs
      | responder => simp [Dispatcher.Holds, hfree.responder] at hs
      | template => simp [Dispatcher.Holds, hfree.template] at hs
      | fork => simp [Dispatcher.Holds, hfree.fork] at hs
    suffices hk : Kept (Stance cid (w₀.Offers cid) (G w₀)) (fun _ => True)
        (d.initiate ideal own peer now e).1 by rwa [hi] at hk
    exact kept_initiate hd fun primary c hp hc =>
      ⟨⟨tidy_initiate hp hc, fun _ => Session.rival_calling hp⟩, fun _ _ => trivial⟩
  responder := by
    obtain ⟨own, keys, config, hr⟩ := h.awaited
    rw [hr]
    exact Session.answers_new own keys config
  said pdu hp := by
    rw [h.silent] at hp
    cases hp

theorem Holds.permitted (h : w.Holds cid fun _ _ => True) (hok : w.Permits cid turn) :
    (w.take turn).Holds cid fun _ _ => True :=
  h.take hok (fun _ _ _ _ _ _ _ _ _ _ _ _ _ _ _ _ _ => trivial) fun _ _ _ _ _ => trivial

theorem Besieged.holds (hopen : w₀.Opens cid) (h : Besieged (Permits cid) w₀ w) :
    w.Holds cid (fun _ _ => True) := by
  induction h with
  | start => exact hopen.holds _
  | turn _ hok ih => exact ih.permitted hok

/-- A fork waits for the confirmation that takes: no other one has its PDU in the way. -/
theorem confirmation_new {der pdu : Pdu} {msg : MakeMessage Sym} {keys : SessionKeys Sym}
    {text : List Sym} {resp : SessionCompletionResponse Sym} {s : Session Sym Pdu}
    (hs : s.Pursues der keys text) (hl : ideal.load pdu = .ok msg)
    (hp : msg.payload = .sessionCompletionResponse resp) : s.lastReceived ≠ some pdu := by
  rw [hs.received]
  rintro ⟨rfl⟩
  obtain ⟨msg', _, _, _, _, _, _, _, _, _, _, hl', hp', _⟩ := hs.computed
  obtain rfl := Except.ok.inj (hl.symm.trans hl')
  rw [hp] at hp'
  cases hp'

/-- A winner that has the responder's keys, from a response of the responder's. -/
def Agreed (cid : List Sym) (w : Siege) (s : Session Sym Pdu) : Prop :=
  s.state = .established ∧ w.responder.state = .established ∧ w.responder.cid = some cid ∧
    ∃ keys der msg resp, s.sessionKeys = some keys ∧ w.responder.sessionKeys = some keys ∧
      der ∈ w.said ∧ ideal.load der = .ok msg ∧ msg.payload = .sessionInitResponse resp ∧
      s.Processed der

theorem Agreed.mono {w' : Siege} {s : Session Sym Pdu} (h : w.Agreed cid s)
    (hstays : w.responder.Stays w'.responder) (hsaid : w.said ⊆ w'.said) : w'.Agreed cid s := by
  obtain ⟨hs, he, hc, keys, der, msg, resp, hk, hk', hd, hrest⟩ := h
  obtain ⟨he', hc', hkeys, _⟩ := hstays he
  exact ⟨hs, he', hc'.trans hc, keys, der, msg, resp, hk, hkeys.trans hk', hsaid hd, hrest⟩

section
variable {der : Pdu} {msg : MakeMessage Sym} {resp : SessionCompletionResponse Sym} {now : Int}
  {e : Entropy Sym} {before after : List (Session Sym Pdu)} {fork : Session Sym Pdu}

/-- A fork of the cid that takes the confirmation is established by it. -/
theorem Holds.established_of_takes (h : w.Holds cid G) {forks : List (Session Sym Pdu)}
    (hl : ideal.load der = .ok msg) (hc : msg.cid = cid)
    (hp : msg.payload = .sessionCompletionResponse resp)
    (hf : w.dispatcher.initiatorForks.get? cid = some forks) (hmem : fork ∈ forks)
    (htakes : fork.Takes ideal resp) (now : Int) (e : Entropy Sym) :
    ((fork.postPdu der).update ideal now e).1.state = .established := by
  obtain ⟨htidy, hrival⟩ := h.tables.forks hf fork hmem
  obtain ⟨_, _, _, _, hpursues⟩ := hrival.pursues htakes.waits
  exact htakes.established hl hp (htidy.2.resolve_right (by simp [htakes.waits])) hrival.role
    (htidy.1.2.2.trans (congrArg some hc.symm)) (confirmation_new hpursues hl hp)

/-- While the cid is pending, the first fork that takes the confirmation is established. -/
theorem Holds.confirmed (h : w.Holds cid G) {forks : List (Session Sym Pdu)}
    (hl : ideal.load der = .ok msg) (hc : msg.cid = cid)
    (hp : msg.payload = .sessionCompletionResponse resp)
    (hnone : w.dispatcher.established.get? cid = none)
    (hf : w.dispatcher.initiatorForks.get? cid = some forks) (hmem : fork ∈ forks)
    (htakes : fork.Takes ideal resp) (now : Int) (e : Entropy Sym) :
    ∃ before first after s, forks = before ++ first :: after ∧
      (∀ s ∈ before, ((s.postPdu der).update ideal now e).1.state ≠ .established) ∧
      first.Takes ideal resp ∧
      (w.dispatcher.postPdu ideal der now e).1.established.get? cid = some s ∧
      s.sessionKeys = first.sessionKeys := by
  have hname : msg.payload.name = .sessionCompletionResponse := by simp [hp, MakePayload.name]
  have htidies : ∀ s ∈ forks, Tidy ideal cid .fork s := fun s hs => (h.tables.forks hf s hs).1
  rw [((postPdu_confirmation h.tables hl hc hname).2 hnone).1 forks hf]
  unfold routeToForks
  rcases ho : offer ideal der now e forks with ⟨forks', contest⟩
  cases contest with
  | raised x =>
    subst hc
    have hno : (offer ideal der now e forks).2 ≠ .raised x :=
      offer_raises Ideal.ideal_correct hl htidies (by simp [hname]) (by simp [hname]) x
    rw [ho] at hno
    exact absurd rfl hno
  | «open» =>
    obtain ⟨rfl, hlost⟩ := offer_open Ideal.ideal_correct htidies ho
    exact absurd (h.established_of_takes hl hc hp hf hmem htakes now e)
      (hlost _ (List.mem_map_of_mem hmem))
  | won winner =>
    obtain ⟨before, first, after, rfl, hbefore, rfl, hwon⟩ :=
      offer_won Ideal.ideal_correct htidies ho
    obtain ⟨hkeys, resp', hp', htakes'⟩ := Session.takes_of_established Ideal.ideal_correct hl
      (hc ▸ htidies first (by simp)) hwon
    obtain rfl : resp = resp' := by simpa [hp] using hp'
    exact ⟨before, first, after, _, rfl, hbefore, htakes', Dict.get?_set_self .., hkeys⟩

/-- Of the forks with this hash the first one takes a confirmation without `m`. -/
theorem Holds.taker_of_won (h : w.Holds cid G) (hl : ideal.load der = .ok msg) (hc : msg.cid = cid)
    (hp : msg.payload = .sessionCompletionResponse resp) (hm : resp.m = none)
    (hf : w.dispatcher.initiatorForks.get? cid = some (before ++ fork :: after))
    (hbefore : ∀ s ∈ before, ((s.postPdu der).update ideal now e).1.state ≠ .established)
    (htakes : fork.Takes ideal resp) : w.taker cid resp.hM = some fork := by
  obtain ⟨sent, hsent, hhash⟩ := htakes.hash
  unfold taker
  rw [hf, Option.getD_some, List.find?_eq_some_iff_append]
  refine ⟨by simp [htakes.waits, hsent, hhash], before, after, rfl, fun s hs => ?_⟩
  by_contra hmatch
  simp only [Bool.not_eq_true', Bool.not_eq_false, decide_eq_true_eq] at hmatch
  obtain ⟨hwaits, hsame⟩ := hmatch
  obtain ⟨sent', hsent', hhash'⟩ := Option.map_eq_some_iff.mp hsame
  exact hbefore s hs (h.established_of_takes hl hc hp hf (by simp [hs])
    ⟨hwaits, ⟨sent', hsent', hhash'.symm⟩, by simp [hm]⟩ now e)

/-- The first fork that a rightful confirmation establishes. -/
theorem Holds.agreed (h : w.Holds cid (Agreed cid))
    (hright : w.Rightful cid (.call (.postPdu der now e))) (hl : ideal.load der = .ok msg)
    (hc : msg.cid = cid) (hd : der ∈ w.said) (hp : msg.payload = .sessionCompletionResponse resp)
    (hnone : w.dispatcher.established.get? cid = none)
    (hf : w.dispatcher.initiatorForks.get? cid = some (before ++ fork :: after))
    (hbefore : ∀ s ∈ before, ((s.postPdu der).update ideal now e).1.state ≠ .established)
    (hwon : ((fork.postPdu der).update ideal now e).1.state = .established) :
    w.Agreed cid ((fork.postPdu der).update ideal now e).1 := by
  obtain ⟨htidy, hrival⟩ := h.tables.forks hf fork (by simp)
  obtain ⟨hkeys, resp', hp', htakes⟩ :=
    Session.takes_of_established Ideal.ideal_correct hl (hc ▸ htidy) hwon
  obtain rfl : resp = resp' := by simpa [hp] using hp'
  obtain ⟨der₀, keys, text, hsrc, hpursues⟩ := hrival.pursues htakes.waits
  have hvouches := h.said der hd
  have hsame : resp.m = none →
      fork.lastSent.bind falseStart = w.responder.lastReceived.bind falseStart := fun hm =>
    hright hnone msg resp fork hl hc hp hm (h.taker_of_won hl hc hp hm hf hbefore htakes)
  obtain ⟨hagree, hgenuine⟩ := hpursues.agrees h.responder hvouches hl hp htakes hsame
  obtain ⟨hest, hcid, _⟩ := hvouches.confirms msg resp hl hp
  obtain ⟨msg₀, resp₀, _, _, _, _, _, _, _, _, _, hl₀, hp₀, _⟩ := hpursues.computed
  exact ⟨hwon, hest, hc ▸ hcid, keys, der₀, msg₀, resp₀, hkeys.trans hpursues.has_keys, hagree,
    hsrc.resolve_right (hgenuine cid), hl₀, hp₀, fork, hrival.role, htakes.waits, hpursues.received,
    .update now e (.postPdu der .refl)⟩

end

/-- What goes on from an established session has its keys. -/
theorem continues_stays {s s' : Session Sym Pdu} (h : s.Continues ideal s') : s.Stays s' := by
  induction h with
  | refl => exact .refl s
  | postPdu _ _ ih | drained _ ih => exact ih.trans fun hs => ⟨hs, rfl, rfl, rfl⟩
  | postPayload payload _ ih =>
    refine ih.trans ?_
    rw [Session.postPayload_eq]
    exact fun hs => ⟨hs, rfl, rfl, rfl⟩
  | update now e _ ih =>
    exact ih.trans (Session.update_stays Ideal.ideal_correct.encrypt_ne_nil _ now e)

theorem Holds.of_established (h : w.Holds cid (Agreed cid)) {s : Session Sym Pdu}
    (hs : w.dispatcher.established.get? cid = some s) :
    w.responder.state = .established ∧ w.responder.cid = some cid ∧
      (∃ der ∈ w.said, (∃ msg resp, ideal.load der = .ok msg ∧
        msg.payload = .sessionInitResponse resp) ∧ s.Processed der) ∧
      ∃ keys, s.sessionKeys = some keys ∧ w.responder.sessionKeys = some keys := by
  obtain ⟨s₀, ⟨hs₀, he, hc, keys, der, msg, resp, hk, hk', hd, hl, hp, fork, hr, hwaits, hfrom, hcont⟩,
    hcont'⟩ := (h.tables.established cid s hs).2 rfl
  obtain ⟨_, _, hkeys, _⟩ := continues_stays hcont' hs₀
  exact ⟨he, hc, ⟨der, hd, ⟨msg, resp, hl, hp⟩, fork, hr, hwaits, hfrom, hcont.trans hcont'⟩, keys,
    hkeys.trans hk, hk'⟩

/-- One turn of a run whose confirmations are rightful. -/
theorem Holds.rightly (h : w.Holds cid (Agreed cid)) (hok : w.Permits cid turn)
    (hright : w.Rightful cid turn) : (w.take turn).Holds cid (Agreed cid) := by
  refine h.take hok (fun der msg resp now e before fork after hturn hl hc hd hp hnone hf => ?_)
    fun _ hstays hsaid _ hagreed => hagreed.mono hstays hsaid
  subst hturn
  exact h.agreed hright hl hc hd hp hnone hf

/-- Once the responder has accepted the request of a fork that still waits, its confirmation
establishes the cid, whatever other forks there are. -/
theorem confirmation_establishes (hopen : w₀.Opens cid) (h : Besieged (Permits cid) w₀ w)
    {fork : Session Sym Pdu} (hfork : w.dispatcher.Holds cid .fork fork)
    (hwaits : fork.state = .expectSessionCompletionResponse)
    (hsent : fork.lastSent = w.responder.lastReceived) {der : Pdu} {msg : MakeMessage Sym}
    {resp : SessionCompletionResponse Sym} (hd : der ∈ w.said) (hl : ideal.load der = .ok msg)
    (hc : msg.cid = cid) (hp : msg.payload = .sessionCompletionResponse resp) (now : Int)
    (e : Entropy Sym) : (w.dispatcher.postPdu ideal der now e).1.established.get? cid ≠ none := by
  have hw := Besieged.holds hopen h
  obtain ⟨forks, hf, hmem⟩ := hfork
  obtain ⟨_, _, _, _, hpursues⟩ := (hw.tables.forks hf fork hmem).2.pursues hwaits
  have htakes := hpursues.takes hw.responder (hw.said der hd) hl hp hwaits (by rw [hsent])
  cases he : w.dispatcher.established.get? cid with
  | some s =>
    rw [(postPdu_confirmation hw.tables hl hc (by simp [hp, MakePayload.name])).1 s he]
    simp [deliverEstablished]
  | none =>
    obtain ⟨_, _, _, s, _, _, _, hs, _⟩ := hw.confirmed hl hc hp he hf hmem htakes now e
    simp [hs]

/-! ## Alice (0) calls Bob (1), and Mallory answers as well -/

theorem fair_of_name {der : Pdu} {now : Int} {e : Entropy Sym}
    (h : (ideal.load der).map (·.payload.name) ≠ .ok .sessionCompletionResponse) :
    w.Fair cid (.call (.postPdu der now e)) := by
  intro msg resp _ hl _ hp
  simp [hl, hp, Except.map, MakePayload.name] at h

theorem fair_of_taker {der : Pdu} {msg : MakeMessage Sym} {resp : SessionCompletionResponse Sym}
    {now : Int} {e : Entropy Sym} (hl : ideal.load der = .ok msg)
    (hp : msg.payload = .sessionCompletionResponse resp)
    (h : (w.taker cid resp.hM).map (·.lastSent) = some w.responder.lastReceived) :
    w.Fair cid (.call (.postPdu der now e)) := by
  intro msg' resp' fork hl' _ hp' _ htaker
  obtain rfl := Except.ok.inj (hl.symm.trans hl')
  obtain rfl : resp = resp' := by simpa [hp] using hp'
  simpa [htaker] using h

def malloryAnswer : Pdu := ideal.dump (.build (draw 0).uuid (.sessionInitResponse
  { pkBStar := staticKey 2
    ct2 := ⟨kemAlg (mlkemOid .mlkem768), [.encap .mlkem768 (staticKey 2).publicKey []]⟩
    ct3 := ⟨kemAlg (mlkemOid .mlkem768), [.encap .mlkem768 (staticKey 2).publicKey []]⟩
    nB := [], chosenAead := aeadOid .aes256Gcm }))

theorem forged_malloryAnswer : Forged (draw 0).uuid malloryAnswer := by
  refine ⟨_, _, rfl, rfl, rfl, ?_⟩
  have hpub : Derives publicKeys (.pub .mlkem768 [.name (.static 2)]) := .known ⟨_, _, rfl⟩
  have hencap : Derives publicKeys (.encap .mlkem768 [.pub .mlkem768 [.name (.static 2)]] []) :=
    .encap (by simpa using hpub) (by simp)
  simp [MakeMessage.build, MakePayload.blocks, KemPublicKey.blocks, KemCiphertext.blocks, staticKey,
    kemAlg, hpub, hencap]

def aliceBesieged : Siege := ⟨aliceCalling, .new .responder none (staticLookup 1) {}, []⟩

theorem opens_aliceBesieged : aliceBesieged.Opens (draw 0).uuid where
  called := ⟨_, _, _, _, _, _, _, _, .refl, ⟨rfl, rfl, rfl, rfl⟩, initiate_aliceCalling⟩
  awaited := ⟨_, _, _, rfl⟩
  silent := rfl

/-- Bob answers; his response and Mallory's come to Alice. -/
def twoAnswers (first second : Siege → Turn) : List (Siege → Turn) :=
  [fun w => .postPdu (w.dispatcher.outgoingPdus.headD ideal.noPdu), fun _ => .update 0 1,
    fun _ => .getPdu, first, second]

def bobs (w : Siege) : Turn := .call (.postPdu (w.said.headD ideal.noPdu) 0 (draw 2))

def mallorys (_ : Siege) : Turn := .call (.postPdu malloryAnswer 0 (draw 3))

/-- Alice's request to Bob is the one made in place `i`, and he confirms it. -/
def confirmed (i : Nat) : List (Siege → Turn) :=
  [fun w => .postPdu ((w.dispatcher.outgoingPdus[i]?).getD ideal.noPdu), fun _ => .update 0 4,
    fun _ => .getPdu]

def acks (w : Siege) : Turn := .call (.postPdu (w.said.getLastD ideal.noPdu) 0 (draw 5))

def bobFirst : Siege := aliceBesieged.play (twoAnswers bobs mallorys ++ confirmed 1)

def bobWins : Siege := bobFirst.play [acks]

theorem besieged_play {ok : Siege → Turn → Prop} {script : List (Siege → Turn)}
    (h : Besieged ok w₀ w) (hplays : Plays ok w script) : Besieged ok w₀ (w.play script) := by
  induction script generalizing w with
  | nil => exact h
  | cons turn rest ih => exact ih (h.turn hplays.1) hplays.2

theorem plays_bobFirst : Plays (fun w turn => w.Permits (draw 0).uuid turn ∧
    w.Fair (draw 0).uuid turn) aliceBesieged (twoAnswers bobs mallorys ++ confirmed 1) := by
  refine ⟨⟨trivial, trivial⟩, ⟨trivial, trivial⟩, ⟨trivial, trivial⟩, ⟨fun _ _ _ => .inl ?_, ?_⟩,
    ⟨fun _ _ _ => .inr forged_malloryAnswer, ?_⟩, ⟨trivial, trivial⟩, ⟨trivial, trivial⟩,
    ⟨trivial, trivial⟩, trivial⟩
  · decide +kernel
  · exact fair_of_name (by decide +kernel)
  · exact fair_of_name (by decide +kernel)

theorem besieged_bobFirst : Besieged (fun w turn => w.Permits (draw 0).uuid turn ∧
    w.Fair (draw 0).uuid turn) aliceBesieged bobFirst := besieged_play .start plays_bobFirst

/-- Bob's confirmation of a request without a false start. -/
def bobsAck : SessionCompletionResponse Sym := { hM := [.digest []], m := none }

theorem load_acks : ideal.load (bobFirst.said.getLastD ideal.noPdu) =
    .ok (.build (draw 0).uuid (.sessionCompletionResponse bobsAck)) := by
  decide +kernel

theorem plays_acks : Plays (fun w turn => w.Permits (draw 0).uuid turn ∧
    w.Fair (draw 0).uuid turn) bobFirst [acks] := by
  refine ⟨⟨fun _ _ _ => .inl (by decide +kernel), fair_of_taker load_acks rfl ?_⟩, trivial⟩
  decide +kernel

theorem besieged_bobWins : Besieged (fun w turn => w.Permits (draw 0).uuid turn ∧
    w.Fair (draw 0).uuid turn) aliceBesieged bobWins := besieged_play besieged_bobFirst plays_acks

def malloryFirst : Siege := aliceBesieged.play (twoAnswers mallorys bobs ++ confirmed 2 ++ [acks])

/-- With Mallory's response first, hers is the session that Bob's confirmation establishes. -/
example : ((malloryFirst.dispatcher.established.get? (draw 0).uuid).any fun s =>
    s.sessionKeys.isSome && decide (s.sessionKeys ≠ malloryFirst.responder.sessionKeys)) = true := by
  decide +kernel

/-- The fork of Bob's response, whose request he has accepted. -/
def bobsFork : Session Sym Pdu :=
  ((bobFirst.dispatcher.initiatorForks.get? (draw 0).uuid).getD []).get ⟨0, by decide +kernel⟩

theorem confirmation_establishes_bob :
    (bobFirst.dispatcher.postPdu ideal (bobFirst.said.getLastD ideal.noPdu) 0
      (draw 5)).1.established.get? (draw 0).uuid ≠ none := by
  have hforks : (bobFirst.dispatcher.initiatorForks.get? (draw 0).uuid).isSome := by decide +kernel
  obtain ⟨forks, hf⟩ := Option.isSome_iff_exists.mp hforks
  have hmem : bobsFork ∈ (bobFirst.dispatcher.initiatorForks.get? (draw 0).uuid).getD [] :=
    List.get_mem ..
  have hgetD : (bobFirst.dispatcher.initiatorForks.get? (draw 0).uuid).getD [] = forks := by
    rw [hf, Option.getD_some]
  rw [hgetD] at hmem
  have hpermits : ∀ {w : Siege}, Besieged (fun w turn => w.Permits (draw 0).uuid turn ∧
      w.Fair (draw 0).uuid turn) aliceBesieged w → Besieged (Permits (draw 0).uuid) aliceBesieged w := by
    intro w h
    induction h with
    | start => exact .start
    | turn _ hok ih => exact ih.turn hok.1
  exact confirmation_establishes opens_aliceBesieged (hpermits besieged_bobFirst)
    ⟨forks, hf, hmem⟩ (by decide +kernel) (by decide +kernel) (by decide +kernel)
    load_acks rfl rfl 0 (draw 5)

end Siege

end KemMake
