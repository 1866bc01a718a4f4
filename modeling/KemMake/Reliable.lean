import KemMake.Ordering

/-!
# Exactly once and in order over a reliable channel

An initiator and a responder, a lossless FIFO channel each way, and payloads that are posted
one at a time.
-/

namespace KemMake

variable {β π : Type} {P : Primitives β π} {q : Peers P}

/-! ## What has been posted -/

/-- The payloads of the calls, less the empty one of a completion request without payload. -/
def spoken (log : List (EncryptCall β)) : List (List β) :=
  log.flatMap fun call => if call.plaintext = [] then [] else [call.plaintext]

theorem spoken_append (log calls : List (EncryptCall β)) :
    spoken (log ++ calls) = spoken log ++ spoken calls := by
  simp [spoken]

theorem spoken_take (log : List (EncryptCall β)) (n : Nat) : spoken (log.take n) <+: spoken log := by
  have h := spoken_append (log.take n) (log.drop n)
  rw [List.take_append_drop] at h
  exact ⟨_, h.symm⟩

theorem encrypted_append (log calls : List (EncryptCall β)) :
    encrypted P (log ++ calls) = encrypted P log ++ encrypted P calls := by
  simp [encrypted]

theorem encrypted_spoken {log : List (EncryptCall β)}
    (h : ∀ call ∈ log, ∃ ct, call.result P = .ok ct) : encrypted P log = spoken log := by
  induction log with
  | nil => rfl
  | cons call rest ih =>
    obtain ⟨⟨ct, hct⟩, hrest⟩ := List.forall_mem_cons.mp h
    rw [encrypted_cons hct, ih hrest]
    simp [spoken]

theorem encrypted_failed {log : List (EncryptCall β)}
    (h : ∀ call ∈ log, ∃ x, call.result P = .error x) : encrypted P log = [] := by
  rw [encrypted, List.filterMap_eq_nil_iff]
  intro call hcall
  obtain ⟨x, hx⟩ := h call hcall
  rw [hx]

/-- Beyond the limit nothing is encrypted. -/
theorem Session.Numbered.encrypted_take {s : Session β π} {log : List (EncryptCall β)}
    (h : s.Numbered P log) (n : Nat) :
    encrypted P (log.take n) = spoken (log.take (min seqLimit n)) := by
  have hresult : ∀ i (hi : i < log.length), (i < seqLimit → ∃ ct, log[i].result P = .ok ct) ∧
      (seqLimit ≤ i → log[i].result P = .error .overflowError) := by
    intro i hi
    obtain ⟨keys, _, hk, _⟩ := h.under (List.getElem_mem hi)
    exact (h.numbered keys hk i _ (List.getElem?_eq_getElem hi)).result h.coherent hk
  rw [← List.take_append_drop seqLimit (log.take n), encrypted_append, List.take_take,
    encrypted_spoken, encrypted_failed, List.append_nil]
  · intro call hcall
    obtain ⟨i, hi, rfl⟩ := List.mem_iff_getElem.mp hcall
    simp only [List.length_drop, List.length_take] at hi
    rw [List.getElem_drop, List.getElem_take]
    exact ⟨_, (hresult (seqLimit + i) (by omega)).2 (by omega)⟩
  · intro call hcall
    obtain ⟨i, hi, rfl⟩ := List.mem_iff_getElem.mp hcall
    simp only [List.length_take] at hi
    rw [List.getElem_take]
    exact (hresult i (by omega)).1 (by omega)

/-- What was posted has been encrypted or is pending. -/
def Session.Spends (s : Session β π) (log : List (EncryptCall β)) (posted : List (List β)) : Prop :=
  posted = spoken log ++ s.pendingPayload.toList

namespace Session
variable {s s' : Session β π} {log : List (EncryptCall β)} {posted : List (List β)} {now : Int}
  {e : Entropy β} {x : Option PyError}

theorem Spends.congr (h : s.Spends log posted) (hp : s'.pendingPayload = s.pendingPayload) :
    s'.Spends (log ++ []) posted := by
  unfold Spends
  rw [List.append_nil, hp]
  exact h

/-- The pending payload goes into a call. -/
theorem Spends.spent (h : s.Spends log posted) {calls : List (EncryptCall β)}
    (hcalls : spoken calls = s.pendingPayload.toList) (hp : s'.pendingPayload = none) :
    s'.Spends (log ++ calls) posted := by
  unfold Spends
  rw [spoken_append, hcalls, hp]
  simpa [Spends] using h

theorem Receptive.spoken_pending (hr : s.Receptive log) (f : List β → EncryptCall β)
    (hf : ∀ payload, (f payload).plaintext = payload) :
    spoken (s.pendingPayload.toList.map f) = s.pendingPayload.toList := by
  cases hp : s.pendingPayload with
  | none => rfl
  | some payload =>
    have hne : payload ≠ [] := fun heq => hr.filled (heq ▸ hp)
    simp [spoken, hf, hne]

theorem Spends.took (hr : s.Receptive log) {calls : List (EncryptCall β)}
    (ht : TookEncrypting P s now e s' x calls) (h : s.Spends log posted) :
    s'.Spends (log ++ calls) posted := by
  cases ht with
  | nothing ht hst =>
    apply h.congr
    cases ht with
    | idle | ignored | undecoded | refused | answered | confirmed | replied => rfl
    | resent => rw [resend_eq]
    | completed _ _ _ hs =>
      have := hst (.inr hs)
      simp [acceptCompletion, hs] at this
    | called _ _ _ hs =>
      have := hst (.inl hs)
      simp [acceptInitResponse, hs] at this
    | received => rw [countReceived_eq]
  | completed => exact h.spent (hr.spoken_pending _ fun _ => rfl) rfl
  | called _ _ _ _ _ _ hcall =>
    refine h.spent ?_ rfl
    obtain ⟨call⟩ := completionCall_ok hcall
    have htext := call.plaintext
    cases hp : s.pendingPayload with
    | none => simp [spoken, CompletionCall.encrypts, htext, hp]
    | some payload =>
      have hne : payload ≠ [] := fun heq => hr.filled (heq ▸ hp)
      simp [spoken, CompletionCall.encrypts, htext, hp, hne]

theorem Spends.sent (hn : s.Numbered P log) (hr : s.Receptive log) (hs : Sent P s s' x)
    (h : s.Spends log posted) : s'.Spends (log ++ s.pendingEncrypts) posted := by
  have hspent : ∀ payload, s.state = .established → s.pendingPayload = some payload →
      spoken s.pendingEncrypts = s.pendingPayload.toList := by
    intro payload hest hp
    obtain ⟨keys, _, hk, _⟩ := hn.coherent.established hest
    obtain ⟨cid, hcalls⟩ := pendingEncrypts_eq hn.coherent hest hp hk
    have hne : payload ≠ [] := fun heq => hr.filled (heq ▸ hp)
    rw [hcalls, hp]
    simp [spoken, hne]
  cases hs with
  | idle hi =>
    have hnone : s.pendingEncrypts = [] := by
      unfold pendingEncrypts
      obtain hs | hp := hi
      · split <;> simp_all
      · simp [hp]
    rw [hnone]
    exact h.congr rfl
  | failed hest hp => exact h.spent (hspent _ hest hp) rfl
  | message hest hp => exact h.spent (hspent _ hest hp) rfl

theorem Spends.ticked (hk : Ticked s now s') (h : s.Spends log posted) : s'.Spends log posted := by
  cases hk with
  | idle | dropped => exact h
  | retried =>
    rw [resend_eq]
    exact h

end Session

/-- One more payload, when none is pending. -/
theorem End.act_spends [DecidableEq β] [DecidableEq π] (P : Primitives β π) {x : End β π}
    (h : x.session.Spends x.log x.posted) (payload : List β)
    (hp : x.session.pendingPayload = none) :
    (x.act P (.postPayload payload)).session.Spends (x.act P (.postPayload payload)).log
      (x.act P (.postPayload payload)).posted := by
  simp only [Session.Spends, hp, Option.toList_none, List.append_nil] at h
  by_cases hempty : payload = []
  · simp [Session.Spends, End.act, Session.postPayload_eq, hempty, hp, h]
  · simp [Session.Spends, End.act, Session.postPayload_eq, hempty, h]

/-! ## Two ends and two channels -/

/-- Alice, Bob and what is on the way between them. -/
structure Link (β π : Type) where
  alice : End β π
  bob : End β π
  toBob : List π := []
  toAlice : List π := []

/-- What an end does by itself: Alice calls Bob, draws have the lengths of the calls that make
them, and a payload is posted when none is pending. -/
def Solo (q : Peers P) (x : End β π) : Act β π → Prop
  | .initiate peerKeyId _ e => peerKeyId = q.bobId ∧ e.Fits P
  | .update _ e => e.Fits P
  | .postPayload _ => x.session.pendingPayload = none
  | .getPayload => True
  | .postPdu _ => False
  | .getPdu => False

/-- Alice's next PDU goes on the way. -/
def Link.aliceSends [DecidableEq β] [DecidableEq π] (P : Primitives β π) (w : Link β π) :
    Link β π :=
  { w with
    alice := w.alice.act P .getPdu
    toBob := w.toBob ++ w.alice.session.getPdu.2.toOption.toList }

def Link.bobSends [DecidableEq β] [DecidableEq π] (P : Primitives β π) (w : Link β π) :
    Link β π :=
  { w with
    bob := w.bob.act P .getPdu
    toAlice := w.toAlice ++ w.bob.session.getPdu.2.toOption.toList }

/-- Both channels are empty and nothing waits at either end. -/
structure Link.Idle (w : Link β π) : Prop where
  toBob : w.toBob = []
  toAlice : w.toAlice = []
  aliceQueue : w.alice.session.incomingQueue = []
  bobQueue : w.bob.session.incomingQueue = []
  alicePdus : w.alice.session.outgoingPdus = []
  bobPdus : w.bob.session.outgoingPdus = []
  alicePending : w.alice.session.pendingPayload = none
  bobPending : w.bob.session.pendingPayload = none

/-- The payloads that have come out of a session or wait to be taken from it. -/
def End.delivered (x : End β π) : List (List β) := x.surfaced ++ x.session.outgoingPayloads

section
variable [DecidableEq β] [DecidableEq π]

/-- Runs over channels that lose nothing and keep the order. -/
inductive Reliable (q : Peers P) : Link β π → Prop
  | start (ownKeyId : Option (KeyId β)) : Reliable q { alice := q.alice, bob := q.bob ownKeyId }
  | alice {w} (act : Act β π) : Reliable q w → Solo q w.alice act →
      Reliable q { w with alice := w.alice.act P act }
  | bob {w} (act : Act β π) : Reliable q w → Solo q w.bob act →
      Reliable q { w with bob := w.bob.act P act }
  | aliceSends {w} : Reliable q w → Reliable q (w.aliceSends P)
  | bobSends {w} : Reliable q w → Reliable q (w.bobSends P)
  | aliceHears {w der rest} : Reliable q w → w.toAlice = der :: rest →
      Reliable q { w with alice := w.alice.act P (.postPdu der), toAlice := rest }
  | bobHears {w der rest} : Reliable q w → w.toBob = der :: rest →
      Reliable q { w with bob := w.bob.act P (.postPdu der), toBob := rest }

end

/-- The transcript, the PDUs on the way in order, and the payloads posted. -/
structure Ordered (q : Peers P) (t : Progress q) (w : Link β π) : Prop where
  linked : Linked q t w.alice w.bob
  fromAlice : ∀ der ∈ w.toBob, der ∈ w.alice.emitted
  fromBob : ∀ der ∈ w.toAlice, der ∈ w.bob.emitted
  toBob : w.bob.session.state ≠ .dropped → Reads P w.bob.session.expects
    (w.bob.session.incomingQueue ++ w.toBob ++ w.alice.session.outgoingPdus) w.alice.session.writes
  toAlice : w.alice.session.state ≠ .dropped → Reads P w.alice.session.expects
    (w.alice.session.incomingQueue ++ w.toAlice ++ w.bob.session.outgoingPdus) w.bob.session.writes
  aliceSpends : w.alice.session.Spends w.alice.log w.alice.posted
  bobSpends : w.bob.session.Spends w.bob.log w.bob.posted

section
variable {t : Progress q} {w : Link β π} {s s' : Session β π} {now : Int} {e : Entropy β}
  {x : Option PyError}

theorem Session.Sent.expects (hs : Session.Sent P s s' x) : s'.expects = s.expects := by
  cases hs with
  | idle | failed => rfl
  | message =>
    rw [Session.countSent_eq]
    cases hr : s.role <;> simp [Session.expects, Session.recvCount, hr]

/-- Unless it drops the session, the clock leaves what is expected. -/
theorem Session.Ticked.expects (hk : Session.Ticked s now s') (hd : s'.state ≠ .dropped) :
    s'.expects = s.expects := by
  cases hk with
  | idle => rfl
  | dropped => exact absurd rfl hd
  | retried => rw [Session.resend_eq]; rfl

/-- What an end writes goes to the end of its channel. -/
theorem Reads.written {i : Option Nat} {ders : List π} (h : Reads P i (ders ++ s.outgoingPdus) s.writes)
    (hw : ∃ more, s'.outgoingPdus = s.outgoingPdus ++ more ∧ Reads P s.writes more s'.writes) :
    Reads P i (ders ++ s'.outgoingPdus) s'.writes := by
  obtain ⟨more, ho, hmore⟩ := hw
  rw [ho, ← List.append_assoc, reads_append]
  exact ⟨_, h, hmore⟩

/-- What an end takes comes from the head of its channel. -/
theorem Reads.taken [DecidableEq β] [DecidableEq π] (hP : P.Correct) {more : List π}
    {j : Option Nat} (h : Reads P s.expects (s.incomingQueue ++ more) j)
    (htakes : ∀ der rest k, s.incomingQueue = der :: rest → readOne P s.expects der = some k →
      (s.takeIncoming P now e).1.expects = k) :
    Reads P (s.takeIncoming P now e).1.expects
      ((s.takeIncoming P now e).1.incomingQueue ++ more) j := by
  rw [(Session.takeIncoming_took hP.encrypt_ne_nil s now e).queue]
  cases hq : s.incomingQueue with
  | nil =>
    rw [hq] at h
    have hidle : s.takeIncoming P now e = (s, none) := by
      unfold Session.takeIncoming
      simp only [hq]
    rw [hidle]
    exact h
  | cons der rest =>
    rw [hq, List.cons_append, reads_cons] at h
    obtain ⟨k, hk, hrest⟩ := h
    rw [htakes der rest k hq hk]
    exact hrest

/-! ## The invariant -/

/-- Alice's end after some part of an update. -/
def Link.withAlice (w : Link β π) (s : Session β π) (log : List (EncryptCall β)) : Link β π :=
  { w with alice := { w.alice with session := s, log } }

def Link.withBob (w : Link β π) (s : Session β π) (log : List (EncryptCall β)) : Link β π :=
  { w with bob := { w.bob with session := s, log } }

section
variable (hP : P.Correct)
include hP

theorem Ordered.alice_took [DecidableEq β] [DecidableEq π] (h : Ordered q t w)
    (hd : w.alice.session.state ≠ .dropped) (now : Int) (e : Entropy β) :
    ∃ t', Ordered q t' (w.withAlice (w.alice.session.takeIncoming P now e).1
      (w.alice.log ++ w.alice.session.takenEncrypts P e)) := by
  have ht := Session.takeIncoming_encrypting hP.encrypt_ne_nil w.alice.session now e
  obtain ⟨t', hl⟩ := h.linked.alice_took hP hd ht
  refine ⟨t', hl, h.fromAlice, h.fromBob, fun hb => ?_, fun _ => ?_, ?_, h.bobSpends⟩
  · exact (h.toBob hb).written (h.linked.alice_took_writes hP hd ht)
  · have hread := h.toAlice hd
    rw [List.append_assoc] at hread ⊢
    exact hread.taken hP fun der rest k hq hk => (h.linked.alice_takes hP hd hq hk).2
  · exact h.aliceSpends.took h.linked.aliceRec ht

theorem Ordered.bob_took [DecidableEq β] [DecidableEq π] (h : Ordered q t w)
    (hd : w.bob.session.state ≠ .dropped) (now : Int) {e : Entropy β} (he : e.Fits P) :
    ∃ t', Ordered q t' (w.withBob (w.bob.session.takeIncoming P now e).1
      (w.bob.log ++ w.bob.session.takenEncrypts P e)) := by
  have ht := Session.takeIncoming_encrypting hP.encrypt_ne_nil w.bob.session now e
  obtain ⟨t', hl⟩ := h.linked.bob_took hP he hd ht
  refine ⟨t', hl, h.fromAlice, h.fromBob, fun _ => ?_, fun ha => ?_, h.aliceSpends, ?_⟩
  · have hread := h.toBob hd
    rw [List.append_assoc] at hread ⊢
    exact hread.taken hP fun der rest k hq hk => (h.linked.bob_takes hP he hd hq hk).2
  · exact (h.toAlice ha).written (h.linked.bob_took_writes hP he hd ht)
  · exact h.bobSpends.took h.linked.bobRec ht

theorem Ordered.alice_sent (h : Ordered q t w) (hs : Session.Sent P w.alice.session s' x) :
    Ordered q t (w.withAlice s' (w.alice.log ++ w.alice.session.pendingEncrypts)) := by
  obtain ⟨hstate, hqueue⟩ := hs.frame
  refine ⟨h.linked.alice_sent hs, h.fromAlice, h.fromBob, fun hb => ?_, fun ha => ?_, ?_,
    h.bobSpends⟩
  · exact (h.toBob hb).written (h.linked.alice_sent_writes hP hs)
  · simp only [Link.withAlice] at ha ⊢
    rw [hs.expects, hqueue]
    exact h.toAlice (hstate ▸ ha)
  · exact h.aliceSpends.sent h.linked.aliceLog h.linked.aliceRec hs

theorem Ordered.bob_sent (h : Ordered q t w) (hs : Session.Sent P w.bob.session s' x) :
    Ordered q t (w.withBob s' (w.bob.log ++ w.bob.session.pendingEncrypts)) := by
  obtain ⟨hstate, hqueue⟩ := hs.frame
  refine ⟨h.linked.bob_sent hs, h.fromAlice, h.fromBob, fun hb => ?_, fun ha => ?_, h.aliceSpends,
    ?_⟩
  · simp only [Link.withBob] at hb ⊢
    rw [hs.expects, hqueue]
    exact h.toBob (hstate ▸ hb)
  · exact (h.toAlice ha).written (h.linked.bob_sent_writes hP hs)
  · exact h.bobSpends.sent h.linked.bobLog h.linked.bobRec hs

theorem Ordered.alice_ticked (h : Ordered q t w) (hd : w.alice.session.state ≠ .dropped)
    (hk : Session.Ticked w.alice.session now s') :
    Ordered q t (w.withAlice s' w.alice.log) := by
  refine ⟨h.linked.alice_ticked hd hk, h.fromAlice, h.fromBob, fun hb => ?_, fun ha => ?_, ?_,
    h.bobSpends⟩
  · exact (h.toBob hb).written (ticked_writes (h.linked.aliceAt.resends hP hd) hk)
  · simp only [Link.withAlice] at ha ⊢
    rw [hk.expects ha, hk.frame.2]
    exact h.toAlice hd
  · exact h.aliceSpends.ticked hk

theorem Ordered.bob_ticked (h : Ordered q t w) (hd : w.bob.session.state ≠ .dropped)
    (hk : Session.Ticked w.bob.session now s') :
    Ordered q t (w.withBob s' w.bob.log) := by
  refine ⟨h.linked.bob_ticked hd hk, h.fromAlice, h.fromBob, fun hb => ?_, fun ha => ?_,
    h.aliceSpends, ?_⟩
  · simp only [Link.withBob] at hb ⊢
    rw [hk.expects hb, hk.frame.2]
    exact h.toBob hd
  · exact (h.toAlice ha).written (ticked_writes (h.linked.bobAt.resends hP hd) hk)
  · exact h.bobSpends.ticked hk

variable [DecidableEq β] [DecidableEq π]

theorem Ordered.alice_update (h : Ordered q t w) (now : Int) (e : Entropy β) :
    ∃ t', Ordered q t' { w with alice := w.alice.act P (.update now e) } := by
  refine Session.update_parts (I := fun s log => ∃ t', Ordered q t' (w.withAlice s log))
    (fun hd h => ?_) (fun s₁ s' x log hs h => ?_) (fun s₁ s' log hd hk h => ?_) ⟨t, h⟩
  · exact h.elim fun t' h => h.alice_took hP hd now e
  · exact h.elim fun t' h => ⟨t', h.alice_sent hP hs⟩
  · exact h.elim fun t' h => ⟨t', h.alice_ticked hP hd hk⟩

theorem Ordered.bob_update (h : Ordered q t w) (now : Int) {e : Entropy β} (he : e.Fits P) :
    ∃ t', Ordered q t' { w with bob := w.bob.act P (.update now e) } := by
  refine Session.update_parts (I := fun s log => ∃ t', Ordered q t' (w.withBob s log))
    (fun hd h => ?_) (fun s₁ s' x log hs h => ?_) (fun s₁ s' log hd hk h => ?_) ⟨t, h⟩
  · exact h.elim fun t' h => h.bob_took hP hd now he
  · exact h.elim fun t' h => ⟨t', h.bob_sent hP hs⟩
  · exact h.elim fun t' h => ⟨t', h.bob_ticked hP hd hk⟩

/-- A call of Alice's is the first PDU on the way. -/
theorem Linked.alice_initiate_writes {a b : End β π} (h : Linked q t a b) (now : Int)
    {e : Entropy β} (he : e.Fits P) :
    ∃ ders, (a.act P (.initiate q.bobId now e)).session.outgoingPdus =
        a.session.outgoingPdus ++ ders ∧
      Reads P a.session.writes ders (a.act P (.initiate q.bobId now e)).session.writes := by
  by_cases hs : a.session.state = .initial
  · obtain ⟨hoffer, _⟩ := h.aliceAt.silentPhase hs
    have hkeys := h.aliceLog.unkeyed (.inl hs)
    obtain ⟨o, _, heq⟩ := initiate_offer hP hs h.aliceAt.identity now he
    simp only [End.act, heq]
    split
    · exact reads_quiet rfl rfl
    · refine ⟨[o.pdu], rfl, ?_⟩
      simp only [Session.writes, hkeys, Option.map_none]
      exact reads_singleton.mpr (o.readOne_pdu hP)
  · have hpass : (a.session.initiate P q.bobId now e).1 = a.session := by
      simp [Session.initiate, hs, h.aliceAt.role]
    simp only [End.act, hpass]
    exact reads_quiet rfl rfl

theorem Linked.alice_initiate_expects {a b : End β π} (h : Linked q t a b) (now : Int)
    {e : Entropy β} (he : e.Fits P) :
    (a.act P (.initiate q.bobId now e)).session.expects = a.session.expects := by
  by_cases hs : a.session.state = .initial
  · obtain ⟨o, _, heq⟩ := initiate_offer hP hs h.aliceAt.identity now he
    have hearly : a.session.expects = none := Session.expects_early (by simp [hs])
    rw [hearly]
    apply Session.expects_early
    simp only [End.act, heq]
    split
    · simp [hs]
    · simp
  · have hpass : (a.session.initiate P q.bobId now e).1 = a.session := by
      simp [Session.initiate, hs, h.aliceAt.role]
    simp only [End.act, hpass]

theorem Ordered.alice_act (h : Ordered q t w) (act : Act β π) (hsolo : Solo q w.alice act) :
    ∃ t', Ordered q t' { w with alice := w.alice.act P act } := by
  have hlinked : Delivers q w.bob act → ∃ t', Linked q t' (w.alice.act P act) w.bob :=
    h.linked.alice_act hP act
  cases act with
  | initiate peerKeyId now e =>
    obtain ⟨rfl, he⟩ := hsolo
    obtain ⟨t', hl⟩ := hlinked ⟨rfl, he⟩
    obtain ⟨hi, _, hq, hest⟩ := End.initiate_inbound (P := P) w.alice.session q.bobId now e
    simp only [Session.inbound, Prod.mk.injEq] at hi
    refine ⟨t', hl, h.fromAlice, h.fromBob, fun hb => ?_, fun ha => ?_, ?_, h.bobSpends⟩
    · exact (h.toBob hb).written (h.linked.alice_initiate_writes hP now he)
    · have hexpects := h.linked.alice_initiate_expects hP now he
      simp only [End.act] at ha hexpects ⊢
      rw [hexpects, hq]
      apply h.toAlice
      intro hd
      apply ha
      simp [Session.initiate, hd, h.linked.aliceAt.role]
    · simp only [Session.Spends, End.act, hi.2.2.2]
      exact h.aliceSpends
  | update now e => exact h.alice_update hP now e
  | postPayload payload =>
    obtain ⟨t', hl⟩ := hlinked trivial
    refine ⟨t', hl, h.fromAlice, h.fromBob, fun hb => ?_, fun ha => ?_, ?_, h.bobSpends⟩
    · simp only [End.act, Session.postPayload_eq]
      exact h.toBob hb
    · simp only [End.act, Session.postPayload_eq] at ha ⊢
      exact h.toAlice ha
    · exact End.act_spends P h.aliceSpends payload hsolo
  | getPayload =>
    obtain ⟨t', hl⟩ := hlinked trivial
    refine ⟨t', hl, h.fromAlice, h.fromBob, fun hb => ?_, fun ha => ?_, ?_, h.bobSpends⟩
    all_goals simp only [End.act, Session.getPayload] at *
    · split <;> exact h.toBob hb
    · split at ha <;> exact h.toAlice ha
    · split <;> exact h.aliceSpends
  | postPdu => cases hsolo
  | getPdu => cases hsolo

theorem Ordered.bob_act (h : Ordered q t w) (act : Act β π) (hsolo : Solo q w.bob act) :
    ∃ t', Ordered q t' { w with bob := w.bob.act P act } := by
  have hlinked : Delivers q w.alice act → ∃ t', Linked q t' w.alice (w.bob.act P act) :=
    h.linked.bob_act hP act
  cases act with
  | initiate peerKeyId now e =>
    have hpass : (w.bob.session.initiate P peerKeyId now e).1 = w.bob.session := by
      simp [Session.initiate, h.linked.bobAt.role]
    refine ⟨t, ?_⟩
    simp only [End.act, hpass]
    exact h
  | update now e => exact h.bob_update hP now hsolo
  | postPayload payload =>
    obtain ⟨t', hl⟩ := hlinked trivial
    refine ⟨t', hl, h.fromAlice, h.fromBob, fun hb => ?_, fun ha => ?_, h.aliceSpends, ?_⟩
    · simp only [End.act, Session.postPayload_eq] at hb ⊢
      exact h.toBob hb
    · simp only [End.act, Session.postPayload_eq]
      exact h.toAlice ha
    · exact End.act_spends P h.bobSpends payload hsolo
  | getPayload =>
    obtain ⟨t', hl⟩ := hlinked trivial
    refine ⟨t', hl, h.fromAlice, h.fromBob, fun hb => ?_, fun ha => ?_, h.aliceSpends, ?_⟩
    all_goals simp only [End.act, Session.getPayload] at *
    · split at hb <;> exact h.toBob hb
    · split <;> exact h.toAlice ha
    · split <;> exact h.bobSpends
  | postPdu => cases hsolo
  | getPdu => cases hsolo

theorem Ordered.aliceSends (h : Ordered q t w) : ∃ t', Ordered q t' (w.aliceSends P) := by
  obtain ⟨t', hl⟩ := h.linked.alice_act hP .getPdu trivial
  refine ⟨t', hl, ?_, h.fromBob, fun hb => ?_, fun ha => ?_, ?_, h.bobSpends⟩
  · intro der hder
    obtain hder | hder := List.mem_append.mp hder
    · exact List.mem_append_left _ (h.fromAlice der hder)
    · exact List.mem_append_right _ hder
  · have hread := h.toBob hb
    simp only [Link.aliceSends, End.act, Session.getPdu] at hread ⊢
    split
    · simpa [Except.toOption] using hread
    · rename_i der rest hq
      rw [hq] at hread
      simpa [Except.toOption, Session.writes, Session.sendCount] using hread
  · simp only [Link.aliceSends, End.act, Session.getPdu] at ha ⊢
    split at ha <;> exact h.toAlice ha
  · simp only [Link.aliceSends, End.act, Session.getPdu]
    split <;> exact h.aliceSpends

theorem Ordered.bobSends (h : Ordered q t w) : ∃ t', Ordered q t' (w.bobSends P) := by
  obtain ⟨t', hl⟩ := h.linked.bob_act hP .getPdu trivial
  refine ⟨t', hl, h.fromAlice, ?_, fun hb => ?_, fun ha => ?_, h.aliceSpends, ?_⟩
  · intro der hder
    obtain hder | hder := List.mem_append.mp hder
    · exact List.mem_append_left _ (h.fromBob der hder)
    · exact List.mem_append_right _ hder
  · simp only [Link.bobSends, End.act, Session.getPdu] at hb ⊢
    split at hb <;> exact h.toBob hb
  · have hread := h.toAlice ha
    simp only [Link.bobSends, End.act, Session.getPdu] at hread ⊢
    split
    · simpa [Except.toOption] using hread
    · rename_i der rest hq
      rw [hq] at hread
      simpa [Except.toOption, Session.writes, Session.sendCount] using hread
  · simp only [Link.bobSends, End.act, Session.getPdu]
    split <;> exact h.bobSpends

theorem Ordered.aliceHears (h : Ordered q t w) {der : π} {rest : List π}
    (hw : w.toAlice = der :: rest) :
    ∃ t', Ordered q t' { w with alice := w.alice.act P (.postPdu der), toAlice := rest } := by
  have hmem : ∀ d ∈ rest, d ∈ w.toAlice := fun d hd => hw ▸ List.mem_cons_of_mem _ hd
  obtain ⟨t', hl⟩ := h.linked.alice_act hP (.postPdu der) (h.fromBob der (hw ▸ List.mem_cons_self))
  refine ⟨t', hl, h.fromAlice, fun d hd => h.fromBob d (hmem d hd), h.toBob, fun ha => ?_,
    h.aliceSpends, h.bobSpends⟩
  have hread := h.toAlice ha
  rw [hw] at hread
  change Reads P w.alice.session.expects
    (w.alice.session.incomingQueue ++ [der] ++ rest ++ w.bob.session.outgoingPdus) _
  simpa using hread

theorem Ordered.bobHears (h : Ordered q t w) {der : π} {rest : List π}
    (hw : w.toBob = der :: rest) :
    ∃ t', Ordered q t' { w with bob := w.bob.act P (.postPdu der), toBob := rest } := by
  have hmem : ∀ d ∈ rest, d ∈ w.toBob := fun d hd => hw ▸ List.mem_cons_of_mem _ hd
  obtain ⟨t', hl⟩ := h.linked.bob_act hP (.postPdu der) (h.fromAlice der (hw ▸ List.mem_cons_self))
  refine ⟨t', hl, fun d hd => h.fromAlice d (hmem d hd), h.fromBob, fun hb => ?_, h.toAlice,
    h.aliceSpends, h.bobSpends⟩
  have hread := h.toBob hb
  rw [hw] at hread
  change Reads P w.bob.session.expects
    (w.bob.session.incomingQueue ++ [der] ++ rest ++ w.alice.session.outgoingPdus) _
  simpa using hread

omit hP [DecidableEq β] [DecidableEq π] in
theorem ordered_start (q : Peers P) (ownKeyId : Option (KeyId β)) :
    Ordered q .silent { alice := q.alice, bob := q.bob ownKeyId } where
  linked := linked_start q ownKeyId
  fromAlice _ h := by cases h
  fromBob _ h := by cases h
  toBob _ := reads_nil.mpr rfl
  toAlice _ := reads_nil.mpr rfl
  aliceSpends := rfl
  bobSpends := rfl

theorem Reliable.ordered (h : Reliable q w) : ∃ t, Ordered q t w := by
  induction h with
  | start ownKeyId => exact ⟨.silent, ordered_start q ownKeyId⟩
  | alice act _ hs ih => exact ih.elim fun _ h => h.alice_act hP act hs
  | bob act _ hs ih => exact ih.elim fun _ h => h.bob_act hP act hs
  | aliceSends _ ih => exact ih.elim fun _ h => h.aliceSends hP
  | bobSends _ ih => exact ih.elim fun _ h => h.bobSends hP
  | aliceHears _ hw ih => exact ih.elim fun _ h => h.aliceHears hP hw
  | bobHears _ hw ih => exact ih.elim fun _ h => h.bobHears hP hw

end

end

/-! ## The guarantee -/

/-- What one end has delivered begins what was posted at the other, and is all of it once
nothing is on the way. -/
theorem Heard.delivered {r s : End β π} (h : Heard P r s) (hn : s.session.Numbered P s.log)
    (hs : s.session.Spends s.log s.posted) : r.delivered <+: s.posted ∧
      (r.session.recvCount = s.session.sendCount → s.log.length ≤ seqLimit →
        s.session.pendingPayload = none → r.delivered = s.posted) := by
  have hdelivered : r.delivered = spoken (s.log.take (min seqLimit r.session.recvCount)) :=
    h.2.trans (hn.encrypted_take _)
  rw [hdelivered, hs]
  constructor
  · exact (spoken_take _ _).trans ( List.prefix_append _ _)
  · intro hcount hle hpending
    have hall : r.session.recvCount = s.log.length := by
      rw [hcount, hn.counted]
      omega
    rw [hall, Nat.min_eq_right hle, List.take_length, hpending]
    simp

namespace Session
variable [DecidableEq β] [DecidableEq π] {s : Session β π} {now : Int} {e : Entropy β}

/-- Once what came is taken, only a number without a nonce raises. -/
theorem update_raises (hP : P.Correct) (hc : s.Coherent P) (hd : s.state ≠ .dropped)
    (ht : (s.takeIncoming P now e).2 = none) :
    (∃ x, (s.update P now e).2 = .error x) ↔ s.Overflows := by
  have htook := takeIncoming_took hP.encrypt_ne_nil s now e
  rw [ht] at htook
  have hsend := sendPending_raises (htook.coherent hP hc)
  rw [htook.overflows hc] at hsend
  unfold update
  simp only [hd, ↓reduceIte]
  rcases h₁ : s.takeIncoming P now e with ⟨s₁, x⟩
  rw [h₁] at ht hsend
  cases ht
  simp only
  rcases h₂ : s₁.sendPending P with ⟨s₂, y⟩
  rw [h₂] at hsend
  obtain ⟨hy, ho⟩ | ⟨hy, ho⟩ := hsend
  · cases hy
    simp only [ho, iff_false]
    rintro ⟨x, hx⟩
    split at hx <;> cases hx
  · cases hy
    exact iff_of_true ⟨_, rfl⟩ ho

omit [DecidableEq β] [DecidableEq π] in
theorem Numbered.writes_established {log : List (EncryptCall β)} (h : s.Numbered P log)
    (hs : s.state = .established) : s.writes = some s.sendCount := by
  obtain ⟨keys, _, hk, _⟩ := h.coherent.established hs
  simp [writes, hk]

theorem takeIncoming_idle (hq : s.incomingQueue = []) : s.takeIncoming P now e = (s, none) := by
  unfold takeIncoming
  simp only [hq]

/-- A dropped session neither raises nor sends. -/
theorem update_dropped_returns (hd : s.state = .dropped) :
    (∃ x, (s.update P now e).2 = .error x) ↔ s.Overflows := by
  rw [update_dropped hd]
  simp [Overflows, hd]

end Session

section
variable [DecidableEq β] [DecidableEq π] {t : Progress q} {w : Link β π} (hP : P.Correct)
include hP

theorem Ordered.alice_raises (h : Ordered q t w) (now : Int) (e : Entropy β) :
    (∃ x, (w.alice.session.update P now e).2 = .error x) ↔ w.alice.session.Overflows := by
  by_cases hd : w.alice.session.state = .dropped
  · exact Session.update_dropped_returns hd
  apply Session.update_raises hP h.linked.aliceLog.coherent hd
  cases hq : w.alice.session.incomingQueue with
  | nil => rw [Session.takeIncoming_idle hq]
  | cons der rest =>
    have hread := h.toAlice hd
    rw [hq, List.cons_append, List.cons_append, reads_cons] at hread
    obtain ⟨k, hk, _⟩ := hread
    exact (h.linked.alice_takes hP hd hq hk).1

theorem Ordered.bob_raises (h : Ordered q t w) (now : Int) {e : Entropy β} (he : e.Fits P) :
    (∃ x, (w.bob.session.update P now e).2 = .error x) ↔ w.bob.session.Overflows ∨
      w.bob.session.state = .initial ∧ w.bob.session.incomingQueue ≠ [] ∧ ¬ q.Common := by
  by_cases hd : w.bob.session.state = .dropped
  · simp only [Session.update_dropped_returns hd, hd, reduceCtorEq, false_and, or_false]
  have hraises : (w.bob.session.takeIncoming P now e).2 = none → _ :=
    Session.update_raises hP h.linked.bobLog.coherent hd
  cases hq : w.bob.session.incomingQueue with
  | nil =>
    rw [Session.takeIncoming_idle hq] at hraises
    simpa using hraises rfl
  | cons der rest =>
    have hread := h.toBob hd
    rw [hq, List.cons_append, List.cons_append, reads_cons] at hread
    obtain ⟨k, hk, _⟩ := hread
    have htakes : (w.bob.session.takeIncoming P now e).2 = none ↔ _ :=
      (h.linked.bob_takes hP he hd hq hk).1
    by_cases hok : w.bob.session.state ≠ .initial ∨ q.Common
    · have hno : ¬ (w.bob.session.state = .initial ∧ der :: rest ≠ [] ∧ ¬ q.Common) :=
        fun ⟨hs, _, hc⟩ => hok.elim (absurd hs) hc
      rw [hraises (htakes.mpr hok), or_iff_left hno]
    · obtain ⟨hs, hc⟩ := not_or.mp hok
      have hs := not_not.mp hs
      refine iff_of_true ?_ (.inr ⟨hs, by simp, hc⟩)
      cases hx : (w.bob.session.takeIncoming P now e).2 with
      | none => exact absurd (htakes.mp hx) hok
      | some x =>
        refine ⟨x, ?_⟩
        unfold Session.update
        simp only [hd, ↓reduceIte]
        rcases hu : w.bob.session.takeIncoming P now e with ⟨s₁, y⟩
        rw [hu] at hx
        cases hx
        rfl

/-- What is delivered begins what was posted; an update raises for want of a number or of a
common AEAD only; and when nothing is on the way all of it has been delivered. -/
theorem reliable_delivery (h : Reliable q w) :
    (w.bob.delivered <+: w.alice.posted ∧ w.alice.delivered <+: w.bob.posted) ∧
    (∀ now e, e.Fits P →
      ((∃ x, (w.alice.session.update P now e).2 = .error x) ↔ w.alice.session.Overflows) ∧
      ((∃ x, (w.bob.session.update P now e).2 = .error x) ↔ w.bob.session.Overflows ∨
        w.bob.session.state = .initial ∧ w.bob.session.incomingQueue ≠ [] ∧ ¬ q.Common)) ∧
    (w.alice.session.state = .established → w.bob.session.state = .established → w.Idle →
      (w.alice.log.length ≤ seqLimit → w.bob.delivered = w.alice.posted) ∧
      (w.bob.log.length ≤ seqLimit → w.alice.delivered = w.bob.posted)) := by
  obtain ⟨t, h⟩ := h.ordered hP
  have hl := h.linked
  have hbob := hl.bobHeard.delivered hl.aliceLog h.aliceSpends
  have halice := hl.aliceHeard.delivered hl.bobLog h.bobSpends
  refine ⟨⟨hbob.1, halice.1⟩, fun now e he => ⟨h.alice_raises hP now e, h.bob_raises hP now he⟩, ?_⟩
  intro ha hb hidle
  have hA := h.toBob (by simp [hb])
  have hB := h.toAlice (by simp [ha])
  rw [hidle.bobQueue, hidle.toBob, hidle.alicePdus, List.append_nil, List.append_nil, reads_nil,
    hl.aliceLog.writes_established ha, Session.expects_established hb, Option.some.injEq] at hA
  rw [hidle.aliceQueue, hidle.toAlice, hidle.bobPdus, List.append_nil, List.append_nil, reads_nil,
    hl.bobLog.writes_established hb, Session.expects_established ha, Option.some.injEq] at hB
  exact ⟨fun hle => hbob.2 hA hle hidle.alicePending, fun hle => halice.2 hB hle hidle.bobPending⟩

end

/-! ## Runs -/

/-- Bob gets the next PDU on the way and updates. -/
def Link.bobGets (w : Link Sym Pdu) (k : Nat) : Link Sym Pdu :=
  match w.toBob with
  | [] => w
  | der :: rest => { w with bob := w.bob.hear der k, toBob := rest }

def Link.aliceGets (w : Link Sym Pdu) (k : Nat) : Link Sym Pdu :=
  match w.toAlice with
  | [] => w
  | der :: rest => { w with alice := w.alice.hear der k, toAlice := rest }

theorem Reliable.bobGets {q : Peers ideal} {w : Link Sym Pdu} (h : Reliable q w) (k : Nat) :
    Reliable q (w.bobGets k) := by
  unfold Link.bobGets
  split
  · exact h
  · rename_i der rest hw
    exact (h.bobHears hw).bob (.update 0 (draw k)) (draw_fits k)

theorem Reliable.aliceGets {q : Peers ideal} {w : Link Sym Pdu} (h : Reliable q w) (k : Nat) :
    Reliable q (w.aliceGets k) := by
  unfold Link.aliceGets
  split
  · exact h
  · rename_i der rest hw
    exact (h.aliceHears hw).alice (.update 0 (draw k)) (draw_fits k)

def Link.fresh (q : Peers ideal) : Link Sym Pdu := { alice := q.alice, bob := q.bob none }

def Link.alicePosts (w : Link Sym Pdu) (payload : List Sym) : Link Sym Pdu :=
  { w with alice := w.alice.act ideal (.postPayload payload) }

def Link.bobPosts (w : Link Sym Pdu) (payload : List Sym) : Link Sym Pdu :=
  { w with bob := w.bob.act ideal (.postPayload payload) }

def Link.aliceCalls (w : Link Sym Pdu) (q : Peers ideal) : Link Sym Pdu :=
  { w with alice := w.alice.act ideal (.initiate q.bobId 0 (draw 0)) }

/-- The retry interval is over before the answer. -/
def Link.aliceRetries (w : Link Sym Pdu) : Link Sym Pdu :=
  { w with alice := w.alice.act ideal (.update 1000 (draw 1)) }

section
variable {q : Peers ideal} {w : Link Sym Pdu} (h : Reliable q w)
include h

theorem Reliable.alicePosts (payload : List Sym) (hp : w.alice.session.pendingPayload = none) :
    Reliable q (w.alicePosts payload) :=
  h.alice (.postPayload payload) hp

theorem Reliable.bobPosts (payload : List Sym) (hp : w.bob.session.pendingPayload = none) :
    Reliable q (w.bobPosts payload) :=
  h.bob (.postPayload payload) hp

theorem Reliable.aliceCalls : Reliable q (w.aliceCalls q) :=
  h.alice (.initiate q.bobId 0 (draw 0)) ⟨rfl, draw_fits 0⟩

theorem Reliable.aliceRetries : Reliable q w.aliceRetries :=
  h.alice (.update 1000 (draw 1)) (draw_fits 1)

end

/-- The request goes out twice, and so does every PDU of the handshake after it. -/
def twiceAsked : Link Sym Pdu :=
  ((((Link.fresh samplePeers).alicePosts [.octet 1]).aliceCalls samplePeers).aliceSends
    ideal).aliceRetries.aliceSends ideal
def twiceAnswered : Link Sym Pdu :=
  (((twiceAsked.bobGets 2).bobSends ideal).bobGets 3).bobSends ideal
def twiceCompleted : Link Sym Pdu :=
  (((twiceAnswered.aliceGets 4).aliceSends ideal).aliceGets 5).aliceSends ideal
def twiceReplied : Link Sym Pdu :=
  (((((twiceCompleted.bobPosts [.octet 2]).bobGets 6).bobSends ideal).bobGets 7).bobSends ideal)
def allDelivered : Link Sym Pdu :=
  ((((twiceReplied.alicePosts [.octet 3]).aliceGets 8).aliceSends ideal).aliceGets 9).bobGets 10

theorem reliable_allDelivered : Reliable samplePeers allDelivered := by
  have h : Reliable samplePeers (Link.fresh samplePeers) := .start none
  have h : Reliable samplePeers twiceAsked :=
    ((h.alicePosts [.octet 1] rfl).aliceCalls.aliceSends.aliceRetries).aliceSends
  have h : Reliable samplePeers twiceAnswered := ((h.bobGets 2).bobSends.bobGets 3).bobSends
  have h : Reliable samplePeers twiceCompleted :=
    ((h.aliceGets 4).aliceSends.aliceGets 5).aliceSends
  have h : Reliable samplePeers twiceReplied :=
    (((h.bobPosts [.octet 2] (by decide +kernel)).bobGets 6).bobSends.bobGets 7).bobSends
  exact ((((h.alicePosts [.octet 3] (by decide +kernel)).aliceGets 8).aliceSends.aliceGets
    9).bobGets 10)

theorem idle_allDelivered : allDelivered.Idle := by
  constructor <;> decide +kernel

theorem reliable_delivery_sample : allDelivered.bob.delivered = allDelivered.alice.posted ∧
    allDelivered.alice.delivered = allDelivered.bob.posted := by
  have h := (reliable_delivery Ideal.ideal_correct reliable_allDelivered).2.2 (by decide +kernel)
    (by decide +kernel) idle_allDelivered
  exact ⟨h.1 (by decide +kernel), h.2 (by decide +kernel)⟩

example : allDelivered.bob.delivered = [[.octet 1], [.octet 3]] ∧
    allDelivered.alice.delivered = [[.octet 2]] := by
  decide +kernel

/-! ## Where an update raises -/

/-- An established end with nothing to take has sent its payload after an update. -/
theorem Session.Steady.update_pending [DecidableEq β] [DecidableEq π] {s : Session β π}
    (h : s.Steady) (now : Int) (e : Entropy β) : (s.update P now e).1.pendingPayload = none := by
  have hsent := Session.sendPending_sent (P := P) s
  have hnone : (s.sendPending P).1.pendingPayload = none := by
    generalize (s.sendPending P).1 = s', (s.sendPending P).2 = x at hsent
    cases hsent with
    | idle hi => exact hi.resolve_left (fun hs => hs h.1)
    | failed | message => rfl
  unfold Session.update
  simp only [h.1, reduceCtorEq, ↓reduceIte, Session.takeIncoming_idle h.2]
  rcases hs : s.sendPending P with ⟨s₂, x | _⟩
  · rw [hs] at hnone hsent
    simp only
    split
    · exact hnone
    · have hk := Session.checkDeadline_ticked s₂ now
      generalize s₂.checkDeadline now = s₃ at hk
      cases hk with
      | idle | dropped => exact hnone
      | retried =>
        rw [Session.resend_eq]
        exact hnone
  · rw [hs] at hnone
    exact hnone

theorem Session.Steady.update_of_send [DecidableEq β] [DecidableEq π] {s : Session β π}
    (h : s.Steady) {x : PyError} (hx : (s.sendPending P).2 = some x) (now : Int) (e : Entropy β) :
    (s.update P now e).2 = .error x := by
  unfold Session.update
  simp only [h.1, reduceCtorEq, ↓reduceIte, Session.takeIncoming_idle h.2]
  rcases hs : s.sendPending P with ⟨s₂, y⟩
  rw [hs] at hx
  cases hx
  rfl

section
variable [DecidableEq β] [DecidableEq π] {w : Link β π}

/-- Alice posts a payload and updates, as often as one likes. -/
theorem Reliable.many (hP : P.Correct) (h : Reliable q w) (hs : w.alice.session.Steady)
    (hpending : w.alice.session.pendingPayload = none) {payload : List β} (hp : payload ≠ [])
    {e : Entropy β} (he : e.Fits P) (n : Nat) :
    ∃ w', Reliable q w' ∧ w'.alice.session.Steady ∧ w'.alice.session.pendingPayload = none ∧
      w'.alice.log.length = w.alice.log.length + n := by
  induction n with
  | zero => exact ⟨w, h, hs, hpending, rfl⟩
  | succ n ih =>
    obtain ⟨w', h', hs', hpending', hlen⟩ := ih
    have hpost := h'.alice (.postPayload payload) hpending'
    obtain ⟨t, hord⟩ := hpost.ordered hP
    obtain ⟨hsteady, call, hcalls⟩ := hs'.encrypts hp hord.linked.aliceLog.coherent 0 e
    refine ⟨_, hpost.alice (.update 0 e) he, hsteady.update hP 0 e, hsteady.update_pending 0 e, ?_⟩
    change (w'.alice.log ++ (w'.alice.session.postPayload payload).1.encrypts P 0 e).length = _
    rw [hcalls, List.length_append, List.length_singleton, hlen]
    omega

/-- With 2^96 payloads encrypted the next one raises. -/
theorem Reliable.overflows (hP : P.Correct) (h : Reliable q w) (hs : w.alice.session.Steady)
    (hpending : w.alice.session.pendingPayload = none) {payload : List β} (hp : payload ≠ [])
    {e : Entropy β} (he : e.Fits P) :
    ∃ w', Reliable q w' ∧ (w'.alice.session.update P 0 e).2 = .error .overflowError := by
  obtain ⟨w', h', hs', hpending', hlen⟩ := h.many hP hs hpending hp he seqLimit
  have hpost := h'.alice (.postPayload payload) hpending'
  obtain ⟨t, hord⟩ := hpost.ordered hP
  have hlog := hord.linked.aliceLog
  obtain ⟨hsteady, _⟩ := hs'.encrypts hp hlog.coherent 0 e
  refine ⟨_, hpost, ?_⟩
  obtain ⟨keys, _, hk, _⟩ := hlog.coherent.established hsteady.1
  have hcount := hlog.counted
  have hlimit : (w'.alice.act P (.postPayload payload)).session.sendCount = seqLimit := by
    rw [hcount]
    change min w'.alice.log.length seqLimit = seqLimit
    omega
  have hover : (w'.alice.act P (.postPayload payload)).session.Overflows := by
    refine ⟨hsteady.1, by simp [End.act, Session.postPayload_eq, hp], keys, hk, ?_⟩
    rw [Session.sending_eq, hord.linked.aliceAt.role]
    exact hlimit.ge
  have hraise := (Session.sendPending_raises hlog.coherent).resolve_left fun hno => hno.2 hover
  exact hsteady.update_of_send hraise.1 0 e

end

/-- `samplePeers` without an AEAD in common. -/
def disjointPeers : Peers ideal where
  level := .mlkem768
  aliceId := staticId 0
  bobId := staticId 1
  aliceSeed := [.name (.static 0)]
  bobSeed := [.name (.static 1)]
  aliceKeys := staticLookup 0
  bobKeys := staticLookup 1
  aliceConfig := { acceptableAeads := [.aes256Gcm] }
  bobConfig := { acceptableAeads := [.chacha20Poly1305] }
  aliceSeed_fits := static0_fits
  bobSeed_fits := static1_fits
  alice_private := samplePeers.alice_private
  bob_private := samplePeers.bob_private
  bob_public := samplePeers.bob_public
  alice_public := samplePeers.alice_public
  alice_level := rfl
  bob_level := rfl

/-- Bob has the request and has not updated yet. -/
def disjointlyAsked : Link Sym Pdu :=
  let w := ((Link.fresh disjointPeers).aliceCalls disjointPeers).aliceSends ideal
  { w with bob := w.bob.act ideal (.postPdu w.alice.latest), toBob := [] }

theorem reliable_disjointlyAsked : Reliable disjointPeers disjointlyAsked := by
  have h : Reliable disjointPeers (Link.fresh disjointPeers) := .start none
  exact h.aliceCalls.aliceSends.bobHears (by decide +kernel)

/-- The responder refuses a request without an AEAD of its own; and with one, the payload
after 2^96 of them is refused. -/
theorem reliable_raises :
    (Reliable disjointPeers disjointlyAsked ∧
      (disjointlyAsked.bob.session.update ideal 0 (draw 1)).2 =
        .error (.handshakeFailed .noMutuallyAcceptableAead)) ∧
    ∃ w, Reliable samplePeers w ∧
      (w.alice.session.update ideal 0 (draw 1)).2 = .error .overflowError := by
  refine ⟨⟨reliable_disjointlyAsked, by decide +kernel⟩, ?_⟩
  have hsteady : allDelivered.alice.session.Steady := by constructor <;> decide +kernel
  exact reliable_allDelivered.overflows Ideal.ideal_correct hsteady idle_allDelivered.alicePending
    (List.cons_ne_nil (.octet 4) []) (draw_fits 1)

end KemMake
