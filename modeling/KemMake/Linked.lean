import KemMake.Transcript

/-!
# Two honest ends and what they say

`Linked` ties an initiator, a responder and everything the two have emitted to one
transcript. Each step of either end keeps it, whatever the network does with the PDUs.
-/

namespace KemMake

variable {β π : Type} {P : Primitives β π} {q : Peers P}

/-! ## Each end at its place in the transcript -/

/-- What the handshake leaves in a session. -/
def Session.standing (s : Session β π) : (Role × Option (KeyId β) × KeyLookup β × SessionConfig) ×
    (SessionState × Option (List β) × Option (SessionKeys β)) ×
    (Option (List β) × Option (List β) × Option (List β) × Option (List β)) ×
    (Option (KeyId β) × Option (List β) × Option Aead × Option (List β)) ×
    (Option π × Option π) :=
  (s.identity, (s.state, s.cid, s.sessionKeys), (s.ownEphemeralPrivate, s.s1, s.s2, s.s3),
    (s.peerKeyId, s.nB, s.chosenAead, s.sentPlaintextForHM), (s.lastSent, s.lastReceived))

inductive AlicePhase (t : Progress q) (s : Session β π) : Prop
  | silent : s.state = .initial → t.offer? = none → s.lastSent = none → s.lastReceived = none →
      AlicePhase t s
  | calling (o : Offered q) : s.state = .expectSessionInitResponse → t.offer? = some o →
      t.call? = none → HoldsOffer o s → s.lastSent = some o.pdu → s.lastReceived = none →
      AlicePhase t s
  | called (c : Called q) : s.state = .expectSessionCompletionResponse → t.call? = some c →
      s.cid = some c.cid → s.sentPlaintextForHM = some c.text → s.lastSent = some c.pdu →
      s.lastReceived = some c.toAnswered.pdu → AlicePhase t s
  | established (c : Called q) (reply : Option (List β)) : s.state = .established →
      t.reply? = some (c, reply) → s.cid = some c.cid → s.sentPlaintextForHM = some c.text →
      s.lastSent = none → s.lastReceived = some (c.replyPdu reply) → AlicePhase t s
  | dropped : s.state = .dropped → t.offer? ≠ none → AlicePhase t s

structure AliceAt (t : Progress q) (s : Session β π) : Prop where
  identity : s.identity = (.initiator, some q.aliceId, q.aliceKeys, q.aliceConfig)
  keyed : s.sessionKeys = t.call?.map Called.keys
  phase : AlicePhase t s

inductive BobPhase (t : Progress q) (s : Session β π) : Prop
  | silent : s.state = .initial → t.answer? = none → s.lastSent = none → s.lastReceived = none →
      BobPhase t s
  | waiting (r : Answered q) : s.state = .expectSessionCompletionRequest → t.answer? = some r →
      t.reply? = none → HoldsAnswer r s → s.lastSent = some r.pdu →
      s.lastReceived = some r.toOffered.pdu → BobPhase t s
  | established (c : Called q) (reply : Option (List β)) : s.state = .established →
      t.reply? = some (c, reply) → s.cid = some c.cid → s.lastSent = some (c.replyPdu reply) →
      s.lastReceived = some c.pdu → BobPhase t s
  | dropped : s.state = .dropped → t.answer? ≠ none → t.reply? = none → BobPhase t s

structure BobAt (t : Progress q) (s : Session β π) : Prop where
  role : s.role = .responder
  keys : s.keys = q.bobKeys
  config : s.config = q.bobConfig
  keyed : s.sessionKeys = t.reply?.map fun cr => cr.1.keys
  phase : BobPhase t s

/-- Everything that Alice may have said: her request, her completion request, and the
Messages of her later calls. -/
def AliceSays (t : Progress q) (log : List (EncryptCall β)) (der : π) : Prop :=
  (∃ o, t.offer? = some o ∧ der = o.pdu) ∨ ∃ c, t.call? = some c ∧ (der = c.pdu ∨
    ∃ n call nonce, 1 ≤ n ∧ log[n]? = some call ∧ nonceForSeq P c.keys.ivA2b n = .ok nonce ∧
      der = c.messagePdu c.keys.keyA2b nonce n call.plaintext)

/-- Everything that Bob may have said. -/
def BobSays (t : Progress q) (log : List (EncryptCall β)) (der : π) : Prop :=
  (∃ r, t.answer? = some r ∧ der = r.pdu) ∨ ∃ c reply, t.reply? = some (c, reply) ∧
    (der = c.replyPdu reply ∨
      ∃ n call nonce, log[n]? = some call ∧ nonceForSeq P c.keys.ivB2a n = .ok nonce ∧
        der = c.messagePdu c.keys.keyB2a nonce n call.plaintext)

/-! ## Frames -/

theorem HoldsOffer.congr {o : Offered q} {s s' : Session β π} (h : HoldsOffer o s)
    (hs : s'.standing = s.standing) : HoldsOffer o s' := by
  simp only [Session.standing, Session.identity, Prod.mk.injEq] at hs
  obtain ⟨⟨hr, hown, hkeys, hconfig⟩, ⟨_, hcid, _⟩, ⟨heph, h1, _, _⟩, _⟩ := hs
  exact ⟨hown.trans h.own, hkeys.trans h.keys, hconfig.trans h.config, hcid.trans h.cid,
    heph.trans h.ephemeral, h1.trans h.first⟩

theorem HoldsAnswer.congr {r : Answered q} {s s' : Session β π} (h : HoldsAnswer r s)
    (hs : s'.standing = s.standing) : HoldsAnswer r s' := by
  simp only [Session.standing, Session.identity, Prod.mk.injEq] at hs
  obtain ⟨⟨_, _, _, hconfig⟩, ⟨_, hcid, _⟩, ⟨heph, h1, h2, h3⟩, ⟨hpeer, hnB, haead, _⟩, _⟩ := hs
  exact ⟨hconfig.trans h.config, hcid.trans h.cid, heph.trans h.ephemeral, hpeer.trans h.peer,
    h1.trans h.first, h2.trans h.second, h3.trans h.third, hnB.trans h.nonce, haead.trans h.aead⟩

theorem AliceAt.congr {t t' : Progress q} {s s' : Session β π} (h : AliceAt t s)
    (hs : s'.standing = s.standing) (ho : t'.offer? = t.offer?) (hc : t'.call? = t.call?)
    (hr : ∀ c reply, t.reply? = some (c, reply) → t'.reply? = some (c, reply)) : AliceAt t' s' := by
  have hs' := hs
  simp only [Session.standing, Prod.mk.injEq] at hs'
  obtain ⟨hid, ⟨hstate, hcid, hkeys⟩, _, ⟨_, _, _, htext⟩, hsent, hlast⟩ := hs'
  refine ⟨hid.trans h.identity, by rw [hkeys, hc]; exact h.keyed, ?_⟩
  cases h.phase with
  | silent h1 h2 h3 h4 =>
    exact .silent (hstate.trans h1) (ho.trans h2) (hsent.trans h3) (hlast.trans h4)
  | calling o h1 h2 h3 h4 h5 h6 =>
    exact .calling o (hstate.trans h1) (ho.trans h2) (hc.trans h3) (h4.congr hs) (hsent.trans h5)
      (hlast.trans h6)
  | called c h1 h2 h3 h4 h5 h6 =>
    exact .called c (hstate.trans h1) (hc.trans h2) (hcid.trans h3) (htext.trans h4)
      (hsent.trans h5) (hlast.trans h6)
  | established c reply h1 h2 h3 h4 h5 h6 =>
    exact .established c reply (hstate.trans h1) (hr _ _ h2) (hcid.trans h3) (htext.trans h4)
      (hsent.trans h5) (hlast.trans h6)
  | dropped h1 h2 => exact .dropped (hstate.trans h1) (ho.symm ▸ h2)

theorem BobAt.congr {t t' : Progress q} {s s' : Session β π} (h : BobAt t s)
    (hs : s'.standing = s.standing) (ha : t'.answer? = t.answer?) (hr : t'.reply? = t.reply?) :
    BobAt t' s' := by
  have hs' := hs
  simp only [Session.standing, Session.identity, Prod.mk.injEq] at hs'
  obtain ⟨⟨hrole, _, hk, hconfig⟩, ⟨hstate, hcid, hkeys⟩, _, _, hsent, hlast⟩ := hs'
  refine ⟨hrole.trans h.role, hk.trans h.keys, hconfig.trans h.config,
    by rw [hkeys, hr]; exact h.keyed, ?_⟩
  cases h.phase with
  | silent h1 h2 h3 h4 =>
    exact .silent (hstate.trans h1) (ha.trans h2) (hsent.trans h3) (hlast.trans h4)
  | waiting r h1 h2 h3 h4 h5 h6 =>
    exact .waiting r (hstate.trans h1) (ha.trans h2) (hr.trans h3) (h4.congr hs) (hsent.trans h5)
      (hlast.trans h6)
  | established c reply h1 h2 h3 h4 h5 =>
    exact .established c reply (hstate.trans h1) (hr.trans h2) (hcid.trans h3) (hsent.trans h4)
      (hlast.trans h5)
  | dropped h1 h2 h3 => exact .dropped (hstate.trans h1) (ha.symm ▸ h2) (hr.trans h3)

theorem AliceSays.mono {t t' : Progress q} {log : List (EncryptCall β)} {der : π}
    (h : AliceSays t log der) (ho : ∀ o, t.offer? = some o → t'.offer? = some o)
    (hc : ∀ c, t.call? = some c → t'.call? = some c) (calls : List (EncryptCall β)) :
    AliceSays t' (log ++ calls) der := by
  rcases h with ⟨o, h1, rfl⟩ | ⟨c, h1, rfl | ⟨n, call, nonce, hn, hcall, hnonce, rfl⟩⟩
  · exact .inl ⟨o, ho o h1, rfl⟩
  · exact .inr ⟨c, hc c h1, .inl rfl⟩
  · refine .inr ⟨c, hc c h1, .inr ⟨n, call, nonce, hn, ?_, hnonce, rfl⟩⟩
    rw [List.getElem?_append_left (List.getElem?_eq_some_iff.mp hcall).1]
    exact hcall

theorem BobSays.mono {t t' : Progress q} {log : List (EncryptCall β)} {der : π}
    (h : BobSays t log der) (ha : ∀ r, t.answer? = some r → t'.answer? = some r)
    (hr : ∀ cr, t.reply? = some cr → t'.reply? = some cr) (calls : List (EncryptCall β)) :
    BobSays t' (log ++ calls) der := by
  rcases h with ⟨r, h1, rfl⟩ | ⟨c, reply, h1, rfl | ⟨n, call, nonce, hcall, hnonce, rfl⟩⟩
  · exact .inl ⟨r, ha r h1, rfl⟩
  · exact .inr ⟨c, reply, hr _ h1, .inl rfl⟩
  · refine .inr ⟨c, reply, hr _ h1, .inr ⟨n, call, nonce, ?_, hnonce, rfl⟩⟩
    rw [List.getElem?_append_left (List.getElem?_eq_some_iff.mp hcall).1]
    exact hcall

/-! ## Both ends and the network -/

/-- `r` has the first of the payloads `s` encrypted. -/
def Heard (P : Primitives β π) (r s : End β π) : Prop :=
  r.session.recvCount ≤ s.log.length ∧
    r.surfaced ++ r.session.outgoingPayloads = encrypted P (s.log.take r.session.recvCount)

structure Linked (q : Peers P) (t : Progress q) (a b : End β π) : Prop where
  aliceAt : AliceAt t a.session
  bobAt : BobAt t b.session
  aliceLog : a.session.Numbered P a.log
  bobLog : b.session.Numbered P b.log
  aliceRec : a.session.Receptive a.log
  bobRec : b.session.Receptive b.log
  aliceSaid : ∀ der ∈ a.emitted ++ a.session.outgoingPdus, AliceSays t a.log der
  bobSaid : ∀ der ∈ b.emitted ++ b.session.outgoingPdus, BobSays t b.log der
  toAlice : ∀ der ∈ a.session.incomingQueue, der ∈ b.emitted
  toBob : ∀ der ∈ b.session.incomingQueue, der ∈ a.emitted
  first : ∀ c, t.call? = some c → ∃ call, a.log[0]? = some call ∧ call.plaintext = c.text
  reply : ∀ c payload, t.reply? = some (c, some payload) →
    ∃ call, b.log[0]? = some call ∧ call.plaintext = payload
  aliceHeard : Heard P a b
  bobHeard : Heard P b a

/-- What is cached for resending has been said. -/
theorem AliceAt.lastSent_said {t : Progress q} {s : Session β π} (h : AliceAt t s)
    (hs : s.state ≠ .dropped) (log : List (EncryptCall β)) {der : π} (hd : s.lastSent = some der) :
    AliceSays t log der := by
  cases h.phase with
  | silent _ _ hnone | established _ _ _ _ _ _ hnone =>
    rw [hnone] at hd
    cases hd
  | calling o _ ho _ _ hsome =>
    rw [hsome] at hd
    cases hd
    exact .inl ⟨o, ho, rfl⟩
  | called c _ hc _ _ hsome =>
    rw [hsome] at hd
    cases hd
    exact .inr ⟨c, hc, .inl rfl⟩
  | dropped hdrop => exact absurd hdrop hs

theorem BobAt.lastSent_said {t : Progress q} {s : Session β π} (h : BobAt t s)
    (hs : s.state ≠ .dropped) (log : List (EncryptCall β)) {der : π} (hd : s.lastSent = some der) :
    BobSays t log der := by
  cases h.phase with
  | silent _ _ hnone =>
    rw [hnone] at hd
    cases hd
  | waiting r _ hr _ _ hsome =>
    rw [hsome] at hd
    cases hd
    exact .inl ⟨r, hr, rfl⟩
  | established c reply _ hr _ hsome =>
    rw [hsome] at hd
    cases hd
    exact .inr ⟨c, reply, hr, .inl rfl⟩
  | dropped hdrop => exact absurd hdrop hs

theorem Heard.peer {r s s' : End β π} (h : Heard P r s) {calls : List (EncryptCall β)}
    (hlog : s'.log = s.log ++ calls) : Heard P r s' := by
  obtain ⟨hle, hmatch⟩ := h
  unfold Heard
  rw [hlog, List.take_append_of_le_length hle, List.length_append]
  exact ⟨by omega, hmatch⟩

theorem getElem?_grown {α : Type} {xs ys : List α} {n : Nat} {x : α} (h : xs[n]? = some x) :
    (xs ++ ys)[n]? = some x := by
  rw [List.getElem?_append_left (List.getElem?_eq_some_iff.mp h).1]
  exact h

/-- What changes when Alice does something. -/
structure AliceMoves (q : Peers P) (t t' : Progress q) (a a' b : End β π) : Prop where
  standing : AliceAt t' a'.session
  offer : ∀ o, t.offer? = some o → t'.offer? = some o
  call : ∀ c, t.call? = some c → t'.call? = some c
  answer : t'.answer? = t.answer?
  reply : t'.reply? = t.reply?
  numbered : a'.session.Numbered P a'.log
  receptive : a'.session.Receptive a'.log
  log : ∃ calls, a'.log = a.log ++ calls
  said : ∀ der ∈ a'.emitted ++ a'.session.outgoingPdus,
    der ∈ a.emitted ++ a.session.outgoingPdus ∨ AliceSays t' a'.log der
  emitted : ∀ der ∈ a.emitted, der ∈ a'.emitted
  queued : ∀ der ∈ a'.session.incomingQueue, der ∈ a.session.incomingQueue ∨ der ∈ b.emitted
  first : ∀ c, t'.call? = some c → t.call? = some c ∨
    ∃ call, a'.log[0]? = some call ∧ call.plaintext = c.text
  heard : Heard P a' b

theorem Linked.alice {t t' : Progress q} {a a' b : End β π} (h : Linked q t a b)
    (m : AliceMoves q t t' a a' b) : Linked q t' a' b := by
  obtain ⟨calls, hlog⟩ := m.log
  have hsays : ∀ der, AliceSays t a.log der → AliceSays t' a'.log der := by
    intro der hd
    rw [hlog]
    exact hd.mono m.offer m.call calls
  exact
    { aliceAt := m.standing
      bobAt := h.bobAt.congr rfl m.answer m.reply
      aliceLog := m.numbered
      bobLog := h.bobLog
      aliceRec := m.receptive
      bobRec := h.bobRec
      aliceSaid := fun der hder => (m.said der hder).elim (fun hd => hsays der (h.aliceSaid der hd)) id
      bobSaid := fun der hder => by
        have : BobSays t' (b.log ++ []) der := (h.bobSaid der hder).mono (fun r hr => m.answer.trans hr)
          (fun cr hr => m.reply.trans hr) []
        simpa using this
      toAlice := fun der hder => (m.queued der hder).elim (h.toAlice der) id
      toBob := fun der hder => m.emitted der (h.toBob der hder)
      first := fun c hc => by
        obtain hc | hc := m.first c hc
        · obtain ⟨call, hcall, htext⟩ := h.first c hc
          exact ⟨call, hlog ▸ getElem?_grown hcall, htext⟩
        · exact hc
      reply := fun c payload hr => h.reply c payload (m.reply.symm.trans hr)
      aliceHeard := m.heard
      bobHeard := h.bobHeard.peer hlog }

/-- What changes when Bob does something. -/
structure BobMoves (q : Peers P) (t t' : Progress q) (a b b' : End β π) : Prop where
  standing : BobAt t' b'.session
  offer : t'.offer? = t.offer?
  call : t'.call? = t.call?
  answer : ∀ r, t.answer? = some r → t'.answer? = some r
  reply : ∀ cr, t.reply? = some cr → t'.reply? = some cr
  numbered : b'.session.Numbered P b'.log
  receptive : b'.session.Receptive b'.log
  log : ∃ calls, b'.log = b.log ++ calls
  said : ∀ der ∈ b'.emitted ++ b'.session.outgoingPdus,
    der ∈ b.emitted ++ b.session.outgoingPdus ∨ BobSays t' b'.log der
  emitted : ∀ der ∈ b.emitted, der ∈ b'.emitted
  queued : ∀ der ∈ b'.session.incomingQueue, der ∈ b.session.incomingQueue ∨ der ∈ a.emitted
  first : ∀ c payload, t'.reply? = some (c, some payload) → t.reply? = some (c, some payload) ∨
    ∃ call, b'.log[0]? = some call ∧ call.plaintext = payload
  heard : Heard P b' a

theorem Linked.bob {t t' : Progress q} {a b b' : End β π} (h : Linked q t a b)
    (m : BobMoves q t t' a b b') : Linked q t' a b' := by
  obtain ⟨calls, hlog⟩ := m.log
  have hsays : ∀ der, BobSays t b.log der → BobSays t' b'.log der := by
    intro der hd
    rw [hlog]
    exact hd.mono m.answer m.reply calls
  exact
    { aliceAt := h.aliceAt.congr rfl m.offer m.call fun c reply hr => m.reply _ hr
      bobAt := m.standing
      aliceLog := h.aliceLog
      bobLog := m.numbered
      aliceRec := h.aliceRec
      bobRec := m.receptive
      aliceSaid := fun der hder => by
        have : AliceSays t' (a.log ++ []) der := (h.aliceSaid der hder).mono (fun o ho => m.offer.trans ho)
          (fun c hc => m.call.trans hc) []
        simpa using this
      bobSaid := fun der hder => (m.said der hder).elim (fun hd => hsays der (h.bobSaid der hd)) id
      toAlice := fun der hder => m.emitted der (h.toAlice der hder)
      toBob := fun der hder => (m.queued der hder).elim (h.toBob der) id
      first := fun c hc => h.first c (m.call.symm.trans hc)
      reply := fun c payload hr => by
        obtain hr | hr := m.first c payload hr
        · obtain ⟨call, hcall, htext⟩ := h.reply c payload hr
          exact ⟨call, hlog ▸ getElem?_grown hcall, htext⟩
        · exact hr
      aliceHeard := h.aliceHeard.peer hlog
      bobHeard := m.heard }

/-! ## Alice's steps -/

section
variable {t : Progress q} {a b : End β π}

theorem AliceAt.role {s : Session β π} (h : AliceAt t s) : s.role = .initiator := by
  have := h.identity
  simp only [Session.identity, Prod.mk.injEq] at this
  exact this.1

/-- A step that leaves the transcript and what was heard as they are. -/
theorem Linked.alice_quiet (h : Linked q t a b) {s' : Session β π} {calls : List (EncryptCall β)}
    (hs : AliceAt t s') (hn : s'.Numbered P (a.log ++ calls))
    (hr : s'.Receptive (a.log ++ calls))
    (hsaid : ∀ der ∈ s'.outgoingPdus,
      der ∈ a.session.outgoingPdus ∨ AliceSays t (a.log ++ calls) der)
    (hq : ∀ der ∈ s'.incomingQueue, der ∈ a.session.incomingQueue)
    (hc : s'.recvCount = a.session.recvCount)
    (ho : s'.outgoingPayloads = a.session.outgoingPayloads) :
    Linked q t { a with session := s', log := a.log ++ calls } b := by
  refine h.alice ⟨hs, fun _ => id, fun _ => id, rfl, rfl, hn, hr, ⟨calls, rfl⟩, fun der hder => ?_,
    fun _ => id, fun der hder => .inl (hq der hder), fun _ => .inl, ?_⟩
  · rw [List.mem_append] at hder ⊢
    obtain hder | hder := hder
    · exact .inl (.inl hder)
    · exact (hsaid der hder).imp .inr id
  · unfold Heard
    rw [hc, ho]
    exact h.aliceHeard

theorem nonceForSeq_under {keys : SessionKeys β} {s : Session β π}
    {log : List (EncryptCall β)} (hn : s.Numbered P log) (hk : s.sessionKeys = some keys)
    {i : Nat} {call : EncryptCall β} {nonce : List β} (hcall : log[i]? = some call)
    (hnonce : nonceForSeq P (s.sending keys).2.1 i = .ok nonce) : ∃ ct, call.result P = .ok ct := by
  refine ((hn.numbered keys hk i call hcall).result hn.coherent hk).1 ?_
  have hoct : P.octets (s.sending keys).2.1 = aeadNonceLength := by
    rw [Session.sending_eq]
    cases s.role
    · exact (hn.coherent.ivs keys hk).1
    · exact (hn.coherent.ivs keys hk).2
  obtain ⟨bytes, hbytes, _⟩ := nonceForSeq_ok.mp hnonce
  have := (toBytesBig_ok hbytes).1
  rwa [hoct] at this

/-- The payload of a call that is heard next. -/
theorem Heard.next {r s : End β π} {r' : Session β π} {n : Nat} {call : EncryptCall β}
    {ct : List β} {queue : List (List β)} (hcall : s.log[n]? = some call)
    (hct : call.result P = .ok ct) (hfull : call.plaintext ≠ []) (hn : r'.recvCount = n + 1)
    (hout : r'.outgoingPayloads = queue ++ [call.plaintext])
    (h : r.surfaced ++ queue = encrypted P (s.log.take n)) (calls : List (EncryptCall β)) :
    Heard P { r with session := r', log := r.log ++ calls } s := by
  unfold Heard
  obtain ⟨hle, heq⟩ := End.encrypted_next hcall hct rfl h
  rw [if_neg hfull] at heq
  rw [hn, hout, ← List.append_assoc]
  exact ⟨hle, heq⟩

theorem BobSays.cases {t : Progress q} {log : List (EncryptCall β)} {der : π} {msg : MakeMessage β}
    (hP : P.Correct) (h : BobSays t log der) (hl : P.load der = .ok msg) :
    (∃ r, t.answer? = some r ∧ der = r.pdu ∧
      msg = MakeMessage.build r.cid (.sessionInitResponse r.response)) ∨
    (∃ c reply, t.reply? = some (c, reply) ∧ der = c.replyPdu reply ∧
      msg = MakeMessage.build c.cid (.sessionCompletionResponse (c.confirmation reply))) ∨
    (∃ c reply, t.reply? = some (c, reply) ∧ ∃ n call nonce, log[n]? = some call ∧
      nonceForSeq P c.keys.ivB2a n = .ok nonce ∧
      der = c.messagePdu c.keys.keyB2a nonce n call.plaintext ∧
      msg = MakeMessage.build c.cid (.message
        ⟨n, P.encrypt c.aead c.keys.keyB2a nonce call.plaintext c.cid⟩)) := by
  rcases h with ⟨r, hr, rfl⟩ | ⟨c, reply, hr, rfl | ⟨n, call, nonce, hcall, hnonce, rfl⟩⟩
  · rw [r.load_pdu hP] at hl
    exact .inl ⟨r, hr, rfl, (Except.ok.inj hl).symm⟩
  · rw [c.load_replyPdu hP] at hl
    exact .inr (.inl ⟨c, reply, hr, rfl, (Except.ok.inj hl).symm⟩)
  · rw [c.load_messagePdu hP] at hl
    exact .inr (.inr ⟨c, reply, hr, n, call, nonce, hcall, hnonce, rfl, (Except.ok.inj hl).symm⟩)

theorem popped_mem {s : Session β π} {der : π} {rest : List π}
    (hq : s.incomingQueue = der :: rest) : ∀ d ∈ rest, d ∈ s.incomingQueue := by
  intro d hd
  rw [hq]
  exact List.mem_cons_of_mem _ hd

theorem AliceAt.callingPhase {s : Session β π} (h : AliceAt t s)
    (hs : s.state = .expectSessionInitResponse) : ∃ o, t.offer? = some o ∧ t.call? = none ∧
      HoldsOffer o s ∧ s.lastSent = some o.pdu ∧ s.lastReceived = none := by
  cases h.phase with
  | calling o _ ho hc hh hl hr => exact ⟨o, ho, hc, hh, hl, hr⟩
  | silent h' | called _ h' | established _ _ h' | dropped h' =>
    rw [hs] at h'
    cases h'

theorem AliceAt.calledPhase {s : Session β π} (h : AliceAt t s)
    (hs : s.state = .expectSessionCompletionResponse) : ∃ c, t.call? = some c ∧
      s.cid = some c.cid ∧ s.sentPlaintextForHM = some c.text ∧ s.lastSent = some c.pdu ∧
      s.lastReceived = some c.toAnswered.pdu := by
  cases h.phase with
  | called c _ hc hcid ht hl hr => exact ⟨c, hc, hcid, ht, hl, hr⟩
  | silent h' | calling _ h' | established _ _ h' | dropped h' =>
    rw [hs] at h'
    cases h'

theorem AliceAt.establishedPhase {s : Session β π} (h : AliceAt t s)
    (hs : s.state = .established) : ∃ c reply, t.reply? = some (c, reply) ∧ s.cid = some c.cid ∧
      s.sentPlaintextForHM = some c.text ∧ s.lastSent = none ∧
      s.lastReceived = some (c.replyPdu reply) := by
  cases h.phase with
  | established c reply _ hr hcid ht hl hl' => exact ⟨c, reply, hr, hcid, ht, hl, hl'⟩
  | silent h' | calling _ h' | called _ h' | dropped h' =>
    rw [hs] at h'
    cases h'

section
variable (hP : P.Correct) (h : Linked q t a b)
include hP h

theorem Linked.said_response {der : π} {msg : MakeMessage β} {resp : SessionInitResponse β}
    (hq : der ∈ a.session.incomingQueue) (hl : P.load der = .ok msg)
    (hp : msg.payload = .sessionInitResponse resp) :
    ∃ r, t.answer? = some r ∧ der = r.pdu ∧ resp = r.response := by
  have hsaid := h.bobSaid der (List.mem_append_left _ (h.toAlice der hq))
  rcases hsaid.cases hP hl with ⟨r, hr, rfl, rfl⟩ | ⟨c, reply, _, _, rfl⟩ | ⟨_, _, _, _, _, _, _, _, _, rfl⟩
  · cases hp
    exact ⟨r, hr, rfl, rfl⟩
  · cases hp
  · cases hp

theorem Linked.said_reply {c : Called q} (hc : t.call? = some c) {der : π} {msg : MakeMessage β}
    {resp : SessionCompletionResponse β} (hq : der ∈ a.session.incomingQueue)
    (hl : P.load der = .ok msg) (hp : msg.payload = .sessionCompletionResponse resp) :
    ∃ reply, t.reply? = some (c, reply) ∧ der = c.replyPdu reply ∧ resp = c.confirmation reply := by
  have hsaid := h.bobSaid der (List.mem_append_left _ (h.toAlice der hq))
  rcases hsaid.cases hP hl with ⟨r, _, _, rfl⟩ | ⟨c', reply, hr, rfl, rfl⟩ | ⟨_, _, _, _, _, _, _, _, _, rfl⟩
  · cases hp
  · cases hp
    cases hc.symm.trans (Progress.call_of_reply hr)
    exact ⟨reply, hr, rfl, rfl⟩
  · cases hp

theorem Linked.said_message {c : Called q} {reply : Option (List β)}
    (hr : t.reply? = some (c, reply)) {der : π} {msg : MakeMessage β} {inner : Message β}
    (hq : der ∈ a.session.incomingQueue) (hl : P.load der = .ok msg)
    (hp : msg.payload = .message inner) : ∃ n call nonce, b.log[n]? = some call ∧
      nonceForSeq P c.keys.ivB2a n = .ok nonce ∧
      inner = ⟨n, P.encrypt c.aead c.keys.keyB2a nonce call.plaintext c.cid⟩ := by
  have hsaid := h.bobSaid der (List.mem_append_left _ (h.toAlice der hq))
  rcases hsaid.cases hP hl with ⟨r, _, _, rfl⟩ | ⟨c', _, _, _, rfl⟩ |
    ⟨c', _, hr', n, call, nonce, hcall, hnonce, _, rfl⟩
  · cases hp
  · cases hp
  · cases hp
    cases hr.symm.trans hr'
    exact ⟨n, call, nonce, hcall, hnonce, rfl⟩

omit hP in
theorem Linked.bob_result {c : Called q} {reply : Option (List β)}
    (hr : t.reply? = some (c, reply)) {n : Nat} {call : EncryptCall β} {nonce : List β}
    (hcall : b.log[n]? = some call) (hnonce : nonceForSeq P c.keys.ivB2a n = .ok nonce) :
    ∃ ct, call.result P = .ok ct := by
  have hk : b.session.sessionKeys = some c.keys := by rw [h.bobAt.keyed, hr]; rfl
  have hsend : nonceForSeq P (b.session.sending c.keys).2.1 n = .ok nonce := by
    rw [Session.sending_eq, h.bobAt.role]
    exact hnonce
  exact nonceForSeq_under h.bobLog hk hcall hsend

omit hP in
/-- Bob encrypts no empty payload. -/
theorem Linked.bob_full {n : Nat} {call : EncryptCall β} (hcall : b.log[n]? = some call) :
    call.plaintext ≠ [] := by
  intro hempty
  have := (h.bobRec.plain n call hcall hempty).2
  rw [h.bobAt.role] at this
  cases this

end

theorem Linked.alice_took (hP : P.Correct) (h : Linked q t a b) {now : Int} {e : Entropy β}
    {s' : Session β π} {x : Option PyError} {calls : List (EncryptCall β)}
    (hd : a.session.state ≠ .dropped)
    (ht : Session.TookEncrypting P a.session now e s' x calls) :
    ∃ t', Linked q t' { a with session := s', log := a.log ++ calls } b := by
  have hn := h.aliceLog.took hP ht
  have hr := h.aliceRec.took ht h.aliceLog
  have hrole := h.aliceAt.role
  cases ht with
  | nothing ht hst =>
    cases ht with
    | idle =>
      exact ⟨t, h.alice_quiet h.aliceAt hn hr (fun _ => .inl) (fun _ => id) rfl rfl⟩
    | ignored hq | undecoded hq =>
      exact ⟨t, h.alice_quiet (h.aliceAt.congr rfl rfl rfl fun _ _ => id) hn hr (fun _ => .inl)
        (popped_mem hq) rfl rfl⟩
    | resent hq =>
      rw [Session.resend_eq] at hn hr ⊢
      refine ⟨t, h.alice_quiet (h.aliceAt.congr rfl rfl rfl fun _ _ => id) hn hr (fun d hd' => ?_)
        (popped_mem hq) rfl rfl⟩
      obtain hd' | hd' := List.mem_append.mp hd'
      · exact .inl hd'
      · exact .inr (h.aliceAt.lastSent_said hd _ (Option.mem_toList.mp hd'))
    | refused hq _ hc =>
      obtain rfl | ⟨_, hresp, _⟩ := hc
      · exact ⟨t, h.alice_quiet (h.aliceAt.congr rfl rfl rfl fun _ _ => id) hn hr (fun _ => .inl)
          (popped_mem hq) rfl rfl⟩
      · rw [hrole] at hresp
        cases hresp
    | answered _ _ _ _ hresp =>
      rw [hrole] at hresp
      cases hresp
    | completed _ _ _ _ hresp =>
      rw [hrole] at hresp
      cases hresp
    | called _ _ _ hs =>
      have := hst (.inl hs)
      simp [Session.acceptInitResponse, hs] at this
    | @confirmed der rest msg resp sent hq hl hp hs _ _ _ _ hm =>
      obtain ⟨c, hc, hcid, htext, _⟩ := h.aliceAt.calledPhase hs
      obtain ⟨reply, hreply, rfl, hresp⟩ := h.said_reply hP hc (hq ▸ List.mem_cons_self) hl hp
      obtain rfl : reply = none := by simpa [hresp, Called.confirmation] using hm
      have hat : AliceAt t ((a.session.popped rest).acceptReply (c.replyPdu none)) :=
        ⟨h.aliceAt.identity, h.aliceAt.keyed, .established c none rfl hreply hcid htext rfl rfl⟩
      exact ⟨t, h.alice_quiet hat hn hr (fun _ => .inl) (popped_mem hq) rfl rfl⟩
    | @replied der rest msg resp sent m text hq hl hp hs _ _ _ _ hm ho =>
      obtain ⟨c, hc, hcid, htext, _⟩ := h.aliceAt.calledPhase hs
      obtain ⟨reply, hreply, rfl, hresp⟩ := h.said_reply hP hc (hq ▸ List.mem_cons_self) hl hp
      rw [hresp] at hm
      obtain ⟨payload, hsome, hct'⟩ := Option.map_eq_some_iff.mp hm
      subst hsome
      subst hct'
      have hk : a.session.sessionKeys = some c.keys := by rw [h.aliceAt.keyed, hc]; rfl
      have hopen := openReply_call hP payload hk hcid
      cases hopen.symm.trans ho
      obtain ⟨call, hcall, hpayload⟩ := h.reply c text hreply
      obtain ⟨ct, hct⟩ := h.bob_result hreply hcall (nonceForSeq_zero _)
      obtain ⟨hout, hcount⟩ := h.aliceRec.early (by simp [hs])
      have hheard := h.aliceHeard.2
      rw [hcount, hout] at hheard
      refine ⟨t, h.alice ⟨⟨h.aliceAt.identity, h.aliceAt.keyed,
        .established c (some text) rfl hreply hcid htext rfl rfl⟩, fun _ => id, fun _ => id, rfl,
        rfl, hn, hr, ⟨[], rfl⟩, fun _ => .inl, fun _ => id, fun d hd' => .inl (popped_mem hq d hd'),
        fun _ => .inl, ?_⟩⟩
      refine Heard.next hcall hct (h.bob_full hcall) ?_ ?_ hheard []
      · simp [Session.acceptReply, Session.recvCount, hrole]
      · simp [Session.acceptReply, hout, hpayload]
    | @received der rest msg inner text hq hl hp hs hcid ho =>
      obtain ⟨c, reply, hreply, hcid', _⟩ := h.aliceAt.establishedPhase hs
      have hc := Progress.call_of_reply hreply
      have hk : a.session.sessionKeys = some c.keys := by rw [h.aliceAt.keyed, hc]; rfl
      obtain ⟨n, call, nonce, hcall, hnonce, hinner⟩ :=
        h.said_message hP hreply (hq ▸ List.mem_cons_self) hl hp
      have hrecv : a.session.receiving c.keys =
          (c.keys.keyB2a, c.keys.ivB2a, a.session.recvCount) := by
        rw [Session.receiving_eq, hrole]
      have hopen := openMessage_call hP call.plaintext hk hcid' (by rw [hrecv]; exact hnonce)
      rw [hrecv] at hopen
      rw [hinner, hopen] at ho
      split at ho
      · rename_i hseq
        cases ho
        obtain ⟨ct, hct⟩ := h.bob_result hreply hcall hnonce
        rw [Session.countReceived_eq] at hn hr ⊢
        refine ⟨t, h.alice ⟨h.aliceAt.congr rfl rfl rfl fun _ _ => id, fun _ => id, fun _ => id, rfl,
          rfl, hn, hr, ⟨[], rfl⟩, fun _ => .inl, fun _ => id,
          fun d hd' => .inl (popped_mem hq d hd'), fun _ => .inl, ?_⟩⟩
        refine Heard.next hcall hct (h.bob_full hcall) ?_ rfl (hseq ▸ h.aliceHeard.2) []
        simp [Session.recvCount, hrole, hseq]
      · cases ho
  | completed _ _ _ _ hresp =>
    rw [hrole] at hresp
    cases hresp
  | @called der rest msg resp call hq hl hp hs _ _ hcall =>
    obtain ⟨o, ho, hnone, hholds, _⟩ := h.aliceAt.callingPhase hs
    obtain ⟨r, hans, rfl, rfl⟩ := h.said_response hP (hq ▸ List.mem_cons_self) hl hp
    have hoffer := Progress.offer_of_answer hans
    cases ho.symm.trans hoffer
    obtain ⟨c, rfl, hnonce, htext, hok⟩ := completionCall_answer hP (e := e) hholds
    cases hok.symm.trans hcall
    have hlog : a.log = [] := by
      refine h.aliceLog.silent ?_
      rw [h.aliceAt.keyed, hnone]
      rfl
    have hreply : t.reply? = none := by
      cases hr' : t.reply? with
      | none => rfl
      | some cr =>
        have := Progress.call_of_reply hr'
        rw [hnone] at this
        cases this
    have hpdu : P.dump (MakeMessage.build c.completionCall.cid (.sessionCompletionRequest
        ⟨c.completionCall.cM, c.completionCall.ct4, e.nonce⟩)) = c.pdu := by
      rw [← hnonce]
      rfl
    rw [hpdu] at hn hr ⊢
    refine ⟨.called c, h.alice ⟨⟨h.aliceAt.identity, rfl,
      .called c rfl rfl hholds.cid rfl rfl rfl⟩, fun o' ho' => ?_, fun c' hc' => ?_, hans.symm,
      hreply.symm, hn, hr, ⟨_, rfl⟩, fun d hd' => ?_, fun _ => id,
      fun d hd' => .inl (popped_mem hq d hd'), fun c' hc' => .inr ?_, ?_⟩⟩
    · exact hoffer.symm.trans ho'
    · rw [hnone] at hc'
      cases hc'
    · simp only [Session.acceptInitResponse, List.mem_append] at hd' ⊢
      obtain hd' | hd' | hd' := hd'
      · exact .inl (.inl hd')
      · exact .inl (.inr hd')
      · rw [List.mem_singleton.mp hd']
        exact .inr (.inr ⟨c, rfl, .inl rfl⟩)
    · cases hc'
      exact ⟨_, by rw [hlog]; rfl, rfl⟩
    · have := h.aliceHeard
      simpa [Heard, Session.acceptInitResponse, Session.recvCount, hrole] using this

end

section
variable {t : Progress q} {a b : End β π}

theorem messagePdu_parts {s : Session β π} {payload : List β} {pdu : π}
    (h : s.messagePdu P payload = .ok pdu) : ∃ keys cid nonce, s.sessionKeys = some keys ∧
      s.cid = some cid ∧ nonceForSeq P (s.sending keys).2.1 s.sendCount = .ok nonce ∧
      pdu = P.dump (MakeMessage.build cid (.message
        ⟨s.sendCount, P.encrypt keys.aeadName (s.sending keys).1 nonce payload cid⟩)) := by
  unfold Session.messagePdu at h
  cases hk : s.sessionKeys with
  | none => simp [hk, attr, bind, Except.bind] at h
  | some keys =>
    cases hc : s.cid with
    | none => simp [hk, hc, attr, bind, Except.bind] at h
    | some cid =>
      have hcount : (s.sending keys).2.2 = s.sendCount := by
        rw [Session.sending_eq]
        cases s.role <;> rfl
      simp only [hk, hc, attr, bind, Except.bind, encrypt, hcount] at h
      cases hn : nonceForSeq P (s.sending keys).2.1 s.sendCount with
      | error y => simp [hn] at h
      | ok nonce =>
        simp only [hn, pure, Except.pure, Except.ok.injEq] at h
        exact ⟨keys, cid, nonce, rfl, rfl, hn, h.symm⟩

/-- A number with a nonce is that of the next call. -/
theorem Session.Numbered.next {s : Session β π} {log : List (EncryptCall β)}
    (h : s.Numbered P log) {keys : SessionKeys β} (hk : s.sessionKeys = some keys) {nonce : List β}
    (hn : nonceForSeq P (s.sending keys).2.1 s.sendCount = .ok nonce) :
    s.sendCount = log.length := by
  have hoct : P.octets (s.sending keys).2.1 = aeadNonceLength := by
    rw [Session.sending_eq]
    cases s.role
    · exact (h.coherent.ivs keys hk).1
    · exact (h.coherent.ivs keys hk).2
  obtain ⟨bytes, hbytes, _⟩ := nonceForSeq_ok.mp hn
  have hlt := (toBytesBig_ok hbytes).1
  rw [hoct] at hlt
  have hcount := h.counted
  unfold seqLimit at hcount
  omega

/-- What goes out for a pending payload. -/
theorem Session.Numbered.message {s : Session β π} {log : List (EncryptCall β)}
    (h : s.Numbered P log) {payload : List β} {pdu : π} (hs : s.state = .established)
    (hp : s.pendingPayload = some payload) (hm : s.messagePdu P payload = .ok pdu) :
    ∃ keys cid nonce call, s.sessionKeys = some keys ∧ s.cid = some cid ∧
      s.sendCount = log.length ∧
      nonceForSeq P (s.sending keys).2.1 log.length = .ok nonce ∧
      (log ++ s.pendingEncrypts)[log.length]? = some call ∧ call.plaintext = payload ∧
      pdu = P.dump (MakeMessage.build cid (.message
        ⟨log.length, P.encrypt keys.aeadName (s.sending keys).1 nonce call.plaintext cid⟩)) := by
  obtain ⟨keys, cid, nonce, hk, hc, hn, hpdu⟩ := messagePdu_parts hm
  have hnext := h.next hk hn
  obtain ⟨ad, hcalls⟩ := Session.pendingEncrypts_eq h.coherent hs hp hk
  rw [hnext] at hn hpdu
  refine ⟨keys, cid, nonce, ⟨keys.aeadName, (s.sending keys).1, (s.sending keys).2.1, s.sendCount,
    payload, ad⟩, hk, hc, hnext, hn, ?_, rfl, hpdu⟩
  rw [hcalls, List.getElem?_append_right (Nat.le_refl _)]
  simp

theorem Linked.alice_sent (h : Linked q t a b) {s' : Session β π} {x : Option PyError}
    (hs : Session.Sent P a.session s' x) :
    Linked q t { a with session := s', log := a.log ++ a.session.pendingEncrypts } b := by
  have hn := h.aliceLog.sent hs
  have hr := h.aliceRec.sent hs
  have hrole := h.aliceAt.role
  cases hs with
  | idle => exact h.alice_quiet h.aliceAt hn hr (fun _ => .inl) (fun _ => id) rfl rfl
  | failed =>
    exact h.alice_quiet (h.aliceAt.congr rfl rfl rfl fun _ _ => id) hn hr (fun _ => .inl)
      (fun _ => id) rfl rfl
  | @message payload pdu hest hp hm =>
    obtain ⟨keys, cid, nonce, call, hk, hcid, _, hnonce, hcall, _, rfl⟩ := h.aliceLog.message hest hp hm
    obtain ⟨c, reply, hreply, hcid', _⟩ := h.aliceAt.establishedPhase hest
    have hc := Progress.call_of_reply hreply
    have hkeys : keys = c.keys := by
      have := h.aliceAt.keyed
      rw [hk, hc] at this
      exact Option.some.inj this
    cases hcid.symm.trans hcid'
    subst hkeys
    rw [Session.countSent_eq] at hn hr ⊢
    refine h.alice_quiet (h.aliceAt.congr rfl rfl rfl fun _ _ => id) hn hr (fun d hd => ?_)
      (fun _ => id) ?_ rfl
    · obtain hd | hd := List.mem_append.mp hd
      · exact .inl hd
      · rw [List.mem_singleton.mp hd]
        refine .inr (.inr ⟨c, hc, .inr ⟨_, call, nonce, ?_, hcall, ?_, ?_⟩⟩)
        · obtain ⟨call₀, hcall₀, _⟩ := h.first c hc
          exact Nat.lt_of_le_of_lt (Nat.zero_le 0) (List.getElem?_eq_some_iff.mp hcall₀).1
        · rwa [Session.sending_eq, hrole] at hnonce
        · rw [Session.sending_eq, hrole]
          rfl
    · simp [Session.recvCount, hrole]

theorem AliceAt.offered {s : Session β π} (h : AliceAt t s) (hs : s.state ≠ .initial) :
    t.offer? ≠ none := by
  have hcall : ∀ c, t.call? = some c → t.offer? ≠ none := by
    intro c hc
    rw [Progress.offer_of_answer (Progress.answer_of_call hc)]
    simp
  cases h.phase with
  | silent h' => exact absurd h' hs
  | calling o _ ho => simp [ho]
  | called c _ hc => exact hcall c hc
  | established c reply _ hr => exact hcall c (Progress.call_of_reply hr)
  | dropped _ ho => exact ho

theorem AliceAt.silentPhase {s : Session β π} (h : AliceAt t s) (hs : s.state = .initial) :
    t.offer? = none ∧ s.lastSent = none ∧ s.lastReceived = none := by
  cases h.phase with
  | silent _ ho hl hr => exact ⟨ho, hl, hr⟩
  | calling _ h' | called _ h' | established _ _ h' | dropped h' =>
    rw [hs] at h'
    cases h'

theorem Linked.alice_ticked (h : Linked q t a b) {now : Int} {s' : Session β π}
    (hd : a.session.state ≠ .dropped) (hk : Session.Ticked a.session now s') :
    Linked q t { a with session := s' } b := by
  have hn := h.aliceLog.ticked hk
  have hr := h.aliceRec.ticked hk
  rw [← List.append_nil a.log] at hn hr
  have hquiet := fun (hs : AliceAt t s') hsaid hq hc ho =>
    h.alice_quiet hs hn hr hsaid hq hc ho
  rw [List.append_nil] at hquiet
  cases hk with
  | idle => exact h
  | dropped hest hinit =>
    exact hquiet ⟨h.aliceAt.identity, h.aliceAt.keyed, .dropped rfl (h.aliceAt.offered hinit)⟩
      (fun _ => .inl) (fun _ => id) rfl rfl
  | retried =>
    rw [Session.resend_eq] at hquiet ⊢
    refine hquiet (h.aliceAt.congr rfl rfl rfl fun _ _ => id) (fun d hd' => ?_) (fun _ => id) rfl rfl
    obtain hd' | hd' := List.mem_append.mp hd'
    · exact .inl hd'
    · exact .inr (h.aliceAt.lastSent_said hd _ (Option.mem_toList.mp hd'))

variable [DecidableEq β] [DecidableEq π]

theorem Linked.alice_update (hP : P.Correct) (h : Linked q t a b) (now : Int) (e : Entropy β) :
    ∃ t', Linked q t' (a.act P (.update now e)) b := by
  refine Session.update_encrypting hP.encrypt_ne_nil
    (I := fun s log => ∃ t', Linked q t' { a with session := s, log } b)
    (fun s' x calls hd ht h => ?_) (fun s₁ s' x log hs h => ?_) (fun s₁ s' log hd hk h => ?_) ⟨t, h⟩
  · exact h.elim fun t' h => h.alice_took hP hd ht
  · exact h.elim fun t' h => ⟨t', h.alice_sent hs⟩
  · exact h.elim fun t' h => ⟨t', h.alice_ticked hd hk⟩

/-- Only the first `initiate` does something, and it calls if there is an AEAD to offer. -/
theorem Linked.alice_initiate (hP : P.Correct) (h : Linked q t a b) (now : Int) {e : Entropy β}
    (he : e.Fits P) : ∃ t', Linked q t' (a.act P (.initiate q.bobId now e)) b := by
  have hn := h.aliceLog.initiate q.bobId now e
  have hr := h.aliceRec.initiate (P := P) q.bobId now e
  have hrole := h.aliceAt.role
  by_cases hs : a.session.state = .initial
  · obtain ⟨hoffer, hsent, hlast⟩ := h.aliceAt.silentPhase hs
    cases Progress.silent_of_offer hoffer
    obtain ⟨o, _, heq⟩ := initiate_offer hP hs h.aliceAt.identity now he
    by_cases haeads : q.aliceConfig.acceptableAeads = []
    · simp only [haeads, ↓reduceIte] at heq
      simp only [End.act, heq] at hn hr ⊢
      exact ⟨.silent, h.alice ⟨⟨h.aliceAt.identity, h.aliceAt.keyed, .silent hs rfl hsent hlast⟩,
        fun _ => id, fun _ => id, rfl, rfl, hn, hr, ⟨[], (List.append_nil _).symm⟩, fun _ => .inl,
        fun _ => id, fun _ => .inl, fun _ => .inl, h.aliceHeard⟩⟩
    · simp only [haeads, ↓reduceIte] at heq
      simp only [End.act, heq] at hn hr ⊢
      have hid := h.aliceAt.identity
      simp only [Session.identity, Prod.mk.injEq] at hid
      refine ⟨.offered o, h.alice ⟨⟨h.aliceAt.identity, h.aliceAt.keyed, .calling o rfl rfl rfl
        ⟨hid.2.1, hid.2.2.1, hid.2.2.2, rfl, rfl, rfl⟩ rfl hlast⟩, ?_, ?_, rfl, rfl, hn, hr,
        ⟨[], (List.append_nil _).symm⟩, fun d hd => ?_, fun _ => id, fun _ => .inl, ?_,
        h.aliceHeard⟩⟩
      · intro o' ho'
        cases ho'
      · intro c hc
        cases hc
      · simp only [List.mem_append] at hd ⊢
        obtain hd | hd | hd := hd
        · exact .inl (.inl hd)
        · exact .inl (.inr hd)
        · rw [List.mem_singleton.mp hd]
          exact .inr (.inl ⟨o, rfl, rfl⟩)
      · intro c hc
        cases hc
  · have hpass : (a.session.initiate P q.bobId now e).1 = a.session := by
      simp [Session.initiate, hs, hrole]
    refine ⟨t, ?_⟩
    simp only [End.act, hpass]
    exact h

end

/-! ## Bob's steps -/

section
variable {t : Progress q} {a b : End β π}

theorem Linked.bob_quiet (h : Linked q t a b) {s' : Session β π} {calls : List (EncryptCall β)}
    (hs : BobAt t s') (hn : s'.Numbered P (b.log ++ calls))
    (hr : s'.Receptive (b.log ++ calls))
    (hsaid : ∀ der ∈ s'.outgoingPdus,
      der ∈ b.session.outgoingPdus ∨ BobSays t (b.log ++ calls) der)
    (hq : ∀ der ∈ s'.incomingQueue, der ∈ b.session.incomingQueue)
    (hc : s'.recvCount = b.session.recvCount)
    (ho : s'.outgoingPayloads = b.session.outgoingPayloads) :
    Linked q t a { b with session := s', log := b.log ++ calls } := by
  refine h.bob ⟨hs, rfl, rfl, fun _ => id, fun _ => id, hn, hr, ⟨calls, rfl⟩, fun der hder => ?_,
    fun _ => id, fun der hder => .inl (hq der hder), fun _ _ => .inl, ?_⟩
  · rw [List.mem_append] at hder ⊢
    obtain hder | hder := hder
    · exact .inl (.inl hder)
    · exact (hsaid der hder).imp .inr id
  · unfold Heard
    rw [hc, ho]
    exact h.bobHeard

theorem AliceSays.cases {t : Progress q} {log : List (EncryptCall β)} {der : π}
    {msg : MakeMessage β} (hP : P.Correct) (h : AliceSays t log der) (hl : P.load der = .ok msg) :
    (∃ o, t.offer? = some o ∧ der = o.pdu ∧
      msg = MakeMessage.build o.cid (.sessionInitRequest o.request)) ∨
    (∃ c, t.call? = some c ∧ der = c.pdu ∧
      msg = MakeMessage.build c.cid (.sessionCompletionRequest c.completion)) ∨
    (∃ c, t.call? = some c ∧ ∃ n call nonce, 1 ≤ n ∧ log[n]? = some call ∧
      nonceForSeq P c.keys.ivA2b n = .ok nonce ∧
      der = c.messagePdu c.keys.keyA2b nonce n call.plaintext ∧
      msg = MakeMessage.build c.cid (.message
        ⟨n, P.encrypt c.aead c.keys.keyA2b nonce call.plaintext c.cid⟩)) := by
  rcases h with ⟨o, ho, rfl⟩ | ⟨c, hc, rfl | ⟨n, call, nonce, hpos, hcall, hnonce, rfl⟩⟩
  · rw [o.load_pdu hP] at hl
    exact .inl ⟨o, ho, rfl, (Except.ok.inj hl).symm⟩
  · rw [c.load_pdu hP] at hl
    exact .inr (.inl ⟨c, hc, rfl, (Except.ok.inj hl).symm⟩)
  · rw [c.load_messagePdu hP] at hl
    exact .inr (.inr ⟨c, hc, n, call, nonce, hpos, hcall, hnonce, rfl, (Except.ok.inj hl).symm⟩)

theorem BobAt.silentPhase {s : Session β π} (h : BobAt t s) (hs : s.state = .initial) :
    t.answer? = none ∧ s.lastSent = none ∧ s.lastReceived = none := by
  cases h.phase with
  | silent _ ha hl hr => exact ⟨ha, hl, hr⟩
  | waiting _ h' | established _ _ h' | dropped h' =>
    rw [hs] at h'
    cases h'

theorem BobAt.waitingPhase {s : Session β π} (h : BobAt t s)
    (hs : s.state = .expectSessionCompletionRequest) : ∃ r, t.answer? = some r ∧
      t.reply? = none ∧ HoldsAnswer r s ∧ s.lastSent = some r.pdu ∧
      s.lastReceived = some r.toOffered.pdu := by
  cases h.phase with
  | waiting r _ ha hr hh hl hl' => exact ⟨r, ha, hr, hh, hl, hl'⟩
  | silent h' | established _ _ h' | dropped h' =>
    rw [hs] at h'
    cases h'

theorem BobAt.establishedPhase {s : Session β π} (h : BobAt t s)
    (hs : s.state = .established) : ∃ c reply, t.reply? = some (c, reply) ∧ s.cid = some c.cid ∧
      s.lastSent = some (c.replyPdu reply) ∧ s.lastReceived = some c.pdu := by
  cases h.phase with
  | established c reply _ hr hcid hl hl' => exact ⟨c, reply, hr, hcid, hl, hl'⟩
  | silent h' | waiting _ h' | dropped h' =>
    rw [hs] at h'
    cases h'

theorem BobAt.answered {s : Session β π} (h : BobAt t s) (hs : s.state ≠ .initial) :
    t.answer? ≠ none := by
  cases h.phase with
  | silent h' => exact absurd h' hs
  | waiting r _ ha => simp [ha]
  | established c reply _ hr =>
    rw [Progress.answer_of_call (Progress.call_of_reply hr)]
    simp
  | dropped _ ha => exact ha

section
variable (hP : P.Correct) (h : Linked q t a b)
include hP h

theorem Linked.said_request {der : π} {msg : MakeMessage β} {req : SessionInitRequest β}
    (hq : der ∈ b.session.incomingQueue) (hl : P.load der = .ok msg)
    (hp : msg.payload = .sessionInitRequest req) :
    ∃ o, t.offer? = some o ∧ der = o.pdu ∧ req = o.request ∧ msg.cid = o.cid := by
  have hsaid := h.aliceSaid der (List.mem_append_left _ (h.toBob der hq))
  rcases hsaid.cases hP hl with ⟨o, ho, rfl, rfl⟩ | ⟨_, _, _, rfl⟩ |
    ⟨_, _, _, _, _, _, _, _, _, rfl⟩
  · cases hp
    exact ⟨o, ho, rfl, rfl, rfl⟩
  · cases hp
  · cases hp

theorem Linked.said_completion {der : π} {msg : MakeMessage β} {req : SessionCompletionRequest β}
    (hq : der ∈ b.session.incomingQueue) (hl : P.load der = .ok msg)
    (hp : msg.payload = .sessionCompletionRequest req) :
    ∃ c, t.call? = some c ∧ der = c.pdu ∧ req = c.completion := by
  have hsaid := h.aliceSaid der (List.mem_append_left _ (h.toBob der hq))
  rcases hsaid.cases hP hl with ⟨_, _, _, rfl⟩ | ⟨c, hc, rfl, rfl⟩ |
    ⟨_, _, _, _, _, _, _, _, _, rfl⟩
  · cases hp
  · cases hp
    exact ⟨c, hc, rfl, rfl⟩
  · cases hp

theorem Linked.said_message' {c : Called q} (hc : t.call? = some c) {der : π} {msg : MakeMessage β}
    {inner : Message β} (hq : der ∈ b.session.incomingQueue) (hl : P.load der = .ok msg)
    (hp : msg.payload = .message inner) : ∃ n call nonce, 1 ≤ n ∧ a.log[n]? = some call ∧
      nonceForSeq P c.keys.ivA2b n = .ok nonce ∧
      inner = ⟨n, P.encrypt c.aead c.keys.keyA2b nonce call.plaintext c.cid⟩ := by
  have hsaid := h.aliceSaid der (List.mem_append_left _ (h.toBob der hq))
  rcases hsaid.cases hP hl with ⟨_, _, _, rfl⟩ | ⟨_, _, _, rfl⟩ |
    ⟨c', hc', n, call, nonce, hpos, hcall, hnonce, _, rfl⟩
  · cases hp
  · cases hp
  · cases hp
    cases hc.symm.trans hc'
    exact ⟨n, call, nonce, hpos, hcall, hnonce, rfl⟩

omit hP in
theorem Linked.alice_result {c : Called q} (hc : t.call? = some c) {n : Nat}
    {call : EncryptCall β} {nonce : List β} (hcall : a.log[n]? = some call)
    (hnonce : nonceForSeq P c.keys.ivA2b n = .ok nonce) : ∃ ct, call.result P = .ok ct := by
  have hk : a.session.sessionKeys = some c.keys := by rw [h.aliceAt.keyed, hc]; rfl
  have hsend : nonceForSeq P (a.session.sending c.keys).2.1 n = .ok nonce := by
    rw [Session.sending_eq, h.aliceAt.role]
    exact hnonce
  exact nonceForSeq_under h.aliceLog hk hcall hsend

omit hP in
/-- Alice encrypts an empty payload at most in c_m. -/
theorem Linked.alice_full {n : Nat} {call : EncryptCall β} (hcall : a.log[n]? = some call)
    (hpos : 1 ≤ n) : call.plaintext ≠ [] := by
  intro hempty
  have := (h.aliceRec.plain n call hcall hempty).1
  omega

end

theorem Linked.bob_took (hP : P.Correct) (h : Linked q t a b) {now : Int} {e : Entropy β}
    (he : e.Fits P) {s' : Session β π} {x : Option PyError} {calls : List (EncryptCall β)}
    (hd : b.session.state ≠ .dropped)
    (ht : Session.TookEncrypting P b.session now e s' x calls) :
    ∃ t', Linked q t' a { b with session := s', log := b.log ++ calls } := by
  have hn := h.bobLog.took hP ht
  have hr := h.bobRec.took ht h.bobLog
  have hrole := h.bobAt.role
  cases ht with
  | nothing ht hst =>
    cases ht with
    | idle =>
      exact ⟨t, h.bob_quiet h.bobAt hn hr (fun _ => .inl) (fun _ => id) rfl rfl⟩
    | ignored hq | undecoded hq =>
      exact ⟨t, h.bob_quiet (h.bobAt.congr rfl rfl rfl) hn hr (fun _ => .inl) (popped_mem hq) rfl
        rfl⟩
    | resent hq =>
      rw [Session.resend_eq] at hn hr ⊢
      refine ⟨t, h.bob_quiet (h.bobAt.congr rfl rfl rfl) hn hr (fun d hd' => ?_)
        (popped_mem hq) rfl rfl⟩
      obtain hd' | hd' := List.mem_append.mp hd'
      · exact .inl hd'
      · exact .inr (h.bobAt.lastSent_said hd _ (Option.mem_toList.mp hd'))
    | @refused der rest msg cid x hq _ hc =>
      obtain rfl | ⟨hs, _, _⟩ := hc
      · exact ⟨t, h.bob_quiet (h.bobAt.congr rfl rfl rfl) hn hr (fun _ => .inl)
          (popped_mem hq) rfl rfl⟩
      · obtain ⟨hans, hsent, hlast⟩ := h.bobAt.silentPhase hs
        have hat : BobAt t { b.session.popped rest with cid } :=
          ⟨h.bobAt.role, h.bobAt.keys, h.bobAt.config, h.bobAt.keyed, .silent hs hans hsent hlast⟩
        exact ⟨t, h.bob_quiet hat hn hr (fun _ => .inl) (popped_mem hq) rfl rfl⟩
    | @answered der rest msg req r hq hl hp hs _ hreply =>
      obtain ⟨o, ho, rfl, rfl, hcid⟩ := h.said_request hP (hq ▸ List.mem_cons_self) hl hp
      obtain ⟨hans, _⟩ := h.bobAt.silentPhase hs
      obtain rfl := Progress.offered_of_none ho hans
      rw [hcid] at hn hr hreply ⊢
      cases ha : chooseAead q.bobConfig.acceptableAeads
          (q.aliceConfig.acceptableAeads.map aeadOid) with
      | error x =>
        have := initReply_disjoint hP (o := o) (e := e)
          (s := { b.session.popped rest with cid := some o.cid }) h.bobAt.keys h.bobAt.config ha
        rw [this] at hreply
        cases hreply
      | ok aead =>
        obtain ⟨r', rfl, hnonce, hok⟩ := initReply_offer hP (o := o) (e := e)
          (s := { b.session.popped rest with cid := some o.cid }) h.bobAt.keys h.bobAt.config rfl he
          ha
        cases hok.symm.trans hreply
        refine ⟨.answered r', h.bob ⟨⟨hrole, h.bobAt.keys, h.bobAt.config, h.bobAt.keyed,
          .waiting r' rfl rfl rfl ⟨h.bobAt.config, rfl, rfl, rfl, rfl, rfl, rfl, ?_, rfl⟩ rfl rfl⟩,
          rfl, rfl, fun _ hr' => (by cases hr'), fun _ hr' => (by cases hr'), hn, hr, ⟨[], rfl⟩,
          fun d hd' => ?_, fun _ => id, fun d hd' => .inl (popped_mem hq d hd'),
          fun _ _ hr' => (by cases hr'), ?_⟩⟩
        · rw [hnonce]
          rfl
        · simp only [Session.acceptInitRequest, List.mem_append] at hd' ⊢
          obtain hd' | hd' | hd' := hd'
          · exact .inl (.inl hd')
          · exact .inl (.inr hd')
          · rw [List.mem_singleton.mp hd']
            exact .inr (.inl ⟨r', rfl, rfl⟩)
        · have := h.bobHeard
          simpa [Heard, Session.acceptInitRequest, Session.recvCount, hrole] using this
    | completed _ _ _ hs =>
      have := hst (.inr hs)
      simp [Session.acceptCompletion, hs] at this
    | called _ _ _ _ hri =>
      rw [hrole] at hri
      cases hri
    | confirmed _ _ _ _ hri | replied _ _ _ _ hri =>
      rw [hrole] at hri
      cases hri
    | @received der rest msg inner text hq hl hp hs hcid ho =>
      obtain ⟨c, reply, hreply, hcid', _⟩ := h.bobAt.establishedPhase hs
      have hc := Progress.call_of_reply hreply
      have hk : b.session.sessionKeys = some c.keys := by rw [h.bobAt.keyed, hreply]; rfl
      obtain ⟨n, call, nonce, hpos, hcall, hnonce, hinner⟩ :=
        h.said_message' hP hc (hq ▸ List.mem_cons_self) hl hp
      have hrecv : b.session.receiving c.keys =
          (c.keys.keyA2b, c.keys.ivA2b, b.session.recvCount) := by
        rw [Session.receiving_eq, hrole]
      have hopen := openMessage_call hP call.plaintext hk hcid' (by rw [hrecv]; exact hnonce)
      rw [hrecv] at hopen
      rw [hinner, hopen] at ho
      split at ho
      · rename_i hseq
        cases ho
        obtain ⟨ct, hct⟩ := h.alice_result hc hcall hnonce
        rw [Session.countReceived_eq] at hn hr ⊢
        refine ⟨t, h.bob ⟨h.bobAt.congr rfl rfl rfl, rfl, rfl, fun _ => id, fun _ => id, hn, hr,
          ⟨[], rfl⟩, fun _ => .inl, fun _ => id, fun d hd' => .inl (popped_mem hq d hd'),
          fun _ _ => .inl, ?_⟩⟩
        refine Heard.next hcall hct (h.alice_full hcall hpos) ?_ rfl (hseq ▸ h.bobHeard.2) []
        simp [Session.recvCount, hrole, hseq]
      · cases ho
  | @completed der rest msg req o hq hl hp hs _ _ ho =>
    obtain ⟨r, hans, hnone, hholds, _⟩ := h.bobAt.waitingPhase hs
    obtain ⟨c, hc, rfl, rfl⟩ := h.said_completion hP (hq ▸ List.mem_cons_self) hl hp
    cases hans.symm.trans (Progress.answer_of_call hc)
    cases (openCompletion_call hP hholds).symm.trans ho
    obtain rfl := Progress.called_of_none hc hnone
    have hlog : b.log = [] := by
      refine h.bobLog.silent ?_
      rw [h.bobAt.keyed, hnone]
      rfl
    obtain ⟨call, hcall, htext⟩ := h.first c rfl
    obtain ⟨ct, hct⟩ := h.alice_result rfl hcall (nonceForSeq_zero _)
    obtain ⟨hout, hcount⟩ := h.bobRec.early (by simp [hs])
    have hheard := h.bobHeard.2
    rw [hcount, hout] at hheard
    refine ⟨.replied c b.session.pendingPayload, h.bob ⟨⟨hrole, h.bobAt.keys, h.bobAt.config, rfl,
      .established c _ rfl rfl hholds.cid rfl rfl⟩, rfl, rfl, fun _ => id,
      fun _ hr' => (by cases hr'), hn, hr, ⟨_, rfl⟩, fun d hd' => ?_, fun _ => id,
      fun d hd' => .inl (popped_mem hq d hd'), fun c' payload hr' => .inr ?_, ?_⟩⟩
    · simp only [Session.acceptCompletion, Session.opened, List.mem_append] at hd' ⊢
      obtain hd' | hd' | hd' := hd'
      · exact .inl (.inl hd')
      · exact .inl (.inr hd')
      · rw [List.mem_singleton.mp hd']
        exact .inr (.inr ⟨c, _, rfl, .inl rfl⟩)
    · simp only [Progress.reply?, Option.some.injEq, Prod.mk.injEq] at hr'
      rw [hr'.2, hlog]
      exact ⟨_, rfl, rfl⟩
    · obtain ⟨hle, heq⟩ := End.encrypted_next hcall hct htext hheard
      rw [List.append_nil] at heq
      by_cases hempty : c.text = [] <;>
        simpa [Heard, Session.acceptCompletion, Session.opened, Session.recvCount, hrole, hout,
          Called.openedCompletion, hempty] using And.intro hle heq
  | called _ _ _ _ hri =>
    rw [hrole] at hri
    cases hri

end

section
variable {t : Progress q} {a b : End β π}

theorem Linked.bob_sent (h : Linked q t a b) {s' : Session β π} {x : Option PyError}
    (hs : Session.Sent P b.session s' x) :
    Linked q t a { b with session := s', log := b.log ++ b.session.pendingEncrypts } := by
  have hn := h.bobLog.sent hs
  have hr := h.bobRec.sent hs
  have hrole := h.bobAt.role
  cases hs with
  | idle => exact h.bob_quiet h.bobAt hn hr (fun _ => .inl) (fun _ => id) rfl rfl
  | failed =>
    exact h.bob_quiet (h.bobAt.congr rfl rfl rfl) hn hr (fun _ => .inl) (fun _ => id) rfl rfl
  | @message payload pdu hest hp hm =>
    obtain ⟨keys, cid, nonce, call, hk, hcid, _, hnonce, hcall, _, rfl⟩ := h.bobLog.message hest hp hm
    obtain ⟨c, reply, hreply, hcid', _⟩ := h.bobAt.establishedPhase hest
    have hkeys : keys = c.keys := by
      have := h.bobAt.keyed
      rw [hk, hreply] at this
      exact Option.some.inj this
    cases hcid.symm.trans hcid'
    subst hkeys
    rw [Session.countSent_eq] at hn hr ⊢
    refine h.bob_quiet (h.bobAt.congr rfl rfl rfl) hn hr (fun d hd => ?_) (fun _ => id) ?_ rfl
    · obtain hd | hd := List.mem_append.mp hd
      · exact .inl hd
      · rw [List.mem_singleton.mp hd]
        refine .inr (.inr ⟨c, reply, hreply, .inr ⟨_, call, nonce, hcall, ?_, ?_⟩⟩)
        · rwa [Session.sending_eq, hrole] at hnonce
        · rw [Session.sending_eq, hrole]
          rfl
    · simp [Session.recvCount, hrole]

theorem Linked.bob_ticked (h : Linked q t a b) {now : Int} {s' : Session β π}
    (hd : b.session.state ≠ .dropped) (hk : Session.Ticked b.session now s') :
    Linked q t a { b with session := s' } := by
  have hn := h.bobLog.ticked hk
  have hr := h.bobRec.ticked hk
  rw [← List.append_nil b.log] at hn hr
  have hquiet := fun (hs : BobAt t s') hsaid hq hc ho => h.bob_quiet hs hn hr hsaid hq hc ho
  rw [List.append_nil] at hquiet
  cases hk with
  | idle => exact h
  | dropped hest hinit =>
    have hnone : t.reply? = none := by
      cases h.bobAt.phase with
      | silent h' => exact absurd h' hinit
      | waiting _ _ _ hr => exact hr
      | established _ _ h' => exact absurd h' hest
      | dropped h' => exact absurd h' hd
    exact hquiet ⟨h.bobAt.role, h.bobAt.keys, h.bobAt.config, h.bobAt.keyed,
      .dropped rfl (h.bobAt.answered hinit) hnone⟩ (fun _ => .inl) (fun _ => id) rfl rfl
  | retried _ _ hri =>
    rw [h.bobAt.role] at hri
    cases hri

variable [DecidableEq β] [DecidableEq π]

theorem Linked.bob_update (hP : P.Correct) (h : Linked q t a b) (now : Int) {e : Entropy β}
    (he : e.Fits P) : ∃ t', Linked q t' a (b.act P (.update now e)) := by
  refine Session.update_encrypting hP.encrypt_ne_nil
    (I := fun s log => ∃ t', Linked q t' a { b with session := s, log })
    (fun s' x calls hd ht h => ?_) (fun s₁ s' x log hs h => ?_) (fun s₁ s' log hd hk h => ?_) ⟨t, h⟩
  · exact h.elim fun t' h => h.bob_took hP he hd ht
  · exact h.elim fun t' h => ⟨t', h.bob_sent hs⟩
  · exact h.elim fun t' h => ⟨t', h.bob_ticked hd hk⟩

/-! ## The other calls -/

theorem mem_getPdu {x : End β π} {der : π} : der ∈ (x.act P .getPdu).emitted ++
    (x.act P .getPdu).session.outgoingPdus ↔ der ∈ x.emitted ++ x.session.outgoingPdus := by
  cases hq : x.session.outgoingPdus with
  | nil => simp [End.act, Session.getPdu, hq, Except.toOption]
  | cons pdu rest => simp [End.act, Session.getPdu, hq, Except.toOption]

theorem getPdu_frame (x : End β π) : (x.act P .getPdu).session.standing = x.session.standing ∧
    (x.act P .getPdu).session.incomingQueue = x.session.incomingQueue ∧
    (x.act P .getPdu).session.inbound = x.session.inbound := by
  simp only [End.act, Session.getPdu]
  split <;> exact ⟨rfl, rfl, rfl⟩

omit [DecidableEq β] [DecidableEq π] in
theorem Heard.congr {r r' s : End β π} (h : Heard P r s)
    (hc : r'.session.recvCount = r.session.recvCount)
    (ho : r'.surfaced ++ r'.session.outgoingPayloads =
      r.surfaced ++ r.session.outgoingPayloads) : Heard P r' s := by
  unfold Heard
  rw [hc, ho]
  exact h

theorem getPayload_frame (x : End β π) :
    (x.act P .getPayload).session.standing = x.session.standing ∧
    (x.act P .getPayload).session.incomingQueue = x.session.incomingQueue ∧
    (x.act P .getPayload).session.outgoingPdus = x.session.outgoingPdus ∧
    (x.act P .getPayload).session.recvCount = x.session.recvCount ∧
    (x.act P .getPayload).surfaced ++ (x.act P .getPayload).session.outgoingPayloads =
      x.surfaced ++ x.session.outgoingPayloads := by
  simp only [End.act, Session.getPayload]
  split
  · rename_i hq
    simp [hq, Except.toOption]
  · rename_i payload rest hq
    refine ⟨rfl, rfl, rfl, rfl, ?_⟩
    simp [hq, Except.toOption]

theorem postPayload_frame (x : End β π) (payload : List β) :
    (x.act P (.postPayload payload)).session.standing = x.session.standing ∧
    (x.act P (.postPayload payload)).session.incomingQueue = x.session.incomingQueue ∧
    (x.act P (.postPayload payload)).session.outgoingPdus = x.session.outgoingPdus ∧
    (x.act P (.postPayload payload)).session.recvCount = x.session.recvCount ∧
    (x.act P (.postPayload payload)).session.outgoingPayloads = x.session.outgoingPayloads := by
  simp only [End.act, Session.postPayload]
  split <;> exact ⟨rfl, rfl, rfl, rfl, rfl⟩

end

end KemMake
