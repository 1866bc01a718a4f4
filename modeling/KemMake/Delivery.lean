import KemMake.Nonces

/-!
# What an end surfaces is what the other end encrypted

Two ends that hold the same secrets, and an adversary between them that drops,
repeats, reorders, alters and makes up PDUs, but has no ciphertext under these
secrets other than those the ends have made.
-/

namespace KemMake

variable {β π : Type}

namespace Session

/-! ## One end -/

/-- How many payloads of the other end are accounted for. -/
def recvCount (s : Session β π) : Nat :=
  match s.role with
  | .initiator => s.seqB2a
  | .responder => s.seqA2b

theorem receiving_eq (s : Session β π) (keys : SessionKeys β) :
    s.receiving keys = match s.role with
      | .initiator => (keys.keyB2a, keys.ivB2a, s.recvCount)
      | .responder => (keys.keyA2b, keys.ivA2b, s.recvCount) := by
  unfold receiving recvCount
  cases s.role <;> rfl

/-- Nothing is surfaced early, and only the initiator's first payload may be empty. -/
structure Receptive (s : Session β π) (log : List (EncryptCall β)) : Prop where
  early : s.state ≠ .established → s.outgoingPayloads = [] ∧ s.recvCount = 0
  counting : s.role = .responder → s.state = .established → 1 ≤ s.recvCount
  filled : s.pendingPayload ≠ some []
  plain : ∀ i call, log[i]? = some call → call.plaintext = [] → i = 0 ∧ s.role = .initiator

variable {P : Primitives β π} {s s' : Session β π} {log : List (EncryptCall β)}

/-- What `Receptive` says of a session, its state apart. -/
def inbound (s : Session β π) : Role × List (List β) × Nat × Option (List β) :=
  (s.role, s.outgoingPayloads, s.recvCount, s.pendingPayload)

theorem Receptive.congr (h : s.Receptive log) (hi : s'.inbound = s.inbound)
    (hs : s'.state = s.state ∨ s.state ≠ .established ∧ s'.state ≠ .established) :
    s'.Receptive log := by
  simp only [inbound, Prod.mk.injEq] at hi
  obtain ⟨hr, ho, hc, hp⟩ := hi
  constructor
  · intro hne
    rw [ho, hc]
    obtain hs | ⟨hs, _⟩ := hs
    · exact h.early (hs ▸ hne)
    · exact h.early hs
  · intro hresp hest
    rw [hc]
    obtain hs | ⟨_, hs⟩ := hs
    · exact h.counting (hr ▸ hresp) (hs ▸ hest)
    · exact absurd hest hs
  · rw [hp]
    exact h.filled
  · rw [hr]
    exact h.plain

theorem receptive_new (role : Role) (ownKeyId : Option (KeyId β)) (keys : KeyLookup β)
    (config : SessionConfig) : (new role ownKeyId keys config : Session β π).Receptive [] := by
  constructor
  · intro _
    cases role <;> exact ⟨rfl, rfl⟩
  · intro _ h
    cases h
  · simp [new]
  · simp

theorem Receptive.fork (h : s.Receptive log) {t : Session β π} (hf : s.fork = .ok t) :
    t.Receptive [] := by
  obtain ⟨hr, hs, _, rfl⟩ := fork_ok.mp hf
  constructor
  · intro _
    simp [twin, new, recvCount, hr]
  · intro _ h
    cases h
  · exact h.filled
  · simp

theorem Receptive.initiate (h : s.Receptive log) (peerKeyId : KeyId β) (now : Int)
    (e : Entropy β) : (s.initiate P peerKeyId now e).1.Receptive log := by
  unfold Session.initiate
  split
  · exact h
  split
  · exact h
  rename_i hs
  have hs : s.state = .initial := by simpa using hs
  have hne : s.state ≠ .established := by simp [hs]
  cases s.ownKeyId with
  | none => exact h.congr rfl (.inl rfl)
  | some ownKeyId =>
    simp only [sendInitRequest]
    split
    · exact h.congr rfl (.inl rfl)
    split
    · exact h.congr rfl (.inl rfl)
    split
    · exact h.congr rfl (.inl rfl)
    split
    · exact h.congr rfl (.inl rfl)
    · exact h.congr rfl (.inr ⟨hne, by simp⟩)

theorem Receptive.postPayload (h : s.Receptive log) (payload : List β) :
    (s.postPayload payload).1.Receptive log := by
  rw [postPayload_eq]
  refine ⟨h.early, h.counting, ?_, h.plain⟩
  simp only
  split
  · exact h.filled
  · rename_i hp
    simpa using hp

theorem Receptive.getPdu (h : s.Receptive log) : s.getPdu.1.Receptive log := by
  unfold Session.getPdu
  split
  · exact h
  · exact h.congr rfl (.inl rfl)

theorem Receptive.getPayload (h : s.Receptive log) : s.getPayload.1.Receptive log := by
  unfold Session.getPayload
  split
  · exact h
  · rename_i payload rest hq
    refine ⟨fun hne => ?_, h.counting, h.filled, h.plain⟩
    rw [(h.early hne).1] at hq
    cases hq

section
variable {now : Int} {e : Entropy β} {x : Option PyError}

theorem Receptive.took {calls : List (EncryptCall β)} (ht : TookEncrypting P s now e s' x calls)
    (hn : s.Numbered P log) (h : s.Receptive log) : s'.Receptive (log ++ calls) := by
  cases ht with
  | nothing ht hs =>
    rw [List.append_nil]
    cases ht with
    | idle | ignored | undecoded | refused => exact h.congr rfl (.inl rfl)
    | resent =>
      rw [resend_eq]
      exact h.congr rfl (.inl rfl)
    | answered _ _ _ hi => exact h.congr rfl (.inr ⟨by simp [hi], by simp [acceptInitRequest]⟩)
    | completed _ _ _ hstate =>
      have := hs (.inr hstate)
      simp [acceptCompletion, hstate] at this
    | called _ _ _ hstate =>
      have := hs (.inl hstate)
      simp [acceptInitResponse, hstate] at this
    | confirmed _ _ _ _ hr | replied _ _ _ _ hr =>
      exact ⟨by simp [acceptReply], by simp [acceptReply, hr], h.filled, h.plain⟩
    | received _ _ _ hest =>
      rw [countReceived_eq]
      refine ⟨fun hne => absurd hest hne, fun hr _ => ?_, h.filled, h.plain⟩
      simp only at hr
      simp [recvCount, hr]
  | completed _ _ _ hs hr =>
    have hnone := hn.silent (hn.unkeyed (.inr (.inr hs)))
    subst hnone
    refine ⟨by simp [acceptCompletion], ?_, by simp [acceptCompletion, opened], ?_⟩
    · intro _ _
      simp [recvCount, acceptCompletion, opened, hr]
    · intro i call hcall hempty
      obtain ⟨payload, hp, rfl⟩ := List.mem_map.mp (List.mem_of_getElem? hcall)
      have hp : s.pendingPayload = some payload := by simpa using hp
      have : payload = [] := hempty
      exact absurd (this ▸ hp) h.filled
  | called _ _ _ hs hr =>
    have hnone := hn.silent (hn.unkeyed (.inr (.inl hs)))
    subst hnone
    obtain ⟨ho, hc⟩ := h.early (by simp [hs])
    refine ⟨fun _ => ⟨ho, ?_⟩, by simp [acceptInitResponse, hr], by simp [acceptInitResponse], ?_⟩
    · simpa [recvCount, acceptInitResponse, hr] using hc
    · intro i call hcall _
      refine ⟨?_, hr⟩
      cases i with
      | zero => rfl
      | succ i => simp at hcall

theorem Receptive.sent (hsent : Sent P s s' x) (h : s.Receptive log) :
    s'.Receptive (log ++ s.pendingEncrypts) := by
  have hplain : ∀ i call, (log ++ s.pendingEncrypts)[i]? = some call → call.plaintext = [] →
      i = 0 ∧ s.role = .initiator := by
    intro i call hcall hempty
    by_cases hi : i < log.length
    · rw [List.getElem?_append_left hi] at hcall
      exact h.plain i call hcall hempty
    · rw [List.getElem?_append_right (by omega)] at hcall
      have hmem := List.mem_of_getElem? hcall
      unfold pendingEncrypts at hmem
      split at hmem
      · rename_i payload keys cid _ hp _ _
        simp only [List.mem_singleton] at hmem
        subst hmem
        have : payload = [] := hempty
        exact absurd (this ▸ hp) h.filled
      · cases hmem
  cases hsent with
  | idle => exact ⟨h.early, h.counting, h.filled, hplain⟩
  | failed hs => exact ⟨h.early, h.counting, by simp, hplain⟩
  | message hs =>
    rw [countSent_eq]
    refine ⟨fun hne => absurd hs hne, fun hr hest => ?_, by simp, hplain⟩
    have := h.counting hr hest
    simp only at hr
    simpa [recvCount, hr] using this

theorem Receptive.ticked (hk : Ticked s now s') (h : s.Receptive log) : s'.Receptive log := by
  cases hk with
  | idle => exact h
  | dropped hne => exact h.congr rfl (.inr ⟨hne, by simp⟩)
  | retried =>
    rw [resend_eq]
    exact h.congr rfl (.inl rfl)

variable [DecidableEq β] [DecidableEq π]

theorem Receptive.update (hP : P.Correct) (h : s.Receptive log) (hn : s.Numbered P log) (now : Int)
    (e : Entropy β) : (s.update P now e).1.Receptive (log ++ s.encrypts P now e) :=
  (update_encrypting hP.encrypt_ne_nil (I := fun s log => s.Numbered P log ∧ s.Receptive log)
    (fun _ _ _ _ ht h => ⟨h.1.took hP ht, h.2.took ht h.1⟩)
    (fun _ _ _ _ hs h => ⟨h.1.sent hs, h.2.sent hs⟩)
    (fun _ _ _ _ hk h => ⟨h.1.ticked hk, h.2.ticked hk⟩) ⟨hn, h⟩).2

theorem Logged.receptive (hP : P.Correct) (hl : Logged P s log) : s.Receptive log := by
  induction hl with
  | new role ownKeyId keys config => exact receptive_new role ownKeyId keys config
  | fork _ hf ih => exact ih.fork hf
  | initiate peerKeyId now e _ ih => exact ih.initiate peerKeyId now e
  | postPdu der _ ih => exact ih.congr rfl (.inl rfl)
  | postPayload payload _ ih => exact ih.postPayload payload
  | getPdu _ ih => exact ih.getPdu
  | getPayload _ ih => exact ih.getPayload
  | update now e hl ih => exact ih.update hP (hl.numbered hP) now e

end

end Session

/-! ## The adversary -/

/-- The fields of a PDU that an AEAD ciphertext can stand in. -/
def MakePayload.ciphertexts : MakePayload β → List (List β)
  | .sessionCompletionRequest req => [req.cM]
  | .sessionCompletionResponse resp => resp.m.toList
  | .message msg => [msg.m]
  | _ => []

/-- Ideal AEAD: what decrypts under these secrets is what one of the calls encrypted,
with the key, nonce and associated data of that call. -/
def Genuine (P : Primitives β π) (keys : SessionKeys β) (calls : List (EncryptCall β)) (der : π) :
    Prop :=
  ∀ msg, P.load der = .ok msg → ∀ ct ∈ msg.payload.ciphertexts, ∀ aead key nonce ad text,
    key = keys.keyA2b ∨ key = keys.keyB2a → P.decrypt aead key nonce ct ad = some text →
    ∃ call ∈ calls, call.aead = aead ∧ call.used P = some (key, nonce) ∧ call.ad = ad ∧
      call.plaintext = text

/-- A session with the calls it has made, the payloads it has taken and surfaced, and the
PDUs it has handed out. -/
structure End (β π : Type) where
  session : Session β π
  log : List (EncryptCall β) := []
  posted : List (List β) := []
  surfaced : List (List β) := []
  emitted : List π := []

inductive Act (β π : Type) where
  | initiate (peerKeyId : KeyId β) (now : Int) (e : Entropy β)
  | postPdu (der : π)
  | postPayload (payload : List β)
  | update (now : Int) (e : Entropy β)
  | getPdu
  | getPayload

def End.act [DecidableEq β] [DecidableEq π] (P : Primitives β π) (x : End β π) : Act β π → End β π
  | .initiate peerKeyId now e => { x with session := (x.session.initiate P peerKeyId now e).1 }
  | .postPdu der => { x with session := x.session.postPdu der }
  | .postPayload payload =>
    { x with
      session := (x.session.postPayload payload).1
      posted := x.posted ++ if payload = [] then [] else [payload] }
  | .update now e =>
    { x with session := (x.session.update P now e).1, log := x.log ++ x.session.encrypts P now e }
  | .getPdu =>
    { x with
      session := x.session.getPdu.1
      emitted := x.emitted ++ x.session.getPdu.2.toOption.toList }
  | .getPayload =>
    { x with
      session := x.session.getPayload.1
      surfaced := x.surfaced ++ x.session.getPayload.2.toOption.toList }

/-- Only PDUs come from the adversary. -/
def Allowed (P : Primitives β π) (keys : SessionKeys β) (calls : List (EncryptCall β)) :
    Act β π → Prop
  | .postPdu der => Genuine P keys calls der
  | _ => True

section
variable [DecidableEq β] [DecidableEq π]

/-- A session without secrets and with nothing to take, as a constructor, `initiate` and
`fork` leave it. -/
structure End.Fresh (P : Primitives β π) (x : End β π) : Prop where
  logged : x.session.Logged P x.log
  unkeyed : x.session.sessionKeys = none
  idle : x.session.incomingQueue = []
  quiet : x.surfaced = []

/-- Runs of two ends. -/
inductive Attacked (P : Primitives β π) (keys : SessionKeys β) : End β π → End β π → Prop
  | start {a b} : a.Fresh P → b.Fresh P → Attacked P keys a b
  | left {a b} (act : Act β π) : Attacked P keys a b → Allowed P keys (a.log ++ b.log) act →
      Attacked P keys (a.act P act) b
  | right {a b} (act : Act β π) : Attacked P keys a b → Allowed P keys (a.log ++ b.log) act →
      Attacked P keys a (b.act P act)

end

/-- The payloads that were encrypted, less the empty one a completion request without
payload carries. -/
def encrypted (P : Primitives β π) (log : List (EncryptCall β)) : List (List β) :=
  log.filterMap fun call =>
    match call.result P with
    | .error _ => none
    | .ok _ => if call.plaintext = [] then none else some call.plaintext

theorem encrypted_take_succ {P : Primitives β π} {log : List (EncryptCall β)} {n : Nat}
    {call : EncryptCall β} {ct : List β} (hcall : log[n]? = some call)
    (hct : call.result P = .ok ct) : encrypted P (log.take (n + 1)) =
      encrypted P (log.take n) ++ if call.plaintext = [] then [] else [call.plaintext] := by
  rw [List.take_add_one, hcall]
  unfold encrypted
  rw [List.filterMap_append]
  by_cases hempty : call.plaintext = [] <;> simp [hct, hempty]

theorem encrypted_cons {P : Primitives β π} {call : EncryptCall β} {ct : List β}
    {log : List (EncryptCall β)} (hct : call.result P = .ok ct) : encrypted P (call :: log) =
      (if call.plaintext = [] then [] else [call.plaintext]) ++ encrypted P log := by
  unfold encrypted
  by_cases hempty : call.plaintext = [] <;> simp [hct, hempty]

theorem encrypted_take {P : Primitives β π} (log : List (EncryptCall β)) (n : Nat) :
    encrypted P (log.take n) <+: encrypted P log :=
  ( List.take_prefix n log).filterMap _

theorem Genuine.mono {P : Primitives β π} {keys : SessionKeys β} {calls calls' : List (EncryptCall β)}
    {der : π} (h : Genuine P keys calls der) (hsub : ∀ call ∈ calls, call ∈ calls') :
    Genuine P keys calls' der := by
  intro msg hl ct hct aead key nonce ad text hkey hd
  obtain ⟨call, hcall, hrest⟩ := h msg hl ct hct aead key nonce ad text hkey hd
  exact ⟨call, hsub call hcall, hrest⟩

section
variable {P : Primitives β π} {keys : SessionKeys β} {r s : Session β π}
  {lr ls : List (EncryptCall β)}

/-- What one end opens with number `n` is what the other's call number `n` encrypted. -/
theorem Genuine.origin (hx : P.XorInjective) (hne : keys.keyA2b ≠ keys.keyB2a)
    (hrole : r.role ≠ s.role) (hr : r.Numbered P lr) (hs : s.Numbered P ls)
    (hrk : ∀ k, r.sessionKeys = some k → k = keys) (hsk : ∀ k, s.sessionKeys = some k → k = keys)
    {der : π} {msg : MakeMessage β} {ct nonce ad text : List β} {aead : Aead} {n : Nat}
    (hg : Genuine P keys (lr ++ ls) der) (hl : P.load der = .ok msg)
    (hct : ct ∈ msg.payload.ciphertexts)
    (hn : nonceForSeq P (r.receiving keys).2.1 n = .ok nonce)
    (hd : P.decrypt aead (r.receiving keys).1 nonce ct ad = some text) :
    ∃ call ct', ls[n]? = some call ∧ call.plaintext = text ∧ call.result P = .ok ct' := by
  have hkey : (r.receiving keys).1 = keys.keyA2b ∨ (r.receiving keys).1 = keys.keyB2a := by
    rw [Session.receiving_eq]
    cases r.role
    · exact .inr rfl
    · exact .inl rfl
  obtain ⟨call, hcall, _, hused, _, htext⟩ := hg msg hl ct hct aead _ nonce ad text hkey hd
  unfold EncryptCall.used at hused
  split at hused
  · cases hused
  rename_i nonce' hnonce
  simp only [Option.some.injEq, Prod.mk.injEq] at hused
  obtain ⟨hused, rfl⟩ := hused
  rw [List.mem_append] at hcall
  obtain hcall | hcall := hcall
  · -- its own calls are under the other key
    obtain ⟨k, i, hk, _, hnum⟩ := hr.under hcall
    cases hrk k hk
    rw [hnum.key, Session.sending_eq, Session.receiving_eq] at hused
    cases hrr : r.role <;> simp only [hrr] at hused
    · exact absurd hused hne
    · exact absurd hused hne.symm
  · obtain ⟨k, i, hk, hi, hnum⟩ := hs.under hcall
    cases hsk k hk
    have hiv : call.iv = (r.receiving keys).2.1 := by
      rw [hnum.iv, Session.sending_eq, Session.receiving_eq]
      cases hrr : r.role <;> cases hsr : s.role <;> simp_all
    rw [hiv] at hnonce
    have hseq := nonceForSeq_injective hx hnonce hn
    have hlt : n < seqLimit := by
      have hoct : P.octets (r.receiving keys).2.1 = aeadNonceLength := by
        rw [Session.receiving_eq]
        cases r.role
        · exact (hs.coherent.ivs keys hk).2
        · exact (hs.coherent.ivs keys hk).1
      obtain ⟨bytes, hbytes, _⟩ := nonceForSeq_ok.mp hn
      have := (toBytesBig_ok hbytes).1
      rwa [hoct] at this
    have hin : i = n := by
      rw [hnum.seq] at hseq
      omega
    subst hin
    obtain ⟨ct', hct'⟩ := (hnum.result hs.coherent hk).1 hlt
    exact ⟨call, ct', hi, htext, hct'⟩

end

/-! ## One direction -/

namespace End

/-- What holds of one end. -/
structure Sane [DecidableEq β] [DecidableEq π] (P : Primitives β π) (x : End β π) : Prop where
  logged : x.session.Logged P x.log
  late : x.surfaced ≠ [] → x.session.state = .established

/-- What `r` has of what `s` encrypted. -/
structure Hears (P : Primitives β π) (keys : SessionKeys β) (r s : End β π) : Prop where
  genuine : ∀ der ∈ r.session.incomingQueue, Genuine P keys (r.log ++ s.log) der
  matched : r.session.sessionKeys = some keys →
    (∀ k, s.session.sessionKeys = some k → k = keys) →
    r.session.recvCount ≤ s.log.length ∧
      r.surfaced ++ r.session.outgoingPayloads = encrypted P (s.log.take r.session.recvCount)

variable {P : Primitives β π} {keys : SessionKeys β} {r s : End β π}

/-- With one more payload opened, one more call is accounted for. -/
theorem encrypted_next {n : Nat} {call : EncryptCall β} {ct shown : List β}
    {surfaced : List (List β)} (hcall : s.log[n]? = some call) (hct : call.result P = .ok ct)
    (htext : call.plaintext = shown) (h : surfaced = encrypted P (s.log.take n)) :
    n + 1 ≤ s.log.length ∧ (surfaced ++ if shown = [] then [] else [shown]) =
      encrypted P (s.log.take (n + 1)) := by
  constructor
  · exact (List.getElem?_eq_some_iff.mp hcall).1
  · rw [encrypted_take_succ hcall hct, h, htext]

theorem openMessage_parts {x : Session β π} {inner : Message β} {text : List β}
    (h : x.openMessage P inner = .ok text) : ∃ keys nonce ad, x.sessionKeys = some keys ∧
      nonceForSeq P (x.receiving keys).2.1 x.recvCount = .ok nonce ∧
      P.decrypt keys.aeadName (x.receiving keys).1 nonce inner.m ad = some text := by
  unfold Session.openMessage at h
  cases hk : x.sessionKeys with
  | none => simp [hk, attr, bind, Except.bind] at h
  | some keys =>
    cases hc : x.cid with
    | none => simp [hk, hc, attr, bind, Except.bind] at h
    | some cid =>
      have hcount : (x.receiving keys).2.2 = x.recvCount := by
        rw [Session.receiving_eq]
        cases x.role <;> rfl
      simp only [hk, hc, attr, bind, Except.bind, decrypt] at h
      split at h
      · cases h
      rw [hcount] at h
      cases hn : nonceForSeq P (x.receiving keys).2.1 x.recvCount with
      | error y => simp [hn] at h
      | ok nonce =>
        simp only [hn] at h
        cases hd : P.decrypt keys.aeadName (x.receiving keys).1 nonce inner.m cid with
        | none => simp [hd] at h
        | some text' =>
          simp only [hd, pure, Except.pure, Except.ok.injEq] at h
          subst h
          exact ⟨keys, nonce, cid, rfl, hn, hd⟩

/-- The end that receives takes a PDU. -/
theorem Hears.took (hx : P.XorInjective) (hne : keys.keyA2b ≠ keys.keyB2a)
    (hrole : r.session.role ≠ s.session.role) (hs : s.session.Numbered P s.log)
    (hplain : s.session.Receptive s.log) (hr : r.session.Numbered P r.log)
    (hrec : r.session.Receptive r.log)
    (hlate : r.surfaced ≠ [] → r.session.state = .established) {now : Int} {e : Entropy β}
    {r' : Session β π} {x : Option PyError} {calls : List (EncryptCall β)}
    (ht : Session.TookEncrypting P r.session now e r' x calls) (h : Hears P keys r s) :
    Hears P keys { r with session := r', log := r.log ++ calls } s := by
  constructor
  · intro der hder
    have hmem : der ∈ r.session.incomingQueue := by
      rw [ht.took.queue] at hder
      exact List.mem_of_mem_tail hder
    refine (h.genuine der hmem).mono fun call hcall => ?_
    simp only [List.mem_append] at hcall ⊢
    exact hcall.imp .inl id
  intro hk hsk
  simp only at hk ⊢
  have hearly : r.session.state ≠ .established → r.surfaced = [] ∧
      r.session.outgoingPayloads = [] ∧ r.session.recvCount = 0 := by
    intro hstate
    refine ⟨?_, hrec.early hstate⟩
    by_contra hsur
    exact hstate (hlate hsur)
  have horigin : (∀ k, r.session.sessionKeys = some k → k = keys) → ∀ (der : π)
      (msg : MakeMessage β) (ct nonce ad text : List β) (aead : Aead) (n : Nat),
      der ∈ r.session.incomingQueue → P.load der = .ok msg → ct ∈ msg.payload.ciphertexts →
      nonceForSeq P (r.session.receiving keys).2.1 n = .ok nonce →
      P.decrypt aead (r.session.receiving keys).1 nonce ct ad = some text →
      ∃ call ct', s.log[n]? = some call ∧ call.plaintext = text ∧ call.result P = .ok ct' :=
    fun hrk der _ _ _ _ _ _ _ hq => Genuine.origin hx hne hrole hr hs hrk hsk (h.genuine der hq)
  cases ht with
  | nothing ht hst =>
    cases ht with
    | idle | ignored | undecoded | refused | confirmed => exact h.matched hk hsk
    | resent =>
      rw [Session.resend_eq] at hk ⊢
      exact h.matched hk hsk
    | answered => exact h.matched hk hsk
    | completed _ _ _ hstate =>
      have := hst (.inr hstate)
      simp [Session.acceptCompletion, hstate] at this
    | called _ _ _ hstate =>
      have := hst (.inl hstate)
      simp [Session.acceptInitResponse, hstate] at this
    | @replied der rest msg resp sent m reply hq hl hp hstate hri _ _ _ hm ho =>
      have hk : r.session.sessionKeys = some keys := hk
      obtain ⟨hsur, hout, hcount⟩ := hearly (by simp [hstate])
      obtain ⟨rep⟩ := Session.openReply_ok ho
      have hkeys : rep.keys = keys := Option.some.inj (rep.has_keys.symm.trans hk)
      have hd := rep.decrypted
      rw [hkeys] at hd
      obtain ⟨call, ct, hcall, htext, hct⟩ := horigin
        (fun k hk' => Option.some.inj (hk'.symm.trans hk)) der msg m _ _ _ keys.aeadName 0
        (hq ▸ List.mem_cons_self) hl (by simp [hp, MakePayload.ciphertexts, hm]) (nonceForSeq_zero _)
        (by simpa [Session.receiving_eq, hri] using hd)
      have hreply : reply ≠ [] := by
        intro hempty
        have := (hplain.plain 0 call hcall (htext.trans hempty)).2
        exact hrole (hri.trans this.symm)
      have hnext := encrypted_next hcall hct htext
        (show ([] : List (List β)) = encrypted P (s.log.take 0) by simp [encrypted])
      rw [if_neg hreply] at hnext
      simpa [Session.acceptReply, Session.recvCount, hri, hsur, hout] using hnext
    | @received der rest msg inner text hq hl hp hstate _ ho =>
      rw [Session.countReceived_eq] at hk ⊢
      have hk : r.session.sessionKeys = some keys := hk
      obtain ⟨hle, hmatch⟩ := h.matched hk hsk
      obtain ⟨keys', nonce, ad, hk', hn, hd⟩ := openMessage_parts ho
      cases Option.some.inj (hk.symm.trans hk')
      obtain ⟨call, ct, hcall, htext, hct⟩ := horigin
        (fun k hk' => Option.some.inj (hk'.symm.trans hk)) der msg inner.m _ _ _ _ _
        (hq ▸ List.mem_cons_self) hl (by simp [hp, MakePayload.ciphertexts]) hn hd
      have hfull : text ≠ [] := by
        intro hempty
        obtain ⟨hzero, hsi⟩ := hplain.plain _ call hcall (htext.trans hempty)
        have hrr : r.session.role = .responder := by
          cases hrr : r.session.role
          · exact absurd (hrr.trans hsi.symm) hrole
          · rfl
        have := hrec.counting hrr hstate
        omega
      have hnext := encrypted_next hcall hct htext hmatch
      rw [if_neg hfull, List.append_assoc] at hnext
      have hcount : ∀ (q : List π), Session.recvCount { r.session with
          seqA2b := r.session.seqA2b + (if r.session.role = .responder then 1 else 0)
          seqB2a := r.session.seqB2a + (if r.session.role = .initiator then 1 else 0)
          incomingQueue := q
          outgoingPayloads := r.session.outgoingPayloads ++ [text] } = r.session.recvCount + 1 := by
        intro q
        cases hrr : r.session.role <;> simp [Session.recvCount, hrr]
      simp only [hcount]
      exact hnext
  | @completed der rest msg req o hq hl hp hstate hri _ ho =>
    obtain ⟨hsur, hout, hcount⟩ := hearly (by simp [hstate])
    obtain ⟨op⟩ := Session.openCompletion_ok ho
    have hkeys : o.keys = keys := Option.some.inj hk
    have hnone := hr.unkeyed (.inr (.inr hstate))
    have hd := op.decrypted
    rw [hkeys] at hd
    obtain ⟨call, ct, hcall, htext, hct⟩ := horigin
      (fun k hk' => by rw [hnone] at hk'; cases hk') der msg req.cM _ _ _ _ 0
      (hq ▸ List.mem_cons_self) hl (by simp [hp, MakePayload.ciphertexts])
      (nonceForSeq_zero _) (by simpa [Session.receiving_eq, hri] using hd)
    have hnext := encrypted_next hcall hct htext
        (show ([] : List (List β)) = encrypted P (s.log.take 0) by simp [encrypted])
    simpa [Session.acceptCompletion, Session.opened, Session.recvCount, hri, hsur, hout] using hnext
  | called _ _ _ hstate hri =>
    obtain ⟨hsur, hout, hcount⟩ := hearly (by simp [hstate])
    simp only [Session.recvCount, hri] at hcount
    simp [Session.acceptInitResponse, Session.recvCount, hri, hsur, hout, hcount, encrypted]

/-- The end that receives does anything else. -/
theorem Hears.congr {r' : End β π} (h : Hears P keys r s)
    (hq : ∀ der ∈ r'.session.incomingQueue,
      der ∈ r.session.incomingQueue ∨ Genuine P keys (r.log ++ s.log) der)
    (hlog : ∀ call ∈ r.log, call ∈ r'.log)
    (hk : r'.session.sessionKeys = r.session.sessionKeys)
    (hc : r'.session.recvCount = r.session.recvCount)
    (ho : r'.surfaced ++ r'.session.outgoingPayloads =
      r.surfaced ++ r.session.outgoingPayloads) : Hears P keys r' s := by
  constructor
  · intro der hder
    have hg : Genuine P keys (r.log ++ s.log) der := (hq der hder).elim (h.genuine der) id
    refine hg.mono fun call hcall => ?_
    rw [List.mem_append] at hcall ⊢
    exact hcall.imp (hlog call) id
  · intro hk' hsk
    rw [hc, ho]
    exact h.matched (hk ▸ hk') hsk

theorem Hears.sent {r' : Session β π} {x : Option PyError} (calls : List (EncryptCall β))
    (hsent : Session.Sent P r.session r' x) (h : Hears P keys r s) :
    Hears P keys { r with session := r', log := r.log ++ calls } s := by
  have hq := hsent.frame.2
  refine h.congr (fun der hder => .inl (hq ▸ hder)) (fun _ => List.mem_append_left _) ?_ ?_ ?_
  · cases hsent with
    | idle | failed => rfl
    | message => rw [Session.countSent_eq]
  · cases hsent with
    | idle | failed => rfl
    | message =>
      rw [Session.countSent_eq]
      cases hr : r.session.role <;> simp [Session.recvCount, hr]
  · cases hsent with
    | idle | failed => rfl
    | message => rw [Session.countSent_eq]

theorem Hears.ticked {now : Int} {r' : Session β π} (hk : Session.Ticked r.session now r')
    (h : Hears P keys r s) : Hears P keys { r with session := r' } s := by
  have hq := hk.frame.2
  refine h.congr (fun der hder => .inl (hq ▸ hder)) (fun _ => id) ?_ ?_ ?_
  · cases hk with
    | idle | dropped => rfl
    | retried => rw [Session.resend_eq]
  · cases hk with
    | idle | dropped => rfl
    | retried =>
      rw [Session.resend_eq]
      rfl
  · cases hk with
    | idle | dropped => rfl
    | retried => rw [Session.resend_eq]

/-- The end that sends does anything: what it encrypted stays, and once made its secrets stay. -/
theorem Hears.peer {s' : End β π} (h : Hears P keys r s) (calls : List (EncryptCall β))
    (hlog : s'.log = s.log ++ calls)
    (hk : ∀ k, s.session.sessionKeys = some k → s'.session.sessionKeys = some k) :
    Hears P keys r s' := by
  constructor
  · intro der hder
    refine (h.genuine der hder).mono fun call hcall => ?_
    rw [hlog, ← List.append_assoc]
    exact List.mem_append_left _ hcall
  · intro hrk hsk
    obtain ⟨hle, hmatch⟩ := h.matched hrk fun k hk' => hsk k (hk k hk')
    rw [hlog, List.take_append_of_le_length hle, List.length_append]
    exact ⟨by omega, hmatch⟩

theorem initiate_inbound (x : Session β π) (peerKeyId : KeyId β) (now : Int) (e : Entropy β) :
    (x.initiate P peerKeyId now e).1.inbound = x.inbound ∧
      (x.initiate P peerKeyId now e).1.sessionKeys = x.sessionKeys ∧
      (x.initiate P peerKeyId now e).1.incomingQueue = x.incomingQueue ∧
      (x.state = .established → (x.initiate P peerKeyId now e).1.state = .established) := by
  unfold Session.initiate
  split
  · exact ⟨rfl, rfl, rfl, id⟩
  split
  · exact ⟨rfl, rfl, rfl, id⟩
  rename_i hs
  have hs : x.state = .initial := by simpa using hs
  have hne : x.state = .established → ∀ p : Prop, p := by simp [hs]
  cases x.ownKeyId with
  | none => exact ⟨rfl, rfl, rfl, id⟩
  | some ownKeyId =>
    simp only [Session.sendInitRequest]
    split
    · exact ⟨rfl, rfl, rfl, id⟩
    split
    · exact ⟨rfl, rfl, rfl, id⟩
    split
    · exact ⟨rfl, rfl, rfl, id⟩
    split
    · exact ⟨rfl, rfl, rfl, id⟩
    · exact ⟨rfl, rfl, rfl, fun h => hne h _⟩

variable [DecidableEq β] [DecidableEq π]

/-- Secrets are derived once. -/
theorem update_keyed (hP : P.Correct) {x : Session β π} {log : List (EncryptCall β)}
    (hn : x.Numbered P log) {k : SessionKeys β} (hk : x.sessionKeys = some k) (now : Int)
    (e : Entropy β) : (x.update P now e).1.sessionKeys = some k := by
  refine (Session.update_encrypting hP.encrypt_ne_nil
    (I := fun x log => x.Numbered P log ∧ x.sessionKeys = some k) (fun s' y calls _ ht h => ?_)
    (fun s₁ s' y log hs h => ⟨h.1.sent hs, ?_⟩) (fun s₁ s' log _ ht h => ⟨h.1.ticked ht, ?_⟩)
    ⟨hn, hk⟩).2
  · refine ⟨h.1.took hP ht, ?_⟩
    cases ht with
    | nothing ht hs =>
      have := ht.outbound hs
      simp only [Session.outbound, Prod.mk.injEq] at this
      exact this.2.1.trans h.2
    | completed _ _ _ hs =>
      rw [h.1.unkeyed (.inr (.inr hs))] at h
      cases h.2
    | called _ _ _ hs =>
      rw [h.1.unkeyed (.inr (.inl hs))] at h
      cases h.2
  · cases hs with
    | idle | failed => exact h.2
    | message =>
      rw [Session.countSent_eq]
      exact h.2
  · cases ht with
    | idle | dropped => exact h.2
    | retried =>
      rw [Session.resend_eq]
      exact h.2

theorem act_role (hP : P.Correct) (x : End β π) (a : Act β π) :
    (x.act P a).session.role = x.session.role := by
  cases a with
  | initiate peerKeyId now e =>
    have h := (initiate_inbound (P := P) x.session peerKeyId now e).1
    simp only [Session.inbound, Prod.mk.injEq] at h
    exact h.1
  | postPdu => rfl
  | postPayload payload => simp only [act, Session.postPayload_eq]
  | update now e =>
    have h := Session.update_identity hP.encrypt_ne_nil x.session now e
    simp only [Session.identity, Prod.mk.injEq] at h
    exact h.1
  | getPdu => simp only [act, Session.getPdu]; split <;> rfl
  | getPayload => simp only [act, Session.getPayload]; split <;> rfl

theorem Sane.act (hP : P.Correct) {x : End β π} (h : x.Sane P) (a : Act β π) :
    (x.act P a).Sane P := by
  obtain ⟨hl, hlate⟩ := h
  cases a with
  | initiate peerKeyId now e =>
    have hs := (initiate_inbound (P := P) x.session peerKeyId now e).2.2.2
    exact ⟨hl.initiate peerKeyId now e, fun hsur => hs (hlate hsur)⟩
  | postPdu der => exact ⟨hl.postPdu der, hlate⟩
  | postPayload payload =>
    refine ⟨hl.postPayload payload, fun hsur => ?_⟩
    simp only [End.act, Session.postPayload_eq]
    exact hlate hsur
  | update now e =>
    refine ⟨hl.update now e, fun hsur => ?_⟩
    exact Session.update_established hP.encrypt_ne_nil (hlate hsur) now e
  | getPdu =>
    refine ⟨hl.getPdu, fun hsur => ?_⟩
    simp only [End.act, Session.getPdu]
    split <;> exact hlate hsur
  | getPayload =>
    refine ⟨hl.getPayload, fun hsur => ?_⟩
    have hrec := hl.receptive hP
    cases hq : x.session.outgoingPayloads with
    | nil =>
      simp only [End.act, Session.getPayload, hq, Except.toOption, Option.toList_none,
        List.append_nil] at hsur ⊢
      exact hlate hsur
    | cons payload rest =>
      simp only [End.act, Session.getPayload, hq]
      by_contra hne
      rw [(hrec.early hne).1] at hq
      cases hq

/-- One step of the end that receives. -/
theorem Hears.act (hP : P.Correct) (hx : P.XorInjective) (hne : keys.keyA2b ≠ keys.keyB2a)
    (hrole : r.session.role ≠ s.session.role) (hr : r.Sane P) (hs : s.Sane P) (a : Act β π)
    (ha : Allowed P keys (r.log ++ s.log) a) (h : Hears P keys r s) :
    Hears P keys (r.act P a) s := by
  cases a with
  | initiate peerKeyId now e =>
    obtain ⟨hi, hk, hq, _⟩ := initiate_inbound (P := P) r.session peerKeyId now e
    simp only [Session.inbound, Prod.mk.injEq] at hi
    exact h.congr (fun der hder => .inl (hq ▸ hder)) (fun _ => id) hk hi.2.2.1 (by simp [End.act, hi.2.1])
  | postPdu der =>
    refine h.congr (fun der' hder => ?_) (fun _ => id) rfl rfl rfl
    rcases List.mem_append.mp hder with hder | hder
    · exact .inl hder
    · rw [List.mem_singleton.mp hder]
      exact .inr ha
  | postPayload payload =>
    refine h.congr (fun der' hder => .inl ?_) (fun _ => id) ?_ ?_ ?_ <;>
      simp only [End.act, Session.postPayload_eq] at *
    · exact hder
    · rfl
  | update now e =>
    have hn := hr.logged.numbered hP
    have hrec := hr.logged.receptive hP
    refine (Session.update_encrypting hP.encrypt_ne_nil
      (I := fun x log => Hears P keys { r with session := x, log } s ∧ x.Numbered P log ∧
        x.Receptive log) (fun s' y calls _ ht h => ?_)
      (fun s₁ s' y log hsent h => ⟨h.1.sent _ hsent, h.2.1.sent hsent, h.2.2.sent hsent⟩)
      (fun s₁ s' log _ hk h => ⟨h.1.ticked hk, h.2.1.ticked hk, h.2.2.ticked hk⟩)
      ⟨h, hn, hrec⟩).1
    refine ⟨?_, h.2.1.took hP ht, h.2.2.took ht h.2.1⟩
    exact h.1.took hx hne hrole (hs.logged.numbered hP) (hs.logged.receptive hP) hn hrec hr.late ht
  | getPdu =>
    refine h.congr (fun der' hder => .inl ?_) (fun _ => id) ?_ ?_ ?_
    all_goals simp only [End.act, Session.getPdu] at *
    · split at hder <;> exact hder
    · split <;> rfl
    · split <;> rfl
    · split <;> rfl
  | getPayload =>
    refine h.congr (fun der' hder => .inl ?_) (fun _ => id) ?_ ?_ ?_
    all_goals simp only [End.act, Session.getPayload] at *
    · split at hder <;> exact hder
    · split <;> rfl
    · split <;> rfl
    · split <;> simp_all [Except.toOption]

/-- One step of the end that sends. -/
theorem Hears.peer_act (hP : P.Correct) (hs : s.Sane P) (a : Act β π) (h : Hears P keys r s) :
    Hears P keys r (s.act P a) := by
  cases a with
  | initiate peerKeyId now e =>
    have hk := (initiate_inbound (P := P) s.session peerKeyId now e).2.1
    exact h.peer [] (by simp [End.act]) fun k hk' => hk.trans hk'
  | postPdu der => exact h.peer [] (by simp [End.act]) fun k hk => hk
  | postPayload payload =>
    refine h.peer [] (by simp [End.act]) fun k hk => ?_
    simpa only [End.act, Session.postPayload_eq] using hk
  | update now e =>
    exact h.peer _ rfl fun k hk => update_keyed hP (hs.logged.numbered hP) hk now e
  | getPdu =>
    refine h.peer [] (by simp [End.act]) fun k hk => ?_
    simp only [End.act, Session.getPdu]
    split <;> exact hk
  | getPayload =>
    refine h.peer [] (by simp [End.act]) fun k hk => ?_
    simp only [End.act, Session.getPayload]
    split <;> exact hk

end End

variable [DecidableEq β] [DecidableEq π] {P : Primitives β π} {keys : SessionKeys β}
  {a b : End β π}

theorem Attacked.sane (hP : P.Correct) (h : Attacked P keys a b) : a.Sane P ∧ b.Sane P := by
  induction h with
  | start ha hb =>
    exact ⟨⟨ha.logged, fun h => absurd ha.quiet h⟩, hb.logged, fun h => absurd hb.quiet h⟩
  | left act _ _ ih => exact ⟨ih.1.act hP act, ih.2⟩
  | right act _ _ ih => exact ⟨ih.1, ih.2.act hP act⟩

theorem End.Fresh.hears (h : a.Fresh P) : End.Hears P keys a b := by
  constructor
  · intro der hder
    rw [h.idle] at hder
    cases hder
  · intro hk
    rw [h.unkeyed] at hk
    cases hk

theorem Attacked.hears (hP : P.Correct) (hx : P.XorInjective) (hne : keys.keyA2b ≠ keys.keyB2a)
    (h : Attacked P keys a b) (hrole : a.session.role ≠ b.session.role) :
    End.Hears P keys a b ∧ End.Hears P keys b a := by
  induction h with
  | start ha hb => exact ⟨ha.hears, hb.hears⟩
  | @left a b act hr hok ih =>
    rw [End.act_role hP] at hrole
    obtain ⟨hab, hba⟩ := ih hrole
    obtain ⟨ha, hb⟩ := hr.sane hP
    exact ⟨hab.act hP hx hne hrole ha hb act hok, hba.peer_act hP ha act⟩
  | @right a b act hr hok ih =>
    rw [End.act_role hP] at hrole
    obtain ⟨hab, hba⟩ := ih hrole
    obtain ⟨ha, hb⟩ := hr.sane hP
    refine ⟨hab.peer_act hP hb act, hba.act hP hx hne hrole.symm hb ha act ?_⟩
    cases act with
    | postPdu der =>
      refine Genuine.mono hok fun call hcall => ?_
      rw [List.mem_append] at hcall ⊢
      exact hcall.symm
    | _ => trivial

/-- Nothing is surfaced before the session is established, and what either end surfaces is
a prefix of what the other encrypted for it. -/
theorem surfaced_in_order (hP : P.Correct) (hx : P.XorInjective) (hne : keys.keyA2b ≠ keys.keyB2a)
    (h : Attacked P keys a b) :
    (a.surfaced ≠ [] → a.session.state = .established) ∧
    (b.surfaced ≠ [] → b.session.state = .established) ∧
    (a.session.role = .initiator → b.session.role = .responder →
      a.session.sessionKeys = some keys → b.session.sessionKeys = some keys →
      b.surfaced <+: encrypted P a.log ∧ a.surfaced <+: encrypted P b.log) := by
  obtain ⟨ha, hb⟩ := h.sane hP
  refine ⟨ha.late, hb.late, fun hra hrb hka hkb => ?_⟩
  obtain ⟨hab, hba⟩ := h.hears hP hx hne (by simp [hra, hrb])
  constructor
  · obtain ⟨_, hmatch⟩ := hba.matched hkb fun k hk => Option.some.inj (hk.symm.trans hka)
    have hpre := encrypted_take (P := P) a.log b.session.recvCount
    rw [← hmatch] at hpre
    exact ( List.prefix_append _ _).trans hpre
  · obtain ⟨_, hmatch⟩ := hab.matched hka fun k hk => Option.some.inj (hk.symm.trans hkb)
    have hpre := encrypted_take (P := P) b.log a.session.recvCount
    rw [← hmatch] at hpre
    exact ( List.prefix_append _ _).trans hpre

/-! ## A run -/

/-- In the symbolic model whatever an honest call made is genuine wherever it stands. -/
theorem genuine_ideal {keys : SessionKeys Sym} {calls : List (EncryptCall Sym)}
    {msg : MakeMessage Sym} (h : ∀ ct ∈ msg.payload.ciphertexts, ∃ call ∈ calls,
      (call.result ideal).toOption = some ct) : Genuine ideal keys calls (.encoded msg) := by
  intro msg' hl ct hct aead key nonce ad text _ hd
  have hmsg : msg' = msg := by
    simp only [ideal, Ideal.load] at hl
    split at hl
    · exact (Except.ok.inj hl).symm
    · cases hl
  subst hmsg
  obtain ⟨call, hcall, hresult⟩ := h ct hct
  cases hn : nonceForSeq ideal call.iv call.seq with
  | error x => simp [EncryptCall.result, encrypt, hn, bind, Except.bind, Except.toOption] at hresult
  | ok n =>
    simp only [EncryptCall.result, encrypt, hn, bind, Except.bind, pure, Except.pure,
      Except.toOption, Option.some.injEq] at hresult
    subst hresult
    have hd : [Symbolic.Block.aead call.aead call.key n call.plaintext call.ad] =
        [Symbolic.Block.aead aead key nonce text ad] := Ideal.decrypt_eq_some hd
    simp only [List.cons.injEq, Symbolic.Block.aead.injEq, and_true] at hd
    obtain ⟨rfl, rfl, rfl, rfl, rfl⟩ := hd
    exact ⟨call, hcall, rfl, by simp [EncryptCall.used, hn], rfl, rfl⟩

/-- The last PDU that `x` has to send. -/
def End.last (x : End Sym Pdu) : Pdu := x.session.outgoingPdus.getLast?.getD (.junk 0)

/-- Some call made the ciphertexts of a PDU. -/
def Made (calls : List (EncryptCall Sym)) : Pdu → Bool
  | .encoded msg => msg.payload.ciphertexts.all fun ct =>
      calls.any fun call => decide ((call.result ideal).toOption = some ct)
  | .junk _ | .odd _ => true

/-- `x` gets a PDU and updates. -/
def End.hear (x : End Sym Pdu) (der : Pdu) (k : Nat) : End Sym Pdu :=
  (x.act ideal (.postPdu der)).act ideal (.update 0 (draw k))

theorem made_genuine {keys : SessionKeys Sym} {calls : List (EncryptCall Sym)} {der : Pdu}
    (h : Made calls der = true) : Genuine ideal keys calls der := by
  cases der with
  | encoded msg =>
    apply genuine_ideal
    intro ct hct
    simp only [Made, List.all_eq_true, List.any_eq_true, decide_eq_true_eq] at h
    exact h ct hct
  | junk | odd =>
    intro msg hl
    cases hl

theorem Attacked.hearLeft {keys : SessionKeys Sym} {a b : End Sym Pdu}
    (h : Attacked ideal keys a b) (der : Pdu) (k : Nat) (hm : Made (a.log ++ b.log) der = true) :
    Attacked ideal keys (a.hear der k) b :=
  (h.left (.postPdu der) (made_genuine hm)).left (.update 0 (draw k)) trivial

theorem Attacked.hearRight {keys : SessionKeys Sym} {a b : End Sym Pdu}
    (h : Attacked ideal keys a b) (der : Pdu) (k : Nat) (hm : Made (a.log ++ b.log) der = true) :
    Attacked ideal keys a (b.hear der k) :=
  (h.right (.postPdu der) (made_genuine hm)).right (.update 0 (draw k)) trivial

/-- Alice calls Bob with a payload for him. -/
def caller : End Sym Pdu where
  session := ((((Session.new .initiator (some (staticId 0)) (staticLookup 0) {}).postPayload
    [.octet 1]).1.initiate ideal (staticId 1) 0 (draw 0))).1

def callee : End Sym Pdu where
  session := ((Session.new .responder none (staticLookup 1) {}).postPayload [.octet 2]).1

theorem caller_fresh : caller.Fresh ideal where
  logged := ((Session.Logged.new _ _ _ _).postPayload _).initiate _ _ _
  unkeyed := by decide +kernel
  idle := by decide +kernel
  quiet := rfl

theorem callee_fresh : callee.Fresh ideal where
  logged := (Session.Logged.new _ _ _ _).postPayload _
  unkeyed := rfl
  idle := rfl
  quiet := rfl

def answering : End Sym Pdu := callee.hear caller.last 1
def completing : End Sym Pdu := caller.hear answering.last 2
def opening : End Sym Pdu := (answering.hear completing.last 3).act ideal .getPayload
/-- The adversary repeats the completion request before the reply gets through. -/
def repeated : End Sym Pdu := opening.hear completing.last 4
def replied : End Sym Pdu := (completing.hear repeated.last 5).act ideal .getPayload

theorem attacked_replied (keys : SessionKeys Sym) : Attacked ideal keys replied repeated := by
  have h : Attacked ideal keys caller callee := .start caller_fresh callee_fresh
  have h := h.hearRight caller.last 1 (by decide +kernel)
  have h := Attacked.hearLeft h answering.last 2 (by decide +kernel)
  have h := (Attacked.hearRight h completing.last 3 (by decide +kernel)).right .getPayload trivial
  have h := Attacked.hearRight h completing.last 4 (by decide +kernel)
  exact (Attacked.hearLeft h repeated.last 5 (by decide +kernel)).left .getPayload trivial

theorem replied_keys : ∃ keys, replied.session.sessionKeys = some keys ∧
    repeated.session.sessionKeys = some keys ∧ keys.keyA2b ≠ keys.keyB2a := by
  have hsome : (replied.session.sessionKeys.any fun k => k.keyA2b ≠ k.keyB2a) = true := by
    decide +kernel
  have hsame : replied.session.sessionKeys = repeated.session.sessionKeys := by decide +kernel
  obtain ⟨keys, hkeys, hne⟩ := (Option.any_eq_true _ _).mp hsome
  exact ⟨keys, hkeys, hsame ▸ hkeys, by simpa using hne⟩

theorem surfaced_in_order_replied : repeated.surfaced <+: encrypted ideal replied.log ∧
    replied.surfaced <+: encrypted ideal repeated.log := by
  obtain ⟨keys, hka, hkb, hne⟩ := replied_keys
  exact (surfaced_in_order Ideal.ideal_correct Session.ideal_xorInjective hne (attacked_replied keys)).2.2
    (by decide +kernel) (by decide +kernel) hka hkb

example : repeated.surfaced = [[.octet 1]] ∧ replied.surfaced = [[.octet 2]] := by
  decide +kernel

end KemMake
