import KemMake.Encryptions
import KemMake.Handshake
import KemMake.Raising

/-!
# Every nonce is used once

The calls of `_encrypt` that a session makes are numbered from 0 without a gap, up to
2^96, which has no nonce: there the count stops, and every further call raises.
-/

namespace KemMake

variable {β π : Type}

/-! ## Nonces -/

/-- The first number without a nonce. -/
def seqLimit : Nat := 256 ^ aeadNonceLength

/-- A pad of as many octets as `iv` can be read back from `iv` and the result. -/
def Primitives.XorInjective (P : Primitives β π) : Prop :=
  ∀ iv pad pad', pad.length = P.octets iv → pad'.length = P.octets iv →
    (∀ b ∈ pad, b < 256) → (∀ b ∈ pad', b < 256) →
    P.xorBytes iv pad = P.xorBytes iv pad' → pad = pad'

theorem digits_injective {n a b : Nat} (ha : a < 256 ^ n) (hb : b < 256 ^ n)
    (h : ∀ i < n, a / 256 ^ i % 256 = b / 256 ^ i % 256) : a = b := by
  induction n generalizing a b with
  | zero => omega
  | succ n ih =>
    have hdiv : a / 256 = b / 256 := by
      apply ih
      · rw [Nat.pow_succ] at ha
        omega
      · rw [Nat.pow_succ] at hb
        omega
      · intro i hi
        have := h (i + 1) (by omega)
        rwa [Nat.pow_succ', ← Nat.div_div_eq_div_mul, ← Nat.div_div_eq_div_mul] at this
    have hmod := h 0 (by omega)
    simp only [Nat.pow_zero, Nat.div_one] at hmod
    omega

theorem toBytesBig_ok {length seq : Nat} {bytes : List Nat} (h : toBytesBig length seq = .ok bytes) :
    seq < 256 ^ length ∧
      bytes = (List.range length).map fun i => seq / 256 ^ (length - 1 - i) % 256 := by
  unfold toBytesBig at h
  split at h
  · rename_i hlt
    cases h
    exact ⟨hlt, rfl⟩
  · cases h

theorem toBytesBig_injective {length a b : Nat} {bytes : List Nat}
    (ha : toBytesBig length a = .ok bytes) (hb : toBytesBig length b = .ok bytes) : a = b := by
  obtain ⟨hla, rfl⟩ := toBytesBig_ok ha
  obtain ⟨hlb, heq⟩ := toBytesBig_ok hb
  apply digits_injective hla hlb
  intro i hi
  rw [List.map_inj_left] at heq
  have := heq (length - 1 - i) (List.mem_range.mpr (by omega))
  rwa [show length - 1 - (length - 1 - i) = i by omega] at this

theorem nonceForSeq_ok {P : Primitives β π} {iv nonce : List β} {seq : Nat} :
    nonceForSeq P iv seq = .ok nonce ↔
      ∃ bytes, toBytesBig (P.octets iv) seq = .ok bytes ∧ P.xorBytes iv bytes = nonce := by
  unfold nonceForSeq
  cases toBytesBig (P.octets iv) seq <;> simp [bind, Except.bind, pure, Except.pure]

/-- A number from the limit on fails, it does not wrap. -/
theorem nonceForSeq_error {P : Primitives β π} {iv : List β} {seq : Nat} :
    nonceForSeq P iv seq = .error .overflowError ↔ 256 ^ P.octets iv ≤ seq := by
  unfold nonceForSeq toBytesBig
  by_cases h : seq < 256 ^ P.octets iv
  · simp [h, bind, Except.bind, pure, Except.pure]
  · simp [h, bind, Except.bind, Nat.le_of_not_lt h]

theorem nonceForSeq_injective {P : Primitives β π} (hx : P.XorInjective) {iv nonce : List β}
    {a b : Nat} (ha : nonceForSeq P iv a = .ok nonce) (hb : nonceForSeq P iv b = .ok nonce) :
    a = b := by
  obtain ⟨bytes, hbytes, hn⟩ := nonceForSeq_ok.mp ha
  obtain ⟨bytes', hbytes', hn'⟩ := nonceForSeq_ok.mp hb
  have hlen : ∀ {seq : Nat} {bs : List Nat}, toBytesBig (P.octets iv) seq = .ok bs →
      bs.length = P.octets iv ∧ ∀ x ∈ bs, x < 256 := by
    intro seq bs hbs
    obtain ⟨_, rfl⟩ := toBytesBig_ok hbs
    constructor
    · simp
    · intro x hx
      obtain ⟨i, _, rfl⟩ := List.mem_map.mp hx
      omega
  have heq := hx iv bytes bytes' (hlen hbytes).1 (hlen hbytes').1 (hlen hbytes).2 (hlen hbytes').2
    (hn.trans hn'.symm)
  subst heq
  exact toBytesBig_injective hbytes hbytes'

/-! ## The calls of a session -/

namespace Session

/-- A session that never calls `reset`, and the calls it has made so far. -/
inductive Logged [DecidableEq β] [DecidableEq π] (P : Primitives β π) :
    Session β π → List (EncryptCall β) → Prop
  | new (role : Role) (ownKeyId : Option (KeyId β)) (keys : KeyLookup β) (config : SessionConfig) :
      Logged P (new role ownKeyId keys config) []
  | fork {s t log} : Logged P s log → s.fork = .ok t → Logged P t []
  | initiate {s log} (peerKeyId : KeyId β) (now : Int) (e : Entropy β) : Logged P s log →
      Logged P (s.initiate P peerKeyId now e).1 log
  | postPdu {s log} (der : π) : Logged P s log → Logged P (s.postPdu der) log
  | postPayload {s log} (payload : List β) : Logged P s log → Logged P (s.postPayload payload).1 log
  | getPdu {s log} : Logged P s log → Logged P s.getPdu.1 log
  | getPayload {s log} : Logged P s log → Logged P s.getPayload.1 log
  | update {s log} (now : Int) (e : Entropy β) : Logged P s log →
      Logged P (s.update P now e).1 (log ++ s.encrypts P now e)

/-- Call number `i` of `s` is for its own direction under `keys`, and passes number `i`
or the limit. -/
structure Numbers (s : Session β π) (keys : SessionKeys β) (i : Nat) (call : EncryptCall β) :
    Prop where
  aead : call.aead = keys.aeadName
  key : call.key = (s.sending keys).1
  iv : call.iv = (s.sending keys).2.1
  seq : call.seq = min i seqLimit

structure Numbered (P : Primitives β π) (s : Session β π) (log : List (EncryptCall β)) : Prop where
  coherent : s.Coherent P
  unkeyed : s.state = .initial ∨ s.state = .expectSessionInitResponse ∨
    s.state = .expectSessionCompletionRequest → s.sessionKeys = none
  silent : s.sessionKeys = none → log = []
  counted : s.sendCount = min log.length seqLimit
  numbered : ∀ keys, s.sessionKeys = some keys → ∀ i call, log[i]? = some call →
    s.Numbers keys i call

/-- What `Numbered` says of a session besides its states. -/
def outbound (s : Session β π) : Role × Option (SessionKeys β) × Nat :=
  (s.role, s.sessionKeys, s.sendCount)

theorem sending_eq (s : Session β π) (keys : SessionKeys β) :
    s.sending keys = match s.role with
      | .initiator => (keys.keyA2b, keys.ivA2b, s.sendCount)
      | .responder => (keys.keyB2a, keys.ivB2a, s.sendCount) := by
  unfold sending sendCount
  cases s.role <;> rfl

variable {P : Primitives β π} {s s' : Session β π} {log : List (EncryptCall β)}

theorem Numbers.congr {keys : SessionKeys β} {i : Nat} {call : EncryptCall β}
    (h : s.Numbers keys i call) (hr : s'.role = s.role) : s'.Numbers keys i call := by
  obtain ⟨ha, hk, hi, hs⟩ := h
  rw [sending_eq] at hk hi
  refine ⟨ha, ?_, ?_, hs⟩ <;> rw [sending_eq, hr]
  · cases hrole : s.role <;> simpa [hrole] using hk
  · cases hrole : s.role <;> simpa [hrole] using hi

theorem Numbered.congr (h : s.Numbered P log) (hc : s'.Coherent P)
    (ho : s'.outbound = s.outbound)
    (hu : s'.state = .initial ∨ s'.state = .expectSessionInitResponse ∨
      s'.state = .expectSessionCompletionRequest → s.sessionKeys = none) : s'.Numbered P log := by
  simp only [outbound, Prod.mk.injEq] at ho
  obtain ⟨hr, hk, hn⟩ := ho
  constructor
  · exact hc
  · exact fun hs => hk.trans (hu hs)
  · exact fun hnone => h.silent (hk.symm.trans hnone)
  · rw [hn]
    exact h.counted
  · intro keys hkeys i call hcall
    exact (h.numbered keys (hk.symm.trans hkeys) i call hcall).congr hr

theorem numbered_new (role : Role) (ownKeyId : Option (KeyId β)) (keys : KeyLookup β)
    (config : SessionConfig) : (new role ownKeyId keys config : Session β π).Numbered P [] := by
  constructor
  · exact coherent_new role ownKeyId keys config
  · exact fun _ => rfl
  · exact fun _ => rfl
  · cases role <;> rfl
  · intro k hk
    cases hk

theorem coherent_initial (hs : s.state = .initial) (hk : s.sessionKeys = none) : s.Coherent P := by
  constructor <;> simp [hs, hk]

theorem Numbered.initiate (h : s.Numbered P log) (peerKeyId : KeyId β) (now : Int) (e : Entropy β) :
    (s.initiate P peerKeyId now e).1.Numbered P log := by
  unfold Session.initiate
  split
  · exact h
  rename_i hr
  split
  · exact h
  rename_i hs
  have hs : s.state = .initial := by simpa using hs
  have hr : s.role = .initiator := by simpa using hr
  have hk := h.unkeyed (.inl hs)
  -- up to the last assignment the session is still in INITIAL
  have hraised : ∀ s' : Session β π, s'.outbound = s.outbound → s'.state = .initial →
      s'.Numbered P log := by
    intro s' ho hs'
    have hk' : s'.sessionKeys = none := by
      simp only [outbound, Prod.mk.injEq] at ho
      exact ho.2.1.trans hk
    exact h.congr (coherent_initial hs' hk') ho fun _ => hk
  cases s.ownKeyId with
  | none => exact hraised _ rfl hs
  | some ownKeyId =>
    simp only [sendInitRequest]
    split
    · exact hraised _ rfl hs
    split
    · exact hraised _ rfl hs
    split
    · exact hraised _ rfl hs
    split
    · exact hraised _ rfl hs
    · refine h.congr ⟨fun _ => ?_, by simp, by simp, by simp, by simp [hk]⟩ rfl fun _ => hk
      exact ⟨hr, _, _, _, _, rfl, rfl, rfl, rfl⟩

theorem Numbered.postPayload (h : s.Numbered P log) (payload : List β) :
    (s.postPayload payload).1.Numbered P log := by
  refine h.congr (h.coherent.postPayload payload) ?_ ?_ <;> rw [postPayload_eq]
  · rfl
  · exact h.unkeyed

theorem Numbered.getPdu (h : s.Numbered P log) : s.getPdu.1.Numbered P log := by
  unfold Session.getPdu
  split
  · exact h
  · have hc := h.coherent
    exact h.congr ⟨hc.calling, hc.answered, hc.called, hc.established, hc.ivs⟩ rfl h.unkeyed

theorem Numbered.getPayload (h : s.Numbered P log) : s.getPayload.1.Numbered P log := by
  unfold Session.getPayload
  split
  · exact h
  · have hc := h.coherent
    exact h.congr ⟨hc.calling, hc.answered, hc.called, hc.established, hc.ivs⟩ rfl h.unkeyed

theorem Numbered.fork (h : s.Numbered P log) {t : Session β π} (hf : s.fork = .ok t) :
    t.Numbered P [] := by
  have hc := h.coherent.fork hf
  obtain ⟨hr, hs, _, rfl⟩ := fork_ok.mp hf
  constructor
  · exact hc
  · exact fun _ => rfl
  · exact fun _ => rfl
  · simp [sendCount, twin, new, hr]
  · intro k hk
    cases hk

section
variable {now : Int} {e : Entropy β} {x : Option PyError}

/-- What is received moves the other counter. -/
theorem Took.outbound (ht : Took P s now e s' x)
    (hs : s.state = .expectSessionInitResponse ∨ s.state = .expectSessionCompletionRequest →
      s'.state = s.state) : s'.outbound = s.outbound := by
  cases ht with
  | idle | ignored | undecoded | refused | answered | confirmed => rfl
  | resent =>
    rw [resend_eq]
    rfl
  | completed _ _ _ hstate =>
    have := hs (.inr hstate)
    simp [acceptCompletion, opened, hstate] at this
  | called _ _ _ hstate =>
    have := hs (.inl hstate)
    simp [acceptInitResponse, hstate] at this
  | replied _ _ _ _ hr =>
    simp [Session.outbound, sendCount, acceptReply, hr]
  | received =>
    rw [countReceived_eq]
    cases hr : s.role <;> simp [Session.outbound, sendCount, hr]

theorem Numbered.took (hP : P.Correct) {calls : List (EncryptCall β)}
    (ht : TookEncrypting P s now e s' x calls) (h : s.Numbered P log) :
    s'.Numbered P (log ++ calls) := by
  have hc := ht.took.coherent hP h.coherent
  cases ht with
  | nothing ht hs =>
    rw [List.append_nil]
    refine h.congr hc (ht.outbound hs) fun hs' => ?_
    apply h.unkeyed
    cases ht with
    | idle | ignored | undecoded | refused => exact hs'
    | resent => simpa [resend_eq] using hs'
    | answered _ _ _ hi => exact .inl hi
    | completed | called | confirmed | replied =>
      simp [acceptCompletion, acceptInitResponse, acceptReply] at hs'
    | received _ _ _ hest => simp [countReceived_eq, hest] at hs'
  | completed _ _ _ hs hr _ ho =>
    have hnone := h.silent (h.unkeyed (.inr (.inr hs)))
    have hcount := h.counted
    subst hnone
    simp only [sendCount, hr, List.length_nil, Nat.zero_min] at hcount
    constructor
    · exact hc
    · simp [acceptCompletion]
    · simp [acceptCompletion]
    · cases hp : s.pendingPayload <;>
        simp [sendCount, acceptCompletion, opened, hr, hp, hcount, seqLimit, aeadNonceLength]
    · intro keys hk i call hcall
      cases hk
      cases hp : s.pendingPayload with
      | none => simp [hp] at hcall
      | some payload =>
        simp only [hp, Option.toList_some, List.map_cons, List.map_nil, List.nil_append] at hcall
        obtain ⟨rfl, rfl⟩ : i = 0 ∧ _ = call := by
          cases i with
          | zero => exact ⟨rfl, by simpa using hcall⟩
          | succ i => simp at hcall
        constructor <;> simp [sending, acceptCompletion, opened, hr, OpenedCompletion.encrypts]
  | called _ _ _ hs hr _ hcall =>
    have hnone := h.silent (h.unkeyed (.inr (.inl hs)))
    subst hnone
    constructor
    · exact hc
    · simp [acceptInitResponse]
    · simp [acceptInitResponse]
    · simp [sendCount, acceptInitResponse, hr, seqLimit, aeadNonceLength]
    · intro keys hk i call hcall
      cases hk
      obtain ⟨rfl, rfl⟩ : i = 0 ∧ _ = call := by
        cases i with
        | zero => exact ⟨rfl, by simpa using hcall⟩
        | succ i => simp at hcall
      constructor <;> simp [sending, acceptInitResponse, hr, CompletionCall.encrypts]

theorem pendingEncrypts_eq {keys : SessionKeys β} {payload : List β} (hc : s.Coherent P)
    (hs : s.state = .established) (hp : s.pendingPayload = some payload)
    (hk : s.sessionKeys = some keys) : ∃ cid, s.pendingEncrypts =
      [⟨keys.aeadName, (s.sending keys).1, (s.sending keys).2.1, s.sendCount, payload, cid⟩] := by
  obtain ⟨_, cid, _, hcid⟩ := hc.established hs
  refine ⟨cid, ?_⟩
  rw [sending_eq]
  unfold pendingEncrypts
  simp only [hs, hp, hk, hcid]
  rw [sending_eq]
  cases s.role <;> rfl

/-- A Message takes the next number, and the count stops at the first one without a nonce. -/
theorem Numbered.sent (hsent : Sent P s s' x) (h : s.Numbered P log) :
    s'.Numbered P (log ++ s.pendingEncrypts) := by
  have hc := hsent.coherent h.coherent
  have hadd : ∀ payload, s.state = .established → s.pendingPayload = some payload →
      s'.role = s.role → s'.sessionKeys = s.sessionKeys → s'.state = .established →
      s'.sendCount = min (log.length + 1) seqLimit → s'.Numbered P (log ++ s.pendingEncrypts) := by
    intro payload hs hp hr hk hs' hn
    obtain ⟨keys, _, hkeys, _⟩ := h.coherent.established hs
    obtain ⟨cid, heq⟩ := pendingEncrypts_eq h.coherent hs hp hkeys
    rw [heq]
    constructor
    · exact hc
    · simp [hs']
    · simp [hk, hkeys]
    · simpa using hn
    · intro k hk' i call hcall
      have : keys = k := by
        rw [hk, hkeys] at hk'
        exact Option.some.inj hk'
      subst this
      by_cases hi : i < log.length
      · rw [List.getElem?_append_left hi] at hcall
        exact (h.numbered _ hkeys i call hcall).congr hr
      · rw [List.getElem?_append_right (by omega)] at hcall
        obtain ⟨hi', hcall⟩ := List.getElem?_eq_some_iff.mp hcall
        have hi' : i = log.length := by
          simp only [List.length_singleton] at hi'
          omega
        subst hi'
        simp only [Nat.sub_self, List.getElem_cons_zero] at hcall
        subst hcall
        exact Numbers.congr ⟨rfl, rfl, rfl, h.counted⟩ hr
  have hcount := h.counted
  cases hsent with
  | idle hi =>
    have hnone : s.pendingEncrypts = [] := by
      unfold pendingEncrypts
      rcases hi with hs | hp
      · split <;> simp_all
      · simp [hp]
    rw [hnone, List.append_nil]
    exact h
  | failed hs hp hm =>
    obtain ⟨keys, _, hkeys, _⟩ := h.coherent.established hs
    rcases messagePdu_cases _ h.coherent hs hkeys with ⟨_, pdu, hpdu⟩ | ⟨hle, _⟩
    · rw [hm] at hpdu
      cases hpdu
    · refine hadd _ hs hp rfl rfl hs ?_
      have hseq : (s.sending keys).2.2 = s.sendCount := by
        rw [sending_eq]
        cases s.role <;> rfl
      rw [hseq] at hle
      change s.sendCount = _
      unfold seqLimit at hcount ⊢
      omega
  | message hs hp hm =>
    obtain ⟨keys, _, hkeys, _⟩ := h.coherent.established hs
    rcases messagePdu_cases _ h.coherent hs hkeys with ⟨hlt, _⟩ | ⟨_, he⟩
    · have hseq : (s.sending keys).2.2 = s.sendCount := by
        rw [sending_eq]
        cases s.role <;> rfl
      rw [hseq] at hlt
      rw [countSent_eq] at hc hadd ⊢
      refine hadd _ hs hp rfl rfl hs ?_
      have hnext : (s.countSent).sendCount = s.sendCount + 1 := by
        unfold countSent sendCount
        cases s.role <;> simp
      rw [countSent_eq] at hnext
      refine Eq.trans hnext ?_
      unfold seqLimit at hcount ⊢
      omega
    · rw [hm] at he
      cases he

theorem Numbered.ticked (hk : Ticked s now s') (h : s.Numbered P log) : s'.Numbered P log := by
  have hc := hk.coherent h.coherent
  cases hk with
  | idle => exact h
  | dropped => exact h.congr hc rfl (by simp)
  | retried =>
    rw [resend_eq] at hc ⊢
    exact h.congr hc rfl h.unkeyed

variable [DecidableEq β] [DecidableEq π]

theorem Numbered.update (hP : P.Correct) (h : s.Numbered P log) (now : Int) (e : Entropy β) :
    (s.update P now e).1.Numbered P (log ++ s.encrypts P now e) :=
  update_encrypting hP.encrypt_ne_nil (fun _ _ _ _ ht h => h.took hP ht)
    (fun _ _ _ _ hs h => h.sent hs) (fun _ _ _ _ hk h => h.ticked hk) h

theorem Logged.numbered (hP : P.Correct) (h : Logged P s log) : s.Numbered P log := by
  induction h with
  | new role ownKeyId keys config => exact numbered_new role ownKeyId keys config
  | fork _ hf ih => exact ih.fork hf
  | initiate peerKeyId now e _ ih => exact ih.initiate peerKeyId now e
  | postPdu der _ ih => exact ih.congr (ih.coherent.postPdu der) rfl ih.unkeyed
  | postPayload payload _ ih => exact ih.postPayload payload
  | getPdu _ ih => exact ih.getPdu
  | getPayload _ ih => exact ih.getPayload
  | update now e _ ih => exact ih.update hP now e

end

/-- An established session overflows when it has a payload and no number left for it. -/
theorem overflows_iff (hc : s.Coherent P) (hs : s.state = .established) :
    s.Overflows ↔ s.pendingPayload ≠ none ∧ seqLimit ≤ s.sendCount := by
  obtain ⟨keys, _, hkeys, _⟩ := hc.established hs
  have hseq : (s.sending keys).2.2 = s.sendCount := by
    rw [sending_eq]
    cases s.role <;> rfl
  constructor
  · rintro ⟨-, hp, keys', hkeys', hle⟩
    cases hkeys.symm.trans hkeys'
    rw [hseq] at hle
    exact ⟨hp, hle⟩
  · rintro ⟨hp, hle⟩
    rw [← hseq] at hle
    exact ⟨hs, hp, keys, hkeys, hle⟩

theorem Numbers.result {keys : SessionKeys β} {i : Nat} {call : EncryptCall β}
    (h : s.Numbers keys i call) (hc : s.Coherent P) (hk : s.sessionKeys = some keys) :
    (i < seqLimit → ∃ ct, call.result P = .ok ct) ∧
      (seqLimit ≤ i → call.result P = .error .overflowError) := by
  have hiv : P.octets call.iv = aeadNonceLength := by
    rw [h.iv, sending_eq]
    cases s.role
    · exact (hc.ivs keys hk).1
    · exact (hc.ivs keys hk).2
  unfold EncryptCall.result encrypt
  constructor
  · intro hi
    have hlt : call.seq < 256 ^ P.octets call.iv := by
      rw [hiv, h.seq]
      unfold seqLimit at hi ⊢
      omega
    simp [nonceForSeq, toBytesBig, hlt, bind, Except.bind, pure, Except.pure]
  · intro hi
    have hle : 256 ^ P.octets call.iv ≤ call.seq := by
      rw [hiv, h.seq]
      unfold seqLimit at hi ⊢
      omega
    rw [nonceForSeq_error.mpr hle]
    rfl

theorem Numbered.under (h : s.Numbered P log) {call : EncryptCall β} (hcall : call ∈ log) :
    ∃ keys i, s.sessionKeys = some keys ∧ log[i]? = some call ∧ s.Numbers keys i call := by
  obtain ⟨i, hi⟩ := List.mem_iff_getElem?.mp hcall
  cases hk : s.sessionKeys with
  | none =>
    rw [h.silent hk] at hcall
    cases hcall
  | some keys => exact ⟨keys, i, rfl, hi, h.numbered keys hk i call hi⟩

theorem Numbered.nodup (hx : P.XorInjective) (h : s.Numbered P log) :
    (log.filterMap (EncryptCall.used P)).Nodup := by
  rw [List.Nodup, List.pairwise_filterMap, List.pairwise_iff_getElem]
  intro i j hi hj hij used hused used' hused' heq
  subst heq
  obtain ⟨keys, _, hk, _⟩ := h.under (List.getElem_mem hi)
  have hci := h.numbered keys hk i _ (List.getElem?_eq_getElem hi)
  have hcj := h.numbered keys hk j _ (List.getElem?_eq_getElem hj)
  unfold EncryptCall.used at hused hused'
  rw [hci.iv] at hused
  rw [hcj.iv] at hused'
  cases hni : nonceForSeq P (s.sending keys).2.1 log[i].seq with
  | error x => simp [hni] at hused
  | ok nonce =>
    cases hnj : nonceForSeq P (s.sending keys).2.1 log[j].seq with
    | error x => simp [hnj] at hused'
    | ok nonce' =>
      simp only [hni, hnj, Option.some.injEq] at hused hused'
      subst hused
      simp only [Prod.mk.injEq] at hused'
      obtain ⟨_, rfl⟩ := hused'
      -- the first of two equal numbers is below the limit
      have hlt : log[i].seq < seqLimit := by
        obtain ⟨bytes, hbytes, _⟩ := nonceForSeq_ok.mp hni
        obtain ⟨hlt, _⟩ := toBytesBig_ok hbytes
        have hiv : P.octets (s.sending keys).2.1 = aeadNonceLength := by
          rw [sending_eq]
          cases s.role
          · exact (h.coherent.ivs keys hk).1
          · exact (h.coherent.ivs keys hk).2
        rwa [hiv] at hlt
      have hseq := nonceForSeq_injective hx hni hnj
      rw [hci.seq, hcj.seq] at hseq
      rw [hci.seq] at hlt
      omega

/-! ## Both ends -/

theorem Logged.relay [DecidableEq β] [DecidableEq π] {a b : Session β π}
    {la lb : List (EncryptCall β)} (ha : Logged P a la) (hb : Logged P b lb) (now : Int)
    (e : Entropy β) :
    Logged P (KemMake.relay P a b now e).1 la ∧ ∃ lb', Logged P (KemMake.relay P a b now e).2 lb' := by
  cases h : a.outgoingPdus with
  | nil =>
    rw [relay_nil P h]
    exact ⟨ha, _, hb⟩
  | cons pdu rest =>
    rw [relay_cons P h]
    constructor
    · have hg : a.getPdu.1 = { a with outgoingPdus := rest } := by simp [Session.getPdu, h]
      exact hg ▸ ha.getPdu
    · exact ⟨_, (hb.postPdu pdu).update now e⟩

theorem logged_handshake [DecidableEq β] [DecidableEq π] (p : Parties P) (t : Nat → Int)
    (e : Nat → Entropy β) : ∃ la lb, Logged P (handshake P p t e).1 la ∧
      Logged P (handshake P p t e).2 lb := by
  have ha := (Logged.new (P := P) .initiator (some p.aliceId) p.aliceKeys p.aliceConfig).initiate
    p.bobId (t 0) (e 0)
  have hb := Logged.new (P := P) .responder none p.bobKeys p.bobConfig
  obtain ⟨ha, _, hb⟩ := ha.relay hb (t 1) (e 1)
  obtain ⟨hb, _, ha⟩ := hb.relay ha (t 2) (e 2)
  obtain ⟨ha, _, hb⟩ := ha.relay hb (t 3) (e 3)
  obtain ⟨hb, _, ha⟩ := hb.relay ha (t 4) (e 4)
  exact ⟨_, _, ha, hb⟩

variable [DecidableEq β] [DecidableEq π]

/-- The numbers under one set of keys, the nonces they give, and both ends' key and nonce
pairs. -/
theorem nonces_used_once (hP : P.Correct) (hx : P.XorInjective) :
    (∀ s log, Logged P s log → ∀ i call, log[i]? = some call →
      call.seq = min i seqLimit ∧
      (i < seqLimit → ∃ ct, call.result P = .ok ct) ∧
      (seqLimit ≤ i → call.result P = .error .overflowError) ∧
      ∃ keys, s.sessionKeys = some keys ∧ call.aead = keys.aeadName ∧
        (call.key, call.iv) = match s.role with
          | .initiator => (keys.keyA2b, keys.ivA2b)
          | .responder => (keys.keyB2a, keys.ivB2a)) ∧
    (∀ iv : List β, P.octets iv = aeadNonceLength →
      (∀ seq < seqLimit, ∃ nonce, nonceForSeq P iv seq = .ok nonce) ∧
      (∀ seq, seqLimit ≤ seq → nonceForSeq P iv seq = .error .overflowError) ∧
      ∀ seq seq' nonce, nonceForSeq P iv seq = .ok nonce → nonceForSeq P iv seq' = .ok nonce →
        seq = seq') ∧
    (∀ a b la lb keys, Logged P a la → Logged P b lb → a.role = .initiator → b.role = .responder →
      a.sessionKeys = some keys → b.sessionKeys = some keys → keys.keyA2b ≠ keys.keyB2a →
      ((la ++ lb).filterMap (EncryptCall.used P)).Nodup) := by
  refine ⟨?_, ?_, ?_⟩
  · intro s log hl i call hcall
    have h := hl.numbered hP
    obtain ⟨keys, _, hk, _⟩ := h.under (List.mem_iff_getElem?.mpr ⟨i, hcall⟩)
    have hn := h.numbered keys hk i call hcall
    obtain ⟨hok, herror⟩ := hn.result h.coherent hk
    refine ⟨hn.seq, hok, herror, keys, hk, hn.aead, ?_⟩
    rw [hn.key, hn.iv, sending_eq]
    cases s.role <;> rfl
  · intro iv hiv
    refine ⟨?_, ?_, fun seq seq' nonce => nonceForSeq_injective hx⟩
    · intro seq hlt
      have hlt : seq < 256 ^ P.octets iv := by rwa [hiv]
      simp [nonceForSeq, toBytesBig, hlt, bind, Except.bind, pure, Except.pure]
    · intro seq hle
      exact nonceForSeq_error.mpr (by rwa [hiv])
  · intro a b la lb keys hla hlb hra hrb hka hkb hne
    have ha := hla.numbered hP
    have hb := hlb.numbered hP
    rw [List.filterMap_append, List.nodup_append]
    refine ⟨ha.nodup hx, hb.nodup hx, ?_⟩
    intro used hused used' hused' heq
    obtain ⟨call, hcall, hu⟩ := List.mem_filterMap.mp hused
    obtain ⟨call', hcall', hu'⟩ := List.mem_filterMap.mp hused'
    obtain ⟨ka, i, hka', _, hi⟩ := ha.under hcall
    obtain ⟨kb, j, hkb', _, hj⟩ := hb.under hcall'
    have hfst : ∀ {c : EncryptCall β} {u}, c.used P = some u → u.1 = c.key := by
      intro c u hu
      unfold EncryptCall.used at hu
      split at hu <;> cases hu
      rfl
    have hkey := hi.key
    have hkey' := hj.key
    rw [hka] at hka'
    rw [hkb] at hkb'
    cases hka'
    cases hkb'
    simp only [sending_eq, hra] at hkey
    simp only [sending_eq, hrb] at hkey'
    apply hne
    rw [← hkey, ← hkey', ← hfst hu, ← hfst hu', heq]

theorem ideal_xorInjective : ideal.XorInjective := by
  intro iv pad pad' _ _ _ _ h
  simpa [ideal] using h

/-- Alice and Bob after a handshake. -/
def afterHandshake : Session Sym Pdu × Session Sym Pdu :=
  handshake ideal (sample .mlkem768 .mlkem768 {} {} (by decide)) (fun _ => 0) draw

theorem afterHandshake_keys : ∃ keys, afterHandshake.1.sessionKeys = some keys ∧
    afterHandshake.2.sessionKeys = some keys ∧ keys.keyA2b ≠ keys.keyB2a := by
  have hsome : (afterHandshake.1.sessionKeys.any fun k => k.keyA2b ≠ k.keyB2a) = true := by
    decide +kernel
  have hsame : afterHandshake.1.sessionKeys = afterHandshake.2.sessionKeys := by decide +kernel
  obtain ⟨keys, hkeys, hne⟩ := Option.any_eq_true _ _ |>.mp hsome
  exact ⟨keys, hkeys, hsame ▸ hkeys, by simpa using hne⟩

theorem afterHandshake_roles :
    afterHandshake.1.role = .initiator ∧ afterHandshake.2.role = .responder := by
  decide +kernel

theorem nonces_used_once_sample : ∃ la lb, Logged ideal afterHandshake.1 la ∧
    Logged ideal afterHandshake.2 lb ∧ ((la ++ lb).filterMap (EncryptCall.used ideal)).Nodup := by
  obtain ⟨la, lb, ha, hb⟩ : ∃ la lb, Logged ideal afterHandshake.1 la ∧
      Logged ideal afterHandshake.2 lb := logged_handshake _ _ _
  obtain ⟨keys, hka, hkb, hne⟩ := afterHandshake_keys
  obtain ⟨hra, hrb⟩ := afterHandshake_roles
  exact ⟨la, lb, ha, hb, (nonces_used_once Ideal.ideal_correct ideal_xorInjective).2.2 _ _ la lb
    keys ha hb hra hrb hka hkb hne⟩

/-! ## At the limit -/

/-- Established, with nothing to take. -/
def Steady (s : Session β π) : Prop := s.state = .established ∧ s.incomingQueue = []

theorem Steady.update (hP : P.Correct) (h : s.Steady) (now : Int) (e : Entropy β) :
    (s.update P now e).1.Steady := by
  refine update_preserves hP.encrypt_ne_nil (fun s' x ht h => ?_) (fun s₁ s' x hs h => ?_)
    (fun s₁ s' hk h => ?_) h
  · cases ht with
    | idle => exact h
    | resent hq | ignored hq | undecoded hq | refused hq | answered hq | completed hq | called hq
    | confirmed hq | replied hq | received hq =>
      rw [h.2] at hq
      cases hq
  · exact ⟨hs.frame.1.trans h.1, hs.frame.2.trans h.2⟩
  · obtain ⟨hstate | ⟨_, hne, _⟩, hq⟩ := hk.frame
    · exact ⟨hstate.trans h.1, hq.trans h.2⟩
    · exact absurd h.1 hne

/-- A payload posted to an established session is one more call. -/
theorem Steady.encrypts (h : s.Steady) {payload : List β} (hp : payload ≠ [])
    (hc : (s.postPayload payload).1.Coherent P) (now : Int) (e : Entropy β) :
    (s.postPayload payload).1.Steady ∧
      ∃ call, (s.postPayload payload).1.encrypts P now e = [call] := by
  have hpost : (s.postPayload payload).1 = { s with pendingPayload := some payload } := by
    rw [postPayload_eq, if_neg hp]
  have hsteady : (s.postPayload payload).1.Steady := hpost ▸ h
  obtain ⟨keys, _, hk, _⟩ := hc.established hsteady.1
  obtain ⟨cid, hcalls⟩ := pendingEncrypts_eq hc hsteady.1 (by rw [hpost]) hk
  refine ⟨hsteady, _, Eq.trans ?_ hcalls⟩
  simp [Session.encrypts, takenEncrypts, takeIncoming, hsteady.1, hsteady.2]

theorem Logged.another (hP : P.Correct) (hl : Logged P s log) (h : s.Steady) {payload : List β}
    (hp : payload ≠ []) (now : Int) (e : Entropy β) :
    ∃ call, Logged P ((s.postPayload payload).1.update P now e).1 (log ++ [call]) ∧
      ((s.postPayload payload).1.update P now e).1.Steady := by
  have hc := (hl.postPayload payload).numbered hP |>.coherent
  have hl := (hl.postPayload payload).update now e
  obtain ⟨hsteady, call, hcalls⟩ := h.encrypts hp hc now e
  rw [hcalls] at hl
  exact ⟨call, hl, hsteady.update hP now e⟩

theorem Logged.many (hP : P.Correct) (hl : Logged P s log) (h : s.Steady) {payload : List β}
    (hp : payload ≠ []) (e : Entropy β) (n : Nat) :
    ∃ s' log', Logged P s' log' ∧ s'.Steady ∧ log'.length = log.length + n := by
  induction n with
  | zero => exact ⟨s, log, hl, h, rfl⟩
  | succ n ih =>
    obtain ⟨s', log', hl', h', hlen⟩ := ih
    obtain ⟨call, hl'', h''⟩ := hl'.another hP h' hp 0 e
    refine ⟨_, _, hl'', h'', ?_⟩
    simp only [List.length_append, List.length_singleton]
    omega

/-- Two payloads beyond the limit, and its number is passed twice. -/
theorem limit_passed_twice :
    ¬ ∀ s log, Logged ideal s log → (log.map EncryptCall.seq).Nodup := by
  intro h
  obtain ⟨la, lb, ha, hb⟩ : ∃ la lb, Logged ideal afterHandshake.1 la ∧
      Logged ideal afterHandshake.2 lb := logged_handshake _ _ _
  have hsteady : afterHandshake.1.Steady := by
    constructor <;> decide +kernel
  have hp : [Symbolic.Block.octet 1] ≠ ([] : List Sym) := by simp
  obtain ⟨s, log, hl, _, hlen⟩ := ha.many Ideal.ideal_correct hsteady hp (draw 0) (seqLimit + 2)
  have hn := hl.numbered Ideal.ideal_correct
  have hnodup := h s log hl
  have hseq : ∀ i, seqLimit ≤ i → i < seqLimit + 2 →
      (log.map EncryptCall.seq)[i]? = some seqLimit := by
    intro i hle hlt
    have hi : i < log.length := by omega
    obtain ⟨keys, _, hk, _⟩ := hn.under (List.getElem_mem hi)
    have := (hn.numbered keys hk i _ (List.getElem?_eq_getElem hi)).seq
    simp [List.getElem?_eq_getElem hi, this, Nat.min_eq_right hle]
  have hlen' : seqLimit < (log.map EncryptCall.seq).length := by
    simp only [List.length_map]
    omega
  have heq := (hseq seqLimit (by omega) (by omega)).trans
    (hseq (seqLimit + 1) (by omega) (by omega)).symm
  have := (List.getElem?_inj hlen' hnodup).mp heq
  omega

end Session

end KemMake
