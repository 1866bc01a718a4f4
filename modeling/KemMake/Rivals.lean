import KemMake.Authentication
import KemMake.Escapes
import KemMake.Promotion

/-!
# Rival responses

An initiator cannot tell a response that was made from public keys alone from the one of
its responder: every response gets a fork. What sets them apart are the keys. `Rival` is
what a fork holds, `Answers` what the responder holds; keys that both of them have come
from a response of the responder's.
-/

namespace KemMake
open Symbolic

/-! ## Keys -/

section
variable {nA nB f s1 s2 s3 s4 nA' nB' f' s1' s2' s3' s4' : List Sym} {a a' : Aead}

/-- As for the other direction. -/
theorem keyB2a_inj (h : (deriveSessionKeys ideal nA nB f s1 s2 s3 s4 a).keyB2a =
    (deriveSessionKeys ideal nA' nB' f' s1' s2' s3' s4' a').keyB2a) :
    nA ++ nB = nA' ++ nB' ∧ f = f' ∧ s1 ++ s2 ++ s3 ++ s4 = s1' ++ s2' ++ s3' ++ s4' := by
  simp only [deriveSessionKeys, ideal, List.cons.injEq, Block.kdf.injEq, and_true] at h
  exact ⟨h.2.1, List.append_cancel_right h.2.2.1, h.2.2.2⟩

/-- Of equal AEADs and one equal key, everything else follows. -/
theorem derived_inj (ha : a = a')
    (h : (deriveSessionKeys ideal nA nB f s1 s2 s3 s4 a).keyA2b =
        (deriveSessionKeys ideal nA' nB' f' s1' s2' s3' s4' a').keyA2b ∨
      (deriveSessionKeys ideal nA nB f s1 s2 s3 s4 a).keyB2a =
        (deriveSessionKeys ideal nA' nB' f' s1' s2' s3' s4' a').keyB2a) :
    deriveSessionKeys ideal nA nB f s1 s2 s3 s4 a =
        deriveSessionKeys ideal nA' nB' f' s1' s2' s3' s4' a' ∧
      s1 ++ s2 ++ s3 ++ s4 = s1' ++ s2' ++ s3' ++ s4' := by
  obtain ⟨hn, hf, hikm⟩ := h.elim keyA2b_inj keyB2a_inj
  refine ⟨?_, hikm⟩
  simp only [deriveSessionKeys, ha, hn, hf, hikm]

end

/-- What anybody has. -/
def publicKeys : Set Sym := {b | ∃ l seed, b = .pub l seed}

/-- A response under the cid, every part of which can be made from public keys. -/
def Forged (cid : List Sym) (der : Pdu) : Prop :=
  ∃ msg resp, ideal.load der = .ok msg ∧ msg.cid = cid ∧ msg.payload = .sessionInitResponse resp ∧
    All (Derives publicKeys) msg.payload.blocks

/-- The c_m of a completion request. -/
def falseStart : Pdu → Option (List Sym)
  | .encoded ⟨_, _, .sessionCompletionRequest req⟩ => some req.cM
  | _ => none

theorem falseStart_load {der : Pdu} {msg : MakeMessage Sym}
    {req : SessionCompletionRequest Sym} (hl : ideal.load der = .ok msg)
    (hp : msg.payload = .sessionCompletionRequest req) : falseStart der = some req.cM := by
  obtain ⟨version, cid, payload⟩ := msg
  obtain rfl : payload = .sessionCompletionRequest req := hp
  rw [Ideal.load_eq hl]
  rfl

/-- Keys that an initiator has computed on the response. -/
def KeysOf (der : Pdu) (keys : SessionKeys Sym) : Prop :=
  ∃ msg resp nA nB f s1 s2 s3 s4 seed level, ideal.load der = .ok msg ∧
    msg.payload = .sessionInitResponse resp ∧ decapsulate ideal seed level resp.ct2 = .ok [s2] ∧
    keys = deriveSessionKeys ideal nA nB f [s1] [s2] [s3] [s4] keys.aeadName

/-- Keys whose second secret was encapsulated with coins that somebody drew. -/
def KeysDrawn (keys : SessionKeys Sym) : Prop :=
  ∃ nA nB f s1 l pk k s3 s4,
    keys = deriveSessionKeys ideal nA nB f [s1] [.shared l pk (draw k).coins] [s3] [s4] keys.aeadName

/-- No response made from public keys decapsulates to a secret under drawn coins. -/
theorem KeysOf.agree {der : Pdu} {keys keys' : SessionKeys Sym} (h : KeysOf der keys)
    (h' : KeysDrawn keys') (ha : keys.aeadName = keys'.aeadName)
    (heq : keys.keyA2b = keys'.keyA2b ∨ keys.keyB2a = keys'.keyB2a) :
    keys = keys' ∧ ∀ cid, ¬ Forged cid der := by
  obtain ⟨msg, resp, nA, nB, f, s1, s2, s3, s4, seed, level, hl, hp, h2, hk⟩ := h
  obtain ⟨nA', nB', f', s1', l, pk, k, s3', s4', hk'⟩ := h'
  rw [hk, hk'] at heq
  obtain ⟨hkeys, hikm⟩ := derived_inj ha heq
  refine ⟨hk.trans (hkeys.trans hk'.symm), ?_⟩
  rintro cid ⟨msg', resp', hl', _, hp', hall⟩
  obtain rfl : msg = msg' := Except.ok.inj (hl.symm.trans hl')
  obtain rfl : resp = resp' := by simpa [hp] using hp'
  obtain rfl : s2 = .shared l pk (draw k).coins := by
    simp only [List.cons_append, List.nil_append, List.cons.injEq] at hikm
    exact hikm.2.1
  -- what was opened is an encapsulation with these very coins
  have hct : ∃ l' pk', resp.ct2.ciphertext = [.encap l' pk' (draw k).coins] := by
    unfold decapsulate at h2
    split at h2
    · cases h2
    · rename_i shared hs
      cases h2
      rcases Ideal.decapsulate_cases hs with ⟨coins, hct, hshared⟩ | hshared
      · injection hshared with hb _
        injection hb with _ _ hcoins
        exact ⟨_, _, hcoins ▸ hct⟩
      · cases hshared
  obtain ⟨l', pk', hct⟩ := hct
  have hderives : Derives publicKeys (.encap l' pk' (draw k).coins) := by
    apply hall
    simp [hp, MakePayload.blocks, KemCiphertext.blocks, hct]
  have hnameless : Nameless (.encap l' pk' (draw k).coins : Sym) := by
    apply hderives.nameless
    rintro b ⟨l, seed, rfl⟩
    exact .pub l seed
  exact not_nameless_name (nameless_encap hnameless _ (List.mem_singleton_self _))

namespace Session

/-! ## Established sessions -/

section
variable {β π : Type} {P : Primitives β π} {s s' s'' : Session β π}

/-- An established session has its cid and its keys for good. -/
def Stays (s s' : Session β π) : Prop :=
  s.state = .established → s'.state = .established ∧ s'.cid = s.cid ∧
    s'.sessionKeys = s.sessionKeys ∧ s'.lastReceived = s.lastReceived

theorem Stays.refl (s : Session β π) : s.Stays s := fun h => ⟨h, rfl, rfl, rfl⟩

theorem Stays.trans (h : s.Stays s') (h' : s'.Stays s'') : s.Stays s'' := by
  intro hs
  obtain ⟨hs₁, hc₁, hk₁, hl₁⟩ := h hs
  obtain ⟨hs₂, hc₂, hk₂, hl₂⟩ := h' hs₁
  exact ⟨hs₂, hc₂.trans hc₁, hk₂.trans hk₁, hl₂.trans hl₁⟩

theorem Took.stays {now : Int} {e : Entropy β} {x : Option PyError} (ht : Took P s now e s' x) :
    s.Stays s' := by
  intro h
  cases ht with
  | idle | ignored | undecoded => exact ⟨h, rfl, rfl, rfl⟩
  | resent => rw [resend_eq]; exact ⟨h, rfl, rfl, rfl⟩
  | received => rw [countReceived_eq]; exact ⟨h, rfl, rfl, rfl⟩
  | refused _ _ hc =>
    rcases hc with rfl | ⟨hs, _, _⟩
    · exact ⟨h, rfl, rfl, rfl⟩
    · rw [h] at hs
      cases hs
  | answered _ _ _ hs | completed _ _ _ hs | called _ _ _ hs | confirmed _ _ _ hs
  | replied _ _ _ hs =>
    rw [h] at hs
    cases hs

theorem Sent.stays {x : Option PyError} (hs : Sent P s s' x) : s.Stays s' := by
  intro h
  cases hs with
  | message => rw [countSent_eq]; exact ⟨h, rfl, rfl, rfl⟩
  | _ => exact ⟨h, rfl, rfl, rfl⟩

theorem Ticked.stays {now : Int} (hk : Ticked s now s') : s.Stays s' := by
  intro h
  cases hk with
  | idle => exact ⟨h, rfl, rfl, rfl⟩
  | dropped hne | retried hne => exact absurd h hne

theorem update_stays [DecidableEq β] [DecidableEq π]
    (hP : ∀ aead key nonce text ad, P.encrypt aead key nonce text ad ≠ []) (s : Session β π)
    (now : Int) (e : Entropy β) : s.Stays (s.update P now e).1 :=
  update_preserves (I := s.Stays) hP (fun _ _ ht h => h.trans ht.stays)
    (fun _ _ _ hs h => h.trans hs.stays) (fun _ _ hk h => h.trans hk.stays) (.refl s)

/-! ## Confirmation -/

/-- The confirmation takes: h_m is the hash of the session's text, and `m` opens if there
is one. -/
structure Takes (P : Primitives β π) (s : Session β π) (resp : SessionCompletionResponse β) :
    Prop where
  waits : s.state = .expectSessionCompletionResponse
  hash : ∃ sent, s.sentPlaintextForHM = some sent ∧ resp.hM = P.sha256 sent
  opens : ∀ m, resp.m = some m → ∃ reply, s.openReply P m = .ok reply

variable [DecidableEq β] [DecidableEq π] (hP : P.Correct) {der : π} {msg : MakeMessage β} {now : Int}
  {e : Entropy β}
include hP

/-- A fork that a PDU establishes has taken a confirmation. -/
theorem takes_of_established (hl : P.load der = .ok msg)
    (h : Dispatcher.Tidy P msg.cid .fork s)
    (he : ((s.postPdu der).update P now e).1.state = .established) :
    ((s.postPdu der).update P now e).1.sessionKeys = s.sessionKeys ∧
      ∃ resp, msg.payload = .sessionCompletionResponse resp ∧ s.Takes P resp := by
  have hs : s.state ≠ .established ∧ s.state ≠ .expectSessionCompletionRequest := by
    rcases h.1.2.1 with hs | hs | hs <;> simp [hs]
  have hd : s.state ≠ .dropped := by
    intro hd
    have hd' : (s.postPdu der).state = .dropped := hd
    rw [update_dropped hd', hd'] at he
    cases he
  have hq := h.2.resolve_right hd
  have htook : ∀ s₁ x, Took P (s.postPdu der) now e s₁ x → s₁.state = .established →
      s₁.sessionKeys = s.sessionKeys ∧
        ∃ resp, msg.payload = .sessionCompletionResponse resp ∧ s.Takes P resp := by
    intro s₁ x ht he₁
    have hmsg : ∀ der' rest msg', (s.postPdu der).incomingQueue = der' :: rest →
        P.load der' = .ok msg' → msg' = msg := by
      intro der' rest msg' hq' hl'
      simp only [postPdu, hq, List.nil_append, List.cons.injEq] at hq'
      rw [← hq'.1, hl] at hl'
      exact (Except.ok.inj hl').symm
    cases ht with
    | idle | ignored | undecoded | refused => exact absurd he₁ hs.1
    | resent =>
      rw [resend_eq] at he₁
      exact absurd he₁ hs.1
    | received _ _ _ hs' => exact absurd hs' hs.1
    | answered | called => cases he₁
    | completed _ _ _ hs' => exact absurd hs' hs.2
    | confirmed hq' hl' hp hs' _ _ hsent hm hnone =>
      rw [hmsg _ _ _ hq' hl'] at hp
      exact ⟨rfl, _, hp, hs', ⟨_, hsent, hm⟩, by simp [hnone]⟩
    | replied hq' hl' hp hs' _ _ hsent hm hsome hopen =>
      rw [hmsg _ _ _ hq' hl'] at hp
      refine ⟨rfl, _, hp, hs', ⟨_, hsent, hm⟩, fun m hm' => ?_⟩
      obtain rfl := Option.some.inj (hsome.symm.trans hm')
      exact ⟨_, hopen⟩
  have hu := update_cases hP.encrypt_ne_nil (s.postPdu der) now e
  generalize (s.postPdu der).update P now e = u at hu he
  obtain ⟨s', r⟩ := u
  cases hu with
  | dropped hd' => exact absurd hd' hd
  | raised _ ht => exact htook _ _ ht he
  | sendRaised _ ht hsent =>
    have he₁ := hsent.frame.1.symm.trans he
    exact ⟨((hsent.stays he₁).2.2.1).trans (htook _ _ ht he₁).1, (htook _ _ ht he₁).2⟩
  | @done s₁ s₂ _ _ _ ht hsent hk =>
    have he : s'.state = .established := he
    have he₂ : s₂.state = .established := by
      rcases hk.frame.1 with hs' | ⟨hs', _⟩
      · exact hs'.symm.trans he
      · rw [he] at hs'
        cases hs'
    have he₁ := hsent.frame.1.symm.trans he₂
    exact ⟨(hk.stays he₂).2.2.1.trans (((hsent.stays he₁).2.2.1).trans (htook _ _ ht he₁).1),
      (htook _ _ ht he₁).2⟩

omit hP in
/-- A waiting session that a confirmation takes is established by it. -/
theorem Takes.established {resp : SessionCompletionResponse β} (h : s.Takes P resp)
    (hl : P.load der = .ok msg) (hp : msg.payload = .sessionCompletionResponse resp)
    (hq : s.incomingQueue = []) (hr : s.role = .initiator) (hc : s.cid = some msg.cid)
    (hdup : s.lastReceived ≠ some der) :
    ((s.postPdu der).update P now e).1.state = .established := by
  obtain ⟨sent, hsent, hm⟩ := h.hash
  have hproc : ∃ s₁, (s.postPdu der).takeIncoming P now e = (s₁, none) ∧ s₁.state = .established := by
    rw [takeIncoming_postPdu hq, processIncoming_dispatch hdup hl (by simp [h.waits]) hc]
    unfold dispatch
    simp only [h.waits, hr, hp, handleSessionCompletionResponse, hsent, hm, ne_eq, not_true_eq_false,
      ↓reduceIte]
    cases hresp : resp.m with
    | none => exact ⟨_, rfl, rfl⟩
    | some m =>
      obtain ⟨reply, hreply⟩ := h.opens m hresp
      simp only [hreply]
      exact ⟨_, rfl, rfl⟩
  obtain ⟨s₁, htake, hs₁⟩ := hproc
  have hd : (s.postPdu der).state ≠ .dropped := by
    change s.state ≠ .dropped
    simp [h.waits]
  unfold update
  rw [if_neg hd, htake]
  have hframe := (sendPending_sent (P := P) s₁).frame.1
  rcases hx : s₁.sendPending P with ⟨s₂, _ | x⟩ <;> rw [hx] at hframe
  · have hs₂ : s₂.state = .established := hframe.trans hs₁
    have hk := checkDeadline_ticked s₂ now
    simp only [hx, hs₂, reduceCtorEq, ↓reduceIte]
    exact (hk.stays hs₂).1
  · simp only [hx]
    exact hframe.trans hs₁

end

/-! ## A fork -/

/-- The request that an initiator with these keys makes of the text. -/
def requestOf (keys : SessionKeys Sym) (text cid : List Sym) (ct4 : KemCiphertext Sym)
    (nA : List Sym) : Pdu :=
  ideal.dump (.build cid (.sessionCompletionRequest
    ⟨[.aead keys.aeadName keys.keyA2b (firstNonce ideal keys.ivA2b) text cid], ct4, nA⟩))

/-- The session has accepted the response and called with the keys it computed on it. -/
structure Pursues (s : Session Sym Pdu) (der : Pdu) (keys : SessionKeys Sym) (text : List Sym) :
    Prop where
  received : s.lastReceived = some der
  computed : KeysOf der keys
  has_keys : s.sessionKeys = some keys
  has_text : s.sentPlaintextForHM = some text
  sent : ∃ cid ct4 nA, s.cid = some cid ∧ s.lastSent = some (requestOf keys text cid ct4 nA)

/-- An initiator that takes responses of the kind `src`. -/
structure Rival (src : Pdu → Prop) (s : Session Sym Pdu) : Prop where
  role : s.role = .initiator
  first : ∀ s1, s.s1 = some s1 → ∃ b, s1 = [b]
  pursues : s.state = .expectSessionCompletionResponse →
    ∃ der keys text, src der ∧ s.Pursues der keys text

section
variable {src src' : Pdu → Prop} {s s' : Session Sym Pdu} {now : Int} {e : Entropy Sym}

theorem Rival.mono (h : s.Rival src) (hsrc : ∀ der, src der → src' der) : s.Rival src' := by
  refine ⟨h.role, h.first, fun hs => ?_⟩
  obtain ⟨der, keys, text, hd, hp⟩ := h.pursues hs
  exact ⟨der, keys, text, hsrc der hd, hp⟩

/-- Nothing that a rival is made of has changed. -/
theorem Rival.of_eq (h : s.Rival src) (hr : s'.role = s.role) (h1 : s'.s1 = s.s1)
    (hs : s'.state = s.state) (hc : s'.cid = s.cid) (hl : s'.lastReceived = s.lastReceived)
    (hk : s'.sessionKeys = s.sessionKeys) (ht : s'.sentPlaintextForHM = s.sentPlaintextForHM)
    (hsent : s'.lastSent = s.lastSent) : s'.Rival src := by
  refine ⟨hr.trans h.role, fun s1 hs1 => h.first s1 (h1 ▸ hs1), fun hs' => ?_⟩
  obtain ⟨der, keys, text, hd, hp⟩ := h.pursues (hs ▸ hs')
  refine ⟨der, keys, text, hd, hl.trans hp.received, hp.computed, hk.trans hp.has_keys,
    ht.trans hp.has_text, ?_⟩
  rw [hc, hsent]
  exact hp.sent

theorem Rival.took {x : Option PyError} (ht : Took ideal s now e s' x) (h : s.Rival src)
    (hq : ∀ der rest msg resp, s.incomingQueue = der :: rest → ideal.load der = .ok msg →
      msg.payload = .sessionInitResponse resp → src der) : s'.Rival src := by
  cases ht with
  | idle | ignored | undecoded => exact h.of_eq rfl rfl rfl rfl rfl rfl rfl rfl
  | resent => rw [resend_eq]; exact h.of_eq rfl rfl rfl rfl rfl rfl rfl rfl
  | received => rw [countReceived_eq]; exact h.of_eq rfl rfl rfl rfl rfl rfl rfl rfl
  | refused _ _ hc =>
    rcases hc with rfl | ⟨_, hr, _⟩
    · exact h.of_eq rfl rfl rfl rfl rfl rfl rfl rfl
    · rw [h.role] at hr
      cases hr
  | answered _ _ _ _ hr | completed _ _ _ _ hr =>
    rw [h.role] at hr
    cases hr
  | confirmed | replied => exact ⟨h.role, h.first, fun hs => by cases hs⟩
  | @called der rest msg resp c hqueue hl hp _ _ _ hcall =>
    obtain ⟨a⟩ := completionCall_ok hcall
    obtain ⟨b1, h1⟩ := h.first _ a.first
    obtain ⟨b2, h2, _⟩ := decapsulate_ideal a.second
    obtain ⟨b3, h3, _⟩ := decapsulate_ideal a.third
    obtain ⟨l, _, h4, _⟩ := encapsulate_ideal a.fourth
    have haead : c.keys.aeadName = c.chosen := by rw [a.keys]; rfl
    have hcM : c.cM = [.aead c.keys.aeadName c.keys.keyA2b (firstNonce ideal c.keys.ivA2b)
        c.plaintext c.cid] := by
      rw [a.encrypted, haead]
      rfl
    refine ⟨h.role, h.first, fun _ => ⟨der, c.keys, c.plaintext, hq der rest msg resp hqueue hl hp,
      rfl, ?_, rfl, rfl, c.cid, c.ct4, e.nonce, a.has_cid, ?_⟩⟩
    · refine ⟨msg, resp, e.nonce, resp.nB, ideal.dumpKeyId a.ownKeyId, b1, b2, b3,
        .shared l resp.pkBStar.publicKey e.coins, a.ephemeral, _, hl, hp, h2 ▸ a.second, ?_⟩
      rw [haead, ← h1, ← h2, ← h3, ← h4]
      exact a.keys
    · rw [requestOf, ← hcM]
      rfl

theorem Rival.delivered {x : Option PyError} (hs : Sent ideal s s' x) (h : s.Rival src) :
    s'.Rival src := by
  cases hs with
  | message => rw [countSent_eq]; exact h.of_eq rfl rfl rfl rfl rfl rfl rfl rfl
  | _ => exact h.of_eq rfl rfl rfl rfl rfl rfl rfl rfl

theorem Rival.ticked (hk : Ticked s now s') (h : s.Rival src) : s'.Rival src := by
  cases hk with
  | idle => exact h
  | dropped => exact ⟨h.role, h.first, fun hs => by cases hs⟩
  | retried => rw [resend_eq]; exact h.of_eq rfl rfl rfl rfl rfl rfl rfl rfl

theorem Rival.update (h : s.Rival src)
    (hq : ∀ der rest msg resp, s.incomingQueue = der :: rest → ideal.load der = .ok msg →
      msg.payload = .sessionInitResponse resp → src der) (now : Int) (e : Entropy Sym) :
    (s.update ideal now e).1.Rival src :=
  update_preserves (I := Rival src) Ideal.ideal_correct.encrypt_ne_nil
    (fun _ _ ht h => h.took ht hq) (fun _ _ _ hs h => h.delivered hs) (fun _ _ hk h => h.ticked hk) h

theorem Rival.postPdu (h : s.Rival src) (der : Pdu) : (s.postPdu der).Rival src :=
  h.of_eq rfl rfl rfl rfl rfl rfl rfl rfl

/-- One delivered PDU, which is of the kind `src` if it is a response. -/
theorem Rival.deliver {der : Pdu} {msg : MakeMessage Sym} (h : s.Rival src)
    (hq : s.incomingQueue = [] ∨ s.state = .dropped) (hl : ideal.load der = .ok msg)
    (hsrc : msg.payload.name = .sessionInitResponse → src der) (now : Int) (e : Entropy Sym) :
    ((s.postPdu der).update ideal now e).1.Rival src := by
  by_cases hd : s.state = .dropped
  · have hd' : (s.postPdu der).state = .dropped := hd
    rw [update_dropped hd']
    exact h.postPdu der
  · apply (h.postPdu der).update
    intro der' rest msg' resp hq' hl' hp
    simp only [Session.postPdu, hq.resolve_right hd, List.nil_append, List.cons.injEq] at hq'
    obtain rfl := hq'.1
    obtain rfl := Except.ok.inj (hl.symm.trans hl')
    exact hsrc (by simp [hp, MakePayload.name])

theorem Rival.idle (h : s.Rival src) (hq : s.incomingQueue = [] ∨ s.state = .dropped) (now : Int)
    (e : Entropy Sym) : (s.update ideal now e).1.Rival src := by
  by_cases hd : s.state = .dropped
  · rw [update_dropped hd]
    exact h
  · apply h.update
    intro der rest msg resp hq'
    rw [hq.resolve_right hd] at hq'
    cases hq'

theorem Rival.postPayload (h : s.Rival src) (payload : List Sym) :
    (s.postPayload payload).1.Rival src := by
  rw [postPayload_eq]
  exact h.of_eq rfl rfl rfl rfl rfl rfl rfl rfl

theorem Rival.fork (h : s.Rival src) (hf : s.fork = .ok s') : s'.Rival src := by
  obtain ⟨_, _, _, rfl⟩ := fork_ok.mp hf
  exact ⟨h.role, h.first, fun hs => by cases hs⟩

theorem rival_calling {own peer : KeyId Sym} {keys : KeyLookup Sym} {config : SessionConfig}
    (hi : (new .initiator (some own) keys config).initiate ideal peer now e = (s, none)) :
    Rival src { s with outgoingPdus := [] } := by
  obtain ⟨pk, s1, ct1, _, henc, rfl⟩ := initiate_ok hi
  obtain ⟨l, _, rfl, _⟩ := encapsulate_ideal henc
  exact ⟨rfl, fun s1 hs1 => ⟨_, (Option.some.inj hs1).symm⟩, fun hs => by cases hs⟩

end

/-! ## The responder -/

/-- A PDU of the responder's: no request, and a confirmation only of the completion request
it has accepted, with `m` under the same keys. -/
structure Vouches (s : Session Sym Pdu) (pdu : Pdu) : Prop where
  no_request : ∀ msg req, ideal.load pdu = .ok msg → msg.payload ≠ .sessionInitRequest req
  confirms : ∀ msg resp, ideal.load pdu = .ok msg → msg.payload = .sessionCompletionResponse resp →
    s.state = .established ∧ s.cid = some msg.cid ∧ ∃ keys text, s.sessionKeys = some keys ∧
      s.Accepted [.aead keys.aeadName keys.keyA2b (firstNonce ideal keys.ivA2b) text msg.cid] ∧
      resp.hM = ideal.sha256 text ∧ ∀ m, resp.m = some m → ∃ payload,
        m = [.aead keys.aeadName keys.keyB2a (firstNonce ideal keys.ivB2a) payload msg.cid]

/-- A responder that draws its coins. -/
structure Answers (s : Session Sym Pdu) : Prop where
  role : s.role = .responder
  first : ∀ s1, s.s1 = some s1 → ∃ b, s1 = [b]
  second : ∀ s2, s.s2 = some s2 → ∃ l pk k, s2 = [.shared l pk (draw k).coins]
  third : ∀ s3, s.s3 = some s3 → ∃ b, s3 = [b]
  keys : ∀ keys, s.sessionKeys = some keys → KeysDrawn keys
  sent : ∀ pdu ∈ s.outgoingPdus, s.Vouches pdu
  resent : ∀ pdu, s.lastSent = some pdu → s.Vouches pdu

section
variable {s s' : Session Sym Pdu} {now : Int} {pdu : Pdu}

theorem Vouches.mono (h : s.Vouches pdu) (hs : s.Stays s') : s'.Vouches pdu := by
  refine ⟨h.no_request, fun msg resp hl hp => ?_⟩
  obtain ⟨he, hc, keys, text, hk, ⟨der, m, req, hr, hacc⟩, hm⟩ := h.confirms msg resp hl hp
  obtain ⟨he', hc', hk', hr'⟩ := hs he
  exact ⟨he', hc'.trans hc, keys, text, hk'.trans hk, ⟨der, m, req, hr'.trans hr, hacc⟩, hm⟩

/-- Neither a request nor a confirmation. -/
theorem vouches_of {cid : List Sym} {payload : MakePayload Sym}
    (h : payload.name = .sessionInitResponse ∨ payload.name = .message) :
    s.Vouches (ideal.dump (.build cid payload)) := by
  have hpayload : ∀ msg, ideal.load (ideal.dump (.build cid payload)) = .ok msg →
      msg.payload = payload := by
    intro msg hl
    obtain rfl := Pdu.encoded.inj (Ideal.load_eq hl)
    rfl
  constructor
  · intro msg req hl hp
    rw [← hpayload msg hl, hp] at h
    simp [MakePayload.name] at h
  · intro msg resp hl hp
    rw [← hpayload msg hl, hp] at h
    simp [MakePayload.name] at h

/-- The secrets and the keys are as before, and what else there is to send is vouched for. -/
theorem Answers.of_eq (h : s.Answers) (hstays : s.Stays s') (hr : s'.role = s.role)
    (h1 : s'.s1 = s.s1) (h2 : s'.s2 = s.s2) (h3 : s'.s3 = s.s3)
    (hk : s'.sessionKeys = s.sessionKeys) (hsent : s'.lastSent = s.lastSent)
    (hout : ∀ pdu ∈ s'.outgoingPdus, pdu ∈ s.outgoingPdus ∨ s'.Vouches pdu) : s'.Answers where
  role := hr.trans h.role
  first x hx := h.first x (h1 ▸ hx)
  second x hx := h.second x (h2 ▸ hx)
  third x hx := h.third x (h3 ▸ hx)
  keys x hx := h.keys x (hk ▸ hx)
  sent pdu hp := (hout pdu hp).elim (fun hp => (h.sent pdu hp).mono hstays) id
  resent pdu hp := (h.resent pdu (hsent ▸ hp)).mono hstays

theorem Answers.resend (h : s.Answers) : s.resend.Answers := by
  rw [resend_eq]
  have hstays : s.Stays { s with outgoingPdus := s.outgoingPdus ++ s.lastSent.toList } :=
    fun hs => ⟨hs, rfl, rfl, rfl⟩
  refine h.of_eq hstays rfl rfl rfl rfl rfl rfl fun pdu hp => ?_
  exact (List.mem_append.mp hp).imp_right fun hp =>
    (h.resent pdu (Option.mem_toList.mp hp)).mono hstays

theorem Answers.popped (h : s.Answers) (rest : List Pdu) : (s.popped rest).Answers :=
  h.of_eq (fun hs => ⟨hs, rfl, rfl, rfl⟩) rfl rfl rfl rfl rfl rfl fun _ => .inl

theorem Answers.answered {req : SessionInitRequest Sym} {der : Pdu} {msg : MakeMessage Sym}
    {rest : List Pdu} {k : Nat} {r : InitReply Sym Pdu} (h : s.Answers) (hs : s.state = .initial)
    (hr : initReply ideal { s.popped rest with cid := some msg.cid } req (draw k) = .ok r) :
    (acceptInitRequest { s.popped rest with cid := some msg.cid } req der now (draw k) r).Answers := by
  obtain ⟨a⟩ := initReply_ok hr
  obtain ⟨b1, h1, _⟩ := decapsulate_ideal a.first
  obtain ⟨l, _, h2, _⟩ := encapsulate_ideal a.second
  obtain ⟨l', _, h3, _⟩ := encapsulate_ideal a.third
  have hstays : s.Stays (acceptInitRequest { s.popped rest with cid := some msg.cid } req der now
      (draw k) r) := fun he => by simp [hs] at he
  have hout : Vouches (acceptInitRequest { s.popped rest with cid := some msg.cid } req der now
      (draw k) r) r.outDer := by
    rw [a.out]
    exact vouches_of (.inl rfl)
  refine ⟨h.role, fun x hx => ⟨b1, (Option.some.inj hx).symm.trans h1⟩,
    fun x hx => ⟨l, _, k, (Option.some.inj hx).symm.trans h2⟩,
    fun x hx => ⟨_, (Option.some.inj hx).symm.trans h3⟩, h.keys, fun pdu hp => ?_, fun pdu hp => ?_⟩
  · rcases List.mem_append.mp hp with hp | hp
    · exact (h.sent pdu hp).mono hstays
    · exact List.mem_singleton.mp hp ▸ hout
  · exact Option.some.inj hp ▸ hout

theorem Answers.completed {req : SessionCompletionRequest Sym} {der : Pdu} {msg : MakeMessage Sym}
    {rest : List Pdu} {o : OpenedCompletion Sym} (h : s.Answers) (hl : ideal.load der = .ok msg)
    (hp : msg.payload = .sessionCompletionRequest req) (hc : s.cid = some msg.cid)
    (hs : s.state = .expectSessionCompletionRequest) (ho : s.openCompletion ideal req = .ok o) :
    (((s.popped rest).opened o).acceptCompletion ideal req der o (s.replyM ideal o)).Answers := by
  obtain ⟨a⟩ := openCompletion_ok ho
  obtain ⟨b1, h1⟩ := h.first _ a.first
  obtain ⟨l, pk, k, h2⟩ := h.second _ a.second
  obtain ⟨b3, h3⟩ := h.third _ a.third
  obtain ⟨b4, h4, _⟩ := decapsulate_ideal a.fourth
  have haead : o.keys.aeadName = a.aead := by rw [a.keys]; rfl
  have hcid : o.cid = msg.cid := Option.some.inj (a.has_cid.symm.trans hc)
  have hcM : req.cM = [.aead o.keys.aeadName o.keys.keyA2b (firstNonce ideal o.keys.ivA2b)
      o.plaintext msg.cid] := by
    rw [haead, ← hcid]
    exact Ideal.decrypt_eq_some a.decrypted
  let s' := ((s.popped rest).opened o).acceptCompletion ideal req der o (s.replyM ideal o)
  have hstays : s.Stays s' := fun he => by simp [hs] at he
  have hout : s'.Vouches (ideal.dump (.build o.cid (.sessionCompletionResponse
      { hM := ideal.sha256 o.plaintext, m := s.replyM ideal o }))) := by
    constructor
    · intro msg' req' hl' hp'
      obtain rfl := Pdu.encoded.inj (Ideal.load_eq hl')
      cases hp'
    · intro msg' resp hl' hp'
      obtain rfl := Pdu.encoded.inj (Ideal.load_eq hl')
      cases hp'
      refine ⟨rfl, a.has_cid, o.keys, o.plaintext, rfl, ⟨der, msg, req, rfl, hl, hp, ?_⟩, rfl, ?_⟩
      · rw [hcM, ← hcid]
        rfl
      · intro m hm
        obtain ⟨payload, _, rfl⟩ := Option.map_eq_some_iff.mp hm
        exact ⟨payload, rfl⟩
  refine ⟨h.role, h.first, h.second, h.third, fun keys hk => ?_, fun pdu hp => ?_, fun pdu hp => ?_⟩
  · obtain rfl : o.keys = keys := Option.some.inj hk
    refine ⟨req.nA, a.nB, ideal.dumpKeyId a.peerKeyId, b1, l, pk, k, b3, b4, ?_⟩
    rw [haead, ← h1, ← h2, ← h3, ← h4]
    exact a.keys
  · rcases List.mem_append.mp hp with hp | hp
    · exact (h.sent pdu hp).mono hstays
    · exact List.mem_singleton.mp hp ▸ hout
  · exact Option.some.inj hp ▸ hout

theorem Answers.took {k : Nat} {x : Option PyError} (ht : Took ideal s now (draw k) s' x)
    (h : s.Answers) : s'.Answers := by
  have hstays := ht.stays
  cases ht with
  | idle => exact h
  | ignored | undecoded => exact h.popped _
  | resent => exact (h.popped _).resend
  | received =>
    rw [countReceived_eq] at hstays ⊢
    exact h.of_eq hstays rfl rfl rfl rfl rfl rfl fun _ => .inl
  | refused => exact h.of_eq hstays rfl rfl rfl rfl rfl rfl fun _ => .inl
  | called _ _ _ _ hr | confirmed _ _ _ _ hr | replied _ _ _ _ hr =>
    rw [h.role] at hr
    cases hr
  | answered _ _ _ hs _ hr => exact h.answered hs hr
  | completed _ hl hp hs _ hc ho => exact h.completed hl hp hc hs ho

theorem Answers.delivered {x : Option PyError} (hs : Sent ideal s s' x) (h : s.Answers) :
    s'.Answers := by
  have hstays := hs.stays
  cases hs with
  | idle => exact h
  | failed => exact h.of_eq hstays rfl rfl rfl rfl rfl rfl fun _ => .inl
  | @message payload pdu _ _ hpdu =>
    rw [countSent_eq] at hstays ⊢
    refine h.of_eq hstays rfl rfl rfl rfl rfl rfl fun pdu' hp => ?_
    refine (List.mem_append.mp hp).imp_right fun hp => ?_
    obtain rfl := List.mem_singleton.mp hp
    simp only [messagePdu, bind_ok, pure, Except.pure, Except.ok.injEq] at hpdu
    obtain ⟨_, _, _, _, _, _, rfl⟩ := hpdu
    exact vouches_of (.inr rfl)

theorem Answers.ticked (hk : Ticked s now s') (h : s.Answers) : s'.Answers := by
  have hstays := hk.stays
  cases hk with
  | idle => exact h
  | dropped => exact h.of_eq hstays rfl rfl rfl rfl rfl rfl fun _ => .inl
  | retried _ _ hr =>
    rw [h.role] at hr
    cases hr

theorem Answers.update (h : s.Answers) (now : Int) (k : Nat) :
    (s.update ideal now (draw k)).1.Answers :=
  update_preserves (I := Answers) Ideal.ideal_correct.encrypt_ne_nil (fun _ _ ht h => h.took ht)
    (fun _ _ _ hs h => h.delivered hs) (fun _ _ hk h => h.ticked hk) h

theorem Answers.requeue (h : s.Answers) (queue : List Pdu) (pending : Option (List Sym))
    (payloads : List (List Sym)) {out : List Pdu} (hout : out ⊆ s.outgoingPdus) :
    Answers { s with
      incomingQueue := queue, pendingPayload := pending, outgoingPayloads := payloads
      outgoingPdus := out } :=
  h.of_eq (fun hs => ⟨hs, rfl, rfl, rfl⟩) rfl rfl rfl rfl rfl rfl fun _ hp => .inl (hout hp)

theorem answers_new (own : Option (KeyId Sym)) (keys : KeyLookup Sym) (config : SessionConfig) :
    (new .responder own keys config : Session Sym Pdu).Answers :=
  ⟨rfl, by simp [new], by simp [new], by simp [new], by simp [new], by simp [new], by simp [new]⟩

end

/-! ## Both together -/

section
variable {src : Pdu → Prop} {s t : Session Sym Pdu} {der pdu : Pdu} {msg : MakeMessage Sym}
  {resp : SessionCompletionResponse Sym} {ka : SessionKeys Sym} {text : List Sym}

/-- What a fork has sent is sealed under its own keys. -/
theorem Pursues.sealed (hs : s.Pursues der ka text) : ∃ cid, s.cid = some cid ∧
    s.lastSent.bind falseStart =
      some [.aead ka.aeadName ka.keyA2b (firstNonce ideal ka.ivA2b) text cid] := by
  obtain ⟨cid, ct4, nA, hc, hsent⟩ := hs.sent
  refine ⟨cid, hc, ?_⟩
  rw [hsent, Option.bind_some, requestOf]
  rfl

/-- A fork that has the same c_m accepted as it sent, or that opens `m`, has the
responder's keys, and from no response that was forged. -/
theorem Pursues.agrees (hs : s.Pursues der ka text) (ht : t.Answers) (hv : t.Vouches pdu)
    (hl : ideal.load pdu = .ok msg) (hp : msg.payload = .sessionCompletionResponse resp)
    (htakes : s.Takes ideal resp)
    (hsame : resp.m = none → s.lastSent.bind falseStart = t.lastReceived.bind falseStart) :
    t.sessionKeys = some ka ∧ ∀ cid, ¬ Forged cid der := by
  obtain ⟨_, _, kb, text', hkb, ⟨der', msg', req, hr, hl', hp', hcM⟩, _, hm⟩ :=
    hv.confirms msg resp hl hp
  have hdrawn := ht.keys kb hkb
  suffices h : ka = kb ∧ ∀ cid, ¬ Forged cid der by
    rw [hkb, h.1]
    exact ⟨rfl, h.2⟩
  cases hresp : resp.m with
  | none =>
    obtain ⟨cid, _, hsealed⟩ := hs.sealed
    have heq := hsealed.symm.trans (hsame hresp)
    rw [hr, Option.bind_some, falseStart_load hl' hp', hcM] at heq
    simp only [Option.some.injEq, List.cons.injEq, Block.aead.injEq, and_true] at heq
    exact hs.computed.agree hdrawn heq.1 (.inl heq.2.1)
  | some m =>
    obtain ⟨reply, hopen⟩ := htakes.opens m hresp
    obtain ⟨a⟩ := openReply_ok hopen
    obtain ⟨payload, hpayload⟩ := hm m hresp
    obtain rfl : ka = a.keys := Option.some.inj (hs.has_keys.symm.trans a.has_keys)
    have heq := hpayload.symm.trans (Ideal.decrypt_eq_some a.decrypted)
    simp only [List.cons.injEq, Block.aead.injEq, and_true] at heq
    exact hs.computed.agree hdrawn heq.1.symm (.inr heq.2.1.symm)

/-- The fork whose c_m the responder has accepted takes its confirmation. -/
theorem Pursues.takes (hs : s.Pursues der ka text) (ht : t.Answers) (hv : t.Vouches pdu)
    (hl : ideal.load pdu = .ok msg) (hp : msg.payload = .sessionCompletionResponse resp)
    (hwaits : s.state = .expectSessionCompletionResponse)
    (hsame : s.lastSent.bind falseStart = t.lastReceived.bind falseStart) :
    s.Takes ideal resp := by
  obtain ⟨_, _, kb, text', hkb, ⟨der', msg', req, hr, hl', hp', hcM⟩, hhash, hm⟩ :=
    hv.confirms msg resp hl hp
  obtain ⟨cid, hc, hsealed⟩ := hs.sealed
  have heq := hsealed.symm.trans hsame
  rw [hr, Option.bind_some, falseStart_load hl' hp', hcM] at heq
  simp only [Option.some.injEq, List.cons.injEq, Block.aead.injEq, and_true] at heq
  obtain ⟨ha, hkey, _, rfl, rfl⟩ := heq
  obtain ⟨rfl, _⟩ := hs.computed.agree (ht.keys kb hkb) ha (.inl hkey)
  refine ⟨hwaits, ⟨text, hs.has_text, hhash⟩, fun m hresp => ?_⟩
  obtain ⟨payload, rfl⟩ := hm m hresp
  refine ⟨payload, ?_⟩
  simp [openReply, hs.has_keys, hc, attr, decrypt, ideal, Ideal.decrypt, bind, Except.bind, pure,
    Except.pure]

end

end Session

end KemMake
