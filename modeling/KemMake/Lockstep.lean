import Mathlib.Data.List.Forall2
import KemMake.Handlers
import KemMake.Ideal

/-!
# Two runs of a session that differ in texts

A session runs twice, and what is posted to it differs in its text alone. A ciphertext shows its
length and opens whatever its text is, so both runs go the same way: what they put out differs in
ciphertexts of texts of one length, and in h_m.
-/

namespace KemMake
variable {β π : Type}

/-! ## Texts and ciphertexts -/

/-- As many octets, and empty only if the other is. -/
def SameLength (P : Primitives β π) (text text' : List β) : Prop :=
  P.octets text = P.octets text' ∧ (text = [] ↔ text' = [])

/-- The length of a ciphertext is that of its text, and whether it opens does not depend on
the text. -/
structure Primitives.Opaque (P : Primitives β π) : Prop where
  octets : ∀ aead key nonce ad text text', P.octets text = P.octets text' →
    P.octets (P.encrypt aead key nonce text ad) = P.octets (P.encrypt aead key nonce text' ad)
  opens : ∀ aead key nonce ad aead' key' nonce' ad',
    (∀ text, P.decrypt aead' key' nonce' (P.encrypt aead key nonce text ad) ad' = some text) ∨
      ∀ text, P.decrypt aead' key' nonce' (P.encrypt aead key nonce text ad) ad' = none

/-- Ciphertexts of the two texts, made alike. -/
inductive Sealed (P : Primitives β π) (text text' : List β) : List β → List β → Prop
  | mk (aead key nonce ad) :
      Sealed P text text' (P.encrypt aead key nonce text ad) (P.encrypt aead key nonce text' ad)

/-- Ciphertexts of texts of one length. -/
def Concealed (P : Primitives β π) (ct ct' : List β) : Prop :=
  ∃ text text', SameLength P text text' ∧ Sealed P text text' ct ct'

section
variable {P : Primitives β π} {text text' ct ct' : List β}

/-- Both open, each to its text, or neither does. -/
theorem Sealed.decrypt (ho : P.Opaque) (h : Sealed P text text' ct ct') (aead : Aead)
    (key iv : List β) (seq : Nat) (ad : List β) :
    (decrypt P aead key iv seq ct ad = .ok text ∧ decrypt P aead key iv seq ct' ad = .ok text') ∨
      ∃ x, decrypt P aead key iv seq ct ad = .error x ∧
        decrypt P aead key iv seq ct' ad = .error x := by
  cases h with
  | mk aead' key' nonce' ad' =>
    unfold KemMake.decrypt
    cases nonceForSeq P iv seq with
    | error x => exact .inr ⟨x, rfl, rfl⟩
    | ok nonce =>
      obtain hopen | hshut := ho.opens aead' key' nonce' ad' aead key nonce ad
      · refine .inl ⟨?_, ?_⟩
        · simp only [bind, Except.bind, hopen text]
          rfl
        · simp only [bind, Except.bind, hopen text']
          rfl
      · refine .inr ⟨.invalidTag, ?_, ?_⟩
        · simp only [bind, Except.bind, hshut text]
        · simp only [bind, Except.bind, hshut text']

theorem encrypt_sealed (P : Primitives β π) (aead : Aead) (key iv : List β) (seq : Nat)
    (text text' ad : List β) :
    (∃ ct ct', encrypt P aead key iv seq text ad = .ok ct ∧
      encrypt P aead key iv seq text' ad = .ok ct' ∧ Sealed P text text' ct ct') ∨
      ∃ x, encrypt P aead key iv seq text ad = .error x ∧
        encrypt P aead key iv seq text' ad = .error x := by
  unfold encrypt
  cases nonceForSeq P iv seq with
  | error x => exact .inr ⟨x, rfl, rfl⟩
  | ok nonce => exact .inl ⟨_, _, rfl, rfl, .mk aead key nonce ad⟩

end

/-! ## PDUs of both runs -/

/-- What the runs have in pairs, once it has been made: the false-start plaintexts, the
completion requests and the completion responses. -/
structure Marks (β π : Type) where
  texts : Option (List β × List β) := none
  request : Option (π × π) := none
  response : Option (π × π) := none

/-- Two payloads that differ in what was posted. -/
inductive Likened (P : Primitives β π) (k : Marks β π) : MakePayload β → MakePayload β → Prop
  | initRequest (req) : Likened P k (.sessionInitRequest req) (.sessionInitRequest req)
  | initResponse (resp) : Likened P k (.sessionInitResponse resp) (.sessionInitResponse resp)
  | completionRequest {text text' cM cM'} (ct4 nA) : k.texts = some (text, text') →
      Sealed P text text' cM cM' →
      Likened P k (.sessionCompletionRequest ⟨cM, ct4, nA⟩)
        (.sessionCompletionRequest ⟨cM', ct4, nA⟩)
  | completionResponse {text text' m m'} : k.texts = some (text, text') →
      Option.Rel (Concealed P) m m' →
      Likened P k (.sessionCompletionResponse ⟨P.sha256 text, m⟩)
        (.sessionCompletionResponse ⟨P.sha256 text', m'⟩)
  | message {m m'} (seq) : Concealed P m m' → Likened P k (.message ⟨seq, m⟩) (.message ⟨seq, m'⟩)

/-- What one run and the other put out at the same place. -/
structure Twins (P : Primitives β π) (k : Marks β π) (der der' : π) : Prop where
  built : ∃ cid payload payload', P.octets cid = cidLen ∧ Likened P k payload payload' ∧
    der = P.dump (.build cid payload) ∧ der' = P.dump (.build cid payload') ∧
    (payload.name = .sessionCompletionRequest → k.request = some (der, der')) ∧
    (payload.name = .sessionCompletionResponse → k.response = some (der, der'))

section
variable {P : Primitives β π} {k k' : Marks β π} {payload payload' : MakePayload β} {der der' : π}

theorem Likened.name_eq (h : Likened P k payload payload') : payload'.name = payload.name := by
  cases h <;> rfl

/-- What is known of twins when they are loaded. -/
structure Loaded (P : Primitives β π) (k : Marks β π) (der der' : π) (cid : List β)
    (payload payload' : MakePayload β) : Prop where
  octets : P.octets cid = cidLen
  likened : Likened P k payload payload'
  load : P.load der = .ok (.build cid payload)
  load' : P.load der' = .ok (.build cid payload')
  dump : der = P.dump (.build cid payload)
  dump' : der' = P.dump (.build cid payload')
  request : payload.name = .sessionCompletionRequest → k.request = some (der, der')
  response : payload.name = .sessionCompletionResponse → k.response = some (der, der')

theorem Twins.loaded (hP : P.Correct) (h : Twins P k der der') :
    ∃ cid payload payload', Loaded P k der der' cid payload payload' := by
  obtain ⟨cid, payload, payload', hc, hl, rfl, rfl, hreq, hresp⟩ := h.built
  have hvalid : (MakeMessage.build cid payload).Valid P ∧
      (MakeMessage.build cid payload').Valid P := by
    cases hl with
    | completionRequest _ _ _ hs =>
      cases hs
      refine ⟨⟨hc, fun req hreq => ?_⟩, hc, fun req hreq => ?_⟩ <;> cases hreq <;>
        exact hP.encrypt_ne_nil _ _ _ _ _
    | _ => exact ⟨⟨hc, fun _ hreq => by cases hreq⟩, hc, fun _ hreq => by cases hreq⟩
  exact ⟨cid, payload, payload', hc, hl, hP.load_dump _ hvalid.1, hP.load_dump _ hvalid.2, rfl, rfl,
    hreq, hresp⟩

/-- Handshake PDUs are equal in one run if and only if they are in the other. -/
theorem Twins.eq_iff (hP : P.Correct) {last last' : π} (h : Twins P k der der')
    (hl : Twins P k last last')
    (hname : ∀ msg, P.load last = .ok msg → msg.payload.name ≠ .message) :
    last = der ↔ last' = der' := by
  obtain ⟨cid, payload, payload', d⟩ := h.loaded hP
  obtain ⟨cid₀, payload₀, payload₀', l⟩ := hl.loaded hP
  have hne : payload₀.name ≠ .message := hname _ l.load
  have hsame : payload.name = payload₀.name → cid₀ = cid →
      (payload₀ = payload ∨ payload₀' = payload') → (last = der ↔ last' = der') := by
    intro heq hcid hpay
    cases hn : payload₀.name with
    | message => exact absurd hn hne
    | sessionCompletionRequest =>
      have hpair := (l.request hn).symm.trans (d.request (heq.trans hn))
      rw [Option.some.injEq, Prod.mk.injEq] at hpair
      exact iff_of_true hpair.1 hpair.2
    | sessionCompletionResponse =>
      have hpair := (l.response hn).symm.trans (d.response (heq.trans hn))
      rw [Option.some.injEq, Prod.mk.injEq] at hpair
      exact iff_of_true hpair.1 hpair.2
    | sessionInitRequest | sessionInitResponse =>
      have hplain : payload' = payload ∧ payload₀' = payload₀ := by
        have hd := d.likened
        have hl := l.likened
        constructor
        · cases hd <;> simp_all [MakePayload.name]
        · cases hl <;> simp_all [MakePayload.name]
      rw [d.dump, d.dump', l.dump, l.dump', hplain.1, hplain.2]
  constructor
  · intro heq
    have hload : Except.ok (ε := PyError) (MakeMessage.build cid₀ payload₀) =
        .ok (MakeMessage.build cid payload) := by
      rw [← l.load, ← d.load, heq]
    rw [Except.ok.injEq, MakeMessage.build, MakeMessage.build, MakeMessage.mk.injEq] at hload
    exact (hsame (by rw [hload.2.2]) hload.2.1 (.inl hload.2.2)).mp heq
  · intro heq
    have hload : Except.ok (ε := PyError) (MakeMessage.build cid₀ payload₀') =
        .ok (MakeMessage.build cid payload') := by
      rw [← l.load', ← d.load', heq]
    rw [Except.ok.injEq, MakeMessage.build, MakeMessage.build, MakeMessage.mk.injEq] at hload
    have hn : payload.name = payload₀.name := by
      rw [← d.likened.name_eq, ← l.likened.name_eq, hload.2.2]
    exact (hsame hn hload.2.1 (.inr hload.2.2)).mpr heq

end

/-! ## Sessions of both runs -/

namespace Session

/-- The fields of a session that may hold what was posted, or what was made of it. -/
structure Held (β π : Type) where
  lastReceived : Option π := none
  lastSent : Option π := none
  outgoingPdus : List π := []
  outgoingPayloads : List (List β) := []
  pendingPayload : Option (List β) := none
  sentPlaintextForHM : Option (List β) := none
  incomingQueue : List π := []

/-- `completionCall` up to the payload. -/
def callKeys (P : Primitives β π) (s : Session β π) (resp : SessionInitResponse β) (e : Entropy β) :
    Except PyError (List β × SessionKeys β × Aead × KemCiphertext β) := do
  let level := s.config.kemLevel
  let ownKeyId ← attr s.ownKeyId
  let ownStaticPrivate ← s.keys.getPrivateKey ownKeyId
  let ownEphemeralPrivate ← attr s.ownEphemeralPrivate
  let s2 ← decapsulate P ownEphemeralPrivate level resp.ct2
  let s3 ← decapsulate P ownStaticPrivate level resp.ct3
  let chosen ← checkAead s.config.acceptableAeads resp.chosenAead
  let (s4, ct4) ← encapsulate P resp.pkBStar e.coins
  let s1 ← attr s.s1
  let cid ← attr s.cid
  return (cid, deriveSessionKeys P e.nonce resp.nB (P.dumpKeyId ownKeyId) s1 s2 s3 s4 chosen,
    chosen, ct4)

/-- `openCompletion` up to c_m. -/
def openKeys (P : Primitives β π) (s : Session β π) (ct4 : KemCiphertext β) (nA : List β) :
    Except PyError (List β × List β × SessionKeys β) := do
  let ownEphemeralPrivate ← attr s.ownEphemeralPrivate
  let s4 ← decapsulate P ownEphemeralPrivate s.config.kemLevel ct4
  let nB ← attr s.nB
  let peerKeyId ← attr s.peerKeyId
  let s1 ← attr s.s1
  let s2 ← attr s.s2
  let s3 ← attr s.s3
  let chosen ← attr s.chosenAead
  let cid ← attr s.cid
  return (cid, s4, deriveSessionKeys P nA nB (P.dumpKeyId peerKeyId) s1 s2 s3 s4 chosen)

theorem map_bind {ε α γ δ : Type} (x : Except ε α) (f : α → Except ε γ) (g : γ → δ) :
    (x >>= f).map g = x >>= fun a => (f a).map g := by
  cases x <;> rfl

theorem completionCall_eq (P : Primitives β π) (s : Session β π) (resp : SessionInitResponse β)
    (e : Entropy β) : s.completionCall P resp e = (s.callKeys P resp e).map
      fun (cid, keys, chosen, ct4) =>
        { cid, keys, chosen, ct4, plaintext := s.pendingPayload.getD []
          cM := P.encrypt keys.aeadName keys.keyA2b (firstNonce P keys.ivA2b)
            (s.pendingPayload.getD []) cid } := by
  simp only [completionCall, callKeys, encrypt_zero, map_bind]
  rfl

theorem openCompletion_eq (P : Primitives β π) (s : Session β π)
    (req : SessionCompletionRequest β) : s.openCompletion P req = s.openKeys P req.ct4 req.nA >>= fun (cid, s4, keys) =>
      (orHandshakeFailed .cMDidNotDecrypt
        (decrypt P keys.aeadName keys.keyA2b keys.ivA2b 0 req.cM cid)).map
          fun plaintext => { cid, s4, keys, plaintext } := by
  simp only [openCompletion, openKeys, bind_assoc]
  rfl

theorem callKeys_cid {P : Primitives β π} {s : Session β π} {resp : SessionInitResponse β}
    {e : Entropy β} {r : List β × SessionKeys β × Aead × KemCiphertext β}
    (h : s.callKeys P resp e = .ok r) : s.cid = some r.1 := by
  simp only [callKeys, bind_ok, attr_ok, pure, Except.pure, Except.ok.injEq, Prod.exists] at h
  obtain ⟨_, _, _, _, _, _, _, _, _, _, _, _, _, _, _, _, _, cid, hcid, rfl⟩ := h
  exact hcid

theorem openKeys_cid {P : Primitives β π} {s : Session β π} {ct4 : KemCiphertext β} {nA : List β}
    {r : List β × List β × SessionKeys β} (h : s.openKeys P ct4 nA = .ok r) : s.cid = some r.1 := by
  simp only [openKeys, bind_ok, attr_ok, pure, Except.pure, Except.ok.injEq] at h
  obtain ⟨_, _, _, _, _, _, _, _, _, _, _, _, _, _, _, _, cid, hcid, rfl⟩ := h
  exact hcid

/-- `s` with these fields from elsewhere. -/
def dress (s : Session β π) (y : Held β π) : Session β π :=
  { s with
    lastReceived := y.lastReceived
    lastSent := y.lastSent
    outgoingPdus := y.outgoingPdus
    outgoingPayloads := y.outgoingPayloads
    pendingPayload := y.pendingPayload
    sentPlaintextForHM := y.sentPlaintextForHM
    incomingQueue := y.incomingQueue }

/-- A handshake PDU, which `_last_received` may be. -/
def Heard (P : Primitives β π) (k : Marks β π) (der der' : π) : Prop :=
  Twins P k der der' ∧ ∀ msg, P.load der = .ok msg → msg.payload.name ≠ .message

/-- `s` in the one run, and in the other `s` but for `y`. -/
structure Alike (P : Primitives β π) (k : Marks β π) (s : Session β π) (y : Held β π) : Prop where
  cid : ∀ c, s.cid = some c → P.octets c = cidLen
  received : Option.Rel (Heard P k) s.lastReceived y.lastReceived
  sent : Option.Rel (Twins P k) s.lastSent y.lastSent
  pdus : List.Forall₂ (Twins P k) s.outgoingPdus y.outgoingPdus
  payloads : List.Forall₂ (SameLength P) s.outgoingPayloads y.outgoingPayloads
  pending : Option.Rel (SameLength P) s.pendingPayload y.pendingPayload
  queue : List.Forall₂ (Twins P k) s.incomingQueue y.incomingQueue
  texts : ∀ text text', k.texts = some (text, text') → SameLength P text text'
  hashed : s.role = .initiator → s.sentPlaintextForHM = k.texts.map Prod.fst ∧
    y.sentPlaintextForHM = k.texts.map Prod.snd
  uncalled : s.role = .initiator → s.state = .initial ∨ s.state = .expectSessionInitResponse →
    k.texts = none ∧ k.request = none
  unanswered : s.role = .responder →
    s.state = .initial ∨ s.state = .expectSessionCompletionRequest → k.response = none

end Session

/-- An end makes its own pair only, and once. -/
structure Marks.Grows (role : Role) (k k' : Marks β π) : Prop where
  texts : ∀ p, k.texts = some p → k'.texts = some p
  request : ∀ p, k.request = some p → k'.request = some p
  response : ∀ p, k.response = some p → k'.response = some p
  initiator : role = .initiator → k'.response = k.response
  responder : role = .responder → k'.texts = k.texts ∧ k'.request = k.request

section
variable {P : Primitives β π} {k k' k'' : Marks β π} {role : Role}

theorem Marks.grows_refl (role : Role) (k : Marks β π) : k.Grows role k :=
  ⟨fun _ => id, fun _ => id, fun _ => id, fun _ => rfl, fun _ => ⟨rfl, rfl⟩⟩

theorem Marks.Grows.trans (h : k.Grows role k') (h' : k'.Grows role k'') : k.Grows role k'' where
  texts p hp := h'.texts p (h.texts p hp)
  request p hp := h'.request p (h.request p hp)
  response p hp := h'.response p (h.response p hp)
  initiator hr := (h'.initiator hr).trans (h.initiator hr)
  responder hr := ⟨(h'.responder hr).1.trans (h.responder hr).1,
    (h'.responder hr).2.trans (h.responder hr).2⟩

theorem Likened.mono {payload payload' : MakePayload β} (h : Likened P k payload payload')
    (hk : k.Grows role k') : Likened P k' payload payload' := by
  cases h with
  | initRequest req => exact .initRequest req
  | initResponse resp => exact .initResponse resp
  | completionRequest ct4 nA ht hs => exact .completionRequest ct4 nA (hk.texts _ ht) hs
  | completionResponse ht hm => exact .completionResponse (hk.texts _ ht) hm
  | message seq hm => exact .message seq hm

theorem Twins.mono {der der' : π} (h : Twins P k der der') (hk : k.Grows role k') :
    Twins P k' der der' := by
  obtain ⟨cid, payload, payload', hc, hl, hd, hd', hreq, hresp⟩ := h.built
  exact ⟨cid, payload, payload', hc, hl.mono hk, hd, hd', fun hn => hk.request _ (hreq hn),
    fun hn => hk.response _ (hresp hn)⟩

theorem rel_none_iff {α γ : Type} {R : α → γ → Prop} {o : Option γ} :
    Option.Rel R none o ↔ o = none := by
  cases o <;> simp

theorem rel_some_iff {α γ : Type} {R : α → γ → Prop} {a : α} {o : Option γ} :
    Option.Rel R (some a) o ↔ ∃ c, o = some c ∧ R a c := by
  cases o <;> simp

theorem rel_imp {α γ : Type} {R S : α → γ → Prop} (h : ∀ a c, R a c → S a c) {o : Option α}
    {o' : Option γ} (ho : Option.Rel R o o') : Option.Rel S o o' := by
  cases ho with
  | none => exact .none
  | some hr => exact .some (h _ _ hr)

namespace Session
variable {s : Session β π} {y : Held β π}

theorem Heard.mono {der der' : π} (h : Heard P k der der') (hk : k.Grows role k') :
    Heard P k' der der' := ⟨h.1.mono hk, h.2⟩

theorem heard_of_loaded {der der' : π} {cid : List β} {payload payload' : MakePayload β}
    (h : Loaded P k der der' cid payload payload') (ht : Twins P k der der')
    (hne : payload.name ≠ .message) : Heard P k der der' := by
  refine ⟨ht, fun msg hmsg => ?_⟩
  rw [h.load, Except.ok.injEq] at hmsg
  rw [← hmsg]
  exact hne

/-- The other end is alike as before. -/
theorem Alike.peer (h : s.Alike P k y) (hk : k.Grows role k') (hrole : s.role ≠ role)
    (htexts : ∀ text text', k'.texts = some (text, text') → SameLength P text text') :
    s.Alike P k' y := by
  refine ⟨h.cid, rel_imp (fun _ _ hr => hr.mono hk) h.received,
    rel_imp (fun _ _ ht => ht.mono hk) h.sent, h.pdus.imp fun _ _ ht => ht.mono hk, h.payloads,
    h.pending, h.queue.imp fun _ _ ht => ht.mono hk, htexts, ?_, ?_, ?_⟩
  · intro hr
    have hother : role = .responder := by
      cases role <;> simp_all
    rw [(hk.responder hother).1]
    exact h.hashed hr
  · intro hr hs
    have hother : role = .responder := by
      cases role <;> simp_all
    rw [(hk.responder hother).1, (hk.responder hother).2]
    exact h.uncalled hr hs
  · intro hr hs
    have hother : role = .initiator := by
      cases role <;> simp_all
    rw [hk.initiator hother]
    exact h.unanswered hr hs

/-! ## One call in both runs -/

/-- The call goes the same way in both runs. -/
def Together (P : Primitives β π) (k : Marks β π) (s : Session β π)
    (u u' : Session β π × Option PyError) : Prop :=
  ∃ k' y', u' = (u.1.dress y', u.2) ∧ u.1.Alike P k' y' ∧ k.Grows s.role k' ∧ u.1.role = s.role

theorem Alike.together (h : s.Alike P k y) (x : Option PyError) :
    Together P k s (s, x) (s.dress y, x) := ⟨k, y, rfl, h, Marks.grows_refl s.role k, rfl⟩

/-- What it sends is not one of the two PDUs that differ. -/
theorem twins_plain {cid : List β} {payload : MakePayload β} (hc : P.octets cid = cidLen)
    (hl : Likened P k payload payload) (hreq : payload.name ≠ .sessionCompletionRequest)
    (hresp : payload.name ≠ .sessionCompletionResponse) :
    Twins P k (P.dump (.build cid payload)) (P.dump (.build cid payload)) :=
  ⟨cid, payload, payload, hc, hl, rfl, rfl, fun h => absurd h hreq, fun h => absurd h hresp⟩

theorem forall₂_snoc {α γ : Type} {R : α → γ → Prop} {l : List α} {l' : List γ} {a : α} {c : γ}
    (h : List.Forall₂ R l l') (hr : R a c) : List.Forall₂ R (l ++ [a]) (l' ++ [c]) :=
  List.rel_append h (.cons hr .nil)

theorem rel_toList {α γ : Type} {R : α → γ → Prop} {o : Option α} {o' : Option γ}
    (h : Option.Rel R o o') : List.Forall₂ R o.toList o'.toList := by
  cases h with
  | none => exact .nil
  | some hr => exact .cons hr .nil

theorem Alike.resend (h : s.Alike P k y) :
    ∃ y', (s.dress y).resend = s.resend.dress y' ∧ s.resend.Alike P k y' := by
  rw [resend_eq, resend_eq]
  exact ⟨{ y with outgoingPdus := y.outgoingPdus ++ y.lastSent.toList }, rfl,
    { h with pdus := List.rel_append h.pdus (rel_toList h.sent) }⟩

theorem together_initRequest (h : s.Alike P k y) (hr : s.role = .responder)
    (hs : s.state = .initial) {der der' : π} (hder : Heard P k der der')
    (req : SessionInitRequest β) (now : Int) (e : Entropy β) :
    Together P k s (s.handleSessionInitRequest P req der now e)
      ((s.dress y).handleSessionInitRequest P req der' now e) := by
  have hsame : (s.dress y).initReply P req e = s.initReply P req e := rfl
  unfold handleSessionInitRequest
  rw [hsame]
  cases hreply : s.initReply P req e with
  | error x => exact h.together (some x)
  | ok r =>
    obtain ⟨answer⟩ := initReply_ok hreply
    have hout : Twins P k r.outDer r.outDer := by
      rw [answer.out]
      exact twins_plain (h.cid _ answer.has_cid) (.initResponse _) (by simp [MakePayload.name])
        (by simp [MakePayload.name])
    refine ⟨k, { y with
      lastReceived := some der'
      lastSent := some r.outDer
      outgoingPdus := y.outgoingPdus ++ [r.outDer] }, rfl, ?_, Marks.grows_refl _ k, rfl⟩
    exact { h with
      received := .some hder
      sent := .some hout
      pdus := forall₂_snoc h.pdus hout
      uncalled := fun hr' => by
        have hrole : s.role = .initiator := hr'
        simp [hr] at hrole
      unanswered := fun _ _ => h.unanswered hr (.inl hs) }

theorem sameLength_getD {o o' : Option (List β)} (h : Option.Rel (SameLength P) o o') :
    SameLength P (o.getD []) (o'.getD []) := by
  cases h with
  | none => exact ⟨rfl, Iff.rfl⟩
  | some h => exact h

/-- The completion request that carries `text`. -/
def completionRequest (P : Primitives β π) (cid : List β) (keys : SessionKeys β)
    (ct4 : KemCiphertext β) (nA text : List β) : π :=
  P.dump (.build cid (.sessionCompletionRequest
    ⟨P.encrypt keys.aeadName keys.keyA2b (firstNonce P keys.ivA2b) text cid, ct4, nA⟩))

theorem together_initResponse (hP : P.Correct) (h : s.Alike P k y) (hr : s.role = .initiator)
    (hs : s.state = .expectSessionInitResponse) {der der' : π} (hder : Heard P k der der')
    (resp : SessionInitResponse β) (now : Int) (e : Entropy β) :
    Together P k s (s.handleSessionInitResponse P resp der now e)
      ((s.dress y).handleSessionInitResponse P resp der' now e) := by
  have hsame : (s.dress y).callKeys P resp e = s.callKeys P resp e := rfl
  unfold handleSessionInitResponse
  rw [completionCall_eq, completionCall_eq, hsame]
  cases hk : s.callKeys P resp e with
  | error x => exact h.together (some x)
  | ok r =>
    obtain ⟨cid, keys, chosen, ct4⟩ := r
    have hbuild : ∀ text, SessionCompletionRequest.build
        (P.encrypt keys.aeadName keys.keyA2b (firstNonce P keys.ivA2b) text cid) ct4 e.nonce =
          .ok ⟨P.encrypt keys.aeadName keys.keyA2b (firstNonce P keys.ivA2b) text cid, ct4,
            e.nonce⟩ :=
      fun text => if_neg (hP.encrypt_ne_nil _ _ _ _ _)
    simp only [Except.map, hbuild]
    -- the pair is made here, and has not been before
    let text := s.pendingPayload.getD []
    let text' := y.pendingPayload.getD []
    let out := completionRequest P cid keys ct4 e.nonce text
    let out' := completionRequest P cid keys ct4 e.nonce text'
    let k' : Marks β π := { k with texts := some (text, text'), request := some (out, out') }
    obtain ⟨hnone, hunsent⟩ := h.uncalled hr (.inr hs)
    have hgrows : k.Grows s.role k' := by
      refine ⟨fun p hp => ?_, fun p hp => ?_, fun _ => id, fun _ => rfl, fun hr' => ?_⟩
      · rw [hnone] at hp
        cases hp
      · rw [hunsent] at hp
        cases hp
      · rw [hr] at hr'
        cases hr'
    have hout : Twins P k' out out' := by
      refine ⟨cid, _, _, h.cid cid (callKeys_cid hk), .completionRequest ct4 e.nonce rfl
        (.mk keys.aeadName keys.keyA2b (firstNonce P keys.ivA2b) cid), rfl, rfl, fun _ => rfl, ?_⟩
      intro hn
      cases hn
    refine ⟨k', { y with
      pendingPayload := none
      sentPlaintextForHM := some text'
      lastReceived := some der'
      lastSent := some out'
      outgoingPdus := y.outgoingPdus ++ [out'] }, rfl, ?_, hgrows, rfl⟩
    exact
      { cid := h.cid
        received := .some (hder.mono hgrows)
        sent := .some hout
        pdus := forall₂_snoc (h.pdus.imp fun _ _ ht => ht.mono hgrows) hout
        payloads := h.payloads
        pending := .none
        queue := h.queue.imp fun _ _ ht => ht.mono hgrows
        texts := fun t t' heq => by
          cases heq
          exact sameLength_getD h.pending
        hashed := fun _ => ⟨rfl, rfl⟩
        uncalled := fun _ hs' => by simp [acceptInitResponse] at hs'
        unanswered := fun hr' _ => by
          have hrole : s.role = .responder := hr'
          simp [hr] at hrole }

theorem Alike.acceptCompletion (h : s.Alike P k y) (hr : s.role = .responder)
    (hs : s.state = .expectSessionCompletionRequest) {der der' : π} (hder : Heard P k der der')
    {text text' : List β} (ht : k.texts = some (text, text')) {cid : List β}
    (hc : P.octets cid = cidLen) {m m' : Option (List β)} (hm : Option.Rel (Concealed P) m m')
    (s4 nA cM cM' : List β) (ct4 : KemCiphertext β) (keys : SessionKeys β) :
    ∃ k' y', (s.dress y).acceptCompletion P ⟨cM', ct4, nA⟩ der' ⟨cid, s4, keys, text'⟩ m' =
        (s.acceptCompletion P ⟨cM, ct4, nA⟩ der ⟨cid, s4, keys, text⟩ m).dress y' ∧
      (s.acceptCompletion P ⟨cM, ct4, nA⟩ der ⟨cid, s4, keys, text⟩ m).Alike P k' y' ∧
      k.Grows s.role k' := by
  let out := P.dump (.build cid (.sessionCompletionResponse ⟨P.sha256 text, m⟩))
  let out' := P.dump (.build cid (.sessionCompletionResponse ⟨P.sha256 text', m'⟩))
  let k' : Marks β π := { k with response := some (out, out') }
  have hgrows : k.Grows s.role k' := by
    refine ⟨fun _ => id, fun _ => id, fun p hp => ?_, fun hr' => ?_, fun _ => ⟨rfl, rfl⟩⟩
    · rw [h.unanswered hr (.inr hs)] at hp
      cases hp
    · rw [hr] at hr'
      cases hr'
  have hout : Twins P k' out out' := by
    refine ⟨cid, _, _, hc, .completionResponse ht hm, rfl, rfl, ?_, fun _ => rfl⟩
    intro hn
    cases hn
  refine ⟨k', { y with
    lastReceived := some der'
    lastSent := some out'
    outgoingPdus := y.outgoingPdus ++ [out'] }, rfl, ?_, hgrows⟩
  exact
    { cid := h.cid
      received := .some (hder.mono hgrows)
      sent := .some hout
      pdus := forall₂_snoc (h.pdus.imp fun _ _ ht => ht.mono hgrows) hout
      payloads := h.payloads
      pending := h.pending
      queue := h.queue.imp fun _ _ ht => ht.mono hgrows
      texts := h.texts
      hashed := h.hashed
      uncalled := fun hr' _ => by
        have hrole : s.role = .initiator := hr'
        simp [hr] at hrole
      unanswered := fun _ hs' => by simp [Session.acceptCompletion] at hs' }

/-- What has been decrypted is surfaced, unless it is empty. -/
theorem Alike.surface (h : s.Alike P k y) {text text' : List β} (hl : SameLength P text text') :
    ∃ y', (if text' = [] then s.dress y else
        { s.dress y with outgoingPayloads := (s.dress y).outgoingPayloads ++ [text'] }) =
        (if text = [] then s else { s with
          outgoingPayloads := s.outgoingPayloads ++ [text] }).dress y' ∧
      (if text = [] then s else { s with
        outgoingPayloads := s.outgoingPayloads ++ [text] }).Alike P k y' := by
  by_cases ht : text = []
  · rw [if_pos ht, if_pos (hl.2.mp ht)]
    exact ⟨y, rfl, h⟩
  · rw [if_neg ht, if_neg fun ht' => ht (hl.2.mpr ht')]
    exact ⟨{ y with outgoingPayloads := y.outgoingPayloads ++ [text'] }, rfl,
      { h with payloads := forall₂_snoc h.payloads hl }⟩

theorem together_completionRequest (ho : P.Opaque) (h : s.Alike P k y) (hr : s.role = .responder)
    (hs : s.state = .expectSessionCompletionRequest) {der der' : π} (hder : Heard P k der der')
    {req req' : SessionCompletionRequest β}
    (hl : Likened P k (.sessionCompletionRequest req) (.sessionCompletionRequest req')) :
    Together P k s (s.handleSessionCompletionRequest P req der)
      ((s.dress y).handleSessionCompletionRequest P req' der') := by
  cases hl with
  | @completionRequest text text' cM cM' ct4 nA ht hseal =>
    have hsame : (s.dress y).openKeys P ct4 nA = s.openKeys P ct4 nA := rfl
    unfold handleSessionCompletionRequest
    rw [openCompletion_eq, openCompletion_eq, hsame]
    cases hk : s.openKeys P ct4 nA with
    | error x => exact h.together (some x)
    | ok r =>
      obtain ⟨cid, s4, keys⟩ := r
      have hc : P.octets cid = cidLen := h.cid cid (openKeys_cid hk)
      obtain ⟨hd, hd'⟩ | ⟨x, hd, hd'⟩ := hseal.decrypt ho keys.aeadName keys.keyA2b keys.ivA2b 0 cid
      · simp only [bind, Except.bind, hd, hd', orHandshakeFailed, Except.map]
        obtain ⟨y₁, hsurface, h₁⟩ := h.surface (h.texts text text' ht)
        rw [hsurface]
        generalize hs₁ : (if text = [] then s else
          { s with outgoingPayloads := s.outgoingPayloads ++ [text] }) = s₁ at h₁ hsurface ⊢
        obtain ⟨hrole, hstate⟩ : s₁.role = s.role ∧ s₁.state = s.state := by
          rw [← hs₁]
          split <;> exact ⟨rfl, rfl⟩
        have hpending := h₁.pending
        cases hp : s₁.pendingPayload with
        | none =>
          rw [hp, rel_none_iff] at hpending
          have hp' : (s₁.dress y₁).pendingPayload = none := hpending
          simp only [hp']
          obtain ⟨k', y', hsame', ha, hg⟩ := h₁.acceptCompletion (hrole.trans hr) (hstate.trans hs)
            hder ht hc .none s4 nA cM cM' ct4 keys
          exact ⟨k', y', by rw [hsame'], ha, hrole ▸ hg, hrole⟩
        | some payload =>
          rw [hp, rel_some_iff] at hpending
          obtain ⟨payload', hy, hlen⟩ := hpending
          have hp' : (s₁.dress y₁).pendingPayload = some payload' := hy
          simp only [hp', encrypt_zero]
          have h₂ : ({ s₁ with seqB2a := 1, pendingPayload := none } : Session β π).Alike P k
              { y₁ with pendingPayload := none } := { h₁ with pending := .none }
          have hreply : Concealed P
              (P.encrypt keys.aeadName keys.keyB2a (firstNonce P keys.ivB2a) payload cid)
              (P.encrypt keys.aeadName keys.keyB2a (firstNonce P keys.ivB2a) payload' cid) :=
            ⟨payload, payload', hlen, .mk keys.aeadName keys.keyB2a (firstNonce P keys.ivB2a) cid⟩
          obtain ⟨k', y', hsame', ha, hg⟩ := h₂.acceptCompletion (hrole.trans hr) (hstate.trans hs)
            hder ht hc (.some hreply) s4 nA cM cM' ct4 keys
          exact ⟨k', y', congrArg (·, none) hsame', ha, hrole ▸ hg, hrole⟩
      · simp only [bind, Except.bind, hd, hd', orHandshakeFailed, Except.map]
        exact h.together _

theorem Alike.acceptReply (h : s.Alike P k y) (hr : s.role = .initiator) {der der' : π}
    (hder : Heard P k der der') : (s.acceptReply der).Alike P k
      { y with lastReceived := some der', lastSent := none } :=
  { h with
    received := .some hder
    sent := .none
    uncalled := fun _ hs' => by simp [Session.acceptReply] at hs'
    unanswered := fun hr' _ => by
      have hrole : s.role = .responder := hr'
      simp [hr] at hrole }

theorem openReply_alike (ho : P.Opaque) (s : Session β π) (y : Held β π)
    {reply reply' m m' : List β} (hseal : Sealed P reply reply' m m') :
    (s.openReply P m = .ok reply ∧ (s.dress y).openReply P m' = .ok reply') ∨
      ∃ x, s.openReply P m = .error x ∧ (s.dress y).openReply P m' = .error x := by
  have hkeys : (s.dress y).sessionKeys = s.sessionKeys := rfl
  have hcid : (s.dress y).cid = s.cid := rfl
  unfold openReply
  rw [hkeys, hcid]
  cases s.sessionKeys with
  | none => exact .inr ⟨.noneRead, rfl, rfl⟩
  | some keys =>
    cases s.cid with
    | none => exact .inr ⟨.noneRead, rfl, rfl⟩
    | some cid => exact hseal.decrypt ho keys.aeadName keys.keyB2a keys.ivB2a 0 cid

theorem openMessage_alike (ho : P.Opaque) (s : Session β π) (y : Held β π) (seq : Int)
    {text text' m m' : List β} (hseal : Sealed P text text' m m') :
    (s.openMessage P ⟨seq, m⟩ = .ok text ∧ (s.dress y).openMessage P ⟨seq, m'⟩ = .ok text') ∨
      ∃ x, s.openMessage P ⟨seq, m⟩ = .error x ∧
        (s.dress y).openMessage P ⟨seq, m'⟩ = .error x := by
  have hkeys : (s.dress y).sessionKeys = s.sessionKeys := rfl
  have hcid : (s.dress y).cid = s.cid := rfl
  have hreceiving : ∀ keys, (s.dress y).receiving keys = s.receiving keys := fun _ => rfl
  unfold openMessage
  rw [hkeys, hcid]
  cases s.sessionKeys with
  | none => exact .inr ⟨.noneRead, rfl, rfl⟩
  | some keys =>
    cases s.cid with
    | none => exact .inr ⟨.noneRead, rfl, rfl⟩
    | some cid =>
      simp only [attr, bind, Except.bind, hreceiving]
      split
      · exact .inr ⟨_, rfl, rfl⟩
      · exact hseal.decrypt ho keys.aeadName _ _ _ cid

/-- Where h_m is that of what has been sent. -/
theorem completionResponse_acknowledged [DecidableEq β] {text : List β}
    (hsent : s.sentPlaintextForHM = some text) {m : Option (List β)} {der : π} :
    s.handleSessionCompletionResponse P ⟨P.sha256 text, m⟩ der =
      match m with
      | none => (s.acceptReply der, none)
      | some m =>
        match s.openReply P m with
        | .error _ => (s, some (.handshakeFailed .mDidNotDecrypt))
        | .ok reply => ({ s with
            seqB2a := 1
            outgoingPayloads := s.outgoingPayloads ++ [reply] }.acceptReply der, none) := by
  unfold handleSessionCompletionResponse
  split
  · rename_i hnone
    cases hnone.symm.trans hsent
  · rename_i sent hsome
    obtain rfl : text = sent := Option.some.inj (hsent.symm.trans hsome)
    exact if_neg fun hne => hne rfl

theorem together_completionResponse [DecidableEq β] (ho : P.Opaque) (h : s.Alike P k y)
    (hr : s.role = .initiator) {der der' : π} (hder : Heard P k der der')
    {resp resp' : SessionCompletionResponse β}
    (hl : Likened P k (.sessionCompletionResponse resp) (.sessionCompletionResponse resp')) :
    Together P k s (s.handleSessionCompletionResponse P resp der)
      ((s.dress y).handleSessionCompletionResponse P resp' der') := by
  cases hl with
  | @completionResponse text text' m m' ht hm =>
    obtain ⟨hsent, hsent'⟩ := h.hashed hr
    rw [ht] at hsent hsent'
    have hdress : (s.dress y).sentPlaintextForHM = some text' := hsent'
    rw [completionResponse_acknowledged hsent, completionResponse_acknowledged hdress]
    cases hm with
    | none =>
      exact ⟨k, { y with lastReceived := some der', lastSent := none }, rfl, h.acceptReply hr hder,
        Marks.grows_refl _ k, rfl⟩
    | some hm =>
      obtain ⟨reply, reply', hlen, hseal⟩ := hm
      obtain ⟨hopen, hopen'⟩ | ⟨x, hopen, hopen'⟩ := openReply_alike ho s y hseal
      · simp only [hopen, hopen']
        have h₁ : ({ s with
            seqB2a := 1
            outgoingPayloads := s.outgoingPayloads ++ [reply] } : Session β π).Alike P k
            { y with outgoingPayloads := y.outgoingPayloads ++ [reply'] } :=
          { h with payloads := forall₂_snoc h.payloads hlen }
        exact ⟨k, _, rfl, h₁.acceptReply hr hder, Marks.grows_refl _ k, rfl⟩
      · simp only [hopen, hopen']
        exact h.together _

theorem together_message (ho : P.Opaque) (h : s.Alike P k y) {msg msg' : Message β}
    (hl : Likened P k (.message msg) (.message msg')) :
    Together P k s (s.handleEstablishedMessage P msg)
      ((s.dress y).handleEstablishedMessage P msg') := by
  cases hl with
  | @message m m' seq hm =>
    obtain ⟨text, text', hlen, hseal⟩ := hm
    unfold handleEstablishedMessage
    obtain ⟨hopen, hopen'⟩ | ⟨x, hopen, hopen'⟩ := openMessage_alike ho s y seq hseal
    · simp only [hopen, hopen', countReceived_eq]
      exact ⟨k, { y with outgoingPayloads := y.outgoingPayloads ++ [text'] }, rfl,
        { h with payloads := forall₂_snoc h.payloads hlen }, Marks.grows_refl _ k, rfl⟩
    · simp only [hopen, hopen']
      exact h.together _

theorem messagePdu_alike (h : s.Alike P k y) {payload payload' : List β}
    (hlen : SameLength P payload payload') :
    (∃ pdu pdu', s.messagePdu P payload = .ok pdu ∧ (s.dress y).messagePdu P payload' = .ok pdu' ∧
      Twins P k pdu pdu') ∨
      ∃ x, s.messagePdu P payload = .error x ∧ (s.dress y).messagePdu P payload' = .error x := by
  have hkeys : (s.dress y).sessionKeys = s.sessionKeys := rfl
  have hcid : (s.dress y).cid = s.cid := rfl
  have hsending : ∀ keys, (s.dress y).sending keys = s.sending keys := fun _ => rfl
  unfold messagePdu
  rw [hkeys, hcid]
  cases s.sessionKeys with
  | none => exact .inr ⟨.noneRead, rfl, rfl⟩
  | some keys =>
    cases hc : s.cid with
    | none => exact .inr ⟨.noneRead, rfl, rfl⟩
    | some cid =>
      simp only [attr, bind, Except.bind, hsending]
      obtain ⟨ct, ct', hct, hct', hseal⟩ | ⟨x, hx, hx'⟩ := encrypt_sealed P keys.aeadName
        (s.sending keys).1 (s.sending keys).2.1 (s.sending keys).2.2 payload payload' cid
      · rw [hct, hct']
        refine .inl ⟨_, _, rfl, rfl, cid, _, _, h.cid cid hc,
          .message _ ⟨payload, payload', hlen, hseal⟩, rfl, rfl, ?_, ?_⟩
        · intro hn
          cases hn
        · intro hn
          cases hn
      · rw [hx, hx']
        exact .inr ⟨x, rfl, rfl⟩

theorem together_payload (h : s.Alike P k y) {payload payload' : List β}
    (hlen : SameLength P payload payload') :
    Together P k s (s.sendEstablishedPayload P payload)
      ((s.dress y).sendEstablishedPayload P payload') := by
  have h₁ : ({ s with pendingPayload := none } : Session β π).Alike P k
      { y with pendingPayload := none } := { h with pending := .none }
  have hdress : { s.dress y with pendingPayload := none } =
      ({ s with pendingPayload := none } : Session β π).dress
        { y with pendingPayload := none } := rfl
  unfold sendEstablishedPayload
  simp only [hdress]
  obtain ⟨pdu, pdu', hpdu, hpdu', ht⟩ | ⟨x, hx, hx'⟩ := messagePdu_alike h₁ hlen
  · simp only [hpdu, hpdu', countSent_eq]
    exact ⟨k, { y with pendingPayload := none, outgoingPdus := y.outgoingPdus ++ [pdu'] }, rfl,
      { h₁ with pdus := forall₂_snoc h.pdus ht }, Marks.grows_refl _ k, rfl⟩
  · simp only [hx, hx']
    exact ⟨k, _, rfl, h₁, Marks.grows_refl _ k, rfl⟩

theorem together_send (h : s.Alike P k y) :
    Together P k s (s.sendPending P) ((s.dress y).sendPending P) := by
  have hpending := h.pending
  have hstate : (s.dress y).state = s.state := rfl
  unfold sendPending
  rw [hstate]
  split
  · cases hp : s.pendingPayload with
    | none =>
      rw [hp, rel_none_iff] at hpending
      have hp' : (s.dress y).pendingPayload = none := hpending
      simp only [hp']
      exact h.together none
    | some payload =>
      rw [hp, rel_some_iff] at hpending
      obtain ⟨payload', hy, hlen⟩ := hpending
      have hp' : (s.dress y).pendingPayload = some payload' := hy
      simp only [hp']
      exact together_payload h hlen
  · exact h.together none

theorem together_dispatch [DecidableEq β] (hP : P.Correct) (ho : P.Opaque) (h : s.Alike P k y)
    {der der' : π} {cid : List β} {payload payload' : MakePayload β}
    (hload : Loaded P k der der' cid payload payload') (ht : Twins P k der der') (now : Int)
    (e : Entropy β) :
    Together P k s (s.dispatch P payload der now e)
      ((s.dress y).dispatch P payload' der' now e) := by
  have hstate : (s.dress y).state = s.state := rfl
  have hrole : (s.dress y).role = s.role := rfl
  have hname : payload'.name = payload.name := hload.likened.name_eq
  have hder : payload.name ≠ .message → Heard P k der der' := heard_of_loaded hload ht
  have hl := hload.likened
  unfold dispatch
  rw [hstate, hrole]
  cases hs : s.state with
  | expectSessionInitResponse =>
    cases hr : s.role with
    | responder =>
      simp only [hname]
      exact h.together _
    | initiator =>
      cases hl with
      | initResponse resp =>
        exact together_initResponse hP h hr hs (hder (by simp [MakePayload.name])) resp now e
      | initRequest | completionRequest | completionResponse | message => exact h.together _
  | expectSessionCompletionRequest =>
    cases hr : s.role with
    | initiator =>
      simp only [hname]
      exact h.together _
    | responder =>
      cases hl with
      | completionRequest ct4 nA htexts hseal =>
        exact together_completionRequest ho h hr hs (hder (by simp [MakePayload.name]))
          (.completionRequest ct4 nA htexts hseal)
      | initRequest | initResponse | completionResponse | message => exact h.together _
  | expectSessionCompletionResponse =>
    cases hr : s.role with
    | responder =>
      simp only [hname]
      exact h.together _
    | initiator =>
      cases hl with
      | completionResponse htexts hm =>
        exact together_completionResponse ho h hr (hder (by simp [MakePayload.name]))
          (.completionResponse htexts hm)
      | initRequest | initResponse | completionRequest | message => exact h.together _
  | established =>
    cases hl with
    | message seq hm => exact together_message ho h (.message seq hm)
    | initRequest | initResponse | completionRequest | completionResponse => exact h.together _
  | initial | dropped =>
    simp only [hname]
    exact h.together _

theorem together_call (h : s.Alike P k y) (hr : s.role = .initiator) (hs : s.state = .initial)
    {e : Entropy β} (hc : P.octets e.uuid = cidLen) (ownKeyId peerKeyId : KeyId β) (now : Int) :
    Together P k s (s.sendInitRequest P ownKeyId peerKeyId now e)
      ((s.dress y).sendInitRequest P ownKeyId peerKeyId now e) := by
  have hkeys : (s.dress y).keys = s.keys := rfl
  have hconfig : (s.dress y).config = s.config := rfl
  unfold sendInitRequest
  rw [hkeys, hconfig]
  cases s.keys.getPublicKey peerKeyId with
  | error x => exact h.together (some x)
  | ok peerStaticPublic =>
    cases generateEphemeral P s.config.kemLevel e.seed with
    | error x => exact h.together (some x)
    | ok pair =>
      obtain ⟨ephemeralPrivate, ephemeralPublic⟩ := pair
      have h₁ : ({ s with
          ownEphemeralPrivate := some ephemeralPrivate
          ownEphemeralPublic := some ephemeralPublic } : Session β π).Alike P k y := { h with }
      dsimp only
      cases encapsulate P peerStaticPublic e.coins with
      | error x => exact ⟨k, y, rfl, h₁, Marks.grows_refl _ k, rfl⟩
      | ok sealed =>
        obtain ⟨s1, ct1⟩ := sealed
        have h₂ : ({ s with
            ownEphemeralPrivate := some ephemeralPrivate
            ownEphemeralPublic := some ephemeralPublic
            s1 := some s1 } : Session β π).Alike P k y := { h₁ with }
        dsimp only [dress]
        by_cases hempty : s.config.acceptableAeads = []
        · rw [if_pos hempty, if_pos hempty]
          exact ⟨k, y, rfl, h₂, Marks.grows_refl _ k, rfl⟩
        · rw [if_neg hempty, if_neg hempty]
          let der := P.dump (.build e.uuid (.sessionInitRequest
            { ct1, keyIdB := peerKeyId, pkAStar := ephemeralPublic, keyIdA := ownKeyId
              acceptableAeads := s.config.acceptableAeads.map aeadOid }))
          have hder : Twins P k der der := twins_plain hc (.initRequest _)
            (by simp [MakePayload.name]) (by simp [MakePayload.name])
          have h₃ : ({ s with
              ownEphemeralPrivate := some ephemeralPrivate
              ownEphemeralPublic := some ephemeralPublic
              s1 := some s1
              lastSent := some der
              attemptCount := 0
              deadline := some (now + s.config.retryIntervalSeconds)
              state := .expectSessionInitResponse
              outgoingPdus := s.outgoingPdus ++ [der] } : Session β π).Alike P k
              { y with lastSent := some der, outgoingPdus := y.outgoingPdus ++ [der] } :=
            { h₂ with
              sent := .some hder
              pdus := forall₂_snoc h.pdus hder
              uncalled := fun _ _ => h.uncalled hr (.inl hs)
              unanswered := fun hr' _ => by
                have hrole : s.role = .responder := hr'
                simp [hr] at hrole }
          exact ⟨k, _, rfl, h₃, Marks.grows_refl _ k, rfl⟩

theorem initiate_initial (hr : s.role = .initiator) (hs : s.state = .initial) (peerKeyId : KeyId β)
    (now : Int) (e : Entropy β) : s.initiate P peerKeyId now e =
      match s.ownKeyId with
      | none => ({ s with cid := some e.uuid, peerKeyId := some peerKeyId }, some .noneRead)
      | some ownKeyId =>
        let s : Session β π := { s with cid := some e.uuid, peerKeyId := some peerKeyId }
        s.sendInitRequest P ownKeyId peerKeyId now e := by
  unfold initiate
  exact (if_neg (not_not.mpr hr)).trans (if_neg (not_not.mpr hs))

theorem together_initiate (h : s.Alike P k y) {e : Entropy β} (hc : P.octets e.uuid = cidLen)
    (peerKeyId : KeyId β) (now : Int) :
    Together P k s (s.initiate P peerKeyId now e) ((s.dress y).initiate P peerKeyId now e) := by
  by_cases hinitial : s.role = .initiator ∧ s.state = .initial
  · obtain ⟨hr, hs⟩ := hinitial
    have hnamed : ∀ c, some e.uuid = some c → P.octets c = cidLen := by
      intro c heq
      cases heq
      exact hc
    have h₁ : ({ s with
        cid := some e.uuid
        peerKeyId := some peerKeyId } : Session β π).Alike P k y := { h with cid := hnamed }
    have hown : (s.dress y).ownKeyId = s.ownKeyId := rfl
    rw [initiate_initial hr hs, initiate_initial (s := s.dress y) hr hs, hown]
    split
    · exact ⟨k, y, rfl, h₁, Marks.grows_refl _ k, rfl⟩
    · exact together_call h₁ hr hs hc _ peerKeyId now
  · have hrefused : ∃ x, s.initiate P peerKeyId now e = (s, x) ∧
        (s.dress y).initiate P peerKeyId now e = (s.dress y, x) := by
      have hrole : (s.dress y).role = s.role := rfl
      have hstate : (s.dress y).state = s.state := rfl
      unfold initiate
      rw [hrole, hstate]
      by_cases hr : s.role = .initiator
      · rw [if_neg (not_not.mpr hr), if_neg (not_not.mpr hr), if_pos fun hs => hinitial ⟨hr, hs⟩,
          if_pos fun hs => hinitial ⟨hr, hs⟩]
        exact ⟨_, rfl, rfl⟩
      · rw [if_pos hr, if_pos hr]
        exact ⟨_, rfl, rfl⟩
    obtain ⟨x, hx, hx'⟩ := hrefused
    rw [hx, hx']
    exact h.together x

/-! ### Push in, pull out -/

theorem alike_new (role : Role) (ownKeyId : Option (KeyId β)) (keys : KeyLookup β)
    (config : SessionConfig) :
    (Session.new (π := π) role ownKeyId keys config).Alike P {} {} where
  cid _ heq := by cases heq
  received := .none
  sent := .none
  pdus := .nil
  payloads := .nil
  pending := .none
  queue := .nil
  texts _ _ heq := by cases heq
  hashed _ := ⟨rfl, rfl⟩
  uncalled _ _ := ⟨rfl, rfl⟩
  unanswered _ _ := rfl

theorem Alike.postPdu (h : s.Alike P k y) {der der' : π} (ht : Twins P k der der') :
    ∃ y', (s.dress y).postPdu der' = (s.postPdu der).dress y' ∧ (s.postPdu der).Alike P k y' :=
  ⟨{ y with incomingQueue := y.incomingQueue ++ [der'] }, rfl,
    { h with queue := forall₂_snoc h.queue ht }⟩

theorem Alike.postPayload (h : s.Alike P k y) {payload payload' : List β}
    (hlen : SameLength P payload payload') :
    ∃ y', ((s.dress y).postPayload payload').1 = (s.postPayload payload).1.dress y' ∧
      (s.postPayload payload).1.Alike P k y' := by
  rw [postPayload_eq, postPayload_eq]
  refine ⟨{ y with
    pendingPayload := if payload' = [] then y.pendingPayload else some payload' }, rfl,
    { h with pending := ?_ }⟩
  by_cases hempty : payload = []
  · rw [if_pos hempty, if_pos (hlen.2.mp hempty)]
    exact h.pending
  · rw [if_neg hempty, if_neg fun h' => hempty (hlen.2.mpr h')]
    exact .some hlen

theorem Alike.getPdu (h : s.Alike P k y) :
    ∃ y', (s.dress y).getPdu.1 = s.getPdu.1.dress y' ∧ s.getPdu.1.Alike P k y' ∧
      s.getPdu.1.role = s.role ∧
      List.Forall₂ (Twins P k) s.getPdu.2.toOption.toList (s.dress y).getPdu.2.toOption.toList := by
  have hpdus := h.pdus
  have hdress : (s.dress y).outgoingPdus = y.outgoingPdus := rfl
  unfold Session.getPdu
  rw [hdress]
  cases hs : s.outgoingPdus with
  | nil =>
    rw [hs, List.forall₂_nil_left_iff] at hpdus
    rw [hpdus]
    exact ⟨y, rfl, h, rfl, .nil⟩
  | cons pdu rest =>
    rw [hs, List.forall₂_cons_left_iff] at hpdus
    obtain ⟨pdu', rest', ht, hrest, hy⟩ := hpdus
    rw [hy]
    exact ⟨{ y with outgoingPdus := rest' }, rfl, { h with pdus := hrest }, rfl, .cons ht .nil⟩

theorem Alike.getPayload (h : s.Alike P k y) :
    ∃ y', (s.dress y).getPayload.1 = s.getPayload.1.dress y' ∧ s.getPayload.1.Alike P k y' ∧
      s.getPayload.1.role = s.role := by
  have hpayloads := h.payloads
  have hdress : (s.dress y).outgoingPayloads = y.outgoingPayloads := rfl
  unfold Session.getPayload
  rw [hdress]
  cases hs : s.outgoingPayloads with
  | nil =>
    rw [hs, List.forall₂_nil_left_iff] at hpayloads
    rw [hpayloads]
    exact ⟨y, rfl, h, rfl⟩
  | cons payload rest =>
    rw [hs, List.forall₂_cons_left_iff] at hpayloads
    obtain ⟨payload', rest', _, hrest, hy⟩ := hpayloads
    rw [hy]
    exact ⟨{ y with outgoingPayloads := rest' }, rfl, { h with payloads := hrest }, rfl⟩

/-! ### The clock -/

theorem Alike.onTimeout (h : s.Alike P k y) (now : Int) :
    ∃ y', (s.dress y).onTimeout now = (s.onTimeout now).dress y' ∧
      (s.onTimeout now).Alike P k y' := by
  have hdropped : ({ s with state := .dropped } : Session β π).Alike P k y :=
    { h with
      uncalled := fun _ hs => by simp at hs
      unanswered := fun _ hs => by simp at hs }
  have hrole : (s.dress y).role = s.role := rfl
  have hcount : (s.dress y).attemptCount = s.attemptCount := rfl
  have hconfig : (s.dress y).config = s.config := rfl
  unfold Session.onTimeout
  rw [hrole, hcount, hconfig]
  split
  · exact ⟨y, rfl, hdropped⟩
  · split
    · exact ⟨y, rfl, hdropped⟩
    · have h₁ : ({ s with
          attemptCount := s.attemptCount + 1
          deadline := some (now + s.config.retryIntervalSeconds) } : Session β π).Alike P k y :=
        { h with }
      exact h₁.resend

theorem Alike.checkDeadline (h : s.Alike P k y) (now : Int) :
    ∃ y', (s.dress y).checkDeadline now = (s.checkDeadline now).dress y' ∧
      (s.checkDeadline now).Alike P k y' := by
  have hdeadline : (s.dress y).deadline = s.deadline := rfl
  have hstate : (s.dress y).state = s.state := rfl
  unfold Session.checkDeadline
  rw [hdeadline]
  cases s.deadline with
  | none => exact ⟨y, rfl, h⟩
  | some deadline =>
    simp only [hstate]
    split
    · exact h.onTimeout now
    · exact ⟨y, rfl, h⟩

variable [DecidableEq β] [DecidableEq π]

theorem together_processIncoming (hP : P.Correct) (ho : P.Opaque) (h : s.Alike P k y) {der der' : π}
    (ht : Twins P k der der') (now : Int) (e : Entropy β) :
    Together P k s (s.processIncoming P der now e) ((s.dress y).processIncoming P der' now e) := by
  have hsame : (s.dress y).lastReceived = some der' ↔ s.lastReceived = some der := by
    have hreceived := h.received
    change y.lastReceived = some der' ↔ _
    cases hs : s.lastReceived with
    | none =>
      rw [hs, rel_none_iff] at hreceived
      simp [hreceived]
    | some last =>
      rw [hs, rel_some_iff] at hreceived
      obtain ⟨last', hy, hheard⟩ := hreceived
      rw [hy, Option.some.injEq, Option.some.injEq]
      exact (ht.eq_iff hP hheard.1 hheard.2).symm
  unfold processIncoming
  by_cases hd : s.lastReceived = some der
  · rw [if_pos hd, if_pos (hsame.mpr hd)]
    obtain ⟨y', hresend, ha⟩ := h.resend
    refine ⟨k, y', by rw [hresend], ha, Marks.grows_refl _ k, ?_⟩
    rw [resend_eq]
  · rw [if_neg hd, if_neg fun h' => hd (hsame.mp h')]
    obtain ⟨cid, payload, payload', hload⟩ := ht.loaded hP
    rw [hload.load, hload.load']
    dsimp only
    by_cases hfirst : s.state = .initial ∧ s.role = .responder
    · have hfirst' : (s.dress y).state = .initial ∧ (s.dress y).role = .responder := hfirst
      rw [if_pos hfirst, if_pos hfirst']
      cases hload.likened with
      | initRequest req =>
        have hnamed : ∀ c, some cid = some c → P.octets c = cidLen := by
          intro c hc
          cases hc
          exact hload.octets
        have h₁ : ({ s with cid := some cid } : Session β π).Alike P k y := { h with cid := hnamed }
        exact together_initRequest h₁ hfirst.2 hfirst.1
          (heard_of_loaded hload ht (by simp [MakePayload.name])) req now e
      | initResponse | completionRequest | completionResponse | message => exact h.together none
    · have hfirst' : ¬((s.dress y).state = .initial ∧ (s.dress y).role = .responder) := hfirst
      rw [if_neg hfirst, if_neg hfirst']
      by_cases hc : some (MakeMessage.build cid payload).cid ≠ s.cid
      · have hc' : some (MakeMessage.build cid payload').cid ≠ (s.dress y).cid := hc
        rw [if_pos hc, if_pos hc']
        exact h.together none
      · have hc' : ¬some (MakeMessage.build cid payload').cid ≠ (s.dress y).cid := hc
        rw [if_neg hc, if_neg hc']
        exact together_dispatch hP ho h hload ht now e

theorem together_takeIncoming (hP : P.Correct) (ho : P.Opaque) (h : s.Alike P k y) (now : Int)
    (e : Entropy β) :
    Together P k s (s.takeIncoming P now e) ((s.dress y).takeIncoming P now e) := by
  have hqueue := h.queue
  have hdress : (s.dress y).incomingQueue = y.incomingQueue := rfl
  unfold takeIncoming
  rw [hdress]
  cases hq : s.incomingQueue with
  | nil =>
    rw [hq, List.forall₂_nil_left_iff] at hqueue
    simp only [hqueue]
    exact h.together none
  | cons der rest =>
    rw [hq, List.forall₂_cons_left_iff] at hqueue
    obtain ⟨der', rest', ht, hrest, hy⟩ := hqueue
    simp only [hy]
    have h₁ : ({ s with incomingQueue := rest } : Session β π).Alike P k
        { y with incomingQueue := rest' } := { h with queue := hrest }
    exact together_processIncoming hP ho h₁ ht now e

/-- One update in both runs. -/
theorem Alike.update (hP : P.Correct) (ho : P.Opaque) (h : s.Alike P k y) (now : Int)
    (e : Entropy β) :
    ∃ k' y', ((s.dress y).update P now e).1 = (s.update P now e).1.dress y' ∧
      (s.update P now e).1.Alike P k' y' ∧ k.Grows s.role k' := by
  have hstate : ∀ (s : Session β π) y, (s.dress y).state = s.state := fun _ _ => rfl
  unfold Session.update
  rw [hstate]
  by_cases hd : s.state = .dropped
  · rw [if_pos hd, if_pos hd]
    exact ⟨k, y, rfl, h, Marks.grows_refl _ k⟩
  rw [if_neg hd, if_neg hd]
  have htake := together_takeIncoming hP ho h now e
  generalize s.takeIncoming P now e = u at htake ⊢
  obtain ⟨k₁, y₁, htake, h₁, hg₁, hrole₁⟩ := htake
  rw [htake]
  obtain ⟨s₁, _ | x⟩ := u
  · have hsend := together_send h₁
    dsimp only at hsend hg₁ hrole₁ ⊢
    generalize s₁.sendPending P = v at hsend ⊢
    obtain ⟨k₂, y₂, hsend, h₂, hg₂, hrole₂⟩ := hsend
    rw [hsend]
    have hg : k.Grows s.role k₂ := hg₁.trans (hrole₁ ▸ hg₂)
    obtain ⟨s₂, _ | x⟩ := v
    · dsimp only at h₂ ⊢
      rw [hstate]
      by_cases hd₂ : s₂.state = .dropped
      · rw [if_pos hd₂, if_pos hd₂]
        exact ⟨k₂, y₂, rfl, h₂, hg⟩
      · rw [if_neg hd₂, if_neg hd₂]
        obtain ⟨y₃, hcheck, h₃⟩ := h₂.checkDeadline now
        exact ⟨k₂, y₃, hcheck, h₃, hg⟩
    · exact ⟨k₂, y₂, rfl, h₂, hg⟩
  · exact ⟨k₁, y₁, rfl, h₁, hg₁⟩

end Session

end

end KemMake
