import KemMake.Lockstep

/-!
# What the wire shows of a payload

An initiator and a responder, and an observer of all that either of them sends. In two runs of
one schedule that differ in the text of what is posted, the observer sees the same but for h_m,
the plain hash of the false-start plaintext (`wire_hides_texts`); h_m alone may tell the runs
apart (`view_tells_texts_apart`).
-/

namespace KemMake
variable {β π : Type}

/-! ## The two ends and the wire -/

/-- The two ends, and the PDUs that have been on the wire with who sent them. -/
structure Tapped (β π : Type) where
  ends : Role → Session β π
  wire : List (Role × π) := []

/-- What is done to an end. -/
inductive Stir (β : Type) where
  | initiate (peerKeyId : KeyId β) (now : Int) (e : Entropy β)
  /-- It is handed the `n`-th PDU of the wire. -/
  | hear (n : Nat)
  | postPayload (payload : List β)
  | update (now : Int) (e : Entropy β)
  | getPdu
  | getPayload

/-- A UUID has 16 octets. -/
def Stir.Fits (P : Primitives β π) : Stir β → Prop
  | .initiate _ _ e => P.octets e.uuid = cidLen
  | _ => True

namespace Tapped

def start (ownKeyId : Role → Option (KeyId β)) (keys : Role → KeyLookup β)
    (config : Role → SessionConfig) : Tapped β π where
  ends role := .new role (ownKeyId role) (keys role) (config role)

def put (w : Tapped β π) (role : Role) (s : Session β π) : Tapped β π :=
  { w with ends := fun r => if r = role then s else w.ends r }

variable [DecidableEq β] [DecidableEq π]

def step (P : Primitives β π) (w : Tapped β π) : Role × Stir β → Tapped β π
  | (role, .initiate peerKeyId now e) => w.put role ((w.ends role).initiate P peerKeyId now e).1
  | (role, .hear n) =>
    match w.wire[n]? with
    | none => w
    | some sent => w.put role ((w.ends role).postPdu sent.2)
  | (role, .postPayload payload) => w.put role ((w.ends role).postPayload payload).1
  | (role, .update now e) => w.put role ((w.ends role).update P now e).1
  | (role, .getPdu) =>
    { w.put role (w.ends role).getPdu.1 with
      wire := w.wire ++ (w.ends role).getPdu.2.toOption.toList.map fun der => (role, der) }
  | (role, .getPayload) => w.put role (w.ends role).getPayload.1

def run (P : Primitives β π) (w : Tapped β π) (schedule : List (Role × Stir β)) : Tapped β π :=
  schedule.foldl (step P) w

end Tapped

/-! ## The observer -/

/-- What is seen of a payload: a ciphertext shows its length. -/
inductive Sight (β : Type) where
  | sessionInitRequest (req : SessionInitRequest β)
  | sessionInitResponse (resp : SessionInitResponse β)
  | sessionCompletionRequest (cM : Nat) (ct4 : KemCiphertext β) (nA : List β)
  | sessionCompletionResponse (hM : List β) (m : Option Nat)
  | message (seq : Int) (m : Nat)
  deriving DecidableEq

def MakePayload.sight (P : Primitives β π) : MakePayload β → Sight β
  | .sessionInitRequest req => .sessionInitRequest req
  | .sessionInitResponse resp => .sessionInitResponse resp
  | .sessionCompletionRequest req => .sessionCompletionRequest (P.octets req.cM) req.ct4 req.nA
  | .sessionCompletionResponse resp => .sessionCompletionResponse resp.hM (resp.m.map P.octets)
  | .message msg => .message msg.seq (P.octets msg.m)

/-- Without h_m. -/
def Sight.blur : Sight β → Sight β
  | .sessionCompletionResponse _ m => .sessionCompletionResponse [] m
  | sight => sight

/-- A PDU on the wire: who sent it, its version and its cid, and its payload. -/
structure Glimpse (β : Type) where
  sender : Role
  version : Int
  cid : List β
  sight : Sight β
  deriving DecidableEq

def Glimpse.blur (g : Glimpse β) : Glimpse β := { g with sight := g.sight.blur }

def glimpse (P : Primitives β π) (sent : Role × π) : Option (Glimpse β) :=
  (P.load sent.2).toOption.map fun msg => ⟨sent.1, msg.version, msg.cid, msg.payload.sight P⟩

/-- All that a passive observer sees. -/
def Tapped.view (P : Primitives β π) (w : Tapped β π) : List (Option (Glimpse β)) :=
  w.wire.map (glimpse P)

/-- Without h_m. -/
def Tapped.blurredView (P : Primitives β π) (w : Tapped β π) : List (Option (Glimpse β)) :=
  (w.view P).map (·.map Glimpse.blur)

/-- Any h_m on the wire is the hash of the false-start plaintext. -/
def Tapped.Acknowledging (P : Primitives β π) (w : Tapped β π) : Prop :=
  ∀ g, some g ∈ w.view P → ∀ hM m, g.sight = .sessionCompletionResponse hM m →
    ∃ text, (w.ends .initiator).sentPlaintextForHM = some text ∧ hM = P.sha256 text

/-! ## Two runs of one schedule -/

/-- The same step, unless another text of that length is posted. -/
inductive Stir.Like (P : Primitives β π) : Stir β → Stir β → Prop
  | same (stir) : Like P stir stir
  | postPayload {payload payload'} : SameLength P payload payload' →
      Like P (.postPayload payload) (.postPayload payload')

/-- The same schedule, but for the texts that are posted. -/
def SameSchedule (P : Primitives β π) : List (Role × Stir β) → List (Role × Stir β) → Prop :=
  List.Forall₂ fun move move' => move.1 = move'.1 ∧ move.2.Like P move'.2

/-- The ends are alike, and twins have been on the wire. -/
structure Lockstep (P : Primitives β π) (k : Marks β π) (w w' : Tapped β π) : Prop where
  role : ∀ r, (w.ends r).role = r
  ends : ∀ r, ∃ y, w'.ends r = (w.ends r).dress y ∧ (w.ends r).Alike P k y
  wire : List.Forall₂ (fun sent sent' => sent.1 = sent'.1 ∧ Twins P k sent.2 sent'.2) w.wire w'.wire

section
variable {P : Primitives β π} {k k' : Marks β π} {w w' : Tapped β π}

theorem lockstep_start (ownKeyId : Role → Option (KeyId β)) (keys : Role → KeyLookup β)
    (config : Role → SessionConfig) :
    Lockstep P {} (Tapped.start ownKeyId keys config) (Tapped.start ownKeyId keys config) where
  role _ := rfl
  ends r := ⟨{}, rfl, Session.alike_new r (ownKeyId r) (keys r) (config r)⟩
  wire := .nil

theorem Lockstep.put (h : Lockstep P k w w') {r : Role} {s s' : Session β π} {y : Session.Held β π}
    (heq : s' = s.dress y) (ha : s.Alike P k' y) (hg : k.Grows r k') (hr : s.role = r) :
    Lockstep P k' (w.put r s) (w'.put r s') where
  role r' := by
    unfold Tapped.put
    dsimp only
    split
    · rename_i hsame
      rw [hr, hsame]
    · exact h.role r'
  ends r' := by
    unfold Tapped.put
    dsimp only
    split
    · exact ⟨y, heq, ha⟩
    · rename_i hother
      obtain ⟨y', heq', ha'⟩ := h.ends r'
      exact ⟨y', heq', ha'.peer hg (by rw [h.role r']; exact hother) ha.texts⟩
  wire := h.wire.imp fun _ _ ht => ⟨ht.1, ht.2.mono hg⟩

theorem forall₂_getElem? {α γ : Type} {R : α → γ → Prop} {l : List α} {l' : List γ}
    (h : List.Forall₂ R l l') (n : Nat) :
    (l[n]? = none ∧ l'[n]? = none) ∨ ∃ a c, l[n]? = some a ∧ l'[n]? = some c ∧ R a c := by
  have hlen := h.length_eq
  by_cases hn : n < l.length
  · have hn' : n < l'.length := hlen ▸ hn
    exact .inr ⟨l[n], l'[n], List.getElem?_eq_getElem hn, List.getElem?_eq_getElem hn',
      h.get hn hn'⟩
  · exact .inl ⟨List.getElem?_eq_none (by omega), List.getElem?_eq_none (by omega)⟩

variable [DecidableEq β] [DecidableEq π]

/-- One step of both runs. -/
theorem Lockstep.step (hP : P.Correct) (ho : P.Opaque) (h : Lockstep P k w w') {r : Role}
    {stir stir' : Stir β} (hlike : stir.Like P stir') (hfits : stir.Fits P) :
    ∃ k', Lockstep P k' (w.step P (r, stir)) (w'.step P (r, stir')) := by
  obtain ⟨y, heq, ha⟩ := h.ends r
  have hr := h.role r
  have hself : k.Grows r k := Marks.grows_refl r k
  cases hlike with
  | postPayload hlen =>
    obtain ⟨y', hpost, ha'⟩ := ha.postPayload hlen
    exact ⟨k, h.put (by rw [heq, hpost]) ha' hself (by rw [Session.postPayload_eq]; exact hr)⟩
  | same =>
    cases stir with
    | initiate peerKeyId now e =>
      obtain ⟨k', y', hcall, ha', hg, hrole⟩ := Session.together_initiate ha hfits peerKeyId now
      exact ⟨k', h.put (by rw [heq, hcall]) ha' (hr ▸ hg) (hrole.trans hr)⟩
    | hear n =>
      simp only [Tapped.step]
      obtain ⟨hw, hw'⟩ | ⟨sent, sent', hw, hw', -, ht⟩ := forall₂_getElem? h.wire n
      · rw [hw, hw']
        exact ⟨k, h⟩
      · rw [hw, hw']
        obtain ⟨y', hpost, ha'⟩ := ha.postPdu ht
        exact ⟨k, h.put (by rw [heq, hpost]) ha' hself hr⟩
    | postPayload payload =>
      have hlen : SameLength P payload payload := ⟨rfl, Iff.rfl⟩
      obtain ⟨y', hpost, ha'⟩ := ha.postPayload hlen
      exact ⟨k, h.put (by rw [heq, hpost]) ha' hself (by rw [Session.postPayload_eq]; exact hr)⟩
    | update now e =>
      obtain ⟨k', y', hupdate, ha', hg⟩ := ha.update hP ho now e
      have hrole : ((w.ends r).update P now e).1.role = (w.ends r).role :=
        congrArg Prod.fst (Session.update_identity hP.encrypt_ne_nil (w.ends r) now e)
      exact ⟨k', h.put (by rw [heq, hupdate]) ha' (hr ▸ hg) (hrole.trans hr)⟩
    | getPdu =>
      obtain ⟨y', hget, ha', hrole, hout⟩ := ha.getPdu
      rw [← heq] at hget hout
      have hput := h.put hget ha' hself (hrole.trans hr)
      have hsent : List.Forall₂ (fun sent sent' => sent.1 = sent'.1 ∧ Twins P k sent.2 sent'.2)
          ((w.ends r).getPdu.2.toOption.toList.map fun der => (r, der))
          ((w'.ends r).getPdu.2.toOption.toList.map fun der => (r, der)) := by
        rw [List.forall₂_map_left_iff, List.forall₂_map_right_iff]
        exact hout.imp fun _ _ ht => ⟨rfl, ht⟩
      exact ⟨k, hput.role, hput.ends, List.rel_append hput.wire hsent⟩
    | getPayload =>
      obtain ⟨y', hget, ha', hrole⟩ := ha.getPayload
      exact ⟨k, h.put (by rw [heq, hget]) ha' hself (hrole.trans hr)⟩

/-- Whole runs. -/
theorem Lockstep.run (hP : P.Correct) (ho : P.Opaque) {schedule schedule' : List (Role × Stir β)}
    (hs : SameSchedule P schedule schedule') (hfits : ∀ move ∈ schedule, move.2.Fits P)
    (h : Lockstep P k w w') : ∃ k', Lockstep P k' (w.run P schedule) (w'.run P schedule') := by
  induction hs generalizing k w w' with
  | nil => exact ⟨k, h⟩
  | @cons move move' rest rest' hmove _ ih =>
    obtain ⟨r, stir⟩ := move
    obtain ⟨r', stir'⟩ := move'
    obtain ⟨rfl, hlike⟩ := hmove
    obtain ⟨k', h'⟩ := h.step hP ho hlike (hfits _ List.mem_cons_self)
    exact ih (fun move hm => hfits move (List.mem_cons_of_mem _ hm)) h'

end

/-! ## What the observer makes of twins -/

section
variable {P : Primitives β π} {k : Marks β π} {w w' : Tapped β π}

theorem Concealed.octets (ho : P.Opaque) {ct ct' : List β} (h : Concealed P ct ct') :
    P.octets ct = P.octets ct' := by
  obtain ⟨text, text', hlen, hseal⟩ := h
  cases hseal with
  | mk aead key nonce ad => exact ho.octets aead key nonce ad text text' hlen.1

theorem Likened.blur (ho : P.Opaque) (htexts : ∀ text text', k.texts = some (text, text') →
    SameLength P text text') {payload payload' : MakePayload β} (h : Likened P k payload payload') :
    (payload.sight P).blur = (payload'.sight P).blur := by
  cases h with
  | initRequest | initResponse => rfl
  | completionRequest ct4 nA ht hs =>
    have hlen : Concealed P _ _ := ⟨_, _, htexts _ _ ht, hs⟩
    simp only [MakePayload.sight, Sight.blur, hlen.octets ho]
  | completionResponse ht hm =>
    cases hm with
    | none => rfl
    | some hm => simp only [MakePayload.sight, Sight.blur, Option.map_some, Concealed.octets ho hm]
  | message seq hm => simp only [MakePayload.sight, Sight.blur, hm.octets ho]

theorem Twins.glimpse (hP : P.Correct) (ho : P.Opaque) (htexts : ∀ text text',
    k.texts = some (text, text') → SameLength P text text') {der der' : π} (h : Twins P k der der')
    (r : Role) : (KemMake.glimpse P (r, der)).map Glimpse.blur =
      (KemMake.glimpse P (r, der')).map Glimpse.blur := by
  obtain ⟨cid, payload, payload', hload⟩ := h.loaded hP
  simp only [KemMake.glimpse, hload.load, hload.load', Except.toOption, Option.map_some, Glimpse.blur,
    MakeMessage.build, hload.likened.blur ho htexts]

theorem Lockstep.blurredView_eq (hP : P.Correct) (ho : P.Opaque) (h : Lockstep P k w w') :
    w.blurredView P = w'.blurredView P := by
  obtain ⟨y, -, ha⟩ := h.ends .initiator
  unfold Tapped.blurredView Tapped.view
  rw [List.map_map, List.map_map, ← List.forall₂_eq_eq_eq, List.forall₂_map_left_iff,
    List.forall₂_map_right_iff]
  refine h.wire.imp fun sent sent' ht => ?_
  obtain ⟨r, der⟩ := sent
  obtain ⟨r', der'⟩ := sent'
  obtain ⟨rfl, ht⟩ := ht
  exact ht.glimpse hP ho ha.texts r

/-- h_m is the hash of the false-start plaintext of its own run. -/
theorem Twins.acknowledges (hP : P.Correct) {der der' : π} (h : Twins P k der der') (r : Role) :
    (∀ g hM m, KemMake.glimpse P (r, der) = some g → g.sight = .sessionCompletionResponse hM m →
      ∃ p, k.texts = some p ∧ hM = P.sha256 p.1) ∧
    ∀ g hM m, KemMake.glimpse P (r, der') = some g → g.sight = .sessionCompletionResponse hM m →
      ∃ p, k.texts = some p ∧ hM = P.sha256 p.2 := by
  obtain ⟨cid, payload, payload', hload⟩ := h.loaded hP
  have hpair : ∀ hM m, (payload.sight P = .sessionCompletionResponse hM m →
      ∃ p, k.texts = some p ∧ hM = P.sha256 p.1) ∧
      (payload'.sight P = .sessionCompletionResponse hM m →
        ∃ p, k.texts = some p ∧ hM = P.sha256 p.2) := by
    intro hM m
    cases hload.likened with
    | @completionResponse text text' _ _ ht _ =>
      constructor
      · intro hsight
        cases hsight
        exact ⟨(text, text'), ht, rfl⟩
      · intro hsight
        cases hsight
        exact ⟨(text, text'), ht, rfl⟩
    | initRequest | initResponse | completionRequest | message =>
      constructor <;> intro hsight <;> cases hsight
  constructor
  · intro g hM m hg hsight
    simp only [KemMake.glimpse, hload.load, Except.toOption, Option.map_some, Option.some.injEq] at hg
    rw [← hg] at hsight
    exact (hpair hM m).1 hsight
  · intro g hM m hg hsight
    simp only [KemMake.glimpse, hload.load', Except.toOption, Option.map_some, Option.some.injEq] at hg
    rw [← hg] at hsight
    exact (hpair hM m).2 hsight

theorem Lockstep.acknowledging (hP : P.Correct) (h : Lockstep P k w w') :
    w.Acknowledging P ∧ w'.Acknowledging P := by
  obtain ⟨y, heq, ha⟩ := h.ends .initiator
  obtain ⟨hsent, hsent'⟩ := ha.hashed (h.role .initiator)
  constructor
  · intro g hg hM m hsight
    obtain ⟨⟨r, der⟩, hmem, hglimpse⟩ := List.mem_map.mp hg
    obtain ⟨n, hn⟩ := List.mem_iff_getElem?.mp hmem
    obtain ⟨hnone, -⟩ | ⟨sent, sent', hw, -, -, ht⟩ := forall₂_getElem? h.wire n
    · rw [hn] at hnone
      cases hnone
    · obtain rfl := Option.some.inj (hn.symm.trans hw)
      obtain ⟨p, hp, hhash⟩ := (ht.acknowledges hP r).1 g hM m hglimpse hsight
      exact ⟨p.1, by rw [hsent, hp]; rfl, hhash⟩
  · intro g hg hM m hsight
    obtain ⟨⟨r, der⟩, hmem, hglimpse⟩ := List.mem_map.mp hg
    obtain ⟨n, hn⟩ := List.mem_iff_getElem?.mp hmem
    obtain ⟨-, hnone⟩ | ⟨sent, sent', -, hw', -, ht⟩ := forall₂_getElem? h.wire n
    · rw [hn] at hnone
      cases hnone
    · obtain rfl := Option.some.inj (hn.symm.trans hw')
      obtain ⟨p, hp, hhash⟩ := (ht.acknowledges hP r).2 g hM m hglimpse hsight
      refine ⟨p.2, ?_, hhash⟩
      rw [heq]
      exact hsent'.trans (by rw [hp]; rfl)

/-- Two runs of one schedule that differ in the texts posted look the same on the wire, but for
h_m, which is the hash of the false-start plaintext. -/
theorem wire_hides_texts [DecidableEq β] [DecidableEq π] (hP : P.Correct) (ho : P.Opaque)
    (ownKeyId : Role → Option (KeyId β)) (keys : Role → KeyLookup β) (config : Role → SessionConfig)
    {schedule schedule' : List (Role × Stir β)} (hs : SameSchedule P schedule schedule')
    (hfits : ∀ move ∈ schedule, move.2.Fits P) :
    ((Tapped.start ownKeyId keys config).run P schedule).blurredView P =
        ((Tapped.start ownKeyId keys config).run P schedule').blurredView P ∧
      ((Tapped.start ownKeyId keys config).run P schedule).Acknowledging P ∧
      ((Tapped.start ownKeyId keys config).run P schedule').Acknowledging P := by
  obtain ⟨k, h⟩ := (lockstep_start ownKeyId keys config).run hP ho hs hfits
  exact ⟨h.blurredView_eq hP ho, h.acknowledging hP⟩

end

/-! ## A whole handshake -/

theorem ideal_opaque : ideal.Opaque where
  octets aead key nonce ad text text' hlen := by
    simp only [ideal, Ideal.octets, Symbolic.Block.lens, Symbolic.Block.len] at hlen ⊢
    rw [hlen]
  opens aead key nonce ad aead' key' nonce' ad' := by
    simp only [ideal, Ideal.decrypt]
    by_cases hsame : aead = aead' ∧ key = key' ∧ nonce = nonce' ∧ ad = ad'
    · exact .inl fun text => if_pos hsame
    · exact .inr fun text => if_neg hsame

/-- Alice and Bob, before anything is sent. -/
def strangers : Tapped Sym Pdu :=
  .start (fun | .initiator => some (staticId 0) | .responder => none)
    (fun | .initiator => staticLookup 0 | .responder => staticLookup 1) fun _ => {}

/-- An end takes the `n`-th PDU and answers it. -/
def serve (role : Role) (n k : Nat) : List (Role × Stir Sym) :=
  [(role, .hear n), (role, .update 0 (draw k)), (role, .getPdu)]

/-- The four PDUs of a handshake, with `payload` as the false-start payload. -/
def fourPdus (payload : List Sym) : List (Role × Stir Sym) :=
  [(.initiator, .postPayload payload), (.initiator, .initiate (staticId 1) 0 (draw 0)),
    (.initiator, .getPdu)] ++ serve .responder 0 1 ++ serve .initiator 1 2 ++
    serve .responder 2 3 ++ serve .initiator 3 4

theorem sameSchedule_fourPdus (a b : Nat) :
    SameSchedule ideal (fourPdus [.octet a]) (fourPdus [.octet b]) := by
  have hlen : SameLength ideal [.octet a] [.octet b] := ⟨rfl, by simp⟩
  refine .cons ⟨rfl, .postPayload hlen⟩ ?_
  exact List.forall₂_same.mpr fun move _ => ⟨rfl, .same move.2⟩

theorem fourPdus_fits (a : Nat) : ∀ move ∈ fourPdus [.octet a], move.2.Fits ideal := by
  intro move hm
  simp only [fourPdus, serve, List.cons_append, List.nil_append, List.mem_cons, List.not_mem_nil,
    or_false] at hm
  rcases hm with rfl | rfl | rfl | rfl | rfl | rfl | rfl | rfl | rfl | rfl | rfl | rfl | rfl | rfl |
    rfl <;> trivial

theorem wire_hides_texts_fourPdus :
    (strangers.run ideal (fourPdus [.octet 1])).blurredView ideal =
        (strangers.run ideal (fourPdus [.octet 2])).blurredView ideal ∧
      (strangers.run ideal (fourPdus [.octet 1])).Acknowledging ideal ∧
      (strangers.run ideal (fourPdus [.octet 2])).Acknowledging ideal :=
  wire_hides_texts Ideal.ideal_correct ideal_opaque _ _ _ (sameSchedule_fourPdus 1 2)
    (fourPdus_fits 1)

/-- All four PDUs have been on the wire, and both ends are established. -/
def Tapped.Complete (w : Tapped Sym Pdu) : Prop :=
  w.wire.length = 4 ∧ (w.ends .initiator).state = .established ∧
    (w.ends .responder).state = .established

instance (w : Tapped Sym Pdu) : Decidable w.Complete :=
  inferInstanceAs (Decidable (_ ∧ _ ∧ _))

/-- Both handshakes are complete, and h_m tells them apart. -/
theorem view_tells_texts_apart : SameSchedule ideal (fourPdus [.octet 1]) (fourPdus [.octet 2]) ∧
    (strangers.run ideal (fourPdus [.octet 1])).Complete ∧
    (strangers.run ideal (fourPdus [.octet 2])).Complete ∧
    (strangers.run ideal (fourPdus [.octet 1])).view ideal ≠
      (strangers.run ideal (fourPdus [.octet 2])).view ideal :=
  ⟨sameSchedule_fourPdus 1 2, by decide +kernel, by decide +kernel, by decide +kernel⟩

end KemMake
