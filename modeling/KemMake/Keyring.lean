import KemMake.Exchange
import KemMake.Faithful

/-!
# Dispatchers over key directories

Each dispatcher looks up its keys in a key directory, which has been closed and reopened, and
interrupted, as often as one likes. What a directory was given is what the handshake runs on:
`directories_joined`.
-/

namespace KemMake

/-! ## A key directory as a key lookup -/

section
variable {δ : Type} (V : Vault δ)

/-- An open KeyDirectory where session.py wants a KeyLookup. -/
def Vault.keyLookup (d : Disk) (masterKey : Octets) : KeyLookup UInt8 where
  getPublicKey keyId := (V.getPublicKey d masterKey keyId).mapError fun _ => .keyLookup
  getPrivateKey keyId := (V.getPrivateKey d masterKey keyId).mapError fun _ => .keyLookup

/-- The instance has given out the KeyId, and it is that of the key. -/
structure Keep.Registers (s : Keep) (pk : KemPublicKey UInt8) (k : KeyId UInt8) : Prop where
  known : s.Known V k
  isKeyIdOf : V.IsKeyIdOf pk k

def KeyPair.publicWire {β π : Type} {P : Primitives β π} (pair : KeyPair P) : KemPublicKey β :=
  wireKey P pair.level pair.seed

/-- What a party has added before a handshake: its own key pair and the other's public key. -/
structure Keep.Equipped {π : Type} (P : Primitives UInt8 π) (s : Keep) (masterKey : Octets)
    (own peer : KeyPair P) (ownId peerId : KeyId UInt8) : Prop where
  opened : s.masterKey = some masterKey
  secret : (own.publicWire, own.seed) ∈ s.secrets
  own : s.Registers V own.publicWire ownId
  peer : s.Registers V peer.publicWire peerId

end

section
variable {δ : Type} {V : Vault δ} {masterKey : Octets} {shelf : Set (Held δ)} {s : Keep}
  {pk : KemPublicKey UInt8} {k : KeyId UInt8}

theorem Shelved.registered (hV : V.Correct) (h : Shelved V masterKey shelf s)
    (hr : s.Registers V pk k) : ∃ held ∈ shelf, held.publicKey = pk ∧ held.Names V k := by
  obtain ⟨held, hmem, hn⟩ := h.known hr.known
  obtain ⟨_, hs⟩ := hr.isKeyIdOf
  obtain ⟨_, hs'⟩ := hn.isKeyIdOf
  exact ⟨held, hmem, (hV.sameKeyId_inj hs' hs).1, hn⟩

theorem Shelved.getPublicKey (hV : V.Correct) (h : Shelved V masterKey shelf s)
    (hr : s.Registers V pk k) : (V.keyLookup s.disk masterKey).getPublicKey k = .ok pk := by
  obtain ⟨held, hmem, rfl, hn⟩ := h.registered hV hr
  obtain ⟨listed, hrep⟩ := h.represents
  have hget := hrep.getPublicKey hV hmem hn
  simp only [Vault.keyLookup, hget]
  rfl

theorem Shelved.getPrivateKey (hV : V.Correct) (h : Shelved V masterKey shelf s) {key : Octets}
    (hr : s.Registers V pk k) (hin : (pk, key) ∈ s.secrets) :
    (V.keyLookup s.disk masterKey).getPrivateKey k = .ok key := by
  obtain ⟨held, hmem, hpk, hn⟩ := h.registered hV hr
  obtain ⟨held', hmem', hpk', hkey⟩ := h.recorded.secrets (pk, key) hin
  obtain ⟨listed, hrep⟩ := h.represents
  obtain rfl := hrep.distinct held hmem held' hmem' (hpk.trans hpk'.symm)
  have hget := hrep.getPrivateKey hV hmem hn
  rw [hkey] at hget
  simp only [Vault.keyLookup, hget]
  rfl

variable {π : Type} {P : Primitives UInt8 π} {own peer : KeyPair P} {ownId peerId : KeyId UInt8}

/-- Interrupted or not, the directory answers with what it was given. -/
theorem KeyRun.answers (hV : V.Correct) {mayStop : KeyOp δ → Nat → Prop}
    (hstop : ∀ op n, mayStop op n → ¬ op.Tears n) (h : KeyRun V mayStop s)
    (he : s.Equipped V P masterKey own peer ownId peerId) :
    (V.keyLookup s.disk masterKey).getPrivateKey ownId = .ok own.seed ∧
      (V.keyLookup s.disk masterKey).getPublicKey peerId = .ok peer.publicWire := by
  obtain hfresh | ⟨key, shelf, hs, _⟩ := h.shelved hV hstop
  · have hopened := he.opened
    rw [hfresh.masterKey] at hopened
    cases hopened
  · obtain rfl := hs.instanceKey masterKey he.opened
    exact ⟨hs.getPrivateKey hV he.own he.secret, hs.getPublicKey hV he.peer⟩

end

/-! ## The handshake -/

section
open Dispatcher
variable {δ π : Type} [DecidableEq π] {V : Vault δ} {P : Primitives UInt8 π}
  {aliceKeep bobKeep : Keep} {aliceMaster bobMaster : Octets} {alice bob : KeyPair P}
  {aliceId bobId : KeyId UInt8} {aliceConfig bobConfig : SessionConfig}
  {a b : Dispatcher UInt8 π} {aside : Nat → List (Op UInt8 π)} {t : Nat → Int}
  {e : Nat → Entropy UInt8}

/-- Two dispatchers over directories that hold each other's public keys end up with equal
secrets exactly when the levels agree and the timers leave them time. -/
theorem directories_joined (hV : V.Correct) (hP : P.Correct) {mayStop : KeyOp δ → Nat → Prop}
    (hstop : ∀ op n, mayStop op n → ¬ op.Tears n) (halice : KeyRun V mayStop aliceKeep)
    (hbob : KeyRun V mayStop bobKeep)
    (ha : aliceKeep.Equipped V P aliceMaster alice bob aliceId bobId)
    (hb : bobKeep.Equipped V P bobMaster bob alice bobId aliceId)
    (common : ∃ aead ∈ bobConfig.acceptableAeads, aead ∈ aliceConfig.acceptableAeads)
    (hserves : a.Serving (e 0).uuid (V.keyLookup aliceKeep.disk aliceMaster) aliceConfig)
    (hserves' : b.Serving (e 0).uuid (V.keyLookup bobKeep.disk bobMaster) bobConfig)
    (haside : ∀ k, ∀ op ∈ aside k, op.Aside P (e 0).uuid) (he : ∀ k, (e k).Fits P)
    (hadm : (b.steps P (aside 0)).candidates.Admits (e 0).uuid (t 1))
    (hadm' : ((a.initiate P aliceId bobId (t 0) (e 0)).1.steps P
      (aside 1)).candidates.Admits (e 0).uuid (t 2)) :
    Joined (e 0).uuid (exchange P aliceId bobId a b aside t e) ↔
      aliceConfig.kemLevel = bob.level ∧ aliceConfig.kemLevel = alice.level ∧
        bobConfig.kemLevel = aliceConfig.kemLevel ∧ 0 < bobConfig.ttlSeconds ∧
        (0 < aliceConfig.retryIntervalSeconds ∨ 0 < aliceConfig.maxRetries) := by
  obtain ⟨hown, hpeer⟩ := halice.answers hV hstop ha
  obtain ⟨hown', hpeer'⟩ := hbob.answers hV hstop hb
  let p : Parties P := ⟨aliceId, bobId, alice, bob, V.keyLookup aliceKeep.disk aliceMaster,
    V.keyLookup bobKeep.disk bobMaster, hown, hpeer, hown', hpeer', aliceConfig, bobConfig, common⟩
  have hjoined := joined_iff (p := p) hP hserves hserves' haside he hadm hadm'
  refine hjoined.trans ?_
  simp only [SameLevel, Timely, and_assoc, p]

end

/-! ## Two directories -/

namespace Plain

/-- The octets at the start of a longer string, or with zeros after them. -/
def fit (n : Nat) (octets : Octets) : Octets := (octets ++ List.replicate n 0).take n

theorem length_fit (n : Nat) (octets : Octets) : (fit n octets).length = n := by
  rw [fit, List.length_take, List.length_append, List.length_replicate]
  omega

def validMessage (msg : MakeMessage UInt8) : Bool :=
  msg.cid.length == cidLen &&
    match msg.payload with
    | .sessionCompletionRequest req => !req.cM.isEmpty
    | _ => true

/-- Packages that hide nothing, for the session layer. -/
def primitives : Primitives UInt8 (MakeMessage UInt8) where
  octet := UInt8.ofNat
  octets := List.length
  xorBytes bytes pad := List.zipWith (fun x y => x ^^^ UInt8.ofNat y) bytes pad
  sha256 := id
  hkdf length salt info ikm := fit length (Code.pack [salt, info, ikm])
  encrypt _ key nonce text ad := 0 :: Code.pack [key, nonce, text, ad]
  decrypt _ key nonce ct ad :=
    match Code.unpack ct.tail with
    | some [key', nonce', text, ad'] =>
      if key' = key ∧ nonce' = nonce ∧ ad' = ad then some text else none
    | _ => none
  publicBytes level seed := fit (mlkemPkLen level) seed
  encapsulate level pk coins :=
    if pk.length = mlkemPkLen level then
      some (fit 32 (fit (mlkemCtLen level) coins), fit (mlkemCtLen level) coins)
    else none
  decapsulate level _ ct := if ct.length = mlkemCtLen level then some (fit 32 ct) else none
  dumpKeyId := keyId.dump
  dump := id
  load msg := if validMessage msg then .ok msg else .error .valueError
  noPdu := ⟨0, [], .message ⟨0, []⟩⟩

theorem validMessage_iff {msg : MakeMessage UInt8} :
    validMessage msg = true ↔ msg.Valid primitives := by
  unfold validMessage MakeMessage.Valid
  simp only [Bool.and_eq_true, beq_iff_eq, primitives]
  refine and_congr_right fun _ => ?_
  cases msg.payload with
  | sessionCompletionRequest req => simp
  | _ => simp

theorem primitives_correct : primitives.Correct where
  octets_hkdf length salt info ikm := length_fit _ _
  octets_publicBytes level seed := length_fit _ _
  encapsulate_publicBytes level seed coins := ⟨_, _, if_pos (length_fit _ _)⟩
  octets_ciphertext level pk coins shared ct h := by
    simp only [primitives, Option.ite_none_right_eq_some, Option.some.injEq, Prod.mk.injEq] at h
    obtain ⟨_, _, rfl⟩ := h
    exact length_fit _ _
  decapsulate_encapsulate level seed coins shared ct _ h := by
    simp only [primitives, Option.ite_none_right_eq_some, Option.some.injEq, Prod.mk.injEq] at h
    obtain ⟨_, rfl, rfl⟩ := h
    exact if_pos (length_fit _ _)
  decapsulate_fits level seed ct shared h := by
    simp only [primitives, Option.ite_none_right_eq_some] at h
    exact h.1
  decrypt_encrypt aead key nonce text ad := by
    simp only [primitives, List.tail_cons, Code.unpack_pack, and_self, ↓reduceIte]
  encrypt_ne_nil aead key nonce text ad := List.cons_ne_nil _ _
  load_dump msg h := if_pos (validMessage_iff.mpr h)

def aliceKey : KeyPair primitives := ⟨.mlkem768, List.replicate 64 1, by rfl⟩

def bobKey : KeyPair primitives := ⟨.mlkem768, List.replicate 64 2, by rfl⟩

/-- A directory with the key pair and the public key of the peer. It is created, an addition of
the peer's key is interrupted, and it is reopened. -/
def keep (own peer : KeyPair primitives) : Keep :=
  (((((({} : Keep).perform vault (.create [1] [2] 1)).perform vault
    (.addPublicKey own.publicWire [3])).stop vault (.addPublicKey peer.publicWire [4]) 0).perform
      vault (.openDirectory [1])).perform vault (.addPublicKey peer.publicWire [5])).perform vault
        (.addPrivateKey own.publicWire own.seed [6])

theorem keep_run (own peer : KeyPair primitives) :
    KeyRun vault (fun _ n => n = 0) (keep own peer) :=
  .perform _ (.perform _ (.perform _ (.stop _ _ (.perform _ (.perform _ .initial)) rfl)))

theorem unstarted_untorn (op : KeyOp Digest) (n : Nat) (h : n = 0) : ¬ op.Tears n := by
  subst h
  cases op with
  | keyIdFor => exact Nat.zero_ne_one
  | _ => exact id

def keyIdOf (pair : KeyPair primitives) : KeyId UInt8 := vault.primaryKeyId pair.publicWire

/-- The two keys and the one secret have been added. -/
def Holds (own peer : KeyPair primitives) : Prop :=
  (keep own peer).masterKey = some (Code.pack [[1], [2]]) ∧
    (keep own peer).added = [own.publicWire, peer.publicWire] ∧
    (keep own peer).secrets = [(own.publicWire, own.seed)]

theorem aliceKeep_holds : Holds aliceKey bobKey := by
  unfold Holds
  decide +kernel

theorem bobKeep_holds : Holds bobKey aliceKey := by
  unfold Holds
  decide +kernel

theorem registers {s : Keep} {pair : KeyPair primitives} (h : pair.publicWire ∈ s.added) :
    s.Registers vault pair.publicWire (keyIdOf pair) :=
  ⟨.inl ⟨_, h, Vault.sameKeyId_refl _⟩, _, Vault.sameKeyId_refl _⟩

theorem Holds.equipped {own peer : KeyPair primitives} (h : Holds own peer) :
    (keep own peer).Equipped vault primitives (Code.pack [[1], [2]]) own peer (keyIdOf own)
      (keyIdOf peer) where
  opened := h.1
  secret := by
    rw [h.2.2]
    exact List.mem_singleton_self _
  own := registers (by
    rw [h.2.1]
    exact List.mem_cons_self)
  peer := registers (by
    rw [h.2.1]
    exact List.mem_cons_of_mem _ (List.mem_singleton_self _))

def octetsDrawn (k : Nat) : Entropy UInt8 where
  uuid := List.replicate cidLen (UInt8.ofNat k)
  seed := List.replicate seedLen (UInt8.ofNat k)
  coins := [UInt8.ofNat k]
  coins' := [UInt8.ofNat (k + 1)]
  nonce := [UInt8.ofNat k]

theorem octetsDrawn_fits (k : Nat) : (octetsDrawn k).Fits primitives :=
  ⟨List.length_replicate, List.length_replicate⟩

def dispatcher (limits : CandidateLimits) (own peer : KeyPair primitives) :
    Dispatcher UInt8 (MakeMessage UInt8) :=
  .new (vault.keyLookup (keep own peer).disk (Code.pack [[1], [2]])) {} limits

/-- Bob's dispatcher calls Alice's at the same time. -/
def crossing : Nat → List (Dispatcher.Op UInt8 (MakeMessage UInt8))
  | 0 => [.initiate (keyIdOf bobKey) (keyIdOf aliceKey) 0 (octetsDrawn 9)]
  | _ => [.getPdu]

theorem dispatcher_serving (limits : CandidateLimits) (own peer : KeyPair primitives)
    (c : List UInt8) : (dispatcher limits own peer).Serving c
      (vault.keyLookup (keep own peer).disk (Code.pack [[1], [2]])) {} :=
  ⟨⟨rfl, rfl, rfl, rfl⟩, rfl, rfl⟩

/-- A call reserves nothing. -/
theorem initiate_candidates {β π : Type} [DecidableEq β] {P : Primitives β π}
    (d : Dispatcher β π) (own peer : KeyId β) (now : Int) (e : Entropy β) :
    (d.initiate P own peer now e).1.candidates = d.candidates := by
  unfold Dispatcher.initiate
  split
  · rfl
  · split <;> rfl

theorem getPdu_candidates {β π : Type} (d : Dispatcher β π) :
    d.getPdu.1.candidates = d.candidates := by
  unfold Dispatcher.getPdu
  split <;> rfl

theorem new_admits (limits : CandidateLimits) (c : List UInt8) (now : Int) :
    (CandidateStore.new limits : CandidateStore UInt8 (MakeMessage UInt8)).Admits c now := by
  have hper := limits.positive
  have htotal := limits.le
  constructor
  · change 0 < limits.maxPerCid
    omega
  · change (0 : Int) < limits.maxTotal
    omega

theorem crossing_admits (limits : CandidateLimits) (own peer : KeyPair primitives)
    (c : List UInt8) (now : Int) :
    ((dispatcher limits own peer).steps primitives (crossing 0)).candidates.Admits c now := by
  have h : ((dispatcher limits own peer).steps primitives (crossing 0)).candidates = .new limits :=
    initiate_candidates _ _ _ _ _
  rw [h]
  exact new_admits limits c now

theorem calling_admits (limits : CandidateLimits) (own peer : KeyPair primitives)
    (ownId peerId : KeyId UInt8) (t : Int) (e : Entropy UInt8) (c : List UInt8) (now : Int) :
    ((((dispatcher limits own peer).initiate primitives ownId peerId t e).1).steps primitives
      (crossing 1)).candidates.Admits c now := by
  have h : ((((dispatcher limits own peer).initiate primitives ownId peerId t e).1).steps primitives
      (crossing 1)).candidates = .new limits :=
    (getPdu_candidates _).trans (initiate_candidates _ _ _ _ _)
  rw [h]
  exact new_admits limits c now

theorem crossing_aside : ∀ k, ∀ op ∈ crossing k, op.Aside primitives (octetsDrawn 0).uuid
  | 0, op, hop => by
    obtain rfl := List.mem_singleton.mp hop
    change (octetsDrawn 9).uuid ≠ (octetsDrawn 0).uuid
    decide
  | k + 1, op, hop => by
    obtain rfl := List.mem_singleton.mp hop
    trivial

end Plain

theorem directories_joined_crossing :
    Dispatcher.Joined (Plain.octetsDrawn 0).uuid (Dispatcher.exchange Plain.primitives
        (Plain.keyIdOf Plain.aliceKey) (Plain.keyIdOf Plain.bobKey)
        (Plain.dispatcher {} Plain.aliceKey Plain.bobKey)
        (Plain.dispatcher {} Plain.bobKey Plain.aliceKey) Plain.crossing (fun _ => 0)
        Plain.octetsDrawn) ↔
      ({} : SessionConfig).kemLevel = Plain.bobKey.level ∧
        ({} : SessionConfig).kemLevel = Plain.aliceKey.level ∧
        ({} : SessionConfig).kemLevel = ({} : SessionConfig).kemLevel ∧
        0 < ({} : SessionConfig).ttlSeconds ∧
        (0 < ({} : SessionConfig).retryIntervalSeconds ∨ 0 < ({} : SessionConfig).maxRetries) :=
  directories_joined Plain.correct Plain.primitives_correct Plain.unstarted_untorn
    (Plain.keep_run _ _) (Plain.keep_run _ _) Plain.aliceKeep_holds.equipped
    Plain.bobKeep_holds.equipped
    ⟨.aes256Gcm, by decide, by decide⟩ (Plain.dispatcher_serving _ _ _ _)
    (Plain.dispatcher_serving _ _ _ _) Plain.crossing_aside Plain.octetsDrawn_fits
    (Plain.crossing_admits _ _ _ _ _) (Plain.calling_admits _ _ _ _ _ _ _ _ _)

end KemMake
