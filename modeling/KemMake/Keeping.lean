import KemMake.Shelf

/-!
# Runs of a key directory

One directory from the moment it does not exist, with the instance that is open on it. Any
call may stop between its writes. `Shelved` is what a call keeps, and one that does not stop
keeps `Accounted` too.
-/

namespace KemMake

def Effect.map {α β : Type} (f : α → β) (e : Effect α) : Effect β := ⟨e.writes, e.result.map f⟩

/-- The calls that can write, and those that open and close. -/
inductive KeyOp (δ : Type) where
  | create (passphrase kdfSalt : Octets) (iterations : Int)
  | openDirectory (passphrase : Octets)
  | close
  | addPublicKey (key : KemPublicKey UInt8) (salt : Octets)
  | addPrivateKey (key : KemPublicKey UInt8) (privateKeyBytes kekSalt : Octets)
  | keyIdFor (ref : KeyRef) (digest : δ) (salt altSalt : Octets)

/-- The directory, the master key of the open instance, and what has been added and returned. -/
structure Keep where
  disk : Disk := {}
  masterKey : Option Octets := none
  added : List (KemPublicKey UInt8) := []
  secrets : List (KemPublicKey UInt8 × Octets) := []
  issued : List (KeyRef × KeyId UInt8) := []

namespace Keep
variable {δ : Type} (V : Vault δ) (s : Keep)

/-- A call on the open instance. Without one it does nothing. -/
def onInstance (call : Octets → Effect (Keep → Keep)) : Effect (Keep → Keep) :=
  match s.masterKey with
  | none => ⟨[], .ok id⟩
  | some masterKey => call masterKey

def effect : KeyOp δ → Effect (Keep → Keep)
  | .create passphrase kdfSalt iterations =>
    (V.create s.disk passphrase kdfSalt iterations).map fun masterKey s =>
      { s with masterKey := some masterKey }
  | .openDirectory passphrase =>
    ⟨[], (V.openDirectory s.disk passphrase).map fun masterKey s =>
      { s with masterKey := some masterKey }⟩
  | .close => ⟨[], .ok fun s => { s with masterKey := none }⟩
  | .addPublicKey key salt => s.onInstance fun masterKey =>
    (V.addPublicKey s.disk masterKey key salt).map fun _ s => { s with added := s.added ++ [key] }
  | .addPrivateKey key privateKeyBytes kekSalt => s.onInstance fun masterKey =>
    (V.addPrivateKey s.disk masterKey key privateKeyBytes kekSalt).map fun _ s =>
      { s with secrets := s.secrets ++ [(key, privateKeyBytes)] }
  | .keyIdFor ref digest salt altSalt => s.onInstance fun masterKey =>
    (V.keyIdFor s.disk masterKey ref digest salt altSalt).map fun keyId s =>
      { s with issued := s.issued ++ [(ref, keyId)] }

/-- All its writes, and what it returns. -/
def perform (op : KeyOp δ) : Keep :=
  let after := { s with disk := s.disk.writes (s.effect V op).writes }
  match (s.effect V op).result with
  | .ok f => f after
  | .error _ => after

/-- The call stops after its first `n` writes. -/
def stop (op : KeyOp δ) (n : Nat) : Keep :=
  { s with disk := s.disk.writes ((s.effect V op).writes.take n) }

end Keep

/-- Runs whose calls stop only where they may. -/
inductive KeyRun {δ : Type} (V : Vault δ) (mayStop : KeyOp δ → Nat → Prop) : Keep → Prop
  | initial : KeyRun V mayStop {}
  | perform {s : Keep} (op : KeyOp δ) : KeyRun V mayStop s → KeyRun V mayStop (s.perform V op)
  | stop {s : Keep} (op : KeyOp δ) (n : Nat) : KeyRun V mayStop s → mayStop op n →
      KeyRun V mayStop (s.stop V op n)

/-! ## What is kept -/

section
variable {δ : Type} (V : Vault δ)

/-- What has been added and returned is on the shelf. -/
structure Recorded (shelf : Set (Held δ)) (s : Keep) : Prop where
  added : ∀ pk ∈ s.added, ∃ held ∈ shelf, held.publicKey = pk
  secrets : ∀ entry ∈ s.secrets, ∃ held ∈ shelf,
    held.publicKey = entry.1 ∧ held.privateKey = some entry.2
  issued : ∀ entry ∈ s.issued, ∃ held ∈ shelf, held.Names V (V.refKeyId entry.1) ∧
    ∃ digest ∈ V.sha256 :: held.digests, entry.2 = V.buildKeyId held.publicKey digest

/-- What is on the shelf has been added and returned. -/
structure Accounted (shelf : Set (Held δ)) (s : Keep) : Prop where
  added : ∀ held ∈ shelf, held.publicKey ∈ s.added
  secrets : ∀ held ∈ shelf, ∀ key, held.privateKey = some key →
    (held.publicKey, key) ∈ s.secrets
  issued : ∀ held ∈ shelf, ∀ digest ∈ held.digests,
    ∃ ref, (ref, V.buildKeyId held.publicKey digest) ∈ s.issued

/-- No header has been written, and nothing else. -/
structure Keep.Fresh (s : Keep) : Prop where
  header : s.disk.header = none
  publicKeys : s.disk.publicKeys = ∅
  privateKeys : s.disk.privateKeys = ∅
  altIndex : s.disk.altIndex = none
  masterKey : s.masterKey = none
  added : s.added = []
  secrets : s.secrets = []
  issued : s.issued = []

structure Shelved (masterKey : Octets) (shelf : Set (Held δ)) (s : Keep) : Prop where
  inUse : s.disk.inUse = true
  header : ∃ salt iterations, s.disk.header = some (V.keystoreHeader.dump
    ⟨0, salt, iterations, V.deriveCheckTag masterKey salt⟩)
  instanceKey : ∀ key, s.masterKey = some key → key = masterKey
  represents : ∃ listed, Represents V masterKey shelf listed s.disk
  recorded : Recorded V shelf s

end

namespace Held
variable {δ : Type} {V : Vault δ}

/-- More digests, and a private key where there was none. -/
structure Extends (held' held : Held δ) : Prop where
  publicKey : held'.publicKey = held.publicKey
  digests : held.digests <+: held'.digests
  privateKey : ∀ key, held.privateKey = some key → held'.privateKey = some key

theorem Extends.refl (held : Held δ) : held.Extends held :=
  ⟨rfl, List.prefix_refl _, fun _ h => h⟩

theorem Extends.mem {held held' : Held δ} (h : held'.Extends held) {digest : δ}
    (hd : digest ∈ V.sha256 :: held.digests) : digest ∈ V.sha256 :: held'.digests := by
  rcases List.mem_cons.mp hd with rfl | hd
  · exact List.mem_cons_self
  · exact List.mem_cons_of_mem _ (h.digests.subset hd)

theorem Extends.names {held held' : Held δ} (h : held'.Extends held) {k : KeyId UInt8}
    (hn : held.Names V k) : held'.Names V k := by
  obtain ⟨digest, hd, hs⟩ := hn
  refine ⟨digest, h.mem hd, ?_⟩
  rw [h.publicKey]
  exact hs

end Held

section
variable {δ : Type} {V : Vault δ} {masterKey : Octets} {shelf shelf' : Set (Held δ)} {s s' : Keep}

/-- A shelf whose keys have only been extended. -/
def Grows (shelf shelf' : Set (Held δ)) : Prop := ∀ held ∈ shelf, ∃ held' ∈ shelf', held'.Extends held

theorem Grows.refl (shelf : Set (Held δ)) : Grows shelf shelf :=
  fun held hmem => ⟨held, hmem, .refl held⟩

theorem Grows.put {held : Held δ}
    (h : ∀ x ∈ shelf, x.publicKey = held.publicKey → held.Extends x) :
    Grows shelf (held.put shelf) := by
  intro x hx
  by_cases hpk : x.publicKey = held.publicKey
  · exact ⟨held, .inl rfl, h x hx hpk⟩
  · exact ⟨x, .inr ⟨hx, hpk⟩, .refl x⟩

theorem Recorded.grow (h : Recorded V shelf s) (hg : Grows shelf shelf')
    (hadded : s'.added = s.added) (hsecrets : s'.secrets = s.secrets)
    (hissued : s'.issued = s.issued) : Recorded V shelf' s' where
  added pk hpk := by
    obtain ⟨held, hmem, rfl⟩ := h.added pk (hadded ▸ hpk)
    obtain ⟨held', hmem', he⟩ := hg held hmem
    exact ⟨held', hmem', he.publicKey⟩
  secrets entry hentry := by
    obtain ⟨held, hmem, hpk, hkey⟩ := h.secrets entry (hsecrets ▸ hentry)
    obtain ⟨held', hmem', he⟩ := hg held hmem
    exact ⟨held', hmem', he.publicKey.trans hpk, he.privateKey _ hkey⟩
  issued entry hentry := by
    obtain ⟨held, hmem, hn, digest, hd, hk⟩ := h.issued entry (hissued ▸ hentry)
    obtain ⟨held', hmem', he⟩ := hg held hmem
    exact ⟨held', hmem', he.names hn, digest, he.mem hd, he.publicKey ▸ hk⟩

end

/-! ## One call -/

namespace Keep
variable {δ : Type} {V : Vault δ} {s : Keep} {op : KeyOp δ}

theorem perform_of_error {x : KeystoreError} (h : s.effect V op = ⟨[], .error x⟩) :
    s.perform V op = s := by
  simp only [perform, h]
  rfl

theorem perform_of_ok (ws : List Write) {f : Keep → Keep} (h : s.effect V op = ⟨ws, .ok f⟩) :
    s.perform V op = f { s with disk := s.disk.writes ws } := by
  simp only [perform, h]

/-- What a call returns is added to what there is; the files are not touched. -/
structure Follows (s' s : Keep) : Prop where
  disk : s'.disk = s.disk
  added : s.added ⊆ s'.added
  secrets : s.secrets ⊆ s'.secrets

theorem onInstance_follows {call : Octets → Effect (Keep → Keep)}
    (h : ∀ masterKey f, (call masterKey).result = .ok f → ∀ s', (f s').Follows s')
    {f : Keep → Keep} (hf : (s.onInstance call).result = .ok f) : ∀ s', (f s').Follows s' := by
  unfold onInstance at hf
  split at hf
  · cases hf
    exact fun s' => ⟨rfl, List.Subset.refl _, List.Subset.refl _⟩
  · exact h _ f hf

theorem map_follows {α : Type} {g : α → Keep → Keep} {result : Except KeystoreError α}
    {f : Keep → Keep} (hf : result.map g = .ok f) (hg : ∀ a s', (g a s').Follows s')
    (s' : Keep) : (f s').Follows s' := by
  cases result with
  | error x => cases hf
  | ok a =>
    cases hf
    exact hg a s'

theorem effect_follows {f : Keep → Keep} (hf : (s.effect V op).result = .ok f) (s' : Keep) :
    (f s').Follows s' := by
  have hsame : ∀ {α : Type} (l : List α), l ⊆ l := fun l => List.Subset.refl l
  cases op with
  | create | openDirectory => exact map_follows hf (fun _ _ => ⟨rfl, hsame _, hsame _⟩) s'
  | close =>
    cases hf
    exact ⟨rfl, hsame _, hsame _⟩
  | addPublicKey =>
    refine onInstance_follows (fun masterKey f h => ?_) hf s'
    exact map_follows h fun _ _ => ⟨rfl, List.subset_append_left _ _, hsame _⟩
  | addPrivateKey =>
    refine onInstance_follows (fun masterKey f h => ?_) hf s'
    exact map_follows h fun _ _ => ⟨rfl, hsame _, List.subset_append_left _ _⟩
  | keyIdFor =>
    refine onInstance_follows (fun masterKey f h => ?_) hf s'
    exact map_follows h fun _ _ => ⟨rfl, hsame _, hsame _⟩

theorem perform_follows :
    (s.perform V op).Follows { s with disk := s.disk.writes (s.effect V op).writes } := by
  unfold perform
  dsimp only
  split
  · rename_i f hf
    exact effect_follows hf _
  · exact ⟨rfl, List.Subset.refl _, List.Subset.refl _⟩

theorem perform_disk : (s.perform V op).disk = s.disk.writes (s.effect V op).writes :=
  perform_follows.disk

end Keep

section
variable {δ : Type} {V : Vault δ} {masterKey : Octets} {shelf : Set (Held δ)} {s : Keep}
  {op : KeyOp δ}

/-- The call leaves a directory that holds what was there, and what it returns is recorded. -/
def Advances (V : Vault δ) (masterKey : Octets) (shelf : Set (Held δ)) (s : Keep)
    (op : KeyOp δ) : Prop :=
  ∃ shelf', Grows shelf shelf' ∧ Shelved V masterKey shelf' (s.perform V op) ∧
    (Accounted V shelf s → Accounted V shelf' (s.perform V op))

theorem Shelved.same (h : Shelved V masterKey shelf s) (heq : s.perform V op = s) :
    Advances V masterKey shelf s op := by
  refine ⟨shelf, .refl shelf, ?_, ?_⟩
  · rw [heq]
    exact h
  · rw [heq]
    exact id

/-- The instance is closed, or opened with the right passphrase. -/
theorem Shelved.reopen (h : Shelved V masterKey shelf s) (key : Option Octets)
    (hkey : ∀ k, key = some k → k = masterKey)
    (heq : s.perform V op = { s with masterKey := key }) : Advances V masterKey shelf s op := by
  refine ⟨shelf, .refl shelf, ?_, ?_⟩
  · rw [heq]
    exact ⟨h.inUse, h.header, hkey, h.represents, ⟨h.recorded.added, h.recorded.secrets,
      h.recorded.issued⟩⟩
  · rw [heq]
    exact fun ha => ⟨ha.added, ha.secrets, ha.issued⟩

theorem Shelved.create (h : Shelved V masterKey shelf s) (passphrase kdfSalt : Octets)
    (iterations : Int) : Advances V masterKey shelf s (.create passphrase kdfSalt iterations) := by
  apply h.same
  apply Keep.perform_of_error
  simp only [Keep.effect, Vault.create, h.inUse, ↓reduceIte]
  rfl

theorem Shelved.close (h : Shelved V masterKey shelf s) : Advances V masterKey shelf s .close :=
  h.reopen none (fun _ hk => nomatch hk) rfl

theorem Shelved.openDirectory (hV : V.Correct) (h : Shelved V masterKey shelf s) (passphrase : Octets) :
    Advances V masterKey shelf s (.openDirectory passphrase) := by
  obtain ⟨salt, iterations, hheader⟩ := h.header
  have hload : V.openDirectory s.disk passphrase =
      match V.pbkdf2 passphrase salt iterations with
      | none => .error .valueError
      | some key =>
        if V.deriveCheckTag key salt = V.deriveCheckTag masterKey salt then .ok key
        else .error .wrongPassphrase := by
    rw [Vault.openDirectory, hheader]
    change (V.keystoreHeader.load _ >>= _) = _
    rw [Codec.load_dump (hV.parse_header _)]
    rfl
  split at hload
  · apply h.same
    apply Keep.perform_of_error
    simp only [Keep.effect, hload]
    rfl
  · rename_i key _
    split at hload
    · rename_i htag
      refine h.reopen (some key) ?_ ?_
      · intro k hk
        cases hk
        exact hV.tag_inj _ _ _ htag
      · apply Keep.perform_of_ok [] (f := fun s => { s with masterKey := some key })
        simp only [Keep.effect, hload]
        rfl
    · apply h.same
      apply Keep.perform_of_error
      simp only [Keep.effect, hload]
      rfl

/-- The call has changed the files of one key. -/
theorem Shelved.put (h : Shelved V masterKey shelf s) {held : Held δ} (ws : List Write)
    {f : Keep → Keep} {s' : Keep} (heff : s.effect V op = ⟨ws, .ok f⟩)
    (hs : f { s with disk := s.disk.writes ws } = s') (hdisk : s'.disk = s.disk.writes ws)
    (hfiles : (s.disk.writes ws).header = s.disk.header ∧ (s.disk.writes ws).inUse = s.disk.inUse)
    (hkey : s'.masterKey = s.masterKey)
    (hext : ∀ x ∈ shelf, x.publicKey = held.publicKey → held.Extends x)
    (hrepresents : ∃ listed, Represents V masterKey (held.put shelf) listed (s.disk.writes ws))
    (hrecorded : Recorded V (held.put shelf) s → Recorded V (held.put shelf) s')
    (haccounted : Accounted V shelf s → Accounted V (held.put shelf) s') :
    Advances V masterKey shelf s op := by
  have hperform : s.perform V op = s' := (Keep.perform_of_ok ws heff).trans hs
  refine ⟨held.put shelf, .put hext, ?_, ?_⟩
  · rw [hperform]
    refine ⟨?_, ?_, ?_, ?_, ?_⟩
    · rw [hdisk, hfiles.2]
      exact h.inUse
    · rw [hdisk, hfiles.1]
      exact h.header
    · rw [hkey]
      exact h.instanceKey
    · rw [hdisk]
      exact hrepresents
    · exact hrecorded (h.recorded.grow (.put hext) rfl rfl rfl)
  · rw [hperform]
    exact haccounted

theorem Shelved.closed (h : Shelved V masterKey shelf s)
    (heff : s.effect V op = ⟨[], .ok id⟩) : Advances V masterKey shelf s op :=
  h.same (Keep.perform_of_ok [] heff)

theorem Shelved.addPublicKey (hV : V.Correct) (h : Shelved V masterKey shelf s)
    (pk : KemPublicKey UInt8) (salt : Octets) :
    Advances V masterKey shelf s (.addPublicKey pk salt) := by
  cases hkey : s.masterKey with
  | none =>
    apply h.closed
    simp only [Keep.effect, Keep.onInstance, hkey]
  | some key =>
    cases h.instanceKey key hkey
    obtain ⟨listed, hr⟩ := h.represents
    by_cases hheld : ∃ held ∈ shelf, held.publicKey = pk
    · obtain ⟨held, hmem, rfl⟩ := hheld
      apply h.same
      apply Keep.perform_of_error
      simp only [Keep.effect, Keep.onInstance, hkey, hr.addPublicKey_held hmem]
      rfl
    · have hnew : ∀ held ∈ shelf, held.publicKey ≠ pk := fun held hmem heq =>
        hheld ⟨held, hmem, heq⟩
      obtain ⟨write, heff, hr', hfiles⟩ := hr.addPublicKey_new hV hnew salt
      refine h.put [write] (f := fun s => { s with added := s.added ++ [pk] }) ?_ rfl rfl
        hfiles rfl ?_ ⟨listed, hr'⟩ ?_ ?_
      · simp only [Keep.effect, Keep.onInstance, hkey, heff]
        rfl
      · exact fun x hx heq => absurd heq (hnew x hx)
      · intro hrec
        refine ⟨fun pk' hmem => ?_, hrec.secrets, hrec.issued⟩
        rcases List.mem_append.mp hmem with hmem | hmem
        · exact hrec.added pk' hmem
        · exact ⟨_, .inl rfl, (List.mem_singleton.mp hmem).symm⟩
      · intro ha
        refine ⟨?_, ?_, ?_⟩
        · rintro x (rfl | ⟨hx, _⟩)
          · exact List.mem_append_right _ List.mem_cons_self
          · exact List.mem_append_left _ (ha.added x hx)
        · rintro x (rfl | ⟨hx, _⟩) secret hsecret
          · cases hsecret
          · exact ha.secrets x hx secret hsecret
        · rintro x (rfl | ⟨hx, _⟩) digest hd
          · cases hd
          · exact ha.issued x hx digest hd

theorem Shelved.addPrivateKey (hV : V.Correct) (h : Shelved V masterKey shelf s)
    (pk : KemPublicKey UInt8) (secret salt : Octets) :
    Advances V masterKey shelf s (.addPrivateKey pk secret salt) := by
  cases hkey : s.masterKey with
  | none =>
    apply h.closed
    simp only [Keep.effect, Keep.onInstance, hkey]
  | some key =>
    cases h.instanceKey key hkey
    obtain ⟨listed, hr⟩ := h.represents
    by_cases hheld : ∃ held ∈ shelf, held.publicKey = pk
    · obtain ⟨held, hmem, rfl⟩ := hheld
      cases hsecret : held.privateKey with
      | some old =>
        apply h.same
        apply Keep.perform_of_error
        simp only [Keep.effect, Keep.onInstance, hkey, hr.addPrivateKey_held hmem hsecret]
        rfl
      | none =>
        obtain hfailed | ⟨write, heff, hr', hfiles⟩ :=
          hr.addPrivateKey_new hV hmem hsecret secret salt
        · apply h.same
          apply Keep.perform_of_error
          simp only [Keep.effect, Keep.onInstance, hkey, hfailed]
          rfl
        refine h.put [write]
          (f := fun s => { s with secrets := s.secrets ++ [(held.publicKey, secret)] }) ?_ rfl rfl
          hfiles rfl ?_ ⟨listed, hr'⟩ ?_ ?_
        · simp only [Keep.effect, Keep.onInstance, hkey, heff]
          rfl
        · intro x hx heq
          cases hr.distinct x hx held hmem heq
          refine ⟨rfl, List.prefix_refl _, fun old hold => ?_⟩
          rw [hsecret] at hold
          cases hold
        · intro hrec
          refine ⟨hrec.added, fun entry hmem => ?_, hrec.issued⟩
          rcases List.mem_append.mp hmem with hmem | hmem
          · exact hrec.secrets entry hmem
          · cases List.mem_singleton.mp hmem
            exact ⟨_, .inl rfl, rfl, rfl⟩
        · intro ha
          refine ⟨?_, ?_, ?_⟩
          · rintro x (rfl | ⟨hx, _⟩)
            · exact ha.added held hmem
            · exact ha.added x hx
          · rintro x (rfl | ⟨hx, _⟩) secret' hsecret'
            · cases hsecret'
              exact List.mem_append_right _ List.mem_cons_self
            · exact List.mem_append_left _ (ha.secrets x hx secret' hsecret')
          · rintro x (rfl | ⟨hx, _⟩) digest hd
            · exact ha.issued held hmem digest hd
            · exact ha.issued x hx digest hd
    · apply h.same
      apply Keep.perform_of_error
      simp only [Keep.effect, Keep.onInstance, hkey, hr.addPrivateKey_unheld hV
        (fun held hmem heq => hheld ⟨held, hmem, heq⟩)]
      rfl

theorem Shelved.keyIdFor (hV : V.Correct) (h : Shelved V masterKey shelf s) (ref : KeyRef) (digest : δ)
    (salt altSalt : Octets) : Advances V masterKey shelf s (.keyIdFor ref digest salt altSalt) := by
  cases hkey : s.masterKey with
  | none =>
    apply h.closed
    simp only [Keep.effect, Keep.onInstance, hkey]
  | some key =>
    cases h.instanceKey key hkey
    obtain ⟨listed, hr⟩ := h.represents
    by_cases hheld : ∃ held ∈ shelf, held.Names V (V.refKeyId ref)
    · obtain ⟨held, hmem, hn⟩ := hheld
      by_cases hd : digest ∈ V.sha256 :: held.digests
      · have heff := hr.keyIdFor_cached hV hmem hn hd salt altSalt
        have hperform : s.perform V (.keyIdFor ref digest salt altSalt) =
            { s with issued := s.issued ++ [(ref, V.buildKeyId held.publicKey digest)] } := by
          apply Keep.perform_of_ok [] (f := fun s =>
            { s with issued := s.issued ++ [(ref, V.buildKeyId held.publicKey digest)] })
          simp only [Keep.effect, Keep.onInstance, hkey, heff]
          rfl
        refine ⟨shelf, .refl shelf, ?_, ?_⟩
        · rw [hperform]
          refine ⟨h.inUse, h.header, h.instanceKey, h.represents, h.recorded.added,
            h.recorded.secrets, fun entry hentry => ?_⟩
          rcases List.mem_append.mp hentry with hentry | hentry
          · exact h.recorded.issued entry hentry
          · cases List.mem_singleton.mp hentry
            exact ⟨held, hmem, hn, digest, hd, rfl⟩
        · rw [hperform]
          intro ha
          refine ⟨ha.added, ha.secrets, fun x hx digest' hd' => ?_⟩
          obtain ⟨ref', hin⟩ := ha.issued x hx digest' hd'
          exact ⟨ref', List.mem_append_left _ hin⟩
      · obtain ⟨entry, index, heff, hr'⟩ := hr.keyIdFor_new hV hmem hn hd salt altSalt
        have hext : ∀ x ∈ shelf, x.publicKey = held.publicKey →
            ({ held with digests := held.digests ++ [digest] } : Held δ).Extends x := by
          intro x hx heq
          cases hr.distinct x hx held hmem heq
          exact ⟨rfl, List.prefix_append _ _, fun _ h => h⟩
        refine h.put [.publicKey (V.fileOf held.publicKey) entry, .altIndex index] (f := fun s => { s with
            issued := s.issued ++ [(ref, V.buildKeyId held.publicKey digest)] }) ?_ rfl rfl
          ⟨rfl, rfl⟩ rfl hext ⟨_, hr'⟩ ?_ ?_
        · simp only [Keep.effect, Keep.onInstance, hkey, heff]
          rfl
        · intro hrec
          refine ⟨hrec.added, hrec.secrets, fun entry hentry => ?_⟩
          rcases List.mem_append.mp hentry with hentry | hentry
          · exact hrec.issued entry hentry
          · cases List.mem_singleton.mp hentry
            exact ⟨_, .inl rfl, (hext held hmem rfl).names hn, digest,
              List.mem_cons_of_mem _ (List.mem_append_right _ List.mem_cons_self), rfl⟩
        · intro ha
          refine ⟨?_, ?_, ?_⟩
          · rintro x (rfl | ⟨hx, _⟩)
            · exact ha.added held hmem
            · exact ha.added x hx
          · rintro x (rfl | ⟨hx, _⟩) secret hsecret
            · exact ha.secrets held hmem secret hsecret
            · exact ha.secrets x hx secret hsecret
          · have hold : ∀ x ∈ shelf, ∀ digest' ∈ x.digests, ∃ ref',
                (ref', V.buildKeyId x.publicKey digest') ∈
                  s.issued ++ [(ref, V.buildKeyId held.publicKey digest)] := by
              intro x hx digest' hd'
              obtain ⟨ref', hin⟩ := ha.issued x hx digest' hd'
              exact ⟨ref', List.mem_append_left _ hin⟩
            rintro x (rfl | ⟨hx, _⟩) digest' hd'
            · rcases List.mem_append.mp hd' with hd' | hd'
              · exact hold held hmem digest' hd'
              · cases List.mem_singleton.mp hd'
                exact ⟨ref, List.mem_append_right _ List.mem_cons_self⟩
            · exact hold x hx digest' hd'
    · apply h.same
      apply Keep.perform_of_error
      simp only [Keep.effect, Keep.onInstance, hkey, hr.keyIdFor_unknown hV
        (fun held hmem hn => hheld ⟨held, hmem, hn⟩)]
      rfl

/-- Every call on a directory that exists. -/
theorem Shelved.perform (hV : V.Correct) (h : Shelved V masterKey shelf s) (op : KeyOp δ) :
    Advances V masterKey shelf s op := by
  cases op with
  | create passphrase kdfSalt iterations => exact h.create passphrase kdfSalt iterations
  | openDirectory passphrase => exact h.openDirectory hV passphrase
  | close => exact h.close
  | addPublicKey pk salt => exact h.addPublicKey hV pk salt
  | addPrivateKey pk secret salt => exact h.addPrivateKey hV pk secret salt
  | keyIdFor ref digest salt altSalt => exact h.keyIdFor hV ref digest salt altSalt

end

end KemMake
