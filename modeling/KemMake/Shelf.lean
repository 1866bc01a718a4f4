import KemMake.Keystore
import Mathlib.Data.Set.Basic

/-!
# What a key directory holds

A `Shelf` says what the three maps on disk are for: keys, each with the digests its KeyIds
have been computed under and its private key. `Represents` ties the files to it, and each
method is specified by what it does to the shelf.
-/

namespace KemMake

/-! ## Records -/

section
variable {α : Type} {c : Codec α}

theorem Codec.load_dump {obj : α} (h : c.parse (c.dump obj) = some obj) :
    c.load (c.dump obj) = .ok obj := by
  simp only [Codec.load, h, ↓reduceIte]

end

namespace Vault
variable {δ : Type}

/-- A digest algorithm has one name, and no two keys have the same digest. -/
structure CollisionFree (V : Vault δ) : Prop where
  digestOid_inj : ∀ a b, V.digestOid a = V.digestOid b → a = b
  collision_free : ∀ digest a b,
    V.digest digest (V.dumpPublicKey a) = V.digest digest (V.dumpPublicKey b) → a = b

/-- The packages do what their documentation says. -/
structure Correct (V : Vault δ) : Prop extends V.CollisionFree where
  /-- The check tags of two master keys differ. -/
  tag_inj : ∀ masterKey masterKey' salt,
    V.deriveCheckTag masterKey salt = V.deriveCheckTag masterKey' salt → masterKey = masterKey'
  parse_header : ∀ x, V.keystoreHeader.parse (V.keystoreHeader.dump x) = some x
  parse_publicEntry : ∀ x, V.storedPublicKeyEntry.parse (V.storedPublicKeyEntry.dump x) = some x
  parse_privateEntry : ∀ x,
    V.storedPrivateKeyEntry.parse (V.storedPrivateKeyEntry.dump x) = some x
  parse_altIndex : ∀ x, V.altIndexFile.parse (V.altIndexFile.dump x) = some x
  unwrap_wrap : ∀ kek key wrapped, V.wrap kek key = some wrapped → V.unwrap kek wrapped = some key

variable {V : Vault δ}

theorem sameKeyId_iff {a b : KeyId UInt8} : sameKeyId a b = true ↔
    a.hashAlgorithm.algorithm = b.hashAlgorithm.algorithm ∧ a.keyHash = b.keyHash := by
  simp [sameKeyId]

theorem sameKeyId_refl (a : KeyId UInt8) : sameKeyId a a = true := sameKeyId_iff.mpr ⟨rfl, rfl⟩

/-- A KeyId is one of one key, under one digest. -/
theorem CollisionFree.sameKeyId_inj (hV : V.CollisionFree) {pk pk' : KemPublicKey UInt8} {digest digest' : δ}
    {k : KeyId UInt8} (h : sameKeyId (V.buildKeyId pk digest) k = true)
    (h' : sameKeyId (V.buildKeyId pk' digest') k = true) : pk = pk' ∧ digest = digest' := by
  obtain ⟨ha, hh⟩ := sameKeyId_iff.mp h
  obtain ⟨ha', hh'⟩ := sameKeyId_iff.mp h'
  have hd : digest = digest' := hV.digestOid_inj _ _ (ha.trans ha'.symm)
  subst hd
  exact ⟨hV.collision_free _ _ _ (hh.trans hh'.symm), rfl⟩

/-- The KeyId is that of the key under some digest. -/
def IsKeyIdOf (V : Vault δ) (pk : KemPublicKey UInt8) (k : KeyId UInt8) : Prop :=
  ∃ digest, sameKeyId (V.buildKeyId pk digest) k = true

/-- The file name of a key. -/
def fileOf (V : Vault δ) (publicKey : KemPublicKey UInt8) : Octets := hexOf (V.primaryKeyId publicKey)

theorem CollisionFree.fileOf_inj (hV : V.CollisionFree) {a b : KemPublicKey UInt8}
    (h : V.fileOf a = V.fileOf b) : a = b :=
  hV.collision_free V.sha256 a b (Hex.encode_inj.mp h)

/-- The entry of the key's private key, wrapped under some salt. -/
def WrapsPrivate (V : Vault δ) (masterKey : Octets) (publicKey : KemPublicKey UInt8)
    (key encoded : Octets) : Prop :=
  ∃ salt wrapped, V.wrap (V.deriveKek masterKey salt (V.dumpKeyId (V.primaryKeyId publicKey))) key =
    some wrapped ∧ encoded = V.storedPrivateKeyEntry.dump
      ⟨V.primaryKeyId publicKey, salt, wrapAlgorithmOid, wrapped⟩

theorem fileOf_ascii (V : Vault δ) (publicKey : KemPublicKey UInt8) :
    ∀ c ∈ V.fileOf publicKey, c.toNat < 128 := Hex.encode_ascii _

end Vault

/-! ## Shelves -/

/-- A stored key: the digests of its KeyIds besides SHA-256, and its private key. -/
structure Held (δ : Type) where
  publicKey : KemPublicKey UInt8
  digests : List δ
  privateKey : Option Octets

namespace Held
variable {δ : Type} (V : Vault δ) (held : Held δ)

/-- The contents of the entry of the key. -/
def data : PublicKeyEntryData :=
  ⟨held.publicKey, (V.sha256 :: held.digests).map (V.buildKeyId held.publicKey)⟩

/-- The KeyId is one of those of the key. -/
def Names (k : KeyId UInt8) : Prop :=
  ∃ digest ∈ V.sha256 :: held.digests, Vault.sameKeyId (V.buildKeyId held.publicKey digest) k = true

/-- The shelf with the key replaced or new. -/
def put (shelf : Set (Held δ)) : Set (Held δ) :=
  {x | x = held ∨ x ∈ shelf ∧ x.publicKey ≠ held.publicKey}

variable {V held}

theorem names_keyId {digest : δ} (hd : digest ∈ V.sha256 :: held.digests) :
    held.Names V (V.buildKeyId held.publicKey digest) :=
  ⟨digest, hd, Vault.sameKeyId_refl _⟩

theorem any_data {k : KeyId UInt8} :
    ((held.data V).keyIds.any fun kid => Vault.sameKeyId kid k) = true ↔ held.Names V k := by
  simp only [data, Names, List.any_map, List.any_eq_true, Function.comp_apply]

end Held

/-- The files stand for the keys of the shelf, with an index of the KeyIds `listed`. -/
structure Represents {δ : Type} (V : Vault δ) (masterKey : Octets) (shelf : Set (Held δ))
    (listed : List (KemPublicKey UInt8 × δ)) (d : Disk) : Prop where
  distinct : ∀ held ∈ shelf, ∀ held' ∈ shelf, held.publicKey = held'.publicKey → held = held'
  digests : ∀ held ∈ shelf, (V.sha256 :: held.digests).Nodup
  publicFile : ∀ held ∈ shelf, ∃ salt, d.publicKeys.get? (V.fileOf held.publicKey) =
    some (V.storedPublicKeyEntry.dump
      (V.buildStoredPublicKeyEntry masterKey (held.data V) (V.fileOf held.publicKey) salt))
  noPublicFile : ∀ name, (∀ held ∈ shelf, V.fileOf held.publicKey ≠ name) →
    d.publicKeys.get? name = none
  privateFile : ∀ held ∈ shelf, ∀ key, held.privateKey = some key →
    ∃ encoded, d.privateKeys.get? (V.fileOf held.publicKey) = some encoded ∧
      V.WrapsPrivate masterKey held.publicKey key encoded
  noPrivateFile : ∀ name, (∀ held ∈ shelf, V.fileOf held.publicKey = name → held.privateKey = none) →
    d.privateKeys.get? name = none
  index : V.loadAltIndex d masterKey =
    .ok (listed.map fun entry => ⟨V.buildKeyId entry.1 entry.2, V.fileOf entry.1⟩)
  listed : ∀ pk digest, (pk, digest) ∈ listed ↔
    ∃ held ∈ shelf, held.publicKey = pk ∧ digest ∈ held.digests

namespace Represents
variable {δ : Type} {V : Vault δ} {masterKey : Octets} {shelf : Set (Held δ)}
  {listed : List (KemPublicKey UInt8 × δ)} {d : Disk} {held held' : Held δ} {k : KeyId UInt8}

variable (hV : V.Correct)
include hV

theorem eq_of_names (h : Represents V masterKey shelf listed d) (hmem : held ∈ shelf)
    (hmem' : held' ∈ shelf) (hn : held.Names V k) (hn' : held'.Names V k) : held = held' := by
  obtain ⟨_, _, hs⟩ := hn
  obtain ⟨_, _, hs'⟩ := hn'
  exact h.distinct _ hmem _ hmem' (hV.sameKeyId_inj hs hs').1

theorem eq_of_fileOf (h : Represents V masterKey shelf listed d) (hmem : held ∈ shelf)
    (hmem' : held' ∈ shelf) (heq : V.fileOf held.publicKey = V.fileOf held'.publicKey) :
    held = held' :=
  h.distinct _ hmem _ hmem' (hV.fileOf_inj heq)

/-! ## Lookups -/

theorem readPublicEntry (h : Represents V masterKey shelf listed d) (hmem : held ∈ shelf) :
    V.readPublicEntry d masterKey (V.fileOf held.publicKey) = .ok (some (held.data V)) := by
  obtain ⟨salt, hfile⟩ := h.publicFile held hmem
  simp only [Vault.readPublicEntry, hfile, Codec.load_dump (hV.parse_publicEntry _), bind,
    Except.bind, Vault.verifyAndGetData, Vault.buildStoredPublicKeyEntry, ↓reduceIte, pure,
    Except.pure]

omit hV in
theorem readPublicEntry_none (h : Represents V masterKey shelf listed d) {name : Octets}
    (hname : ∀ held ∈ shelf, V.fileOf held.publicKey ≠ name) :
    V.readPublicEntry d masterKey name = .ok none := by
  simp only [Vault.readPublicEntry, h.noPublicFile name hname]
  rfl

omit hV in
/-- The index leads to the key that the KeyId names, if one of its alternate KeyIds does. -/
theorem altIndexLookup (h : Represents V masterKey shelf listed d) (k : KeyId UInt8) :
    (∃ held ∈ shelf, held.Names V k ∧
      V.altIndexLookup d masterKey k = .ok (some (V.fileOf held.publicKey))) ∨
    (∀ held ∈ shelf, ∀ digest ∈ held.digests,
      Vault.sameKeyId (V.buildKeyId held.publicKey digest) k = false) ∧
      V.altIndexLookup d masterKey k = .ok none := by
  unfold Vault.altIndexLookup
  rw [h.index]
  simp only [bind, Except.bind]
  split
  · rename_i hfind
    refine .inr ⟨fun held hmem digest hd => ?_, rfl⟩
    have hin := (h.listed held.publicKey digest).mpr ⟨held, hmem, rfl, hd⟩
    simpa using List.find?_eq_none.mp hfind _ (List.mem_map_of_mem hin)
  · rename_i entry hfind
    obtain ⟨⟨pk, digest⟩, hin, rfl⟩ := List.mem_map.mp (List.mem_of_find?_eq_some hfind)
    have hsame := List.find?_some hfind
    obtain ⟨held, hmem, rfl, hd⟩ := (h.listed pk digest).mp hin
    refine .inl ⟨held, hmem, ⟨digest, List.mem_cons_of_mem _ hd, hsame⟩, ?_⟩
    rw [if_pos (V.fileOf_ascii held.publicKey)]
    rfl

theorem loadPublicEntryByKeyId (h : Represents V masterKey shelf listed d) (hmem : held ∈ shelf)
    (hn : held.Names V k) : V.loadPublicEntryByKeyId d masterKey k = .ok (held.data V) := by
  have hany := Held.any_data.mpr hn
  have hindex : V.fileOf held.publicKey ≠ Vault.hexOf k →
      Vault.loadPublicEntryByKeyId.byIndex V d masterKey k
        (.keyNotFound (Vault.hexOf k)) = .ok (held.data V) := by
    intro hne
    obtain ⟨held', hmem', hn', hl⟩ | ⟨hno, _⟩ := h.altIndexLookup k
    · cases h.eq_of_names hV hmem hmem' hn hn'
      simp only [Vault.loadPublicEntryByKeyId.byIndex, hl, bind, Except.bind,
        h.readPublicEntry hV hmem, hany, ↓reduceIte]
      rfl
    · -- the KeyId would be the primary one
      obtain ⟨digest, hd, hs⟩ := hn
      rcases List.mem_cons.mp hd with rfl | hd
      · refine absurd ?_ hne
        exact congrArg Hex.encode (Vault.sameKeyId_iff.mp hs).2
      · rw [hno held hmem digest hd] at hs
        cases hs
  unfold Vault.loadPublicEntryByKeyId
  by_cases hfile : ∃ held' ∈ shelf, V.fileOf held'.publicKey = Vault.hexOf k
  · obtain ⟨held', hmem', heq⟩ := hfile
    rw [← heq, h.readPublicEntry hV hmem', heq]
    simp only [bind, Except.bind]
    split
    · rename_i hany'
      cases h.eq_of_names hV hmem hmem' hn (Held.any_data.mp hany')
      rfl
    · rename_i hany'
      apply hindex
      intro heq'
      cases h.eq_of_fileOf hV hmem hmem' (heq'.trans heq.symm)
      exact hany' hany
  · have hno : ∀ held ∈ shelf, V.fileOf held.publicKey ≠ Vault.hexOf k :=
      fun held' hmem' heq => hfile ⟨held', hmem', heq⟩
    rw [h.readPublicEntry_none hno]
    exact hindex (hno held hmem)

theorem loadPublicEntryByKeyId_none (h : Represents V masterKey shelf listed d)
    (hno : ∀ held ∈ shelf, ¬ held.Names V k) :
    V.loadPublicEntryByKeyId d masterKey k = .error (.keyNotFound (Vault.hexOf k)) := by
  have hindex : Vault.loadPublicEntryByKeyId.byIndex V d masterKey k
      (.keyNotFound (Vault.hexOf k)) = .error (.keyNotFound (Vault.hexOf k)) := by
    obtain ⟨held, hmem, hn, _⟩ | ⟨_, hl⟩ := h.altIndexLookup k
    · exact absurd hn (hno held hmem)
    · simp only [Vault.loadPublicEntryByKeyId.byIndex, hl]
      rfl
  unfold Vault.loadPublicEntryByKeyId
  by_cases hfile : ∃ held ∈ shelf, V.fileOf held.publicKey = Vault.hexOf k
  · obtain ⟨held, hmem, heq⟩ := hfile
    rw [← heq, h.readPublicEntry hV hmem, heq]
    simp only [bind, Except.bind]
    split
    · rename_i hany
      exact absurd (Held.any_data.mp hany) (hno held hmem)
    · exact hindex
  · have hnone : ∀ held ∈ shelf, V.fileOf held.publicKey ≠ Vault.hexOf k :=
      fun held hmem heq => hfile ⟨held, hmem, heq⟩
    rw [h.readPublicEntry_none hnone]
    exact hindex

theorem getPublicKey (h : Represents V masterKey shelf listed d) (hmem : held ∈ shelf)
    (hn : held.Names V k) : V.getPublicKey d masterKey k = .ok held.publicKey := by
  rw [Vault.getPublicKey, h.loadPublicEntryByKeyId hV hmem hn]
  rfl

theorem getPublicKey_none (h : Represents V masterKey shelf listed d)
    (hno : ∀ held ∈ shelf, ¬ held.Names V k) :
    V.getPublicKey d masterKey k = .error (.keyNotFound (Vault.hexOf k)) := by
  rw [Vault.getPublicKey, h.loadPublicEntryByKeyId_none hV hno]
  rfl

/-- Every file under public/ is the entry of a key. -/
theorem publicEntry (h : Represents V masterKey shelf listed d) {name encoded : Octets}
    (hfile : d.publicKeys.get? name = some encoded) : ∃ held ∈ shelf, ∃ stored,
      V.storedPublicKeyEntry.load encoded = .ok stored ∧ stored.data = held.data V := by
  by_cases hname : ∃ held ∈ shelf, V.fileOf held.publicKey = name
  · obtain ⟨held, hmem, rfl⟩ := hname
    obtain ⟨salt, hentry⟩ := h.publicFile held hmem
    rw [hentry] at hfile
    cases hfile
    exact ⟨held, hmem, _, Codec.load_dump (hV.parse_publicEntry _), rfl⟩
  · rw [h.noPublicFile name fun held hmem heq => hname ⟨held, hmem, heq⟩] at hfile
    cases hfile

/-! ## Private keys -/

theorem privateHexId (h : Represents V masterKey shelf listed d) (hmem : held ∈ shelf)
    (hn : held.Names V k) : V.privateHexId d masterKey k = .ok (V.fileOf held.publicKey) := by
  unfold Vault.privateHexId
  split
  · rw [h.loadPublicEntryByKeyId hV hmem hn]
    rfl
  · rename_i hsha
    obtain ⟨digest, _, hs⟩ := hn
    obtain ⟨ha, hh⟩ := Vault.sameKeyId_iff.mp hs
    have hd : digest = V.sha256 := hV.digestOid_inj _ _ (ha.trans (not_not.mp hsha))
    subst hd
    exact congrArg (Except.ok ∘ Hex.encode) hh.symm

theorem getPrivateKey (h : Represents V masterKey shelf listed d) (hmem : held ∈ shelf)
    (hn : held.Names V k) : V.getPrivateKey d masterKey k = match held.privateKey with
      | some key => .ok key
      | none => .error (.keyNotFound (V.fileOf held.publicKey)) := by
  simp only [Vault.getPrivateKey, h.privateHexId hV hmem hn, bind, Except.bind]
  cases hkey : held.privateKey with
  | none =>
    rw [h.noPrivateFile]
    intro held' hmem' heq
    cases h.eq_of_fileOf hV hmem' hmem heq
    exact hkey
  | some key =>
    obtain ⟨_, hfile, salt, wrapped, hwrap, rfl⟩ := h.privateFile held hmem key hkey
    have hname : Hex.decode (V.fileOf held.publicKey) =
        some (V.primaryKeyId held.publicKey).keyHash := Hex.decode_encode _
    have hsha : (V.primaryKeyId held.publicKey).hashAlgorithm.algorithm = V.digestOid V.sha256 := rfl
    simp only [hfile, Codec.load_dump (hV.parse_privateEntry _), hname, hsha, ne_eq,
      not_true_eq_false, ↓reduceIte, hV.unwrap_wrap _ _ _ hwrap]
    rfl

theorem getPrivateKey_none (h : Represents V masterKey shelf listed d)
    (hno : ∀ held ∈ shelf, ¬ held.Names V k) :
    V.getPrivateKey d masterKey k = .error (.keyNotFound (Vault.hexOf k)) := by
  unfold Vault.getPrivateKey Vault.privateHexId
  by_cases hsha : k.hashAlgorithm.algorithm = V.digestOid V.sha256
  · have hfile : d.privateKeys.get? (Vault.hexOf k) = none := by
      apply h.noPrivateFile
      intro held hmem heq
      refine absurd ⟨V.sha256, List.mem_cons_self, ?_⟩ (hno held hmem)
      exact Vault.sameKeyId_iff.mpr ⟨hsha.symm, Hex.encode_inj.mp heq⟩
    rw [if_neg (not_not.mpr hsha)]
    simp only [bind, Except.bind, pure, Except.pure, hfile]
  · rw [if_pos hsha]
    simp only [bind, Except.bind, h.loadPublicEntryByKeyId_none hV hno]

/-! ## Writes -/

/-- The files after the key's own files have changed, and the index with them. -/
theorem put_files (h : Represents V masterKey shelf listed d) (held : Held δ) {d' : Disk}
    {listed' : List (KemPublicKey UInt8 × δ)} (hd : (V.sha256 :: held.digests).Nodup)
    (hpublic : ∃ salt, d'.publicKeys.get? (V.fileOf held.publicKey) =
      some (V.storedPublicKeyEntry.dump
        (V.buildStoredPublicKeyEntry masterKey (held.data V) (V.fileOf held.publicKey) salt)))
    (hpublics : ∀ name ≠ V.fileOf held.publicKey, d'.publicKeys.get? name = d.publicKeys.get? name)
    (hprivate : match held.privateKey with
      | none => d'.privateKeys.get? (V.fileOf held.publicKey) = none
      | some key => ∃ encoded, d'.privateKeys.get? (V.fileOf held.publicKey) = some encoded ∧
          V.WrapsPrivate masterKey held.publicKey key encoded)
    (hprivates : ∀ name ≠ V.fileOf held.publicKey,
      d'.privateKeys.get? name = d.privateKeys.get? name)
    (hindex : V.loadAltIndex d' masterKey =
      .ok (listed'.map fun entry => ⟨V.buildKeyId entry.1 entry.2, V.fileOf entry.1⟩))
    (hlisted : ∀ pk digest, (pk, digest) ∈ listed' ↔
      ∃ x ∈ held.put shelf, x.publicKey = pk ∧ digest ∈ x.digests) :
    Represents V masterKey (held.put shelf) listed' d' where
  distinct := by
    rintro x (rfl | ⟨hx, hne⟩) y (rfl | ⟨hy, hne'⟩) heq
    · rfl
    · exact absurd heq.symm hne'
    · exact absurd heq hne
    · exact h.distinct x hx y hy heq
  digests := by
    rintro x (rfl | ⟨hx, _⟩)
    · exact hd
    · exact h.digests x hx
  publicFile := by
    rintro x (rfl | ⟨hx, hne⟩)
    · exact hpublic
    · rw [hpublics _ fun heq => hne (hV.fileOf_inj heq)]
      exact h.publicFile x hx
  noPublicFile name hname := by
    rw [hpublics name (hname held (.inl rfl)).symm]
    apply h.noPublicFile
    intro x hx heq
    by_cases hpk : x.publicKey = held.publicKey
    · exact hname held (.inl rfl) (hpk ▸ heq)
    · exact hname x (.inr ⟨hx, hpk⟩) heq
  privateFile := by
    rintro x (rfl | ⟨hx, hne⟩) key hkey
    · rw [hkey] at hprivate
      exact hprivate
    · rw [hprivates _ fun heq => hne (hV.fileOf_inj heq)]
      exact h.privateFile x hx key hkey
  noPrivateFile name hname := by
    by_cases hfile : name = V.fileOf held.publicKey
    · rw [hname held (.inl rfl) hfile.symm] at hprivate
      rw [hfile]
      exact hprivate
    · rw [hprivates name hfile]
      apply h.noPrivateFile
      intro x hx heq
      refine hname x (.inr ⟨hx, fun hpk => hfile ?_⟩) heq
      rw [← hpk]
      exact heq.symm
  index := hindex
  listed := hlisted

omit hV in
/-- The KeyIds of the index stay those of the shelf where no digest is new. -/
theorem listed_put (h : Represents V masterKey shelf listed d) {held' : Held δ}
    (hold : ∀ x ∈ shelf, x.publicKey = held'.publicKey → x.digests = held'.digests)
    (hnew : held'.digests ≠ [] → ∃ x ∈ shelf, x.publicKey = held'.publicKey) :
    ∀ pk digest, (pk, digest) ∈ listed ↔
      ∃ x ∈ held'.put shelf, x.publicKey = pk ∧ digest ∈ x.digests := by
  intro pk digest
  rw [h.listed]
  constructor
  · rintro ⟨x, hx, rfl, hd⟩
    by_cases hpk : x.publicKey = held'.publicKey
    · exact ⟨held', .inl rfl, hpk.symm, hold x hx hpk ▸ hd⟩
    · exact ⟨x, .inr ⟨hx, hpk⟩, rfl, hd⟩
  · rintro ⟨x, rfl | ⟨hx, _⟩, rfl, hd⟩
    · obtain ⟨y, hy, hpk⟩ := hnew (List.ne_nil_of_mem hd)
      exact ⟨y, hy, hpk, hold y hy hpk ▸ hd⟩
    · exact ⟨x, hx, rfl, hd⟩

/-! ## What each method does -/

omit hV in
theorem addPublicKey_held (h : Represents V masterKey shelf listed d) (hmem : held ∈ shelf)
    (salt : Octets) : V.addPublicKey d masterKey held.publicKey salt =
      ⟨[], .error (.duplicateKey (V.fileOf held.publicKey))⟩ := by
  obtain ⟨_, hfile⟩ := h.publicFile held hmem
  have hsome : (d.publicKeys.get? (Vault.hexOf (V.primaryKeyId held.publicKey))).isSome = true := by
    rw [show Vault.hexOf (V.primaryKeyId held.publicKey) = V.fileOf held.publicKey from rfl, hfile]
    rfl
  simp only [Vault.addPublicKey, hsome, ↓reduceIte, Vault.fileOf]

theorem addPublicKey_new (h : Represents V masterKey shelf listed d) {pk : KemPublicKey UInt8}
    (hnew : ∀ held ∈ shelf, held.publicKey ≠ pk) (salt : Octets) :
    ∃ write, V.addPublicKey d masterKey pk salt = ⟨[write], .ok (V.primaryKeyId pk)⟩ ∧
      Represents V masterKey ((⟨pk, [], none⟩ : Held δ).put shelf) listed (d.write write) ∧
      (d.write write).header = d.header ∧ (d.write write).inUse = d.inUse := by
  have hname : ∀ held ∈ shelf, V.fileOf held.publicKey ≠ V.fileOf pk :=
    fun held hmem heq => hnew held hmem (hV.fileOf_inj heq)
  have hfile := h.noPublicFile _ hname
  refine ⟨.publicKey (V.fileOf pk) (V.storedPublicKeyEntry.dump (V.buildStoredPublicKeyEntry
    masterKey ⟨pk, [V.primaryKeyId pk]⟩ (V.fileOf pk) salt)), ?_, ?_, rfl, rfl⟩
  · have hnone : (d.publicKeys.get? (Vault.hexOf (V.primaryKeyId pk))).isSome = false := by
      rw [show Vault.hexOf (V.primaryKeyId pk) = V.fileOf pk from rfl, hfile]
      rfl
    simp only [Vault.addPublicKey, hnone, Bool.false_eq_true, ↓reduceIte, Vault.fileOf]
  · refine h.put_files hV ⟨pk, [], none⟩ (List.nodup_singleton _)
      ⟨salt, Dict.get?_set_self _ _ _⟩ (fun name hne => Dict.get?_set_of_ne _ hne _) ?_
      (fun _ _ => rfl) h.index (h.listed_put ?_ ?_)
    · exact h.noPrivateFile _ fun held hmem heq => absurd heq (hname held hmem)
    · exact fun x hx heq => absurd heq (hnew x hx)
    · exact fun hne => absurd rfl hne

theorem addPrivateKey_unheld (h : Represents V masterKey shelf listed d) {pk : KemPublicKey UInt8}
    (hnew : ∀ held ∈ shelf, held.publicKey ≠ pk) (key salt : Octets) :
    V.addPrivateKey d masterKey pk key salt =
      ⟨[], .error (.privateKeyRequiresPublicKey (V.fileOf pk))⟩ := by
  have hfile := h.noPublicFile (V.fileOf pk)
    fun held hmem heq => hnew held hmem (hV.fileOf_inj heq)
  have hnone : (d.publicKeys.get? (Vault.hexOf (V.primaryKeyId pk))).isNone = true := by
    rw [show Vault.hexOf (V.primaryKeyId pk) = V.fileOf pk from rfl, hfile]
    rfl
  simp only [Vault.addPrivateKey, hnone, ↓reduceIte, Vault.fileOf]

omit hV in
theorem addPrivateKey_held (h : Represents V masterKey shelf listed d) (hmem : held ∈ shelf)
    {key : Octets} (hkey : held.privateKey = some key) (key' salt : Octets) :
    V.addPrivateKey d masterKey held.publicKey key' salt =
      ⟨[], .error (.duplicateKey (V.fileOf held.publicKey))⟩ := by
  obtain ⟨_, hfile⟩ := h.publicFile held hmem
  obtain ⟨_, hprivate, _⟩ := h.privateFile held hmem key hkey
  simp only [Vault.fileOf] at hfile hprivate
  simp only [Vault.addPrivateKey, hfile, hprivate, Option.isNone_some, Bool.false_eq_true,
    Option.isSome_some, ↓reduceIte, Vault.fileOf]

/-- A new private key is stored, unless it cannot be wrapped. -/
theorem addPrivateKey_new (h : Represents V masterKey shelf listed d) (hmem : held ∈ shelf)
    (hkey : held.privateKey = none) (key salt : Octets) :
    V.addPrivateKey d masterKey held.publicKey key salt = ⟨[], .error .valueError⟩ ∨
    ∃ write, V.addPrivateKey d masterKey held.publicKey key salt =
        ⟨[write], .ok (V.primaryKeyId held.publicKey)⟩ ∧
      Represents V masterKey ({ held with privateKey := some key }.put shelf) listed
        (d.write write) ∧
      (d.write write).header = d.header ∧ (d.write write).inUse = d.inUse := by
  obtain ⟨salt', hfile⟩ := h.publicFile held hmem
  have hprivate := h.noPrivateFile (V.fileOf held.publicKey) fun x hx heq => by
    cases h.eq_of_fileOf hV hx hmem heq
    exact hkey
  have hfile' := hfile
  simp only [Vault.fileOf] at hfile' hprivate
  cases hwrap : V.wrap (V.deriveKek masterKey salt
      (V.dumpKeyId (V.primaryKeyId held.publicKey))) key with
  | none =>
    left
    simp only [Vault.addPrivateKey, hfile', hprivate, hwrap, Option.isNone_some,
      Bool.false_eq_true, Option.isSome_none, ↓reduceIte]
  | some wrapped =>
    right
    refine ⟨.privateKey (V.fileOf held.publicKey) (V.storedPrivateKeyEntry.dump
      ⟨V.primaryKeyId held.publicKey, salt, wrapAlgorithmOid, wrapped⟩), ?_, ?_, rfl, rfl⟩
    · simp only [Vault.addPrivateKey, hfile', hprivate, hwrap, Option.isNone_some,
        Bool.false_eq_true, Option.isSome_none, ↓reduceIte, Vault.fileOf]
    · refine h.put_files hV { held with privateKey := some key } (h.digests held hmem)
        ⟨salt', hfile⟩ (fun _ _ => rfl) ⟨_, Dict.get?_set_self _ _ _, salt, wrapped, hwrap, rfl⟩
        (fun name hne => Dict.get?_set_of_ne _ hne _) h.index (h.listed_put ?_ ?_)
      · intro x hx hpk
        cases h.distinct x hx held hmem hpk
        rfl
      · exact fun _ => ⟨held, hmem, rfl⟩

/-- The KeyId under a digest, where the entry lists one. -/
theorem find_keyId (pk : KemPublicKey UInt8) {digests : List δ} {digest : δ}
    (hd : digest ∈ digests) : ((digests.map (V.buildKeyId pk)).find? fun kid =>
      decide (kid.hashAlgorithm.algorithm = V.digestOid digest)) =
      some (V.buildKeyId pk digest) := by
  induction digests with
  | nil => cases hd
  | cons first digests ih =>
    by_cases heq : first = digest
    · subst heq
      exact List.find?_cons_of_pos (decide_eq_true rfl)
    · have halg : ¬ (V.buildKeyId pk first).hashAlgorithm.algorithm = V.digestOid digest :=
        fun halg => heq (hV.digestOid_inj _ _ halg)
      rw [List.map_cons, List.find?_cons_of_neg (by simpa using halg)]
      exact ih (List.mem_of_ne_of_mem (Ne.symm heq) hd)

theorem find_keyId_none (pk : KemPublicKey UInt8) {digests : List δ} {digest : δ}
    (hd : digest ∉ digests) : ((digests.map (V.buildKeyId pk)).find? fun kid =>
      decide (kid.hashAlgorithm.algorithm = V.digestOid digest)) = none := by
  rw [List.find?_eq_none]
  intro kid hkid halg
  obtain ⟨digest', hmem, rfl⟩ := List.mem_map.mp hkid
  cases hV.digestOid_inj _ _ (of_decide_eq_true halg)
  exact hd hmem

theorem keyIdFor_unknown (h : Represents V masterKey shelf listed d) {ref : KeyRef}
    (hno : ∀ held ∈ shelf, ¬ held.Names V (V.refKeyId ref)) (digest : δ) (salt altSalt : Octets) :
    V.keyIdFor d masterKey ref digest salt altSalt =
      ⟨[], .error (.keyNotFound (Vault.hexOf (V.refKeyId ref)))⟩ := by
  simp only [Vault.keyIdFor, h.loadPublicEntryByKeyId_none hV hno]

theorem keyIdFor_cached (h : Represents V masterKey shelf listed d) (hmem : held ∈ shelf)
    {ref : KeyRef} (hn : held.Names V (V.refKeyId ref)) {digest : δ}
    (hd : digest ∈ V.sha256 :: held.digests) (salt altSalt : Octets) :
    V.keyIdFor d masterKey ref digest salt altSalt =
      ⟨[], .ok (V.buildKeyId held.publicKey digest)⟩ := by
  have hfind := find_keyId hV held.publicKey hd
  simp only [Vault.keyIdFor, h.loadPublicEntryByKeyId hV hmem hn, Held.data, hfind]

theorem keyIdFor_new (h : Represents V masterKey shelf listed d) (hmem : held ∈ shelf)
    {ref : KeyRef} (hn : held.Names V (V.refKeyId ref)) {digest : δ}
    (hd : digest ∉ V.sha256 :: held.digests) (salt altSalt : Octets) :
    ∃ entry index, V.keyIdFor d masterKey ref digest salt altSalt =
        ⟨[.publicKey (V.fileOf held.publicKey) entry, .altIndex index],
          .ok (V.buildKeyId held.publicKey digest)⟩ ∧
      Represents V masterKey ({ held with digests := held.digests ++ [digest] }.put shelf)
        (listed ++ [(held.publicKey, digest)])
        ((d.write (.publicKey (V.fileOf held.publicKey) entry)).write (.altIndex index)) := by
  let held' : Held δ := { held with digests := held.digests ++ [digest] }
  let entries : List AltIndexEntry := (listed ++ [(held.publicKey, digest)]).map
    fun entry => ⟨V.buildKeyId entry.1 entry.2, V.fileOf entry.1⟩
  have hfind := find_keyId_none hV held.publicKey hd
  have hdata : held'.data V = { held.data V with
      keyIds := (held.data V).keyIds ++ [V.buildKeyId held.publicKey digest] } := by
    simp only [held', Held.data, List.map_cons, List.map_append, List.cons_append, List.map_nil]
  have hentries : entries = (listed.map fun entry =>
      (⟨V.buildKeyId entry.1 entry.2, V.fileOf entry.1⟩ : AltIndexEntry)) ++
        [⟨V.buildKeyId held.publicKey digest, V.fileOf held.publicKey⟩] := by
    simp only [entries, List.map_append, List.map_cons, List.map_nil]
  refine ⟨V.storedPublicKeyEntry.dump (V.buildStoredPublicKeyEntry masterKey (held'.data V)
      (V.fileOf held.publicKey) salt),
    V.altIndexFile.dump ⟨entries, altSalt, V.macAltIndex masterKey entries altSalt⟩, ?_, ?_⟩
  · have hload : ∀ write : Octets × Octets, V.loadAltIndex
        (d.write (.publicKey write.1 write.2)) masterKey = V.loadAltIndex d masterKey :=
      fun _ => rfl
    have hhead : Vault.hexOf (((held.data V).keyIds ++ [V.buildKeyId held.publicKey digest]).headD
        (V.buildKeyId held.publicKey digest)) = V.fileOf held.publicKey := rfl
    simp only [Vault.keyIdFor, h.loadPublicEntryByKeyId hV hmem hn, Vault.altIndexAdd,
      hload (_, _), h.index, hentries, hdata, Except.map]
    rw [show (held.data V).keyIds.find? _ = none from hfind]
    rfl
  · have hnodup : (V.sha256 :: held'.digests).Nodup := by
      rw [show V.sha256 :: held'.digests = (V.sha256 :: held.digests) ++ [digest] from rfl]
      exact List.Nodup.append (h.digests held hmem) (List.nodup_singleton _)
        (List.disjoint_singleton.mpr hd)
    have hprivate : match held'.privateKey with
        | none => d.privateKeys.get? (V.fileOf held.publicKey) = none
        | some key => ∃ encoded, d.privateKeys.get? (V.fileOf held.publicKey) = some encoded ∧
            V.WrapsPrivate masterKey held.publicKey key encoded := by
      cases hkey : held.privateKey with
      | none =>
        refine h.noPrivateFile _ fun x hx heq => ?_
        cases h.eq_of_fileOf hV hx hmem heq
        exact hkey
      | some key => exact h.privateFile held hmem key hkey
    refine h.put_files hV held' hnodup ⟨salt, Dict.get?_set_self _ _ _⟩
      (fun name hne => Dict.get?_set_of_ne _ hne _) hprivate (fun _ _ => rfl) ?_ ?_
    · simp only [Vault.loadAltIndex, Disk.write, Codec.load_dump (hV.parse_altIndex _), bind,
        Except.bind, ↓reduceIte, pure, Except.pure, entries]
    · intro pk digest'
      simp only [List.mem_append, List.mem_singleton, h.listed]
      constructor
      · rintro (⟨x, hx, rfl, hdx⟩ | heq)
        · by_cases hpk : x.publicKey = held.publicKey
          · cases h.distinct x hx held hmem hpk
            exact ⟨held', .inl rfl, rfl, List.mem_append_left _ hdx⟩
          · exact ⟨x, .inr ⟨hx, hpk⟩, rfl, hdx⟩
        · cases heq
          exact ⟨held', .inl rfl, rfl, List.mem_append_right _ List.mem_cons_self⟩
      · rintro ⟨x, rfl | ⟨hx, _⟩, rfl, hdx⟩
        · rcases List.mem_append.mp hdx with hdx | hdx
          · exact .inl ⟨held, hmem, rfl, hdx⟩
          · exact .inr (by rw [List.mem_singleton.mp hdx])
        · exact .inl ⟨x, hx, rfl, hdx⟩

end Represents

end KemMake
