import KemMake.Stopping

/-!
# A key directory is a faithful key store

In a run of whole calls, the directory answers from what has been added: the keys by every
KeyId that is theirs, and nothing else.
-/

namespace KemMake

section
variable {δ : Type} (V : Vault δ)

/-- The KeyId is the primary one of an added key, or `key_id_for` has returned it. -/
def Keep.Known (s : Keep) (k : KeyId UInt8) : Prop :=
  (∃ pk ∈ s.added, Vault.sameKeyId (V.primaryKeyId pk) k = true) ∨
    ∃ entry ∈ s.issued, Vault.sameKeyId entry.2 k = true

/-- An entry with the KeyIds of its own key, SHA-256 first and one a digest algorithm. -/
def PublicKeyEntryData.WellFormed (data : PublicKeyEntryData) : Prop :=
  data.keyIds.head? = some (V.primaryKeyId data.publicKey) ∧
    (data.keyIds.map (·.hashAlgorithm.algorithm)).Nodup ∧
    ∀ k ∈ data.keyIds, ∃ digest, k = V.buildKeyId data.publicKey digest

structure Keep.Faithful (s : Keep) (masterKey : Octets) : Prop where
  known : ∀ k, s.Known V k → ∃ pk ∈ s.added, V.IsKeyIdOf pk k ∧
    V.getPublicKey s.disk masterKey k = .ok pk
  unknown : ∀ k, k.keyHash.length ≤ 64 → ¬ s.Known V k →
    V.getPublicKey s.disk masterKey k = .error (.keyNotFound (Vault.hexOf k))
  secret : ∀ pk key, (pk, key) ∈ s.secrets → ∀ k, s.Known V k → V.IsKeyIdOf pk k →
    V.getPrivateKey s.disk masterKey k = .ok key
  onlySecrets : ∀ k key, k.keyHash.length ≤ 64 → V.getPrivateKey s.disk masterKey k = .ok key →
    ∃ pk, (pk, key) ∈ s.secrets ∧ V.IsKeyIdOf pk k
  entries : ∀ name encoded, s.disk.publicKeys.get? name = some encoded → ∃ stored,
    V.storedPublicKeyEntry.load encoded = .ok stored ∧ stored.data.publicKey ∈ s.added ∧
      stored.data.WellFormed V
  failedAdd : ∀ pk salt x, (V.addPublicKey s.disk masterKey pk salt).result = .error x →
    (V.addPublicKey s.disk masterKey pk salt).writes = []
  failedSecret : ∀ pk key salt x,
    (V.addPrivateKey s.disk masterKey pk key salt).result = .error x →
      (V.addPrivateKey s.disk masterKey pk key salt).writes = []

end

section
variable {δ : Type} {V : Vault δ} {masterKey : Octets} {shelf : Set (Held δ)} {s : Keep}
  {held : Held δ} {k : KeyId UInt8}

theorem Held.Names.isKeyIdOf (hn : held.Names V k) : V.IsKeyIdOf held.publicKey k := by
  obtain ⟨digest, _, hs⟩ := hn
  exact ⟨digest, hs⟩

/-- Two KeyIds that lookups take for the same are of the same key. -/
theorem Held.Names.of_same {k' : KeyId UInt8} {digest : δ} (hd : digest ∈ V.sha256 :: held.digests)
    (hk : k' = V.buildKeyId held.publicKey digest) (hs : Vault.sameKeyId k' k = true) :
    held.Names V k :=
  ⟨digest, hd, hk ▸ hs⟩

theorem Shelved.known (h : Shelved V masterKey shelf s) (hk : s.Known V k) :
    ∃ held ∈ shelf, held.Names V k := by
  rcases hk with ⟨pk, hpk, hs⟩ | ⟨entry, hentry, hs⟩
  · obtain ⟨held, hmem, rfl⟩ := h.recorded.added pk hpk
    exact ⟨held, hmem, V.sha256, List.mem_cons_self, hs⟩
  · obtain ⟨held, hmem, _, digest, hd, heq⟩ := h.recorded.issued entry hentry
    exact ⟨held, hmem, .of_same hd heq hs⟩

theorem Accounted.known (ha : Accounted V shelf s) (hmem : held ∈ shelf) (hn : held.Names V k) :
    s.Known V k := by
  obtain ⟨digest, hd, hs⟩ := hn
  rcases List.mem_cons.mp hd with rfl | hd
  · exact .inl ⟨held.publicKey, ha.added held hmem, hs⟩
  · obtain ⟨ref, hin⟩ := ha.issued held hmem digest hd
    exact .inr ⟨_, hin, hs⟩

theorem Held.data_wellFormed (hV : V.Correct) (hd : (V.sha256 :: held.digests).Nodup) :
    (held.data V).WellFormed V := by
  refine ⟨rfl, ?_, ?_⟩
  · have halg : (held.data V).keyIds.map (·.hashAlgorithm.algorithm) =
        (V.sha256 :: held.digests).map V.digestOid := by
      rw [Held.data, List.map_map]
      rfl
    rw [halg]
    exact hd.map fun a b => hV.digestOid_inj a b
  · intro k hk
    obtain ⟨digest, _, rfl⟩ := List.mem_map.mp hk
    exact ⟨digest, rfl⟩

theorem Vault.addPublicKey_failed (d : Disk) (pk : KemPublicKey UInt8) (salt : Octets)
    {x : KeystoreError} (h : (V.addPublicKey d masterKey pk salt).result = .error x) :
    (V.addPublicKey d masterKey pk salt).writes = [] := by
  unfold Vault.addPublicKey at h ⊢
  dsimp only at h ⊢
  split
  · rfl
  · rename_i hfile
    rw [if_neg hfile] at h
    cases h

theorem Vault.addPrivateKey_failed (d : Disk) (pk : KemPublicKey UInt8) (key salt : Octets)
    {x : KeystoreError} (h : (V.addPrivateKey d masterKey pk key salt).result = .error x) :
    (V.addPrivateKey d masterKey pk key salt).writes = [] := by
  unfold Vault.addPrivateKey at h ⊢
  dsimp only at h ⊢
  split
  · rfl
  · rename_i hfile
    rw [if_neg hfile] at h
    split
    · rfl
    · rename_i hprivate
      rw [if_neg hprivate] at h
      split
      · rfl
      · rename_i hwrap
        rw [hwrap] at h
        cases h

theorem Shelved.faithful (hV : V.Correct) (h : Shelved V masterKey shelf s)
    (ha : Accounted V shelf s) : s.Faithful V masterKey := by
  obtain ⟨listed, hr⟩ := h.represents
  constructor
  · intro k hk
    obtain ⟨held, hmem, hn⟩ := h.known hk
    exact ⟨held.publicKey, ha.added held hmem, hn.isKeyIdOf, hr.getPublicKey hV hmem hn⟩
  · intro k _ hk
    exact hr.getPublicKey_none hV fun held hmem hn => hk (ha.known hmem hn)
  · intro pk key hin k hk hof
    obtain ⟨held, hmem, hn⟩ := h.known hk
    obtain ⟨held', hmem', rfl, hkey⟩ := h.recorded.secrets (pk, key) hin
    obtain ⟨_, hs⟩ := hof
    obtain ⟨_, hs'⟩ := hn.isKeyIdOf
    cases hr.distinct held' hmem' held hmem (hV.sameKeyId_inj hs hs').1
    rw [hr.getPrivateKey hV hmem hn, hkey]
  · intro k key _ hget
    by_cases hn : ∃ held ∈ shelf, held.Names V k
    · obtain ⟨held, hmem, hn⟩ := hn
      rw [hr.getPrivateKey hV hmem hn] at hget
      cases hkey : held.privateKey with
      | none =>
        rw [hkey] at hget
        cases hget
      | some key' =>
        rw [hkey] at hget
        cases hget
        exact ⟨held.publicKey, ha.secrets held hmem key hkey, hn.isKeyIdOf⟩
    · rw [hr.getPrivateKey_none hV fun held hmem h => hn ⟨held, hmem, h⟩] at hget
      cases hget
  · intro name encoded hfile
    obtain ⟨held, hmem, stored, hload, hdata⟩ := hr.publicEntry hV hfile
    refine ⟨stored, hload, ?_, ?_⟩
    · rw [hdata]
      exact ha.added held hmem
    · rw [hdata]
      exact Held.data_wellFormed hV (hr.digests held hmem)
  · exact fun pk salt x hx => Vault.addPublicKey_failed s.disk pk salt hx
  · exact fun pk key salt x hx => Vault.addPrivateKey_failed s.disk pk key salt hx

/-- In every run of whole calls, the open instance answers from what has been added. -/
theorem KeyRun.lookup_faithful (hV : V.Correct) (h : KeyRun V (fun _ _ => False) s)
    (hopen : s.masterKey = some masterKey) : s.Faithful V masterKey := by
  rcases h.shelved hV (fun _ _ hno => hno.elim) with hf | ⟨key, shelf, hs, ha⟩
  · rw [hf.masterKey] at hopen
    cases hopen
  · cases hs.instanceKey masterKey hopen
    exact hs.faithful hV (ha fun _ _ hno => hno)

/-- A key with a second KeyId, after the directory has been reopened. -/
theorem faithful_reopened : (((Plain.oneKey.perform Plain.vault
    (.keyIdFor (.publicKey Plain.publicKeyA) .sha384 [4] [5])).perform Plain.vault
    .close).perform Plain.vault (.openDirectory [1])).Faithful Plain.vault
      (Code.pack [[1], [2]]) :=
  KeyRun.lookup_faithful Plain.correct
    (.perform _ (.perform _ (.perform _ (.perform _ (.perform _ .initial))))) (by decide +kernel)

end

end KemMake
