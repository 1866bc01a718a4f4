import KemMake.Keeping
import KemMake.Plain

/-!
# Tampering with a key directory

Between two calls an attacker may leave any files whatever. What it cannot do is compute with
the keys that come of the master key: a file whose MAC verifies bears one that this module has
computed, and a private key that unwraps has been wrapped by this module. `macs` and `wraps`
are the keys and inputs of those computations.
-/

namespace KemMake

namespace Vault
variable {δ : Type} (V : Vault δ)

/-- Keys of one salt and info come of those alone, and distinct contents have distinct DER. -/
structure Separates : Prop where
  hkdf_inj : ∀ masterKey masterKey' salt salt' info info',
    V.hkdf masterKey salt info = V.hkdf masterKey' salt' info' → salt = salt' ∧ info = info'
  dumpKeyId_inj : ∀ a b, V.dumpKeyId a = V.dumpKeyId b → a = b
  dumpEntryData_inj : ∀ a b, V.dumpEntryData a = V.dumpEntryData b → a = b
  parse_publicEntry : ∀ x, V.storedPublicKeyEntry.parse (V.storedPublicKeyEntry.dump x) = some x

/-- The HMAC computation whose tag a file of this module bears. -/
def maced (masterKey : Octets) : Write → List (Octets × Octets)
  | .header data => (V.keystoreHeader.parse data).toList.map fun header =>
    (V.hkdf masterKey header.kdfSalt domainCheck, checkValue)
  | .publicKey hexId data => (V.storedPublicKeyEntry.parse data).toList.map fun stored =>
    (V.derivePublicKeyMacKey masterKey stored.macSalt hexId, V.dumpEntryData stored.data)
  | .altIndex data => (V.altIndexFile.parse data).toList.map fun file =>
    (V.deriveAltIndexMacKey masterKey file.macSalt, V.dumpAltIndex file.entries)
  | .directories => []
  | .privateKey _ _ => []

/-- No MAC is forged and no wrapped key either. The index needs no such promise. -/
structure Unforged (masterKey : Octets) (macs wraps : List (Octets × Octets)) (d : Disk) :
    Prop where
  publicKeys : ∀ name encoded stored, d.publicKeys.get? name = some encoded →
    V.storedPublicKeyEntry.load encoded = .ok stored →
    stored.macTag = V.macPublicKeyData masterKey stored.data stored.macSalt name →
    (V.derivePublicKeyMacKey masterKey stored.macSalt name, V.dumpEntryData stored.data) ∈ macs
  privateKeys : ∀ name encoded stored key, d.privateKeys.get? name = some encoded →
    V.storedPrivateKeyEntry.load encoded = .ok stored →
    V.unwrap (V.deriveKek masterKey stored.kekSalt (V.dumpKeyId stored.keyId))
      stored.wrappedKey = some key →
    (V.deriveKek masterKey stored.kekSalt (V.dumpKeyId stored.keyId), key) ∈ wraps

end Vault

namespace Keep
variable {δ : Type} (V : Vault δ) (s : Keep)

/-- The MACs of a call, under the master key that the instance has then. -/
def macedBy (op : KeyOp δ) : List (Octets × Octets) :=
  (s.perform V op).masterKey.toList.flatMap fun masterKey =>
    (s.effect V op).writes.flatMap (V.maced masterKey)

/-- The wraps of a call: `add_private_key` wraps what it is given, unless it raises. -/
def wrappedBy : KeyOp δ → List (Octets × Octets)
  | .addPrivateKey key privateKeyBytes kekSalt =>
    s.masterKey.toList.flatMap fun masterKey =>
      match (V.addPrivateKey s.disk masterKey key privateKeyBytes kekSalt).result with
      | .ok primary => [(V.deriveKek masterKey kekSalt (V.dumpKeyId primary), privateKeyBytes)]
      | .error _ => []
  | _ => []

end Keep

/-- Runs of whole calls, with any change to the files between them. -/
inductive AttackRun {δ : Type} (V : Vault δ) :
    Keep → List (Octets × Octets) → List (Octets × Octets) → Prop
  | initial : AttackRun V {} [] []
  | perform {s : Keep} {macs wraps : List (Octets × Octets)} (op : KeyOp δ) :
      AttackRun V s macs wraps →
      (∀ masterKey, s.masterKey = some masterKey → V.Unforged masterKey macs wraps s.disk) →
      AttackRun V (s.perform V op) (macs ++ s.macedBy V op) (wraps ++ s.wrappedBy V op)
  | attack {s : Keep} {macs wraps : List (Octets × Octets)} (disk : Disk) :
      AttackRun V s macs wraps → AttackRun V { s with disk } macs wraps

/-! ## What has been signed -/

section
variable {δ : Type} (V : Vault δ)

/-- An entry of an added key under the name of that key, with KeyIds of its own. -/
structure GenuineEntry (added : List (KemPublicKey UInt8)) (name : Octets)
    (data : PublicKeyEntryData) : Prop where
  added : data.publicKey ∈ added
  name : V.fileOf data.publicKey = name
  primary : data.keyIds.head? = some (V.primaryKeyId data.publicKey)
  own : ∀ k ∈ data.keyIds, ∃ digest, k = V.buildKeyId data.publicKey digest

/-- A MAC under the key of an entry is over the contents of a genuine one. -/
def Signs (added : List (KemPublicKey UInt8)) (mac : Octets × Octets) : Prop :=
  ∀ masterKey salt name data,
    mac = (V.derivePublicKeyMacKey masterKey salt name, V.dumpEntryData data) →
      GenuineEntry V added name data

/-- What is wrapped is the private key of the key that its KEK names. -/
def Wraps (secrets : List (KemPublicKey UInt8 × Octets)) (wrap : Octets × Octets) : Prop :=
  ∃ pk masterKey salt, (pk, wrap.2) ∈ secrets ∧
    wrap.1 = V.deriveKek masterKey salt (V.dumpKeyId (V.primaryKeyId pk))

end

section
variable {δ : Type} {V : Vault δ} {s : Keep} {masterKey : Octets}
  {macs wraps : List (Octets × Octets)} {added added' : List (KemPublicKey UInt8)}

theorem GenuineEntry.mono (hsub : added ⊆ added') {name : Octets} {data : PublicKeyEntryData}
    (h : GenuineEntry V added name data) : GenuineEntry V added' name data :=
  ⟨hsub h.added, h.name, h.primary, h.own⟩

theorem Signs.mono (hsub : added ⊆ added') {mac : Octets × Octets} (h : Signs V added mac) :
    Signs V added' mac :=
  fun masterKey salt name data heq => (h masterKey salt name data heq).mono hsub

theorem genuine_new (pk : KemPublicKey UInt8) (hmem : pk ∈ added) :
    GenuineEntry V added (V.fileOf pk) ⟨pk, [V.primaryKeyId pk]⟩ where
  added := hmem
  name := rfl
  primary := rfl
  own _ hk := ⟨V.sha256, List.mem_singleton.mp hk⟩

theorem GenuineEntry.append {name : Octets} {data : PublicKeyEntryData} (h : GenuineEntry V added name data)
    (digest : δ) : GenuineEntry V added name
      { data with keyIds := data.keyIds ++ [V.buildKeyId data.publicKey digest] } where
  added := h.added
  name := h.name
  primary := by
    rw [List.head?_append, h.primary]
    rfl
  own k hk := by
    rcases List.mem_append.mp hk with hk | hk
    · exact h.own k hk
    · exact ⟨digest, List.mem_singleton.mp hk⟩

/-- The keys of the other MACs are not those of an entry: the domain labels differ. -/
theorem domains_differ (name : Octets) : domainCheck ≠ domainPublicKeyMac ++ name ∧
    domainAltIndexMac ≠ domainPublicKeyMac ++ name := by
  have hlabel : (domainPublicKeyMac ++ name).take 19 = domainPublicKeyMac.take 19 :=
    List.take_append_of_le_length (by decide)
  constructor
  · intro h
    rw [← h] at hlabel
    exact absurd hlabel (by decide)
  · intro h
    rw [← h] at hlabel
    exact absurd hlabel (by decide)

theorem signs_other (hS : V.Separates) {salt info message : Octets}
    (hinfo : ∀ name, info ≠ domainPublicKeyMac ++ name) :
    Signs V added (V.hkdf masterKey salt info, message) := by
  intro masterKey' salt' name data heq
  exact absurd (hS.hkdf_inj _ _ _ _ _ _ (Prod.mk.inj heq).1).2 (hinfo name)

theorem signs_entry (hS : V.Separates) {salt name : Octets} {data : PublicKeyEntryData}
    (h : GenuineEntry V added name data) : Signs V added
      (V.derivePublicKeyMacKey masterKey salt name, V.dumpEntryData data) := by
  intro masterKey' salt' name' data' heq
  obtain ⟨hkey, hdata⟩ := Prod.mk.inj heq
  cases hS.dumpEntryData_inj _ _ hdata
  rw [← List.append_cancel_left (hS.hkdf_inj _ _ _ _ _ _ hkey).2]
  exact h

/-- What a file of the module signs, where it signs an entry. -/
theorem signs_write (hS : V.Separates) {w : Write}
    (hw : ∀ name encoded, w = .publicKey name encoded → ∃ stored,
      encoded = V.storedPublicKeyEntry.dump stored ∧ GenuineEntry V added name stored.data) :
    ∀ mac ∈ V.maced masterKey w, Signs V added mac := by
  intro mac hmac
  cases w with
  | directories | privateKey => cases hmac
  | header data =>
    obtain ⟨header, _, rfl⟩ := List.mem_map.mp hmac
    exact signs_other hS fun name => (domains_differ name).1
  | altIndex data =>
    obtain ⟨file, _, rfl⟩ := List.mem_map.mp hmac
    exact signs_other hS fun name => (domains_differ name).2
  | publicKey name data =>
    obtain ⟨stored, rfl, hg⟩ := hw name data rfl
    obtain ⟨stored', hin, rfl⟩ := List.mem_map.mp hmac
    rw [hS.parse_publicEntry] at hin
    cases List.mem_singleton.mp hin
    exact signs_entry hS hg

/-! ## What verifies -/

theorem readPublicEntry_genuine (hmacs : ∀ mac ∈ macs, Signs V added mac) {d : Disk}
    (hforge : V.Unforged masterKey macs wraps d) {name : Octets} {data : PublicKeyEntryData}
    (h : V.readPublicEntry d masterKey name = .ok (some data)) : GenuineEntry V added name data := by
  unfold Vault.readPublicEntry at h
  split at h
  · cases h
  · rename_i encoded hfile
    cases hload : V.storedPublicKeyEntry.load encoded with
    | error x =>
      rw [hload] at h
      cases h
    | ok stored =>
      rw [hload] at h
      change (V.verifyAndGetData masterKey stored name >>= fun data => pure (some data)) = _ at h
      unfold Vault.verifyAndGetData at h
      split at h
      · rename_i htag
        cases h
        exact hmacs _ (hforge.publicKeys name encoded stored hfile hload htag) masterKey
          stored.macSalt name stored.data rfl
      · cases h

/-- An entry that a lookup returns is genuine and lists the KeyId, whatever the index says. -/
theorem load_genuine (hmacs : ∀ mac ∈ macs, Signs V added mac) {d : Disk}
    (hforge : V.Unforged masterKey macs wraps d) {k : KeyId UInt8} {data : PublicKeyEntryData}
    (h : V.loadPublicEntryByKeyId d masterKey k = .ok data) :
    GenuineEntry V added (V.fileOf data.publicKey) data ∧ V.IsKeyIdOf data.publicKey k := by
  have hfound : ∀ name, V.readPublicEntry d masterKey name = .ok (some data) →
      (data.keyIds.any fun kid => Vault.sameKeyId kid k) = true →
      GenuineEntry V added (V.fileOf data.publicKey) data ∧ V.IsKeyIdOf data.publicKey k := by
    intro name hread hany
    have hg := readPublicEntry_genuine hmacs hforge hread
    obtain ⟨kid, hkid, hs⟩ := List.any_eq_true.mp hany
    obtain ⟨digest, rfl⟩ := hg.own kid hkid
    exact ⟨⟨hg.added, rfl, hg.primary, hg.own⟩, digest, hs⟩
  have hindex : ∀ x, Vault.loadPublicEntryByKeyId.byIndex V d masterKey k x = .ok data →
      GenuineEntry V added (V.fileOf data.publicKey) data ∧ V.IsKeyIdOf data.publicKey k := by
    intro x hx
    unfold Vault.loadPublicEntryByKeyId.byIndex at hx
    cases hl : V.altIndexLookup d masterKey k with
    | error y =>
      rw [hl] at hx
      cases hx
    | ok found =>
      rw [hl] at hx
      cases found with
      | none => cases hx
      | some name =>
        cases hread : V.readPublicEntry d masterKey name with
        | error y =>
          simp only [hread, bind, Except.bind] at hx
          cases hx
        | ok found =>
          simp only [hread, bind, Except.bind] at hx
          split at hx
          · split at hx
            · rename_i hany
              cases hx
              exact hfound name hread hany
            · cases hx
          · cases hx
  unfold Vault.loadPublicEntryByKeyId at h
  cases hread : V.readPublicEntry d masterKey (Vault.hexOf k) with
  | error y =>
    rw [hread] at h
    cases h
  | ok found =>
    rw [hread] at h
    simp only [bind, Except.bind] at h
    split at h
    · split at h
      · rename_i hany
        cases h
        exact hfound _ hread hany
      · exact hindex _ h
    · exact hindex _ h

/-! ## What a call signs and wraps -/

theorem altIndexAdd_writes (d : Disk) (keyId : KeyId UInt8) (primaryHex salt : Octets) :
    ∀ w ∈ (V.altIndexAdd d masterKey keyId primaryHex salt).writes, ∃ data, w = .altIndex data := by
  intro w hw
  unfold Vault.altIndexAdd at hw
  split at hw
  · cases hw
  · exact ⟨_, List.mem_singleton.mp hw⟩

theorem keyIdFor_cases (V : Vault δ) (masterKey : Octets) (d : Disk) (ref : KeyRef) (digest : δ) (salt altSalt : Octets) :
    (∃ x, V.keyIdFor d masterKey ref digest salt altSalt = ⟨[], .error x⟩) ∨
    ∃ data, V.loadPublicEntryByKeyId d masterKey (V.refKeyId ref) = .ok data ∧
      ((∃ kid ∈ data.keyIds, kid.hashAlgorithm.algorithm = V.digestOid digest ∧
        V.keyIdFor d masterKey ref digest salt altSalt = ⟨[], .ok kid⟩) ∨
      ∃ added : Effect Unit, (∀ w ∈ added.writes, ∃ index, w = .altIndex index) ∧
        let newKid := V.buildKeyId data.publicKey digest
        let primaryHex := Vault.hexOf ((data.keyIds ++ [newKid]).headD newKid)
        V.keyIdFor d masterKey ref digest salt altSalt =
          ⟨.publicKey primaryHex (V.storedPublicKeyEntry.dump (V.buildStoredPublicKeyEntry masterKey
            { data with keyIds := data.keyIds ++ [newKid] } primaryHex salt)) :: added.writes,
            added.result.map fun _ => newKid⟩) := by
  unfold Vault.keyIdFor
  cases hload : V.loadPublicEntryByKeyId d masterKey (V.refKeyId ref) with
  | error x => exact .inl ⟨x, rfl⟩
  | ok data =>
    refine .inr ⟨data, rfl, ?_⟩
    dsimp only
    split
    · rename_i kid hfind
      have halg : kid.hashAlgorithm.algorithm = V.digestOid digest := by
        simpa using List.find?_some hfind
      exact .inl ⟨kid, List.mem_of_find?_eq_some hfind, halg, rfl⟩
    · exact .inr ⟨_, altIndexAdd_writes _ _ _ _, rfl⟩

theorem Keep.onInstance_writes {call : Octets → Effect (Keep → Keep)} {w : Write}
    (hw : w ∈ (s.onInstance call).writes) :
    ∃ masterKey, s.masterKey = some masterKey ∧ w ∈ (call masterKey).writes := by
  unfold Keep.onInstance at hw
  cases hkey : s.masterKey with
  | none =>
    rw [hkey] at hw
    cases hw
  | some key =>
    rw [hkey] at hw
    exact ⟨key, rfl, hw⟩

/-- The entries that a call writes are genuine. `key_id_for` writes one that it has read. -/
theorem effect_genuine (hmacs : ∀ mac ∈ macs, Signs V s.added mac)
    (hforge : ∀ masterKey, s.masterKey = some masterKey → V.Unforged masterKey macs wraps s.disk)
    (op : KeyOp δ) {name encoded : Octets}
    (hw : .publicKey name encoded ∈ (s.effect V op).writes) : ∃ stored,
      encoded = V.storedPublicKeyEntry.dump stored ∧
        GenuineEntry V (s.perform V op).added name stored.data := by
  cases op with
  | create passphrase kdfSalt iterations =>
    change .publicKey name encoded ∈ (V.create s.disk passphrase kdfSalt iterations).writes at hw
    unfold Vault.create at hw
    split at hw
    · cases hw
    · split at hw
      · simp at hw
      · simp at hw
  | openDirectory | close => cases hw
  | addPublicKey pk salt =>
    obtain ⟨masterKey, hkey, hin⟩ := Keep.onInstance_writes hw
    change .publicKey name encoded ∈ (V.addPublicKey s.disk masterKey pk salt).writes at hin
    have heff : (V.addPublicKey s.disk masterKey pk salt).writes = [] ∨
        V.addPublicKey s.disk masterKey pk salt = ⟨[.publicKey (V.fileOf pk)
          (V.storedPublicKeyEntry.dump (V.buildStoredPublicKeyEntry masterKey
            ⟨pk, [V.primaryKeyId pk]⟩ (V.fileOf pk) salt))], .ok (V.primaryKeyId pk)⟩ := by
      unfold Vault.addPublicKey
      dsimp only
      split
      · exact .inl rfl
      · exact .inr rfl
    rcases heff with heff | heff
    · rw [heff] at hin
      cases hin
    · rw [heff] at hin
      have hadded : (s.perform V (.addPublicKey pk salt)).added = s.added ++ [pk] := by
        simp only [Keep.perform, Keep.effect, Keep.onInstance, hkey, heff, Effect.map, Except.map]
      cases List.mem_singleton.mp hin
      refine ⟨_, rfl, ?_⟩
      rw [hadded]
      exact genuine_new pk (List.mem_append_right _ List.mem_cons_self)
  | addPrivateKey pk secret salt =>
    obtain ⟨masterKey, _, hin⟩ := Keep.onInstance_writes hw
    change .publicKey name encoded ∈ (V.addPrivateKey s.disk masterKey pk secret salt).writes at hin
    unfold Vault.addPrivateKey at hin
    dsimp only at hin
    split at hin
    · cases hin
    · split at hin
      · cases hin
      · split at hin
        · cases hin
        · simp at hin
  | keyIdFor ref digest salt altSalt =>
    obtain ⟨masterKey, hkey, hin⟩ := Keep.onInstance_writes hw
    change .publicKey name encoded ∈
      (V.keyIdFor s.disk masterKey ref digest salt altSalt).writes at hin
    have hadded : (s.perform V (.keyIdFor ref digest salt altSalt)).added = s.added := by
      simp only [Keep.perform, Keep.effect, Keep.onInstance, hkey, Effect.map]
      cases (V.keyIdFor s.disk masterKey ref digest salt altSalt).result <;> rfl
    rw [hadded]
    rcases keyIdFor_cases V masterKey s.disk ref digest salt altSalt with ⟨x, heff⟩ | ⟨data, hload, hcase⟩
    · rw [heff] at hin
      cases hin
    · obtain ⟨kid, _, _, heff⟩ | ⟨added, hindex, heff⟩ := hcase
      · rw [heff] at hin
        cases hin
      · rw [heff] at hin
        rcases List.mem_cons.mp hin with heq | hin
        · obtain ⟨hg, _⟩ := load_genuine hmacs (hforge masterKey hkey) hload
          have hhead : (data.keyIds ++ [V.buildKeyId data.publicKey digest]).headD
              (V.buildKeyId data.publicKey digest) = V.primaryKeyId data.publicKey := by
            rw [List.headD_eq_head?_getD, (hg.append digest).primary]
            rfl
          cases heq
          refine ⟨_, rfl, ?_⟩
          rw [hhead]
          exact hg.append digest
        · obtain ⟨index, heq⟩ := hindex _ hin
          cases heq

theorem wrappedBy_wraps (op : KeyOp δ) :
    ∀ wrap ∈ s.wrappedBy V op, Wraps V (s.perform V op).secrets wrap := by
  intro wrap hwrap
  cases op with
  | addPrivateKey pk secret salt =>
    obtain ⟨masterKey, hkey, hin⟩ := List.mem_flatMap.mp hwrap
    have hkey : s.masterKey = some masterKey := Option.mem_toList.mp hkey
    cases hresult : (V.addPrivateKey s.disk masterKey pk secret salt).result with
    | error x =>
      rw [hresult] at hin
      cases hin
    | ok primary =>
      rw [hresult] at hin
      have hprimary : primary = V.primaryKeyId pk := by
        unfold Vault.addPrivateKey at hresult
        dsimp only at hresult
        split at hresult
        · cases hresult
        · split at hresult
          · cases hresult
          · split at hresult
            · cases hresult
            · exact (Except.ok.inj hresult).symm
      have hsecrets : (s.perform V (.addPrivateKey pk secret salt)).secrets =
          s.secrets ++ [(pk, secret)] := by
        simp only [Keep.perform, Keep.effect, Keep.onInstance, hkey, Effect.map, hresult,
          Except.map]
      cases List.mem_singleton.mp hin
      refine ⟨pk, masterKey, salt, ?_, by rw [hprimary]⟩
      rw [hsecrets]
      exact List.mem_append_right _ List.mem_cons_self
  | create | openDirectory | close | addPublicKey | keyIdFor => cases hwrap

/-- Whatever the attacker does, the module signs genuine entries only, and wraps what it is given. -/
theorem AttackRun.guarded (hS : V.Separates) (h : AttackRun V s macs wraps) :
    (∀ mac ∈ macs, Signs V s.added mac) ∧ ∀ wrap ∈ wraps, Wraps V s.secrets wrap := by
  induction h with
  | initial =>
    constructor
    · intro mac hmac
      cases hmac
    · intro wrap hwrap
      cases hwrap
  | attack disk _ ih => exact ih
  | @perform s macs wraps op _ hforge ih =>
    have hfollows : (s.perform V op).Follows
        { s with disk := s.disk.writes (s.effect V op).writes } := Keep.perform_follows
    constructor
    · intro mac hmac
      rcases List.mem_append.mp hmac with hmac | hmac
      · exact (ih.1 mac hmac).mono hfollows.added
      · obtain ⟨masterKey, _, hin⟩ := List.mem_flatMap.mp hmac
        obtain ⟨w, hw, hin⟩ := List.mem_flatMap.mp hin
        refine signs_write hS (fun name encoded heq => ?_) mac hin
        exact effect_genuine ih.1 hforge op (heq ▸ hw)
    · intro wrap hwrap
      rcases List.mem_append.mp hwrap with hwrap | hwrap
      · obtain ⟨pk, masterKey, salt, hin, heq⟩ := ih.2 wrap hwrap
        exact ⟨pk, masterKey, salt, hfollows.secrets hin, heq⟩
      · exact wrappedBy_wraps op wrap hwrap

/-! ## What comes back -/

/-- No lookup returns a wrong key, and no KeyId of a wrong key. -/
theorem AttackRun.public_key (hV : V.CollisionFree) (hS : V.Separates)
    (h : AttackRun V s macs wraps) (hforge : V.Unforged masterKey macs wraps s.disk) :
    (∀ k pk, V.getPublicKey s.disk masterKey k = .ok pk → pk ∈ s.added ∧ V.IsKeyIdOf pk k) ∧
    ∀ ref digest salt altSalt k,
      (V.keyIdFor s.disk masterKey ref digest salt altSalt).result = .ok k →
      ∃ pk ∈ s.added, V.IsKeyIdOf pk (V.refKeyId ref) ∧ k = V.buildKeyId pk digest := by
  have hmacs := (h.guarded hS).1
  constructor
  · intro k pk hget
    unfold Vault.getPublicKey at hget
    cases hload : V.loadPublicEntryByKeyId s.disk masterKey k with
    | error x =>
      rw [hload] at hget
      cases hget
    | ok data =>
      rw [hload] at hget
      cases hget
      obtain ⟨hg, hk⟩ := load_genuine hmacs hforge hload
      exact ⟨hg.added, hk⟩
  · intro ref digest salt altSalt k hresult
    obtain ⟨x, heff⟩ | ⟨data, hload, hcase⟩ := keyIdFor_cases V masterKey s.disk ref
      digest salt altSalt
    · rw [heff] at hresult
      cases hresult
    · obtain ⟨hg, hk⟩ := load_genuine hmacs hforge hload
      refine ⟨data.publicKey, hg.added, hk, ?_⟩
      obtain ⟨kid, hkid, halg, heff⟩ | ⟨added, _, heff⟩ := hcase
      · rw [heff] at hresult
        cases hresult
        obtain ⟨digest', rfl⟩ := hg.own _ hkid
        rw [hV.digestOid_inj digest' digest halg]
      · rw [heff] at hresult
        cases hadded : added.result with
        | error x =>
          simp only [hadded, Except.map] at hresult
          cases hresult
        | ok _ =>
          simp only [hadded, Except.map] at hresult
          exact (Except.ok.inj hresult).symm

theorem privateHexId_hex {d : Disk} {k : KeyId UInt8} {hexId : Octets}
    (h : V.privateHexId d masterKey k = .ok hexId) : ∃ octets, Hex.encode octets = hexId := by
  unfold Vault.privateHexId at h
  split at h
  · cases hload : V.loadPublicEntryByKeyId d masterKey k with
    | error x =>
      rw [hload] at h
      cases h
    | ok data =>
      rw [hload] at h
      simp only [bind, Except.bind] at h
      split at h
      · cases h
      · rename_i first _ _
        exact ⟨first.keyHash, Except.ok.inj h⟩
  · exact ⟨k.keyHash, Except.ok.inj h⟩

/-- The file that is asked for a KeyId is that of a key that it is of. -/
theorem privateHexId_names (hV : V.CollisionFree) (hmacs : ∀ mac ∈ macs, Signs V added mac)
    {d : Disk} (hforge : V.Unforged masterKey macs wraps d) {k : KeyId UInt8} {hexId : Octets}
    (h : V.privateHexId d masterKey k = .ok hexId) {pk : KemPublicKey UInt8}
    (hfile : V.fileOf pk = hexId) : V.IsKeyIdOf pk k := by
  unfold Vault.privateHexId at h
  split at h
  · cases hload : V.loadPublicEntryByKeyId d masterKey k with
    | error x =>
      rw [hload] at h
      cases h
    | ok data =>
      obtain ⟨hg, hk⟩ := load_genuine hmacs hforge hload
      have hhead := hg.primary
      rw [hload] at h
      simp only [bind, Except.bind] at h
      cases hids : data.keyIds with
      | nil =>
        rw [hids] at hhead
        cases hhead
      | cons first rest =>
        rw [hids] at hhead h
        cases hhead
        have hname : V.fileOf data.publicKey = hexId := Except.ok.inj h
        rw [hV.fileOf_inj (hfile.trans hname.symm)]
        exact hk
  · rename_i hsha
    have hname : Vault.hexOf k = hexId := Except.ok.inj h
    refine ⟨V.sha256, Vault.sameKeyId_iff.mpr ⟨(not_not.mp hsha).symm, ?_⟩⟩
    exact Hex.encode_inj.mp (hfile.trans hname.symm)

/-- A private key that is returned has been added for the key that the KeyId is of. -/
theorem AttackRun.private_key (hV : V.CollisionFree) (hS : V.Separates)
    (h : AttackRun V s macs wraps) (hforge : V.Unforged masterKey macs wraps s.disk)
    (k : KeyId UInt8) (key : Octets) (hget : V.getPrivateKey s.disk masterKey k = .ok key) :
    ∃ pk, (pk, key) ∈ s.secrets ∧ V.IsKeyIdOf pk k := by
  obtain ⟨hmacs, hwraps⟩ := h.guarded hS
  unfold Vault.getPrivateKey at hget
  cases hhex : V.privateHexId s.disk masterKey k with
  | error x =>
    rw [hhex] at hget
    cases hget
  | ok hexId =>
    rw [hhex] at hget
    simp only [bind, Except.bind] at hget
    split at hget
    · cases hget
    · rename_i encoded hfile
      cases hload : V.storedPrivateKeyEntry.load encoded with
      | error x =>
        rw [hload] at hget
        cases hget
      | ok stored =>
        rw [hload] at hget
        dsimp only at hget
        split at hget
        · cases hget
        · split at hget
          · cases hget
          · rename_i hash hhash
            split at hget
            · cases hget
            · rename_i hsame
              split at hget
              · cases hget
              · rename_i plaintext hunwrap
                cases hget
                obtain ⟨pk, masterKey', salt, hin, hkek⟩ := hwraps _
                  (hforge.privateKeys hexId encoded stored key hfile hload hunwrap)
                have hinfo := (hS.hkdf_inj _ _ _ _ _ _ hkek).2
                have hid := hS.dumpKeyId_inj _ _ (List.append_cancel_left hinfo)
                refine ⟨pk, hin, privateHexId_names hV hmacs hforge hhex ?_⟩
                -- the identity in the file is the one of its name
                obtain ⟨octets, rfl⟩ := privateHexId_hex hhex
                rw [Hex.decode_encode] at hhash
                cases hhash
                rw [← not_not.mp hsame, hid]
                rfl

end

/-! ## An attack -/

namespace Plain

theorem separates : vault.Separates where
  hkdf_inj masterKey masterKey' salt salt' info info' h := by
    have hparts : [masterKey, salt, info] = [masterKey', salt', info'] := Code.pack_inj.mp h
    obtain ⟨_, hrest⟩ := List.cons.inj hparts
    obtain ⟨hsalt, hrest⟩ := List.cons.inj hrest
    exact ⟨hsalt, (List.cons.inj hrest).1⟩
  dumpKeyId_inj _ _ h := keyId.dump_inj h
  dumpEntryData_inj _ _ h := entryData.dump_inj h
  parse_publicEntry := codec_parse_dump publicEntry rfl

def publicUnforged (masterKey : Octets) (macs : List (Octets × Octets)) (d : Disk) : Bool :=
  d.publicKeys.entries.all fun file =>
    match vault.storedPublicKeyEntry.load file.2 with
    | .error _ => true
    | .ok stored =>
      decide (stored.macTag ≠ vault.macPublicKeyData masterKey stored.data stored.macSalt file.1) ||
      decide ((vault.derivePublicKeyMacKey masterKey stored.macSalt file.1,
        vault.dumpEntryData stored.data) ∈ macs)

def privateUnforged (masterKey : Octets) (wraps : List (Octets × Octets)) (d : Disk) : Bool :=
  d.privateKeys.entries.all fun file =>
    match vault.storedPrivateKeyEntry.load file.2 with
    | .error _ => true
    | .ok stored =>
      let kek := vault.deriveKek masterKey stored.kekSalt (vault.dumpKeyId stored.keyId)
      match vault.unwrap kek stored.wrappedKey with
      | none => true
      | some key => decide ((kek, key) ∈ wraps)

theorem unforged {masterKey : Octets} {macs wraps : List (Octets × Octets)} {d : Disk}
    (hpublic : publicUnforged masterKey macs d = true)
    (hprivate : privateUnforged masterKey wraps d = true) :
    vault.Unforged masterKey macs wraps d where
  publicKeys name encoded stored hfile hload htag := by
    have hmem := List.all_eq_true.mp hpublic _ (Dict.mem_of_get? hfile)
    simp only [hload, htag, ne_eq, not_true_eq_false, decide_false, Bool.false_or,
      decide_eq_true_eq] at hmem
    exact hmem
  privateKeys name encoded stored key hfile hload hunwrap := by
    have hmem := List.all_eq_true.mp hprivate _ (Dict.mem_of_get? hfile)
    simp only [hload, hunwrap, decide_eq_true_eq] at hmem
    exact hmem

def created : Keep := ({} : Keep).perform vault (.create [1] [2] 1)
def withA : Keep := created.perform vault (.addPublicKey publicKeyA [3])
def withSecret : Keep := withA.perform vault (.addPrivateKey publicKeyA [9, 9] [4])
def withKeyId : Keep :=
  withSecret.perform vault (.keyIdFor (.publicKey publicKeyA) .sha384 [5] [6])

def macs : List (Octets × Octets) :=
  ((([] ++ ({} : Keep).macedBy vault (.create [1] [2] 1)) ++
    created.macedBy vault (.addPublicKey publicKeyA [3])) ++
    withA.macedBy vault (.addPrivateKey publicKeyA [9, 9] [4])) ++
    withSecret.macedBy vault (.keyIdFor (.publicKey publicKeyA) .sha384 [5] [6])

def wraps : List (Octets × Octets) :=
  ((([] ++ ({} : Keep).wrappedBy vault (.create [1] [2] 1)) ++
    created.wrappedBy vault (.addPublicKey publicKeyA [3])) ++
    withA.wrappedBy vault (.addPrivateKey publicKeyA [9, 9] [4])) ++
    withSecret.wrappedBy vault (.keyIdFor (.publicKey publicKeyA) .sha384 [5] [6])

/-- The entry from before its second KeyId is put back, the index is gone, and the private key
stands under a second name too. -/
def tampered : Disk :=
  { withKeyId.disk with
    publicKeys := withA.disk.publicKeys
    altIndex := none
    privateKeys := withKeyId.disk.privateKeys.set [0]
      ((withKeyId.disk.privateKeys.get? (vault.fileOf publicKeyA)).getD []) }

def attacked : Keep := { withKeyId with disk := tampered }

def masterKeyA : Octets := Code.pack [[1], [2]]

theorem attacked_run : AttackRun vault attacked macs wraps := by
  have hopen : ∀ s : Keep, s.masterKey = some masterKeyA → ∀ macs wraps,
      publicUnforged masterKeyA macs s.disk = true →
      privateUnforged masterKeyA wraps s.disk = true →
      ∀ masterKey, s.masterKey = some masterKey → vault.Unforged masterKey macs wraps s.disk := by
    intro s hs macs wraps hpublic hprivate masterKey hkey
    cases hs.symm.trans hkey
    exact unforged hpublic hprivate
  refine .attack tampered (.perform _ (.perform _ (.perform _ (.perform _ .initial ?_) ?_) ?_) ?_)
  · intro masterKey hkey
    cases hkey
  · exact hopen _ (by decide +kernel) _ _ (by decide +kernel) (by decide +kernel)
  · exact hopen _ (by decide +kernel) _ _ (by decide +kernel) (by decide +kernel)
  · exact hopen _ (by decide +kernel) _ _ (by decide +kernel) (by decide +kernel)

theorem attacked_unforged : vault.Unforged masterKeyA macs wraps attacked.disk :=
  unforged (by decide +kernel) (by decide +kernel)

end Plain

theorem public_key_attacked : Plain.publicKeyA ∈ Plain.attacked.added ∧
    Plain.vault.IsKeyIdOf Plain.publicKeyA (Plain.vault.primaryKeyId Plain.publicKeyA) := by
  have hget : Plain.vault.getPublicKey Plain.attacked.disk Plain.masterKeyA
      (Plain.vault.primaryKeyId Plain.publicKeyA) = .ok Plain.publicKeyA := by decide +kernel
  have h := AttackRun.public_key Plain.correct.toCollisionFree Plain.separates
    Plain.attacked_run Plain.attacked_unforged
  exact h.1 _ _ hget

theorem private_key_attacked : ∃ pk, (pk, [9, 9]) ∈ Plain.attacked.secrets ∧
    Plain.vault.IsKeyIdOf pk (Plain.vault.primaryKeyId Plain.publicKeyA) := by
  have hget : Plain.vault.getPrivateKey Plain.attacked.disk Plain.masterKeyA
      (Plain.vault.primaryKeyId Plain.publicKeyA) = .ok [9, 9] := by decide +kernel
  exact AttackRun.private_key Plain.correct.toCollisionFree Plain.separates
    Plain.attacked_run Plain.attacked_unforged _ _ hget

end KemMake
