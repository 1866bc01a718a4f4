import KemMake.Bottom
import KemMake.Lib.Dict
import KemMake.Lib.Hex
import Mathlib.Data.FinEnum

/-!
# The key directory (keystore.py)

File contents are octets, and the names under public/ and private/ are without `.der`. A
method that writes returns its atomic writes in order together with its result: what was
written before an exception stays written. The salts it draws are arguments.
-/

namespace KemMake

def ascii (text : String) : Octets := text.toList.map fun c => UInt8.ofNat c.toNat

def domainKek : Octets := ascii "kem-make-keystore-kek-v1"
def domainCheck : Octets := ascii "kem-make-keystore-check-v1"
def checkValue : Octets := ascii "kem-make-keystore-checkvalue-v1"
def domainPublicKeyMac : Octets := ascii "kem-make-keystore-pubkey-mac-v1"
def domainAltIndexMac : Octets := ascii "kem-make-keystore-altindex-mac-v1"

/-- id-aes256-wrap-pad -/
def wrapAlgorithmOid : Oid := [2, 16, 840, 1, 101, 3, 4, 1, 48]

/-- Exceptions by class, with the file name that their message gives. `valueError` is that of a
file that is no canonical DER of its record, of an iteration count below one and of `decode`. -/
inductive KeystoreError where
  | keyDirectoryError
  | wrongPassphrase
  | keyNotFound (hexId : Octets)
  | duplicateKey (hexId : Octets)
  | privateKeyRequiresPublicKey (hexId : Octets)
  | privateKeyUnwrapFailed (hexId : Octets)
  | publicKeyIntegrityError (hexId : Octets)
  | altIndexIntegrityError
  | valueError
  | indexError
  deriving DecidableEq

/-! ## On-disk record types -/

structure KeystoreHeader where
  version : Int
  kdfSalt : Octets
  kdfIterations : Int
  verificationTag : Octets
  deriving DecidableEq

structure PublicKeyEntryData where
  publicKey : KemPublicKey UInt8
  keyIds : List (KeyId UInt8)
  deriving DecidableEq

structure StoredPublicKeyEntry where
  data : PublicKeyEntryData
  macSalt : Octets
  macTag : Octets
  deriving DecidableEq

structure StoredPrivateKeyEntry where
  keyId : KeyId UInt8
  kekSalt : Octets
  wrapAlgorithm : Oid
  wrappedKey : Octets
  deriving DecidableEq

structure AltIndexEntry where
  keyId : KeyId UInt8
  primaryHex : Octets
  deriving DecidableEq

structure AltIndexFile where
  entries : List AltIndexEntry
  macSalt : Octets
  macTag : Octets
  deriving DecidableEq

/-- asn1crypto on one record type: `dump(force=True)`, and `load` before `require_der`. -/
structure Codec (α : Type) where
  dump : α → Octets
  parse : Octets → Option α

/-- The `load` of a record type, which calls `require_der`. -/
def Codec.load {α : Type} (c : Codec α) (encoded : Octets) : Except KeystoreError α :=
  match c.parse encoded with
  | none => .error .valueError
  | some obj => if c.dump obj = encoded then .ok obj else .error .valueError

/-- What keystore.py takes from other packages. `δ` are the names of digests that hashlib and
asn1crypto both know. -/
structure Vault (δ : Type) where
  sha256 : δ
  /-- `DigestAlgorithm({"algorithm": name})` -/
  digestAlgorithm : δ → AlgorithmIdentifier UInt8
  /-- `hashlib.new(name, data).digest()` -/
  digest : δ → Octets → Octets
  /-- PBKDF2-HMAC-SHA256: passphrase, salt, iterations. None for its ValueError. -/
  pbkdf2 : Octets → Octets → Int → Option Octets
  /-- HKDF-SHA256 for 32 octets: input key, salt, info. -/
  hkdf : Octets → Octets → Octets → Octets
  /-- HMAC-SHA256: key, message. -/
  hmac : Octets → Octets → Octets
  /-- AES key wrap with padding: wrapping key, key. None for its ValueError. -/
  wrap : Octets → Octets → Option Octets
  /-- Wrapping key, wrapped key. None for InvalidUnwrap. -/
  unwrap : Octets → Octets → Option Octets
  /-- `KemPublicKey.dump()` -/
  dumpPublicKey : KemPublicKey UInt8 → Octets
  /-- `KeyId.dump()` -/
  dumpKeyId : KeyId UInt8 → Octets
  /-- `PublicKeyEntryData.dump(force=True)` -/
  dumpEntryData : PublicKeyEntryData → Octets
  /-- `AltIndex.dump(force=True)` -/
  dumpAltIndex : List AltIndexEntry → Octets
  keystoreHeader : Codec KeystoreHeader
  storedPublicKeyEntry : Codec StoredPublicKeyEntry
  storedPrivateKeyEntry : Codec StoredPrivateKeyEntry
  altIndexFile : Codec AltIndexFile

/-! ## The directory -/

structure Disk where
  /-- The path exists and is not empty. -/
  inUse : Bool := false
  header : Option Octets := none
  publicKeys : Dict Octets Octets := ∅
  privateKeys : Dict Octets Octets := ∅
  altIndex : Option Octets := none

/-- `_atomic_write` to one of the files; the directories are made before the header. -/
inductive Write where
  | directories
  | header (data : Octets)
  | publicKey (hexId data : Octets)
  | privateKey (hexId data : Octets)
  | altIndex (data : Octets)
  deriving DecidableEq

def Disk.write (d : Disk) : Write → Disk
  | .directories => { d with inUse := true }
  | .header data => { d with header := some data }
  | .publicKey hexId data => { d with publicKeys := d.publicKeys.set hexId data }
  | .privateKey hexId data => { d with privateKeys := d.privateKeys.set hexId data }
  | .altIndex data => { d with altIndex := some data }

def Disk.writes (d : Disk) (ws : List Write) : Disk := ws.foldl Disk.write d

/-- What a method writes, and what it returns or raises. -/
structure Effect (α : Type) where
  writes : List Write
  result : Except KeystoreError α

/-- What `key_id_for` is called with. -/
inductive KeyRef where
  | publicKey (key : KemPublicKey UInt8)
  | keyId (k : KeyId UInt8)

namespace Vault
variable {δ : Type} (V : Vault δ)

/-! ## Derivation -/

def deriveKek (masterKey salt keyIdentity : Octets) : Octets :=
  V.hkdf masterKey salt (domainKek ++ keyIdentity)

def derivePublicKeyMacKey (masterKey salt hexId : Octets) : Octets :=
  V.hkdf masterKey salt (domainPublicKeyMac ++ hexId)

def deriveAltIndexMacKey (masterKey salt : Octets) : Octets :=
  V.hkdf masterKey salt domainAltIndexMac

def deriveCheckTag (masterKey headerSalt : Octets) : Octets :=
  V.hmac (V.hkdf masterKey headerSalt domainCheck) checkValue

/-- `_digest_oid` -/
def digestOid (digest : δ) : Oid := (V.digestAlgorithm digest).algorithm

/-- `KeyId.build` -/
def buildKeyId (publicKey : KemPublicKey UInt8) (digest : δ) : KeyId UInt8 :=
  ⟨V.digestAlgorithm digest, V.digest digest (V.dumpPublicKey publicKey)⟩

def primaryKeyId (publicKey : KemPublicKey UInt8) : KeyId UInt8 := V.buildKeyId publicKey V.sha256

/-- `_hex_of` -/
def hexOf (keyId : KeyId UInt8) : Octets := Hex.encode keyId.keyHash

/-- How lookups compare two KeyIds. -/
def sameKeyId (a b : KeyId UInt8) : Bool :=
  decide (a.hashAlgorithm.algorithm = b.hashAlgorithm.algorithm) && decide (a.keyHash = b.keyHash)

/-! ## Lifecycle -/

def create (d : Disk) (passphrase kdfSalt : Octets) (iterations : Int) : Effect Octets :=
  if d.inUse then ⟨[], .error .keyDirectoryError⟩
  else
    match V.pbkdf2 passphrase kdfSalt iterations with
    | none => ⟨[.directories], .error .valueError⟩
    | some masterKey =>
      let header : KeystoreHeader := ⟨0, kdfSalt, iterations, V.deriveCheckTag masterKey kdfSalt⟩
      ⟨[.directories, .header (V.keystoreHeader.dump header)], .ok masterKey⟩

/-- `KeyDirectory.open`, with the master key of the instance it returns. -/
def openDirectory (d : Disk) (passphrase : Octets) : Except KeystoreError Octets := do
  match d.header with
  | none => .error .keyDirectoryError
  | some encoded =>
    let header ← V.keystoreHeader.load encoded
    match V.pbkdf2 passphrase header.kdfSalt header.kdfIterations with
    | none => .error .valueError
    | some masterKey =>
      if V.deriveCheckTag masterKey header.kdfSalt = header.verificationTag then .ok masterKey
      else .error .wrongPassphrase

/-! ## Public key integrity -/

def macPublicKeyData (masterKey : Octets) (data : PublicKeyEntryData) (salt hexId : Octets) :
    Octets :=
  V.hmac (V.derivePublicKeyMacKey masterKey salt hexId) (V.dumpEntryData data)

def buildStoredPublicKeyEntry (masterKey : Octets) (data : PublicKeyEntryData)
    (hexId salt : Octets) : StoredPublicKeyEntry :=
  ⟨data, salt, V.macPublicKeyData masterKey data salt hexId⟩

def verifyAndGetData (masterKey : Octets) (stored : StoredPublicKeyEntry) (hexId : Octets) :
    Except KeystoreError PublicKeyEntryData :=
  if stored.macTag = V.macPublicKeyData masterKey stored.data stored.macSalt hexId then
    .ok stored.data
  else .error (.publicKeyIntegrityError hexId)

/-- The entry under a file name, if there is such a file. -/
def readPublicEntry (d : Disk) (masterKey hexId : Octets) :
    Except KeystoreError (Option PublicKeyEntryData) := do
  match d.publicKeys.get? hexId with
  | none => return none
  | some encoded =>
    let stored ← V.storedPublicKeyEntry.load encoded
    let data ← V.verifyAndGetData masterKey stored hexId
    return some data

/-! ## The alternate index -/

def macAltIndex (masterKey : Octets) (entries : List AltIndexEntry) (salt : Octets) : Octets :=
  V.hmac (V.deriveAltIndexMacKey masterKey salt) (V.dumpAltIndex entries)

def loadAltIndex (d : Disk) (masterKey : Octets) : Except KeystoreError (List AltIndexEntry) := do
  match d.altIndex with
  | none => return []
  | some encoded =>
    let file ← V.altIndexFile.load encoded
    if file.macTag = V.macAltIndex masterKey file.entries file.macSalt then return file.entries
    else .error .altIndexIntegrityError

def altIndexLookup (d : Disk) (masterKey : Octets) (keyId : KeyId UInt8) :
    Except KeystoreError (Option Octets) := do
  let entries ← V.loadAltIndex d masterKey
  match entries.find? fun entry => sameKeyId entry.keyId keyId with
  | none => return none
  | some entry =>
    if ∀ c ∈ entry.primaryHex, c.toNat < 128 then return some entry.primaryHex
    else .error .valueError

def altIndexAdd (d : Disk) (masterKey : Octets) (keyId : KeyId UInt8) (primaryHex salt : Octets) :
    Effect Unit :=
  match V.loadAltIndex d masterKey with
  | .error x => ⟨[], .error x⟩
  | .ok existing =>
    let entries := existing ++ [⟨keyId, primaryHex⟩]
    let file : AltIndexFile := ⟨entries, salt, V.macAltIndex masterKey entries salt⟩
    ⟨[.altIndex (V.altIndexFile.dump file)], .ok ()⟩

/-! ## Public keys -/

def addPublicKey (d : Disk) (masterKey : Octets) (publicKey : KemPublicKey UInt8) (salt : Octets) :
    Effect (KeyId UInt8) :=
  let primary := V.primaryKeyId publicKey
  let hexId := hexOf primary
  if (d.publicKeys.get? hexId).isSome then ⟨[], .error (.duplicateKey hexId)⟩
  else
    let entry := V.buildStoredPublicKeyEntry masterKey ⟨publicKey, [primary]⟩ hexId salt
    ⟨[.publicKey hexId (V.storedPublicKeyEntry.dump entry)], .ok primary⟩

/-- The file of the KeyId's own hash if it lists the KeyId, else the one the index names. -/
def loadPublicEntryByKeyId (d : Disk) (masterKey : Octets) (keyId : KeyId UInt8) :
    Except KeystoreError PublicKeyEntryData := do
  let notFound := KeystoreError.keyNotFound (hexOf keyId)
  match ← V.readPublicEntry d masterKey (hexOf keyId) with
  | some data =>
    if data.keyIds.any fun kid => sameKeyId kid keyId then return data else byIndex notFound
  | none => byIndex notFound
where
  byIndex (notFound : KeystoreError) : Except KeystoreError PublicKeyEntryData := do
    match ← V.altIndexLookup d masterKey keyId with
    | none => .error notFound
    | some primaryHex =>
      match ← V.readPublicEntry d masterKey primaryHex with
      | some data =>
        if data.keyIds.any fun kid => sameKeyId kid keyId then return data else .error notFound
      | none => .error notFound

def getPublicKey (d : Disk) (masterKey : Octets) (keyId : KeyId UInt8) :
    Except KeystoreError (KemPublicKey UInt8) := do
  let data ← V.loadPublicEntryByKeyId d masterKey keyId
  return data.publicKey

def refKeyId : KeyRef → KeyId UInt8
  | .publicKey key => V.primaryKeyId key
  | .keyId k => k

/-- A KeyId that is not cached is written to its entry, and then to the index. -/
def keyIdFor (d : Disk) (masterKey : Octets) (ref : KeyRef) (digest : δ) (salt altSalt : Octets) :
    Effect (KeyId UInt8) :=
  match V.loadPublicEntryByKeyId d masterKey (V.refKeyId ref) with
  | .error x => ⟨[], .error x⟩
  | .ok data =>
    match data.keyIds.find? fun kid => decide (kid.hashAlgorithm.algorithm = V.digestOid digest) with
    | some kid => ⟨[], .ok kid⟩
    | none =>
      let newKid := V.buildKeyId data.publicKey digest
      let data := { data with keyIds := data.keyIds ++ [newKid] }
      let primaryHex := hexOf (data.keyIds.headD newKid)
      let entry := V.buildStoredPublicKeyEntry masterKey data primaryHex salt
      let write := Write.publicKey primaryHex (V.storedPublicKeyEntry.dump entry)
      let added := V.altIndexAdd (d.write write) masterKey newKid primaryHex altSalt
      ⟨write :: added.writes, added.result.map fun _ => newKid⟩

/-! ## Private keys -/

def addPrivateKey (d : Disk) (masterKey : Octets) (publicKey : KemPublicKey UInt8)
    (privateKeyBytes kekSalt : Octets) : Effect (KeyId UInt8) :=
  let primary := V.primaryKeyId publicKey
  let hexId := hexOf primary
  if (d.publicKeys.get? hexId).isNone then ⟨[], .error (.privateKeyRequiresPublicKey hexId)⟩
  else if (d.privateKeys.get? hexId).isSome then ⟨[], .error (.duplicateKey hexId)⟩
  else
    let kek := V.deriveKek masterKey kekSalt (V.dumpKeyId primary)
    match V.wrap kek privateKeyBytes with
    | none => ⟨[], .error .valueError⟩
    | some wrappedKey =>
      let entry : StoredPrivateKeyEntry := ⟨primary, kekSalt, wrapAlgorithmOid, wrappedKey⟩
      ⟨[.privateKey hexId (V.storedPrivateKeyEntry.dump entry)], .ok primary⟩

/-- The name of the private key's file: a KeyId of another digest goes by the public entry. -/
def privateHexId (d : Disk) (masterKey : Octets) (keyId : KeyId UInt8) :
    Except KeystoreError Octets := do
  if keyId.hashAlgorithm.algorithm ≠ V.digestOid V.sha256 then
    let entry ← V.loadPublicEntryByKeyId d masterKey keyId
    match entry.keyIds with
    | [] => .error .indexError
    | first :: _ => return hexOf first
  else return hexOf keyId

def getPrivateKey (d : Disk) (masterKey : Octets) (keyId : KeyId UInt8) :
    Except KeystoreError Octets := do
  let hexId ← V.privateHexId d masterKey keyId
  match d.privateKeys.get? hexId with
  | none => .error (.keyNotFound hexId)
  | some encoded =>
    let stored ← V.storedPrivateKeyEntry.load encoded
    if stored.keyId.hashAlgorithm.algorithm ≠ V.digestOid V.sha256 then
      .error (.privateKeyUnwrapFailed hexId)
    else
      match Hex.decode hexId with
      | none => .error .valueError
      | some hash =>
        if stored.keyId.keyHash ≠ hash then .error (.privateKeyUnwrapFailed hexId)
        else
          let kek := V.deriveKek masterKey stored.kekSalt (V.dumpKeyId stored.keyId)
          match V.unwrap kek stored.wrappedKey with
          | none => .error (.privateKeyUnwrapFailed hexId)
          | some plaintext => return plaintext

end Vault

end KemMake
