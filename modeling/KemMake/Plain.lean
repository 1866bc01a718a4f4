import KemMake.Lib.Code
import KemMake.Shelf

/-!
# A vault that hides nothing

Packages that write their arguments down side by side. What is assumed of the real packages
holds of these, so the assumptions agree with one another, and runs over them can be computed.
-/

namespace KemMake

inductive Digest where
  | sha256
  | sha384
  deriving DecidableEq

namespace Plain

def algorithmIdentifier : Code (AlgorithmIdentifier UInt8) :=
  (Code.nat.list.pair Code.octets.option).via (fun x => (x.algorithm, x.parameters))
    (fun x => ⟨x.1, x.2⟩) fun _ => rfl

def publicKey : Code (KemPublicKey UInt8) :=
  (algorithmIdentifier.pair .octets).via (fun x => (x.algorithm, x.publicKey))
    (fun x => ⟨x.1, x.2⟩) fun _ => rfl

def keyId : Code (KeyId UInt8) :=
  (algorithmIdentifier.pair .octets).via (fun x => (x.hashAlgorithm, x.keyHash))
    (fun x => ⟨x.1, x.2⟩) fun _ => rfl

def header : Code KeystoreHeader :=
  ((Code.int.pair .int).pair (Code.octets.pair .octets)).via
    (fun x => ((x.version, x.kdfIterations), (x.kdfSalt, x.verificationTag)))
    (fun x => ⟨x.1.1, x.2.1, x.1.2, x.2.2⟩) fun _ => rfl

def entryData : Code PublicKeyEntryData :=
  (publicKey.pair keyId.list).via (fun x => (x.publicKey, x.keyIds))
    (fun x => ⟨x.1, x.2⟩) fun _ => rfl

def publicEntry : Code StoredPublicKeyEntry :=
  (entryData.pair (Code.octets.pair .octets)).via (fun x => (x.data, x.macSalt, x.macTag))
    (fun x => ⟨x.1, x.2.1, x.2.2⟩) fun _ => rfl

def privateEntry : Code StoredPrivateKeyEntry :=
  ((keyId.pair Code.nat.list).pair (Code.octets.pair .octets)).via
    (fun x => ((x.keyId, x.wrapAlgorithm), (x.kekSalt, x.wrappedKey)))
    (fun x => ⟨x.1.1, x.2.1, x.1.2, x.2.2⟩) fun _ => rfl

def altIndexEntries : Code (List AltIndexEntry) :=
  ((keyId.pair .octets).via (fun x => (x.keyId, x.primaryHex))
    (fun x => ⟨x.1, x.2⟩) fun _ => rfl : Code AltIndexEntry).list

def altIndexFile : Code AltIndexFile :=
  (altIndexEntries.pair (Code.octets.pair .octets)).via
    (fun x => (x.entries, x.macSalt, x.macTag)) (fun x => ⟨x.1, x.2.1, x.2.2⟩) fun _ => rfl

def codec {α : Type} (c : Code α) : Codec α := ⟨c.dump, c.parse⟩

def digestOid : Digest → Oid
  | .sha256 => [2, 16, 840, 1, 101, 3, 4, 2, 1]
  | .sha384 => [2, 16, 840, 1, 101, 3, 4, 2, 2]

def unwrap (kek wrapped : Octets) : Option Octets :=
  match Code.unpack wrapped with
  | some [kek', key] => if kek' = kek then some key else none
  | _ => none

def vault : Vault Digest where
  sha256 := .sha256
  digestAlgorithm digest := ⟨digestOid digest, none⟩
  digest digest data :=
    match digest with
    | .sha256 => data
    | .sha384 => 0 :: data
  pbkdf2 passphrase salt iterations :=
    if iterations < 1 then none else some (Code.pack [passphrase, salt])
  hkdf key salt info := Code.pack [key, salt, info]
  hmac key message := Code.pack [key, message]
  wrap kek key := if key = [] then none else some (Code.pack [kek, key])
  unwrap := unwrap
  dumpPublicKey := publicKey.dump
  dumpKeyId := keyId.dump
  dumpEntryData := entryData.dump
  dumpAltIndex := altIndexEntries.dump
  keystoreHeader := codec header
  storedPublicKeyEntry := codec publicEntry
  storedPrivateKeyEntry := codec privateEntry
  altIndexFile := codec altIndexFile

theorem unwrap_wrap (kek key wrapped : Octets) (h : vault.wrap kek key = some wrapped) :
    unwrap kek wrapped = some key := by
  change (if key = [] then none else some (Code.pack [kek, key])) = some wrapped at h
  split at h
  · cases h
  · cases h
    simp only [unwrap, Code.unpack_pack, ↓reduceIte]

theorem codec_parse_dump {α : Type} {codec' : Codec α} (c : Code α) (h : codec' = codec c) (x : α) :
    codec'.parse (codec'.dump x) = some x := by
  rw [h]
  exact c.parse_dump x

theorem correct : vault.Correct where
  digestOid_inj a b h := by
    cases a <;> cases b
    · rfl
    · exact absurd h (by decide)
    · exact absurd h (by decide)
    · rfl
  collision_free digest a b h := by
    cases digest with
    | sha256 => exact publicKey.dump_inj h
    | sha384 => exact publicKey.dump_inj (List.cons.inj h).2
  tag_inj a b salt h := by
    have hkey : Code.pack [Code.pack [a, salt, domainCheck], checkValue] =
        Code.pack [Code.pack [b, salt, domainCheck], checkValue] := h
    have hderived := (List.cons.inj (Code.pack_inj.mp hkey)).1
    exact (List.cons.inj (Code.pack_inj.mp hderived)).1
  parse_header := codec_parse_dump header rfl
  parse_publicEntry := codec_parse_dump publicEntry rfl
  parse_privateEntry := codec_parse_dump privateEntry rfl
  parse_altIndex := codec_parse_dump altIndexFile rfl
  unwrap_wrap := unwrap_wrap

def publicKeyA : KemPublicKey UInt8 := ⟨⟨mlkemOid .mlkem768, none⟩, [7]⟩

end Plain

end KemMake
