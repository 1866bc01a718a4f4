import KemMake.Keeping
import KemMake.Plain

/-!
# Calls that stop between their writes

Each write is atomic, so a call that stops leaves the first of its writes. A directory stays
in order unless `key_id_for` stops after the first of its two.
-/

namespace KemMake

section
variable {δ : Type} {V : Vault δ} {masterKey : Octets} {shelf : Set (Held δ)} {s : Keep}
  {op : KeyOp δ}

/-! ## Stops -/

/-- A call of `key_id_for` stops after it has replaced the entry, before the index is written. -/
def KeyOp.Tears : KeyOp δ → Nat → Prop
  | .keyIdFor .., n => n = 1
  | _, _ => False

theorem Keep.onInstance_length {call : Octets → Effect (Keep → Keep)} {n : Nat}
    (h : ∀ masterKey, (call masterKey).writes.length ≤ n) :
    (s.onInstance call).writes.length ≤ n := by
  unfold Keep.onInstance
  split
  · exact Nat.zero_le n
  · exact h _

theorem Vault.altIndexAdd_length (d : Disk) (masterKey : Octets) (keyId : KeyId UInt8)
    (primaryHex salt : Octets) :
    (V.altIndexAdd d masterKey keyId primaryHex salt).writes.length ≤ 1 := by
  unfold Vault.altIndexAdd
  split
  · exact Nat.zero_le 1
  · exact Nat.le_refl 1

/-- Of the calls on an instance, only `key_id_for` writes two files. -/
theorem Keep.effect_length (hused : s.disk.inUse = true) {n : Nat} (hn : 0 < n)
    (ht : ¬ op.Tears n) : (s.effect V op).writes.length ≤ n := by
  cases op with
  | create passphrase kdfSalt iterations =>
    simp only [Keep.effect, Vault.create, hused, ↓reduceIte]
    exact Nat.zero_le n
  | openDirectory | close => exact Nat.zero_le n
  | addPublicKey pk salt =>
    refine Keep.onInstance_length fun masterKey => ?_
    change (V.addPublicKey s.disk masterKey pk salt).writes.length ≤ n
    unfold Vault.addPublicKey
    dsimp only
    split
    · exact Nat.zero_le n
    · exact hn
  | addPrivateKey pk secret salt =>
    refine Keep.onInstance_length fun masterKey => ?_
    change (V.addPrivateKey s.disk masterKey pk secret salt).writes.length ≤ n
    unfold Vault.addPrivateKey
    dsimp only
    split
    · exact Nat.zero_le n
    · split
      · exact Nat.zero_le n
      · split
        · exact Nat.zero_le n
        · exact hn
  | keyIdFor ref digest salt altSalt =>
    have htwo : 2 ≤ n := by
      have : n ≠ 1 := ht
      omega
    refine Keep.onInstance_length fun masterKey => ?_
    change (V.keyIdFor s.disk masterKey ref digest salt altSalt).writes.length ≤ n
    unfold Vault.keyIdFor
    split
    · exact Nat.zero_le n
    · split
      · exact Nat.zero_le n
      · exact le_trans (Nat.succ_le_succ (Vault.altIndexAdd_length _ _ _ _ _)) htwo

theorem Shelved.stop (hV : V.Correct) (h : Shelved V masterKey shelf s) {n : Nat}
    (ht : ¬ op.Tears n) : ∃ shelf', Shelved V masterKey shelf' (s.stop V op n) := by
  rcases Nat.eq_zero_or_pos n with rfl | hn
  · exact ⟨shelf, h⟩
  · obtain ⟨shelf', hgrows, hs, _⟩ := h.perform hV op
    have hdisk : (s.stop V op n).disk = (s.perform V op).disk := by
      rw [Keep.perform_disk, Keep.stop, List.take_of_length_le (Keep.effect_length h.inUse hn ht)]
    refine ⟨shelf', ?_, ?_, h.instanceKey, ?_, h.recorded.grow hgrows rfl rfl rfl⟩
    · rw [hdisk]
      exact hs.inUse
    · rw [hdisk]
      exact hs.header
    · rw [hdisk]
      exact hs.represents

/-! ## Before the header is written -/

theorem represents_empty {d : Disk} (hpublic : d.publicKeys = ∅) (hprivate : d.privateKeys = ∅)
    (hindex : d.altIndex = none) : Represents V masterKey ∅ [] d where
  distinct _ h := h.elim
  digests _ h := h.elim
  publicFile _ h := h.elim
  noPublicFile name _ := by
    rw [hpublic]
    rfl
  privateFile _ h := h.elim
  noPrivateFile name _ := by
    rw [hprivate]
    rfl
  index := by
    simp only [Vault.loadAltIndex, hindex]
    rfl
  listed pk digest := by
    constructor
    · intro h
      cases h
    · rintro ⟨_, h, _⟩
      exact h.elim

namespace Keep

theorem Fresh.recorded (h : s.Fresh) : Recorded V ∅ s where
  added pk hpk := by
    rw [h.added] at hpk
    cases hpk
  secrets entry hentry := by
    rw [h.secrets] at hentry
    cases hentry
  issued entry hentry := by
    rw [h.issued] at hentry
    cases hentry

theorem accounted_empty : Accounted V ∅ s :=
  ⟨fun _ h => h.elim, fun _ h => h.elim, fun _ h => h.elim⟩

/-- The header that `create` writes is the last of its writes. -/
theorem Fresh.written (h : s.Fresh) {key salt : Octets} {iterations : Int}
    {masterKey' : Option Octets} (hkey : ∀ k, masterKey' = some k → k = key) :
    Shelved V key ∅ { s with
      disk := s.disk.writes [.directories, .header (V.keystoreHeader.dump
        ⟨0, salt, iterations, V.deriveCheckTag key salt⟩)]
      masterKey := masterKey' } where
  inUse := rfl
  header := ⟨salt, iterations, rfl⟩
  instanceKey := hkey
  represents := ⟨[], represents_empty h.publicKeys h.privateKeys h.altIndex⟩
  recorded := ⟨h.recorded (V := V).added, h.recorded (V := V).secrets, h.recorded (V := V).issued⟩

theorem Fresh.directories (h : s.Fresh) : Fresh { s with disk := s.disk.writes [.directories] } :=
  ⟨h.header, h.publicKeys, h.privateKeys, h.altIndex, h.masterKey, h.added, h.secrets, h.issued⟩

/-- What can be called before there is a header: only `create` does anything. -/
theorem Fresh.effect (h : s.Fresh) (op : KeyOp δ) :
    s.perform V op = s ∧ (s.effect V op).writes = [] ∨
    (s.perform V op = { s with disk := s.disk.writes [.directories] } ∧
      (s.effect V op).writes = [.directories]) ∨
    ∃ key salt iterations, s.perform V op =
        { s with
          disk := s.disk.writes [.directories, .header (V.keystoreHeader.dump
            ⟨0, salt, iterations, V.deriveCheckTag key salt⟩)]
          masterKey := some key } ∧
      (s.effect V op).writes = [.directories, .header (V.keystoreHeader.dump
        ⟨0, salt, iterations, V.deriveCheckTag key salt⟩)] := by
  cases op with
  | create passphrase kdfSalt iterations =>
    by_cases hused : s.disk.inUse = true
    · have heff : s.effect V (.create passphrase kdfSalt iterations) =
          ⟨[], .error .keyDirectoryError⟩ := by
        simp only [Keep.effect, Vault.create, hused, ↓reduceIte]
        rfl
      exact .inl ⟨perform_of_error heff, by rw [heff]⟩
    · cases hp : V.pbkdf2 passphrase kdfSalt iterations with
      | none =>
        have heff : s.effect V (.create passphrase kdfSalt iterations) =
            ⟨[.directories], .error .valueError⟩ := by
          simp only [Keep.effect, Vault.create, hused, Bool.false_eq_true, ↓reduceIte, hp]
          rfl
        refine .inr (.inl ⟨?_, by rw [heff]⟩)
        simp only [perform, heff]
      | some key =>
        have heff : s.effect V (.create passphrase kdfSalt iterations) =
            ⟨[.directories, .header (V.keystoreHeader.dump
              ⟨0, kdfSalt, iterations, V.deriveCheckTag key kdfSalt⟩)],
              .ok fun s => { s with masterKey := some key }⟩ := by
          simp only [Keep.effect, Vault.create, hused, Bool.false_eq_true, ↓reduceIte, hp]
          rfl
        exact .inr (.inr ⟨key, kdfSalt, iterations, perform_of_ok _ heff, by rw [heff]⟩)
  | openDirectory passphrase =>
    have heff : s.effect V (.openDirectory passphrase) = ⟨[], .error .keyDirectoryError⟩ := by
      simp only [Keep.effect, Vault.openDirectory, h.header]
      rfl
    exact .inl ⟨perform_of_error heff, rfl⟩
  | close =>
    refine .inl ⟨?_, rfl⟩
    change { s with masterKey := none } = s
    rw [← h.masterKey]
  | addPublicKey | addPrivateKey | keyIdFor =>
    refine .inl ⟨perform_of_ok [] (f := id) ?_, ?_⟩
    all_goals simp only [Keep.effect, onInstance, h.masterKey]

end Keep

/-! ## Runs -/

/-- A run whose stops tear no call of `key_id_for` keeps the directory in order. -/
theorem KeyRun.shelved (hV : V.Correct) {mayStop : KeyOp δ → Nat → Prop}
    (hstop : ∀ op n, mayStop op n → ¬ op.Tears n) (h : KeyRun V mayStop s) :
    s.Fresh ∨ ∃ masterKey shelf, Shelved V masterKey shelf s ∧
      ((∀ op n, ¬ mayStop op n) → Accounted V shelf s) := by
  induction h with
  | initial => exact .inl ⟨rfl, rfl, rfl, rfl, rfl, rfl, rfl, rfl⟩
  | perform op _ ih =>
    rcases ih with hf | ⟨masterKey, shelf, hs, ha⟩
    · rcases hf.effect op with ⟨heq, _⟩ | ⟨heq, _⟩ | ⟨key, salt, iterations, heq, _⟩
      · rw [heq]
        exact .inl hf
      · rw [heq]
        exact .inl hf.directories
      · rw [heq]
        refine .inr ⟨key, ∅, hf.written fun k hk => ?_, fun _ => Keep.accounted_empty⟩
        cases hk
        rfl
    · obtain ⟨shelf', _, hs', ha'⟩ := hs.perform hV op
      exact .inr ⟨masterKey, shelf', hs', fun hno => ha' (ha hno)⟩
  | stop op n _ hmay ih =>
    have hnot : ¬ ∀ op n, ¬ mayStop op n := fun hno => hno op n hmay
    rcases ih with hf | ⟨masterKey, shelf, hs, _⟩
    · rcases hf.effect op with ⟨_, hw⟩ | ⟨_, hw⟩ | ⟨key, salt, iterations, _, hw⟩
      · rw [Keep.stop, hw, List.take_nil]
        exact .inl hf
      · rw [Keep.stop, hw]
        match n with
        | 0 => exact .inl hf
        | n + 1 =>
          rw [List.take_of_length_le (Nat.le_add_left 1 n)]
          exact .inl hf.directories
      · rw [Keep.stop, hw]
        match n with
        | 0 => exact .inl hf
        | 1 => exact .inl hf.directories
        | n + 2 =>
          rw [List.take_of_length_le (Nat.le_add_left 2 n)]
          refine .inr ⟨key, ∅, hf.written fun k hk => ?_, fun hno => absurd hno hnot⟩
          rw [hf.masterKey] at hk
          cases hk
    · obtain ⟨shelf', hs'⟩ := hs.stop hV (hstop op n hmay)
      exact .inr ⟨masterKey, shelf', hs', fun hno => absurd hno hnot⟩

end

/-! ## Resolving -/

/-- What an entry lists, and what `key_id_for` has returned, leads to the key of the entry. -/
structure Keep.Resolves {δ : Type} (V : Vault δ) (s : Keep) (masterKey : Octets) : Prop where
  listed : ∀ name encoded stored, s.disk.publicKeys.get? name = some encoded →
    V.storedPublicKeyEntry.load encoded = .ok stored →
    ∀ k ∈ stored.data.keyIds, V.getPublicKey s.disk masterKey k = .ok stored.data.publicKey
  returned : ∀ entry ∈ s.issued, ∃ pk,
    V.getPublicKey s.disk masterKey (V.refKeyId entry.1) = .ok pk ∧
      V.getPublicKey s.disk masterKey entry.2 = .ok pk

section
variable {δ : Type} {V : Vault δ} {s : Keep}

theorem Shelved.resolves (hV : V.Correct) {masterKey : Octets} {shelf : Set (Held δ)}
    (h : Shelved V masterKey shelf s) : s.Resolves V masterKey := by
  obtain ⟨listed, hr⟩ := h.represents
  constructor
  · intro name encoded stored hfile hload k hk
    obtain ⟨held, hmem, stored', hload', hdata⟩ := hr.publicEntry hV hfile
    rw [hload] at hload'
    cases hload'
    rw [hdata] at hk ⊢
    obtain ⟨digest, hd, rfl⟩ := List.mem_map.mp hk
    exact hr.getPublicKey hV hmem (Held.names_keyId hd)
  · intro entry hentry
    obtain ⟨held, hmem, hn, digest, hd, heq⟩ := h.recorded.issued entry hentry
    refine ⟨held.publicKey, hr.getPublicKey hV hmem hn, ?_⟩
    rw [heq]
    exact hr.getPublicKey hV hmem (Held.names_keyId hd)

/-- Whatever stops, and wherever, as long as no `key_id_for` stops between its two writes. -/
theorem KeyRun.untorn_resolves (hV : V.Correct) {mayStop : KeyOp δ → Nat → Prop}
    (hstop : ∀ op n, mayStop op n → ¬ op.Tears n) (h : KeyRun V mayStop s) (masterKey : Octets)
    (hopen : s.masterKey = some masterKey) : s.Resolves V masterKey := by
  rcases h.shelved hV hstop with hf | ⟨key, shelf, hs, _⟩
  · rw [hf.masterKey] at hopen
    cases hopen
  · cases hs.instanceKey masterKey hopen
    exact hs.resolves hV

end

/-! ## A torn call -/

namespace Plain

/-- A directory with one key, by an instance that is open. -/
def oneKey : Keep :=
  (({} : Keep).perform vault (.create [1] [2] 1)).perform vault (.addPublicKey publicKeyA [3])

/-- Its `key_id_for` of another digest stops before it writes the index. -/
def torn : Keep := oneKey.stop vault (.keyIdFor (.publicKey publicKeyA) .sha384 [4] [5]) 1

/-- Reopened, and asked again. -/
def reopened : Keep :=
  ((torn.perform vault .close).perform vault (.openDirectory [1])).perform vault
    (.keyIdFor (.publicKey publicKeyA) .sha384 [6] [8])

def keyIdA : KeyId UInt8 := vault.buildKeyId publicKeyA .sha384

theorem reopened_open : reopened.masterKey = some (Code.pack [[1], [2]]) := by decide +kernel

theorem reopened_issued : reopened.issued.map (·.2) = [keyIdA] := by decide +kernel

theorem reopened_unresolved : (vault.getPublicKey reopened.disk (Code.pack [[1], [2]]) keyIdA) =
    .error (.keyNotFound (Vault.hexOf keyIdA)) := by decide +kernel

theorem reopened_run : KeyRun vault (fun _ _ => True) reopened :=
  .perform _ (.perform _ (.perform _ (.stop _ _ (.perform _ (.perform _ .initial)) trivial)))

end Plain

/-- A torn call is never made good: the KeyId is cached, and no lookup finds it. -/
theorem torn_unresolved : Plain.vault.Correct ∧ ∃ (s : Keep) (masterKey : Octets),
    KeyRun Plain.vault (fun _ _ => True) s ∧ s.masterKey = some masterKey ∧
      ¬ s.Resolves Plain.vault masterKey := by
  refine ⟨Plain.correct, Plain.reopened, Code.pack [[1], [2]], Plain.reopened_run,
    Plain.reopened_open, fun h => ?_⟩
  have hin : Plain.keyIdA ∈ Plain.reopened.issued.map (·.2) := by
    rw [Plain.reopened_issued]
    exact List.mem_cons_self
  obtain ⟨entry, hentry, heq⟩ := List.mem_map.mp hin
  obtain ⟨pk, _, hpk⟩ := h.returned entry hentry
  rw [heq, Plain.reopened_unresolved] at hpk
  cases hpk

namespace Plain

/-- A `key_id_for` that stops before its writes, one that stops after both, and, reopened, one
that returns. -/
def retried : Keep :=
  ((((oneKey.stop vault (.keyIdFor (.publicKey publicKeyA) .sha384 [4] [5]) 0).stop vault
    (.keyIdFor (.publicKey publicKeyA) .sha384 [6] [7]) 2).perform vault .close).perform vault
      (.openDirectory [1])).perform vault (.keyIdFor (.publicKey publicKeyA) .sha384 [8] [9])

theorem retried_run : KeyRun vault (fun op n => ¬ op.Tears n) retried :=
  .perform _ (.perform _ (.perform _ (.stop _ _ (.stop _ _ (.perform _ (.perform _ .initial))
    Nat.zero_ne_one) (by decide : (2 : Nat) ≠ 1))))

end Plain

/-- The KeyId that the last call returns is found. -/
theorem untorn_resolves_retried :
    Plain.retried.Resolves Plain.vault (Code.pack [[1], [2]]) ∧
      Plain.retried.issued.map (·.2) = [Plain.keyIdA] :=
  ⟨KeyRun.untorn_resolves Plain.correct (fun _ _ h => h) Plain.retried_run _ (by decide +kernel),
    by decide +kernel⟩

end KemMake
