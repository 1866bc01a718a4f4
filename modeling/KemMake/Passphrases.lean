import KemMake.Crashes

/-!
# Which passphrases open a directory

`create` derives the master key and writes the header, and nothing writes it again. So from the
moment that there is a header, what `open` does with a passphrase is settled: it returns the
master key for those that derive it, the one that the directory was created with among them, and
refuses every other, whatever is called, interrupted or lost in a crash meanwhile.
-/

namespace KemMake

/-! ## Writing without the header -/

theorem Disk.writes_header {d : Disk} {ws : List Write} (h : ∀ data, .header data ∉ ws) :
    (d.writes ws).header = d.header := by
  induction ws generalizing d with
  | nil => rfl
  | cons w ws ih =>
    have hrest : ((d.write w).writes ws).header = (d.write w).header :=
      ih fun data hmem => h data (List.mem_cons_of_mem w hmem)
    refine hrest.trans ?_
    cases w with
    | header data => exact absurd List.mem_cons_self (h data)
    | directories | publicKey | privateKey | altIndex => rfl

theorem Disk.writes_inUse {d : Disk} (h : d.inUse = true) (ws : List Write) :
    (d.writes ws).inUse = true := by
  induction ws generalizing d with
  | nil => exact h
  | cons w ws ih =>
    apply ih (d := d.write w)
    cases w with
    | directories => rfl
    | header | publicKey | privateKey | altIndex => exact h

namespace Keep
variable {δ : Type} {V : Vault δ} {s : Keep} {op : KeyOp δ} {salt key passphrase : Octets}
  {iterations : Int}

/-! ## What a call does to the header and to the instance -/

/-- Where there is something, no call writes a header. -/
theorem effect_headless (hused : s.disk.inUse = true) (op : KeyOp δ) (data : Octets) :
    .header data ∉ (s.effect V op).writes := by
  obtain ⟨passphrase, salt, iterations, rfl⟩ | hnone | ⟨_, hkeys⟩ := s.effect_writes (V := V) op
  · simp only [effect, Vault.create, hused, ↓reduceIte, Effect.map]
    exact List.not_mem_nil
  · rw [hnone]
    exact List.not_mem_nil
  · exact fun hmem => hkeys _ hmem

theorem onInstance_key {call : Octets → Effect (Keep → Keep)}
    (h : ∀ masterKey f, (call masterKey).result = .ok f → ∀ s', (f s').masterKey = s'.masterKey)
    {f : Keep → Keep} (hf : (s.onInstance call).result = .ok f) :
    ∀ s', (f s').masterKey = s'.masterKey := by
  unfold onInstance at hf
  split at hf
  · cases hf
    exact fun _ => rfl
  · exact h _ f hf

theorem map_key {α : Type} {g : α → Keep → Keep} {result : Except KeystoreError α}
    {f : Keep → Keep} (hf : result.map g = .ok f)
    (hg : ∀ a s', (g a s').masterKey = s'.masterKey) (s' : Keep) :
    (f s').masterKey = s'.masterKey := by
  cases result with
  | error x => cases hf
  | ok a =>
    cases hf
    exact hg a s'

/-- Where there is something, an instance is the one there was or what `open` has returned. -/
theorem perform_key (hused : s.disk.inUse = true) {k : Octets}
    (h : (s.perform V op).masterKey = some k) :
    s.masterKey = some k ∨ ∃ passphrase, V.openDirectory s.disk passphrase = .ok k := by
  have hsame : ∀ f, (s.effect V op).result = .ok f → (∀ s', (f s').masterKey = s'.masterKey) →
      s.masterKey = some k := by
    intro f hf hkey
    simp only [perform, hf, hkey] at h
    exact h
  cases hf : (s.effect V op).result with
  | error x =>
    simp only [perform, hf] at h
    exact .inl h
  | ok f =>
    cases op with
    | create passphrase kdfSalt iterations =>
      simp only [effect, Vault.create, hused, ↓reduceIte] at hf
      cases hf
    | openDirectory passphrase =>
      simp only [perform, hf] at h
      cases hopen : V.openDirectory s.disk passphrase with
      | error x =>
        simp only [effect, hopen] at hf
        cases hf
      | ok key =>
        simp only [effect, hopen] at hf
        cases hf
        cases h
        exact .inr ⟨passphrase, hopen⟩
    | close =>
      simp only [perform, hf] at h
      cases hf
      cases h
    | addPublicKey | addPrivateKey | keyIdFor =>
      left
      apply hsame f hf
      refine onInstance_key (fun masterKey f h s' => ?_) hf
      apply map_key h
      exact fun _ _ => rfl

/-! ## With a header -/

/-- The header is that of the key, and so is the instance. -/
structure Sealed (V : Vault δ) (salt : Octets) (iterations : Int) (key : Octets) (s : Keep) :
    Prop where
  inUse : s.disk.inUse = true
  header : s.disk.header = some (V.keystoreHeader.dump
    ⟨0, salt, iterations, V.deriveCheckTag key salt⟩)
  instanceKey : ∀ k, s.masterKey = some k → k = key

theorem Sealed.openDirectory (hV : V.Correct) (h : s.Sealed V salt iterations key)
    (passphrase : Octets) : V.openDirectory s.disk passphrase =
      match V.pbkdf2 passphrase salt iterations with
      | none => .error .valueError
      | some k => if k = key then .ok key else .error .wrongPassphrase := by
  rw [Vault.openDirectory, h.header]
  change (V.keystoreHeader.load _ >>= _) = _
  rw [Codec.load_dump (hV.parse_header _)]
  change (match V.pbkdf2 passphrase salt iterations with
    | none => Except.error KeystoreError.valueError
    | some k => if V.deriveCheckTag k salt = V.deriveCheckTag key salt then .ok k
      else .error .wrongPassphrase) = _
  cases V.pbkdf2 passphrase salt iterations with
  | none => rfl
  | some k =>
    by_cases hk : k = key
    · simp only [hk, ↓reduceIte]
    · have htag : V.deriveCheckTag k salt ≠ V.deriveCheckTag key salt :=
        fun htag => hk (hV.tag_inj _ _ _ htag)
      simp only [hk, htag, ↓reduceIte]

theorem Sealed.open_key (hV : V.Correct) (h : s.Sealed V salt iterations key) {k : Octets}
    (hopen : V.openDirectory s.disk passphrase = .ok k) : k = key := by
  rw [h.openDirectory hV] at hopen
  split at hopen
  · cases hopen
  · split at hopen
    · exact (Except.ok.inj hopen).symm
    · cases hopen

theorem Sealed.perform (hV : V.Correct) (h : s.Sealed V salt iterations key) (op : KeyOp δ) :
    (s.perform V op).Sealed V salt iterations key := by
  constructor
  · rw [perform_disk]
    exact Disk.writes_inUse h.inUse _
  · rw [perform_disk, Disk.writes_header (effect_headless h.inUse op)]
    exact h.header
  · intro k hk
    obtain hk | ⟨passphrase, hopen⟩ := perform_key h.inUse hk
    · exact h.instanceKey k hk
    · exact h.open_key hV hopen

theorem Sealed.stop (h : s.Sealed V salt iterations key) (op : KeyOp δ) (n : Nat) :
    (s.stop V op n).Sealed V salt iterations key := by
  constructor
  · exact Disk.writes_inUse h.inUse _
  · refine Eq.trans (Disk.writes_header fun data hmem => ?_) h.header
    exact effect_headless h.inUse op data (List.mem_of_mem_take hmem)
  · exact h.instanceKey

end Keep

/-! ## Runs -/

section
variable {δ : Type} {V : Vault δ} {O : Oschmod} {s s' : Keep} {t t' : FileTree}
  {ends : Files.Stop → Prop}

/-- Some passphrase gives the key. -/
def Vault.Derives (V : Vault δ) (salt : Octets) (iterations : Int) (key : Octets) : Prop :=
  ∃ passphrase, V.pbkdf2 passphrase salt iterations = some key

/-- Without a header there is no instance, and only `create` makes one. -/
theorem Keep.unsealed_effect (hheader : s.disk.header = none) (hkey : s.masterKey = none)
    (op : KeyOp δ) :
    ((∀ data, .header data ∉ (s.effect V op).writes) ∧ (s.perform V op).masterKey = none) ∨
      ∃ salt iterations key, V.Derives salt iterations key ∧
        s.effect V op = ⟨[.directories, .header (V.keystoreHeader.dump
          ⟨0, salt, iterations, V.deriveCheckTag key salt⟩)],
          .ok fun s => { s with masterKey := some key }⟩ := by
  have hsame : s.perform V op = s → (s.effect V op).writes = [] →
      (∀ data, .header data ∉ (s.effect V op).writes) ∧ (s.perform V op).masterKey = none := by
    intro hperform hwrites
    rw [hperform, hwrites]
    exact ⟨fun _ => List.not_mem_nil, hkey⟩
  cases op with
  | create passphrase salt iterations =>
    cases hused : s.disk.inUse with
    | true =>
      left
      have heff : s.effect V (.create passphrase salt iterations) =
          ⟨[], .error .keyDirectoryError⟩ := by
        simp only [effect, Vault.create, hused, ↓reduceIte]
        rfl
      exact hsame (perform_of_error heff) (by rw [heff])
    | false =>
      cases hderive : V.pbkdf2 passphrase salt iterations with
      | none =>
        left
        have heff : s.effect V (.create passphrase salt iterations) =
            ⟨[.directories], .error .valueError⟩ := by
          simp only [effect, Vault.create, hused, Bool.false_eq_true, ↓reduceIte, hderive]
          rfl
        simp only [Keep.perform, heff, hkey, List.mem_singleton, reduceCtorEq, not_false_eq_true,
          implies_true, and_self]
      | some key =>
        right
        refine ⟨salt, iterations, key, ⟨passphrase, hderive⟩, ?_⟩
        simp only [effect, Vault.create, hused, Bool.false_eq_true, ↓reduceIte, hderive]
        rfl
  | openDirectory passphrase =>
    left
    have heff : s.effect V (.openDirectory passphrase) = ⟨[], .error .keyDirectoryError⟩ := by
      simp only [effect, Vault.openDirectory, hheader]
      rfl
    exact hsame (perform_of_error heff) (by rw [heff])
  | close => exact .inl ⟨fun _ => List.not_mem_nil, rfl⟩
  | addPublicKey | addPrivateKey | keyIdFor =>
    left
    apply hsame
    · exact perform_of_ok [] (f := id) (by simp only [effect, onInstance, hkey])
    · simp only [effect, onInstance, hkey]

/-- There is no header and no instance, or both are those of one call of `create`. -/
theorem KeyRun.sealed (hV : V.Correct) {mayStop : KeyOp δ → Nat → Prop} (h : KeyRun V mayStop s) :
    (s.disk.header = none ∧ s.masterKey = none) ∨
      ∃ salt iterations key, V.Derives salt iterations key ∧ s.Sealed V salt iterations key := by
  induction h with
  | initial => exact .inl ⟨rfl, rfl⟩
  | @perform s op _ ih =>
    obtain ⟨hheader, hkey⟩ | ⟨salt, iterations, key, hderives, hs⟩ := ih
    · obtain ⟨hwrites, hkey'⟩ | ⟨salt, iterations, key, hderives, heff⟩ :=
        Keep.unsealed_effect (V := V) hheader hkey op
      · left
        rw [Keep.perform_disk, Disk.writes_header hwrites]
        exact ⟨hheader, hkey'⟩
      · right
        refine ⟨salt, iterations, key, hderives, ?_⟩
        rw [Keep.perform_of_ok _ heff]
        refine ⟨rfl, rfl, fun k hk => ?_⟩
        cases hk
        rfl
    · exact .inr ⟨salt, iterations, key, hderives, hs.perform hV op⟩
  | @stop s op n _ _ ih =>
    obtain ⟨hheader, hkey⟩ | ⟨salt, iterations, key, hderives, hs⟩ := ih
    · obtain ⟨hwrites, _⟩ | ⟨salt, iterations, key, hderives, heff⟩ :=
        Keep.unsealed_effect (V := V) hheader hkey op
      · left
        refine ⟨Eq.trans (Disk.writes_header fun data hmem => ?_) hheader, hkey⟩
        exact hwrites data (List.mem_of_mem_take hmem)
      · rw [Keep.stop, heff]
        match n with
        | 0 => exact .inl ⟨hheader, hkey⟩
        | 1 => exact .inl ⟨hheader, hkey⟩
        | n + 2 =>
          right
          refine ⟨salt, iterations, key, hderives, ?_⟩
          rw [List.take_of_length_le (Nat.le_add_left 2 n)]
          refine ⟨rfl, rfl, fun k hk => ?_⟩
          change s.masterKey = some k at hk
          rw [hkey] at hk
          cases hk
    · exact .inr ⟨salt, iterations, key, hderives, hs.stop op n⟩

/-- One more call, whole or interrupted, or failure of the power. -/
inductive FileStep (V : Vault δ) (O : Oschmod) (ends : Files.Stop → Prop) :
    FileTree × Keep → FileTree × Keep → Prop
  | perform {t t' : FileTree} {s : Keep} (op : KeyOp δ) :
      t.CarriesAll O ((s.over t).effect V op).writes t' →
      FileStep V O ends (t, s) (t', (s.over t).perform V op)
  | stop {t t' : FileTree} {s : Keep} (op : KeyOp δ) :
      t.BreaksOff O ends ((s.over t).effect V op).writes t' → FileStep V O ends (t, s) (t', s)
  | crash {t : FileTree} {s : Keep} (torn : FilePath → Octets → Octets) :
      FileStep V O ends (t, s) ({ t with files := t.files.crash torn }, { s with masterKey := none })

theorem FileRun.step {x x' : FileTree × Keep} (h : FileRun V O ends x.1 x.2)
    (hstep : FileStep V O ends x x') : FileRun V O ends x'.1 x'.2 := by
  cases hstep with
  | perform op hwrites => exact .perform op h hwrites
  | stop op hwrites => exact .stop op h hwrites
  | crash torn => exact .crash torn h

theorem FileStep.sealed (hV : V.Correct) {x x' : FileTree × Keep} {salt key : Octets}
    {iterations : Int} (hstep : FileStep V O ends x x') (h : FileRun V O ends x.1 x.2)
    (hs : (x.2.over x.1).Sealed V salt iterations key) :
    (x'.2.over x'.1).Sealed V salt iterations key := by
  obtain ⟨hsound, hrun⟩ := h.simulated
  cases hstep with
  | perform op hwrites =>
    rw [(hwrites.over hsound (hrun.readyAll hsound op)).2]
    exact hs.perform hV op
  | stop op hwrites =>
    obtain ⟨_, n, hover⟩ := hwrites.over hsound (hrun.readyAll hsound op)
    rw [hover]
    exact hs.stop op n
  | crash torn =>
    rw [hsound.over_crash (V := V) torn]
    exact hs.perform hV .close

theorem FileRun.later_sealed (hV : V.Correct) {x x' : FileTree × Keep} {salt key : Octets}
    {iterations : Int} (h : FileRun V O ends x.1 x.2)
    (hlater : Relation.ReflTransGen (FileStep V O ends) x x')
    (hs : (x.2.over x.1).Sealed V salt iterations key) :
    FileRun V O ends x'.1 x'.2 ∧ (x'.2.over x'.1).Sealed V salt iterations key := by
  induction hlater with
  | refl => exact ⟨h, hs⟩
  | tail _ hstep ih => exact ⟨ih.1.step hstep, hstep.sealed hV ih.1 ih.2⟩

/-- How the directory of a key answers: `open` to any passphrase, and `create` to any call. -/
structure FileTree.Locked (V : Vault δ) (salt : Octets) (iterations : Int) (key : Octets)
    (t : FileTree) (s : Keep) : Prop where
  opens : ∀ passphrase, V.openDirectory t.disk passphrase =
    match V.pbkdf2 passphrase salt iterations with
    | none => .error .valueError
    | some k => if k = key then .ok key else .error .wrongPassphrase
  instanceKey : ∀ k, s.masterKey = some k → k = key
  taken : ∀ passphrase kdfSalt iterations, V.create t.disk passphrase kdfSalt iterations =
    ⟨[], .error .keyDirectoryError⟩

theorem Keep.Sealed.locked (hV : V.Correct) {salt key : Octets} {iterations : Int}
    (hs : (s.over t).Sealed V salt iterations key) : t.Locked V salt iterations key s where
  opens := hs.openDirectory hV
  instanceKey := hs.instanceKey
  taken passphrase kdfSalt iterations := by
    have hused : t.disk.inUse = true := hs.inUse
    rw [Vault.create, if_pos hused]

/-- A directory with a header has one master key. Exactly the passphrases that derive it, of
which there is one, open the directory, and that stays so. -/
theorem FileRun.passphrases_fixed (hV : V.Correct) (h : FileRun V O ends t s)
    (hheader : (t.files.get? headerPath).isSome = true) :
    ∃ salt iterations key, V.Derives salt iterations key ∧
      ∀ t' s', Relation.ReflTransGen (FileStep V O ends) (t, s) (t', s') →
        t'.Locked V salt iterations key s' := by
  obtain ⟨_, hrun⟩ := h.simulated
  obtain ⟨hnone, _⟩ | ⟨salt, iterations, key, hderives, hs⟩ := hrun.sealed hV
  · have hnone : (t.files.get? headerPath).map File.data = none := hnone
    rw [Option.map_eq_none_iff] at hnone
    rw [hnone] at hheader
    cases hheader
  · refine ⟨salt, iterations, key, hderives, fun t' s' hlater => ?_⟩
    have hs' := (h.later_sealed hV hlater hs).2
    exact hs'.locked hV

end

/-- A directory that was created and lost the power while a key was being added. -/
theorem FileRun.passphrases_fixed_powerless :
    ∃ salt iterations key, Plain.vault.Derives salt iterations key ∧
      ∀ t' s', Relation.ReflTransGen (FileStep Plain.vault Plain.oschmod fun _ => True)
        (Plain.powerless, Plain.endedKeep) (t', s') →
          t'.Locked Plain.vault salt iterations key s' :=
  FileRun.passphrases_fixed Plain.correct
    (.crash (fun _ _ => [0]) (Plain.stopped_run trivial)) (by decide +kernel)

end KemMake
