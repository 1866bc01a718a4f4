import KemMake.Plain
import KemMake.Saving

/-!
# What interruptions leave of the files

Files are made under temporary names and renamed, so those in their places are whole: a run on
the file system is one whose writes are atomic (`FileRun.refines`). Nothing is ever readable by
others but public keys (`FileRun.modes_kept`).
-/

namespace KemMake

/-! ## Directories -/

namespace FileTree
variable {O : Oschmod} {t t' : FileTree}

/-- All directories are there, and nobody else may enter them. -/
def Prepared (O : Oschmod) (t : FileTree) : Prop :=
  ∀ folder, t.dirs.get? folder = some (O.setMode 0o700)

theorem Prepared.inUse (h : t.Prepared O) : t.inUse = true := by
  simp [FileTree.inUse, h .publicKeys]

theorem dirCalls_files (calls : List DirCall) : (t.dirCalls calls).files = t.files := by
  induction calls generalizing t with
  | nil => rfl
  | cons c calls ih =>
    refine (ih (t := t.dirCall c)).trans ?_
    cases c with
    | mkdir folder mode =>
      simp only [dirCall]
      split <;> rfl
    | chmod => rfl

theorem dirs_mkdir {folder folder' : Folder} {mode mode' : Nat}
    (h : t.dirs.get? folder' = some mode') :
    (t.dirCall (.mkdir folder mode)).dirs.get? folder' = some mode' := by
  simp only [dirCall]
  split
  · exact h
  · rename_i hnone
    have hne : folder' ≠ folder := by
      rintro rfl
      rw [h] at hnone
      cases hnone
    exact (Dict.get?_set_of_ne _ hne _).trans h

theorem dirs_chmod {folder folder' : Folder} {mode : Nat} :
    (t.dirCall (.chmod folder mode)).dirs.get? folder' =
      if folder' = folder then some mode else t.dirs.get? folder' :=
  Dict.get?_set _ _ _ _

theorem prepared_dirCalls (O : Oschmod) (t : FileTree) (umasked : Nat) :
    (t.dirCalls (makeDirectories O umasked)).Prepared O := by
  intro folder
  simp only [dirCalls, makeDirectories, List.foldl_cons, List.foldl_nil, dirs_chmod]
  cases folder with
  | top =>
    rw [if_neg (by decide)]
    apply dirs_mkdir
    rw [dirs_chmod, if_neg (by decide)]
    apply dirs_mkdir
    rw [dirs_chmod, if_pos rfl]
  | publicKeys =>
    rw [if_neg (by decide)]
    apply dirs_mkdir
    rw [dirs_chmod, if_pos rfl]
  | privateKeys => rw [if_pos rfl]

/-! ## What a write leaves -/

theorem Draft.ne {path : FilePath} {data : Octets} (draft : t.Draft path data)
    (hpath : ¬ path.Temporary) : draft.temp ≠ path := by
  intro heq
  exact hpath (heq ▸ draft.partOf.temporary)

end FileTree

theorem FilePath.stem_of_ne {folder folder' : Folder} (name : Octets) (h : folder ≠ folder') :
    (⟨folder, name⟩ : FilePath).stem folder' = none := if_neg fun hand => h hand.1

theorem Write.args_der {w : Write} {path : FilePath} {data : Octets} {mode : Nat}
    (h : w.args = some (path, data, mode)) : ¬ path.Temporary := by
  cases w with
  | directories => cases h
  | header =>
    cases h
    exact FilePath.not_temporary .top (ascii "header")
  | altIndex =>
    cases h
    exact FilePath.not_temporary .top (ascii "alt_index")
  | publicKey hexId =>
    cases h
    exact FilePath.not_temporary .publicKeys hexId
  | privateKey hexId =>
    cases h
    exact FilePath.not_temporary .privateKeys hexId

/-- The mode of a file that is in its place. -/
def FilePath.mode (path : FilePath) : Nat := if path.folder = .publicKeys then 0o644 else 0o600

theorem Write.args_mode {w : Write} {path : FilePath} {data : Octets} {mode : Nat}
    (h : w.args = some (path, data, mode)) : mode = path.mode := by
  cases w with
  | directories => cases h
  | header | altIndex | publicKey | privateKey =>
    cases h
    rfl

namespace FileTree
variable {O : Oschmod} {t t' : FileTree}

/-- A temporary file is nothing to those who read. -/
theorem disk_erase {temp : FilePath} (htemp : temp.Temporary) (hp : t.Prepared O)
    (hdirs : t'.dirs = t.dirs) (hfiles : t'.files.erase temp = t.files) : t'.disk = t.disk := by
  have hget : ∀ path, ¬ path.Temporary → t'.files.get? path = t.files.get? path := by
    intro path hpath
    have hne : path ≠ temp := fun heq => hpath (heq ▸ htemp)
    rw [← hfiles, Dict.get?_erase_of_ne _ hne]
  have hused : t'.inUse = t.inUse := by
    have hp' : t'.Prepared O := by
      intro folder
      rw [hdirs]
      exact hp folder
    rw [hp.inUse, hp'.inUse]
  have hheader := hget headerPath (FilePath.not_temporary .top (ascii "header"))
  have hindex := hget altIndexPath (FilePath.not_temporary .top (ascii "alt_index"))
  simp only [disk, hused, hheader, hindex, ← hfiles, Dict.select_erase (htemp.stem _)]

theorem disk_set {w : Write} {path : FilePath} {data : Octets} {mode : Nat}
    (h : w.args = some (path, data, mode)) (hp : t.Prepared O) :
    ({ t with files := t.files.set path ⟨data, O.setMode mode, true⟩ } : FileTree).disk =
      t.disk.write w := by
  have hused : ({ t with files := t.files.set path ⟨data, O.setMode mode, true⟩ } :
      FileTree).inUse = t.inUse := by
    rw [hp.inUse]
    exact Prepared.inUse hp
  unfold disk
  rw [hused]
  cases w with
  | directories => cases h
  | header =>
    cases h
    have hpublic : headerPath.stem .publicKeys = none := FilePath.stem_of_ne _ (by decide)
    have hprivate : headerPath.stem .privateKeys = none := FilePath.stem_of_ne _ (by decide)
    simp only [Disk.write, Dict.get?_set_self, Option.map_some, Dict.select_set_none hpublic,
      Dict.select_set_none hprivate, Dict.get?_set_of_ne _ (show altIndexPath ≠ headerPath by decide)]
  | altIndex =>
    cases h
    have hpublic : altIndexPath.stem .publicKeys = none := FilePath.stem_of_ne _ (by decide)
    have hprivate : altIndexPath.stem .privateKeys = none := FilePath.stem_of_ne _ (by decide)
    simp only [Disk.write, Dict.get?_set_self, Option.map_some, Dict.select_set_none hpublic,
      Dict.select_set_none hprivate, Dict.get?_set_of_ne _ (show headerPath ≠ altIndexPath by decide)]
  | publicKey hexId =>
    cases h
    have hprivate : (publicPath hexId).stem .privateKeys = none := FilePath.stem_of_ne _ (by decide)
    have hpublic : (publicPath hexId).stem .publicKeys = some hexId := FilePath.stem_eq_some.mpr rfl
    have htop : ∀ name, (⟨.top, name⟩ : FilePath) ≠ publicPath hexId := fun _ heq => by
      cases congrArg FilePath.folder heq
    simp only [Disk.write, Dict.select_set_none hprivate, Dict.select_set hpublic,
      Dict.get?_set_of_ne _ (htop _), headerPath, altIndexPath]
  | privateKey hexId =>
    cases h
    have hpublic : (privatePath hexId).stem .publicKeys = none := FilePath.stem_of_ne _ (by decide)
    have hprivate : (privatePath hexId).stem .privateKeys = some hexId := FilePath.stem_eq_some.mpr rfl
    have htop : ∀ name, (⟨.top, name⟩ : FilePath) ≠ privatePath hexId := fun _ heq => by
      cases congrArg FilePath.folder heq
    simp only [Disk.write, Dict.select_set_none hpublic, Dict.select_set hprivate,
      Dict.get?_set_of_ne _ (htop _), headerPath, altIndexPath]

/-- What every run keeps: files have the mode of their place, or are temporary and still have
that of `mkstemp`; those in place are on the medium; and there are none before all directories
have their mode. -/
structure Sound (O : Oschmod) (t : FileTree) : Prop where
  mode : ∀ path file, t.files.get? path = some file →
    file.mode = O.setMode path.mode ∨ path.Temporary ∧ file.mode = 0o600
  synced : ∀ path file, t.files.get? path = some file → ¬ path.Temporary → file.synced = true
  prepared : ∀ path file, t.files.get? path = some file → t.Prepared O

/-- Where the next write finds what it needs. -/
def Ready (O : Oschmod) (t : FileTree) : Write → Prop
  | .directories => t.inUse = false
  | _ => t.Prepared O

theorem Sound.no_files (h : t.Sound O) (hused : t.inUse = false) (path : FilePath) :
    t.files.get? path = none := by
  cases hfile : t.files.get? path with
  | none => rfl
  | some file =>
    have hp := (h.prepared path file hfile).inUse
    rw [hused] at hp
    cases hp

theorem Sound.dirCalls (h : t.Sound O) (hused : t.inUse = false) (calls : List DirCall) :
    (t.dirCalls calls).Sound O := by
  have hnone : ∀ path, (t.dirCalls calls).files.get? path = none := by
    intro path
    rw [dirCalls_files]
    exact h.no_files hused path
  constructor <;> intro path file hfile <;> rw [hnone path] at hfile <;> cases hfile

/-- The new file is in its place. -/
theorem Sound.set (h : t.Sound O) {w : Write} {path : FilePath} {data : Octets} {mode : Nat}
    (hargs : w.args = some (path, data, mode)) (hp : t.Prepared O) :
    ({ t with files := t.files.set path ⟨data, O.setMode mode, true⟩ } : FileTree).Sound O := by
  have hold : ∀ path' file, (t.files.set path ⟨data, O.setMode mode, true⟩).get? path' = some file →
      path' = path ∧ file = ⟨data, O.setMode mode, true⟩ ∨ t.files.get? path' = some file := by
    intro path' file hfile
    rw [Dict.get?_set] at hfile
    split at hfile
    · rename_i heq
      exact .inl ⟨heq, (Option.some.inj hfile).symm⟩
    · exact .inr hfile
  constructor
  · intro path' file hfile
    obtain ⟨rfl, rfl⟩ | hfile := hold path' file hfile
    · exact .inl (congrArg O.setMode (Write.args_mode hargs))
    · exact h.mode path' file hfile
  · intro path' file hfile htemp
    obtain ⟨rfl, rfl⟩ | hfile := hold path' file hfile
    · rfl
    · exact h.synced path' file hfile htemp
  · exact fun _ _ _ => hp

/-- A temporary file has been filled, but not renamed. -/
theorem Sound.fill (h : t.Sound O) {temp : FilePath} {mode : Nat} (htemp : temp.Temporary)
    (hmode : mode = temp.mode) (hfree : t.files.get? temp = none) (hp : t.Prepared O)
    {calls : List (Files.Call FilePath UInt8)}
    (hcalls : ∀ c ∈ calls, c.Fills temp [0o600, O.setMode mode]) :
    (t.fileCalls calls).Sound O := by
  have herase : (t.files.run calls).erase temp = t.files :=
    (Files.run_erase hcalls).trans (Dict.erase_of_get?_none hfree)
  have hold : ∀ path file, (t.files.run calls).get? path = some file →
      path = temp ∧ file.mode ∈ [0o600, O.setMode mode] ∨ t.files.get? path = some file := by
    intro path file hfile
    by_cases heq : path = temp
    · subst heq
      refine .inl ⟨rfl, Files.run_mode hcalls (fun file hfile => ?_) file hfile⟩
      rw [hfree] at hfile
      cases hfile
    · right
      rw [← herase, Dict.get?_erase_of_ne _ heq]
      exact hfile
  constructor
  · intro path file hfile
    obtain ⟨rfl, hmem⟩ | hfile := hold path file hfile
    · simp only [List.mem_cons, List.not_mem_nil, or_false] at hmem
      obtain hmem | hmem := hmem
      · exact .inr ⟨htemp, hmem⟩
      · exact .inl (hmem.trans (congrArg O.setMode hmode))
    · exact h.mode path file hfile
  · intro path file hfile hin
    obtain ⟨rfl, _⟩ | hfile := hold path file hfile
    · exact absurd htemp hin
    · exact h.synced path file hfile hin
  · exact fun _ _ _ => hp

/-- Only the data of temporary files is lost. -/
theorem Sound.crash_get? (h : t.Sound O) (torn : FilePath → Octets → Octets) {path : FilePath}
    {file : File UInt8} (hfile : (t.files.crash torn).get? path = some file) :
    ∃ old, t.files.get? path = some old ∧ file.mode = old.mode ∧
      (¬ path.Temporary → file = old) := by
  rw [Files.get?_crash, Option.map_eq_some_iff] at hfile
  obtain ⟨old, hold, rfl⟩ := hfile
  refine ⟨old, hold, ?_, fun hin => ?_⟩
  · split <;> rfl
  · rw [if_pos (h.synced path old hold hin)]

theorem Sound.crash (h : t.Sound O) (torn : FilePath → Octets → Octets) :
    ({ t with files := t.files.crash torn } : FileTree).Sound O := by
  constructor
  · intro path file hfile
    obtain ⟨old, hold, hmode, _⟩ := h.crash_get? torn hfile
    rw [hmode]
    exact h.mode path old hold
  · intro path file hfile hin
    obtain ⟨old, hold, _, hsame⟩ := h.crash_get? torn hfile
    rw [hsame hin]
    exact h.synced path old hold hin
  · intro path file hfile
    obtain ⟨old, hold, _⟩ := h.crash_get? torn hfile
    exact h.prepared path old hold

theorem Sound.disk_crash (h : t.Sound O) (torn : FilePath → Octets → Octets) :
    ({ t with files := t.files.crash torn } : FileTree).disk = t.disk := by
  have hget : ∀ path, ¬ path.Temporary →
      (t.files.crash torn).get? path = t.files.get? path := by
    intro path hin
    rw [Files.get?_crash]
    cases hfile : t.files.get? path with
    | none => rfl
    | some file => rw [Option.map_some, if_pos (h.synced path file hfile hin)]
  have hused : ({ t with files := t.files.crash torn } : FileTree).inUse = t.inUse := by
    have hkeys : (t.files.crash torn).keys = t.files.keys := by
      simp [Files.crash, Dict.keys, Dict.mapValues]
    simp only [inUse, hkeys]
  have hselect : ∀ folder, (t.files.crash torn).select (FilePath.stem folder)
      (FilePath.stem_inj folder) File.data = t.files.select (FilePath.stem folder)
        (FilePath.stem_inj folder) File.data := by
    intro folder
    apply Dict.select_mapValues
    intro entry hentry hstem
    have hin : ¬ entry.1.Temporary := fun htemp => hstem (htemp.stem folder)
    rw [if_pos (h.synced entry.1 entry.2 (Dict.get?_of_mem hentry) hin)]
  simp only [disk, hused, hselect, hget headerPath (FilePath.not_temporary .top (ascii "header")),
    hget altIndexPath (FilePath.not_temporary .top (ascii "alt_index"))]

/-! ## One write -/

theorem disk_directories (hused : t'.inUse = true) (hfiles : t'.files = t.files) :
    t'.disk = t.disk.write .directories := by
  simp only [disk, hused, hfiles, Disk.write]

theorem Carries.spec {w : Write} (hc : t.Carries O w t') (h : t.Sound O) (hready : t.Ready O w) :
    t'.Sound O ∧ t'.Prepared O ∧ t'.disk = t.disk.write w := by
  cases hc with
  | directories umasked =>
    have hp := prepared_dirCalls O t umasked
    exact ⟨h.dirCalls hready _, hp, disk_directories hp.inUse (dirCalls_files _)⟩
  | @file _ path data mode hargs draft =>
    have hp : t.Prepared O := by
      cases w with
      | directories => cases hargs
      | header | publicKey | privateKey | altIndex => exact hready
    have hrun : t.fileCalls (atomicWrite O path draft.temp draft.chunks mode) =
        { t with files := t.files.set path ⟨data, O.setMode mode, true⟩ } := by
      rw [fileCalls, atomicWrite, Files.run_replacing draft.unused, draft.whole]
    rw [hrun]
    exact ⟨h.set hargs hp, hp, disk_set hargs hp⟩

theorem Breaks.spec {ends : Files.Stop → Prop} {w : Write} (hb : t.Breaks O ends w t') (h : t.Sound O)
    (hready : t.Ready O w) : t'.Sound O ∧ (t'.disk = t.disk ∨ t'.disk = t.disk.write w) := by
  cases hb with
  | directories umasked n =>
    refine ⟨h.dirCalls hready _, ?_⟩
    cases hused : (t.dirCalls ((makeDirectories O umasked).take n)).inUse with
    | true => exact .inr (disk_directories hused (dirCalls_files _))
    | false =>
      have hsame : t.inUse = false := hready
      left
      simp only [disk, hused, hsame, dirCalls_files]
  | @file _ path data mode hargs draft stop =>
    have hp : t.Prepared O := by
      cases w with
      | directories => cases hargs
      | header | publicKey | privateKey | altIndex => exact hready
    by_cases hearly : stop.made ≤ (Files.filling draft.temp 0o600 (O.setMode mode) draft.chunks).length
    · have hcalls := Files.replacing_early path hearly
      have hmode : mode = draft.temp.mode := by
        rw [Write.args_mode hargs, FilePath.mode, FilePath.mode, draft.partOf.1]
      refine ⟨h.fill draft.partOf.temporary hmode draft.unused hp hcalls, .inl ?_⟩
      refine disk_erase draft.partOf.temporary hp rfl ?_
      exact (Files.run_erase hcalls).trans (Dict.erase_of_get?_none draft.unused)
    · have hrun : t.fileCalls (stop.calls draft.temp
          (atomicWrite O path draft.temp draft.chunks mode)) =
            { t with files := t.files.set path ⟨data, O.setMode mode, true⟩ } := by
        rw [fileCalls, atomicWrite, Files.replacing_late draft.unused
          (draft.ne (Write.args_der hargs)) hearly, draft.whole]
      rw [hrun]
      exact ⟨h.set hargs hp, .inr (disk_set hargs hp)⟩

/-! ## The writes of a call -/

def ReadyAll (O : Oschmod) (t : FileTree) : List Write → Prop
  | [] => True
  | w :: ws => t.Ready O w ∧ .directories ∉ ws

theorem Prepared.readyAll (hp : t.Prepared O) {ws : List Write} (h : .directories ∉ ws) :
    t.ReadyAll O ws := by
  cases ws with
  | nil => trivial
  | cons w ws =>
    refine ⟨?_, fun hmem => h (List.mem_cons_of_mem _ hmem)⟩
    cases w with
    | directories => exact absurd List.mem_cons_self h
    | header | publicKey | privateKey | altIndex => exact hp

theorem CarriesAll.spec {ws : List Write} (hc : t.CarriesAll O ws t') (h : t.Sound O)
    (hready : t.ReadyAll O ws) : t'.Sound O ∧ t'.disk = t.disk.writes ws := by
  induction hc with
  | nil => exact ⟨h, rfl⟩
  | cons hw _ ih =>
    obtain ⟨hsound, hp, hdisk⟩ := hw.spec h hready.1
    obtain ⟨hsound', hdisk'⟩ := ih hsound (hp.readyAll hready.2)
    refine ⟨hsound', ?_⟩
    rw [hdisk', hdisk]
    rfl

theorem BreaksOff.spec {ends : Files.Stop → Prop} {ws : List Write} (hb : t.BreaksOff O ends ws t')
    (h : t.Sound O) (hready : t.ReadyAll O ws) :
    t'.Sound O ∧ ∃ n, t'.disk = t.disk.writes (ws.take n) := by
  induction hb with
  | here => exact ⟨h, 0, rfl⟩
  | within ws hw =>
    obtain ⟨hsound, hdisk | hdisk⟩ := hw.spec h hready.1
    · exact ⟨hsound, 0, hdisk⟩
    · exact ⟨hsound, 1, hdisk⟩
  | later hw _ ih =>
    obtain ⟨hsound, hp, hdisk⟩ := hw.spec h hready.1
    obtain ⟨hsound', n, hdisk'⟩ := ih hsound (hp.readyAll hready.2)
    refine ⟨hsound', n + 1, ?_⟩
    rw [hdisk', hdisk]
    rfl

end FileTree

/-! ## Runs -/

section
variable {δ : Type} {V : Vault δ} {O : Oschmod} {t : FileTree} {s : Keep}
  {ends : Files.Stop → Prop}

/-- The file is one of a key, or the index. -/
def Write.OfKey : Write → Prop
  | .directories | .header _ => False
  | .publicKey _ _ | .privateKey _ _ | .altIndex _ => True

/-- All calls but `create` write the files of keys, and need an instance for that. -/
theorem Keep.effect_writes (s : Keep) (op : KeyOp δ) :
    (∃ passphrase salt iterations, op = .create passphrase salt iterations) ∨
      (s.effect V op).writes = [] ∨
        s.masterKey.isSome = true ∧ ∀ w ∈ (s.effect V op).writes, w.OfKey := by
  have honInstance : ∀ call : Octets → Effect (Keep → Keep),
      (∀ masterKey, ∀ w ∈ (call masterKey).writes, w.OfKey) →
        (s.onInstance call).writes = [] ∨
          s.masterKey.isSome = true ∧ ∀ w ∈ (s.onInstance call).writes, w.OfKey := by
    intro call hcall
    unfold Keep.onInstance
    split
    · exact .inl rfl
    · rename_i masterKey hkey
      exact .inr ⟨by rw [hkey]; rfl, hcall masterKey⟩
  cases op with
  | create passphrase salt iterations => exact .inl ⟨passphrase, salt, iterations, rfl⟩
  | openDirectory | close => exact .inr (.inl rfl)
  | addPublicKey key salt =>
    refine .inr (honInstance _ fun masterKey => ?_)
    simp only [Effect.map, Vault.addPublicKey]
    split <;> simp [Write.OfKey]
  | addPrivateKey key secret salt =>
    refine .inr (honInstance _ fun masterKey => ?_)
    simp only [Effect.map, Vault.addPrivateKey]
    split
    · simp
    · split
      · simp
      · split <;> simp [Write.OfKey]
  | keyIdFor ref digest salt altSalt =>
    refine .inr (honInstance _ fun masterKey => ?_)
    simp only [Effect.map, Vault.keyIdFor]
    split
    · simp
    · split
      · simp
      · simp only [Vault.altIndexAdd]
        split <;> simp [Write.OfKey]

/-- Only `create` makes directories, and only where there is nothing. -/
theorem Keep.effect_readyAll (hopen : s.masterKey.isSome = true → t.Prepared O) (op : KeyOp δ) :
    t.ReadyAll O ((s.over t).effect V op).writes := by
  obtain ⟨passphrase, salt, iterations, rfl⟩ | hnone | ⟨hkey, hkeys⟩ :=
    Keep.effect_writes (V := V) (s.over t) op
  · cases hused : t.inUse with
    | true =>
      have hused : (s.over t).disk.inUse = true := hused
      simp only [Keep.effect, Vault.create, hused, ↓reduceIte, Effect.map]
      trivial
    | false =>
      have hused' : (s.over t).disk.inUse = false := hused
      simp only [Keep.effect, Vault.create, hused', Bool.false_eq_true, ↓reduceIte, Effect.map]
      split
      · exact ⟨hused, List.not_mem_nil⟩
      · exact ⟨hused, by simp⟩
  · rw [hnone]
    trivial
  · exact (hopen hkey).readyAll fun hmem => hkeys _ hmem

theorem Disk.header_writes {d : Disk} (h : d.header.isSome = true) (ws : List Write) :
    (d.writes ws).header.isSome = true := by
  induction ws generalizing d with
  | nil => exact h
  | cons w ws ih =>
    apply ih (d := d.write w)
    cases w with
    | header => rfl
    | directories | publicKey | privateKey | altIndex => exact h

/-- An instance comes from `create`, which writes the header, or `open`, which reads it. -/
theorem Keep.opened (s : Keep) (op : KeyOp δ) (h : (s.perform V op).masterKey.isSome = true) :
    s.masterKey.isSome = true ∨ (s.perform V op).disk.header.isSome = true := by
  cases hkey : s.masterKey with
  | some key => exact .inl rfl
  | none =>
    right
    cases op with
    | create passphrase kdfSalt iterations =>
      cases hused : s.disk.inUse with
      | true =>
        rw [perform_of_error (by simp only [effect, Vault.create, hused, ↓reduceIte]; rfl), hkey] at h
        cases h
      | false =>
        cases hderive : V.pbkdf2 passphrase kdfSalt iterations with
        | none =>
          have heff : (s.effect V (.create passphrase kdfSalt iterations)).result =
              .error .valueError := by
            simp only [effect, Vault.create, hused, Bool.false_eq_true, ↓reduceIte, hderive]
            rfl
          simp only [perform, heff, hkey] at h
          cases h
        | some key =>
          rw [perform_disk]
          simp only [effect, Vault.create, hused, Bool.false_eq_true, ↓reduceIte, hderive,
            Effect.map]
          rfl
    | openDirectory passphrase =>
      cases hheader : s.disk.header with
      | some header =>
        rw [perform_disk]
        exact Disk.header_writes (by rw [hheader]; rfl) _
      | none =>
        rw [perform_of_error (x := .keyDirectoryError)
          (by simp only [effect, Vault.openDirectory, hheader]; rfl), hkey] at h
        cases h
    | close => cases h
    | addPublicKey | addPrivateKey | keyIdFor =>
      rw [perform_of_ok [] (f := id) (by simp only [effect, onInstance, hkey])] at h
      change s.masterKey.isSome = true at h
      rw [hkey] at h
      cases h

theorem KeyRun.header_of_open {mayStop : KeyOp δ → Nat → Prop} (h : KeyRun V mayStop s)
    (hopen : s.masterKey.isSome = true) : s.disk.header.isSome = true := by
  induction h with
  | initial => cases hopen
  | @perform s op _ ih =>
    obtain hopen | hheader := s.opened op hopen
    · rw [Keep.perform_disk]
      exact Disk.header_writes (ih hopen) _
    · exact hheader
  | stop op n _ _ ih => exact Disk.header_writes (ih hopen) _

theorem KeyRun.readyAll {mayStop : KeyOp δ → Nat → Prop} (h : KeyRun V mayStop (s.over t))
    (hsound : t.Sound O) (op : KeyOp δ) : t.ReadyAll O ((s.over t).effect V op).writes := by
  apply Keep.effect_readyAll
  intro hopen
  have hheader : (t.files.get? headerPath).isSome = true := by
    have hdisk := h.header_of_open hopen
    rwa [Keep.over, FileTree.disk, Option.isSome_map] at hdisk
  obtain ⟨file, hfile⟩ := Option.isSome_iff_exists.mp hheader
  exact hsound.prepared _ file hfile

/-- A call that returns has made all its writes. -/
theorem FileTree.CarriesAll.over {t' : FileTree} {op : KeyOp δ}
    (hwrites : t.CarriesAll O ((s.over t).effect V op).writes t') (hsound : t.Sound O)
    (hready : t.ReadyAll O ((s.over t).effect V op).writes) :
    t'.Sound O ∧ ((s.over t).perform V op).over t' = (s.over t).perform V op := by
  obtain ⟨hsound', hdisk⟩ := hwrites.spec hsound hready
  refine ⟨hsound', ?_⟩
  rw [Keep.over, hdisk, show t.disk = (s.over t).disk from rfl, ← Keep.perform_disk]

/-- One that does not has made the first few. -/
theorem FileTree.BreaksOff.over {t' : FileTree} {op : KeyOp δ}
    (hwrites : t.BreaksOff O ends ((s.over t).effect V op).writes t') (hsound : t.Sound O)
    (hready : t.ReadyAll O ((s.over t).effect V op).writes) :
    t'.Sound O ∧ ∃ n, s.over t' = (s.over t).stop V op n := by
  obtain ⟨hsound', n, hdisk⟩ := hwrites.spec hsound hready
  refine ⟨hsound', n, ?_⟩
  rw [Keep.over, hdisk]
  rfl

/-- When the power fails, the instance is gone, and the files in their places are not. -/
theorem FileTree.Sound.over_crash (hsound : t.Sound O) (torn : FilePath → Octets → Octets) :
    ({ s with masterKey := none } : Keep).over { t with files := t.files.crash torn } =
      (s.over t).perform V .close := by
  rw [Keep.over, hsound.disk_crash]
  rfl

/-- The tree stays sound, and what is read of it is what a run of whole and stopped calls, each
write of which is atomic, leaves. -/
theorem FileRun.simulated (h : FileRun V O ends t s) :
    t.Sound O ∧ KeyRun V (fun _ _ => True) (s.over t) := by
  induction h with
  | absent =>
    refine ⟨?_, .initial⟩
    constructor <;> intro path file hfile <;> cases hfile
  | empty mode =>
    refine ⟨?_, ?_⟩
    · constructor <;> intro path file hfile <;> cases hfile
    · exact .initial
  | @perform t t' s op _ hwrites ih =>
    obtain ⟨hsound, hrun⟩ := ih
    obtain ⟨hsound', hover⟩ := hwrites.over hsound (hrun.readyAll hsound op)
    refine ⟨hsound', ?_⟩
    rw [hover]
    exact .perform op hrun
  | @stop t t' s op _ hwrites ih =>
    obtain ⟨hsound, hrun⟩ := ih
    obtain ⟨hsound', n, hover⟩ := hwrites.over hsound (hrun.readyAll hsound op)
    refine ⟨hsound', ?_⟩
    rw [hover]
    exact .stop op n hrun trivial
  | @crash t s torn _ ih =>
    obtain ⟨hsound, hrun⟩ := ih
    refine ⟨hsound.crash torn, ?_⟩
    rw [hsound.over_crash (V := V) torn]
    exact .perform .close hrun

/-- Whatever is interrupted, the files read as a run of whole calls and of calls that stop between
their writes leaves them: a call that returns has made all its writes, and one that does not the
first few of them. -/
theorem FileRun.refines (h : FileRun V O ends t s) : KeyRun V (fun _ _ => True) (s.over t) ∧
    ∀ (op : KeyOp δ) (t' : FileTree),
      (t.CarriesAll O ((s.over t).effect V op).writes t' →
        t'.disk = ((s.over t).perform V op).disk) ∧
      (t.BreaksOff O ends ((s.over t).effect V op).writes t' →
        ∃ n, t'.disk = ((s.over t).stop V op n).disk) := by
  obtain ⟨hsound, hrun⟩ := h.simulated
  refine ⟨hrun, fun op t' => ⟨fun hwrites => ?_, fun hwrites => ?_⟩⟩
  · rw [Keep.perform_disk]
    exact (hwrites.spec hsound (hrun.readyAll hsound op)).2
  · exact (hwrites.spec hsound (hrun.readyAll hsound op)).2

/-! ## Temporary files -/

/-- Every file is in its place. -/
def FileTree.Clean (t : FileTree) : Prop :=
  ∀ path file, t.files.get? path = some file → ¬ path.Temporary

theorem FileTree.Carries.clean {t' : FileTree} {w : Write} (hc : t.Carries O w t') (h : t.Clean) :
    t'.Clean := by
  cases hc with
  | directories umasked =>
    intro path file hfile
    rw [FileTree.dirCalls_files] at hfile
    exact h path file hfile
  | @file _ path data mode hargs draft =>
    intro path' file hfile
    rw [FileTree.fileCalls, atomicWrite, Files.run_replacing draft.unused, Dict.get?_set] at hfile
    split at hfile
    · rename_i heq
      rw [heq]
      exact Write.args_der hargs
    · exact h path' file hfile

theorem FileTree.Breaks.clean {t' : FileTree} {w : Write} (hends : ∀ stop, ends stop → stop.Handled)
    (hb : t.Breaks O ends w t') (h : t.Clean) : t'.Clean := by
  cases hb with
  | directories umasked n =>
    intro path file hfile
    rw [FileTree.dirCalls_files] at hfile
    exact h path file hfile
  | @file _ path data mode hargs draft stop hstop =>
    intro path' file hfile
    by_cases hearly : stop.made ≤ (Files.filling draft.temp 0o600 (O.setMode mode) draft.chunks).length
    · have herase := Files.run_erase (s := t.files)
        (Files.replacing_early path hearly)
      by_cases heq : path' = draft.temp
      · have hgone := Files.replacing_gone path 0o600 (O.setMode mode) draft.chunks draft.unused
          (hends stop hstop)
        rw [heq, FileTree.fileCalls, atomicWrite, hgone] at hfile
        cases hfile
      · apply h path' file
        rw [← Dict.get?_erase_of_ne _ heq, ← herase, Dict.get?_erase_of_ne _ heq]
        exact hfile
    · rw [FileTree.fileCalls, atomicWrite, Files.replacing_late draft.unused
        (draft.ne (Write.args_der hargs)) hearly, Dict.get?_set] at hfile
      split at hfile
      · rename_i heq
        rw [heq]
        exact Write.args_der hargs
      · exact h path' file hfile

theorem FileTree.CarriesAll.clean {t' : FileTree} {ws : List Write} (hc : t.CarriesAll O ws t')
    (h : t.Clean) : t'.Clean := by
  induction hc with
  | nil => exact h
  | cons hw _ ih => exact ih (hw.clean h)

theorem FileTree.BreaksOff.clean {t' : FileTree} {ws : List Write}
    (hends : ∀ stop, ends stop → stop.Handled) (hb : t.BreaksOff O ends ws t') (h : t.Clean) :
    t'.Clean := by
  induction hb with
  | here => exact h
  | within ws hw => exact hw.clean hends h
  | later hw _ ih => exact ih (hw.clean h)

theorem FileRun.clean (hends : ∀ stop, ends stop → stop.Handled) (h : FileRun V O ends t s) :
    t.Clean := by
  induction h with
  | absent | empty => exact fun _ _ hfile => by cases hfile
  | perform op _ hwrites ih => exact hwrites.clean ih
  | stop op _ hwrites ih => exact hwrites.clean hends ih
  | crash torn _ ih =>
    intro path file hfile
    rw [Files.get?_crash, Option.map_eq_some_iff] at hfile
    obtain ⟨old, hold, _⟩ := hfile
    exact ih path old hold

/-- A file lies below directories that only the owner enters. Nobody else may read it unless it is
a public key, and it is whole on the medium unless it is temporary. -/
structure FileTree.Guarded (t : FileTree) : Prop where
  entered : ∀ path file, t.files.get? path = some file → ∀ folder, t.dirs.get? folder = some 0o700
  mode : ∀ path file, t.files.get? path = some file →
    file.mode = 0o600 ∨ path.folder = .publicKeys ∧ file.mode = 0o644
  inPlace : ∀ path file, t.files.get? path = some file → ¬ path.Temporary →
    file.synced = true ∧ file.mode = if path.folder = .publicKeys then 0o644 else 0o600

/-- At every moment of every run. No file is temporary where each write that fails is cleaned up
after. -/
theorem FileRun.modes_kept (hO : O.Exact) (h : FileRun V O ends t s) :
    t.Guarded ∧ ((∀ stop, ends stop → stop.Handled) → t.Clean) := by
  have hsound := h.simulated.1
  refine ⟨⟨fun path file hfile folder => ?_, fun path file hfile => ?_,
    fun path file hfile hin => ⟨?_, ?_⟩⟩, fun hends => h.clean hends⟩
  · rw [hsound.prepared path file hfile folder, hO]
  · obtain hmode | ⟨_, hmode⟩ := hsound.mode path file hfile
    · rw [hO, FilePath.mode] at hmode
      split at hmode
      · rename_i hpublic
        exact .inr ⟨hpublic, hmode⟩
      · exact .inl hmode
    · exact .inl hmode
  · exact hsound.synced path file hfile hin
  · obtain hmode | ⟨htemp, _⟩ := hsound.mode path file hfile
    · rw [hO] at hmode
      exact hmode
    · exact absurd htemp hin

end

/-! ## A key that is being added when the power fails -/

namespace Plain

def oschmod : Oschmod := ⟨id⟩

/-- The name of every temporary file. -/
def beside (path : FilePath) : FilePath := ⟨path.folder, ascii ".tmp-" ++ ascii "a" ++ ascii ".part"⟩

/-- Its data goes out in one chunk. -/
def draft {t : FileTree} (path : FilePath) (data : Octets)
    (unused : t.files.get? (beside path) = none) : t.Draft path data where
  temp := beside path
  chunks := [data]
  unused := unused
  partOf := ⟨rfl, ascii "a", rfl⟩
  whole := List.append_nil data

def headerData : Octets :=
  vault.keystoreHeader.dump ⟨0, [2], 1, vault.deriveCheckTag (Code.pack [[1], [2]]) [2]⟩

/-- What `create` leaves. -/
def createdTree : FileTree :=
  (({} : FileTree).dirCalls (makeDirectories oschmod 0o755)).fileCalls
    (atomicWrite oschmod headerPath (beside headerPath) [headerData] 0o600)

theorem createdTree_run (ends : Files.Stop → Prop) :
    FileRun vault oschmod ends createdTree ((({} : Keep).over {}).perform vault (.create [1] [2] 1)) :=
  .perform (.create [1] [2] 1) .absent
    (.cons (.directories 0o755) (.cons (.file rfl (draft headerPath headerData (by decide))) (.nil _)))

def createdKeep : Keep := (({} : Keep).over {}).perform vault (.create [1] [2] 1)

def entryPath : FilePath := publicPath (vault.fileOf publicKeyA)

def encodedEntry : Octets :=
  vault.storedPublicKeyEntry.dump (vault.buildStoredPublicKeyEntry (Code.pack [[1], [2]])
    ⟨publicKeyA, [vault.primaryKeyId publicKeyA]⟩ (vault.fileOf publicKeyA) [3])

theorem adding_writes :
    ((createdKeep.over createdTree).effect vault (.addPublicKey publicKeyA [3])).writes =
      [.publicKey (vault.fileOf publicKeyA) encodedEntry] := by decide +kernel

/-- `add_public_key` stops within its only write. -/
def stopped (stop : Files.Stop) : FileTree := createdTree.fileCalls (stop.calls (beside entryPath)
  (atomicWrite oschmod entryPath (beside entryPath) [encodedEntry] 0o644))

theorem stopped_run {ends : Files.Stop → Prop} {stop : Files.Stop} (h : ends stop) :
    FileRun vault oschmod ends (stopped stop) createdKeep := by
  apply FileRun.stop (.addPublicKey publicKeyA [3]) (createdTree_run ends)
  change createdTree.BreaksOff oschmod ends
    ((createdKeep.over createdTree).effect vault (.addPublicKey publicKeyA [3])).writes (stopped stop)
  rw [adding_writes]
  exact .within [] (.file rfl (draft entryPath encodedEntry (by decide +kernel)) stop h)

/-- It is killed when it has written two octets of the entry, and the power fails then. -/
def powerless : FileTree :=
  { stopped ⟨1, 2, false⟩ with files := (stopped ⟨1, 2, false⟩).files.crash fun _ _ => [0] }

def endedKeep : Keep := { createdKeep with masterKey := none }

example : (powerless.files.get? (beside entryPath)).map File.data = some [0] ∧
    powerless.files.get? entryPath = none := by decide +kernel

end Plain

/-- The half-written entry is left behind, and nobody reads it. -/
theorem FileRun.refines_powerless :
    KeyRun Plain.vault (fun _ _ => True) (Plain.endedKeep.over Plain.powerless) ∧
      ∀ (op : KeyOp Digest) (t' : FileTree),
        (Plain.powerless.CarriesAll Plain.oschmod
            ((Plain.endedKeep.over Plain.powerless).effect Plain.vault op).writes t' →
          t'.disk = ((Plain.endedKeep.over Plain.powerless).perform Plain.vault op).disk) ∧
        (Plain.powerless.BreaksOff Plain.oschmod (fun _ => True)
            ((Plain.endedKeep.over Plain.powerless).effect Plain.vault op).writes t' →
          ∃ n, t'.disk = ((Plain.endedKeep.over Plain.powerless).stop Plain.vault op n).disk) :=
  FileRun.refines (.crash (fun _ _ => [0]) (Plain.stopped_run trivial))

/-- An exception after the same two octets. -/
theorem FileRun.modes_kept_stopped : (Plain.stopped ⟨1, 2, true⟩).Guarded ∧
    ((∀ stop : Files.Stop, stop.Handled → stop.Handled) → (Plain.stopped ⟨1, 2, true⟩).Clean) :=
  FileRun.modes_kept (fun _ => rfl) (Plain.stopped_run (.inr rfl : Files.Stop.Handled ⟨1, 2, true⟩))

end KemMake
