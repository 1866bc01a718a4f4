import KemMake.Crashes
import KemMake.Stopping

/-!
# A `create` that does not get to its end

`create` makes three directories before the header, which alone makes a key directory of them.
`CreateStep` takes it apart: it may fail or be killed between any two steps, and what
`_atomic_write` removes on an exception may stay behind. What is then at the path is what the
system calls of a stopped `create` leave of its tree (`FileTree.stopped_iff`).
-/

namespace KemMake

/-- What there is at the path. -/
structure Site where
  /-- The path is a directory. -/
  made : Bool := false
  publicDir : Bool := false
  privateDir : Bool := false
  /-- Files that `_atomic_write` has not renamed. -/
  parts : Nat := 0
  header : Option Octets := none

namespace Site

/-- `path.exists() and any(path.iterdir())` -/
def inUse (t : Site) : Bool :=
  t.made && (t.publicDir || t.privateDir || decide (0 < t.parts) || t.header.isSome)

/-- What `create` and `open` see of it. -/
def disk (t : Site) : Disk := { inUse := t.inUse, header := t.header }

/-- The path is absent, or an empty directory. -/
structure Free (t : Site) : Prop where
  publicDir : t.publicDir = false
  privateDir : t.privateDir = false
  parts : t.parts = 0
  header : t.header = none

end Site

inductive CreateStep where
  | makePath
  | modePath
  | makePublic
  | modePublic
  | makePrivate
  | modePrivate
  | derive
  | openPart
  | fillPart
  | modePart
  | replace (data : Octets)
  deriving DecidableEq

def Site.apply (t : Site) : CreateStep → Site
  | .makePath => { t with made := true }
  | .makePublic => { t with publicDir := true }
  | .makePrivate => { t with privateDir := true }
  | .openPart => { t with parts := t.parts + 1 }
  | .replace data => { t with header := some data, parts := t.parts - 1 }
  | .modePath | .modePublic | .modePrivate | .derive | .fillPart | .modePart => t

def Site.run (t : Site) (steps : List CreateStep) : Site := steps.foldl Site.apply t

/-- The first steps, and perhaps the removal of a file that was not renamed. -/
def Site.stop (t : Site) (steps : List CreateStep) (n : Nat) (unlinked : Bool) : Site :=
  let s := t.run (steps.take n)
  if unlinked then { s with parts := 0 } else s

section
variable {δ : Type} (V : Vault δ)

/-- The steps of `create`, as far as its arguments let it get. -/
def Vault.createSteps (t : Site) (passphrase kdfSalt : Octets) (iterations : Int) :
    List CreateStep :=
  if t.inUse then []
  else
    [.makePath, .modePath, .makePublic, .modePublic, .makePrivate, .modePrivate] ++
      match V.pbkdf2 passphrase kdfSalt iterations with
      | none => []
      | some masterKey =>
        let header : KeystoreHeader := ⟨0, kdfSalt, iterations, V.deriveCheckTag masterKey kdfSalt⟩
        [.derive, .openPart, .fillPart, .modePart, .replace (V.keystoreHeader.dump header)]

/-- `create` with arguments that the key derivation accepts succeeds. -/
def Site.Creatable (t : Site) : Prop :=
  ∀ passphrase kdfSalt iterations masterKey,
    V.pbkdf2 passphrase kdfSalt iterations = some masterKey →
    (V.create t.disk passphrase kdfSalt iterations).result = .ok masterKey

/-- The path is good for an `open` with the passphrase, or for another `create`. -/
def Site.Recoverable (t : Site) (passphrase : Octets) : Prop :=
  (∃ masterKey, V.openDirectory t.disk passphrase = .ok masterKey) ∨ t.Creatable V

end

section
variable {δ : Type} {V : Vault δ} {t : Site} {passphrase kdfSalt : Octets} {iterations : Int}

theorem Site.Free.inUse (h : t.Free) : t.inUse = false := by
  simp [Site.inUse, h.publicDir, h.privateDir, h.parts, h.header]

/-- Run to its end, the steps are the writes of `create`. -/
theorem Site.run_createSteps (h : t.Free) :
    (t.run (V.createSteps t passphrase kdfSalt iterations)).disk =
      t.disk.writes (V.create t.disk passphrase kdfSalt iterations).writes := by
  have hused : t.disk.inUse = false := h.inUse
  unfold Vault.createSteps Vault.create
  rw [h.inUse, hused]
  cases V.pbkdf2 passphrase kdfSalt iterations <;>
    simp [Site.run, Site.apply, Site.disk, Disk.writes, Disk.write, Site.inUse, h.header]

theorem Site.creatable_iff (hvalid : ∃ p salt i, (V.pbkdf2 p salt i).isSome) :
    t.Creatable V ↔ t.inUse = false := by
  constructor
  · intro h
    obtain ⟨p, salt, i, hp⟩ := hvalid
    obtain ⟨masterKey, hp⟩ := Option.isSome_iff_exists.mp hp
    have hok := h p salt i masterKey hp
    by_contra hused
    have hused : t.disk.inUse = true := by simpa [Site.disk] using hused
    simp [Vault.create, hused] at hok
  · intro hused p salt i masterKey hp
    have hused : t.disk.inUse = false := hused
    simp [Vault.create, hused, hp]

/-! ## What the steps so far leave -/

/-- What one of the steps makes stays. -/
theorem Site.run_flag {f : Site → Bool} {step : CreateStep} (hmake : ∀ t : Site, f (t.apply step) = true)
    (hkeep : ∀ (t : Site) step', f t = true → f (t.apply step') = true) (steps : List CreateStep)
    (h : step ∈ steps ∨ f t = true) : f (t.run steps) = true := by
  induction steps generalizing t with
  | nil => simpa [Site.run] using h
  | cons step' rest ih =>
    apply ih (t := t.apply step')
    obtain h | h := h
    · obtain rfl | h := List.mem_cons.mp h
      · exact .inr (hmake t)
      · exact .inl h
    · exact .inr (hkeep t step' h)

theorem Site.run_made {steps : List CreateStep} (h : .makePath ∈ steps) :
    (t.run steps).made = true :=
  Site.run_flag (f := Site.made) (fun _ => rfl)
    (fun _ step' hm => by cases step' <;> first | rfl | exact hm) steps (.inl h)

/-- The header is the one that was put in place. -/
theorem Site.run_header {data : Octets} (steps : List CreateStep)
    (hdata : ∀ data', .replace data' ∈ steps → data' = data) :
    (t.run steps).header = if .replace data ∈ steps then some data else t.header := by
  induction steps generalizing t with
  | nil => rfl
  | cons step rest ih =>
    have hrest := ih (t := t.apply step) fun data' hmem => hdata data' (List.mem_cons_of_mem _ hmem)
    change ((t.apply step).run rest).header = _
    rw [hrest]
    by_cases hin : .replace data ∈ rest
    · simp [hin]
    · cases step with
      | replace data' =>
        cases hdata data' List.mem_cons_self
        simp [hin, Site.apply]
      | _ => simp [hin, Site.apply]

/-- Three steps up to public/, and a header only if the key could be derived. -/
theorem Vault.createSteps_eq (V : Vault δ) (h : t.Free) (passphrase kdfSalt : Octets)
    (iterations : Int) : ∃ rest,
    V.createSteps t passphrase kdfSalt iterations =
      .makePath :: .modePath :: .makePublic :: rest ∧
    ∀ data, .replace data ∈ rest → ∃ masterKey,
      V.pbkdf2 passphrase kdfSalt iterations = some masterKey ∧ data = V.keystoreHeader.dump
        ⟨0, kdfSalt, iterations, V.deriveCheckTag masterKey kdfSalt⟩ := by
  unfold Vault.createSteps
  rw [h.inUse]
  cases hp : V.pbkdf2 passphrase kdfSalt iterations with
  | none => exact ⟨[.modePublic, .makePrivate, .modePrivate], rfl, by simp⟩
  | some masterKey => exact ⟨.modePublic :: .makePrivate :: .modePrivate :: _, rfl, by simp⟩

theorem Site.open_header (hV : V.Correct) {masterKey : Octets}
    (hp : V.pbkdf2 passphrase kdfSalt iterations = some masterKey)
    (hheader : t.header = some (V.keystoreHeader.dump
      ⟨0, kdfSalt, iterations, V.deriveCheckTag masterKey kdfSalt⟩)) :
    V.openDirectory t.disk passphrase = .ok masterKey := by
  have hdisk : t.disk.header = some (V.keystoreHeader.dump
      ⟨0, kdfSalt, iterations, V.deriveCheckTag masterKey kdfSalt⟩) := hheader
  unfold Vault.openDirectory
  rw [hdisk]
  simp only [Codec.load_dump (hV.parse_header _), bind, Except.bind, hp, ↓reduceIte]

theorem Site.open_headless (hheader : t.header = none) (masterKey : Octets) :
    V.openDirectory t.disk passphrase ≠ .ok masterKey := by
  have hdisk : t.disk.header = none := hheader
  unfold Vault.openDirectory
  rw [hdisk]
  exact fun h => nomatch h

/-- Where there is something but no header, nothing can be opened or created. -/
theorem Site.not_recoverable (hvalid : ∃ p salt i, (V.pbkdf2 p salt i).isSome)
    (hused : t.inUse = true) (hheader : t.header = none) (passphrase : Octets) :
    ¬ t.Recoverable V passphrase := by
  rintro (⟨masterKey, hopen⟩ | hcreate)
  · exact Site.open_headless hheader masterKey hopen
  · rw [Site.creatable_iff hvalid, hused] at hcreate
    cases hcreate

/-- A `create` that stops leaves a path that is of use exactly if it has not made public/ yet or
has put the header in place. -/
theorem Site.recoverable_iff (hV : V.Correct) (hvalid : ∃ p salt i, (V.pbkdf2 p salt i).isSome)
    (h : t.Free) (passphrase kdfSalt : Octets) (iterations : Int) (n : Nat) (unlinked : Bool) :
    (t.stop (V.createSteps t passphrase kdfSalt iterations) n unlinked).Recoverable V passphrase ↔
      .makePublic ∉ (V.createSteps t passphrase kdfSalt iterations).take n ∨
        ∃ data, .replace data ∈ (V.createSteps t passphrase kdfSalt iterations).take n := by
  obtain ⟨rest, hsteps, hdata⟩ := V.createSteps_eq h passphrase kdfSalt iterations
  rw [hsteps]
  generalize hs : t.stop (.makePath :: .modePath :: .makePublic :: rest) n unlinked = s
  match n with
  | 0 | 1 | 2 =>
    -- at most the directory itself is there
    have hfree : s.Free := by
      rw [← hs]
      cases unlinked <;> exact ⟨h.publicDir, h.privateDir, by first | rfl | exact h.parts, h.header⟩
    refine iff_of_true (.inr ((Site.creatable_iff hvalid).mpr hfree.inUse)) (.inl ?_)
    simp
  | n + 3 =>
    have htake : (.makePath :: .modePath :: .makePublic :: rest).take (n + 3) =
        CreateStep.makePath :: .modePath :: .makePublic :: rest.take n := rfl
    rw [htake]
    have hrun : s.made = (t.run (.makePath :: .modePath :: .makePublic :: rest.take n)).made ∧
        s.publicDir = (t.run (.makePath :: .modePath :: .makePublic :: rest.take n)).publicDir ∧
        s.header = (t.run (.makePath :: .modePath :: .makePublic :: rest.take n)).header := by
      rw [← hs]
      cases unlinked <;> exact ⟨rfl, rfl, rfl⟩
    have hused : s.inUse = true := by
      have hmade : s.made = true := hrun.1.trans (Site.run_made List.mem_cons_self)
      have hpublic : s.publicDir = true := hrun.2.1.trans
        (Site.run_flag (f := Site.publicDir) (fun _ => rfl)
          (fun _ step' hm => by cases step' <;> first | rfl | exact hm)
          _ (.inl (by simp : CreateStep.makePublic ∈ _)))
      simp [Site.inUse, hmade, hpublic]
    by_cases hput : ∃ data, .replace data ∈ rest.take n
    · -- the header is in place, and the passphrase gives its check tag
      obtain ⟨data, hmem⟩ := hput
      obtain ⟨masterKey, hp, hheader⟩ := hdata data (List.mem_of_mem_take hmem)
      have hmem : CreateStep.replace data ∈
          CreateStep.makePath :: .modePath :: .makePublic :: rest.take n := by simp [hmem]
      have hone : ∀ data', CreateStep.replace data' ∈
          CreateStep.makePath :: .modePath :: .makePublic :: rest.take n → data' = data := by
        intro data' hmem'
        obtain ⟨masterKey', hp', rfl⟩ := hdata data' (List.mem_of_mem_take (by simpa using hmem'))
        rw [hp] at hp'
        cases hp'
        exact hheader.symm
      refine iff_of_true (.inl ⟨masterKey, Site.open_header hV hp ?_⟩) (.inr ⟨data, hmem⟩)
      rw [hrun.2.2, Site.run_header _ hone, if_pos hmem, hheader]
    · -- directories without a header
      have hnone : ∀ data, CreateStep.replace data ∉
          CreateStep.makePath :: .modePath :: .makePublic :: rest.take n := by
        intro data hmem
        exact hput ⟨data, by simpa using hmem⟩
      have hheader : s.header = none := by
        have hlast : (t.run (.makePath :: .modePath :: .makePublic :: rest.take n)).header =
            if CreateStep.replace [] ∈ CreateStep.makePath :: .modePath :: .makePublic :: rest.take n
            then some [] else t.header :=
          Site.run_header _ fun data' hmem => absurd hmem (hnone data')
        rw [hrun.2.2, hlast, if_neg (hnone []), h.header]
      refine iff_of_false (Site.not_recoverable hvalid hused hheader passphrase) ?_
      rintro (hpublic | ⟨data, hmem⟩)
      · exact hpublic (by simp)
      · exact hnone data hmem

end

/-! ## The steps as system calls -/

theorem Site.run_append (t : Site) (steps steps' : List CreateStep) :
    t.run (steps ++ steps') = (t.run steps).run steps' := List.foldl_append

theorem Site.stop_append (t : Site) (steps steps' : List CreateStep) (n : Nat) (unlinked : Bool) :
    t.stop (steps ++ steps') (steps.length + n) unlinked = (t.run steps).stop steps' n unlinked := by
  simp only [Site.stop, List.take_length_add_append, Site.run_append]

theorem Site.stop_left (t : Site) (steps steps' : List CreateStep) (n : Nat) (unlinked : Bool) :
    t.stop (steps ++ steps') (min n steps.length) unlinked = t.stop steps n unlinked := by
  simp only [Site.stop, List.take_append_of_le_length (Nat.min_le_right n steps.length),
    ← List.take_eq_take_min]

/-- The step that makes the folder, and the one that sets its mode. -/
def Folder.steps : Folder → CreateStep × CreateStep
  | .top => (.makePath, .modePath)
  | .publicKeys => (.makePublic, .modePublic)
  | .privateKeys => (.makePrivate, .modePrivate)

/-- The steps before the key derivation. -/
def CreateStep.directories : List CreateStep :=
  [.makePath, .modePath, .makePublic, .modePublic, .makePrivate, .modePrivate]

/-- The steps from the key derivation on. -/
def CreateStep.header (data : Octets) : List CreateStep :=
  [.derive, .openPart, .fillPart, .modePart, .replace data]

namespace FileTree
variable {δ : Type} {V : Vault δ} {O : Oschmod} {ends : Files.Stop → Prop} {t t' : FileTree}
  {passphrase kdfSalt : Octets} {iterations : Int}

/-- What the tree is to `create`: the other files at the top are those not renamed. -/
def site (t : FileTree) : Site where
  made := (t.dirs.get? .top).isSome
  publicDir := (t.dirs.get? .publicKeys).isSome
  privateDir := (t.dirs.get? .privateKeys).isSome
  parts := (t.files.keys.filter fun path => decide (path.folder = .top ∧ path ≠ headerPath)).length
  header := (t.files.get? headerPath).map File.data

/-- The path is absent, or an empty directory. -/
structure Vacant (t : FileTree) : Prop where
  files : t.files = ∅
  publicDir : t.dirs.get? .publicKeys = none
  privateDir : t.dirs.get? .privateKeys = none

theorem Vacant.free (h : t.Vacant) : t.site.Free where
  publicDir := by rw [site, h.publicDir]; rfl
  privateDir := by rw [site, h.privateDir]; rfl
  parts := by rw [site, h.files]; rfl
  header := by rw [site, h.files]; rfl

theorem inUse_site (t : FileTree) : t.disk.inUse =
    (t.site.publicDir || t.site.privateDir || decide (0 < t.site.parts) || t.site.header.isSome) := by
  have hfiles : (t.files.keys.any fun path => decide (path.folder = .top)) =
      (decide (0 < t.site.parts) || t.site.header.isSome) := by
    rw [Bool.eq_iff_iff]
    simp only [List.any_eq_true, decide_eq_true_eq, Bool.or_eq_true, site, Option.isSome_map,
      List.length_pos_iff_exists_mem, List.mem_filter]
    constructor
    · rintro ⟨path, hpath, htop⟩
      by_cases hheader : path = headerPath
      · obtain ⟨file, hfile⟩ := Dict.mem_keys_iff.mp hpath
        rw [← hheader, hfile]
        exact .inr rfl
      · exact .inl ⟨path, hpath, htop, hheader⟩
    · rintro (⟨path, hpath, htop, _⟩ | hheader)
      · exact ⟨path, hpath, htop⟩
      · exact ⟨headerPath, Dict.mem_keys_iff.mpr (Option.isSome_iff_exists.mp hheader), rfl⟩
  simp only [disk, FileTree.inUse, hfiles, Bool.or_assoc]
  rfl

theorem Vacant.inUse (h : t.Vacant) : t.disk.inUse = false := by
  have hf := h.free
  simp [inUse_site, hf.publicDir, hf.privateDir, hf.parts, hf.header]

/-- `open` and `create` find the same in both, if there is a directory or nothing at all. -/
theorem site_reads (h : t.site.made = true ∨ t.site.Free) :
    (∀ p, V.openDirectory t.site.disk p = V.openDirectory t.disk p) ∧
      ∀ p salt i, V.create t.site.disk p salt i = V.create t.disk p salt i := by
  have hused : t.site.disk.inUse = t.disk.inUse := by
    obtain hmade | hf := h
    · simp [inUse_site, Site.disk, Site.inUse, hmade]
    · simp [inUse_site, Site.disk, Site.inUse, hf.publicDir, hf.privateDir, hf.parts, hf.header]
  refine ⟨fun p => rfl, fun p salt i => ?_⟩
  unfold Vault.create
  rw [hused]

/-! ### Directories -/

theorem site_mkdir (folder : Folder) (mode : Nat) :
    (t.dirCall (.mkdir folder mode)).site = t.site.apply folder.steps.1 := by
  simp only [dirCall]
  split
  · rename_i hdir
    cases folder <;> simp [site, Site.apply, Folder.steps, hdir]
  · cases folder <;> simp [site, Site.apply, Folder.steps, Dict.get?_set]

theorem site_chmod {folder : Folder} {mode : Nat} (h : (t.dirs.get? folder).isSome = true) :
    (t.dirCall (.chmod folder mode)).site = t.site := by
  simp only [dirCall, site, Dict.get?_set]
  cases folder <;> simp [h]

theorem dirs_made (folder : Folder) (mode : Nat) :
    ((t.dirCall (.mkdir folder mode)).dirs.get? folder).isSome = true := by
  simp only [dirCall]
  split
  · rename_i hdir
    rw [hdir]
    rfl
  · rw [Dict.get?_set_self]
    rfl

/-- The two calls for one folder, and those that follow. -/
theorem site_folder (folder : Folder) {mode mode' : Nat} {calls : List DirCall}
    {steps : List CreateStep}
    (hrest : ∀ (t : FileTree) n, (t.dirCalls (calls.take n)).site = t.site.run (steps.take n))
    (t : FileTree) (n : Nat) :
    (t.dirCalls ((.mkdir folder mode :: .chmod folder mode' :: calls).take n)).site =
      t.site.run ((folder.steps.1 :: folder.steps.2 :: steps).take n) := by
  have hmode : ∀ s : Site, s.apply folder.steps.2 = s := by
    intro s
    cases folder <;> rfl
  match n with
  | 0 => rfl
  | 1 => exact site_mkdir folder mode
  | n + 2 =>
    have hdirs : ((t.dirCall (.mkdir folder mode)).dirCall (.chmod folder mode')).site =
        (t.site.apply folder.steps.1).apply folder.steps.2 := by
      rw [site_chmod (dirs_made folder mode), site_mkdir, hmode]
    refine (hrest _ n).trans ?_
    rw [hdirs]
    rfl

/-- Call by call, the directories are made as in the steps. -/
theorem site_directories (O : Oschmod) (t : FileTree) (umasked n : Nat) :
    (t.dirCalls ((makeDirectories O umasked).take n)).site =
      t.site.run (CreateStep.directories.take n) := by
  have hnil : ∀ (t : FileTree) n, (t.dirCalls (([] : List DirCall).take n)).site =
      t.site.run (([] : List CreateStep).take n) := by
    intro t n
    rw [List.take_nil, List.take_nil]
    rfl
  exact site_folder .top (site_folder .publicKeys (site_folder .privateKeys hnil)) t n

/-! ### The header -/

theorem site_empty (hfiles : ∀ path, t'.files.get? path = none) (hdirs : t'.dirs = t.dirs)
    (hold : t.files = ∅) : t'.site = t.site := by
  have hkeys : t.files.keys = [] := by rw [hold]; rfl
  have hheader : t.files.get? headerPath = none := by rw [hold]; rfl
  simp only [site, hdirs, Dict.keys_eq_nil hfiles, hkeys, hfiles, hheader]

/-- A temporary file is there, or it is not. -/
theorem site_part {temp : FilePath} (htop : temp.folder = .top) (hne : temp ≠ headerPath)
    (hold : t.files = ∅) {files : Files FilePath UInt8} (herase : files.erase temp = t.files) :
    ({ t with files } : FileTree).site =
      if (files.get? temp).isSome then t.site.apply .openPart else t.site := by
  have hother : ∀ path, path ≠ temp → files.get? path = none := by
    intro path hpath
    rw [← Dict.get?_erase_of_ne _ hpath, herase, hold]
    rfl
  cases hfile : files.get? temp with
  | none =>
    refine site_empty (fun path => ?_) rfl hold
    by_cases hpath : path = temp
    · rw [hpath]
      exact hfile
    · exact hother path hpath
  | some file =>
    have hkeys : files.keys = [temp] := Dict.keys_eq_singleton hfile hother
    have hheader := hother headerPath (Ne.symm hne)
    have hkeys' : t.files.keys = [] := by rw [hold]; rfl
    have hheader' : t.files.get? headerPath = none := by rw [hold]; rfl
    simp [site, Site.apply, hkeys, hkeys', hheader, hheader', htop, hne]

/-- The header is in its place. -/
theorem site_header (hold : t.files = ∅) (data : Octets) (mode : Nat) :
    ({ t with files := t.files.set headerPath ⟨data, mode, true⟩ } : FileTree).site =
      t.site.run (CreateStep.header data) := by
  have hkeys : (Dict.set t.files headerPath ⟨data, mode, true⟩).keys = [headerPath] := by
    rw [hold]
    rfl
  have hkeys' : t.files.keys = [] := by
    rw [hold]
    rfl
  simp [site, Site.run, Site.apply, CreateStep.header, hkeys, hkeys']

/-! ### Stops -/

theorem Vacant.writes (h : t.Vacant) :
    (V.create t.disk passphrase kdfSalt iterations).writes =
      match V.pbkdf2 passphrase kdfSalt iterations with
      | none => [.directories]
      | some masterKey => [.directories, .header (V.keystoreHeader.dump
          ⟨0, kdfSalt, iterations, V.deriveCheckTag masterKey kdfSalt⟩)] := by
  unfold Vault.create
  rw [h.inUse]
  cases V.pbkdf2 passphrase kdfSalt iterations <;> rfl

theorem Vacant.steps (h : t.Vacant) :
    V.createSteps t.site passphrase kdfSalt iterations = CreateStep.directories ++
      match V.pbkdf2 passphrase kdfSalt iterations with
      | none => []
      | some masterKey => CreateStep.header (V.keystoreHeader.dump
          ⟨0, kdfSalt, iterations, V.deriveCheckTag masterKey kdfSalt⟩) := by
  unfold Vault.createSteps
  rw [h.free.inUse]
  cases V.pbkdf2 passphrase kdfSalt iterations <;> rfl

/-- All six calls. -/
theorem site_made (O : Oschmod) (t : FileTree) (umasked : Nat) :
    (t.dirCalls (makeDirectories O umasked)).site = t.site.run CreateStep.directories :=
  site_directories O t umasked 6

/-- One write of the header that is stopped, on a path whose directories were made. -/
theorem Breaks.site_header {data : Octets} (hold : t.files = ∅)
    (hb : t.Breaks O ends (.header data) t') :
    ∃ n unlinked, t'.site = t.site.stop (CreateStep.header data) n unlinked := by
  cases hb with
  | file hargs draft stop =>
    cases hargs
    have hne := draft.ne (FilePath.not_temporary .top (ascii "header"))
    by_cases hearly : stop.made ≤
        (Files.filling draft.temp 0o600 (O.setMode 0o600) draft.chunks).length
    · have herase : (t.files.run (stop.calls draft.temp
          (atomicWrite O headerPath draft.temp draft.chunks 0o600))).erase draft.temp = t.files :=
        (Files.run_erase (Files.replacing_early headerPath hearly)).trans
          (Dict.erase_of_get?_none draft.unused)
      have hsite := site_part draft.partOf.1 hne hold herase
      split at hsite
      · exact ⟨2, false, hsite⟩
      · exact ⟨0, false, hsite⟩
    · refine ⟨5, false, ?_⟩
      rw [fileCalls, atomicWrite, Files.replacing_late draft.unused hne hearly, draft.whole]
      exact FileTree.site_header hold data _

theorem Carries.site_header {data : Octets} (hold : t.files = ∅)
    (hc : t.Carries O (.header data) t') : t'.site = t.site.run (CreateStep.header data) := by
  cases hc with
  | file hargs draft =>
    cases hargs
    rw [fileCalls, atomicWrite, Files.run_replacing draft.unused, draft.whole]
    exact FileTree.site_header hold data _

/-- Up to the write of the header, and then as `steps`. -/
theorem BreaksOff.site_directories {ws : List Write} {steps : List CreateStep} (hold : t.files = ∅)
    (hrest : ∀ t₁ : FileTree, t₁.files = ∅ → t₁.BreaksOff O ends ws t' →
      ∃ n unlinked, t'.site = t₁.site.stop steps n unlinked)
    (hb : t.BreaksOff O ends (.directories :: ws) t') :
    ∃ n unlinked, t'.site = t.site.stop (CreateStep.directories ++ steps) n unlinked := by
  cases hb with
  | here => exact ⟨0, false, rfl⟩
  | within _ hw =>
    cases hw with
    | directories umasked n =>
      refine ⟨min n CreateStep.directories.length, false, ?_⟩
      rw [Site.stop_left]
      exact FileTree.site_directories O t umasked n
    | file hargs => cases hargs
  | later hw hlater =>
    cases hw with
    | directories umasked =>
      obtain ⟨n, unlinked, hsite⟩ := hrest _ ((dirCalls_files _).trans hold) hlater
      exact ⟨_, unlinked, by rw [Site.stop_append, hsite, site_made]⟩
    | file hargs => cases hargs

/-! ### The stops of both -/

/-- What the system calls of a stopped `create` leave is one of the stops of the steps. -/
theorem Vacant.stopped (h : t.Vacant)
    (hb : t.BreaksOff O ends (V.create t.disk passphrase kdfSalt iterations).writes t') :
    ∃ n unlinked,
      t'.site = t.site.stop (V.createSteps t.site passphrase kdfSalt iterations) n unlinked := by
  rw [h.writes] at hb
  rw [h.steps]
  cases hp : V.pbkdf2 passphrase kdfSalt iterations with
  | none =>
    rw [hp] at hb
    refine hb.site_directories h.files fun t₁ _ hrest => ?_
    cases hrest with
    | here => exact ⟨0, false, rfl⟩
  | some masterKey =>
    rw [hp] at hb
    refine hb.site_directories h.files fun t₁ hold hrest => ?_
    cases hrest with
    | here => exact ⟨0, false, rfl⟩
    | within _ hw => exact hw.site_header hold
    | later hw hnil =>
      cases hnil with
      | here => exact ⟨5, false, hw.site_header hold⟩

/-- Before the header there is nothing to remove. -/
theorem run_directories_parts (s : Site) (n : Nat) :
    (s.run (CreateStep.directories.take n)).parts = s.parts := by
  match n with
  | 0 | 1 | 2 | 3 | 4 | 5 => rfl
  | n + 6 => rw [List.take_of_length_le (Nat.le_add_left 6 n)]; rfl

theorem stop_directories {s : Site} (hparts : s.parts = 0) (n : Nat) (unlinked : Bool) :
    s.stop CreateStep.directories n unlinked = s.run (CreateStep.directories.take n) := by
  have hrun := (run_directories_parts s n).trans hparts
  cases unlinked with
  | false => rfl
  | true =>
    simp only [Site.stop, ↓reduceIte]
    rw [← hrun]

/-- Nothing of the header, its temporary file, or the header. -/
theorem stop_header {s : Site} (hparts : s.parts = 0) (data : Octets) (n : Nat) (unlinked : Bool) :
    s.stop (CreateStep.header data) n unlinked = s ∨
      (s.stop (CreateStep.header data) n unlinked = s.apply .openPart) ∨
      s.stop (CreateStep.header data) n unlinked = s.run (CreateStep.header data) := by
  obtain ⟨made, publicDir, privateDir, parts, header⟩ := s
  cases hparts
  match n, unlinked with
  | 0, false | 0, true | 1, false | 1, true | 2, true | 3, true | 4, true => exact .inl rfl
  | 2, false | 3, false | 4, false => exact .inr (.inl rfl)
  | n + 5, false | n + 5, true =>
    rw [Site.stop, List.take_of_length_le (Nat.le_add_left 5 n)]
    exact .inr (.inr rfl)

/-- A temporary file that `mkstemp` may make for the header. -/
def headerDraft (hold : t.files = ∅) (data : Octets) : t.Draft headerPath data where
  temp := ⟨.top, ascii ".tmp-" ++ [] ++ ascii ".part"⟩
  chunks := [data]
  unused := by rw [hold]; rfl
  partOf := ⟨rfl, [], rfl⟩
  whole := List.append_nil data

/-- Each stop of the steps for the header is one of its write. -/
theorem breaks_header (hold : t.files = ∅) (data : Octets) (n : Nat) (unlinked : Bool) :
    ∃ t', t.BreaksOff O (fun _ => True) [.header data] t' ∧
      t'.site = t.site.stop (CreateStep.header data) n unlinked := by
  have hparts : t.site.parts = 0 := by rw [site, hold]; rfl
  have hne := (headerDraft hold data).ne (FilePath.not_temporary .top (ascii "header"))
  obtain hsite | hsite | hsite := stop_header hparts data n unlinked <;> rw [hsite]
  · exact ⟨t, .here t _, rfl⟩
  · -- the file was made, and nothing more
    refine ⟨_, .within [] (.file rfl (headerDraft hold data) ⟨1, 0, false⟩ trivial), ?_⟩
    have hearly : (⟨1, 0, false⟩ : Files.Stop).made ≤
        (Files.filling (headerDraft hold data).temp 0o600 (O.setMode 0o600) [data]).length :=
      Nat.succ_pos _
    have herase := (Files.run_erase (s := t.files) (Files.replacing_early headerPath hearly)).trans
      (Dict.erase_of_get?_none (headerDraft hold data).unused)
    refine (site_part rfl hne hold herase).trans (if_pos ?_)
    change ((Files.alter (Dict.set t.files _ _) _ _).get? _).isSome = true
    rw [Files.alter_get? (Dict.get?_set_self ..)]
    rfl
  · exact ⟨_, .later (.file rfl (headerDraft hold data)) (.here _ _),
      Carries.site_header hold (.file rfl (headerDraft hold data))⟩

/-- The two models of a `create` that is stopped leave the same at the path. -/
theorem stopped_iff (h : t.Vacant) (s : Site) :
    (∃ t', t.BreaksOff O (fun _ => True)
        (V.create t.disk passphrase kdfSalt iterations).writes t' ∧ t'.site = s) ↔
      ∃ n unlinked,
        s = t.site.stop (V.createSteps t.site passphrase kdfSalt iterations) n unlinked := by
  constructor
  · rintro ⟨t', hb, rfl⟩
    exact h.stopped hb
  · rintro ⟨n, unlinked, rfl⟩
    have hparts := h.free.parts
    have hdirectories : ∀ ws, ∃ t', t.BreaksOff O (fun _ => True) (.directories :: ws) t' ∧
        t'.site = t.site.stop CreateStep.directories n unlinked := by
      intro ws
      refine ⟨_, .within ws (.directories 0o755 n), ?_⟩
      rw [site_directories, stop_directories hparts]
    rw [h.writes, h.steps]
    cases V.pbkdf2 passphrase kdfSalt iterations with
    | none =>
      dsimp only
      rw [List.append_nil]
      exact hdirectories []
    | some masterKey =>
      dsimp only
      by_cases hn : n ≤ 6
      · have hmin : min n CreateStep.directories.length = n := Nat.min_eq_left hn
        rw [← hmin, Site.stop_left]
        exact hdirectories _
      · obtain ⟨k, rfl⟩ := Nat.exists_eq_add_of_le (Nat.le_of_not_le hn)
        have hlen : CreateStep.directories.length = 6 := rfl
        have hfiles := (dirCalls_files (makeDirectories O 0o755)).trans h.files
        obtain ⟨t', hb, hsite⟩ := breaks_header (O := O) hfiles (V.keystoreHeader.dump
          ⟨0, kdfSalt, iterations, V.deriveCheckTag masterKey kdfSalt⟩) k unlinked
        refine ⟨t', .later (.directories 0o755) hb, ?_⟩
        rw [hsite, site_made, ← hlen, Site.stop_append]

/-- A path that a stopped `create` leaves is of use exactly where the stopped steps leave one
that is. -/
theorem Vacant.recoverable_site (h : t.Vacant)
    (hb : t.BreaksOff O ends (V.create t.disk passphrase kdfSalt iterations).writes t')
    (p : Octets) : t'.site.Recoverable V p ↔
      (∃ masterKey, V.openDirectory t'.disk p = .ok masterKey) ∨
        ∀ p salt i masterKey, V.pbkdf2 p salt i = some masterKey →
          (V.create t'.disk p salt i).result = .ok masterKey := by
  have hmade : t'.site.made = true ∨ t'.site.Free := by
    obtain ⟨n, unlinked, hsite⟩ := h.stopped hb
    rw [hsite, h.steps]
    cases n with
    | zero =>
      have hf := h.free
      right
      cases unlinked with
      | false => exact hf
      | true => exact ⟨hf.publicDir, hf.privateDir, rfl, hf.header⟩
    | succ n =>
      left
      cases unlinked <;> exact Site.run_made List.mem_cons_self
  obtain ⟨hopen, hcreate⟩ := site_reads (V := V) hmade
  simp only [Site.Recoverable, Site.Creatable, hopen, hcreate]

end FileTree

/-! ## An iteration count of zero -/

namespace Plain

theorem recoverable_iff_finished :
    (({} : Site).stop (vault.createSteps {} [1] [2] 1) 11 false).Recoverable vault [1] ↔
      .makePublic ∉ (vault.createSteps {} [1] [2] 1).take 11 ∨
        ∃ data, .replace data ∈ (vault.createSteps {} [1] [2] 1).take 11 :=
  Site.recoverable_iff correct ⟨[1], [2], 1, by decide +kernel⟩ ⟨rfl, rfl, rfl, rfl⟩ [1] [2] 1 11
    false

/-- The key derivation refuses the count when the directories are there. After that nothing can
be opened at the path, and nothing created. -/
theorem refused_create :
    vault.pbkdf2 [1] [2] 0 = none ∧
    (vault.create ({} : Site).disk [1] [2] 0).result = .error .valueError ∧
    vault.openDirectory (({} : Site).run (vault.createSteps {} [1] [2] 0)).disk [1] =
      .error .keyDirectoryError ∧
    (vault.create (({} : Site).run (vault.createSteps {} [1] [2] 0)).disk [1] [2] 1).result =
      .error .keyDirectoryError ∧
    (vault.create ({} : Site).disk [1] [2] 1).result.isOk := by
  decide +kernel

end Plain

end KemMake
