import KemMake.Keeping
import KemMake.Lib.Files

/-!
# The key directory on a file system

What keystore.py keeps at its path is a tree of files, each of them written by `_atomic_write`.
A process may be killed at any system call, any call may raise, and the power may fail. `FileRun`
is what then happens to the tree, and `FileTree.disk` what the next process reads of it.
-/

namespace KemMake

/-! ## Paths -/

/-- The path of the key directory itself, `public` and `private`. -/
inductive Folder where
  | top
  | publicKeys
  | privateKeys
  deriving DecidableEq

structure FilePath where
  folder : Folder
  name : Octets
  deriving DecidableEq

def headerPath : FilePath := ⟨.top, ascii "header.der"⟩

/-- `_alt_index_path` -/
def altIndexPath : FilePath := ⟨.top, ascii "alt_index.der"⟩

/-- `_public_path` -/
def publicPath (hexId : Octets) : FilePath := ⟨.publicKeys, hexId ++ ascii ".der"⟩

/-- `_private_path` -/
def privatePath (hexId : Octets) : FilePath := ⟨.privateKeys, hexId ++ ascii ".der"⟩

/-- A name that `mkstemp(dir=path.parent, prefix=".tmp-", suffix=".part")` may choose. -/
def FilePath.PartOf (temp path : FilePath) : Prop :=
  temp.folder = path.folder ∧ ∃ random, temp.name = ascii ".tmp-" ++ random ++ ascii ".part"

def FilePath.Temporary (path : FilePath) : Prop := ascii ".part" <:+ path.name

/-- The name without `.der` of a file in the folder. -/
def FilePath.stem (folder : Folder) (path : FilePath) : Option Octets :=
  if path.folder = folder ∧ ascii ".der" <:+ path.name then
    some (path.name.take (path.name.length - 4))
  else none

theorem FilePath.stem_eq_some {folder : Folder} {path : FilePath} {stem : Octets} :
    path.stem folder = some stem ↔ path = ⟨folder, stem ++ ascii ".der"⟩ := by
  obtain ⟨folder', name⟩ := path
  simp only [FilePath.stem]
  constructor
  · intro h
    split at h
    · rename_i hder
      obtain ⟨rfl, name, rfl⟩ := hder
      simp only [List.length_append, Option.some.injEq] at h
      subst h
      have hlen : (ascii ".der").length = 4 := rfl
      rw [hlen, Nat.add_sub_cancel, List.take_left]
    · cases h
  · intro h
    cases h
    rw [if_pos ⟨rfl, List.suffix_append _ _⟩]
    have hlen : (ascii ".der").length = 4 := rfl
    rw [List.length_append, hlen, Nat.add_sub_cancel, List.take_left]

theorem FilePath.stem_inj (folder : Folder) (a b : FilePath) (stem : Octets)
    (ha : a.stem folder = some stem) (hb : b.stem folder = some stem) : a = b :=
  (stem_eq_some.mp ha).trans (stem_eq_some.mp hb).symm

/-- The last octets of the two suffixes differ. -/
theorem FilePath.not_temporary (folder : Folder) (stem : Octets) :
    ¬ (⟨folder, stem ++ ascii ".der"⟩ : FilePath).Temporary := by
  rintro ⟨before, h⟩
  have hlast := congrArg List.getLast? h
  rw [List.getLast?_append, List.getLast?_append] at hlast
  exact absurd (Option.some.inj hlast) (by decide)

theorem FilePath.PartOf.temporary {temp path : FilePath} (h : temp.PartOf path) :
    temp.Temporary := by
  obtain ⟨_, random, hname⟩ := h
  exact ⟨ascii ".tmp-" ++ random, hname.symm⟩

theorem FilePath.Temporary.stem {temp : FilePath} (h : temp.Temporary) (folder : Folder) :
    temp.stem folder = none := by
  cases hstem : temp.stem folder with
  | none => rfl
  | some stem =>
    rw [stem_eq_some.mp hstem] at h
    exact absurd h (not_temporary folder stem)

/-! ## The tree -/

/-- The modes of the directories that exist, and the files. -/
structure FileTree where
  dirs : Dict Folder Nat := ∅
  files : Files FilePath UInt8 := ∅

namespace FileTree
variable (t : FileTree)

/-- `any(path.iterdir())`. What does not exist has no entries. -/
def inUse : Bool :=
  (t.dirs.get? .publicKeys).isSome || (t.dirs.get? .privateKeys).isSome ||
    t.files.keys.any fun path => decide (path.folder = .top)

/-- What a process reads. -/
def disk : Disk where
  inUse := t.inUse
  header := (t.files.get? headerPath).map File.data
  publicKeys := t.files.select (FilePath.stem .publicKeys) (FilePath.stem_inj _) File.data
  privateKeys := t.files.select (FilePath.stem .privateKeys) (FilePath.stem_inj _) File.data
  altIndex := (t.files.get? altIndexPath).map File.data

end FileTree

/-! ## Writing -/

/-- `oschmod.set_mode` is of another package. -/
structure Oschmod where
  /-- The mode that it gives where it is asked for one. -/
  setMode : Nat → Nat

/-- What is relied on is that it gives exactly the mode it is asked for. -/
def Oschmod.Exact (O : Oschmod) : Prop := ∀ mode, O.setMode mode = mode

inductive DirCall where
  /-- `mkdir(exist_ok=True)`, with the mode that the umask leaves. -/
  | mkdir (folder : Folder) (mode : Nat)
  | chmod (folder : Folder) (mode : Nat)

def FileTree.dirCall (t : FileTree) : DirCall → FileTree
  | .mkdir folder mode =>
    match t.dirs.get? folder with
    | some _ => t
    | none => { t with dirs := t.dirs.set folder mode }
  | .chmod folder mode => { t with dirs := t.dirs.set folder mode }

def FileTree.dirCalls (t : FileTree) (calls : List DirCall) : FileTree :=
  calls.foldl FileTree.dirCall t

def FileTree.fileCalls (t : FileTree) (calls : List (Files.Call FilePath UInt8)) : FileTree :=
  { t with files := t.files.run calls }

/-- The directories that `create` makes. -/
def makeDirectories (O : Oschmod) (umasked : Nat) : List DirCall :=
  [.mkdir .top umasked, .chmod .top (O.setMode 0o700),
    .mkdir .publicKeys umasked, .chmod .publicKeys (O.setMode 0o700),
    .mkdir .privateKeys umasked, .chmod .privateKeys (O.setMode 0o700)]

/-- The system calls of `_atomic_write` for a file of mode `mode`, whose data goes out in chunks
to a temporary file. `mkstemp` makes files of mode 0600. -/
def atomicWrite (O : Oschmod) (path temp : FilePath) (chunks : List Octets) (mode : Nat) :
    List (Files.Call FilePath UInt8) := Files.replacing temp path 0o600 (O.setMode mode) chunks

/-- What `_atomic_write` is called with. -/
def Write.args : Write → Option (FilePath × Octets × Nat)
  | .directories => none
  | .header data => some (headerPath, data, 0o600)
  | .publicKey hexId data => some (publicPath hexId, data, 0o644)
  | .privateKey hexId data => some (privatePath hexId, data, 0o600)
  | .altIndex data => some (altIndexPath, data, 0o600)

namespace FileTree

/-- The name and the chunks of one call of `_atomic_write`. The name is not in use. -/
structure Draft (t : FileTree) (path : FilePath) (data : Octets) where
  temp : FilePath
  chunks : List Octets
  unused : t.files.get? temp = none
  partOf : temp.PartOf path
  whole : chunks.flatten = data

/-- A write that is carried out. -/
inductive Carries (O : Oschmod) (t : FileTree) : Write → FileTree → Prop
  | directories (umasked : Nat) : Carries O t .directories (t.dirCalls (makeDirectories O umasked))
  | file {w : Write} {path : FilePath} {data : Octets} {mode : Nat}
      (hargs : w.args = some (path, data, mode)) (draft : t.Draft path data) :
      Carries O t w (t.fileCalls (atomicWrite O path draft.temp draft.chunks mode))

/-- A write that ends before it returns, at one of its system calls. -/
inductive Breaks (O : Oschmod) (ends : Files.Stop → Prop) (t : FileTree) : Write → FileTree → Prop
  | directories (umasked n : Nat) :
      Breaks O ends t .directories (t.dirCalls ((makeDirectories O umasked).take n))
  | file {w : Write} {path : FilePath} {data : Octets} {mode : Nat}
      (hargs : w.args = some (path, data, mode)) (draft : t.Draft path data) (stop : Files.Stop)
      (hends : ends stop) : Breaks O ends t w
        (t.fileCalls (stop.calls draft.temp (atomicWrite O path draft.temp draft.chunks mode)))

inductive CarriesAll (O : Oschmod) : FileTree → List Write → FileTree → Prop
  | nil (t : FileTree) : CarriesAll O t [] t
  | cons {t t' t'' : FileTree} {w : Write} {ws : List Write} :
      t.Carries O w t' → CarriesAll O t' ws t'' → CarriesAll O t (w :: ws) t''

/-- A list of writes that ends between two of them or within one. -/
inductive BreaksOff (O : Oschmod) (ends : Files.Stop → Prop) :
    FileTree → List Write → FileTree → Prop
  | here (t : FileTree) (ws : List Write) : BreaksOff O ends t ws t
  | within {t t' : FileTree} {w : Write} (ws : List Write) :
      t.Breaks O ends w t' → BreaksOff O ends t (w :: ws) t'
  | later {t t' t'' : FileTree} {w : Write} {ws : List Write} :
      t.Carries O w t' → BreaksOff O ends t' ws t'' → BreaksOff O ends t (w :: ws) t''

end FileTree

/-- The instance as it finds the tree. -/
def Keep.over (s : Keep) (t : FileTree) : Keep := { s with disk := t.disk }

/-- Runs of whole calls, calls that end somewhere, and failures of the power, on a path that is
absent or an empty directory at first. -/
inductive FileRun {δ : Type} (V : Vault δ) (O : Oschmod) (ends : Files.Stop → Prop) :
    FileTree → Keep → Prop
  | absent : FileRun V O ends {} {}
  | empty (mode : Nat) : FileRun V O ends { dirs := Dict.set ∅ .top mode } {}
  | perform {t t' : FileTree} {s : Keep} (op : KeyOp δ) : FileRun V O ends t s →
      t.CarriesAll O ((s.over t).effect V op).writes t' → FileRun V O ends t' ((s.over t).perform V op)
  | stop {t t' : FileTree} {s : Keep} (op : KeyOp δ) : FileRun V O ends t s →
      t.BreaksOff O ends ((s.over t).effect V op).writes t' → FileRun V O ends t' s
  | crash {t : FileTree} {s : Keep} (torn : FilePath → Octets → Octets) : FileRun V O ends t s →
      FileRun V O ends { t with files := t.files.crash torn } { s with masterKey := none }

end KemMake
