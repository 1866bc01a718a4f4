import KemMake.Lib.Dict

/-!
# Files replaced whole

The files of a process, and the system calls that change one file each. Data is safe from a
loss of power once it has been synchronised. `replacing` fills a file under another name and
renames it: wherever that ends, the target is the old file or the new one.
-/

structure File (ω : Type) where
  data : List ω
  mode : Nat
  /-- The data has been forced to the medium since it last changed. -/
  synced : Bool
  deriving DecidableEq

abbrev Files (ν ω : Type) := Dict ν (File ω)

namespace Files
variable {ν ω : Type}

inductive Call (ν ω : Type) where
  | create (name : ν) (mode : Nat)
  | append (name : ν) (data : List ω)
  | sync (name : ν)
  | chmod (name : ν) (mode : Nat)
  | rename (source target : ν)
  | unlink (name : ν)

variable [DecidableEq ν]

/-- The file of that name, if there is one, changed. -/
def alter (s : Files ν ω) (name : ν) (change : File ω → File ω) : Files ν ω :=
  match s.get? name with
  | none => s
  | some file => s.set name (change file)

def call (s : Files ν ω) : Call ν ω → Files ν ω
  | .create name mode => s.set name ⟨[], mode, false⟩
  | .append name data => s.alter name fun file =>
    { file with data := file.data ++ data, synced := false }
  | .sync name => s.alter name fun file => { file with synced := true }
  | .chmod name mode => s.alter name fun file => { file with mode }
  | .rename source target =>
    match s.get? source with
    | none => s
    | some file => (s.erase source).set target file
  | .unlink name => s.erase name

def run (s : Files ν ω) (calls : List (Call ν ω)) : Files ν ω := calls.foldl call s

/-- The power fails: data that was not synchronised may be anything. -/
def crash (s : Files ν ω) (torn : ν → List ω → List ω) : Files ν ω :=
  s.mapValues fun name file => if file.synced then file else { file with data := torn name file.data }

/-! ## Replacing a file -/

/-- The calls up to the renaming. -/
def filling (temp : ν) (mode mode' : Nat) (chunks : List (List ω)) : List (Call ν ω) :=
  .create temp mode :: chunks.map (.append temp) ++ [.sync temp, .chmod temp mode']

/-- A file is made with a mode of its own, filled, synchronised, given its mode and renamed. -/
def replacing (temp target : ν) (mode mode' : Nat) (chunks : List (List ω)) : List (Call ν ω) :=
  filling temp mode mode' chunks ++ [.rename temp target]

/-- Where a list of calls ends: how many are made, how much the next one writes although it does
not return, and whether the handler of the exception removes the file. -/
structure Stop where
  made : Nat
  written : Nat := 0
  unlinked : Bool := false

/-- The handler of the exception has run, or nothing was made. -/
def Stop.Handled (stop : Stop) : Prop := stop.made = 0 ∨ stop.unlinked = true

/-- What a call does although it does not return. -/
def Call.part (n : Nat) : Call ν ω → List (Call ν ω)
  | .append name data => [.append name (data.take n)]
  | _ => []

def Stop.calls (stop : Stop) (temp : ν) (all : List (Call ν ω)) : List (Call ν ω) :=
  all.take stop.made ++ ((all[stop.made]?.map (Call.part stop.written)).getD [] ++
    if stop.unlinked then [.unlink temp] else [])

/-- The call changes no file but this one, and gives it one of these modes. -/
def Call.Fills (name : ν) (modes : List Nat) : Call ν ω → Prop
  | .create name' mode | .chmod name' mode => name' = name ∧ mode ∈ modes
  | .append name' _ | .sync name' | .unlink name' => name' = name
  | .rename _ _ => False

section
variable {s : Files ν ω} {name temp target : ν} {mode mode' : Nat} {modes : List Nat}
  {chunks : List (List ω)}

/-! ## Calls on one file -/

theorem run_append (s : Files ν ω) (calls calls' : List (Call ν ω)) :
    s.run (calls ++ calls') = (s.run calls).run calls' := List.foldl_append

theorem alter_erase (s : Files ν ω) (name : ν) (change : File ω → File ω) :
    (s.alter name change).erase name = s.erase name := by
  unfold alter
  split
  · rfl
  · exact Dict.erase_set_self s name _

theorem call_erase {c : Call ν ω} (h : c.Fills name modes) :
    (s.call c).erase name = s.erase name := by
  cases c with
  | create =>
    obtain ⟨rfl, _⟩ := h
    exact Dict.erase_set_self s _ _
  | chmod =>
    obtain ⟨rfl, _⟩ := h
    exact alter_erase s _ _
  | append | sync =>
    cases h
    exact alter_erase s name _
  | unlink =>
    cases h
    exact Dict.erase_erase s name
  | rename => exact h.elim

theorem run_erase {calls : List (Call ν ω)} (h : ∀ c ∈ calls, c.Fills name modes) :
    (s.run calls).erase name = s.erase name := by
  induction calls generalizing s with
  | nil => rfl
  | cons c calls ih =>
    have hc := call_erase (s := s) (h c List.mem_cons_self)
    have hrest := ih (s := s.call c) fun c' hc' => h c' (List.mem_cons_of_mem _ hc')
    exact hrest.trans hc

theorem alter_get? {file : File ω} (h : s.get? name = some file) (change : File ω → File ω) :
    (s.alter name change).get? name = some (change file) := by
  simp only [alter, h, Dict.get?_set_self]

theorem alter_eq_some {file : File ω} {change : File ω → File ω}
    (h : (s.alter name change).get? name = some file) :
    ∃ old, s.get? name = some old ∧ file = change old := by
  cases hold : s.get? name with
  | none =>
    rw [alter, hold] at h
    rw [h] at hold
    cases hold
  | some old =>
    rw [alter_get? hold] at h
    exact ⟨old, rfl, (Option.some.inj h).symm⟩

theorem call_mode {c : Call ν ω} (hc : c.Fills name modes)
    (h : ∀ file, s.get? name = some file → file.mode ∈ modes) :
    ∀ file, (s.call c).get? name = some file → file.mode ∈ modes := by
  intro file hfile
  cases c with
  | create =>
    obtain ⟨rfl, hmode⟩ := hc
    rw [call, Dict.get?_set_self] at hfile
    cases hfile
    exact hmode
  | chmod =>
    obtain ⟨rfl, hmode⟩ := hc
    obtain ⟨old, _, rfl⟩ := alter_eq_some hfile
    exact hmode
  | append | sync =>
    cases hc
    obtain ⟨old, hold, rfl⟩ := alter_eq_some hfile
    exact h old hold
  | unlink =>
    cases hc
    rw [call, Dict.get?_erase_self] at hfile
    cases hfile
  | rename => exact hc.elim

theorem run_mode {calls : List (Call ν ω)} (hcalls : ∀ c ∈ calls, c.Fills name modes)
    (h : ∀ file, s.get? name = some file → file.mode ∈ modes) :
    ∀ file, (s.run calls).get? name = some file → file.mode ∈ modes := by
  induction calls generalizing s with
  | nil => exact h
  | cons c calls ih =>
    exact ih (fun c' hc' => hcalls c' (List.mem_cons_of_mem _ hc'))
      (call_mode (hcalls c List.mem_cons_self) h)

/-! ## Filling -/

omit [DecidableEq ν] in
theorem filling_fills : ∀ c ∈ filling temp mode mode' chunks, c.Fills temp [mode, mode'] := by
  intro c hc
  simp only [filling, List.cons_append, List.mem_cons, List.mem_append, List.mem_map,
    List.not_mem_nil, or_false] at hc
  obtain rfl | ⟨_, _, rfl⟩ | rfl | rfl := hc
  · exact ⟨rfl, List.mem_cons_self⟩
  · rfl
  · rfl
  · exact ⟨rfl, List.mem_cons_of_mem _ List.mem_cons_self⟩

variable (chunks) in
theorem appends_get? {file : File ω} (h : s.get? name = some file) :
    ∃ synced, (s.run (chunks.map (.append name))).get? name =
      some { file with data := file.data ++ chunks.flatten, synced } := by
  induction chunks generalizing s file with
  | nil =>
    refine ⟨file.synced, ?_⟩
    rw [List.flatten_nil, List.append_nil]
    exact h
  | cons chunk chunks ih =>
    have hone := alter_get? h fun file => { file with data := file.data ++ chunk, synced := false }
    obtain ⟨synced, hrest⟩ := ih (s := s.call (.append name chunk)) hone
    refine ⟨synced, hrest.trans ?_⟩
    rw [List.flatten_cons, List.append_assoc]

/-- The file that has been filled. -/
theorem filling_get? : (s.run (filling temp mode mode' chunks)).get? temp =
    some ⟨chunks.flatten, mode', true⟩ := by
  have hnew : (s.call (.create temp mode)).get? temp = some ⟨[], mode, false⟩ :=
    Dict.get?_set_self s temp _
  obtain ⟨synced, hfull⟩ := appends_get? chunks hnew
  rw [filling, run_append]
  change ((Files.run _ (chunks.map (.append temp))).alter temp _ |>.alter temp _).get? temp = _
  rw [alter_get? (alter_get? hfull _) _]
  rfl

/-! ## Atomicity -/

/-- Run to its end, it puts the new file in the place of the target. -/
theorem run_replacing (hfree : s.get? temp = none) :
    s.run (replacing temp target mode mode' chunks) =
      s.set target ⟨chunks.flatten, mode', true⟩ := by
  have herase : (s.run (filling temp mode mode' chunks)).erase temp = s :=
    (run_erase filling_fills).trans (Dict.erase_of_get?_none hfree)
  rw [replacing, run_append]
  change Files.call _ (.rename temp target) = _
  rw [call, filling_get?, herase]

omit [DecidableEq ν] in
theorem part_fills {c : Call ν ω} (h : c.Fills name modes) (n : Nat) :
    ∀ c' ∈ c.part n, c'.Fills name modes := by
  intro c' hc'
  cases c with
  | append =>
    cases List.mem_singleton.mp hc'
    exact h
  | create | sync | chmod | unlink | rename => cases hc'

omit [DecidableEq ν] in
variable (target) in
/-- Up to the renaming, no file is touched but the temporary one. -/
theorem replacing_early {stop : Stop} (h : stop.made ≤ (filling temp mode mode' chunks).length) :
    ∀ c ∈ stop.calls temp (replacing temp target mode mode' chunks),
      c.Fills temp [mode, mode'] := by
  intro c hc
  simp only [Stop.calls, List.mem_append] at hc
  obtain hc | hc | hc := hc
  · rw [replacing, List.take_append_of_le_length h] at hc
    exact filling_fills c (List.mem_of_mem_take hc)
  · cases hnext : (replacing temp target mode mode' chunks)[stop.made]? with
    | none => simp [hnext] at hc
    | some next =>
      rw [hnext] at hc
      by_cases hlast : stop.made = (filling temp mode mode' chunks).length
      · rw [replacing, hlast, List.getElem?_append_right (Nat.le_refl _), Nat.sub_self] at hnext
        cases hnext
        cases hc
      · rw [replacing, List.getElem?_append_left (by omega)] at hnext
        exact part_fills (filling_fills next (List.mem_of_getElem? hnext)) _ c hc
  · split at hc
    · cases List.mem_singleton.mp hc
      rfl
    · cases hc

/-- From then on, the target is the new file. -/
theorem replacing_late {stop : Stop} (hfree : s.get? temp = none) (hne : temp ≠ target)
    (h : ¬ stop.made ≤ (filling temp mode mode' chunks).length) :
    s.run (stop.calls temp (replacing temp target mode mode' chunks)) =
      s.set target ⟨chunks.flatten, mode', true⟩ := by
  have hlen : (replacing temp target mode mode' chunks).length ≤ stop.made := by
    simp only [replacing, List.length_append, List.length_cons, List.length_nil]
    omega
  have hgone : (s.set target ⟨chunks.flatten, mode', true⟩).get? temp = none := by
    rw [Dict.get?_set_of_ne _ hne, hfree]
  rw [Stop.calls, run_append, List.take_of_length_le hlen, run_replacing hfree,
    List.getElem?_eq_none hlen, Option.map_none, Option.getD_none, List.nil_append]
  split
  · exact Dict.erase_of_get?_none hgone
  · rfl

variable (target mode mode' chunks) in
/-- Nothing is left of the temporary file where the handler removes it, or it was not made. -/
theorem replacing_gone {stop : Stop} (hfree : s.get? temp = none) (h : stop.Handled) :
    (s.run (stop.calls temp (replacing temp target mode mode' chunks))).get? temp = none := by
  obtain h | h := h
  · rw [Stop.calls, h]
    change (s.run (if stop.unlinked then [.unlink temp] else [])).get? temp = none
    split
    · exact Dict.get?_erase_self s temp
    · exact hfree
  · rw [Stop.calls, h, ← List.append_assoc, run_append]
    exact Dict.get?_erase_self _ _

/-! ## Loss of power -/

theorem get?_crash (s : Files ν ω) (torn : ν → List ω → List ω) (name : ν) :
    (s.crash torn).get? name = (s.get? name).map fun file =>
      if file.synced then file else { file with data := torn name file.data } :=
  Dict.get?_mapValues s _ name

end

end Files
