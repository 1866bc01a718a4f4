import Mathlib.Algebra.BigOperators.Group.Finset.Basic
import Mathlib.Algebra.GroupWithZero.Nat
import Mathlib.Data.List.Nodup

/-!
# Insertion-ordered dictionaries

A finite map that remembers the order in which its keys came in: storing under a
key that is present keeps its place, storing under a new key appends.
-/

structure Dict (κ υ : Type) where
  entries : List (κ × υ)
  nodup : (entries.map Prod.fst).Nodup

namespace Dict
variable {κ υ : Type}

def empty : Dict κ υ := ⟨[], by simp⟩

instance : EmptyCollection (Dict κ υ) := ⟨empty⟩

def keys (d : Dict κ υ) : List κ := d.entries.map Prod.fst

variable [DecidableEq κ]

def get? (d : Dict κ υ) (k : κ) : Option υ :=
  (d.entries.find? fun entry => decide (entry.1 = k)).map Prod.snd

/-- The value under `k` replaced in place. -/
def replaced (entries : List (κ × υ)) (k : κ) (v : υ) : List (κ × υ) :=
  entries.map fun entry => if entry.1 = k then (k, v) else entry

theorem replaced_keys (entries : List (κ × υ)) (k : κ) (v : υ) :
    (replaced entries k v).map Prod.fst = entries.map Prod.fst := by
  simp only [replaced, List.map_map]
  apply List.map_congr_left
  intro entry _
  by_cases h : entry.1 = k <;> simp [h]

/-- `d[k] = v` -/
def set (d : Dict κ υ) (k : κ) (v : υ) : Dict κ υ :=
  if h : k ∈ d.keys then ⟨replaced d.entries k v, by rw [replaced_keys]; exact d.nodup⟩
  else ⟨d.entries ++ [(k, v)], by
    rw [List.map_append, List.nodup_append]
    refine ⟨d.nodup, by simp, ?_⟩
    intro a ha b hb hab
    have hb : b = k := by simpa using hb
    exact h (by rw [← hb, ← hab]; exact ha)⟩

/-- `d.pop(k, None)` -/
def erase (d : Dict κ υ) (k : κ) : Dict κ υ :=
  ⟨d.entries.filter fun entry => decide (entry.1 ≠ k),
    d.nodup.sublist (List.filter_sublist.map _)⟩

@[simp] theorem get?_empty (k : κ) : (∅ : Dict κ υ).get? k = none := rfl

theorem get?_eq_none_iff {d : Dict κ υ} {k : κ} : d.get? k = none ↔ k ∉ d.keys := by
  simp only [get?, keys, Option.map_eq_none_iff, List.find?_eq_none, List.mem_map, not_exists,
    not_and, decide_eq_true_eq]

theorem mem_keys_iff {d : Dict κ υ} {k : κ} : k ∈ d.keys ↔ ∃ v, d.get? k = some v := by
  rw [← Option.ne_none_iff_exists', ne_eq, get?_eq_none_iff, not_not]

theorem find?_replaced (entries : List (κ × υ)) (k j : κ) (v : υ) :
    ((replaced entries k v).find? fun entry => decide (entry.1 = j)).map Prod.snd =
      if j = k ∧ k ∈ entries.map Prod.fst then some v
      else (entries.find? fun entry => decide (entry.1 = j)).map Prod.snd := by
  induction entries with
  | nil => simp [replaced]
  | cons entry rest ih =>
    simp only [replaced] at ih
    by_cases hk : entry.1 = k
    · by_cases hj : j = k
      · simp [replaced, hk, hj]
      · have hjk : k ≠ j := fun h => hj h.symm
        simp only [replaced, List.map_cons, hk, ↓reduceIte, List.find?_cons, hjk, decide_false, ih,
          hj, false_and]
    · by_cases hj : entry.1 = j
      · have hjk : j ≠ k := fun h => hk (hj.trans h)
        simp [replaced, hj, hjk]
      · have hk' : k ≠ entry.1 := fun h => hk h.symm
        simp only [replaced, List.map_cons, hk, ↓reduceIte, List.find?_cons, hj, decide_false, ih,
          List.mem_cons, hk', false_or]

theorem get?_set (d : Dict κ υ) (k j : κ) (v : υ) :
    (d.set k v).get? j = if j = k then some v else d.get? j := by
  unfold set get?
  split
  · rename_i h
    rw [find?_replaced]
    simp only [keys] at h
    simp [h]
  · rename_i h
    have hk : d.get? k = none := get?_eq_none_iff.mpr h
    simp only [List.find?_append, Option.map_or]
    by_cases hj : j = k
    · subst hj
      simp only [get?] at hk
      simp [hk]
    · have hjk : k ≠ j := fun h => hj h.symm
      simp [hj, hjk]

@[simp] theorem get?_set_self (d : Dict κ υ) (k : κ) (v : υ) : (d.set k v).get? k = some v := by
  simp [get?_set]

theorem get?_set_of_ne (d : Dict κ υ) {k j : κ} (h : j ≠ k) (v : υ) :
    (d.set k v).get? j = d.get? j := by
  simp [get?_set, h]

theorem get?_erase (d : Dict κ υ) (k j : κ) :
    (d.erase k).get? j = if j = k then none else d.get? j := by
  unfold erase get?
  rw [List.find?_filter]
  by_cases hj : j = k
  · subst hj
    simp
  · have : (fun entry : κ × υ => !decide (entry.1 = k) && decide (entry.1 = j)) =
        fun entry => decide (entry.1 = j) := by
      funext entry
      by_cases h : entry.1 = j <;> simp [h, hj]
    simp [hj, this]

@[simp] theorem get?_erase_self (d : Dict κ υ) (k : κ) : (d.erase k).get? k = none := by
  simp [get?_erase]

theorem get?_erase_of_ne (d : Dict κ υ) {k j : κ} (h : j ≠ k) : (d.erase k).get? j = d.get? j := by
  simp [get?_erase, h]

theorem get?_erase_eq_some {d : Dict κ υ} {k j : κ} {v : υ} :
    (d.erase k).get? j = some v ↔ j ≠ k ∧ d.get? j = some v := by
  rw [get?_erase]
  split <;> simp [*]

theorem get?_of_mem {d : Dict κ υ} {entry : κ × υ} (h : entry ∈ d.entries) :
    d.get? entry.1 = some entry.2 := by
  obtain ⟨entries, nodup⟩ := d
  unfold get?
  induction entries with
  | nil => simp at h
  | cons first rest ih =>
    rw [List.map_cons, List.nodup_cons] at nodup
    cases List.mem_cons.mp h with
    | inl heq => simp [heq]
    | inr hmem =>
      have hne : first.1 ≠ entry.1 := by
        intro heq
        exact nodup.1 (heq ▸ List.mem_map_of_mem hmem)
      rw [List.find?_cons_of_neg (by simpa using hne)]
      exact ih nodup.2 hmem

theorem mem_of_get? {d : Dict κ υ} {k : κ} {v : υ} (h : d.get? k = some v) :
    (k, v) ∈ d.entries := by
  obtain ⟨entry, hfind, rfl⟩ := Option.map_eq_some_iff.mp h
  have hkey : entry.1 = k := by simpa using List.find?_some hfind
  exact hkey ▸ List.mem_of_find?_eq_some hfind

/-- Any value of the result was there before. -/
theorem get?_of_erase {d : Dict κ υ} {k j : κ} {v : υ} (h : (d.erase k).get? j = some v) :
    d.get? j = some v := (get?_erase_eq_some.mp h).2

theorem keys_eq_nil {d : Dict κ υ} (h : ∀ k, d.get? k = none) : d.keys = [] :=
  List.eq_nil_iff_forall_not_mem.mpr fun k => get?_eq_none_iff.mp (h k)

theorem keys_eq_singleton {d : Dict κ υ} {k : κ} {v : υ} (h : d.get? k = some v)
    (hother : ∀ j, j ≠ k → d.get? j = none) : d.keys = [k] := by
  have hnodup : d.keys.Nodup := d.nodup
  have hmem : k ∈ d.keys := mem_keys_iff.mpr ⟨v, h⟩
  have hall : ∀ j ∈ d.keys, j = k := by
    intro j hj
    by_contra hne
    exact get?_eq_none_iff.mp (hother j hne) hj
  exact List.perm_singleton.mp ((List.perm_ext_iff_of_nodup hnodup (List.nodup_singleton k)).mpr
    fun j => ⟨fun hj => List.mem_singleton.mpr (hall j hj), fun hj => List.mem_singleton.mp hj ▸ hmem⟩)

theorem keys_set_of_mem {d : Dict κ υ} {k : κ} (h : k ∈ d.keys) (v : υ) : (d.set k v).keys = d.keys := by
  unfold set
  rw [dif_pos h]
  exact replaced_keys d.entries k v

/-- Writing what is there changes nothing. -/
theorem set_get? {d : Dict κ υ} {k : κ} {v : υ} (h : d.get? k = some v) : d.set k v = d := by
  have hsame : d.entries.map (fun entry => if entry.1 = k then (k, v) else entry) = d.entries := by
    conv_rhs => rw [← List.map_id d.entries]
    apply List.map_congr_left
    intro entry hentry
    split
    · rename_i hkey
      have hv := get?_of_mem hentry
      rw [hkey, h] at hv
      cases hv
      rw [← hkey]
      rfl
    · rfl
  unfold set
  rw [dif_pos (mem_keys_iff.mpr ⟨v, h⟩)]
  cases d
  simp only [replaced] at hsame ⊢
  simp only [hsame]

/-! ## Dictionaries made from others -/

omit [DecidableEq κ] in
theorem eq_of_entries {d d' : Dict κ υ} (h : d.entries = d'.entries) : d = d' := by
  cases d
  cases d'
  cases h
  rfl

theorem erase_of_get?_none {d : Dict κ υ} {k : κ} (h : d.get? k = none) : d.erase k = d := by
  apply eq_of_entries
  apply List.filter_eq_self.mpr
  intro entry hentry
  rw [decide_eq_true_eq]
  intro hkey
  exact get?_eq_none_iff.mp h (hkey ▸ List.mem_map_of_mem hentry)

theorem filter_replaced (entries : List (κ × υ)) (k j : κ) (v : υ) :
    (replaced entries j v).filter (fun entry => decide (entry.1 ≠ k)) =
      replaced (entries.filter fun entry => decide (entry.1 ≠ k)) j v := by
  simp only [replaced, List.filter_map]
  congr 1
  apply List.filter_congr
  intro entry _
  by_cases h : entry.1 = j <;> simp [h]

/-- What is stored under a key is gone with it. -/
theorem erase_set_self (d : Dict κ υ) (k : κ) (v : υ) : (d.set k v).erase k = d.erase k := by
  apply eq_of_entries
  unfold set
  split
  · have hself : ∀ entry ∈ d.entries.filter (fun entry => decide (entry.1 ≠ k)),
        (if entry.1 = k then (k, v) else entry) = entry := by
      intro entry hentry
      exact if_neg (by simpa using (List.mem_filter.mp hentry).2)
    change (replaced d.entries k v).filter _ = _
    rw [filter_replaced, replaced]
    exact (List.map_congr_left hself).trans (List.map_id _)
  · change (d.entries ++ [(k, v)]).filter _ = _
    rw [List.filter_append, List.filter_cons_of_neg (by simp), List.filter_nil, List.append_nil]
    rfl

theorem erase_erase (d : Dict κ υ) (k : κ) : (d.erase k).erase k = d.erase k :=
  erase_of_get?_none (get?_erase_self d k)

section
variable {κ' υ' : Type}

omit [DecidableEq κ] in
/-- Every value changed, under the same keys. -/
def mapValues (d : Dict κ υ) (f : κ → υ → υ') : Dict κ υ' :=
  ⟨d.entries.map fun entry => (entry.1, f entry.1 entry.2), by
    rw [List.map_map]
    exact d.nodup⟩

theorem get?_mapValues (d : Dict κ υ) (f : κ → υ → υ') (k : κ) :
    (d.mapValues f).get? k = (d.get? k).map (f k) := by
  simp only [get?, mapValues, List.find?_map, Option.map_map]
  cases hfind : d.entries.find? ((fun entry => decide (entry.1 = k)) ∘ fun entry => (entry.1, f entry.1 entry.2)) with
  | none =>
    have hfind : d.entries.find? (fun entry => decide (entry.1 = k)) = none := hfind
    simp [hfind]
  | some entry =>
    have hfind : d.entries.find? (fun entry => decide (entry.1 = k)) = some entry := hfind
    have hkey : entry.1 = k := by simpa using List.find?_some hfind
    simp [hfind, hkey]

/-- The entries whose keys are names of others, under those. -/
def select (d : Dict κ υ) (g : κ → Option κ')
    (hg : ∀ a b k, g a = some k → g b = some k → a = b) (f : υ → υ') : Dict κ' υ' :=
  ⟨d.entries.filterMap fun entry => (g entry.1).map fun k => (k, f entry.2), by
    rw [List.map_filterMap]
    have hkeys : (d.entries.map Prod.fst).filterMap g = d.entries.filterMap
        fun entry => Option.map Prod.fst ((g entry.1).map fun k => (k, f entry.2)) := by
      rw [List.filterMap_map]
      apply List.filterMap_congr
      intro entry _
      cases h : g entry.1 <;> simp [h]
    rw [← hkeys]
    exact d.nodup.filterMap fun a b k ha hb => hg a b k ha hb⟩

section
variable {d : Dict κ υ} {g : κ → Option κ'} {hg : ∀ a b k, g a = some k → g b = some k → a = b}
  {f : υ → υ'} {k : κ}

/-- An entry that is not selected does not count. -/
theorem select_erase (h : g k = none) : (d.erase k).select g hg f = d.select g hg f := by
  apply eq_of_entries
  change (d.entries.filter _).filterMap _ = d.entries.filterMap _
  rw [List.filterMap_filter]
  apply List.filterMap_congr
  intro entry _
  by_cases hkey : entry.1 = k
  · simp [hkey, h]
  · simp [hkey]

theorem select_set_none (h : g k = none) (v : υ) : (d.set k v).select g hg f = d.select g hg f := by
  rw [← select_erase (d := d.set k v) h, erase_set_self, select_erase h]

omit [DecidableEq κ] in
/-- Values may change that are not selected, or look the same selected. -/
theorem select_mapValues {change : κ → υ → υ}
    (h : ∀ entry ∈ d.entries, g entry.1 ≠ none → f (change entry.1 entry.2) = f entry.2) :
    (d.mapValues change).select g hg f = d.select g hg f := by
  apply eq_of_entries
  change (d.entries.map _).filterMap _ = d.entries.filterMap _
  rw [List.filterMap_map]
  apply List.filterMap_congr
  intro entry hentry
  cases hn : g entry.1 with
  | none => simp [hn]
  | some k =>
    have hsame := h entry hentry (by simp [hn])
    simp [hn, hsame]

variable [DecidableEq κ'] {k' : κ'}

omit [DecidableEq κ] [DecidableEq κ'] in
theorem mem_keys_select (h : g k = some k') : k' ∈ (d.select g hg f).keys ↔ k ∈ d.keys := by
  simp only [keys, select, List.map_filterMap, List.mem_filterMap, List.mem_map]
  constructor
  · rintro ⟨entry, hentry, hkey⟩
    cases hn : g entry.1 with
    | none => simp [hn] at hkey
    | some k'' =>
      obtain rfl : k'' = k' := by simpa [hn] using hkey
      exact ⟨entry, hentry, hg _ _ _ hn h⟩
  · rintro ⟨entry, hentry, rfl⟩
    exact ⟨entry, hentry, by simp [h]⟩

theorem select_set (h : g k = some k') (v : υ) :
    (d.set k v).select g hg f = (d.select g hg f).set k' (f v) := by
  apply eq_of_entries
  by_cases hmem : k ∈ d.keys
  · unfold set
    rw [dif_pos hmem, dif_pos ((mem_keys_select h).mpr hmem)]
    change (replaced d.entries k v).filterMap _ = replaced (d.entries.filterMap _) k' (f v)
    simp only [replaced, List.filterMap_map, List.map_filterMap]
    apply List.filterMap_congr
    intro entry _
    by_cases hkey : entry.1 = k
    · simp [hkey, h]
    · cases hn : g entry.1 with
      | none => simp [hkey, hn]
      | some k'' =>
        have hne : k'' ≠ k' := fun heq => hkey (hg _ _ _ (heq ▸ hn) h)
        simp [hkey, hn, hne]
  · unfold set
    rw [dif_neg hmem, dif_neg fun hk => hmem ((mem_keys_select h).mp hk)]
    change (d.entries ++ [(k, v)]).filterMap _ = d.entries.filterMap _ ++ [(k', f v)]
    rw [List.filterMap_append]
    simp [h]

end

end

/-- A sum over the entries is one over any set that has all the keys. -/
theorem sum_entries (d : Dict κ υ) (g : υ → Nat) {S : Finset κ} (hS : ∀ k ∈ d.keys, k ∈ S) :
    (d.entries.map fun entry => g entry.2).sum = ∑ k ∈ S, ((d.get? k).map g).getD 0 := by
  have hentries : d.entries.map (fun entry => g entry.2) =
      d.keys.map fun k => ((d.get? k).map g).getD 0 := by
    rw [keys, List.map_map]
    apply List.map_congr_left
    intro entry hmem
    simp [get?_of_mem hmem]
  have hnodup : d.keys.Nodup := d.nodup
  rw [hentries, ← List.sum_toFinset _ hnodup]
  apply Finset.sum_subset
  · intro k hk
    exact hS k (List.mem_toFinset.mp hk)
  · intro k _ hk
    rw [get?_eq_none_iff.mpr fun hmem => hk (List.mem_toFinset.mpr hmem)]
    rfl

/-! ## Dictionaries of lists -/

section
variable {α : Type} {f : α → κ}

/-- A count over the lists that distinct keys select. -/
theorem sum_countP_filter (p : α → Bool) (ks : List κ) (hks : ks.Nodup) (l : List α) :
    (ks.map fun k => (l.filter fun a => decide (f a = k)).countP p).sum =
      l.countP fun a => p a && decide (f a ∈ ks) := by
  induction ks with
  | nil => simp
  | cons k ks ih =>
    rw [List.nodup_cons] at hks
    rw [List.map_cons, List.sum_cons, ih hks.2, List.countP_filter]
    clear ih
    induction l with
    | nil => rfl
    | cons a l ih =>
      simp only [List.countP_cons, List.mem_cons, Bool.decide_or] at ih ⊢
      by_cases hk : f a = k
      · cases p a <;> simp [hk, hks.1] <;> omega
      · cases p a <;> simp [hk] <;> omega

/-- If the lists of `d` are a list sorted by key, a count over them is a count over it. -/
theorem sum_countP {d : Dict κ (List α)} {l : List α}
    (h : ∀ k, (d.get? k).getD [] = l.filter fun a => decide (f a = k)) (p : α → Bool) :
    (d.entries.map fun entry => entry.2.countP p).sum = l.countP p := by
  have hentries : d.entries.map (fun entry => entry.2.countP p) =
      d.keys.map fun k => (l.filter fun a => decide (f a = k)).countP p := by
    rw [keys, List.map_map]
    apply List.map_congr_left
    intro entry hmem
    rw [Function.comp_apply, ← h, get?_of_mem hmem, Option.getD_some]
  rw [hentries, sum_countP_filter p d.keys d.nodup]
  apply List.countP_congr
  intro a ha
  have hkey : f a ∈ d.keys := by
    apply not_not.mp
    intro hk
    have hnil := h (f a)
    rw [get?_eq_none_iff.mpr hk, Option.getD_none] at hnil
    have hmem : a ∈ l.filter fun b => decide (f b = f a) := by simpa using ha
    rw [← hnil] at hmem
    simp at hmem
  simp [hkey]

end

end Dict
