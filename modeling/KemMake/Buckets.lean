import KemMake.Reference

/-!
# The keys of the candidate store

A refused `add` has already made a list for its cid. It is taken back by nobody where the
cid had none, and stays as a key with nothing under it until the next sweep.
-/

namespace KemMake

namespace CandidateStore
variable {β π : Type} [DecidableEq β]

/-- Every cid of the mapping has a candidate. -/
def Occupied (st : CandidateStore β π) : Prop := ∀ cid, st.byCid.get? cid ≠ some []

variable {st : CandidateStore β π} {cid : List β} {now : Int}

theorem occupied_expire (st : CandidateStore β π) (now : Int) : (st.expire now).Occupied := by
  intro cid hc
  rw [expire, get?_swept] at hc
  split at hc
  · cases hc
  · rename_i hne
    exact hne (Option.some.inj hc)

theorem Occupied.discard (h : st.Occupied) (cid : List β) : (st.discard cid).Occupied := by
  intro c hc
  exact h c (Dict.get?_of_erase hc)

/-- What `add` leaves when it refuses. -/
theorem add_refused {receivedPdu sentPdu : π} {x : PyError}
    (h : (st.add cid receivedPdu sentPdu now).2 = .error x) :
    (st.add cid receivedPdu sentPdu now).1 = { st.expire now with
      byCid := (st.expire now).byCid.set cid ((st.expire now).candidatesFor cid) } := by
  unfold add at h ⊢
  simp only at h ⊢
  split at h
  · rename_i hper
    rw [if_pos hper]
  · rename_i hper
    split at h
    · rename_i htotal
      rw [if_neg hper, if_pos htotal]
    · cases h

/-- A refusal is a sweep exactly where the cid keeps a candidate. -/
theorem add_refused_iff {receivedPdu sentPdu : π} {x : PyError}
    (h : (st.add cid receivedPdu sentPdu now).2 = .error x) :
    (st.add cid receivedPdu sentPdu now).1 = st.expire now ↔
      survivors now (st.candidatesFor cid) ≠ [] := by
  rw [add_refused h, ← candidatesFor_expire]
  constructor
  · intro heq hnil
    have hkey : (st.expire now).byCid.get? cid = some [] := by
      rw [← heq, hnil]
      exact Dict.get?_set_self ..
    exact occupied_expire st now cid hkey
  · intro hne
    have hkey : (st.expire now).byCid.get? cid = some ((st.expire now).candidatesFor cid) := by
      unfold candidatesFor at hne ⊢
      cases hl : (st.expire now).byCid.get? cid with
      | none =>
        rw [hl] at hne
        exact absurd rfl hne
      | some l => rfl
    rw [Dict.set_get? hkey]

/-- The call is no `add` for a cid without a candidate left when the caps are reached. -/
def Spares (st : CandidateStore β π) : StoreCall β π → Prop
  | .add cid _ _ now => st.Admits cid now ∨ survivors now (st.candidatesFor cid) ≠ []
  | _ => True

/-- Calls that each meet `Spares` in the state they are made in. -/
def AllSpare [DecidableEq π] (st : CandidateStore β π) : List (StoreCall β π) → Prop
  | [] => True
  | call :: rest => st.Spares call ∧ AllSpare (st.call call).1 rest

theorem Occupied.add {receivedPdu sentPdu : π}
    (h : st.Admits cid now ∨ survivors now (st.candidatesFor cid) ≠ []) :
    (st.add cid receivedPdu sentPdu now).1.Occupied := by
  cases hr : (st.add cid receivedPdu sentPdu now).2 with
  | error x =>
    have hfull : ¬ st.Admits cid now := by
      rw [← add_admits st cid receivedPdu sentPdu now, hr]
      exact fun ⟨_, hok⟩ => nomatch hok
    rw [(add_refused_iff hr).mpr (h.resolve_left hfull)]
    exact occupied_expire st now
  | ok c =>
    unfold CandidateStore.add at hr ⊢
    simp only at hr ⊢
    split at hr
    · cases hr
    · rename_i hper
      split at hr
      · cases hr
      · rename_i htotal
        rw [if_neg hper, if_neg htotal]
        intro k hk
        by_cases hc : k = cid
        · subst hc
          simp at hk
        · rw [Dict.get?_set_of_ne _ hc, Dict.get?_set_of_ne _ hc] at hk
          exact occupied_expire st now k hk

theorem Occupied.call [DecidableEq π] {call : StoreCall β π} (h : st.Occupied) (hs : st.Spares call) :
    (st.call call).1.Occupied := by
  cases call with
  | add cid receivedPdu sentPdu now => exact Occupied.add hs
  | promote cid winner => exact h.discard cid
  | discard cid => exact h.discard cid
  | expire now => exact occupied_expire st now
  | candidatesFor | matchOrNone | totalCount => exact h

theorem Occupied.after [DecidableEq π] {calls : List (StoreCall β π)} (h : st.Occupied)
    (hs : st.AllSpare calls) : (st.after calls).Occupied := by
  induction calls generalizing st with
  | nil => exact h
  | cons call rest ih => exact ih (h.call hs.1) hs.2

/-- There are no more keys than candidates. -/
theorem Occupied.keys_le (h : st.Occupied) :
    st.byCid.keys.length ≤ (st.byCid.entries.map fun entry => entry.2.length).sum := by
  have hpos : ∀ entry ∈ st.byCid.entries, 1 ≤ entry.2.length := by
    intro entry hmem
    have hne : entry.2 ≠ [] := fun hnil => h entry.1 (hnil ▸ Dict.get?_of_mem hmem)
    exact List.length_pos_iff.mpr hne
  have hlen := List.length_le_sum_of_one_le (st.byCid.entries.map fun entry => entry.2.length)
  rw [List.length_map] at hlen
  rw [Dict.keys, List.length_map]
  apply hlen
  intro n hn
  obtain ⟨entry, hmem, rfl⟩ := List.mem_map.mp hn
  exact hpos entry hmem

/-- In every state reached a refused `add` is a sweep exactly where the cid keeps a candidate.
Where every refusal was of that kind, no key is left without a candidate. -/
theorem refused_add (limits : CandidateLimits) [DecidableEq π] (calls : List (StoreCall β π)) :
    let st : CandidateStore β π := (new limits).after calls
    (∀ cid receivedPdu sentPdu now x, (st.add cid receivedPdu sentPdu now).2 = .error x →
      ((st.add cid receivedPdu sentPdu now).1 = st.expire now ↔
        survivors now (st.candidatesFor cid) ≠ [])) ∧
    (AllSpare (new limits) calls →
      (∀ cid, st.byCid.get? cid ≠ some []) ∧ (st.byCid.keys.length : Int) ≤ st.total) := by
  refine ⟨fun cid receivedPdu sentPdu now x hx => add_refused_iff hx, fun hs => ?_⟩
  have hnew : (new limits : CandidateStore β π).Occupied := fun _ hk => nomatch hk
  have hocc := hnew.after hs
  obtain ⟨r, _, hagrees⟩ := Agrees.after (agrees_new limits) calls
  refine ⟨hocc, ?_⟩
  rw [hagrees.tallies.total, CandidateStore.held]
  exact Int.ofNat_le.mpr hocc.keys_le

/-- One candidate in all, and a second cid. -/
def fullCalls : List (StoreCall Nat Nat) := [.add [1] 10 0 0]

def roomForOne : CandidateLimits := { maxPerCid := 1, maxTotal := 1 }

/-- A second candidate for the first cid, for which there is no room. -/
def sparedCalls : List (StoreCall Nat Nat) := fullCalls ++ [.add [1] 11 0 0]

theorem allSpare_sparedCalls : (new roomForOne).AllSpare sparedCalls :=
  ⟨.inl ⟨by decide, by decide⟩, .inr (by decide), trivial⟩

/-- The refusal has left no key without a candidate. -/
theorem refused_add_spared :
    let st : CandidateStore Nat Nat := (new roomForOne).after sparedCalls
    (∀ cid receivedPdu sentPdu now x, (st.add cid receivedPdu sentPdu now).2 = .error x →
      ((st.add cid receivedPdu sentPdu now).1 = st.expire now ↔
        survivors now (st.candidatesFor cid) ≠ [])) ∧
    ((∀ cid, st.byCid.get? cid ≠ some []) ∧ (st.byCid.keys.length : Int) ≤ st.total) ∧
    st.byCid.keys = [[1]] ∧ ¬ ((new roomForOne).after fullCalls).Admits [1] 0 := by
  obtain ⟨hiff, hspared⟩ := refused_add roomForOne sparedCalls
  exact ⟨hiff, hspared allSpare_sparedCalls, by decide, fun h => absurd h.1 (by decide)⟩

/-- The second cid is refused, and stays as a key with an empty list. -/
theorem refused_add_leaves :
    let st : CandidateStore Nat Nat := (new roomForOne).after fullCalls
    (st.add [2] 20 0 0).2.isOk = false ∧ (st.add [2] 20 0 0).1.byCid.keys = [[1], [2]] ∧
      (st.expire 0).byCid.keys = [[1]] ∧
      ((st.add [2] 20 0 0).1.byCid.get? [2]).map List.length = some 0 ∧
      (st.add [2] 20 0 0).1.total < (st.add [2] 20 0 0).1.byCid.keys.length := by
  decide

end CandidateStore

end KemMake
