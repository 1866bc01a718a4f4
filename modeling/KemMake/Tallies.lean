import KemMake.Candidate
import Mathlib.Algebra.Order.BigOperators.Group.Finset

/-!
# The counter of the candidate store

`total` counts the entries of all cids, and each operation keeps both caps.
-/

namespace KemMake

variable {β π : Type} [DecidableEq β]

namespace CandidateStore

/-- The entries of all cids. -/
def held (st : CandidateStore β π) : Nat := (st.byCid.entries.map fun entry => entry.2.length).sum

/-- The counter counts the entries, which keep to both caps. -/
structure Tallies (limits : CandidateLimits) (st : CandidateStore β π) : Prop where
  total : st.total = st.held
  perCid : ∀ cid, (st.candidatesFor cid).length ≤ limits.maxPerCid
  inTotal : st.total ≤ limits.maxTotal
  same : st.limits = limits

variable {st st' : CandidateStore β π} {limits : CandidateLimits} {cid : List β} {now : Int}

theorem held_sum (st : CandidateStore β π) {S : Finset (List β)} (hS : ∀ k ∈ st.byCid.keys, k ∈ S) :
    st.held = ∑ k ∈ S, (st.candidatesFor k).length := by
  rw [held, Dict.sum_entries _ List.length hS]
  apply Finset.sum_congr rfl
  intro k _
  unfold candidatesFor
  cases st.byCid.get? k <;> rfl

theorem held_expire (st : CandidateStore β π) (now : Int) :
    (st.expire now).held + removedCount now st.byCid = st.held := by
  have hold : ∀ k ∈ st.byCid.keys, k ∈ (st.byCid.keys ++ (st.expire now).byCid.keys).toFinset := by
    intro k hk
    simp [hk]
  have hnew : ∀ k ∈ (st.expire now).byCid.keys,
      k ∈ (st.byCid.keys ++ (st.expire now).byCid.keys).toFinset := by
    intro k hk
    simp [hk]
  rw [held_sum _ hnew, held_sum _ hold, removedCount,
    Dict.sum_entries _ (fun l => l.length - (survivors now l).length) hold, ← Finset.sum_add_distrib]
  apply Finset.sum_congr rfl
  intro k _
  rw [candidatesFor_expire]
  unfold candidatesFor
  cases st.byCid.get? k with
  | none => rfl
  | some l =>
    have hle : (survivors now l).length ≤ l.length := List.length_filter_le _ l
    simp only [Option.getD_some, Option.map_some]
    omega

/-- A change under one cid. -/
theorem held_at (h : ∀ k, k ≠ cid → st'.candidatesFor k = st.candidatesFor k) :
    st'.held + (st.candidatesFor cid).length = st.held + (st'.candidatesFor cid).length := by
  have hold : ∀ k ∈ st.byCid.keys, k ∈ insert cid (st.byCid.keys ++ st'.byCid.keys).toFinset := by
    intro k hk
    simp [hk]
  have hnew : ∀ k ∈ st'.byCid.keys, k ∈ insert cid (st.byCid.keys ++ st'.byCid.keys).toFinset := by
    intro k hk
    simp [hk]
  have hcid := Finset.mem_insert_self cid (st.byCid.keys ++ st'.byCid.keys).toFinset
  have hrest : ∑ k ∈ (insert cid (st.byCid.keys ++ st'.byCid.keys).toFinset).erase cid,
        (st'.candidatesFor k).length =
      ∑ k ∈ (insert cid (st.byCid.keys ++ st'.byCid.keys).toFinset).erase cid,
        (st.candidatesFor k).length := by
    apply Finset.sum_congr rfl
    intro k hk
    rw [h k (Finset.mem_erase.mp hk).1]
  rw [held_sum st hold, held_sum st' hnew, ← Finset.add_sum_erase _ _ hcid,
    ← Finset.add_sum_erase _ (fun k => (st.candidatesFor k).length) hcid, hrest]
  omega

theorem tallies_new (limits : CandidateLimits) :
    (new limits : CandidateStore β π).Tallies limits := by
  constructor <;> simp [new, held, candidatesFor]
  rfl

theorem Tallies.expire (h : st.Tallies limits) (now : Int) : (st.expire now).Tallies limits := by
  have hheld := st.held_expire now
  have htotal := h.total
  have hin := h.inTotal
  refine ⟨?_, fun cid => ?_, ?_, h.same⟩
  · simp only [CandidateStore.expire] at hheld ⊢
    omega
  · rw [candidatesFor_expire]
    exact Nat.le_trans (List.length_filter_le _ _) (h.perCid cid)
  · simp only [CandidateStore.expire]
    omega

theorem Tallies.discard (h : st.Tallies limits) (cid : List β) : (st.discard cid).Tallies limits := by
  have hat : (st.discard cid).held + _ = _ := held_at fun k hk => candidatesFor_discard st hk
  have hnil : (st.discard cid).candidatesFor cid = [] := by
    simp [candidatesFor, CandidateStore.discard]
  have htotal := h.total
  have hin := h.inTotal
  refine ⟨?_, fun c => ?_, ?_, h.same⟩
  · simp only [hnil, List.length_nil] at hat
    simp only [CandidateStore.discard] at hat ⊢
    omega
  · by_cases hc : c = cid
    · rw [hc, hnil]
      exact Nat.zero_le _
    · rw [candidatesFor_discard st hc]
      exact h.perCid c
  · simp only [CandidateStore.discard]
    omega

theorem Tallies.modify (h : st.Tallies limits) (cid : List β)
    {f : List (HandshakeCandidate β π) → List (HandshakeCandidate β π)}
    (hf : ∀ l, (f l).length = l.length) : (st.modify cid f).Tallies limits := by
  have hlen : ∀ c, ((st.modify cid f).candidatesFor c).length = (st.candidatesFor c).length := by
    intro c
    by_cases hc : c = cid
    · subst hc
      unfold CandidateStore.modify
      split
      · rfl
      · rename_i l hl
        simp [candidatesFor, hl, hf]
    · rw [candidatesFor_modify st hc]
  have hat : (st.modify cid f).held + _ = _ := held_at fun k hk => candidatesFor_modify st hk f
  have hsame : (st.modify cid f).limits = st.limits ∧ (st.modify cid f).total = st.total := by
    unfold CandidateStore.modify
    split <;> exact ⟨rfl, rfl⟩
  have htotal := h.total
  rw [hlen] at hat
  refine ⟨?_, fun c => ?_, ?_, hsame.1.trans h.same⟩
  · rw [hsame.2]
    omega
  · rw [hlen]
    exact h.perCid c
  · rw [hsame.2]
    exact h.inTotal

/-- The store after `add`: expired, and one more entry if it was accepted. -/
theorem candidatesFor_added (st : CandidateStore β π) (cid : List β) (receivedPdu sentPdu : π)
    (now : Int) : ((st.add cid receivedPdu sentPdu now).1.candidatesFor cid).length =
      (survivors now (st.candidatesFor cid)).length +
        (if (st.add cid receivedPdu sentPdu now).2.isOk then 1 else 0) := by
  rw [← candidatesFor_expire]
  unfold add
  simp only
  split
  · simp [candidatesFor, Except.isOk, Except.toBool]
  · split <;> simp [candidatesFor, Except.isOk, Except.toBool]

theorem total_added (st : CandidateStore β π) (cid : List β) (receivedPdu sentPdu : π)
    (now : Int) : (st.add cid receivedPdu sentPdu now).1.total = (st.expire now).total +
      (if (st.add cid receivedPdu sentPdu now).2.isOk then 1 else 0) := by
  unfold add
  simp only
  split
  · simp [Except.isOk, Except.toBool]
  · split <;> simp [Except.isOk, Except.toBool]

theorem Tallies.add (h : st.Tallies limits) (cid : List β) (receivedPdu sentPdu : π) (now : Int) :
    (st.add cid receivedPdu sentPdu now).1.Tallies limits := by
  have he := h.expire now
  have hadm := st.add_admits cid receivedPdu sentPdu now
  have hlen := st.candidatesFor_added cid receivedPdu sentPdu now
  have htotal := st.total_added cid receivedPdu sentPdu now
  have hat : (st.add cid receivedPdu sentPdu now).1.held + _ = (st.expire now).held + _ :=
    held_at fun k hk => (candidatesFor_add st hk receivedPdu sentPdu now).trans
      (candidatesFor_expire st now k).symm
  have hl : (st.expire now).limits = limits := he.same
  rw [← candidatesFor_expire] at hlen
  unfold Admits at hadm
  rw [h.same] at hadm
  have het := he.total
  have hein := he.inTotal
  have hother : ∀ c, c ≠ cid → ((st.add cid receivedPdu sentPdu now).1.candidatesFor c).length ≤
      limits.maxPerCid := by
    intro c hc
    rw [candidatesFor_add st hc, ← candidatesFor_expire]
    exact he.perCid c
  have hcid := he.perCid cid
  have hsame : (st.add cid receivedPdu sentPdu now).1.limits = limits := by
    rw [← h.same]
    unfold CandidateStore.add
    simp only
    split
    · rfl
    · split <;> rfl
  generalize (st.add cid receivedPdu sentPdu now).1 = st' at *
  cases hr : (st.add cid receivedPdu sentPdu now).2 with
  | error x =>
    simp only [hr, Except.isOk, Except.toBool, Bool.false_eq_true, ↓reduceIte] at hlen htotal
    refine ⟨by omega, fun c => ?_, by omega, hsame⟩
    by_cases hc : c = cid
    · subst hc
      omega
    · exact hother c hc
  | ok candidate =>
    obtain ⟨hper, hin⟩ := hadm.mp ⟨candidate, hr⟩
    simp only [hr, Except.isOk, Except.toBool, ↓reduceIte] at hlen htotal
    refine ⟨by omega, fun c => ?_, by omega, hsame⟩
    by_cases hc : c = cid
    · subst hc
      omega
    · exact hother c hc

end CandidateStore

end KemMake
