import KemMake.Tallies

/-!
# The candidate store as one list

`Reference` says what the store is for: one list of the candidates accepted and not yet
removed, oldest first. The store with its dictionary and its counter gives the same
answers to every sequence of calls.
-/

namespace KemMake

structure Reference (β π : Type) where
  limits : CandidateLimits
  accepted : List (HandshakeCandidate β π) := []

namespace Reference
variable {β π : Type} [DecidableEq β]

def candidatesFor (r : Reference β π) (cid : List β) : List (HandshakeCandidate β π) :=
  r.accepted.filter fun c => decide (c.cid = cid)

def matchOrNone [DecidableEq π] (r : Reference β π) (cid : List β) (receivedPdu : π) :
    Option (HandshakeCandidate β π) :=
  r.accepted.find? fun c => decide (c.cid = cid) && decide (receivedPdu = c.receivedPdu)

/-- Removes what was created a TTL ago or earlier. -/
def expire (r : Reference β π) (now : Int) : Reference β π :=
  { r with accepted := r.accepted.filter fun c => decide (now < c.createdAt + r.limits.ttlSeconds) }

def remove (r : Reference β π) (cid : List β) : Reference β π :=
  { r with accepted := r.accepted.filter fun c => !decide (c.cid = cid) }

def add (r : Reference β π) (cid : List β) (receivedPdu sentPdu : π) (now : Int) :
    Reference β π × Except PyError (HandshakeCandidate β π) :=
  let r := r.expire now
  if (r.candidatesFor cid).length < r.limits.maxPerCid ∧ r.accepted.length < r.limits.maxTotal then
    let candidate : HandshakeCandidate β π :=
      { cid, receivedPdu, sentPdu, createdAt := now, expiresAt := now + r.limits.ttlSeconds }
    ({ r with accepted := r.accepted ++ [candidate] }, .ok candidate)
  else (r, .error .candidateLimitExceeded)

end Reference

/-! ## Calls and their answers -/

inductive StoreCall (β π : Type) where
  | add (cid : List β) (receivedPdu sentPdu : π) (now : Int)
  | promote (cid : List β) (winner : HandshakeCandidate β π)
  | discard (cid : List β)
  | expire (now : Int)
  | candidatesFor (cid : List β)
  | matchOrNone (cid : List β) (receivedPdu : π)
  | totalCount

inductive StoreAnswer (β π : Type) where
  | added (result : Except PyError (HandshakeCandidate β π))
  | removed (count : Int)
  | candidates (found : List (HandshakeCandidate β π))
  | candidate (found : Option (HandshakeCandidate β π))
  | total (count : Int)
  | done

section
variable {β π : Type} [DecidableEq β] [DecidableEq π]

def CandidateStore.call (st : CandidateStore β π) :
    StoreCall β π → CandidateStore β π × StoreAnswer β π
  | .add cid receivedPdu sentPdu now =>
    ((st.add cid receivedPdu sentPdu now).1, .added (st.add cid receivedPdu sentPdu now).2)
  | .promote cid winner => (st.promote cid winner, .done)
  | .discard cid => (st.discard cid, .done)
  | .expire now => (st.expire now, .removed (CandidateStore.removedCount now st.byCid))
  | .candidatesFor cid => (st, .candidates (st.candidatesFor cid))
  | .matchOrNone cid receivedPdu => (st, .candidate (st.matchOrNone cid receivedPdu))
  | .totalCount => (st, .total st.totalCount)

def Reference.call (r : Reference β π) : StoreCall β π → Reference β π × StoreAnswer β π
  | .add cid receivedPdu sentPdu now =>
    ((r.add cid receivedPdu sentPdu now).1, .added (r.add cid receivedPdu sentPdu now).2)
  | .promote cid _ => (r.remove cid, .done)
  | .discard cid => (r.remove cid, .done)
  | .expire now => (r.expire now, .removed (r.accepted.length - (r.expire now).accepted.length))
  | .candidatesFor cid => (r, .candidates (r.candidatesFor cid))
  | .matchOrNone cid receivedPdu => (r, .candidate (r.matchOrNone cid receivedPdu))
  | .totalCount => (r, .total r.accepted.length)

def CandidateStore.after (st : CandidateStore β π) (calls : List (StoreCall β π)) :
    CandidateStore β π :=
  calls.foldl (fun st call => (st.call call).1) st

def CandidateStore.answers (st : CandidateStore β π) :
    List (StoreCall β π) → List (StoreAnswer β π)
  | [] => []
  | call :: rest => (st.call call).2 :: CandidateStore.answers (st.call call).1 rest

def Reference.answers (r : Reference β π) : List (StoreCall β π) → List (StoreAnswer β π)
  | [] => []
  | call :: rest => (r.call call).2 :: Reference.answers (r.call call).1 rest

end

/-! ## Agreement -/

namespace CandidateStore
variable {β π : Type} [DecidableEq β]

/-- The dictionary holds the list sorted by cid, and the counter is right. -/
structure Agrees (st : CandidateStore β π) (r : Reference β π) : Prop where
  tallies : st.Tallies r.limits
  candidates : ∀ cid, st.candidatesFor cid = r.candidatesFor cid
  expiry : ∀ c ∈ r.accepted, c.expiresAt = c.createdAt + r.limits.ttlSeconds

variable {st : CandidateStore β π} {r : Reference β π}

theorem agrees_new (limits : CandidateLimits) :
    (new limits : CandidateStore β π).Agrees { limits } where
  tallies := tallies_new limits
  candidates cid := by simp [new, candidatesFor, Reference.candidatesFor]
  expiry c hc := by cases hc

/-- A count over the lists of the dictionary is one over the reference list. -/
theorem Agrees.sum_countP (h : st.Agrees r) (p : HandshakeCandidate β π → Bool) :
    (st.byCid.entries.map fun entry => entry.2.countP p).sum = r.accepted.countP p :=
  Dict.sum_countP h.candidates p

/-- The counter is the length of the reference list. -/
theorem Agrees.total (h : st.Agrees r) : st.total = r.accepted.length := by
  have hsum := h.sum_countP fun _ => true
  simp only [List.countP_true] at hsum
  rw [h.tallies.total, CandidateStore.held, hsum]

/-- What survives a sweep in the store is what the reference keeps. -/
theorem Agrees.expired_accepted (h : st.Agrees r) (now : Int) :
    (r.expire now).accepted = survivors now r.accepted := by
  apply List.filter_congr
  intro c hc
  rw [← h.expiry c hc]
  simp only [HandshakeCandidate.isExpired, ge_iff_le, ← decide_not, Int.not_le]

theorem Agrees.removedCount (h : st.Agrees r) (now : Int) :
    (CandidateStore.removedCount now st.byCid : Int) =
      r.accepted.length - (r.expire now).accepted.length := by
  have hone : ∀ entry : List β × List (HandshakeCandidate β π),
      entry.2.length - (survivors now entry.2).length = entry.2.countP fun c => c.isExpired now := by
    intro entry
    have hsplit := List.length_eq_countP_add_countP (fun c => c.isExpired now) (l := entry.2)
    rw [survivors, ← List.countP_eq_length_filter, hsplit]
    simp
  have hsum : CandidateStore.removedCount now st.byCid =
      r.accepted.countP fun c => c.isExpired now := by
    rw [← h.sum_countP, CandidateStore.removedCount]
    simp only [hone]
  have hsplit := List.length_eq_countP_add_countP (fun c => c.isExpired now) (l := r.accepted)
  rw [hsum, h.expired_accepted, survivors, ← List.countP_eq_length_filter]
  simp only [Bool.not_eq_true, Bool.decide_eq_false] at hsplit
  omega

theorem Agrees.expire (h : st.Agrees r) (now : Int) : (st.expire now).Agrees (r.expire now) where
  tallies := h.tallies.expire now
  candidates cid := by
    rw [candidatesFor_expire, h.candidates, Reference.candidatesFor, Reference.candidatesFor,
      h.expired_accepted]
    simp only [survivors, List.filter_filter, Bool.and_comm]
  expiry c hc := h.expiry c (List.mem_of_mem_filter hc)

theorem Agrees.discard (h : st.Agrees r) (cid : List β) : (st.discard cid).Agrees (r.remove cid) where
  tallies := h.tallies.discard cid
  candidates c := by
    by_cases hc : c = cid
    · subst hc
      simp [CandidateStore.candidatesFor, CandidateStore.discard, Reference.candidatesFor,
        Reference.remove, List.filter_filter]
    · rw [candidatesFor_discard st hc, h.candidates]
      simp only [Reference.candidatesFor, Reference.remove, List.filter_filter]
      apply List.filter_congr
      intro a _
      by_cases ha : a.cid = c <;> simp [ha, hc]
  expiry c hc := h.expiry c (List.mem_of_mem_filter hc)

theorem Agrees.promote (h : st.Agrees r) (cid : List β) (winner : HandshakeCandidate β π) :
    (st.promote cid winner).Agrees (r.remove cid) :=
  h.discard cid

/-- An accepted candidate comes last in its cid's list. -/
theorem candidatesFor_append (r : Reference β π) (c : HandshakeCandidate β π) (cid : List β) :
    ({ r with accepted := r.accepted ++ [c] } : Reference β π).candidatesFor cid =
      r.candidatesFor cid ++ if c.cid = cid then [c] else [] := by
  by_cases hc : c.cid = cid <;> simp [Reference.candidatesFor, hc]

theorem add_limits (r : Reference β π) (cid : List β) (receivedPdu sentPdu : π) (now : Int) :
    (r.add cid receivedPdu sentPdu now).1.limits = r.limits := by
  unfold Reference.add
  by_cases hadd : ((r.expire now).candidatesFor cid).length < (r.expire now).limits.maxPerCid ∧
      (r.expire now).accepted.length < (r.expire now).limits.maxTotal
  · simp only [hadd, ↓reduceIte, and_self]
    rfl
  · simp only [hadd, ↓reduceIte]
    rfl

theorem Agrees.add (h : st.Agrees r) (cid : List β) (receivedPdu sentPdu : π) (now : Int) :
    (st.add cid receivedPdu sentPdu now).1.Agrees (r.add cid receivedPdu sentPdu now).1 ∧
      (st.add cid receivedPdu sentPdu now).2 = (r.add cid receivedPdu sentPdu now).2 := by
  have he := h.expire now
  have hcid := he.candidates cid
  have hlim : (st.expire now).limits = r.limits := he.tallies.same
  have hlim' : (r.expire now).limits = r.limits := rfl
  have htotal := he.total
  have htallies := h.tallies.add cid receivedPdu sentPdu now
  rw [← add_limits r cid receivedPdu sentPdu now] at htallies
  -- a refusal leaves the lists as they are
  have hrefused : ∀ c, CandidateStore.candidatesFor { st.expire now with
      byCid := (st.expire now).byCid.set cid ((st.expire now).candidatesFor cid) } c =
        (r.expire now).candidatesFor c := by
    intro c
    rw [← he.candidates c]
    by_cases hc : c = cid
    · simp [hc, CandidateStore.candidatesFor]
    · simp [CandidateStore.candidatesFor, Dict.get?_set_of_ne _ hc]
  suffices hparts : (∀ c, (st.add cid receivedPdu sentPdu now).1.candidatesFor c =
        (r.add cid receivedPdu sentPdu now).1.candidatesFor c) ∧
      (∀ c ∈ (r.add cid receivedPdu sentPdu now).1.accepted,
        c.expiresAt = c.createdAt + r.limits.ttlSeconds) ∧
      (st.add cid receivedPdu sentPdu now).2 = (r.add cid receivedPdu sentPdu now).2 by
    obtain ⟨hcandidates, hexpiry, hresult⟩ := hparts
    rw [← add_limits r cid receivedPdu sentPdu now] at hexpiry
    exact ⟨⟨htallies, hcandidates, hexpiry⟩, hresult⟩
  unfold CandidateStore.add Reference.add
  simp only [hcid, hlim, hlim'] at hrefused ⊢
  by_cases hper : ((r.expire now).candidatesFor cid).length < r.limits.maxPerCid
  · have hper' : ¬ ((r.expire now).candidatesFor cid).length ≥ r.limits.maxPerCid := by omega
    by_cases htot : (r.expire now).accepted.length < r.limits.maxTotal
    · have htot' : ¬ (st.expire now).total ≥ r.limits.maxTotal := by omega
      simp only [hper, hper', htot, htot', and_self, ↓reduceIte, and_true]
      refine ⟨fun c => ?_, fun c hc => ?_⟩
      · refine Eq.trans ?_ (candidatesFor_append (r.expire now) _ c).symm
        rw [← he.candidates c]
        by_cases hc : c = cid
        · subst hc
          simp [CandidateStore.candidatesFor, ← hcid]
        · simp [CandidateStore.candidatesFor, Dict.get?_set_of_ne _ hc, Ne.symm hc]
      · obtain hc | hc := List.mem_append.mp hc
        · exact he.expiry c hc
        · rw [List.mem_singleton.mp hc]
    · have htot' : (st.expire now).total ≥ r.limits.maxTotal := by omega
      simp only [hper', htot, htot', and_false, ↓reduceIte, and_true]
      exact ⟨hrefused, he.expiry⟩
  · have hper' : ((r.expire now).candidatesFor cid).length ≥ r.limits.maxPerCid := by omega
    simp only [hper, hper', false_and, ↓reduceIte, and_true]
    exact ⟨hrefused, he.expiry⟩

variable [DecidableEq π]

/-- One call keeps the agreement and is answered alike. -/
theorem Agrees.call (h : st.Agrees r) (call : StoreCall β π) :
    (st.call call).1.Agrees (r.call call).1 ∧ (st.call call).2 = (r.call call).2 := by
  cases call with
  | add cid receivedPdu sentPdu now =>
    obtain ⟨hagrees, hresult⟩ := h.add cid receivedPdu sentPdu now
    exact ⟨hagrees, congrArg StoreAnswer.added hresult⟩
  | promote cid winner => exact ⟨h.promote cid winner, rfl⟩
  | discard cid => exact ⟨h.discard cid, rfl⟩
  | expire now => exact ⟨h.expire now, congrArg StoreAnswer.removed (h.removedCount now)⟩
  | candidatesFor cid => exact ⟨h, congrArg StoreAnswer.candidates (h.candidates cid)⟩
  | matchOrNone cid receivedPdu =>
    refine ⟨h, congrArg StoreAnswer.candidate ?_⟩
    rw [CandidateStore.matchOrNone, h.candidates, Reference.candidatesFor, List.find?_filter]
    simp [HandshakeCandidate.matchesReceived, Reference.matchOrNone]
  | totalCount => exact ⟨h, congrArg StoreAnswer.total h.total⟩

theorem Agrees.after (h : st.Agrees r) (calls : List (StoreCall β π)) :
    ∃ r' : Reference β π, r'.limits = r.limits ∧ (st.after calls).Agrees r' := by
  induction calls generalizing st r with
  | nil => exact ⟨r, rfl, h⟩
  | cons call rest ih =>
    obtain ⟨r', hl, hagrees⟩ := ih (h.call call).1
    refine ⟨r', hl.trans ?_, hagrees⟩
    cases call with
    | add cid receivedPdu sentPdu now => exact add_limits r cid receivedPdu sentPdu now
    | _ => rfl

theorem Agrees.answers (h : st.Agrees r) (calls : List (StoreCall β π)) :
    st.answers calls = r.answers calls := by
  induction calls generalizing st r with
  | nil => rfl
  | cons call rest ih =>
    obtain ⟨hagrees, hanswer⟩ := h.call call
    rw [CandidateStore.answers, Reference.answers, hanswer, ih hagrees]

/-- A candidate held after a call was held before, as it is, or is the one the call added. -/
theorem held_before (st : CandidateStore β π) (call : StoreCall β π) {cid : List β}
    {c : HandshakeCandidate β π} (h : c ∈ (st.call call).1.candidatesFor cid) :
    c ∈ st.candidatesFor cid ∨ ∃ receivedPdu sentPdu now, call = .add cid receivedPdu sentPdu now ∧
      c = ⟨cid, receivedPdu, sentPdu, now, now + st.limits.ttlSeconds, 0⟩ := by
  have hremoved : ∀ cid', c ∈ (st.discard cid').candidatesFor cid → c ∈ st.candidatesFor cid := by
    intro cid' hc
    by_cases hne : cid = cid'
    · simp [candidatesFor, CandidateStore.discard, hne] at hc
    · rwa [candidatesFor_discard st hne] at hc
  have hexpired : ∀ now, c ∈ (st.expire now).candidatesFor cid → c ∈ st.candidatesFor cid := by
    intro now hc
    rw [candidatesFor_expire] at hc
    exact List.mem_of_mem_filter hc
  cases call with
  | add cid' receivedPdu sentPdu now =>
    by_cases hne : cid = cid'
    · subst hne
      simp only [CandidateStore.call, CandidateStore.add] at h
      split at h
      · exact .inl (hexpired now (by simpa [candidatesFor] using h))
      · split at h
        · exact .inl (hexpired now (by simpa [candidatesFor] using h))
        · simp only [candidatesFor, Dict.get?_set_self, Option.getD_some] at h
          rcases List.mem_append.mp h with hold | hnew
          · exact .inl (hexpired now hold)
          · exact .inr ⟨receivedPdu, sentPdu, now, rfl, List.mem_singleton.mp hnew⟩
    · rw [CandidateStore.call, candidatesFor_add st hne] at h
      exact .inl (List.mem_of_mem_filter h)
  | promote cid' | discard cid' => exact .inl (hremoved cid' h)
  | expire now => exact .inl (hexpired now h)
  | candidatesFor | matchOrNone | totalCount => exact .inl h

/-- The store answers every sequence of calls as the reference does. Its counter is the
number of candidates held, the caps are kept, and no call changes a candidate. -/
theorem store_refines_reference (limits : CandidateLimits) (calls : List (StoreCall β π)) :
    (new limits : CandidateStore β π).answers calls = Reference.answers { limits } calls ∧
    ∀ st : CandidateStore β π, st = (new limits).after calls →
      st.total = (st.byCid.entries.map fun entry => entry.2.length).sum ∧
      st.total ≤ limits.maxTotal ∧
      (∀ cid, (st.candidatesFor cid).length ≤ limits.maxPerCid) ∧
      ∀ call cid, ∀ c ∈ (st.call call).1.candidatesFor cid, c ∈ st.candidatesFor cid ∨
        ∃ receivedPdu sentPdu now, call = .add cid receivedPdu sentPdu now ∧
          c = ⟨cid, receivedPdu, sentPdu, now, now + limits.ttlSeconds, 0⟩ := by
  have hnew : Agrees (.new limits : CandidateStore β π) _ := agrees_new limits
  refine ⟨hnew.answers calls, ?_⟩
  intro st hst
  obtain ⟨r, hlimits, hagrees⟩ := hnew.after calls
  replace hlimits : r.limits = limits := hlimits
  rw [← hst] at hagrees
  have htallies := hagrees.tallies
  rw [hlimits] at htallies
  refine ⟨htallies.total, htallies.inTotal, htallies.perCid, fun call cid c hc => ?_⟩
  rw [← htallies.same]
  exact st.held_before call hc

end CandidateStore

end KemMake
