import KemMake.Bottom
import KemMake.Lib.Dict

/-!
# Bounded tracking of first-flight candidates (candidate.py)

A store of (received, sent) pairs, capped for each cid and in total, with a
fixed expiry. `total` is the counter the code keeps beside the lists.
-/

namespace KemMake

structure HandshakeCandidate (β π : Type) where
  cid : List β
  receivedPdu : π
  sentPdu : π
  createdAt : Int
  expiresAt : Int
  attemptCount : Nat := 0

namespace HandshakeCandidate
variable {β π : Type}

def isExpired (c : HandshakeCandidate β π) (now : Int) : Bool := decide (now ≥ c.expiresAt)

def matchesReceived [DecidableEq π] (c : HandshakeCandidate β π) (pdu : π) : Bool :=
  decide (pdu = c.receivedPdu)

end HandshakeCandidate

/-- The limits that `CandidateStore.__init__` lets through. -/
structure CandidateLimits where
  maxPerCid : Nat := 3
  maxTotal : Nat := 1024
  ttlSeconds : Int := 60
  positive : 1 ≤ maxPerCid := by decide
  le : maxPerCid ≤ maxTotal := by decide

/-- The checks of `CandidateStore.__init__`. -/
def CandidateLimits.check (maxPerCid maxTotal ttlSeconds : Int) :
    Except PyError CandidateLimits :=
  if h : maxPerCid < 1 then .error .valueError
  else if h' : maxTotal < maxPerCid then .error .valueError
  else .ok ⟨maxPerCid.toNat, maxTotal.toNat, ttlSeconds, by omega, by omega⟩

structure CandidateStore (β π : Type) where
  limits : CandidateLimits
  byCid : Dict (List β) (List (HandshakeCandidate β π)) := ∅
  total : Int := 0

namespace CandidateStore
variable {β π : Type} [DecidableEq β]

def new (limits : CandidateLimits) : CandidateStore β π := { limits }

def candidatesFor (st : CandidateStore β π) (cid : List β) : List (HandshakeCandidate β π) :=
  (st.byCid.get? cid).getD []

def matchOrNone [DecidableEq π] (st : CandidateStore β π) (cid : List β) (receivedPdu : π) :
    Option (HandshakeCandidate β π) :=
  (st.candidatesFor cid).find? fun c => c.matchesReceived receivedPdu

def totalCount (st : CandidateStore β π) : Int := st.total

/-- One list of `expire`'s sweep. -/
def survivors (now : Int) (candidates : List (HandshakeCandidate β π)) :
    List (HandshakeCandidate β π) :=
  candidates.filter fun c => !c.isExpired now

/-- The dictionary after `expire`: lists left empty are deleted. -/
def sweep (now : Int) (byCid : Dict (List β) (List (HandshakeCandidate β π))) :
    Dict (List β) (List (HandshakeCandidate β π)) :=
  byCid.keys.foldl (fun d cid =>
    match survivors now ((byCid.get? cid).getD []) with
    | [] => d.erase cid
    | surviving => d.set cid surviving) byCid

def removedCount (now : Int) (byCid : Dict (List β) (List (HandshakeCandidate β π))) : Nat :=
  (byCid.entries.map fun entry => entry.2.length - (survivors now entry.2).length).sum

def expire (st : CandidateStore β π) (now : Int) : CandidateStore β π :=
  { st with byCid := sweep now st.byCid, total := st.total - removedCount now st.byCid }

/-- The winner goes with its siblings. -/
def promote (st : CandidateStore β π) (cid : List β) (_winner : HandshakeCandidate β π) :
    CandidateStore β π :=
  { st with
    byCid := st.byCid.erase cid
    total := st.total - (st.candidatesFor cid).length }

def discard (st : CandidateStore β π) (cid : List β) : CandidateStore β π :=
  { st with
    byCid := st.byCid.erase cid
    total := st.total - (st.candidatesFor cid).length }

/-- Expires, makes room for the cid, and checks both caps: a refusal leaves an
empty list under the cid. -/
def add (st : CandidateStore β π) (cid : List β) (receivedPdu sentPdu : π) (now : Int) :
    CandidateStore β π × Except PyError (HandshakeCandidate β π) :=
  let st := st.expire now
  let existing := st.candidatesFor cid
  let st := { st with byCid := st.byCid.set cid existing }
  if existing.length ≥ st.limits.maxPerCid then (st, .error .candidateLimitExceeded)
  else if st.total ≥ st.limits.maxTotal then (st, .error .candidateLimitExceeded)
  else
    let candidate : HandshakeCandidate β π :=
      { cid, receivedPdu, sentPdu, createdAt := now, expiresAt := now + st.limits.ttlSeconds }
    ({ st with byCid := st.byCid.set cid (existing ++ [candidate]), total := st.total + 1 },
      .ok candidate)

/-- Neither cap is reached once expired candidates are gone. -/
def Admits (st : CandidateStore β π) (cid : List β) (now : Int) : Prop :=
  ((st.expire now).candidatesFor cid).length < st.limits.maxPerCid ∧
    (st.expire now).total < st.limits.maxTotal

theorem add_admits (st : CandidateStore β π) (cid : List β) (receivedPdu sentPdu : π) (now : Int) :
    (∃ candidate, (st.add cid receivedPdu sentPdu now).2 = .ok candidate) ↔ st.Admits cid now := by
  unfold add Admits
  have hl : (st.expire now).limits = st.limits := rfl
  simp only [hl]
  split
  · simp only [reduceCtorEq, exists_false, false_iff]
    omega
  · split
    · simp only [reduceCtorEq, exists_false, false_iff]
      omega
    · simp only [Except.ok.injEq, exists_eq', true_iff]
      omega

/-- The candidates of a cid are shared objects: assigning to one changes the store. -/
def modify (st : CandidateStore β π) (cid : List β)
    (f : List (HandshakeCandidate β π) → List (HandshakeCandidate β π)) : CandidateStore β π :=
  match st.byCid.get? cid with
  | none => st
  | some candidates => { st with byCid := st.byCid.set cid (f candidates) }

/-- A sweep deletes the lists that it empties. -/
theorem get?_swept (now : Int) (byCid : Dict (List β) (List (HandshakeCandidate β π)))
    (cid : List β) : (sweep now byCid).get? cid =
      if survivors now ((byCid.get? cid).getD []) = [] then none
      else some (survivors now ((byCid.get? cid).getD [])) := by
  suffices h : ∀ (cids : List (List β)) (d : Dict (List β) (List (HandshakeCandidate β π))),
      (cids.foldl (fun d c =>
      match survivors now ((byCid.get? c).getD []) with
      | [] => d.erase c
      | surviving => d.set c surviving) d).get? cid =
      if cid ∈ cids then
        if survivors now ((byCid.get? cid).getD []) = [] then none
        else some (survivors now ((byCid.get? cid).getD []))
      else d.get? cid by
    rw [sweep, h]
    split
    · rfl
    · rename_i hk
      simp [Dict.get?_eq_none_iff.mpr hk, survivors]
  intro cids
  induction cids with
  | nil => simp
  | cons c rest ih =>
    intro d
    rw [List.foldl_cons, ih]
    by_cases hr : cid ∈ rest
    · simp [hr]
    · by_cases hc : cid = c
      · subst hc
        cases survivors now ((byCid.get? cid).getD []) <;> simp [hr]
      · simp only [hr, hc, List.mem_cons, or_self, ↓reduceIte]
        split <;> simp [Dict.get?_erase, Dict.get?_set, hc]

theorem get?_sweep (now : Int) (byCid : Dict (List β) (List (HandshakeCandidate β π)))
    (cid : List β) : ((sweep now byCid).get? cid).getD [] = survivors now ((byCid.get? cid).getD []) := by
  rw [get?_swept]
  split <;> simp [*]

theorem candidatesFor_expire (st : CandidateStore β π) (now : Int) (cid : List β) :
    (st.expire now).candidatesFor cid = survivors now (st.candidatesFor cid) :=
  get?_sweep now st.byCid cid

theorem candidatesFor_discard (st : CandidateStore β π) {c cid : List β} (h : cid ≠ c) :
    (st.discard c).candidatesFor cid = st.candidatesFor cid := by
  simp [candidatesFor, discard, Dict.get?_erase, h]

theorem candidatesFor_add (st : CandidateStore β π) {c cid : List β} (h : cid ≠ c)
    (receivedPdu sentPdu : π) (now : Int) :
    (st.add c receivedPdu sentPdu now).1.candidatesFor cid = survivors now (st.candidatesFor cid) := by
  rw [← candidatesFor_expire]
  unfold add
  simp only
  split
  · simp [candidatesFor, Dict.get?_set, h]
  · split <;> simp [candidatesFor, Dict.get?_set, h]

theorem candidatesFor_modify (st : CandidateStore β π) {c cid : List β} (h : cid ≠ c)
    (f : List (HandshakeCandidate β π) → List (HandshakeCandidate β π)) :
    (st.modify c f).candidatesFor cid = st.candidatesFor cid := by
  unfold modify
  split
  · rfl
  · simp [candidatesFor, Dict.get?_set, h]

@[simp] theorem candidatesFor_new (limits : CandidateLimits) (cid : List β) :
    (new limits : CandidateStore β π).candidatesFor cid = [] := rfl

end CandidateStore

end KemMake
