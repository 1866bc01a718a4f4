import KemMake.Slots

/-!
# Duplicate responses

`Roll` is a dispatcher with all that has opened a fork in it so far. The entries of responses
that the store holds are for forks on the roll. Within the TTL a response opens one fork and
takes one entry exactly as long as no call is of the kind `Reopens`: a duplicate is recognised
by what a fork has accepted, not by what has been tried.
-/

namespace KemMake

namespace CandidateStore
variable {β π : Type} {P : Primitives β π} {l : List (HandshakeCandidate β π)} {now : Int}

theorem mem_slotsIn_survivors {slot : π × Int} (h : slot ∈ slotsIn P (survivors now l)) :
    slot ∈ slotsIn P l ∧ now < slot.2 := by
  simp only [slotsIn, survivors, List.mem_map, List.mem_filter] at h ⊢
  obtain ⟨c, ⟨⟨hc, hlive⟩, hr⟩, rfl⟩ := h
  refine ⟨⟨c, ⟨hc, hr⟩, rfl⟩, ?_⟩
  simp only [HandshakeCandidate.isExpired, ge_iff_le, Bool.not_eq_eq_eq_not, Bool.not_true,
    decide_eq_false_iff_not] at hlive
  omega

theorem count_slotsIn [DecidableEq π] {der : π} (hr : isResponse P der)
    (l : List (HandshakeCandidate β π)) : ((slotsIn P l).map Prod.fst).count der =
      (l.filter fun c => decide (c.receivedPdu = der)).length := by
  induction l with
  | nil => rfl
  | cons c rest ih =>
    simp only [slotsIn, List.filter_cons, List.map_map] at ih ⊢
    by_cases hc : c.receivedPdu = der
    · simp [hc, hr, ih]
    · by_cases hr' : isResponse P c.receivedPdu
      · simp [hc, hr', ih]
      · simp [hc, hr', ih]

end CandidateStore

namespace Dispatcher
open CandidateStore
variable {β π : Type}

/-! ## Runs and the forks opened in them -/

/-- A response that has opened a fork of its cid. -/
structure Candidacy (β π : Type) where
  cid : List β
  response : π
  openedAt : Int

structure Roll (β π : Type) where
  dispatcher : Dispatcher β π
  forks : List (Candidacy β π) := []

variable [DecidableEq β]

def Roll.start (keys : KeyLookup β) (config : SessionConfig) (limits : CandidateLimits) :
    Roll β π := { dispatcher := new keys config limits }

variable [DecidableEq π]

/-- What the call opens a fork for: the cid of its PDU has more forks than before. -/
def opened (P : Primitives β π) (d : Dispatcher β π) : Op β π → List (Candidacy β π)
  | .postPdu der now e =>
    match P.load der with
    | .error _ => []
    | .ok msg =>
      if (d.forksOf msg.cid).length < ((d.postPdu P der now e).1.forksOf msg.cid).length then
        [⟨msg.cid, der, now⟩]
      else []
  | _ => []

def Roll.perform (P : Primitives β π) (w : Roll β π) (op : Op β π) : Roll β π :=
  ⟨w.dispatcher.step P op, w.forks ++ w.dispatcher.opened P op⟩

def Roll.performAll (P : Primitives β π) (w : Roll β π) (ops : List (Op β π)) : Roll β π :=
  ops.foldl (Roll.perform P) w

/-- A response that has opened a fork within the TTL is posted again, no fork of the cid has it
as the last PDU that it accepted, and the store has room. -/
def Roll.Reopens (P : Primitives β π) (ttl : Int) (w : Roll β π) : Op β π → Prop
  | .postPdu der now _ => ∃ msg, P.load der = .ok msg ∧
      w.dispatcher.established.get? msg.cid = none ∧ w.dispatcher.OpensFork msg der now ∧
      ∃ f ∈ w.forks, f.cid = msg.cid ∧ f.response = der ∧ now < f.openedAt + ttl
  | _ => False

omit [DecidableEq β] [DecidableEq π] in
/-- `f` is of another cid, for another response, or older than `g` by the TTL. -/
def Candidacy.Apart (ttl : Int) (f g : Candidacy β π) : Prop :=
  f.cid = g.cid → f.response = g.response → f.openedAt + ttl ≤ g.openedAt

/-- For each cid and response one fork within the TTL, and one entry. -/
structure Roll.OneSlot (P : Primitives β π) (ttl : Int) (w : Roll β π) : Prop where
  fork : w.forks.Pairwise (Candidacy.Apart ttl)
  entry : ∀ c der, isResponse P der → ((w.dispatcher.candidates.candidatesFor c).filter
    fun entry => decide (entry.receivedPdu = der)).length ≤ 1

section
variable {P : Primitives β π} {d : Dispatcher β π} {w : Roll β π} {limits : CandidateLimits}
  {ttl : Int} {op : Op β π}

omit [DecidableEq π] in
theorem unopened_initiate (own peer : KeyId β) (now : Int) (e : Entropy β) :
    Unopened P d (d.initiate P own peer now e).1 := by
  unfold initiate
  split
  · exact unopened_refl d
  · split
    · exact unopened_refl d
    · exact ((unopened_refl d).setForks (Nat.zero_le _)).elsewhere rfl rfl

omit [DecidableEq π] in
theorem unopened_postPayload (c payload : List β) : Unopened P d (d.postPayload c payload).1 := by
  have hd := unopened_refl (P := P) d
  unfold postPayload
  split
  · exact hd.elsewhere rfl rfl
  · split
    · exact hd.elsewhere rfl rfl
    · split
      · exact hd
      · split
        · exact hd
        · rename_i template _
          have hset : Unopened P d
              { d with initiatorTemplates := d.initiatorTemplates.set c template } :=
            hd.elsewhere rfl rfl
          simp only
          split
          · exact hset
          · rename_i forks hf
            exact hset.setForks (by simp [forksOf, hf])

/-- Either no fork is opened, or the PDU is a response that opens one and takes a slot for it. -/
theorem step_slots (hT : Kept (Tidy P) (fun _ => True) d) (op : Op β π) :
    (d.opened P op = [] ∧ Unopened P d (d.step P op)) ∨
      ∃ der now e msg, op = .postPdu der now e ∧ P.load der = .ok msg ∧
        d.established.get? msg.cid = none ∧ d.OpensFork msg der now ∧
        d.opened P op = [⟨msg.cid, der, now⟩] ∧ TakesSlot P msg.cid der now d (d.step P op) := by
  cases op with
  | initiate own peer now e => exact .inl ⟨rfl, unopened_initiate own peer now e⟩
  | postPdu der now e =>
    cases hl : P.load der with
    | error x =>
      refine .inl ⟨by simp [opened, hl], ?_⟩
      simp only [step, postPdu, hl]
      exact unopened_refl d
    | ok msg =>
      by_cases ho : d.established.get? msg.cid = none ∧ d.OpensFork msg der now
      · have hslot : TakesSlot P msg.cid der now d (d.postPdu P der now e).1 :=
          takesSlot_postPdu hT hl ho.1 ho.2
        have hlt : (d.forksOf msg.cid).length < ((d.postPdu P der now e).1.forksOf msg.cid).length := by
          rw [hslot.fork]
          exact Nat.lt_succ_self _
        exact .inr ⟨der, now, e, msg, rfl, hl, ho.1, ho.2, by simp only [opened, hl, if_pos hlt], hslot⟩
      · have hun : Unopened P d (d.postPdu P der now e).1 := unopened_postPdu hl ho
        exact .inl ⟨by simp only [opened, hl, if_neg (Nat.not_lt.mpr (hun.forks msg.cid))], hun⟩
  | postPayload c payload => exact .inl ⟨rfl, unopened_postPayload c payload⟩
  | getPdu =>
    refine .inl ⟨rfl, ?_⟩
    simp only [step, getPdu]
    split
    · exact unopened_refl d
    · exact (unopened_refl d).elsewhere rfl rfl
  | getPayload =>
    refine .inl ⟨rfl, ?_⟩
    simp only [step, getPayload]
    split
    · exact unopened_refl d
    · exact (unopened_refl d).elsewhere rfl rfl
  | close c => exact .inl ⟨rfl, (unopened_refl d).elsewhere rfl rfl⟩
  | update now e => exact .inl ⟨rfl, unopened_update d⟩

/-! ## What holds in every run -/

/-- Every fork is on the roll, and every entry for a response is that of a fork on the roll. -/
structure Roll.Backed (P : Primitives β π) (limits : CandidateLimits) (w : Roll β π) : Prop where
  tidy : Kept (Tidy P) (fun _ => True) w.dispatcher
  fixed : w.dispatcher.candidates.limits = limits
  enrolled : ∀ c, (w.dispatcher.forksOf c).length ≤ w.forks.countP fun f => decide (f.cid = c)
  backed : ∀ c, ∀ slot ∈ w.dispatcher.candidates.slots P c, ∃ f ∈ w.forks,
    f.cid = c ∧ f.response = slot.1 ∧ slot.2 = f.openedAt + limits.ttlSeconds

omit [DecidableEq π] in
theorem Roll.backed_start (keys : KeyLookup β) (config : SessionConfig) (limits : CandidateLimits) :
    (Roll.start keys config limits).Backed P limits :=
  ⟨kept_new keys config limits, rfl, fun _ => Nat.le_refl _, fun c slot h => by
    simp [Roll.start, new, CandidateStore.slots, slotsIn] at h⟩

theorem Roll.Backed.perform (hP : P.Correct) (h : w.Backed P limits) (op : Op β π) :
    (w.perform P op).Backed P limits := by
  have hT : Kept (Tidy P) (fun _ => True) (w.dispatcher.step P op) :=
    (tidy_stable hP fun _ _ => True).step hP.encrypt_ne_nil trivial h.tidy
  have hold : ∀ {c} {slot : π × Int}, slot ∈ w.dispatcher.candidates.slots P c →
      ∃ f ∈ (w.perform P op).forks, f.cid = c ∧ f.response = slot.1 ∧
        slot.2 = f.openedAt + limits.ttlSeconds := by
    intro c slot hslot
    obtain ⟨f, hf, heq⟩ := h.backed c slot hslot
    exact ⟨f, List.mem_append_left _ hf, heq⟩
  obtain ⟨hopened, hun⟩ | ⟨der, now, e, msg, rfl, hl, -, -, hopened, ht⟩ := step_slots h.tidy op
  · refine ⟨hT, hun.limits.trans h.fixed, fun c => ?_, fun c slot hslot =>
      hold ((hun.slots c).subset hslot)⟩
    simp only [Roll.perform, hopened, List.append_nil]
    exact (hun.forks c).trans (h.enrolled c)
  · refine ⟨hT, ht.limits.trans h.fixed, fun c => ?_, fun c slot hslot => ?_⟩
    · have hle := h.enrolled c
      simp only [Roll.perform, hopened, List.countP_append, List.countP_singleton]
      by_cases hc : c = msg.cid
      · subst hc
        rw [ht.fork]
        simpa using hle
      · rw [ht.forks c hc]
        exact Nat.le_add_right_of_le hle
    by_cases hc : c = msg.cid
    · subst hc
      have hmem : slot ∈ slotsIn P (survivors now (w.dispatcher.candidates.candidatesFor msg.cid)) ++
          [(der, now + w.dispatcher.candidates.limits.ttlSeconds)] := ht.slots ▸ hslot
      obtain hmem | hmem := List.mem_append.mp hmem
      · exact hold (mem_slotsIn_survivors hmem).1
      · cases List.mem_singleton.mp hmem
        refine ⟨⟨msg.cid, der, now⟩, ?_, rfl, rfl, by rw [h.fixed]⟩
        simp [Roll.perform, hopened]
    · exact hold ((ht.elsewhere c hc).subset hslot)

theorem Roll.Backed.performAll (hP : P.Correct) (h : w.Backed P limits) (ops : List (Op β π)) :
    (w.performAll P ops).Backed P limits := by
  induction ops generalizing w with
  | nil => exact h
  | cons op rest ih => exact ih (h.perform hP op)

/-! ## Runs without repetition -/

/-- A call that does not open a second fork for a response. -/
theorem Roll.OneSlot.perform (hb : w.Backed P limits)
    (h : w.OneSlot P limits.ttlSeconds) (hno : ¬ w.Reopens P limits.ttlSeconds op) :
    (w.perform P op).OneSlot P limits.ttlSeconds := by
  have hcount : ∀ c der, isResponse P der →
      ((w.dispatcher.candidates.slots P c).map Prod.fst).count der ≤ 1 := by
    intro c der hr
    rw [CandidateStore.slots, count_slotsIn hr]
    exact h.entry c der hr
  obtain ⟨hopened, hun⟩ | ⟨der, now, e, msg, rfl, hl, he, ho, hopened, ht⟩ := step_slots hb.tidy op
  · refine ⟨by simpa [Roll.perform, hopened] using h.fork, fun c der hr => ?_⟩
    rw [← count_slotsIn hr]
    exact (((hun.slots c).map Prod.fst).count_le der).trans (hcount c der hr)
  · -- nothing that has been opened for the response is younger than the TTL
    have hold : ∀ f ∈ w.forks, f.cid = msg.cid → f.response = der →
        f.openedAt + limits.ttlSeconds ≤ now := by
      intro f hf hc hr
      by_contra hlt
      exact hno ⟨msg, hl, he, ho, f, hf, hc, hr, by omega⟩
    refine ⟨?_, fun c der' hr => ?_⟩
    · simp only [Roll.perform, hopened]
      refine List.pairwise_append.mpr ⟨h.fork, List.pairwise_singleton _ _, fun f hf g hg => ?_⟩
      cases List.mem_singleton.mp hg
      exact hold f hf
    · rw [← count_slotsIn hr]
      by_cases hc : c = msg.cid
      · subst hc
        have hslots : slotsIn P ((w.perform P (.postPdu der now e)).dispatcher.candidates.candidatesFor
            msg.cid) = slotsIn P (survivors now (w.dispatcher.candidates.candidatesFor msg.cid)) ++
              [(der, now + w.dispatcher.candidates.limits.ttlSeconds)] := ht.slots
        rw [hslots, List.map_append, List.count_append]
        by_cases hd : der' = der
        · subst hd
          have hnone : ((slotsIn P (survivors now
              (w.dispatcher.candidates.candidatesFor msg.cid))).map Prod.fst).count der' = 0 := by
            rw [List.count_eq_zero]
            intro hmem
            obtain ⟨slot, hslot, rfl⟩ := List.mem_map.mp hmem
            obtain ⟨hin, hlive⟩ := mem_slotsIn_survivors hslot
            obtain ⟨f, hf, hc, hr, heq⟩ := hb.backed msg.cid slot hin
            have hle := hold f hf hc hr
            omega
          rw [hnone]
          simp
        · have hle := ((slotsIn_sublist P (List.filter_sublist
            (p := fun c => !c.isExpired now))).map Prod.fst).count_le der' |>.trans (hcount msg.cid der' hr)
          simpa [survivors, List.count_cons, Ne.symm hd] using hle
      · exact (((ht.elsewhere c hc).map Prod.fst).count_le der').trans (hcount c der' hr)

/-- Within the TTL a response has one fork and one entry, in every state of a run, exactly if no
call of the run reopens. -/
theorem one_slot (hP : P.Correct) (keys : KeyLookup β) (config : SessionConfig)
    (limits : CandidateLimits) (ops : List (Op β π)) :
    (∀ done op, done ++ [op] <+: ops →
        ¬ ((Roll.start keys config limits).performAll P done).Reopens P limits.ttlSeconds op) ↔
      ∀ done, done <+: ops →
        ((Roll.start keys config limits).performAll P done).OneSlot P limits.ttlSeconds := by
  have hb : ∀ done, ((Roll.start keys config limits).performAll P done).Backed P limits :=
    fun done => (Roll.backed_start keys config limits).performAll hP done
  have hsnoc : ∀ done op, (Roll.start keys config limits).performAll P (done ++ [op]) =
      ((Roll.start keys config limits).performAll P done).perform P op := by
    intro done op
    simp [Roll.performAll]
  constructor
  · intro hno done
    induction done using List.reverseRecOn with
    | nil =>
      intro _
      exact ⟨List.Pairwise.nil, fun c der _ => by simp [Roll.performAll, Roll.start, new]⟩
    | append_singleton done op ih =>
      intro hpre
      rw [hsnoc]
      exact (ih ((List.prefix_append done [op]).trans hpre)).perform (hb done) (hno done op hpre)
  · intro hone done op hpre hre
    have hnext := (hone _ hpre).fork
    rw [hsnoc] at hnext
    cases op with
    | postPdu der now e =>
      obtain ⟨msg, hl, he, ho, f, hf, hc, hr, hlt⟩ := hre
      obtain ⟨-, hun⟩ | ⟨der', now', e', msg', heq, hl', -, -, hopened, -⟩ :=
        step_slots (hb done).tidy (.postPdu der now e)
      · have ht := takesSlot_postPdu (e := e) (hb done).tidy hl he ho
        have hle := hun.forks msg.cid
        simp only [step] at hle
        rw [ht.fork] at hle
        omega
      · cases heq
        rw [hl] at hl'
        cases hl'
        simp only [Roll.perform, hopened] at hnext
        have hle := (List.pairwise_append.mp hnext).2.2 f hf _ (List.mem_singleton_self _) hc hr
        simp only at hle
        omega
    | _ => exact hre

end

/-- Bob's answer comes twice. -/
def answeredTwice : List (Op Sym Pdu) :=
  [.initiate (staticId 0) (staticId 1) 0 (draw 0), .postPdu bobResponse 0 (draw 2),
    .postPdu bobResponse 1 (draw 3)]

/-- The fork that has accepted it gets the duplicate. -/
theorem one_slot_answeredTwice :
    ((Roll.start (staticLookup 0) {} {}).performAll ideal answeredTwice).OneSlot ideal 60 := by
  have hload : ideal.load bobResponse = .ok (.build (draw 0).uuid (.sessionInitResponse bobAnswer)) := by
    decide +kernel
  have hheard : ∃ fork ∈ ((Roll.start (staticLookup 0) {} {}).performAll ideal
      (answeredTwice.take 2)).dispatcher.forksOf (draw 0).uuid,
      fork.lastReceived = some bobResponse := by decide +kernel
  refine (one_slot Ideal.ideal_correct (staticLookup 0) {} {} answeredTwice).mp ?_ answeredTwice
    List.prefix_rfl
  intro done op hpre hre
  cases op with
  | postPdu der now e =>
    obtain ⟨msg, hl, _, ho, f, hf, _⟩ := hre
    rcases done with _ | ⟨a, _ | ⟨b, _ | ⟨c, rest⟩⟩⟩
    · cases hf
    · -- nothing has been opened yet
      simp only [answeredTwice, List.cons_append, List.nil_append, List.cons_prefix_cons] at hpre
      obtain ⟨rfl, _⟩ := hpre
      cases hf
    · simp only [answeredTwice, List.cons_append, List.nil_append, List.cons_prefix_cons,
        Op.postPdu.injEq] at hpre
      obtain ⟨rfl, rfl, ⟨rfl, _, _⟩, _⟩ := hpre
      rw [hload, Except.ok.injEq] at hl
      subst hl
      obtain ⟨fork, hmem, hlast⟩ := hheard
      exact ho.2.1.2 fork hmem hlast
    · simp [answeredTwice, List.cons_prefix_cons] at hpre
  | _ => exact hre

/-- An answer of an AEAD that Alice has not offered. -/
def refusedResponse : Pdu := ideal.dump (.build (draw 0).uuid (.sessionInitResponse
  { bobAnswer with chosenAead := [] }))

def refusedTwice : List (Op Sym Pdu) :=
  [.initiate (staticId 0) (staticId 1) 0 (draw 0), .postPdu refusedResponse 0 (draw 2),
    .postPdu refusedResponse 1 (draw 3)]

/-- Its fork refuses it, and the duplicate a second later gets another. -/
theorem refused_twice :
    let w := (Roll.start (staticLookup 0) {} {}).performAll ideal refusedTwice
    ¬ w.OneSlot ideal 60 ∧ w.forks.length = 2 ∧ (w.dispatcher.forksOf (draw 0).uuid).length = 2 ∧
      (w.dispatcher.candidates.candidatesFor (draw 0).uuid).map (·.receivedPdu) =
        [refusedResponse, refusedResponse] := by
  intro w
  have hentries : (w.dispatcher.candidates.candidatesFor (draw 0).uuid).map (·.receivedPdu) =
      [refusedResponse, refusedResponse] := by decide +kernel
  refine ⟨fun h => ?_, by decide +kernel, by decide +kernel, hentries⟩
  have htwo : ¬ ((w.dispatcher.candidates.candidatesFor (draw 0).uuid).filter fun entry =>
      decide (entry.receivedPdu = refusedResponse)).length ≤ 1 := by decide +kernel
  exact htwo (h.entry (draw 0).uuid refusedResponse (by decide +kernel))

end Dispatcher

end KemMake
