import KemMake.Contested

/-!
# The fork that takes the confirmation

The first fork that waits for the hash of a confirmation takes it, if it has no `m`. The two
ends agree in every state of a run exactly if, each time a cid is established so, that fork
has sent the very c_m that the responder has accepted.
-/

namespace KemMake
open Symbolic

namespace Siege
open Dispatcher

/-- If both ends are established under the cid, the dispatcher's session goes on from the fork
of a response of the responder's, and has the responder's keys. -/
def Concord (cid : List Sym) (w : Siege) : Prop :=
  ∀ s, w.dispatcher.established.get? cid = some s → w.responder.state = .established →
    w.responder.cid = some cid →
    (∃ der ∈ w.said, (∃ msg resp, ideal.load der = .ok msg ∧
      msg.payload = .sessionInitResponse resp) ∧ s.Processed der) ∧
    ∃ keys, s.sessionKeys = some keys ∧ w.responder.sessionKeys = some keys

variable {cid : List Sym} {w w₀ : Siege} {G : Siege → Session Sym Pdu → Prop} {turn : Turn}
  {script past : List (Siege → Turn)}

/-! ## One turn -/

/-- What waits for the hash takes a confirmation without `m`. -/
theorem takes_of_taker {resp : SessionCompletionResponse Sym} {fork : Session Sym Pdu}
    (hm : resp.m = none) (htaker : w.taker cid resp.hM = some fork) :
    ∃ forks, w.dispatcher.initiatorForks.get? cid = some forks ∧ fork ∈ forks ∧
      fork.Takes ideal resp := by
  unfold taker at htaker
  cases hf : w.dispatcher.initiatorForks.get? cid with
  | none =>
    rw [hf] at htaker
    cases htaker
  | some forks =>
    rw [hf, Option.getD_some] at htaker
    have hmatch := List.find?_some htaker
    simp only [decide_eq_true_eq] at hmatch
    obtain ⟨hwaits, hhash⟩ := hmatch
    obtain ⟨sent, hsent, hsame⟩ := Option.map_eq_some_iff.mp hhash
    exact ⟨forks, rfl, List.mem_of_find?_eq_some htaker, hwaits, ⟨sent, hsent, hsame.symm⟩,
      by simp [hm]⟩

/-- A turn that leaves the ends in concord was rightful. -/
theorem Holds.rightful (h : w.Holds cid G) (hok : w.Permits cid turn)
    (hconcord : (w.take turn).Concord cid) : w.Rightful cid turn := by
  unfold Rightful
  split
  · rename_i der now e
    intro hnone msg resp fork hl hc hp hm htaker
    have hvouches := h.said der (said_of_confirmation hok hl hc hp)
    obtain ⟨forks, hf, hmem, htakes⟩ := takes_of_taker hm htaker
    obtain ⟨before, first, after, s, rfl, hbefore, hfirst, hs, hsk⟩ :=
      h.confirmed hl hc hp hnone hf hmem htakes now e
    obtain rfl : fork = first := Option.some.inj
      (htaker.symm.trans (h.taker_of_won hl hc hp hm hf hbefore hfirst))
    obtain ⟨hest, hcid, kb, text', hkb, ⟨der', msg', req, hr, hl', hp', hcM⟩, hhash', _⟩ :=
      hvouches.confirms msg resp hl hp
    obtain ⟨_, keys, hk, hk'⟩ := hconcord s hs hest (hc ▸ hcid)
    obtain ⟨htidy, hrival⟩ := h.tables.forks hf fork hmem
    obtain ⟨_, ka, text, _, hpursues⟩ := hrival.pursues htakes.waits
    obtain ⟨cid', hcid', hsealed⟩ := hpursues.sealed
    -- the keys are equal, and so are the texts, whose hashes are
    obtain rfl : ka = keys := Option.some.inj (hpursues.has_keys.symm.trans (hsk.symm.trans hk))
    obtain rfl : ka = kb := Option.some.inj (hk'.symm.trans hkb)
    obtain ⟨sent, hsent, hhash⟩ := htakes.hash
    obtain rfl : text = sent := Option.some.inj (hpursues.has_text.symm.trans hsent)
    obtain rfl : text' = text := by simpa [ideal] using hhash'.symm.trans hhash
    obtain rfl : cid' = msg.cid := Option.some.inj (hcid'.symm.trans (htidy.1.2.2.trans (by rw [hc])))
    rw [hsealed, hr, Option.bind_some, falseStart_load hl' hp', hcM]
  · trivial

/-! ## Runs -/

theorem Plays.mono {ok ok' : Siege → Turn → Prop} (h : Plays ok w script)
    (hok : ∀ w turn, ok w turn → ok' w turn) : Plays ok' w script := by
  induction script generalizing w with
  | nil => trivial
  | cons turn rest ih => exact ⟨hok _ _ h.1, ih h.2⟩

theorem Plays.append {ok : Siege → Turn → Prop} {rest : List (Siege → Turn)} (h : Plays ok w script)
    (hrest : Plays ok (w.play script) rest) : Plays ok w (script ++ rest) := by
  induction script generalizing w with
  | nil => exact hrest
  | cons turn script ih => exact ⟨h.1, ih h.2 hrest⟩

theorem Holds.rightful_all (h : w.Holds cid fun _ _ => True) (hplays : Plays (Permits cid) w script)
    (hconcord : ∀ past, past <+: script → (w.play past).Concord cid) :
    Plays (Rightful cid) w script := by
  induction script generalizing w with
  | nil => trivial
  | cons turn rest ih =>
    obtain ⟨hok, hrest⟩ := hplays
    have hnext : (w.take (turn w)).Concord cid :=
      hconcord [turn] (List.cons_prefix_cons.mpr ⟨rfl, List.nil_prefix⟩)
    exact ⟨h.rightful hok hnext, ih (h.permitted hok) hrest fun past hpast =>
      hconcord (turn :: past) (List.cons_prefix_cons.mpr ⟨rfl, hpast⟩)⟩

theorem Holds.concord_all (h : w.Holds cid (Agreed cid)) (hplays : Plays (Permits cid) w script)
    (hright : Plays (Rightful cid) w script) (hpast : past <+: script) :
    (w.play past).Concord cid := by
  induction past generalizing w script with
  | nil => exact fun s hs _ _ => (h.of_established hs).2.2
  | cons turn past ih =>
    obtain ⟨rest, rfl⟩ := hpast
    exact ih (h.rightly hplays.1 hright.1) hplays.2 hright.2 (List.prefix_append past rest)

end Siege

end KemMake
