import KemMake.Rejected
import KemMake.Ideal

/-!
# A fork in its source's place

`fork` copies ten fields. As long as no PDU has come in, every other field of the source is as
`__init__` left it, so that a fork of a drained session is that session.
-/

namespace KemMake

namespace Session
variable {β π : Type} {s : Session β π}

/-- What a call hands back or raises. -/
inductive Returned (β π : Type) where
  | done (raised : Option PyError)
  | updated (result : Except PyError (UpdateResult × WithTop Int))
  | pdu (result : Except PyError π)
  | payload (result : Except PyError (List β))

def returned [DecidableEq β] [DecidableEq π] (P : Primitives β π) (s : Session β π) :
    Act β π → Returned β π
  | .initiate peerKeyId now e => .done (s.initiate P peerKeyId now e).2
  | .postPdu _ => .done none
  | .postPayload payload => .done (s.postPayload payload).2
  | .update now e => .updated (s.update P now e).2
  | .getPdu => .pdu s.getPdu.2
  | .getPayload => .payload s.getPayload.2

/-- What each call hands back, and the session it leaves. -/
def trace [DecidableEq β] [DecidableEq π] (P : Primitives β π) (s : Session β π) :
    List (Act β π) → List (Returned β π × Session β π)
  | [] => []
  | act :: acts => (s.returned P act, (s.perform P act).1) :: trace P (s.perform P act).1 acts

/-- Nothing has come in: the fields that `fork` leaves out are as constructed, and those that it
reads are there by the time it may be called. -/
structure Unmet (s : Session β π) : Prop where
  copied : s = { s.twin with state := s.state, outgoingPdus := s.outgoingPdus }
  called : s.state = .expectSessionInitResponse →
    s.role = .initiator ∧ s.ownEphemeralPrivate ≠ none
  early : s.state = .initial ∨ s.state = .expectSessionInitResponse ∨ s.state = .dropped

theorem unmet_new (role : Role) (own : Option (KeyId β)) (keys : KeyLookup β)
    (config : SessionConfig) : (new role own keys config : Session β π).Unmet :=
  ⟨rfl, fun h => (nomatch h), .inl rfl⟩

namespace Unmet

theorem incoming (h : s.Unmet) : s.incomingQueue = [] := by rw [h.copied]; rfl

theorem payloads (h : s.Unmet) : s.outgoingPayloads = [] := by rw [h.copied]; rfl

/-- Drained, a session that may be forked is its own fork. -/
theorem fork (h : s.Unmet) (hs : s.state = .expectSessionInitResponse)
    (hout : s.outgoingPdus = []) : s.fork = .ok s := by
  obtain ⟨hr, he⟩ := h.called hs
  have htwin : s = s.twin := by
    have hcopied := h.copied
    rw [hs, hout] at hcopied
    exact hcopied
  exact fork_ok.mpr ⟨hr, hs, he, htwin⟩

theorem postPayload (h : s.Unmet) (payload : List β) : (s.postPayload payload).1.Unmet := by
  rw [postPayload_eq]
  refine ⟨?_, h.called, h.early⟩
  have hcopied := h.copied
  generalize (if payload = [] then s.pendingPayload else some payload) = pending
  conv_lhs => rw [hcopied]
  rfl

/-- What `initiate` assigns before it sends is all copied by `fork`. -/
theorem assigned (h : s.Unmet) (hs : s.state = .initial) (cid : Option (List β))
    (peerKeyId : Option (KeyId β)) (ownEphemeralPrivate : Option (List β))
    (ownEphemeralPublic : Option (KemPublicKey β)) (s1 : Option (List β)) :
    { s with cid, peerKeyId, ownEphemeralPrivate, ownEphemeralPublic, s1 }.Unmet := by
  refine ⟨?_, fun hcalled => ?_, .inl hs⟩
  · conv_lhs => rw [h.copied]
    rfl
  · rw [hs] at hcalled
    cases hcalled

/-- An `initiate` that fails leaves fields that the next one assigns again. -/
theorem initiate {P : Primitives β π} (h : s.Unmet) (peer : KeyId β) (now : Int) (e : Entropy β) :
    (s.initiate P peer now e).1.Unmet := by
  have hi := initiate_cases (P := P) s peer now e
  generalize (s.initiate P peer now e).1 = s' at hi
  cases hi with
  | refused => exact h
  | failed hs => exact h.assigned hs ..
  | called hr =>
    refine ⟨?_, fun _ => ⟨hr, by simp⟩, .inr (.inl rfl)⟩
    conv_lhs => rw [h.copied]
    rfl

theorem checkDeadline (h : s.Unmet) (now : Int) : (s.checkDeadline now).Unmet := by
  have hk := checkDeadline_ticked s now
  generalize s.checkDeadline now = s' at hk
  cases hk with
  | idle => exact h
  | dropped =>
    refine ⟨?_, fun hs => (nomatch hs), .inr (.inr rfl)⟩
    conv_lhs => rw [h.copied]
    rfl
  | retried =>
    rw [resend_eq]
    refine ⟨?_, h.called, h.early⟩
    conv_lhs => rw [h.copied]
    rfl

theorem update [DecidableEq β] [DecidableEq π] {P : Primitives β π} (h : s.Unmet) (now : Int)
    (e : Entropy β) : (s.update P now e).1.Unmet := by
  have htake : s.takeIncoming P now e = (s, none) := by
    simp only [takeIncoming, h.incoming]
  have hsend : s.sendPending P = (s, none) := by
    have hne : s.state ≠ .established := by
      obtain hs | hs | hs := h.early <;> simp [hs]
    simp only [sendPending, hne, ↓reduceIte]
  unfold Session.update
  split
  · exact h
  simp only [htake, hsend]
  split
  · exact h
  · exact h.checkDeadline now

theorem getPdu (h : s.Unmet) : s.getPdu.1.Unmet := by
  unfold Session.getPdu
  split
  · exact h
  · refine ⟨?_, h.called, h.early⟩
    conv_lhs => rw [h.copied]
    rfl

theorem getPayload (h : s.Unmet) : s.getPayload.1.Unmet := by
  unfold Session.getPayload
  rw [h.payloads]
  exact h

variable [DecidableEq β] [DecidableEq π] {P : Primitives β π}

theorem perform (h : s.Unmet) {act : Act β π} (hact : ∀ der, act ≠ .postPdu der) :
    (s.perform P act).1.Unmet := by
  cases act with
  | initiate peer now e => exact h.initiate peer now e
  | postPdu der => exact absurd rfl (hact der)
  | postPayload payload => exact h.postPayload payload
  | update now e => exact h.update now e
  | getPdu => exact h.getPdu
  | getPayload => exact h.getPayload

theorem performAll (h : s.Unmet) {acts : List (Act β π)}
    (hacts : ∀ act ∈ acts, ∀ der, act ≠ .postPdu der) : (s.performAll P acts).1.Unmet := by
  induction acts generalizing s with
  | nil => exact h
  | cons act rest ih =>
    exact ih (h.perform (hacts act List.mem_cons_self))
      fun act' hmem => hacts act' (List.mem_cons_of_mem _ hmem)

end Unmet

/-- Whatever calls, payloads and timeouts led to a session that waits for its first response,
once its requests are taken out a fork does, returns and raises all that the session would. -/
theorem fork_behaves [DecidableEq β] [DecidableEq π] (P : Primitives β π) (role : Role)
    (own : Option (KeyId β)) (keys : KeyLookup β) (config : SessionConfig) (acts : List (Act β π))
    (hacts : ∀ act ∈ acts, ∀ der, act ≠ .postPdu der) :
    let s := ((new role own keys config).performAll P acts).1
    s.state = .expectSessionInitResponse → s.outgoingPdus = [] →
      ∃ twin, s.fork = .ok twin ∧ ∀ later, twin.trace P later = s.trace P later := by
  intro s hs hout
  have hunmet : s.Unmet := (unmet_new role own keys config).performAll hacts
  exact ⟨s, hunmet.fork hs hout, fun _ => rfl⟩

open KemMake.Ideal

/-- Alice has a payload, calls somebody she has no key of, then Bob, and asks him twice. -/
def askedTwice : List (Act Sym Pdu) :=
  [.postPayload [.octet 1], .initiate (staticId 3) 0 (draw 3), .initiate (staticId 1) 0 (draw 0),
    .update 5 (draw 1), .getPdu, .getPdu]

theorem fork_behaves_askedTwice :
    let s := ((new .initiator (some (staticId 0)) (staticLookup 0) {}).performAll ideal askedTwice).1
    ∃ twin, s.fork = .ok twin ∧ ∀ later, twin.trace ideal later = s.trace ideal later :=
  fork_behaves ideal .initiator (some (staticId 0)) (staticLookup 0) {} askedTwice
    (fun act hmem der hpost => by subst hpost; simp [askedTwice] at hmem) (by decide +kernel)
    (by decide +kernel)

end Session

end KemMake
