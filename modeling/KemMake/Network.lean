import KemMake.Coherence
import KemMake.Ideal

/-!
# Sessions on a network that an adversary controls

Any number of honest sessions, each with the keys of its owner. What a session has
to send is on the wire at once, the adversary reads the wire, and a session gets
whatever PDUs the adversary can make from that, in any order and at any time.
-/

namespace KemMake
open Symbolic

/-! ## What a PDU shows -/

def KeyId.blocks (id : KeyId Sym) : List Sym := id.hashAlgorithm.parameters.getD [] ++ id.keyHash

def KemPublicKey.blocks (pk : KemPublicKey Sym) : List Sym :=
  pk.algorithm.parameters.getD [] ++ pk.publicKey

def KemCiphertext.blocks (ct : KemCiphertext Sym) : List Sym :=
  ct.algorithm.parameters.getD [] ++ ct.ciphertext

def MakePayload.blocks : MakePayload Sym → List Sym
  | .sessionInitRequest req =>
    req.ct1.blocks ++ req.keyIdB.blocks ++ req.pkAStar.blocks ++ req.keyIdA.blocks
  | .sessionInitResponse resp => resp.pkBStar.blocks ++ resp.ct2.blocks ++ resp.ct3.blocks ++ resp.nB
  | .sessionCompletionRequest req => req.cM ++ req.ct4.blocks ++ req.nA
  | .sessionCompletionResponse resp => resp.hM ++ resp.m.getD []
  | .message msg => msg.m

def Pdu.blocks : Pdu → List Sym
  | .encoded msg => msg.cid ++ msg.payload.blocks
  | .junk _ | .odd _ => []

/-! ## Keys -/

/-- The private keys in the adversary's hands, by static key and by the call that
drew an ephemeral one, and the application data it knows. -/
structure Corruption where
  statics : Set Nat
  ephemerals : Set Nat
  secrets : Set Nat

/-- What the adversary starts with: those, and every static public key. -/
inductive Corruption.Given (C : Corruption) : Sym → Prop
  | pub (l : Level) (n : Nat) : C.Given (.pub l [.name (.static n)])
  | static {n} : n ∈ C.statics → C.Given (.name (.static n))
  | seed {k} : k ∈ C.ephemerals → C.Given (.name (.seed k))
  | secret {n} : n ∈ C.secrets → C.Given (.name (.secret n))

/-- The public keys by key id, the adversary's own among them: nothing in them is secret. -/
structure World extends Corruption where
  registered : KeyId Sym → Option (KemPublicKey Sym)
  published : ∀ id pk, registered id = some pk →
    All (Derives {b | toCorruption.Given b}) (id.blocks ++ pk.blocks)

/-- A key store that has registered public keys, and private keys of static pairs. -/
structure World.Honest (W : World) (keys : KeyLookup Sym) : Prop where
  public_registered : ∀ id pk, keys.getPublicKey id = .ok pk → W.registered id = some pk
  private_registered : ∀ id seed, keys.getPrivateKey id = .ok seed → ∃ l n,
    seed = [.name (.static n)] ∧ W.registered id = some ⟨kemAlg (mlkemOid l), [.pub l seed]⟩

/-- The owner of these keys can open what is encapsulated to the key. -/
def OwnsKey (keys : KeyLookup Sym) (pk : KemPublicKey Sym) : Prop :=
  ∃ id l seed, keys.getPrivateKey id = .ok seed ∧ pk.publicKey = [.pub l seed]

/-! ## Runs -/

structure Network where
  sessions : List (Session Sym Pdu) := []
  /-- Every PDU sent, with the session that sent it. -/
  wire : List (Nat × Pdu) := []
  /-- Every payload posted, with the session it was for. -/
  posted : List (Nat × List Sym) := []
  calls : Nat := 0

/-- `initiate` of a new session, `Session(Role.RESPONDER, ...)`, `fork` of a session,
and the calls `post_pdu`, `post_payload` and `update` of one. -/
inductive Event where
  | openInitiator (ownKeyId peerKeyId : KeyId Sym) (keys : KeyLookup Sym) (config : SessionConfig)
      (now : Int)
  | openResponder (ownKeyId : Option (KeyId Sym)) (keys : KeyLookup Sym) (config : SessionConfig)
  | fork (i : Nat)
  | postPdu (i : Nat) (der : Pdu)
  | postPayload (i : Nat) (payload : List Sym)
  | update (i : Nat) (now : Int)

namespace Network

/-- What the adversary has seen. -/
def known (C : Corruption) (net : Network) : Set Sym :=
  {b | C.Given b ∨ ∃ i pdu, (i, pdu) ∈ net.wire ∧ b ∈ pdu.blocks}

/-- The session `s` in place `i`, with what it has to send on the wire. -/
def place (net : Network) (i : Nat) (s : Session Sym Pdu) : Network :=
  { net with
    sessions := net.sessions.set i { s with outgoingPdus := [] }
    wire := net.wire ++ s.outgoingPdus.map fun pdu => (i, pdu) }

/-- A new session, with what it has to send on the wire and what it is to send. -/
def add (net : Network) (s : Session Sym Pdu) : Network :=
  { net with
    sessions := net.sessions ++ [{ s with outgoingPdus := [] }]
    wire := net.wire ++ s.outgoingPdus.map fun pdu => (net.sessions.length, pdu)
    posted := net.posted ++ s.pendingPayload.toList.map fun p => (net.sessions.length, p) }

/-- The draws of a call are those of its number. A call that raises leaves its session
as it is then; an initiator whose `initiate` raises is given up. -/
def apply (net : Network) : Event → Network
  | .openInitiator ownKeyId peerKeyId keys config now =>
    let net' := { net with calls := net.calls + 1 }
    match (Session.new .initiator (some ownKeyId) keys config).initiate ideal peerKeyId now
      (draw net.calls) with
    | (_, some _) => net'
    | (s, none) => net'.add s
  | .openResponder ownKeyId keys config => net.add (.new .responder ownKeyId keys config)
  | .fork i =>
    match net.sessions[i]? with
    | none => net
    | some s =>
      match s.fork with
      | .error _ => net
      | .ok t => net.add t
  | .postPdu i der =>
    match net.sessions[i]? with
    | none => net
    | some s => net.place i (s.postPdu der)
  | .postPayload i payload =>
    match net.sessions[i]? with
    | none => net
    | some s => { net with posted := net.posted ++ [(i, payload)] }.place i (s.postPayload payload).1
  | .update i now =>
    match net.sessions[i]? with
    | none => net
    | some s => { net with calls := net.calls + 1 }.place i
        (s.update ideal now (draw net.calls)).1

/-- Sessions are opened with honest keys and public key ids, PDUs are made of what the
adversary can derive, and payloads of that and of secrets. -/
def Permitted (W : World) (net : Network) : Event → Prop
  | .openInitiator ownKeyId peerKeyId keys _ _ => W.Honest keys ∧
      All (Derives (net.known W.toCorruption)) (ownKeyId.blocks ++ peerKeyId.blocks)
  | .openResponder _ keys _ => W.Honest keys
  | .postPdu _ der => All (Derives (net.known W.toCorruption)) der.blocks
  | .postPayload _ payload =>
    All (fun b => Derives (net.known W.toCorruption) b ∨ ∃ n, b = .name (.secret n)) payload
  | _ => True

/-- The states of the network in runs of permitted events. -/
inductive Reachable (W : World) : Network → Prop
  | start : Reachable W {}
  | step {net event} : Reachable W net → net.Permitted W event → Reachable W (net.apply event)

/-! ## Alice (0) and Bob (1) on a network that Mallory (2) controls -/

def sampleRegistered (id : KeyId Sym) : Option (KemPublicKey Sym) :=
  ([0, 1, 2].find? fun n => decide (staticId n = id)).map staticKey

theorem sampleRegistered_eq {id : KeyId Sym} {pk : KemPublicKey Sym}
    (h : sampleRegistered id = some pk) : ∃ n, id = staticId n ∧ pk = staticKey n := by
  obtain ⟨n, hn, rfl⟩ := Option.map_eq_some_iff.mp h
  have hid := List.find?_some hn
  exact ⟨n, (of_decide_eq_true hid).symm, rfl⟩

theorem static_published (C : Corruption) (n : Nat) :
    All (Derives {b | C.Given b}) ((staticId n).blocks ++ (staticKey n).blocks) := by
  have hpub : Derives {b | C.Given b} (.pub .mlkem768 [.name (.static n)]) := .known (.pub _ n)
  have hdigest : Derives {b | C.Given b} (.digest ((mlkemOid .mlkem768).map .octet ++
      [.pub .mlkem768 [.name (.static n)]])) := by
    refine .digest fun b hb => ?_
    rcases List.mem_append.mp hb with hb | hb
    · obtain ⟨m, _, rfl⟩ := List.mem_map.mp hb
      exact .octet m
    · exact List.mem_singleton.mp hb ▸ hpub
  simp only [KeyId.blocks, KemPublicKey.blocks, staticId, staticKey, Ideal.keyIdOf, kemAlg]
  simpa using ⟨hdigest, hpub⟩

def sampleWorld : World where
  statics := {2}
  ephemerals := ∅
  secrets := {2}
  registered := sampleRegistered
  published id pk h := by
    obtain ⟨n, rfl, rfl⟩ := sampleRegistered_eq h
    exact static_published _ n

theorem sample_honest {own : Nat} (h : own ∈ [0, 1, 2]) : sampleWorld.Honest (staticLookup own) where
  public_registered id pk hpk := by
    simp only [staticLookup] at hpk
    split at hpk
    · rename_i n hn
      cases hpk
      exact Option.map_eq_some_iff.mpr ⟨n, hn, rfl⟩
    · cases hpk
  private_registered id seed hseed := by
    simp only [staticLookup] at hseed
    split at hseed
    · rename_i hid
      cases hseed
      refine ⟨.mlkem768, own, rfl, ?_⟩
      subst hid
      simp only [List.mem_cons, List.not_mem_nil, or_false] at h
      rcases h with rfl | rfl | rfl <;> decide +kernel
    · cases hseed

/-- What was sent in place `k` goes to the session in place `i`. -/
def relayed (i k : Nat) (net : Network) : Event :=
  .postPdu i ((net.wire[k]?.map Prod.snd).getD (.junk 0))

theorem permitted_relayed (W : World) (i k : Nat) (net : Network) :
    net.Permitted W (relayed i k net) := by
  intro b hb
  cases hk : net.wire[k]? with
  | none => simp [hk, Pdu.blocks] at hb
  | some x =>
    simp only [hk, Option.map_some, Option.getD_some] at hb
    exact .known (.inr ⟨x.1, x.2, List.mem_of_getElem? hk, hb⟩)

/-- The cid of the first PDU sent. -/
def seenCid (net : Network) : List Sym :=
  match net.wire with
  | (_, .encoded msg) :: _ => msg.cid
  | _ => []

theorem derives_seenCid (C : Corruption) (net : Network) :
    All (Derives (net.known C)) net.seenCid := by
  intro b hb
  unfold seenCid at hb
  split at hb
  · rename_i i msg rest hw
    exact .known (.inr ⟨i, _, hw ▸ List.mem_cons_self, List.mem_append_left _ hb⟩)
  · simp at hb

/-- The events of a script, each of which depends on the network it happens in. -/
def play (net : Network) (script : List (Network → Event)) : Network :=
  script.foldl (fun net event => net.apply (event net)) net

theorem reachable_play {script : List (Network → Event)} (h : Reachable W net)
    (hp : ∀ event ∈ script, ∀ net, Network.Permitted W net (event net)) :
    Reachable W (net.play script) := by
  induction script generalizing net with
  | nil => exact h
  | cons event rest ih =>
    exact ih (h.step (hp event List.mem_cons_self net)) fun e he =>
      hp e (List.mem_cons_of_mem _ he)

/-- Alice calls Bob with a false start, and the four PDUs go back and forth. -/
def sampleScript : List (Network → Event) :=
  [fun _ => .openInitiator (staticId 0) (staticId 1) (staticLookup 0) {} 0,
    fun _ => .postPayload 0 [.name (.secret 0)],
    fun _ => .openResponder none (staticLookup 1) {},
    relayed 1 0, fun _ => .update 1 1, relayed 0 1, fun _ => .update 0 2,
    relayed 1 2, fun _ => .update 1 3, relayed 0 3, fun _ => .update 0 4]

def sampleRun : Network := Network.play {} sampleScript

theorem sampleRun_reachable : Reachable sampleWorld sampleRun := by
  refine reachable_play .start fun event he net => ?_
  simp only [sampleScript, List.mem_cons, List.not_mem_nil, or_false] at he
  have hids : All (Derives (net.known sampleWorld.toCorruption))
      ((staticId 0).blocks ++ (staticId 1).blocks) := by
    have h : ∀ n, All (Derives (net.known sampleWorld.toCorruption)) (staticId n).blocks :=
      fun n b hb => ((all_append.mp (static_published sampleWorld.toCorruption n)).1 b hb).mono
        fun _ => .inl
    exact all_append.mpr ⟨h 0, h 1⟩
  rcases he with rfl | rfl | rfl | rfl | rfl | rfl | rfl | rfl | rfl | rfl | rfl
  · exact ⟨sample_honest (by simp), hids⟩
  · exact fun b hb => .inr ⟨0, List.mem_singleton.mp hb⟩
  · exact sample_honest (by simp)
  all_goals first | exact permitted_relayed _ _ _ _ | trivial

/-- Alice's session at the end, and Bob's. -/
def sampleAlice : Session Sym Pdu := sampleRun.sessions.get ⟨0, by decide +kernel⟩

def sampleBob : Session Sym Pdu := sampleRun.sessions.get ⟨1, by decide +kernel⟩

theorem sampleAlice_placed : sampleRun.sessions[0]? = some sampleAlice :=
  List.getElem?_eq_getElem _

theorem sampleBob_placed : sampleRun.sessions[1]? = some sampleBob :=
  List.getElem?_eq_getElem _

theorem sampleRun_roles : sampleRun.sessions.map (·.role) = [.initiator, .responder] := by
  decide +kernel

theorem sampleRun_posted : sampleRun.posted = [(0, [.name (.secret 0)])] := by decide +kernel

end Network

end KemMake
