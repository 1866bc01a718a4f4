import KemMake.Candidate
import KemMake.Session

/-!
# Multi-candidate arbitration (dispatcher.py)

A method that can raise returns the dispatcher as it is left behind together with
the exception. A session lives in one table at a time, so the tables hold the
records themselves; a session that raises stays in its table as it left the call.
One `Entropy` serves each operation: at most one of its sessions draws.
-/

namespace KemMake

/-- What `except (HandshakeFailed, UnexpectedPDU)` catches. -/
def PyError.caught : PyError → Bool
  | .handshakeFailed _ => true
  | .unexpectedPDU _ _ => true
  | _ => false

structure Dispatcher (β π : Type) where
  keys : KeyLookup β
  config : SessionConfig
  candidates : CandidateStore β π
  established : Dict (List β) (Session β π) := ∅
  responderSessions : Dict (List β) (Session β π) := ∅
  initiatorTemplates : Dict (List β) (Session β π) := ∅
  initiatorForks : Dict (List β) (List (Session β π)) := ∅
  outgoingPdus : List π := []
  outgoingPayloads : List (List β × List β) := []

namespace Dispatcher
variable {β π : Type} [DecidableEq β]

/-- `Dispatcher(key_lookup, config, CandidateStore(...))` -/
def new (keys : KeyLookup β) (config : SessionConfig) (limits : CandidateLimits) :
    Dispatcher β π := { keys, config, candidates := .new limits }

/-! ## Bookkeeping -/

/-- Moves what the session has queued to the dispatcher's own queues. -/
def drain (d : Dispatcher β π) (s : Session β π) (cid : List β) : Dispatcher β π × Session β π :=
  ({ d with
      outgoingPdus := d.outgoingPdus ++ s.outgoingPdus
      outgoingPayloads := d.outgoingPayloads ++ s.outgoingPayloads.map fun p => (cid, p) },
    { s with outgoingPdus := [], outgoingPayloads := [] })

def promote (d : Dispatcher β π) (cid : List β) (winner : Session β π) : Dispatcher β π :=
  { d with
    established := d.established.set cid winner
    responderSessions := d.responderSessions.erase cid
    initiatorForks := d.initiatorForks.erase cid
    initiatorTemplates := d.initiatorTemplates.erase cid
    candidates := d.candidates.discard cid }

/-- `del self._responder_sessions[cid]` with its candidates. -/
def dropResponder (d : Dispatcher β π) (cid : List β) : Dispatcher β π :=
  { d with
    responderSessions := d.responderSessions.erase cid
    candidates := d.candidates.discard cid }

def reapResponder (d : Dispatcher β π) (cid : List β) : Dispatcher β π :=
  match d.responderSessions.get? cid with
  | none => d
  | some s =>
    if s.state = .established then
      let (d, s) := d.drain s cid
      d.promote cid s
    else if s.state = .dropped then d.dropResponder cid
    else d

def reconcileExpiredCandidates (d : Dispatcher β π) : Dispatcher β π :=
  let d := d.responderSessions.keys.foldl (fun d cid =>
    if d.candidates.candidatesFor cid = [] then
      { d with responderSessions := d.responderSessions.erase cid }
    else d) d
  d.initiatorForks.keys.foldl (fun d cid =>
    if d.candidates.candidatesFor cid = [] ∧ d.established.get? cid = none then
      { d with
        initiatorForks := d.initiatorForks.erase cid
        initiatorTemplates := d.initiatorTemplates.erase cid }
    else d) d

variable (P : Primitives β π)

/-! ## Initiating -/

def initiate (d : Dispatcher β π) (ownKeyId peerKeyId : KeyId β) (now : Int) (e : Entropy β) :
    Dispatcher β π × Except PyError (List β) :=
  match (Session.new .initiator (some ownKeyId) d.keys d.config).initiate P peerKeyId now e with
  | (_, some x) => (d, .error x)
  | (primary, none) =>
    match primary.cid with
    | none => (d, .error .noneRead)
    | some cid =>
      ({ d with
          initiatorTemplates := d.initiatorTemplates.set cid { primary with outgoingPdus := [] }
          initiatorForks := d.initiatorForks.set cid []
          outgoingPdus := d.outgoingPdus ++ primary.outgoingPdus }, .ok cid)

variable [DecidableEq π]

/-! ## Routing -/

/-- Posts the PDU to one session, updates it and drains it, unless an exception
escapes. The caller puts the session back where it belongs. -/
def deliver (d : Dispatcher β π) (s : Session β π) (der : π) (now : Int) (cid : List β)
    (e : Entropy β) : Dispatcher β π × Session β π × Option PyError :=
  match (s.postPdu der).update P now e with
  | (s, .ok _) =>
    let (d, s) := d.drain s cid
    (d, s, none)
  | (s, .error x) =>
    if x.caught then
      let (d, s) := d.drain s cid
      (d, s, none)
    else (d, s, some x)

def deliverEstablished (d : Dispatcher β π) (s : Session β π) (der : π) (now : Int)
    (cid : List β) (e : Entropy β) : Dispatcher β π × Option PyError :=
  let (d, s, x) := d.deliver P s der now cid e
  ({ d with established := d.established.set cid s }, x)

/-- Delivery to a pending responder session, which is then reaped. -/
def deliverResponder (d : Dispatcher β π) (s : Session β π) (der : π) (now : Int)
    (cid : List β) (e : Entropy β) : Dispatcher β π × Option PyError :=
  let (d, s, x) := d.deliver P s der now cid e
  let d := { d with responderSessions := d.responderSessions.set cid s }
  match x with
  | some x => (d, some x)
  | none => (d.reapResponder cid, none)

/-- `entries[0].sent_pdu = session.get_last_sent() or b""` -/
def recordAnswer (d : Dispatcher β π) (cid : List β) (s : Session β π) : Dispatcher β π :=
  { d with candidates := d.candidates.modify cid fun entries =>
      match entries with
      | [] => []
      | entry :: rest => { entry with sentPdu := s.lastSent.getD P.noPdu } :: rest }

/-- The first request of a cid, which makes a responder session of its own. -/
def openResponder (d : Dispatcher β π) (der : π) (now : Int) (cid : List β) (e : Entropy β) :
    Dispatcher β π × Option PyError :=
  match d.candidates.add cid der P.noPdu now with
  | (candidates, .error _) => ({ d with candidates }, none)
  | (candidates, .ok _) =>
    let d := { d with candidates }
    match d.deliver P (.new .responder none d.keys d.config) der now cid e with
    | (d, s, some x) => ({ d with responderSessions := d.responderSessions.set cid s }, some x)
    | (d, s, none) =>
      let d := { d with responderSessions := d.responderSessions.set cid s }
      if s.state = .initial then (d.dropResponder cid, none)
      else
        let d := if s.state = .expectSessionCompletionRequest then d.recordAnswer P cid s else d
        (d.reapResponder cid, none)

def routeSessionInitRequest (d : Dispatcher β π) (cid : List β) (der : π) (now : Int)
    (e : Entropy β) : Dispatcher β π × Option PyError :=
  match d.responderSessions.get? cid with
  | some s => d.deliverResponder P s der now cid e
  | none => d.openResponder P der now cid e

/-- `for entry in entries: if entry.received_pdu == der_bytes: ...` -/
def recordCall (d : Dispatcher β π) (cid : List β) (der : π) (s : Session β π) :
    Dispatcher β π :=
  { d with candidates := d.candidates.modify cid fun entries =>
      entries.map fun entry =>
        if entry.receivedPdu = der then { entry with sentPdu := s.lastSent.getD P.noPdu }
        else entry }

/-- Delivery to the first fork that accepted exactly this PDU, if there is one. -/
def resendFork (d : Dispatcher β π) (der : π) (now : Int) (cid : List β) (e : Entropy β) :
    List (Session β π) → Option (Dispatcher β π × List (Session β π) × Option PyError)
  | [] => none
  | fork :: rest =>
    if fork.lastReceived = some der then
      let (d, fork, x) := d.deliver P fork der now cid e
      some (d, fork :: rest, x)
    else
      (d.resendFork der now cid e rest).map fun (d, rest, x) => (d, fork :: rest, x)

/-- A new candidate response, which gets a fork of its own. -/
def openFork (d : Dispatcher β π) (template : Session β π) (der : π) (now : Int) (cid : List β)
    (e : Entropy β) : Dispatcher β π × Option PyError :=
  match d.candidates.add cid der P.noPdu now with
  | (candidates, .error _) => ({ d with candidates }, none)
  | (candidates, .ok _) =>
    let d := { d with candidates }
    match template.fork with
    | .error x => (d, some x)
    | .ok newFork =>
      let forks := (d.initiatorForks.get? cid).getD []
      let (d, newFork, x) := d.deliver P newFork der now cid e
      let d := { d with initiatorForks := d.initiatorForks.set cid (forks ++ [newFork]) }
      match x with
      | some x => (d, some x)
      | none => (d.recordCall P cid der newFork, none)

def routeSessionInitResponse (d : Dispatcher β π) (cid : List β) (der : π) (now : Int)
    (e : Entropy β) : Dispatcher β π × Option PyError :=
  match d.initiatorTemplates.get? cid with
  | none => (d, none)
  | some template =>
    match d.resendFork P der now cid e ((d.initiatorForks.get? cid).getD []) with
    | some (d, forks, x) => ({ d with initiatorForks := d.initiatorForks.set cid forks }, x)
    | none => d.openFork P template der now cid e

/-- How offering something to a cid's forks one after the other ends. -/
inductive Contest (β π : Type) where
  | open
  | won (winner : Session β π)
  | raised (x : PyError)

/-- `_route_to_forks`: each fork gets the PDU until one is established. -/
def offer (der : π) (now : Int) (e : Entropy β) :
    List (Session β π) → List (Session β π) × Contest β π
  | [] => ([], .open)
  | fork :: rest =>
    match (fork.postPdu der).update P now e with
    | (fork, .ok _) =>
      if fork.state = .established then (fork :: rest, .won fork)
      else
        let (rest, contest) := offer der now e rest
        (fork :: rest, contest)
    | (fork, .error x) =>
      if x.caught then
        let (rest, contest) := offer der now e rest
        (fork :: rest, contest)
      else (fork :: rest, .raised x)

def routeToForks (d : Dispatcher β π) (cid : List β) (forks : List (Session β π)) (der : π)
    (now : Int) (e : Entropy β) : Dispatcher β π × Option PyError :=
  let (forks, contest) := offer P der now e forks
  let d := { d with initiatorForks := d.initiatorForks.set cid forks }
  match contest with
  | .open => (d, none)
  | .raised x => (d, some x)
  | .won winner =>
    let (d, winner) := d.drain winner cid
    (d.promote cid winner, none)

/-- A PDU whose `load` raises ValueError, and one with nowhere to go, is dropped silently. -/
def postPdu (d : Dispatcher β π) (der : π) (now : Int) (e : Entropy β) :
    Dispatcher β π × Option PyError :=
  match P.load der with
  | .error x => (d, if x.isValueError then none else some x)
  | .ok msg =>
    match d.established.get? msg.cid with
    | some s => d.deliverEstablished P s der now msg.cid e
    | none =>
      match msg.payload.name with
      | .sessionInitRequest => d.routeSessionInitRequest P msg.cid der now e
      | .sessionInitResponse => d.routeSessionInitResponse P msg.cid der now e
      | _ =>
        match d.responderSessions.get? msg.cid with
        | some s => d.deliverResponder P s der now msg.cid e
        | none =>
          match d.initiatorForks.get? msg.cid with
          | some forks => d.routeToForks P msg.cid forks der now e
          | none => (d, none)

/-! ## Payloads and queues -/

omit [DecidableEq π] in
/-- The template gets the payload for its later forks, and so does every live fork. -/
def postPayload (d : Dispatcher β π) (cid : List β) (payload : List β) :
    Dispatcher β π × Option PyError :=
  match d.established.get? cid with
  | some s =>
    let (s, x) := s.postPayload payload
    ({ d with established := d.established.set cid s }, x)
  | none =>
    match d.responderSessions.get? cid with
    | some s =>
      let (s, x) := s.postPayload payload
      ({ d with responderSessions := d.responderSessions.set cid s }, x)
    | none =>
      match d.initiatorTemplates.get? cid with
      | none => (d, some .dispatcherError)
      | some template =>
        match template.postPayload payload with
        | (_, some x) => (d, some x)
        | (template, none) =>
          let d := { d with initiatorTemplates := d.initiatorTemplates.set cid template }
          match d.initiatorForks.get? cid with
          | none => (d, none)
          | some forks =>
            let forks := forks.map fun fork => (fork.postPayload payload).1
            ({ d with initiatorForks := d.initiatorForks.set cid forks }, none)

def pollPdu (d : Dispatcher β π) : Bool := !d.outgoingPdus.isEmpty

def getPdu (d : Dispatcher β π) : Dispatcher β π × Except PyError π :=
  match d.outgoingPdus with
  | [] => (d, .error .indexError)
  | pdu :: rest => ({ d with outgoingPdus := rest }, .ok pdu)

def pollPayload (d : Dispatcher β π) : Bool := !d.outgoingPayloads.isEmpty

def getPayload (d : Dispatcher β π) : Dispatcher β π × Except PyError (List β × List β) :=
  match d.outgoingPayloads with
  | [] => (d, .error .indexError)
  | payload :: rest => ({ d with outgoingPayloads := rest }, .ok payload)

def close (d : Dispatcher β π) (cid : List β) : Dispatcher β π :=
  { d with established := d.established.erase cid }

/-! ## The crank -/

/-- One sweep of `update`: a step for each cid, with the earliest deadline so far. -/
def sweep (step : Dispatcher β π → List β → WithTop Int → Dispatcher β π × Except PyError (WithTop Int)) :
    Dispatcher β π → List (List β) → WithTop Int → Dispatcher β π × Except PyError (WithTop Int)
  | d, [], next => (d, .ok next)
  | d, cid :: rest, next =>
    match step d cid next with
    | (d, .error x) => (d, .error x)
    | (d, .ok next) => sweep step d rest next

def updateEstablished (now : Int) (e : Entropy β) (d : Dispatcher β π) (cid : List β)
    (next : WithTop Int) : Dispatcher β π × Except PyError (WithTop Int) :=
  match d.established.get? cid with
  | none => (d, .ok next)
  | some s =>
    match s.update P now e with
    | (s, .ok (_, deadline)) =>
      let (d, s) := d.drain s cid
      ({ d with established := d.established.set cid s }, .ok (min next deadline))
    | (s, .error x) =>
      if x.caught then
        let (d, s) := d.drain s cid
        ({ d with established := d.established.set cid s }, .ok next)
      else ({ d with established := d.established.set cid s }, .error x)

def updateResponder (now : Int) (e : Entropy β) (d : Dispatcher β π) (cid : List β)
    (next : WithTop Int) : Dispatcher β π × Except PyError (WithTop Int) :=
  match d.responderSessions.get? cid with
  | none => (d, .ok next)
  | some s =>
    match s.update P now e with
    | (s, .error x) =>
      if x.caught then (d.dropResponder cid, .ok next)
      else ({ d with responderSessions := d.responderSessions.set cid s }, .error x)
    | (s, .ok (_, deadline)) =>
      let (d, s) := d.drain s cid
      let d := { d with responderSessions := d.responderSessions.set cid s }
      if s.state = .established then (d.promote cid s, .ok (min next deadline))
      else if s.state = .dropped then (d.dropResponder cid, .ok (min next deadline))
      else (d, .ok (min next deadline))

/-- The forks of one cid as they are left, those to be kept, how it ended, and the
earliest deadline. A fork that raises has lost. -/
def crankForks (now : Int) (e : Entropy β) :
    List (Session β π) → WithTop Int →
      List (Session β π) × List (Session β π) × Contest β π × WithTop Int
  | [], next => ([], [], .open, next)
  | fork :: rest, next =>
    match fork.update P now e with
    | (fork, .error x) =>
      if x.caught then
        let (rest, surviving, contest, next) := crankForks now e rest next
        (fork :: rest, surviving, contest, next)
      else (fork :: rest, [], .raised x, next)
    | (fork, .ok (_, deadline)) =>
      let next := min next deadline
      if fork.state = .established then (fork :: rest, [], .won fork, next)
      else
        let (rest, surviving, contest, next) := crankForks now e rest next
        (fork :: rest, if fork.state = .dropped then surviving else fork :: surviving, contest, next)

def updateForks (now : Int) (e : Entropy β) (d : Dispatcher β π) (cid : List β)
    (next : WithTop Int) : Dispatcher β π × Except PyError (WithTop Int) :=
  match d.initiatorForks.get? cid with
  | none => (d, .ok next)
  | some forks =>
    match crankForks P now e forks next with
    | (forks, _, .raised x, _) =>
      ({ d with initiatorForks := d.initiatorForks.set cid forks }, .error x)
    | (_, _, .won winner, next) =>
      let (d, winner) := d.drain winner cid
      (d.promote cid winner, .ok next)
    | (_, [], .open, next) =>
      ({ d with
          initiatorForks := d.initiatorForks.erase cid
          initiatorTemplates := d.initiatorTemplates.erase cid
          candidates := d.candidates.discard cid }, .ok next)
    | (_, surviving, .open, next) =>
      ({ d with initiatorForks := d.initiatorForks.set cid surviving }, .ok next)

/-- The three sweeps over the tables. -/
def crank (d : Dispatcher β π) (now : Int) (e : Entropy β) :
    Dispatcher β π × Except PyError (WithTop Int) :=
  match sweep (updateEstablished P now e) d d.established.keys ⊤ with
  | (d, .error x) => (d, .error x)
  | (d, .ok next) =>
    match sweep (updateResponder P now e) d d.responderSessions.keys next with
    | (d, .error x) => (d, .error x)
    | (d, .ok next) => sweep (updateForks P now e) d d.initiatorForks.keys next

def update (d : Dispatcher β π) (now : Int) (e : Entropy β) :
    Dispatcher β π × Except PyError (UpdateResult × WithTop Int) :=
  let d := { d with candidates := d.candidates.expire now }.reconcileExpiredCandidates
  match d.crank P now e with
  | (d, .error x) => (d, .error x)
  | (d, .ok next) =>
    let next : WithTop Int :=
      if next = ⊤ then (now + d.config.retryIntervalSeconds : Int) else next
    (d, .ok (nextUpdateResult d.pollPayload d.pollPdu next))

end Dispatcher

end KemMake
