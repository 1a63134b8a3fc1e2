import Quantas.Common.Packet

/-!
# Raft: the state of a peer and its handlers

`RaftConsensus` is the state that a peer keeps; its handlers are functions on `Local`, which adds the
packets sent so far by the running handler and the random draws it has left. `Ctx` is what a handler
reads and does not change.

`tryStartReplication` and `onClientRequest` call each other: a leader without pending requests generates
one, and accepting it starts a replication. The depth of these calls is a fuel argument here;
`startReplication` gives enough of it: `startReplication_eq` says that it solves the recursive equation of
the source where request numbers count up from zero, and `nextClientRequestId_nonneg` that they do.
-/

namespace Quantas.Raft

/-- Submitter and sequence number of a client request. -/
abbrev TxKey := InterfaceId × Int

/-- The conversion of an `int` that is compared with a `size_t`. -/
def toSizeT (i : Int) : Int := if i < 0 then i + 2 ^ 64 else i

theorem le_toSizeT (i : Int) : i ≤ toSizeT i := by
  unfold toSizeT
  split_ifs <;> omega

/-- A client request, as the JSON object that queues and messages carry; an absent field is `none`. -/
structure Request where
  submitterId : Option InterfaceId := none
  clientSeq : Option Int := none
  roundSubmitted : Option Int := none
  forwardedTo : Option InterfaceId := none
  deriving DecidableEq, Repr

def extractKey (request : Request) : TxKey :=
  (request.submitterId.getD NO_PEER_ID, request.clientSeq.getD (-1))

def keyValid (key : TxKey) : Bool := key.1 ≠ NO_PEER_ID ∧ 0 ≤ key.2

/-- An entry of `_confirmedTrans`: the request with the fields that its confirmation adds. -/
structure Confirmation where
  request : Request
  roundSubmitted : Int
  roundCommitted : Int
  term : Int
  deriving DecidableEq, Repr

inductive Message
  /-- `"type": "Request"`. -/
  | clientRequest (request : Request)
  | request (request : Request) (from_id : InterfaceId) (termNum : Int)
  | respondRequest (request : Request) (from_id : InterfaceId) (termNum roundSubmitted : Int)
  | vote (trans from_id : InterfaceId) (termNum roundSubmitted : Int)
  | elect (from_id : InterfaceId) (termNum roundSubmitted : Int)
  | commit (request : Request) (from_id : InterfaceId) (termNum roundCommitted roundSubmitted : Int)
  deriving DecidableEq, Repr

structure RaftConsensus where
  candidate : InterfaceId := NO_PEER_ID
  leaderId : InterfaceId := 0
  term : Int := 0
  votes : List InterfaceId := []
  replies : TxKey → Option (List InterfaceId) := fun _ => none
  submittedRound : TxKey → Option Int := fun _ => none
  committedRequests : Finset TxKey := ∅
  knownRequests : Finset TxKey := ∅
  pendingClientRequests : List Request := []
  deferredClientRequests : List Request := []
  hasInFlight : Bool := false
  inFlightKey : TxKey := (NO_PEER_ID, -1)
  inFlightRequest : Request := {}
  leaderChanges : Int := 0
  timeOutRound : Int := 0
  timeOutSpacing : Int := 100
  timeOutRandom : Int := 5
  submitRate : Int := 20
  nextClientRequestId : Int := 0
  confirmedTrans : List Confirmation := []
  latency : Int := 0

/-- The state of a peer inside a handler: the packets sent so far, and the random draws to come. -/
structure Local extends RaftConsensus where
  outbox : List (Packet Message) := []
  draws : List Nat := []

/-- What a handler reads: the peer's public id, its neighbours, the committee and the round. -/
structure Ctx where
  self : InterfaceId
  neighbors : List InterfaceId
  members : List InterfaceId
  round : Int

variable (ctx : Ctx)

def randMod (exclusiveMax : Int) (s : Local) : Int × Local :=
  ((s.draws.headD 0 : Int) % exclusiveMax, { s with draws := s.draws.tail })

/-- `peer->unicastTo`: a message to a peer that is no neighbour is not sent. -/
def unicastTo (msg : Message) (dest : InterfaceId) (s : Local) : Local :=
  if dest ∈ ctx.neighbors then { s with outbox := s.outbox ++ [⟨ctx.self, dest, msg⟩] } else s

def multicast (msg : Message) (s : Local) : Local :=
  ctx.members.foldl (fun s dest => unicastTo ctx msg dest s) s

def quorumThreshold : Nat := ctx.members.length / 2

def hasQuorum (count : Nat) : Bool := quorumThreshold ctx < count

def resetTimer (s : Local) : Local :=
  let r := if 0 < s.timeOutRandom then randMod s.timeOutRandom s else (0, s)
  { r.2 with timeOutRound := ctx.round + s.timeOutSpacing + r.1 }

def resetReplicationState (requeueInFlight : Bool) (s : Local) : Local :=
  let key := s.inFlightKey
  let s₁ :=
    if s.hasInFlight ∧ requeueInFlight ∧ keyValid key ∧ key ∉ s.committedRequests then
      { s with pendingClientRequests := s.inFlightRequest :: s.pendingClientRequests }
    else s
  let s₂ :=
    if s.hasInFlight ∧ keyValid key then
      { s₁ with
        replies := Function.update s₁.replies key none
        submittedRound := Function.update s₁.submittedRound key none }
    else s₁
  { s₂ with hasInFlight := false, inFlightKey := (NO_PEER_ID, -1), inFlightRequest := {} }

def enqueueDeferred (request : Request) (s : Local) : Local :=
  if keyValid (extractKey request) ∧ extractKey request ∉ s.knownRequests then
    { s with
      knownRequests := insert (extractKey request) s.knownRequests
      deferredClientRequests := s.deferredClientRequests ++ [request] }
  else s

/-- The body of the loop of `tryForwardDeferredRequests`, on a request popped from the queue. -/
def forwardDeferred (s : Local) (request : Request) : Local :=
  if ¬ keyValid (extractKey request) ∨ extractKey request ∈ s.committedRequests then s
  else if s.leaderId = ctx.self then
    { s with pendingClientRequests := s.pendingClientRequests ++ [{ request with forwardedTo := none }] }
  else if s.leaderId ≠ NO_PEER_ID then
    if request.forwardedTo.getD NO_PEER_ID ≠ s.leaderId then
      let s := unicastTo ctx (.clientRequest request) s.leaderId s
      { s with
        deferredClientRequests :=
          s.deferredClientRequests ++ [{ request with forwardedTo := some s.leaderId }] }
    else { s with deferredClientRequests := s.deferredClientRequests ++ [request] }
  else { s with deferredClientRequests := s.deferredClientRequests ++ [request] }

/-- The loop pops as many requests as the queue held at its start, so those it pushes back stay. -/
def tryForwardDeferredRequests (s : Local) : Local :=
  s.deferredClientRequests.foldl (forwardDeferred ctx) { s with deferredClientRequests := [] }

/-- The loop of `tryStartReplication`: the first pending request that is not committed goes into
flight. -/
def replicateFirst : List Request → Local → Local
  | [], s => { s with pendingClientRequests := [] }
  | request :: rest, s =>
    let key := extractKey request
    if ¬ keyValid key ∨ key ∈ s.committedRequests then replicateFirst rest s
    else
      let request := { request with roundSubmitted := some ctx.round }
      let s := { s with
        pendingClientRequests := rest
        hasInFlight := true
        inFlightKey := key
        inFlightRequest := request
        replies := Function.update s.replies key (some ((s.replies key).getD []))
        submittedRound := Function.update s.submittedRound key (some ctx.round) }
      resetTimer ctx (multicast ctx (.request request ctx.self s.term) s)

/-- The fields that `onClientRequest` adds to a request that lacks them. -/
def completeRequest (request : Request) (s : Local) : Request × Local :=
  let request := { request with
    roundSubmitted := some (request.roundSubmitted.getD ctx.round)
    submitterId := some (request.submitterId.getD ctx.self) }
  match request.clientSeq with
  | some _ => (request, s)
  | none => ({ request with clientSeq := some s.nextClientRequestId },
      { s with nextClientRequestId := s.nextClientRequestId + 1 })

/-- `onClientRequest`, where `start` is the call of `tryStartReplication` at its end. -/
def acceptClientRequest (start : Local → Local) (request : Request) (s : Local) : Local :=
  let r := completeRequest ctx request s
  let s := tryForwardDeferredRequests ctx (enqueueDeferred r.1 r.2)
  if s.leaderId = ctx.self then start s else s

def freshRequest (s : Local) : Request where
  submitterId := some ctx.self
  clientSeq := some s.nextClientRequestId
  roundSubmitted := some ctx.round

/-- `tryStartReplication` with at most `fuel` calls nested in it. -/
def tryStartReplication (fuel : Nat) (s : Local) : Local :=
  if s.leaderId ≠ ctx.self ∨ s.hasInFlight then s
  else if s.pendingClientRequests = [] then
    match fuel with
    | 0 => s
    | fuel + 1 =>
      let s := acceptClientRequest ctx (tryStartReplication fuel) (freshRequest ctx s)
        { s with nextClientRequestId := s.nextClientRequestId + 1 }
      replicateFirst ctx s.pendingClientRequests s
  else replicateFirst ctx s.pendingClientRequests s

/-- The keys that a freshly generated request might still meet as known or committed. -/
def staleKeys (s : RaftConsensus) : Finset TxKey :=
  (s.knownRequests ∪ s.committedRequests).filter fun key => s.nextClientRequestId ≤ key.2

def startReplication (s : Local) : Local :=
  tryStartReplication ctx ((staleKeys s.toRaftConsensus).card + 2) s

def onClientRequest (request : Request) (s : Local) : Local :=
  acceptClientRequest ctx (startReplication ctx) request s

def dropDeferredRequest (key : TxKey) (s : Local) : Local :=
  { s with deferredClientRequests := s.deferredClientRequests.filter fun r => extractKey r ≠ key }

def dropPendingRequest (key : TxKey) (s : Local) : Local :=
  { s with pendingClientRequests := s.pendingClientRequests.filter fun r => extractKey r ≠ key }

/-- An entry is pushed onto `_confirmedTrans`. -/
def pushConfirmed (request : Request) (submittedRound committedRound : Int) (s : Local) : Local :=
  { s with
    confirmedTrans := s.confirmedTrans ++ [⟨request, submittedRound, committedRound, s.term⟩]
    latency := s.latency + (committedRound - submittedRound) }

def applyCommit (request : Request) (submittedRound committedRound : Int) (skipMetrics : Bool)
    (s : Local) : Local :=
  let key := extractKey request
  if ¬ keyValid key then s
  else
    let s := { s with
      committedRequests := insert key s.committedRequests
      submittedRound := Function.update s.submittedRound key none
      replies := Function.update s.replies key none }
    let s := dropPendingRequest key (dropDeferredRequest key s)
    if skipMetrics then s else pushConfirmed request submittedRound committedRound s

def confirmRequest (request : Request) (submittedRound : Int) (s : Local) : Local :=
  let committedRound := ctx.round
  let s := pushConfirmed request submittedRound committedRound s
  let s := applyCommit request submittedRound committedRound true s
  let s := multicast ctx (.commit request ctx.self s.term committedRound submittedRound) s
  startReplication ctx
    { s with hasInFlight := false, inFlightKey := (NO_PEER_ID, -1), inFlightRequest := {} }

/-! ## The handlers of consensus messages -/

/-- The first part of `handleRequest`: the sender is followed unless its term is old. -/
def followSender (sender : InterfaceId) (termNum : Int) (s : Local) : Local :=
  if s.term ≤ termNum then
    let leaderChanged := s.leaderId ≠ sender
    let s := { s with term := termNum, leaderId := sender }
    let s := if leaderChanged then resetReplicationState false s else s
    resetTimer ctx { s with votes := [], candidate := NO_PEER_ID }
  else s

def handleRequest (request : Request) (sender : InterfaceId) (termNum : Int) (s : Local) : Local :=
  if termNum < 0 ∨ sender = NO_PEER_ID then s
  else
    let s := followSender ctx sender termNum s
    if ¬ keyValid (extractKey request) then s
    else
      let s := enqueueDeferred request s
      unicastTo ctx (.respondRequest request ctx.self s.term
        (request.roundSubmitted.getD ctx.round)) sender s

def handleRespond (request : Request) (sender : InterfaceId) (s : Local) : Local :=
  let key := extractKey request
  let responders := (s.replies key).getD []
  if s.leaderId ≠ ctx.self then s
  else if ¬ s.hasInFlight ∨ key ≠ s.inFlightKey then s
  else if sender = NO_PEER_ID then s
  else if sender ∈ responders then s
  else
    let responders := responders ++ [sender]
    let s := { s with replies := Function.update s.replies key (some responders) }
    if hasQuorum ctx responders.length then
      confirmRequest ctx request
        ((s.submittedRound key).getD (request.roundSubmitted.getD ctx.round)) s
    else s

def handleVote (voteFor sender : InterfaceId) (s : Local) : Local :=
  if s.leaderId = ctx.self then s
  else if voteFor ≠ ctx.self ∨ sender = NO_PEER_ID then s
  else if sender ∈ s.votes then s
  else
    let s := { s with votes := s.votes ++ [sender] }
    if hasQuorum ctx s.votes.length then
      let s := resetTimer ctx s
      let s := { s with leaderId := ctx.self, candidate := NO_PEER_ID, votes := [] }
      let s := resetReplicationState true s
      let s := { s with leaderChanges := s.leaderChanges + 1 }
      startReplication ctx (tryForwardDeferredRequests ctx s)
    else s

def handleElect (sender : InterfaceId) (termNum roundSubmitted : Int) (s : Local) : Local :=
  if termNum ≤ s.term ∨ sender = NO_PEER_ID then s
  else
    let s := { s with term := termNum, leaderId := NO_PEER_ID, votes := [], candidate := sender }
    let s := resetTimer ctx (resetReplicationState true s)
    unicastTo ctx (.vote sender ctx.self s.term roundSubmitted) sender s

def handleCommit (request : Request) (sender : InterfaceId) (termNum roundCommitted : Int)
    (roundSubmitted : Int) (s : Local) : Local :=
  if sender = ctx.self then s
  else
    let s := if s.term < termNum then { s with term := termNum } else s
    applyCommit request roundSubmitted roundCommitted false s

def maybeGenerateClientRequest (s : Local) : Local :=
  if s.submitRate ≤ 0 then s
  else
    let r := randMod s.submitRate s
    if r.1 ≠ 0 then r.2
    else onClientRequest ctx (freshRequest ctx r.2)
      { r.2 with nextClientRequestId := r.2.nextClientRequestId + 1 }

def maybeStartElection (s : Local) : Local :=
  if ctx.round < toSizeT s.timeOutRound then s
  else
    let s := resetReplicationState true s
    let s := resetTimer ctx
      { s with candidate := ctx.self, leaderId := NO_PEER_ID, term := s.term + 1, votes := [] }
    multicast ctx (.elect ctx.self s.term ctx.round) s

def tick (s : Local) : Local :=
  tryForwardDeferredRequests ctx (maybeStartElection ctx (maybeGenerateClientRequest ctx s))

/-- What `performComputation` does with a message that it pops from the in-stream. -/
def onMessage : Message → Local → Local
  | .clientRequest request => onClientRequest ctx request
  | .request request sender termNum => handleRequest ctx request sender termNum
  | .respondRequest request sender _ _ => handleRespond ctx request sender
  | .vote voteFor sender _ _ => handleVote ctx voteFor sender
  | .elect sender termNum roundSubmitted => handleElect ctx sender termNum roundSubmitted
  | .commit request sender termNum roundCommitted roundSubmitted =>
    handleCommit ctx request sender termNum roundCommitted roundSubmitted

end Quantas.Raft
