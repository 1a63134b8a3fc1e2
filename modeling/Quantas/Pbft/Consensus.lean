import Quantas.Pbft.Message

/-!
# PBFT: the state of a replica and its phases

`PBFTConsensus` is the state that a replica keeps. `_receivedMessages`, a multimap for each sequence number
and view, is the list of its messages in the order of insertion: the keys are fields of the messages, and a
range of equal type is a filter. `runPhase` of each phase is a function on `Local`, which adds the packets
sent so far, and says whether it ends with another `runPhase`. The two hashes are parameters.
-/

namespace Quantas.Pbft

inductive Phase
  | prePrepare
  | prepare
  | commit
  | viewChange
  | newView
  deriving DecidableEq, Repr

def viewChangeDelay : Nat := 10

def checkpointInterval : Nat := 10

def WINDOW : Nat := 128

structure PBFTConsensus where
  view : Nat := 0
  viewChangeTimer : Nat := 10
  lowWaterMark : Nat := 0
  highWaterMark : Nat := 0 + WINDOW
  lastStableCheckpoint : Nat := 0
  viewChangeAnchorSeq : Nat := 0
  receivedMessages : List Message := []
  unhandledRequests : List (Nat × ClientRequest) := []
  confirmedTrans : List ClientRequest := []
  latency : Int := 0
  currentClientRequestId : Nat := 0
  phase : Phase := .prePrepare

/-- The state of a replica inside `performComputation`: the packets sent so far. The packet of a multicast
to the replica itself is among them; it finds no channel. -/
structure Local extends PBFTConsensus where
  outbox : List (Packet Message) := []

structure Ctx where
  self : InterfaceId
  members : List InterfaceId
  round : Nat
  fault : Option EquivocateFault
  digestOf : ClientRequest → String
  computeStateDigest : List ClientRequest → String

def multimapInsert {α : Type*} (key : Nat) (value : α) : List (Nat × α) → List (Nat × α)
  | [] => [(key, value)]
  | e :: es => if e.1 ≤ key then e :: multimapInsert key value es else (key, value) :: e :: es

theorem mem_multimapInsert {α : Type*} {key : Nat} {value : α} {es : List (Nat × α)} {e : Nat × α} :
    e ∈ multimapInsert key value es ↔ e = (key, value) ∨ e ∈ es := by
  induction es with
  | nil => simp [multimapInsert]
  | cons e' es ih =>
    rw [multimapInsert]
    split_ifs
    · rw [List.mem_cons, ih, List.mem_cons]
      tauto
    · rw [List.mem_cons]

variable (ctx : Ctx)

/-! ## Sending and receiving -/

/-- The packets of a multicast to all members, which a fault may take over. -/
def packets (msg : Message) : List (Packet Message) :=
  ((ctx.fault.bind fun fault => fault.onSend msg ctx.members).getD (ctx.members.map (·, msg))).map
    fun (target, msg) => ⟨ctx.self, target, msg⟩

/-- `peer->multicast(msg, getMembers())`. -/
def multicast (msg : Message) (s : Local) : Local :=
  { s with outbox := s.outbox ++ packets ctx msg }

/-- Inserts a message into `_receivedMessages`. -/
def insertMessage (msg : Message) (s : Local) : Local :=
  { s with receivedMessages := s.receivedMessages ++ [msg] }

def multicastAndInsert (msg : Message) (s : Local) : Local :=
  insertMessage msg (multicast ctx msg s)

/-- What `performComputation` does with a message from the in-stream. -/
def onMessage (msg : Message) (s : Local) : Local :=
  match msg with
  | .request r => { s with unhandledRequests := multimapInsert ctx.round r s.unhandledRequests }
  | msg => insertMessage msg s

def submitRequest (s : Local) : Local :=
  let r : ClientRequest := {
    requestId := s.currentClientRequestId
    submitterId := ctx.self
    roundSubmitted := ctx.round }
  let s := multicast ctx (.request r) { s with currentClientRequestId := s.currentClientRequestId + 1 }
  { s with unhandledRequests := multimapInsert ctx.round r s.unhandledRequests }

/-! ## Certificates -/

def f : Nat := (ctx.members.length - 1) / 3

def quorum : Nat := 2 * f ctx

def leaderFor (v : Nat) : InterfaceId := ctx.members.getD (v % ctx.members.length) NO_PEER_ID

def phaseMessages (s : PBFTConsensus) (type : PhaseType) (n v : Nat) : List PhaseMessage :=
  (s.receivedMessages.filterMap Message.phase?).filter fun m =>
    m.messageType = type ∧ m.seqNum = n ∧ m.view = v

def checkpoints (s : PBFTConsensus) (n v : Nat) : List Checkpoint :=
  (s.receivedMessages.filterMap Message.checkpoint?).filter fun m => m.seqNum = n ∧ m.view = v

/-- The view changes kept under view `v - 1`. -/
def viewChangesBefore (s : PBFTConsensus) (n v : Nat) : List ViewChange :=
  (s.receivedMessages.filterMap Message.viewChange?).filter fun m => m.seqNum = n ∧ m.view + 1 = v

def newViews (s : PBFTConsensus) (n v : Nat) : List NewView :=
  (s.receivedMessages.filterMap Message.newView?).filter fun m => m.seqNum = n ∧ m.view = v

def hasPrePrepare (s : PBFTConsensus) (v n : Nat) (d : String) : Bool :=
  (phaseMessages s .prePrepare n v).any fun m =>
    m.proposalView = v ∧ m.seqNum = n ∧ ctx.digestOf m.request = d ∧ m.fromId = leaderFor ctx v

/-- The senders that `countPrepares` and `countCommits` count. -/
def senders (s : PBFTConsensus) (type : PhaseType) (v n : Nat) (d : String) : Finset InterfaceId :=
  (((phaseMessages s type n v).filter fun m =>
    m.proposalView = v ∧ m.seqNum = n ∧ ctx.digestOf m.request = d).map PhaseMessage.fromId).toFinset

def countPrepares (s : PBFTConsensus) (v n : Nat) (d : String) : Nat := (senders ctx s .prepare v n d).card

def countCommits (s : PBFTConsensus) (v n : Nat) (d : String) : Nat := (senders ctx s .commit v n d).card

def isPrepared (s : PBFTConsensus) (v n : Nat) (d : String) : Bool :=
  hasPrePrepare ctx s v n d && decide (quorum ctx < countPrepares ctx s v n d)

def isCommitted (s : PBFTConsensus) (v n : Nat) (d : String) : Bool :=
  decide (quorum ctx < countCommits ctx s v n d)

def nextSeq (s : PBFTConsensus) : Nat := s.confirmedTrans.length

/-- More than a quorum of checkpoint messages, counted with repeats, have one digest. -/
def stableCheckpointReady (s : PBFTConsensus) (seq : Nat) : Bool :=
  if seq % checkpointInterval ≠ 0 then false
  else
    let digests := (checkpoints s seq s.view).map Checkpoint.digest
    digests.any fun d => quorum ctx < digests.count d

/-- The senders of the view changes for `s.view`, kept at the anchor. -/
def vcSenders (s : PBFTConsensus) : Finset InterfaceId :=
  (((viewChangesBefore s s.viewChangeAnchorSeq s.view).filter fun m =>
    m.newView = s.view).map ViewChange.fromId).toFinset

/-! ## Checkpoints and view changes -/

def sendCheckpoint (s : Local) : Local :=
  let seqNum := s.confirmedTrans.length
  if seqNum % checkpointInterval ≠ 0 then s
  else
    multicastAndInsert ctx (.checkpoint {
      seqNum
      digest := ctx.computeStateDigest s.confirmedTrans
      fromId := ctx.self
      view := s.view }) s

def maybeStableCheckpoint (s : Local) : Local :=
  let n := s.confirmedTrans.length
  if n % checkpointInterval ≠ 0 then s
  else if ¬ stableCheckpointReady ctx s.toPBFTConsensus n then s
  else
    { s with
      lastStableCheckpoint := n
      lowWaterMark := n
      highWaterMark := n + WINDOW
      receivedMessages := s.receivedMessages.filter fun m => n ≤ m.seqNum }

/-- The pre-prepare that `requestViewChange` adds to its proof for one sequence number. -/
def proofFor (s : PBFTConsensus) (oldView seq : Nat) : Option PhaseMessage :=
  (phaseMessages s .prePrepare seq oldView).find? fun pp =>
    pp.view = oldView ∧ isPrepared ctx s oldView seq (ctx.digestOf pp.request)

def requestViewChange (s : Local) : Local :=
  let oldView := s.view
  let vc : ViewChange := {
    seqNum := s.lastStableCheckpoint
    newView := oldView + 1
    view := oldView
    lastStable := s.lastStableCheckpoint
    preparedProof := (List.range' (s.lastStableCheckpoint + 1)
      (nextSeq s.toPBFTConsensus - (s.lastStableCheckpoint + 1))).filterMap
        (proofFor ctx s.toPBFTConsensus oldView)
    fromId := ctx.self }
  multicastAndInsert ctx (.viewChange vc)
    { s with
      viewChangeAnchorSeq := s.lastStableCheckpoint
      view := oldView + 1
      viewChangeTimer := ctx.round + viewChangeDelay
      phase := .viewChange }

/-! ## The phases -/

/-- What the leader proposes: the first unhandled request, after submitting one if there is none. -/
def propose (s : Local) : Local :=
  let s := if s.unhandledRequests = [] then submitRequest ctx s else s
  match s.unhandledRequests with
  | [] => s
  | (_, tx) :: _ =>
    let s := multicastAndInsert ctx (.phase {
      messageType := .prePrepare
      seqNum := nextSeq s.toPBFTConsensus
      view := s.view
      request := tx
      proposalView := s.view
      fromId := ctx.self }) s
    { s with phase := .prepare }

def leaderProposal (s : PBFTConsensus) : Option PhaseMessage :=
  (phaseMessages s .prePrepare (nextSeq s) s.view).find? fun m =>
    m.view = s.view ∧ m.fromId = leaderFor ctx s.view ∧ m.seqNum = nextSeq s

def PBFTPrePreparePhase.runPhase (s : Local) : Local × Bool :=
  let s := maybeStableCheckpoint ctx s
  if s.viewChangeTimer < ctx.round then (requestViewChange ctx s, false)
  else if ctx.self = leaderFor ctx s.view then (propose ctx s, false)
  else
    match leaderProposal ctx s.toPBFTConsensus with
    | none => (s, false)
    | some pp =>
      let s := multicastAndInsert ctx (.phase { pp with messageType := .prepare, fromId := ctx.self }) s
      ({ s with phase := .prepare }, true)

def preparedProposal (s : PBFTConsensus) : Option PhaseMessage :=
  (phaseMessages s .prePrepare (nextSeq s) s.view).find? fun pp =>
    pp.view = s.view ∧ isPrepared ctx s s.view (nextSeq s) (ctx.digestOf pp.request)

def PBFTPreparePhase.runPhase (s : Local) : Local × Bool :=
  let s := maybeStableCheckpoint ctx s
  if s.viewChangeTimer < ctx.round then (requestViewChange ctx s, false)
  else
    match preparedProposal ctx s.toPBFTConsensus with
    | none => (s, false)
    | some pp =>
      let s := multicastAndInsert ctx (.phase { pp with messageType := .commit, fromId := ctx.self }) s
      ({ s with phase := .commit }, true)

def committedProposal (s : PBFTConsensus) : Option PhaseMessage :=
  (phaseMessages s .prePrepare (nextSeq s) s.view).find? fun pp =>
    pp.view = s.view ∧ pp.fromId = leaderFor ctx s.view ∧
      isCommitted ctx s s.view (nextSeq s) (ctx.digestOf pp.request)

def eraseRequest (req : ClientRequest) (es : List (Nat × ClientRequest)) : List (Nat × ClientRequest) :=
  es.eraseP fun e => e.2 = req

def decideRequest (req : ClientRequest) (s : Local) : Local :=
  let s := sendCheckpoint ctx { s with
    confirmedTrans := s.confirmedTrans ++ [req]
    latency := s.latency + ((ctx.round : Int) - req.roundSubmitted)
    viewChangeTimer := ctx.round + viewChangeDelay }
  { s with
    unhandledRequests := eraseRequest req s.unhandledRequests
    phase := .prePrepare }

def PBFTCommitPhase.runPhase (s : Local) : Local × Bool :=
  let s := maybeStableCheckpoint ctx s
  if s.viewChangeTimer < ctx.round then (requestViewChange ctx s, false)
  else
    match committedProposal ctx s.toPBFTConsensus with
    | none => (s, false)
    | some pp => (decideRequest ctx pp.request s, true)

/-- The proposal of the highest view for one sequence number, in the proofs of the view changes. -/
def bestProof (s : PBFTConsensus) (n : Nat) : Option PhaseMessage :=
  ((viewChangesBefore s s.viewChangeAnchorSeq s.view).filter fun m => m.newView = s.view).foldl
    (fun best m => m.preparedProof.foldl (fun best pp =>
      if pp.seqNum = n ∧ best.all (fun b => decide (b.proposalView < pp.proposalView)) then some pp
      else best) best) none

def announceNewView (s : Local) : Local :=
  multicastAndInsert ctx (.newView {
    seqNum := s.viewChangeAnchorSeq
    view := s.view
    lastStable := s.lastStableCheckpoint
    preparedProof := (List.range' (s.lastStableCheckpoint + 1)
      (s.highWaterMark - s.lastStableCheckpoint)).filterMap (bestProof s.toPBFTConsensus)
    fromId := ctx.self }) s

def PBFTViewChangePhase.runPhase (s : Local) : Local × Bool :=
  let s := maybeStableCheckpoint ctx s
  if s.viewChangeTimer ≤ ctx.round then (requestViewChange ctx s, false)
  else if (vcSenders s.toPBFTConsensus).card ≤ quorum ctx then (s, false)
  else
    let s := if ctx.self = leaderFor ctx s.view then announceNewView ctx s else s
    ({ s with phase := .newView }, false)

def leaderNewView (s : PBFTConsensus) : Option NewView :=
  (newViews s s.viewChangeAnchorSeq s.view).find? fun m =>
    m.fromId = leaderFor ctx s.view ∧ m.view = s.view

def reissue (s : Local) (pp : PhaseMessage) : Local :=
  multicastAndInsert ctx (.phase {
    messageType := .prePrepare
    seqNum := pp.seqNum
    view := s.view
    request := pp.request
    proposalView := s.view
    fromId := ctx.self }) s

def PBFTNewViewPhase.runPhase (s : Local) : Local × Bool :=
  let s := maybeStableCheckpoint ctx s
  if s.viewChangeTimer ≤ ctx.round then (requestViewChange ctx s, false)
  else
    match leaderNewView ctx s.toPBFTConsensus with
    | none => (s, false)
    | some nv =>
      if (vcSenders s.toPBFTConsensus).card ≤ 2 * f ctx then (s, false)
      else
        let s := nv.preparedProof.foldl (reissue ctx)
          { s with
            lowWaterMark := s.lastStableCheckpoint
            highWaterMark := s.lastStableCheckpoint + WINDOW }
        ({ s with viewChangeTimer := ctx.round + viewChangeDelay, phase := .prePrepare }, true)

/-- One call of `_phase->runPhase`, without the call at its end. -/
def call (s : Local) : Local × Bool :=
  match s.phase with
  | .prePrepare => PBFTPrePreparePhase.runPhase ctx s
  | .prepare => PBFTPreparePhase.runPhase ctx s
  | .commit => PBFTCommitPhase.runPhase ctx s
  | .viewChange => PBFTViewChangePhase.runPhase ctx s
  | .newView => PBFTNewViewPhase.runPhase ctx s

/-- `Consensus::runPhase` with the calls at the ends of phases; the fuel bounds how many there are. -/
def runPhase : Nat → Local → Option Local
  | 0, _ => none
  | fuel + 1, s => if (call ctx s).2 then runPhase fuel (call ctx s).1 else some (call ctx s).1

/-- `PBFTPeer::performComputation` on the messages of the in-stream. -/
def performComputation (fuel : Nat) (inStream : List Message) (s : Local) : Option Local :=
  runPhase ctx fuel (inStream.foldl (fun s msg => onMessage ctx msg s) s)

end Quantas.Pbft
