import Quantas.Tcp.Topology

/-!
# The process coordinator

One `ProcessCoordinator` per process: the leader keeps the table of registered processes, deals the
peers out, and gates the start and the stop of an experiment; a follower registers and obeys. Every
function of the source that takes part in this is a function on `Coordinator`; what it hands to
`sendJson` is appended to `outbox`. Handlers run under one configuration lock, so each is one step.
-/

namespace Quantas.Tcp

/-- A process, as `processKey` names it. The source spells it `ip:port`; no port has a colon. -/
abbrev ProcessKey := String × Int

def processKey (ip : String) (port : Int) : ProcessKey := (ip, port)

structure ProcessRecord where
  ip : String
  port : Int := -1
  requestedPeers : Int := 0
  assignedPeers : List InterfaceId := []
  ready : Bool := false
  deriving DecidableEq

structure PeerEndpoint where
  id : InterfaceId := NO_PEER_ID
  ip : String
  port : Int := -1
  deriving DecidableEq

structure ProcessEndpointRange where
  firstId : InterfaceId := NO_PEER_ID
  lastId : InterfaceId := NO_PEER_ID
  ip : String
  port : Int := -1
  deriving DecidableEq

/-- The control messages, with the fields their senders always set. -/
inductive Message
  | register (experimentIndex : Nat) (ip : String) (port requestedPeers : Int)
  | assignment (experimentIndex : Nat) (peers : List PeerAssignment) (peerRanges : List ProcessEndpointRange)
  | ready (experimentIndex : Nat) (ip : String) (port : Int)
  | start (experimentIndex : Nat)
  | stop (experimentIndex : Nat)
  | peerDone (experimentIndex : Nat) (peerId : InterfaceId)
  deriving DecidableEq

def Message.experimentIndex : Message → Nat
  | register e .. | assignment e .. | ready e .. | start e | stop e | peerDone e _ => e

/-- What a coordinator reads of an experiment: the topology, its `identifiers`, and the values that the
fallback from the experiment to the root of the file yields for `peersPerProcess` and for the stop
condition, which is a time or the peers' signals. -/
structure Experiment where
  topology : TopologyConfig
  identifiers : String := ""
  peersPerProcess : Int := 1
  stopAfterTime : Bool := false

/-- What `std::shuffle` draws for each process that a topology is built for. -/
abbrev Shuffles := ProcessKey → (n : Nat) → Equiv.Perm (Fin n)

structure Coordinator where
  experiment : Experiment
  experimentIndex : Nat := 0
  isLeader : Bool
  myIp : String
  myPort : Int
  leaderIp : String
  leaderPort : Int
  processes : ProcessKey → Option ProcessRecord := fun _ => none
  registrationOrder : List ProcessKey := []
  allPeers : List PeerEndpoint := []
  peerRanges : List ProcessEndpointRange := []
  localAssignments : List PeerAssignment := []
  assignmentsReady : Bool := false
  startSignal : Bool := false
  stopSignal : Bool := false
  completedPeers : Finset InterfaceId := ∅
  outbox : List (ProcessKey × Message) := []
  /-- How often the start gate has opened in this experiment. -/
  startBroadcasts : Nat := 0

namespace Coordinator
variable (c : Coordinator)

def totalPeers : Int := getInt (c.experiment.topology.initialPeers.getD 0)

def myKey : ProcessKey := processKey c.myIp c.myPort

def sendJson (ip : String) (port : Int) (msg : Message) : Coordinator :=
  { c with outbox := c.outbox ++ [(processKey ip port, msg)] }

/-- The records that a walk over `_registrationOrder` finds. -/
def records : List ProcessRecord := c.registrationOrder.filterMap c.processes

def totalRequested : Int := (c.records.map ProcessRecord.requestedPeers).sum

/-! ## Assignments -/

/-- `emplace` of a map from ids to endpoints: an id that is there keeps its endpoint. -/
def emplace (peers : List PeerEndpoint) (endpoint : PeerEndpoint) : List PeerEndpoint :=
  if ∃ e ∈ peers, e.id = endpoint.id then peers else peers ++ [endpoint]

def handleAssignment (peers : List PeerAssignment) (peerRanges : List ProcessEndpointRange) : Coordinator :=
  let endpoints := peers.foldl (fun endpoints assignment =>
    match peerRanges.find? fun range => range.firstId ≤ assignment.id ∧ assignment.id ≤ range.lastId with
    | none => endpoints
    | some range => emplace endpoints { id := assignment.id, ip := range.ip, port := range.port }) []
  { c with
    allPeers := endpoints
    peerRanges := peerRanges
    localAssignments := peers
    assignmentsReady := true }

def sendAssignmentToProcess (order : (n : Nat) → Equiv.Perm (Fin n)) (key : ProcessKey)
    (record : ProcessRecord) : Coordinator :=
  match buildTopology c.experiment.topology c.experiment.identifiers (order _) with
  | none => c
  | some assignments =>
    let peers := record.assignedPeers.map fun id => { id := id, neighbors := neighborsOf assignments id }
    if key = c.myKey then c.handleAssignment peers c.peerRanges
    else c.sendJson record.ip record.port (.assignment c.experimentIndex peers c.peerRanges)

/-- The local variables of the loop that deals out the ids. -/
structure Dealing where
  nextId : Int := 0
  snapshot : ProcessKey → Option ProcessRecord
  endpoints : List PeerEndpoint := []
  ranges : List ProcessEndpointRange := []

def deal (totalPeers : Int) (d : Dealing) (key : ProcessKey) (record : ProcessRecord) : Dealing :=
  let available := min record.requestedPeers (totalPeers - d.nextId)
  let assigned : List InterfaceId := (List.range available.toNat).map fun i : Nat => d.nextId + i
  let nextId := d.nextId + available.toNat
  { nextId := nextId
    snapshot := Function.update d.snapshot key (some { record with assignedPeers := assigned })
    endpoints := (assigned.map fun id => ({ id := id, ip := record.ip, port := record.port } : PeerEndpoint)).foldl
      emplace d.endpoints
    ranges := if 0 < available then
        d.ranges ++ [{ firstId := d.nextId, lastId := nextId - 1, ip := record.ip, port := record.port }]
      else d.ranges }

/-- The loop, which leaves the processes behind the one that gets the last id alone. -/
def dealAll (totalPeers : Int) : List ProcessKey → Dealing → Dealing
  | [], d => d
  | key :: rest, d =>
    match d.snapshot key with
    | none => dealAll totalPeers rest d
    | some record =>
      let d := deal totalPeers d key record
      if totalPeers ≤ d.nextId then d else dealAll totalPeers rest d

def dealing : Dealing := dealAll c.totalPeers c.registrationOrder { snapshot := c.processes }

def assignPeers : Coordinator :=
  { c with
    processes := fun key =>
      match c.processes key, c.dealing.snapshot key with
      | some record, some dealt =>
        if key ∈ c.registrationOrder then some { record with assignedPeers := dealt.assignedPeers } else some record
      | record, _ => record
    allPeers := c.dealing.endpoints
    peerRanges := c.dealing.ranges }

/-- The requests suffice, and building the topology raises no exception. -/
def Assigns : Prop :=
  c.totalPeers ≤ c.totalRequested ∧
    (buildTopology c.experiment.topology c.experiment.identifiers 1).isSome = true

instance : Decidable c.Assigns := inferInstanceAs (Decidable (_ ∧ _))

/-- The topology that is built before the loop is not used: each process is sent its part of another. -/
def distributeAssignmentsIfReady (shuffles : Shuffles) : Coordinator :=
  if c.Assigns then
    c.registrationOrder.foldl (fun c' key =>
      match c.dealing.snapshot key with
      | none => c'
      | some record => c'.sendAssignmentToProcess (shuffles key) key record) c.assignPeers
  else c

def endpointForPeer (id : InterfaceId) : Option PeerEndpoint :=
  match c.allPeers.find? fun e => e.id = id with
  | some endpoint => some endpoint
  | none =>
    (c.peerRanges.find? fun range => range.firstId ≠ NO_PEER_ID ∧ range.lastId ≠ NO_PEER_ID ∧
      range.firstId ≤ id ∧ id ≤ range.lastId).map fun range =>
        { id := id, ip := range.ip, port := range.port }

/-! ## Registration and the start gate -/

/-- The tables with a registration entered: a known process keeps its peers and its readiness. -/
def enroll (ip : String) (port requestedPeers : Int) : Coordinator :=
  let key := processKey ip port
  match c.processes key with
  | none =>
    let record : ProcessRecord := { ip := ip, port := port, requestedPeers := requestedPeers }
    { c with
      processes := Function.update c.processes key (some record)
      registrationOrder := c.registrationOrder ++ [key] }
  | some existing =>
    let record := { existing with ip := ip, port := port, requestedPeers := requestedPeers }
    { c with processes := Function.update c.processes key (some record) }

/-- A known process that holds peers is only sent them again, if the leader has all the endpoints. -/
def CanResendAssignment (key : ProcessKey) : Prop :=
  c.startSignal = false ∧ c.totalPeers ≤ c.allPeers.length ∧
    ((c.processes key).map ProcessRecord.assignedPeers).getD [] ≠ []

instance (key : ProcessKey) : Decidable (c.CanResendAssignment key) := inferInstanceAs (Decidable (_ ∧ _ ∧ _))

def handleRegister (shuffles : Shuffles) (ip : String) (port requestedPeers : Int) : Coordinator :=
  let key := processKey ip port
  let c' := c.enroll ip port requestedPeers
  match c'.processes key with
  | some record =>
    if c.CanResendAssignment key then c'.sendAssignmentToProcess (shuffles key) key record
    else c'.distributeAssignmentsIfReady shuffles
  | none => c'

def setReady (key : ProcessKey) : Coordinator :=
  let record := (c.processes key).map fun record => { record with ready := true }
  { c with processes := Function.update c.processes key record }

def handleStart : Coordinator := { c with startSignal := true }

/-- The gate: all registered processes are ready, and they ask for enough peers. -/
def GateOpen : Prop :=
  (∀ record ∈ c.records, record.ready = true) ∧ c.totalPeers ≤ c.totalRequested ∧ c.records ≠ []

instance : Decidable c.GateOpen := inferInstanceAs (Decidable (_ ∧ _ ∧ _))

/-- Sends a message to every registered process; the own one handles it by `handle`. -/
def broadcast (handle : Coordinator → Coordinator) (msg : Message) : Coordinator :=
  c.records.foldl (fun c record =>
    if record.ip = c.myIp ∧ record.port = c.myPort then handle c
    else c.sendJson record.ip record.port msg) c

def broadcastStartIfReady : Coordinator :=
  if c.isLeader = true ∧ c.GateOpen then
    let c := { c with startBroadcasts := c.startBroadcasts + 1 }
    c.broadcast handleStart (.start c.experimentIndex)
  else c

def handleReady (ip : String) (port : Int) : Coordinator :=
  if ip = "" ∨ port ≤ 0 then c else (c.setReady (processKey ip port)).broadcastStartIfReady

def markReady : Coordinator :=
  if c.isLeader then (c.setReady c.myKey).broadcastStartIfReady
  else c.sendJson c.leaderIp c.leaderPort (.ready c.experimentIndex c.myIp c.myPort)

/-! ## Stopping -/

def handleStop : Coordinator := { c with stopSignal := true }

def broadcastStop : Coordinator :=
  if c.stopSignal then c
  else
    let c := { c with stopSignal := true }
    c.broadcast handleStop (.stop c.experimentIndex)

def handlePeerDone (peerId : InterfaceId) : Coordinator :=
  if peerId = NO_PEER_ID then c
  else
    let c := { c with completedPeers := insert peerId c.completedPeers }
    if c.totalPeers ≤ c.completedPeers.card then c.broadcastStop else c

def notifyPeerStopped (id : InterfaceId) : Coordinator :=
  if id = NO_PEER_ID then c
  else if c.isLeader then c.handlePeerDone id
  else c.sendJson c.leaderIp c.leaderPort (.peerDone c.experimentIndex id)

/-! ## Messages and experiments -/

def processMessage (shuffles : Shuffles) (msg : Message) : Coordinator :=
  if msg.experimentIndex ≠ c.experimentIndex then c
  else
    match msg with
    | .register _ ip port requestedPeers =>
      if c.isLeader then c.handleRegister shuffles ip port requestedPeers else c
    | .assignment _ peers peerRanges => if c.isLeader then c else c.handleAssignment peers peerRanges
    | .ready _ ip port => if c.isLeader then c.handleReady ip port else c
    | .start _ => c.handleStart
    | .stop _ => c.handleStop
    | .peerDone _ peerId => if c.isLeader then c.handlePeerDone peerId else c

def ownRecord : ProcessRecord :=
  { ip := c.myIp, port := c.myPort, requestedPeers := c.experiment.peersPerProcess }

def sendRegistrationToLeader : Coordinator :=
  c.sendJson c.leaderIp c.leaderPort
    (.register c.experimentIndex c.myIp c.myPort c.experiment.peersPerProcess)

/-- The tables as `configureProcess` resets them, with the own process registered. -/
def reset (experiment : Experiment) (experimentIndex : Nat) : Coordinator :=
  let c : Coordinator :=
    { experiment := experiment
      experimentIndex := experimentIndex
      isLeader := c.isLeader
      myIp := c.myIp
      myPort := c.myPort
      leaderIp := c.leaderIp
      leaderPort := c.leaderPort
      outbox := c.outbox }
  { c with
    processes := Function.update c.processes c.myKey (some c.ownRecord)
    registrationOrder := [c.myKey] }

/-- `isLeader` stays: it depends on the address and on the arguments of the process alone. -/
def configureProcess (shuffles : Shuffles) (experiment : Experiment) (experimentIndex : Nat) : Coordinator :=
  let c := c.reset experiment experimentIndex
  if c.isLeader then c.distributeAssignmentsIfReady shuffles else c.sendRegistrationToLeader

def cleanupExperiment : Coordinator :=
  { c with
    assignmentsReady := false
    startSignal := false
    stopSignal := false
    completedPeers := ∅
    localAssignments := [] }

end Coordinator

end Quantas.Tcp
