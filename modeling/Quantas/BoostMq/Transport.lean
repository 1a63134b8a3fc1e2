import Quantas.Common.Packet
import Quantas.Lib.Transition

/-!
# The data transport over Boost message queues

One test of the BoostMQ backend after the assignments are out: every peer runs in a process of its own, has a
data queue that was created before the start, resets its transport counters, waits for the start and then makes
its calls of `unicastTo` and `receive` until its rounds are over or a call throws; then it writes its counters. A
step of the system is one queue operation of one peer with the code of that peer up to the next one, so the calls
of different peers interleave between any two queue operations. Archives and the text of Boost's own exceptions
are parameters.
-/

namespace Quantas.BoostMq

structure TransportMetrics where
  sent : Nat := 0
  receivedRaw : Nat := 0
  deliveredToInstream : Nat := 0
  droppedBackpressure : Nat := 0
  peakQueueUsage : Nat := 0
  deriving DecidableEq, Repr

/-- The fields of `NetworkInterfaceConcreteMQ` that the data transport uses. -/
structure NetworkInterfaceConcreteMQ (μ : Type*) where
  publicId : InterfaceId
  neighbors : Finset InterfaceId
  dataSendTimeoutMs : Nat
  inStream : List (Packet μ) := []
  transportMetrics : TransportMetrics := {}

inductive PeerPhase
  | prepared
  | waitingForStart
  | running
  | finished
  deriving DecidableEq, Repr

/-- The process of a peer. `output` is the counters in its metrics file. `timedSends` and `decodes` are history:
what each `timed_send` of this peer returned, and whether each message that it took could be decoded. -/
structure MqPeer (μ : Type*) where
  interface : NetworkInterfaceConcreteMQ μ
  phase : PeerPhase := .prepared
  inReceive : Bool := false
  exception : Option String := none
  output : Option TransportMetrics := none
  timedSends : List Bool := []
  decodes : List Bool := []

/-- The peers of the test with their neighbours, the bounds of the data queues, and Boost's archives: `encode`
takes a packet with its send time. -/
structure TransportConfig (μ β : Type*) where
  peers : Finset InterfaceId
  neighbors : InterfaceId → Finset InterfaceId
  dataQueueCapacity : Nat
  maxMessageSize : Nat
  dataSendTimeoutMs : Nat
  encode : Packet μ → Int → β
  size : β → Nat
  decode : β → Option (Packet μ)
  openFailure : String
  archiveFailure : String

structure Transport (μ β : Type*) where
  peer : InterfaceId → MqPeer μ
  dataQueue : InterfaceId → Option (List β)

/-- `deadline` says that the wait of `timed_send` ended at its deadline. -/
inductive TransportEvent (μ : Type*)
  | resetTransportMetrics (i : InterfaceId)
  | waitForStart (i : InterfaceId)
  | unicastTo (i dest : InterfaceId) (msg : μ) (sendTime : Int) (deadline : Bool)
  | receive (i : InterfaceId)
  | tryReceive (i : InterfaceId)
  | popInStream (i : InterfaceId)
  | endRounds (i : InterfaceId)
  | emitFinalExperimentMetrics (i : InterfaceId)
  deriving DecidableEq, Repr

/-- `message_queue::timed_send`: it returns `false` at the deadline while the queue is full, and otherwise waits
for a free place. -/
def timedSend {β : Type*} (capacity : Nat) (queue : List β) (bytes : β) (deadline : Bool) :
    Option (List β × Bool) :=
  if queue.length < capacity then if deadline then none else some (queue ++ [bytes], true)
  else if deadline then some (queue, false) else none

namespace MqPeer
variable {μ : Type*} (p : MqPeer μ)

def throw (what : String) : MqPeer μ :=
  { p with phase := .finished, inReceive := false, exception := some what }

/-- The code of `unicastTo` after `timed_send` returned `sent`. -/
def countSend (dest : InterfaceId) (sent : Bool) : MqPeer μ :=
  let p := { p with timedSends := p.timedSends ++ [sent] }
  let metrics := p.interface.transportMetrics
  if sent then
    { p with interface := { p.interface with transportMetrics := { metrics with sent := metrics.sent + 1 } } }
  else
    { p with
      interface := { p.interface with
        transportMetrics := { metrics with droppedBackpressure := metrics.droppedBackpressure + 1 } } }.throw
      ("peer " ++ toString p.interface.publicId ++ " timed out sending data to peer " ++ toString dest ++
        " after " ++ toString p.interface.dataSendTimeoutMs ++ " ms")

/-- The code of `receive` before its loop, with `get_num_msg` of the peer's queue. -/
def observeUsage (currentUsage : Nat) : MqPeer μ :=
  let metrics := p.interface.transportMetrics
  { p with
    inReceive := true
    interface := { p.interface with
      transportMetrics := { metrics with peakQueueUsage := max metrics.peakQueueUsage currentUsage } } }

/-- The body of the loop of `receive`, with what the archive makes of the bytes taken. A failure of the archive
is no `interprocess_exception`, so it leaves `receive` as it is. -/
def countReceive (archiveFailure : String) (packet : Option (Packet μ)) : MqPeer μ :=
  let p := { p with decodes := p.decodes ++ [packet.isSome] }
  let metrics := p.interface.transportMetrics
  let metrics := { metrics with receivedRaw := metrics.receivedRaw + 1 }
  match packet with
  | none => { p with interface := { p.interface with transportMetrics := metrics } }.throw archiveFailure
  | some packet =>
    { p with
      interface := { p.interface with
        inStream := p.interface.inStream ++ [packet]
        transportMetrics := { metrics with deliveredToInstream := metrics.deliveredToInstream + 1 } } }

end MqPeer

/-- `collectTransportMetrics` over the local peers of a process. -/
def collectTransportMetrics {μ : Type*} (localPeers : List (NetworkInterfaceConcreteMQ μ)) : TransportMetrics :=
  localPeers.foldl
    (fun totals mq =>
      { sent := totals.sent + mq.transportMetrics.sent
        receivedRaw := totals.receivedRaw + mq.transportMetrics.receivedRaw
        deliveredToInstream := totals.deliveredToInstream + mq.transportMetrics.deliveredToInstream
        droppedBackpressure := totals.droppedBackpressure + mq.transportMetrics.droppedBackpressure
        peakQueueUsage := max totals.peakQueueUsage mq.transportMetrics.peakQueueUsage })
    {}

namespace Transport
variable {μ β : Type*} (c : TransportConfig μ β) (t : Transport μ β)

def setPeer (i : InterfaceId) (p : MqPeer μ) : Transport μ β :=
  { t with peer := Function.update t.peer i p }

def metrics (i : InterfaceId) : TransportMetrics := (t.peer i).interface.transportMetrics

/-- How many messages wait in the data queue of a peer. -/
def waiting (i : InterfaceId) : Nat := ((t.dataQueue i).getD []).length

/-- Before the peers reset their counters: `configure` has opened the interfaces, and the queues are empty. -/
def init : Transport μ β where
  peer i :=
    { interface :=
        { publicId := i, neighbors := c.neighbors i, dataSendTimeoutMs := c.dataSendTimeoutMs } }
  dataQueue i := if i ∈ c.peers then some [] else none

/-- A call of `unicastTo` by a peer; `none` while `timed_send` still waits. -/
def unicastTo (i dest : InterfaceId) (msg : μ) (sendTime : Int) (deadline : Bool) : Option (Transport μ β) :=
  let p := t.peer i
  if dest ∉ p.interface.neighbors then some t
  else
    let bytes := c.encode { source := p.interface.publicId, target := dest, message := msg } sendTime
    match t.dataQueue dest with
    | none => some (t.setPeer i (p.throw
        ("unicastTo: failed to open peer_" ++ toString dest ++ " queue: " ++ c.openFailure)))
    | some queue =>
      if c.maxMessageSize < c.size bytes then
        some (t.setPeer i (p.throw
          ("unicastTo: packet to peer_" ++ toString dest ++ " is " ++ toString (c.size bytes) ++
            " bytes, exceeds queue limit of " ++ toString c.maxMessageSize)))
      else
        (timedSend c.dataQueueCapacity queue bytes deadline).map fun result =>
          { t.setPeer i (p.countSend dest result.2) with
            dataQueue := Function.update t.dataQueue dest (some result.1) }

/-- One pass of the loop of `receive`: without a message the call returns. -/
def tryReceive (i : InterfaceId) : Transport μ β :=
  match t.dataQueue i with
  | some (bytes :: rest) =>
    { t.setPeer i ((t.peer i).countReceive c.archiveFailure (c.decode bytes)) with
      dataQueue := Function.update t.dataQueue i (some rest) }
  | _ => t.setPeer i { t.peer i with inReceive := false }

/-- The peer makes calls: its rounds run and it is not inside `receive`. -/
def Calls (i : InterfaceId) : Prop := (t.peer i).phase = .running ∧ (t.peer i).inReceive = false

instance (i : InterfaceId) : Decidable (t.Calls i) := inferInstanceAs (Decidable (_ ∧ _))

def step : TransportEvent μ → Option (Transport μ β)
  | .resetTransportMetrics i =>
    let p := t.peer i
    if i ∈ c.peers ∧ p.phase = .prepared then
      some (t.setPeer i
        { p with phase := .waitingForStart, interface := { p.interface with transportMetrics := {} } })
    else none
  | .waitForStart i =>
    if i ∈ c.peers ∧ (t.peer i).phase = .waitingForStart then
      some (t.setPeer i { t.peer i with phase := .running })
    else none
  | .unicastTo i dest msg sendTime deadline =>
    if i ∈ c.peers ∧ t.Calls i then t.unicastTo c i dest msg sendTime deadline else none
  | .receive i =>
    if i ∈ c.peers ∧ t.Calls i then some (t.setPeer i ((t.peer i).observeUsage (t.waiting i))) else none
  | .tryReceive i =>
    if i ∈ c.peers ∧ (t.peer i).phase = .running ∧ (t.peer i).inReceive = true then some (t.tryReceive c i)
    else none
  | .popInStream i =>
    let p := t.peer i
    if i ∈ c.peers ∧ t.Calls i then
      some (t.setPeer i { p with interface := { p.interface with inStream := p.interface.inStream.tail } })
    else none
  | .endRounds i =>
    if i ∈ c.peers ∧ t.Calls i then some (t.setPeer i { t.peer i with phase := .finished }) else none
  | .emitFinalExperimentMetrics i =>
    let p := t.peer i
    if i ∈ c.peers ∧ p.phase = .finished then
      some (t.setPeer i { p with output := some (collectTransportMetrics [p.interface]) })
    else none

end Transport

/-- One test, from the moment when the interfaces are configured. -/
def transportMachine {μ β : Type*} (c : TransportConfig μ β) : Lib.Machine (Transport μ β) (TransportEvent μ) where
  initial t := t = Transport.init c
  step := Transport.step c

/-! ## The metrics file and the summary -/

abbrev JsonCounters := List (String × Nat)

/-- `value(key, 0)`: the default is an `int`, and so is the number that is returned. -/
def JsonCounters.value (json : JsonCounters) (key : String) : Int :=
  match json.lookup key with
  | none => 0
  | some x => (x : Int).bmod (2 ^ 32)

def makeTransportMetricsJson (metrics : TransportMetrics) (dataQueueCapacity : Nat) : JsonCounters :=
  [("sent", metrics.sent),
   ("received_raw", metrics.receivedRaw),
   ("delivered_to_instream", metrics.deliveredToInstream),
   ("dropped_backpressure", metrics.droppedBackpressure),
   ("data_queue_capacity", dataQueueCapacity),
   ("peak_observed_queue_usage", metrics.peakQueueUsage)]

structure ReliabilitySummary where
  sentTotal : Nat
  receivedRawTotal : Nat
  deliveredToInstreamTotal : Nat
  droppedBackpressureTotal : Nat
  pendingAtShutdownTotal : Nat
  reliable : Bool
  deriving DecidableEq, Repr

/-- The peers' metrics by peer id, each with its `transportMetrics` if it has them. -/
abbrev PeerMetrics := List (InterfaceId × Option JsonCounters)

/-- What a peer adds to a total, in `uint64_t`. -/
def addCounter (key : String) (total : Nat) (entry : InterfaceId × Option JsonCounters) : Nat :=
  match entry.2 with
  | none => total
  | some transportMetrics => ((total + transportMetrics.value key) % 2 ^ 64).toNat

def total (key : String) (peerMetrics : PeerMetrics) : Nat := peerMetrics.foldl (addCounter key) 0

def summarizeTransportReliability (peerMetrics : PeerMetrics) : ReliabilitySummary :=
  let sentTotal := total "sent" peerMetrics
  let receivedRawTotal := total "received_raw" peerMetrics
  let deliveredToInstreamTotal := total "delivered_to_instream" peerMetrics
  let droppedBackpressureTotal := total "dropped_backpressure" peerMetrics
  { sentTotal
    receivedRawTotal
    deliveredToInstreamTotal
    droppedBackpressureTotal
    pendingAtShutdownTotal := if receivedRawTotal < sentTotal then sentTotal - receivedRawTotal else 0
    reliable := droppedBackpressureTotal = 0 ∧ receivedRawTotal = deliveredToInstreamTotal }

/-- `readPeerMetrics` for the ids given: peers without a metrics file are left out. -/
def readPeerMetrics {μ β : Type*} (c : TransportConfig μ β) (t : Transport μ β) (peerIds : List InterfaceId) :
    PeerMetrics :=
  peerIds.filterMap fun i =>
    (t.peer i).output.map fun metrics => (i, some (makeTransportMetricsJson metrics c.dataQueueCapacity))

end Quantas.BoostMq
