import Quantas.BoostMq.Completion
import Quantas.BoostMq.Transport
import Quantas.Network.Wiring
import Quantas.Tcp.Coordinator

/-!
# Sending with three backends

`NetworkInterface` implements `unicast`, `multicast`, `broadcast` and `broadcastBut` by its virtual
`unicastTo`, and each backend implements that one: `NetworkInterfaceAbstract` with the channels of the simulated
network, `NetworkInterfaceConcrete` with the TCP process coordinator, `NetworkInterfaceConcreteMQ` with the
message queues of its peers. What a backend hands to its transport is kept as a list of destinations and
messages (`handed`).

Two of the three ask whether the destination is a neighbour, and the one over TCP does not; the one over message
queues throws where a queue does not take the packet, which ends the caller's loop and its run. `sameEdges_iff`
says for which calls the three send along the same edges. Sets of ids are listed in their order.
-/

namespace Quantas.Backends

variable {σ μ : Type}

/-! ## The shared operations -/

inductive SendCall (μ : Type)
  | unicastTo (msg : μ) (dest : InterfaceId)
  | unicast (msg : μ)
  | multicast (msg : μ) (targets : List InterfaceId)
  | broadcast (msg : μ)
  | broadcastBut (msg : μ) (exceptId : InterfaceId)
  deriving DecidableEq, Repr

structure Thrown (σ : Type) where
  what : String
  state : σ

def stateAfter : Except (Thrown σ) σ → σ
  | .ok s => s
  | .error e => e.state

def thrownBy : Except (Thrown σ) σ → Option String
  | .ok _ => none
  | .error e => some e.what

/-- An implementation of `NetworkInterface`, with the history of its transport. -/
structure Backend (σ μ : Type) where
  neighbors : σ → List InterfaceId
  unicastTo : μ → InterfaceId → σ → Except (Thrown σ) σ
  handed : σ → List (InterfaceId × μ)

namespace Backend
variable (b : Backend σ μ)

def unicast (msg : μ) (s : σ) : Except (Thrown σ) σ :=
  match b.neighbors s with
  | [] => .ok s
  | firstNbr :: _ => b.unicastTo msg firstNbr s

def multicast (msg : μ) (targets : List InterfaceId) (s : σ) : Except (Thrown σ) σ :=
  targets.foldlM (fun s nbr => b.unicastTo msg nbr s) s

def broadcast (msg : μ) (s : σ) : Except (Thrown σ) σ := b.multicast msg (b.neighbors s) s

def broadcastBut (msg : μ) (exceptId : InterfaceId) (s : σ) : Except (Thrown σ) σ :=
  (b.neighbors s).foldlM (fun s nbr => if nbr = exceptId then pure s else b.unicastTo msg nbr s) s

def call (s : σ) : SendCall μ → Except (Thrown σ) σ
  | .unicastTo msg dest => b.unicastTo msg dest s
  | .unicast msg => b.unicast msg s
  | .multicast msg targets => b.multicast msg targets s
  | .broadcast msg => b.broadcast msg s
  | .broadcastBut msg exceptId => b.broadcastBut msg exceptId s

def run (s : σ) (calls : List (SendCall μ)) : Except (Thrown σ) σ := calls.foldlM b.call s

end Backend

/-! ## The simulated network -/

/-- A peer's interface, and the packets it has pushed. -/
structure AbstractInterface (μ : Type) where
  peer : Peer
  pushed : List (Channel × Packet μ) := []

/-- `NetworkInterfaceAbstract::unicastTo`: a packet is pushed into each channel under the key. -/
def AbstractInterface.unicastTo (msg : μ) (nbr : InterfaceId) (s : AbstractInterface μ) :
    Except (Thrown (AbstractInterface μ)) (AbstractInterface μ) :=
  .ok { s with pushed := s.pushed ++ (Network.unicastTo s.peer nbr).map fun ch =>
      (ch, { source := s.peer.publicId, target := nbr, message := msg }) }

def abstract : Backend (AbstractInterface μ) μ where
  neighbors s := s.peer.neighbors
  unicastTo := AbstractInterface.unicastTo
  handed s := s.pushed.map fun e => (e.1.targetId, e.2.message)

/-! ## TCP -/

/-- What the coordinator of a process does with data messages. -/
structure TcpProcess (μ : Type) where
  coordinator : Tcp.Coordinator
  localInterfaces : List InterfaceId := []
  inboundQueues : List (Packet μ) := []
  sent : List (Tcp.PeerEndpoint × Packet μ) := []

def TcpProcess.unicast (source target : InterfaceId) (body : μ) (p : TcpProcess μ) : TcpProcess μ :=
  let packet : Packet μ := { source, target, message := body }
  if p.coordinator.stopSignal then p
  else if target ∈ p.localInterfaces then { p with inboundQueues := p.inboundQueues ++ [packet] }
  else
    match p.coordinator.endpointForPeer target with
    | none => p
    | some endpoint => { p with sent := p.sent ++ [(endpoint, packet)] }

def TcpProcess.registerInterface (id : InterfaceId) (p : TcpProcess μ) : TcpProcess μ :=
  { p with localInterfaces := p.localInterfaces ++ [id] }

/-- A peer's interface; `unicasts` is the calls that it has made of the coordinator of its process, each with
source, target and body. -/
structure TcpInterface (μ : Type) where
  publicId : InterfaceId := NO_PEER_ID
  neighbors : List InterfaceId := []
  configured : Bool := false
  unicasts : List (InterfaceId × InterfaceId × μ) := []

/-- `NetworkInterfaceConcrete::configure`. -/
def TcpInterface.configure (id : InterfaceId) (neighbors : List InterfaceId) : TcpInterface μ where
  publicId := id
  neighbors := neighbors
  configured := true

/-- `NetworkInterfaceConcrete::unicastTo`. -/
def TcpInterface.unicastTo (msg : μ) (dest : InterfaceId) (s : TcpInterface μ) :
    Except (Thrown (TcpInterface μ)) (TcpInterface μ) :=
  if !s.configured then .ok s
  else .ok { s with unicasts := s.unicasts ++ [(s.publicId, dest, msg)] }

def tcp : Backend (TcpInterface μ) μ where
  neighbors := TcpInterface.neighbors
  unicastTo := TcpInterface.unicastTo
  handed s := s.unicasts.map fun u => (u.2.1, u.2.2)

def TcpProcess.carry (p : TcpProcess μ) (unicasts : List (InterfaceId × InterfaceId × μ)) : TcpProcess μ :=
  unicasts.foldl (fun p u => p.unicast u.1 u.2.1 u.2.2) p

theorem TcpProcess.unicast_local {p : TcpProcess μ} (hrunning : p.coordinator.stopSignal = false)
    {target : InterfaceId} (hlocal : target ∈ p.localInterfaces) (source : InterfaceId) (body : μ) :
    p.unicast source target body =
      { p with inboundQueues := p.inboundQueues ++ [{ source, target, message := body }] } := by
  simp [unicast, hrunning, hlocal]

theorem TcpProcess.unicast_remote {p : TcpProcess μ} {target : InterfaceId} (hremote : target ∉ p.localInterfaces)
    (source : InterfaceId) (body : μ) : ∃ sent, p.unicast source target body = { p with sent := sent } := by
  unfold unicast
  cases p.coordinator.stopSignal with
  | true => exact ⟨p.sent, rfl⟩
  | false =>
    rw [if_neg Bool.false_ne_true, if_neg hremote]
    cases p.coordinator.endpointForPeer target with
    | none => exact ⟨p.sent, rfl⟩
    | some endpoint => exact ⟨_, rfl⟩

theorem TcpProcess.inboundQueues_carry {p : TcpProcess μ} (hrunning : p.coordinator.stopSignal = false)
    (unicasts : List (InterfaceId × InterfaceId × μ)) : (p.carry unicasts).inboundQueues = p.inboundQueues ++
      (unicasts.filter fun u => u.2.1 ∈ p.localInterfaces).map fun u =>
        { source := u.1, target := u.2.1, message := u.2.2 } := by
  induction unicasts generalizing p with
  | nil => exact (List.append_nil _).symm
  | cons u rest ih =>
    show ((p.unicast u.1 u.2.1 u.2.2).carry rest).inboundQueues = _
    by_cases hlocal : u.2.1 ∈ p.localInterfaces
    · rw [unicast_local hrunning hlocal, ih (by exact hrunning)]
      simp [hlocal]
    · obtain ⟨sent, hunicast⟩ := unicast_remote hlocal u.1 u.2.2
      rw [hunicast, ih (by exact hrunning)]
      simp [hlocal]

/-! ## Message queues -/

def peerDataQueueName (id : InterfaceId) : String := "peer_" ++ toString id ++ "_data"

/-- What `unicastTo` meets at the queue of its destination: it cannot be opened, or it takes messages up to a
size and `timed_send` says whether a place came free before the deadline. -/
inductive QueueAnswer
  | missing (what : String)
  | opened (maxMsgSize : Nat) (sent : Bool)
  deriving DecidableEq, Repr

/-- The queues of a test as one peer meets them: `answer k dest` is what its `k`-th attempt to send finds at the
queue of `dest`. -/
structure QueueWorld (μ : Type) where
  archiveSize : Packet μ → Nat
  answer : Nat → InterfaceId → QueueAnswer

/-- A peer's interface. `attempts` and `sends` are history: how often it turned to a queue, and the packets that
went into one, each with the name of the queue. -/
structure MqInterface (μ : Type) where
  publicId : InterfaceId
  neighbors : List InterfaceId
  dataSendTimeoutMs : Nat := 5
  transportMetrics : BoostMq.TransportMetrics := {}
  attempts : Nat := 0
  sends : List (String × Packet μ) := []

/-- `NetworkInterfaceConcreteMQ::unicastTo`. -/
def MqInterface.unicastTo (world : QueueWorld μ) (msg : μ) (dest : InterfaceId) (s : MqInterface μ) :
    Except (Thrown (MqInterface μ)) (MqInterface μ) :=
  if dest ∉ s.neighbors then .ok s
  else
    let packet : Packet μ := { source := s.publicId, target := dest, message := msg }
    let bytes := world.archiveSize packet
    let metrics := s.transportMetrics
    let tried := { s with attempts := s.attempts + 1 }
    match world.answer s.attempts dest with
    | .missing what => .error
        { what := "unicastTo: failed to open peer_" ++ toString dest ++ " queue: " ++ what
          state := tried }
    | .opened maxMsgSize sent =>
      if maxMsgSize < bytes then
        .error
          { what := "unicastTo: packet to peer_" ++ toString dest ++ " is " ++ toString bytes ++
              " bytes, exceeds queue limit of " ++ toString maxMsgSize
            state := tried }
      else if !sent then
        .error
          { what := "peer " ++ toString s.publicId ++ " timed out sending data to peer " ++ toString dest ++
              " after " ++ toString s.dataSendTimeoutMs ++ " ms"
            state := { tried with
              transportMetrics := { metrics with droppedBackpressure := metrics.droppedBackpressure + 1 } } }
      else
        .ok { tried with
          transportMetrics := { metrics with sent := metrics.sent + 1 }
          sends := s.sends ++ [(peerDataQueueName dest, packet)] }

def mq (world : QueueWorld μ) : Backend (MqInterface μ) μ where
  neighbors := MqInterface.neighbors
  unicastTo := MqInterface.unicastTo world
  handed s := s.sends.map fun e => (e.2.target, e.2.message)

/-- The `k`-th attempt of a peer to send puts the message into the queue. -/
def QueueWorld.accepts (world : QueueWorld μ) (source : InterfaceId) (k : Nat) (r : InterfaceId × μ) : Bool :=
  match world.answer k r.1 with
  | .missing _ => false
  | .opened maxMsgSize sent =>
    world.archiveSize { source, target := r.1, message := r.2 } ≤ maxMsgSize && sent

def MqInterface.ofTransport (p : BoostMq.NetworkInterfaceConcreteMQ μ) : MqInterface μ where
  publicId := p.publicId
  neighbors := BoostMq.ascending p.neighbors
  dataSendTimeoutMs := p.dataSendTimeoutMs
  transportMetrics := p.transportMetrics

/-- The queues of the transport at a moment, to an attempt whose `timed_send` returns at the deadline or before. -/
def QueueWorld.ofTransport {β : Type} (c : BoostMq.TransportConfig μ β) (t : BoostMq.Transport μ β)
    (sendTime : Int) (deadline : Bool) : QueueWorld μ where
  archiveSize packet := c.size (c.encode packet sendTime)
  answer _ dest :=
    match t.dataQueue dest with
    | none => .missing c.openFailure
    | some _ => .opened c.maxMessageSize !deadline

theorem timedSend_returns {β : Type} {capacity : Nat} {queue : List β} {bytes : β} {deadline : Bool}
    {result : List β × Bool} (hsend : BoostMq.timedSend capacity queue bytes deadline = some result) :
    result = (if deadline then queue else queue ++ [bytes], !deadline) := by
  unfold BoostMq.timedSend at hsend
  by_cases hfree : queue.length < capacity
  · cases deadline with
    | false => simpa [hfree, eq_comm] using hsend
    | true => simp [hfree] at hsend
  · cases deadline with
    | false => simp [hfree] at hsend
    | true => simpa [hfree, eq_comm] using hsend

/-- A call that returns or throws in the transport does here what it does there: the counters, the exception and
what the queue of the destination gains are the same. -/
theorem MqInterface.unicastTo_transport {β : Type} {c : BoostMq.TransportConfig μ β}
    {t t' : BoostMq.Transport μ β} {i dest : InterfaceId} {msg : μ} {sendTime : Int} {deadline : Bool}
    (hstep : t.unicastTo c i dest msg sendTime deadline = some t') :
    let outcome := MqInterface.unicastTo (.ofTransport c t sendTime deadline) msg dest
      (.ofTransport (t.peer i).interface)
    t'.metrics i = (stateAfter outcome).transportMetrics ∧
      (t'.peer i).exception = (thrownBy outcome).or (t.peer i).exception ∧
      t'.dataQueue dest = (t.dataQueue dest).map fun queue =>
        queue ++ (stateAfter outcome).sends.map fun e => c.encode e.2 sendTime := by
  unfold BoostMq.Transport.unicastTo at hstep
  unfold MqInterface.unicastTo
  simp only [MqInterface.ofTransport, QueueWorld.ofTransport, BoostMq.mem_ascending]
  by_cases hmem : dest ∈ (t.peer i).interface.neighbors
  · rw [if_neg (not_not.mpr hmem)] at hstep ⊢
    cases hqueue : t.dataQueue dest with
    | none =>
      rw [hqueue] at hstep
      obtain rfl := Option.some.inj hstep
      simp [stateAfter, thrownBy, hqueue, BoostMq.Transport.metrics, BoostMq.Transport.setPeer,
        BoostMq.MqPeer.throw]
    | some queue =>
      simp only [hqueue] at hstep ⊢
      by_cases hsize : c.maxMessageSize <
          c.size (c.encode ⟨(t.peer i).interface.publicId, dest, msg⟩ sendTime)
      · simp only [hsize, if_true] at hstep ⊢
        obtain rfl := Option.some.inj hstep
        simp [stateAfter, thrownBy, hqueue, BoostMq.Transport.metrics, BoostMq.Transport.setPeer,
          BoostMq.MqPeer.throw]
      · simp only [hsize, if_false] at hstep ⊢
        obtain ⟨result, hsend, rfl⟩ := Option.map_eq_some_iff.mp hstep
        obtain rfl := timedSend_returns hsend
        cases deadline with
        | false =>
          simp [stateAfter, thrownBy, BoostMq.Transport.metrics, BoostMq.Transport.setPeer,
            BoostMq.MqPeer.countSend]
        | true =>
          simp [stateAfter, thrownBy, BoostMq.Transport.metrics, BoostMq.Transport.setPeer,
            BoostMq.MqPeer.countSend, BoostMq.MqPeer.throw]
  · rw [if_pos hmem] at hstep ⊢
    obtain rfl := Option.some.inj hstep
    simp [stateAfter, thrownBy, BoostMq.Transport.metrics]

/-! ## What the shared operations ask for -/

/-- The messages that a call asks `unicastTo` to send. -/
def SendCall.requests (neighbors : List InterfaceId) : SendCall μ → List (InterfaceId × μ)
  | .unicastTo msg dest => [(dest, msg)]
  | .unicast msg => neighbors.head?.toList.map fun nbr => (nbr, msg)
  | .multicast msg targets => targets.map fun nbr => (nbr, msg)
  | .broadcast msg => neighbors.map fun nbr => (nbr, msg)
  | .broadcastBut msg exceptId => (neighbors.filter (· ≠ exceptId)).map fun nbr => (nbr, msg)

/-- What is handed over of a list of requests, the first of which is attempt `k`: all up to the first refusal. -/
def acceptedFrom (accepts : Nat → InterfaceId × μ → Bool) : Nat → List (InterfaceId × μ) → List (InterfaceId × μ)
  | _, [] => []
  | k, r :: rest => if accepts k r then r :: acceptedFrom accepts (k + 1) rest else []

theorem mem_acceptedFrom {accepts : Nat → InterfaceId × μ → Bool} {k : Nat} {rs : List (InterfaceId × μ)}
    {r : InterfaceId × μ} : r ∈ acceptedFrom accepts k rs ↔
      ∃ n, rs[n]? = some r ∧ ∀ j ≤ n, ∀ q, rs[j]? = some q → accepts (k + j) q = true := by
  induction rs generalizing k with
  | nil => simp [acceptedFrom]
  | cons first rest ih =>
    rw [acceptedFrom]
    by_cases hfirst : accepts k first = true
    · rw [if_pos hfirst, List.mem_cons, ih]
      constructor
      · rintro (rfl | ⟨n, hn, hall⟩)
        · refine ⟨0, rfl, fun j hj q hq => ?_⟩
          obtain rfl : j = 0 := by omega
          obtain rfl := Option.some.inj hq
          exact hfirst
        · refine ⟨n + 1, hn, fun j hj q hq => ?_⟩
          cases j with
          | zero =>
            obtain rfl := Option.some.inj hq
            exact hfirst
          | succ j =>
            have haccepted := hall j (by omega) q hq
            rwa [show k + 1 + j = k + (j + 1) by omega] at haccepted
      · rintro ⟨n, hn, hall⟩
        cases n with
        | zero => exact .inl (Option.some.inj hn).symm
        | succ n =>
          refine .inr ⟨n, hn, fun j hj q hq => ?_⟩
          have haccepted := hall (j + 1) (by omega) q hq
          rwa [show k + (j + 1) = k + 1 + j by omega] at haccepted
    · rw [if_neg hfirst]
      constructor
      · exact fun hr => absurd hr List.not_mem_nil
      · rintro ⟨n, -, hall⟩
        exact absurd (hall 0 (Nat.zero_le n) first rfl) hfirst

/-- A backend with these neighbours: its `unicastTo` skips what is for a destination that it does not admit, and
makes an attempt for the rest, which hands the message over or throws. `good k` describes its states after `k`
attempts. -/
structure Backend.Serves (b : Backend σ μ) (neighbors : List InterfaceId) (admits : InterfaceId → Bool)
    (accepts : Nat → InterfaceId × μ → Bool) (good : Nat → σ → Prop) : Prop where
  reads : ∀ k s, good k s → b.neighbors s = neighbors
  skips : ∀ k s msg dest, good k s → admits dest = false →
    ∃ s', b.unicastTo msg dest s = .ok s' ∧ good k s' ∧ b.handed s' = b.handed s
  hands : ∀ k s msg dest, good k s → admits dest = true → accepts k (dest, msg) = true →
    ∃ s', b.unicastTo msg dest s = .ok s' ∧ good (k + 1) s' ∧ b.handed s' = b.handed s ++ [(dest, msg)]
  throws : ∀ k s msg dest, good k s → admits dest = true → accepts k (dest, msg) = false →
    ∃ e, b.unicastTo msg dest s = .error e ∧ b.handed e.state = b.handed s

def Backend.send (b : Backend σ μ) (s : σ) (r : InterfaceId × μ) : Except (Thrown σ) σ := b.unicastTo r.2 r.1 s

section serves
variable {b : Backend σ μ} {neighbors : List InterfaceId} {admits : InterfaceId → Bool}
  {accepts : Nat → InterfaceId × μ → Bool} {good : Nat → σ → Prop}

theorem Backend.multicast_eq (b : Backend σ μ) (msg : μ) (targets : List InterfaceId) (s : σ) :
    b.multicast msg targets s = (targets.map fun nbr => (nbr, msg)).foldlM b.send s := by
  rw [List.foldlM_map]
  rfl

theorem Backend.broadcastBut_eq (b : Backend σ μ) (msg : μ) (exceptId : InterfaceId) (s : σ) :
    b.broadcastBut msg exceptId s = b.multicast msg ((b.neighbors s).filter (· ≠ exceptId)) s := by
  unfold broadcastBut multicast
  rw [List.foldlM_filter]
  congr 1
  funext s nbr
  by_cases hnbr : nbr = exceptId
  · simp [hnbr]
  · simp [hnbr]

theorem Backend.Serves.call (h : b.Serves neighbors admits accepts good) {k : Nat} {s : σ} (hs : good k s)
    (c : SendCall μ) : b.call s c = (c.requests neighbors).foldlM b.send s := by
  cases c with
  | unicastTo msg dest => exact (bind_pure _).symm
  | unicast msg =>
    rw [Backend.call, Backend.unicast, SendCall.requests, h.reads k s hs]
    cases neighbors with
    | nil => rfl
    | cons nbr rest => exact (bind_pure _).symm
  | multicast msg targets => exact b.multicast_eq msg targets s
  | broadcast msg =>
    rw [Backend.call, Backend.broadcast, h.reads k s hs, b.multicast_eq]
    rfl
  | broadcastBut msg exceptId =>
    rw [Backend.call, Backend.broadcastBut_eq, h.reads k s hs, b.multicast_eq]
    rfl

theorem Backend.Serves.send_ok (h : b.Serves neighbors admits accepts good) {k : Nat} {s s' : σ} (hs : good k s)
    {r : InterfaceId × μ} (hsend : b.send s r = .ok s') : ∃ n, good n s' := by
  cases hadmits : admits r.1 with
  | false =>
    obtain ⟨t, ht, hgood, -⟩ := h.skips k s r.2 r.1 hs hadmits
    obtain rfl := Except.ok.inj (ht.symm.trans hsend)
    exact ⟨k, hgood⟩
  | true =>
    cases haccepts : accepts k r with
    | false =>
      obtain ⟨e, he, -⟩ := h.throws k s r.2 r.1 hs hadmits haccepts
      cases he.symm.trans hsend
    | true =>
      obtain ⟨t, ht, hgood, -⟩ := h.hands k s r.2 r.1 hs hadmits haccepts
      obtain rfl := Except.ok.inj (ht.symm.trans hsend)
      exact ⟨k + 1, hgood⟩

theorem Backend.Serves.sends_ok (h : b.Serves neighbors admits accepts good) {k : Nat} {s s' : σ} (hs : good k s)
    {rs : List (InterfaceId × μ)} (hsends : rs.foldlM b.send s = .ok s') : ∃ n, good n s' := by
  induction rs generalizing k s with
  | nil =>
    obtain rfl := Except.ok.inj hsends
    exact ⟨k, hs⟩
  | cons r rest ih =>
    rw [List.foldlM_cons] at hsends
    cases hsend : b.send s r with
    | error e =>
      rw [hsend] at hsends
      cases hsends
    | ok t =>
      rw [hsend] at hsends
      obtain ⟨n, hgood⟩ := h.send_ok hs hsend
      exact ih hgood hsends

theorem Backend.Serves.run (h : b.Serves neighbors admits accepts good) {k : Nat} {s : σ} (hs : good k s)
    (calls : List (SendCall μ)) :
    b.run s calls = (calls.flatMap (SendCall.requests neighbors)).foldlM b.send s := by
  induction calls generalizing k s with
  | nil => rfl
  | cons c calls ih =>
    rw [Backend.run, List.foldlM_cons, h.call hs, List.flatMap_cons, List.foldlM_append]
    cases hcall : (c.requests neighbors).foldlM b.send s with
    | error e => rfl
    | ok t =>
      obtain ⟨n, hgood⟩ := h.sends_ok hs hcall
      exact ih hgood

theorem Backend.Serves.handed_sends (h : b.Serves neighbors admits accepts good) {k : Nat} {s : σ} (hs : good k s)
    (rs : List (InterfaceId × μ)) : b.handed (stateAfter (rs.foldlM b.send s)) =
      b.handed s ++ acceptedFrom accepts k (rs.filter fun r => admits r.1) := by
  induction rs generalizing k s with
  | nil => exact (List.append_nil _).symm
  | cons r rest ih =>
    rw [List.foldlM_cons]
    cases hadmits : admits r.1 with
    | false =>
      obtain ⟨t, ht, hgood, hhanded⟩ := h.skips k s r.2 r.1 hs hadmits
      rw [List.filter_cons_of_neg (by rw [hadmits]; exact Bool.false_ne_true), ← hhanded, ← ih hgood]
      rw [show b.send s r = .ok t from ht]
      rfl
    | true =>
      rw [List.filter_cons_of_pos (p := fun r : InterfaceId × μ => admits r.1) hadmits, acceptedFrom]
      cases haccepts : accepts k r with
      | false =>
        obtain ⟨e, he, hhanded⟩ := h.throws k s r.2 r.1 hs hadmits haccepts
        rw [if_neg Bool.false_ne_true, List.append_nil, ← hhanded, show b.send s r = .error e from he]
        rfl
      | true =>
        obtain ⟨t, ht, hgood, hhanded⟩ := h.hands k s r.2 r.1 hs hadmits haccepts
        rw [if_pos rfl, List.append_cons, ← hhanded, ← ih hgood, show b.send s r = .ok t from ht]
        rfl

theorem Backend.Serves.mem_run (h : b.Serves neighbors admits accepts good) {s : σ} (hs : good 0 s)
    (hnone : b.handed s = []) (calls : List (SendCall μ)) {r : InterfaceId × μ} :
    r ∈ b.handed (stateAfter (b.run s calls)) ↔
      r ∈ acceptedFrom accepts 0 ((calls.flatMap (SendCall.requests neighbors)).filter fun r => admits r.1) := by
  rw [h.run hs, h.handed_sends hs, hnone, List.nil_append]

end serves

theorem acceptedFrom_all (k : Nat) (rs : List (InterfaceId × μ)) : acceptedFrom (fun _ _ => true) k rs = rs := by
  induction rs generalizing k with
  | nil => rfl
  | cons r rest ih => rw [acceptedFrom, if_pos rfl, ih]

/-! ## What each backend admits -/

/-- A peer of the simulated network whose neighbours each have a channel, which leads to them. -/
structure WiredPeer extends Peer where
  wired : ∀ q ∈ neighbors, ∃ ch, outBoundChannels.filter (·.1 = q) = [(q, ch)] ∧ ch.targetId = q

def WiredPeer.ofNetwork {net : Network} (h : net.Wired) {i : Nat} (hi : i < net.size) : WiredPeer where
  toPeer := net.peers i
  wired q hq := by
    obtain ⟨ch, hfilter, htarget, -⟩ := h.outbound i hi q hq
    exact ⟨ch, hfilter, htarget⟩

theorem abstract_serves (p : WiredPeer) :
    (abstract : Backend (AbstractInterface μ) μ).Serves p.neighbors (fun dest => dest ∈ p.neighbors)
      (fun _ _ => true) fun _ s => s.peer = p.toPeer where
  reads _ _ hs := congrArg Peer.neighbors hs
  skips k s msg dest hs hdest := by
    refine ⟨_, rfl, hs, ?_⟩
    show (s.pushed ++ _).map _ = s.pushed.map _
    simp [Network.unicastTo, hs, of_decide_eq_false hdest]
  hands k s msg dest hs hdest _ := by
    refine ⟨_, rfl, hs, ?_⟩
    obtain ⟨ch, hfilter, htarget⟩ := p.wired dest (of_decide_eq_true hdest)
    show (s.pushed ++ _).map _ = s.pushed.map _ ++ _
    simp [Network.unicastTo, hs, of_decide_eq_true hdest, hfilter, htarget]
  throws _ _ _ _ _ _ hrefused := absurd hrefused (by decide)

theorem tcp_serves (neighbors : List InterfaceId) :
    (tcp : Backend (TcpInterface μ) μ).Serves neighbors (fun _ => true) (fun _ _ => true)
      fun _ s => s.configured = true ∧ s.neighbors = neighbors where
  reads _ _ hs := hs.2
  skips _ _ _ _ _ hskipped := absurd hskipped (by decide)
  hands k s msg dest hs _ _ := by
    refine ⟨{ s with unicasts := s.unicasts ++ [(s.publicId, dest, msg)] }, ?_, hs, ?_⟩
    · show TcpInterface.unicastTo msg dest s = _
      rw [TcpInterface.unicastTo, hs.1, if_neg (by decide)]
    · exact List.map_append
  throws _ _ _ _ _ _ hrefused := absurd hrefused (by decide)

theorem mq_serves (world : QueueWorld μ) (id : InterfaceId) (neighbors : List InterfaceId) :
    (mq world).Serves neighbors (fun dest => dest ∈ neighbors) (world.accepts id)
      fun k s => s.publicId = id ∧ s.neighbors = neighbors ∧ s.attempts = k where
  reads _ _ hs := hs.2.1
  skips k s msg dest hs hdest := by
    refine ⟨s, ?_, hs, rfl⟩
    show MqInterface.unicastTo world msg dest s = _
    rw [MqInterface.unicastTo, hs.2.1, if_pos (of_decide_eq_false hdest)]
  hands k s msg dest hs hdest haccepts := by
    obtain ⟨rfl, hneighbors, rfl⟩ := hs
    have hmem : dest ∈ s.neighbors := hneighbors ▸ of_decide_eq_true hdest
    simp only [QueueWorld.accepts] at haccepts
    simp only [mq, MqInterface.unicastTo, if_neg (not_not.mpr hmem)]
    cases hanswer : world.answer s.attempts dest with
    | missing what => simp [hanswer] at haccepts
    | opened maxMsgSize sent =>
      obtain ⟨hsize, rfl⟩ : world.archiveSize ⟨s.publicId, dest, msg⟩ ≤ maxMsgSize ∧ sent = true := by
        simpa [hanswer] using haccepts
      simp [Nat.not_lt.mpr hsize, hneighbors]
  throws k s msg dest hs hdest hrefused := by
    obtain ⟨rfl, hneighbors, rfl⟩ := hs
    have hmem : dest ∈ s.neighbors := hneighbors ▸ of_decide_eq_true hdest
    simp only [QueueWorld.accepts] at hrefused
    simp only [mq, MqInterface.unicastTo, if_neg (not_not.mpr hmem)]
    cases hanswer : world.answer s.attempts dest with
    | missing what => exact ⟨_, rfl, rfl⟩
    | opened maxMsgSize sent =>
      by_cases hsize : maxMsgSize < world.archiveSize ⟨s.publicId, dest, msg⟩
      · exact ⟨_, if_pos hsize, rfl⟩
      obtain rfl : sent = false := by
        simpa [hanswer, Nat.not_lt.mp hsize] using hrefused
      exact ⟨_, if_neg hsize, rfl⟩

/-! ## The same edges -/

/-- What the three backends hand over in a run of calls, each from its configured start. -/
def abstractSends (p : Peer) (calls : List (SendCall μ)) : List (InterfaceId × μ) :=
  abstract.handed (stateAfter (abstract.run { peer := p } calls))

def tcpSends (p : Peer) (calls : List (SendCall μ)) : List (InterfaceId × μ) :=
  tcp.handed (stateAfter (tcp.run (.configure p.publicId p.neighbors) calls))

def mqSends (world : QueueWorld μ) (p : Peer) (calls : List (SendCall μ)) : List (InterfaceId × μ) :=
  (mq world).handed (stateAfter ((mq world).run { publicId := p.publicId, neighbors := p.neighbors } calls))

/-- The three hand over the same messages, and none for the peer itself or for a peer that is no neighbour. -/
structure SameEdges (world : QueueWorld μ) (p : Peer) (calls : List (SendCall μ)) : Prop where
  abstract_tcp : ∀ r, r ∈ abstractSends p calls ↔ r ∈ tcpSends p calls
  abstract_mq : ∀ r, r ∈ abstractSends p calls ↔ r ∈ mqSends world p calls
  edges : ∀ r, r ∈ abstractSends p calls ∨ r ∈ tcpSends p calls ∨ r ∈ mqSends world p calls →
    r.1 ∈ p.neighbors ∧ r.1 ≠ p.publicId

/-- The call addresses neighbours only, and not the peer itself. -/
def SendCall.Neighbourly (id : InterfaceId) (neighbors : List InterfaceId) : SendCall μ → Prop
  | .unicastTo _ dest => dest ∈ neighbors ∧ dest ≠ id
  | .unicast _ => neighbors.head? ≠ some id
  | .multicast _ targets => ∀ target ∈ targets, target ∈ neighbors ∧ target ≠ id
  | .broadcast _ => id ∉ neighbors
  | .broadcastBut _ exceptId => id ∈ neighbors → id = exceptId

theorem SendCall.neighbourly_iff {id : InterfaceId} {neighbors : List InterfaceId} (c : SendCall μ) :
    c.Neighbourly id neighbors ↔ ∀ r ∈ c.requests neighbors, r.1 ∈ neighbors ∧ r.1 ≠ id := by
  cases c with
  | unicastTo msg dest => simp [Neighbourly, requests]
  | unicast msg =>
    cases neighbors with
    | nil => simp [Neighbourly, requests]
    | cons nbr rest => simp [Neighbourly, requests]
  | multicast msg targets => simp [Neighbourly, requests]
  | broadcast msg =>
    simp only [Neighbourly, requests, List.forall_mem_map]
    constructor
    · exact fun hid nbr hnbr => ⟨hnbr, fun heq => hid (heq ▸ hnbr)⟩
    · exact fun hall hid => (hall id hid).2 rfl
  | broadcastBut msg exceptId =>
    simp only [Neighbourly, requests, List.forall_mem_map, List.mem_filter, decide_eq_true_eq]
    constructor
    · intro hid nbr hnbr
      refine ⟨hnbr.1, ?_⟩
      rintro rfl
      exact hnbr.2 (hid hnbr.1)
    · intro hall hid
      by_contra hne
      exact (hall id ⟨hid, hne⟩).2 rfl

def asked (p : Peer) (calls : List (SendCall μ)) : List (InterfaceId × μ) :=
  calls.flatMap (SendCall.requests p.neighbors)

/-- No attempt is refused before each destination has had each message that is for it: the queue of the
destination can be opened, its bound admits the archive, and a place comes free before the deadline. -/
def QueueWorld.Carries (world : QueueWorld μ) (p : Peer) (calls : List (SendCall μ)) : Prop :=
  ∀ k r, (asked p calls)[k]? = some r → r ∉ (asked p calls).take k →
    ∀ j ≤ k, ∀ q, (asked p calls)[j]? = some q → world.accepts p.publicId j q = true

theorem forall_mem_acceptedFrom {accepts : Nat → InterfaceId × μ → Bool} {rs : List (InterfaceId × μ)} :
    (∀ r ∈ rs, r ∈ acceptedFrom accepts 0 rs) ↔
      ∀ k r, rs[k]? = some r → r ∉ rs.take k → ∀ j ≤ k, ∀ q, rs[j]? = some q → accepts j q = true := by
  simp only [mem_acceptedFrom, Nat.zero_add]
  constructor
  · intro hall k r hk hfirst j hj
    obtain ⟨n, hn, haccepted⟩ := hall r (List.mem_of_getElem? hk)
    have hkn : k ≤ n := by
      by_contra hlt
      refine hfirst (List.mem_of_getElem? (i := n) ?_)
      rw [List.getElem?_take, if_pos (by omega), hn]
    exact haccepted j (hj.trans hkn)
  · intro hall r hr
    classical
    have hfound := List.mem_iff_getElem?.mp hr
    refine ⟨Nat.find hfound, Nat.find_spec hfound, hall _ r (Nat.find_spec hfound) fun hearlier => ?_⟩
    obtain ⟨n, hn⟩ := List.mem_iff_getElem?.mp hearlier
    rw [List.getElem?_take] at hn
    split_ifs at hn with hlt
    exact Nat.find_min hfound hlt hn

section edges
variable (world : QueueWorld μ) (p : WiredPeer) (calls : List (SendCall μ))

theorem mem_abstractSends {r : InterfaceId × μ} :
    r ∈ abstractSends p.toPeer calls ↔ r ∈ asked p.toPeer calls ∧ r.1 ∈ p.neighbors := by
  have hrun := (abstract_serves p).mem_run (s := { peer := p.toPeer }) rfl rfl calls (r := r)
  rwa [acceptedFrom_all, List.mem_filter, decide_eq_true_eq] at hrun

theorem mem_tcpSends {r : InterfaceId × μ} :
    r ∈ tcpSends p.toPeer calls ↔ r ∈ asked p.toPeer calls := by
  have hrun := (tcp_serves p.neighbors).mem_run (s := .configure p.publicId p.neighbors) ⟨rfl, rfl⟩
    rfl calls (r := r)
  rw [acceptedFrom_all, List.mem_filter] at hrun
  exact hrun.trans (and_iff_left rfl)

theorem mem_mqSends {r : InterfaceId × μ} :
    r ∈ mqSends world p.toPeer calls ↔ r ∈ acceptedFrom (world.accepts p.publicId) 0
      ((asked p.toPeer calls).filter fun r => r.1 ∈ p.neighbors) :=
  (mq_serves world p.publicId p.neighbors).mem_run (s := { publicId := p.publicId, neighbors := p.neighbors })
    ⟨rfl, rfl, rfl⟩ rfl calls

/-- **The same edges.** For every peer, every set of neighbours, every run of calls and all queues, the three
backends send along the same edges, none of which leads to a stranger or back to the peer, if and only if each call
addresses only neighbours other than the peer itself and the queues carry what the calls ask for. -/
theorem sameEdges_iff :
    SameEdges world p.toPeer calls ↔
      (∀ c ∈ calls, c.Neighbourly p.publicId p.neighbors) ∧ world.Carries p.toPeer calls := by
  have hasked : (∀ c ∈ calls, c.Neighbourly p.publicId p.neighbors) ↔
      ∀ r ∈ asked p.toPeer calls, r.1 ∈ p.neighbors ∧ r.1 ≠ p.publicId := by
    simp only [SendCall.neighbourly_iff, asked, List.forall_mem_flatMap]
  rw [hasked]
  -- to neighbours only, every request is an attempt
  have hattempts : (∀ r ∈ asked p.toPeer calls, r.1 ∈ p.neighbors ∧ r.1 ≠ p.publicId) →
      ((asked p.toPeer calls).filter fun r => r.1 ∈ p.neighbors) = asked p.toPeer calls := fun h =>
    List.filter_eq_self.mpr fun r hr => decide_eq_true (h r hr).1
  constructor
  · intro h
    have hneighbours : ∀ r ∈ asked p.toPeer calls, r.1 ∈ p.neighbors ∧ r.1 ≠ p.publicId := fun r hr =>
      h.edges r (.inr (.inl ((mem_tcpSends p calls).mpr hr)))
    refine ⟨hneighbours, forall_mem_acceptedFrom.mp fun r hr => ?_⟩
    have hsent := (h.abstract_mq r).mp ((mem_abstractSends p calls).mpr ⟨hr, (hneighbours r hr).1⟩)
    rwa [mem_mqSends, hattempts hneighbours] at hsent
  · rintro ⟨hneighbours, hcarries⟩
    have habstract : ∀ r, r ∈ abstractSends p.toPeer calls ↔ r ∈ asked p.toPeer calls := fun r =>
      (mem_abstractSends p calls).trans (and_iff_left_of_imp fun hr => (hneighbours r hr).1)
    have hmq : ∀ r, r ∈ mqSends world p.toPeer calls ↔ r ∈ asked p.toPeer calls := by
      intro r
      rw [mem_mqSends, hattempts hneighbours]
      constructor
      · intro hr
        obtain ⟨n, hn, -⟩ := mem_acceptedFrom.mp hr
        exact List.mem_of_getElem? hn
      · exact fun hr => forall_mem_acceptedFrom.mpr hcarries r hr
    refine ⟨fun r => ?_, fun r => ?_, fun r hr => ?_⟩
    · rw [habstract, mem_tcpSends]
    · rw [habstract, hmq]
    · rw [habstract, mem_tcpSends, hmq, or_self, or_self] at hr
      exact hneighbours r hr

end edges

def endOfChain : WiredPeer where
  publicId := 0
  internalId := 0
  neighbors := [1]
  outBoundChannels := [(1, ⟨0, 1, 1, 0, 0⟩)]
  wired q hq := by
    obtain rfl := List.mem_singleton.mp hq
    exact ⟨⟨0, 1, 1, 0, 0⟩, by decide, by decide⟩

def hosting : TcpProcess String where
  coordinator :=
    { experiment := { topology := { initialPeers := some 3, type := .chain } }
      isLeader := true, myIp := "127.0.0.1", myPort := 5000, leaderIp := "127.0.0.1", leaderPort := 5000 }
  localInterfaces := [1, 2]

/-- Queues with room for archives of `maxMsgSize` bytes, of messages that take 40 bytes more than their text. -/
def roomFor (maxMsgSize : Nat) : QueueWorld String where
  archiveSize packet := 40 + packet.message.length
  answer _ _ := .opened maxMsgSize true

/-- A multicast to a committee of all three peers: over TCP it also reaches the sender and the far end. And a
broadcast whose archive is larger than the bound of the queues, which only the message queues refuse. -/
theorem committee_not_sameEdges :
    abstractSends endOfChain.toPeer [.multicast "prepare" [0, 1, 2]] = [(1, "prepare")] ∧
      mqSends (roomFor 256) endOfChain.toPeer [.multicast "prepare" [0, 1, 2]] = [(1, "prepare")] ∧
      (((hosting.registerInterface 0).carry
        (stateAfter (tcp.run (.configure 0 [1]) [.multicast "prepare" [0, 1, 2]])).unicasts).inboundQueues.map
          Packet.target) = [0, 1, 2] ∧
      ¬ SameEdges (roomFor 256) endOfChain.toPeer [.multicast "prepare" [0, 1, 2]] ∧
      ¬ SameEdges (roomFor 32) endOfChain.toPeer [.broadcast "prepare"] := by
  refine ⟨by decide, by decide, by decide, fun h => ?_, fun h => ?_⟩
  · have hstranger := h.edges (2, "prepare") (.inr (.inl (by decide)))
    exact absurd hstranger.1 (by decide)
  · have hrefused := (h.abstract_mq (1, "prepare")).mp (by decide)
    exact absurd hrefused (by decide)

end Quantas.Backends
