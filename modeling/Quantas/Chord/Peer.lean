import Quantas.Common.Packet
import Quantas.Lib.Relay
import Quantas.Lib.Ring

/-!
# LinearChord peers

`LinearChordPeer` with its finger table and the lookups that it submits, forwards and answers. The peers stand on a
ring in the order of their ids; a finger is the peer a power of two of steps ahead. A lookup goes to the farthest
finger that is a neighbour and does not pass the target, and without such a finger to a neighbour chosen by distance.
The ring is a `Committee`: its ids are distinct, in order, and none is `NO_PEER_ID`.
-/

namespace Quantas.Chord

structure FingerEntry where
  nodeId : InterfaceId := NO_PEER_ID
  ringIndex : Nat := 0
  skip : Nat := 0
  skipNormalized : Nat := 0
  deriving DecidableEq, Repr

/-- `makeLookupTemplate`, with `lastHop` once the lookup has been forwarded. -/
structure LookupMessage where
  transactionId : Nat
  originId : InterfaceId
  targetId : InterfaceId
  roundSubmitted : Int
  hops : Nat := 0
  lastHop : Option InterfaceId := none
  deriving DecidableEq, Repr

/-- A peer after `initParameters`. Its neighbours are in the order of `std::set`. -/
structure LinearChordPeer where
  publicId : InterfaceId
  neighbors : List InterfaceId
  ringOrder : List InterfaceId
  selfIndex : Nat
  fingers : List FingerEntry := []
  requestsSatisfied : Nat := 0
  totalHops : Nat := 0
  totalLatency : Int := 0
  deriving DecidableEq, Repr

/-- What a step draws, the index of a lookup's target, and `RoundManager::currentRound()`. -/
structure Draws where
  target : Nat := 0
  currentRound : Int := 0
  deriving DecidableEq, Repr

/-- The loop that counts the powers of two up to `maxSkip`. -/
def countBits (maxSkip : Nat) : Nat → Nat → Nat
  | 0, bits => bits
  | fuel + 1, bits => if 2 ^ bits ≤ maxSkip then countBits maxSkip fuel (bits + 1) else bits

namespace LinearChordPeer
variable (p : LinearChordPeer)

def indexById (id : InterfaceId) : Option Nat :=
  if id ∈ p.ringOrder then some (p.ringOrder.idxOf id) else none

/-- The body of the loop of `buildFingerTable`. -/
def addFinger (fingers : List FingerEntry) (k : Nat) : List FingerEntry :=
  let ringSize := p.ringOrder.length
  let skip := 2 ^ k
  let normalized := skip % ringSize
  if normalized = 0 then fingers
  else
    let idx := (p.selfIndex + skip) % ringSize
    let nodeId := p.ringOrder.getD idx NO_PEER_ID
    if nodeId = p.publicId then fingers
    else if fingers.getLast?.map (·.nodeId) = some nodeId then fingers
    else fingers ++ [{ nodeId, ringIndex := idx, skip, skipNormalized := normalized }]

def buildFingerTable : LinearChordPeer :=
  let ringSize := p.ringOrder.length
  if ringSize ≤ 1 then { p with fingers := [] }
  else
    let maxSkip := ringSize - 1
    let bits := countBits maxSkip (maxSkip + 1) 0
    { p with fingers := (List.range bits).foldl p.addFinger [] }

def distanceTo (index : Nat) : Nat := (index + p.ringOrder.length - p.selfIndex) % p.ringOrder.length

/-- The body of the loop of `selectFinger` on `(best, bestSkip)`. -/
def fartherOf (neighborSet : List InterfaceId) (distanceToTarget : Nat) (best : InterfaceId × Nat)
    (entry : FingerEntry) : InterfaceId × Nat :=
  if entry.nodeId ∉ neighborSet then best
  else if entry.skipNormalized = 0 then best
  else if entry.skipNormalized ≤ distanceToTarget ∧ best.2 < entry.skipNormalized then
    (entry.nodeId, entry.skipNormalized)
  else best

def selectFinger (target : InterfaceId) (neighborSet : List InterfaceId) : InterfaceId :=
  if p.ringOrder.length ≤ 1 then NO_PEER_ID
  else
    match p.indexById target with
    | none => NO_PEER_ID
    | some index =>
      let distanceToTarget := p.distanceTo index
      if distanceToTarget = 0 then NO_PEER_ID
      else (p.fingers.foldl (fartherOf neighborSet distanceToTarget) (NO_PEER_ID, 0)).1

/-- The body of the two loops of `chooseClockwiseNeighbor` on `(best, bestDistance)`: a neighbour that is nearer to
the peer, and in the first loop not past the target. -/
def nearerOf (limit : Option Nat) (best : InterfaceId × Nat) (neighbor : InterfaceId) : InterfaceId × Nat :=
  match p.indexById neighbor with
  | none => best
  | some index =>
    let distance := p.distanceTo index
    if distance = 0 then best
    else if (limit.all fun targetDistance => distance ≤ targetDistance) ∧ distance < best.2 then (neighbor, distance)
    else best

def chooseClockwiseNeighbor (target : InterfaceId) (neighborSet : List InterfaceId) : InterfaceId :=
  if p.ringOrder.length ≤ 1 ∨ neighborSet = [] then NO_PEER_ID
  else
    match p.indexById target with
    | none => NO_PEER_ID
    | some index =>
      let targetDistance := p.distanceTo index
      if targetDistance = 0 then NO_PEER_ID
      else
        let best := neighborSet.foldl (p.nearerOf (some targetDistance)) (NO_PEER_ID, p.ringOrder.length)
        if best.1 ≠ NO_PEER_ID then best.1 else (neighborSet.foldl (p.nearerOf none) best).1

def dispatchLookup (msg : LookupMessage) (nextHop : InterfaceId) (neighborSet : List InterfaceId) :
    Lib.Verdict InterfaceId LookupMessage :=
  if nextHop = NO_PEER_ID ∨ nextHop = p.publicId then .dropped msg
  else if nextHop ∉ neighborSet then .dropped msg
  else .forwarded nextHop { msg with hops := msg.hops + 1, lastHop := some p.publicId }

/-- The end that `handleLookup` and `submitLookup` share. -/
def forward (msg : LookupMessage) : Lib.Verdict InterfaceId LookupMessage :=
  let finger := p.selectFinger msg.targetId p.neighbors
  let nextHop := if finger = NO_PEER_ID then p.chooseClockwiseNeighbor msg.targetId p.neighbors else finger
  if nextHop = NO_PEER_ID then .dropped msg else p.dispatchLookup msg nextHop p.neighbors

def handleLookup (msg : LookupMessage) (d : Draws) : LinearChordPeer × Lib.Verdict InterfaceId LookupMessage :=
  if msg.targetId = NO_PEER_ID then (p, .dropped msg)
  else if msg.targetId = p.publicId then
    ({ p with
        requestsSatisfied := p.requestsSatisfied + 1
        totalHops := p.totalHops + msg.hops
        totalLatency := p.totalLatency + (d.currentRound - msg.roundSubmitted) }, .satisfied msg)
  else (p, p.forward msg)

def pickRandomTarget (d : Draws) : InterfaceId :=
  if p.ringOrder = [] then p.publicId
  else
    let index := d.target % p.ringOrder.length
    let candidate := p.ringOrder.getD index NO_PEER_ID
    if candidate = p.publicId ∧ 1 < p.ringOrder.length then
      p.ringOrder.getD ((index + 1) % p.ringOrder.length) NO_PEER_ID
    else candidate

def submitLookup (transactionId : Nat) (d : Draws) :
    LinearChordPeer × Lib.Verdict InterfaceId LookupMessage :=
  let target := p.pickRandomTarget d
  let msg : LookupMessage :=
    { transactionId, originId := p.publicId, targetId := target, roundSubmitted := d.currentRound }
  if target = p.publicId then ({ p with requestsSatisfied := p.requestsSatisfied + 1 }, .satisfied msg)
  else (p, p.forward msg)

end LinearChordPeer

structure ChordNetwork where
  ring : Committee
  two_le : 2 ≤ ring.size
  neighbors : InterfaceId → List InterfaceId
  sorted : ∀ i, (neighbors i).Pairwise (· < ·)

namespace ChordNetwork
variable (net : ChordNetwork)

def index (i : InterfaceId) : Nat := net.ring.members.idxOf i

def distance (i j : InterfaceId) : Nat := Lib.clockwise net.ring.size (net.index i) (net.index j)

def successor (i : InterfaceId) : InterfaceId :=
  net.ring.members.getD ((net.index i + 1) % net.ring.size) NO_PEER_ID

/-- Every peer has the next one on the ring as a neighbour. -/
def HasSuccessors : Prop := ∀ i ∈ net.ring.members, net.successor i ∈ net.neighbors i

def Complete : Prop := ∀ i ∈ net.ring.members, ∀ q ∈ net.ring.members, q ≠ i → q ∈ net.neighbors i

def initialPeer (i : InterfaceId) : LinearChordPeer :=
  LinearChordPeer.buildFingerTable
    { publicId := i, neighbors := net.neighbors i, ringOrder := net.ring.members, selfIndex := net.index i }

def relay : Lib.Relay InterfaceId LinearChordPeer LookupMessage Draws where
  parties := net.ring.members
  start := net.initialPeer
  tick _ p _ := p
  submit _ p serial d := p.submitLookup (serial + 1) d
  handle _ p msg d := p.handleLookup msg d

end ChordNetwork

end Quantas.Chord
