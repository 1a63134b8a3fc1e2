import Quantas.Common.Packet
import Quantas.Lib.Relay
import Quantas.Lib.XorMetric

/-!
# Kademlia peers

`KademliaPeer` with its finger table and the lookups that it submits, forwards and answers. Identifiers are compared
as strings of `_binaryIdSize` bits to choose a group of fingers, and as 64-bit numbers by their XOR distance when
the group has no finger. The peers `0, …, n - 1` are initialised together; `relay` is the network of them. `Draws`
has what a step draws at random, and the round in which it runs.
-/

namespace Quantas.Kademlia

def toUInt64 (id : InterfaceId) : Nat := (id % 2 ^ 64).toNat

def xorDistance (lhs rhs : InterfaceId) : Nat := toUInt64 lhs ^^^ toUInt64 rhs

structure KademliaFinger where
  id : InterfaceId := NO_PEER_ID
  binId : List Bool := []
  group : Int := -1
  deriving DecidableEq, Repr

/-- `makeLookupMessage`, with `lastHop` once the lookup has been forwarded. -/
structure LookupMessage where
  transactionId : Nat
  originId : InterfaceId
  targetId : InterfaceId
  targetBinaryId : List Bool
  roundSubmitted : Int
  hops : Nat := 0
  lastHop : Option InterfaceId := none
  deriving DecidableEq, Repr

/-- A peer after `applyGlobalParameters`. Its neighbours are in the order of `std::set`. -/
structure KademliaPeer where
  publicId : InterfaceId
  neighbors : List InterfaceId
  binaryIdSize : Nat
  binaryId : List Bool
  allPeerIds : List InterfaceId
  fingers : List KademliaFinger := []
  lastNeighborFingerprint : BitVec 64 := 0
  requestsSatisfied : Nat := 0
  totalHops : Nat := 0
  latency : Int := 0
  deriving DecidableEq, Repr

/-- What a step draws: the index of a lookup's target, the candidate among the fingers of a group, the finger of each
group; and `RoundManager::currentRound()`. -/
structure Draws where
  target : Nat := 0
  candidate : Nat := 0
  bucket : Nat → Nat := fun _ => 0
  currentRound : Int := 0

/-- The size of binary ids that `initParameters` computes. -/
def binaryIdSize (peerCount : Nat) : Nat :=
  let size := Nat.clog 2 (max 1 peerCount)
  min 64 (if size = 0 then 1 else size)

def getBinaryId (binaryIdSize : Nat) (id : InterfaceId) : List Bool :=
  (List.range binaryIdSize).reverse.map fun bit => if 64 ≤ bit then false else (toUInt64 id).testBit bit

def firstDifferentBit (lhs rhs : List Bool) : Int :=
  match (List.range (min lhs.length rhs.length)).find? fun idx => lhs[idx]? ≠ rhs[idx]? with
  | some idx => idx
  | none => -1

namespace KademliaPeer
variable (p : KademliaPeer)

def neighborFingerprint (neighborSet : List InterfaceId) : BitVec 64 :=
  let magic : BitVec 64 := 0x9e3779b97f4a7c15
  neighborSet.foldl (fun hash id => hash ^^^ (BitVec.ofInt 64 id + magic + (hash <<< 6) + (hash >>> 2)))
    (BitVec.ofNat 64 neighborSet.length)

/-- The neighbours that first differ from the peer at bit `group`. -/
def grouped (neighborSet : List InterfaceId) (group : Nat) : List KademliaFinger :=
  ((neighborSet.filter fun neighbor => neighbor ≠ p.publicId).map fun neighbor =>
    let binId := getBinaryId p.binaryIdSize neighbor
    { id := neighbor, binId, group := firstDifferentBit binId p.binaryId }).filter fun entry => entry.group = group

/-- One finger of each group, drawn at random. -/
def rebuildFingerTable (neighborSet : List InterfaceId) (bucketDraw : Nat → Nat) : KademliaPeer :=
  { p with
    fingers := (List.range p.binaryIdSize).filterMap fun group =>
      let bucket := p.grouped neighborSet group
      bucket[if 1 < bucket.length then bucketDraw group % bucket.length else 0]?
    lastNeighborFingerprint := neighborFingerprint neighborSet }

/-- What `performComputation` does before it reads its messages. -/
def refreshFingers (d : Draws) : KademliaPeer :=
  if p.fingers = [] ∨ neighborFingerprint p.neighbors ≠ p.lastNeighborFingerprint then
    p.rebuildFingerTable p.neighbors d.bucket
  else p

def selectFingerForGroup (group : Int) (neighborSet : List InterfaceId) (draw : Nat) : InterfaceId :=
  let candidates := (p.fingers.filter fun finger => finger.group = group ∧ finger.id ∈ neighborSet).map (·.id)
  candidates.getD (if 1 < candidates.length then draw % candidates.length else 0) NO_PEER_ID

/-- The body of the loop of `selectClosestByDistance` on `(bestDistance, best)`. -/
def closerOf (targetId : InterfaceId) (best : Nat × InterfaceId) (neighbor : InterfaceId) : Nat × InterfaceId :=
  if neighbor = p.publicId then best
  else if xorDistance neighbor targetId < best.1 then (xorDistance neighbor targetId, neighbor)
  else best

def selectClosestByDistance (targetId : InterfaceId) (neighborSet : List InterfaceId) : InterfaceId :=
  (neighborSet.foldl (p.closerOf targetId) (xorDistance p.publicId targetId, NO_PEER_ID)).2

def findRoute (targetBinaryId : List Bool) (targetId : InterfaceId) (neighborSet : List InterfaceId)
    (draw : Nat) : InterfaceId :=
  if targetBinaryId = [] ∨ p.binaryId = [] then p.selectClosestByDistance targetId neighborSet
  else
    let group := firstDifferentBit targetBinaryId p.binaryId
    if group < 0 then p.selectClosestByDistance targetId neighborSet
    else
      let finger := p.selectFingerForGroup group neighborSet draw
      if finger ≠ NO_PEER_ID then finger else p.selectClosestByDistance targetId neighborSet

/-- The end that `handleLookup` and `submitLookup` share: the message goes to the route's next hop, if that is a
neighbour. -/
def forward (msg : LookupMessage) (nextHop : InterfaceId) : Lib.Verdict InterfaceId LookupMessage :=
  if nextHop = NO_PEER_ID ∨ nextHop = p.publicId then .dropped msg
  else
    let msg := { msg with hops := msg.hops + 1, lastHop := some p.publicId }
    if nextHop ∈ p.neighbors then .forwarded nextHop msg else .dropped msg

def handleLookup (msg : LookupMessage) (d : Draws) : KademliaPeer × Lib.Verdict InterfaceId LookupMessage :=
  if msg.targetId = NO_PEER_ID then (p, .dropped msg)
  else if msg.targetId = p.publicId then
    ({ p with
        requestsSatisfied := p.requestsSatisfied + 1
        totalHops := p.totalHops + msg.hops
        latency := p.latency + (d.currentRound - msg.roundSubmitted) }, .satisfied msg)
  else if p.neighbors = [] then (p, .dropped msg)
  else
    let msg :=
      if msg.targetBinaryId = [] then { msg with targetBinaryId := getBinaryId p.binaryIdSize msg.targetId } else msg
    (p, p.forward msg (p.findRoute msg.targetBinaryId msg.targetId p.neighbors d.candidate))

def submitLookup (transactionId : Nat) (d : Draws) : KademliaPeer × Lib.Verdict InterfaceId LookupMessage :=
  let targetId :=
    if p.allPeerIds = [] then p.publicId
    else p.allPeerIds.getD (d.target % p.allPeerIds.length) NO_PEER_ID
  let targetBinary := getBinaryId p.binaryIdSize targetId
  let msg : LookupMessage :=
    { transactionId, originId := p.publicId, targetId, targetBinaryId := targetBinary,
      roundSubmitted := d.currentRound }
  if targetId = p.publicId then ({ p with requestsSatisfied := p.requestsSatisfied + 1 }, .satisfied msg)
  else if p.neighbors = [] then (p, .dropped msg)
  else (p, p.forward msg (p.findRoute targetBinary targetId p.neighbors d.candidate))

end KademliaPeer

/-- Peers `0, …, peerCount - 1`, an `int`, with their neighbour sets. -/
structure KademliaNetwork where
  peerCount : Nat
  two_le : 2 ≤ peerCount
  fits : peerCount < 2 ^ 31
  neighbors : InterfaceId → List InterfaceId
  sorted : ∀ i, (neighbors i).Pairwise (· < ·)
  within : ∀ i, ∀ q ∈ neighbors i, 0 ≤ q ∧ q < peerCount

namespace KademliaNetwork
variable (net : KademliaNetwork)

def peerIds : List InterfaceId := (List.range net.peerCount).map fun i : Nat => (i : Int)

def Complete : Prop := ∀ i ∈ net.peerIds, ∀ q ∈ net.peerIds, q ≠ i → q ∈ net.neighbors i

def initialPeer (i : InterfaceId) : KademliaPeer where
  publicId := i
  neighbors := net.neighbors i
  binaryIdSize := binaryIdSize net.peerCount
  binaryId := getBinaryId (binaryIdSize net.peerCount) i
  allPeerIds := net.peerIds

def relay : Lib.Relay InterfaceId KademliaPeer LookupMessage Draws where
  parties := net.peerIds
  start := net.initialPeer
  tick _ p d := p.refreshFingers d
  submit _ p serial d := p.submitLookup (serial + 1) d
  handle _ p msg d := p.handleLookup msg d

end KademliaNetwork

end Quantas.Kademlia
