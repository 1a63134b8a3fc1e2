import Quantas.Lib.Lossy
import Quantas.Pow.Parasite

/-!
# Proof-of-work miners, some of them parasites

`BitcoinPeer` and `EthereumPeer` differ in their ledger only, so `prefer` is a parameter. A round of an attacker
starts in the fault, which chooses the parents of the next block and runs the protocol step itself; when the
step broadcasts a block, the fault withholds it. Packets go from the network interface to the in-stream and
from there to the ledger: the fault's `onReceive` is not on the way.
-/

namespace Quantas

/-- A release of withheld blocks, and the messages that the peer had taken from its in-stream by then. -/
structure Release where
  withheld : List StoredBlock
  received : List PoWMessage

/-- A miner with its network interface and its fault. `received` and `releases` are its history, which the code
does not keep: the messages taken from the in-stream, and the releases of the fault. -/
structure Miner where
  publicId : InterfaceId
  neighbors : List InterfaceId
  pow : PoW := .fresh
  queue : List PendingTx := []
  knownTransactions : List (InterfaceId × Int) := []
  localSubmitted : Int := 0
  inStream : List (Packet PoWMessage) := []
  outbox : List (Packet PoWMessage) := []
  parasite : Option ParasiteFault := none
  received : List PoWMessage := []
  releases : List Release := []

/-- What a round of a miner depends on besides its state: the ledger's choice, the rates, the round and the
two random draws. -/
structure MiningRound where
  prefer : PreferCandidate
  submitRate : Int
  mineRate : Int
  mineDenominator : Int
  round : Nat
  submitDraw : Int
  mineDraw : Int

namespace Miner

/-! ## The network interface -/

def unicastTo (s : Miner) (msg : PoWMessage) (dest : InterfaceId) : Miner :=
  if dest ∈ s.neighbors then { s with outbox := s.outbox ++ [⟨s.publicId, dest, msg⟩] } else s

def networkBroadcast (s : Miner) (msg : PoWMessage) : Miner :=
  s.neighbors.foldl (fun s nbr => s.unicastTo msg nbr) s

/-! ## The hooks of the fault -/

def tryRelease (s : Miner) : Miner :=
  match s.parasite with
  | none => s
  | some f =>
    if f.Releases then
      f.releaseMessages.foldl networkBroadcast { s with
        parasite := some f.released
        releases := s.releases ++ [⟨f.privateChain, s.received⟩] }
    else s

def updateParasite (s : Miner) (g : ParasiteFault → ParasiteFault) : Miner :=
  { s with parasite := s.parasite.map g }

def collaborators (s : Miner) : List InterfaceId := (s.parasite.map ParasiteFault.collaborators).getD []

def onSend (s : Miner) (msg : PoWMessage) (sendType : SendType) (_ : List InterfaceId) :
    Miner × PoWMessage × Bool :=
  if sendType ≠ .broadcast then (s, msg, false)
  else
    match msg.content with
    | .tx _ => (s, msg, false)
    | .block b =>
      let msg := { msg with content := .block { b with parasite := true } }
      let s := s.updateParasite (·.storePrivate msg)
      let s := (s.collaborators.filter (· ≠ s.publicId)).foldl
        (fun s collaborator => s.unicastTo { msg with parasitePrivate := true } collaborator) s
      (s.tryRelease, msg, true)

def onReceive (s : Miner) (msg : PoWMessage) (src : InterfaceId) : Miner × PoWMessage × Bool :=
  match msg.content with
  | .tx _ => (s, msg, false)
  | .block _ =>
    if msg.parasitePrivate ∧ src ∈ s.collaborators then
      ((s.updateParasite (·.storePrivate msg)).tryRelease, msg, false)
    else
      (s.updateParasite fun f => { f with publicHeight := max f.publicHeight (ParasiteFault.extractHeight msg) },
        msg, false)

/-- The fault as the fault manager knows it; `step` is the peer's `runProtocolStep`. -/
def parasiteFault (step : List String → Miner → Miner) : Fault Miner PoWMessage where
  id := 0
  overridesSendType := fun t => t = .broadcast
  overridesReceive := true
  overridesPerformComputation := true
  onSend := onSend
  onReceive := onReceive
  onPerformComputation := fun s =>
    (step ((s.parasite.map ParasiteFault.selectPrivateParents).getD []) s, true)

def faultManager (s : Miner) (step : List String → Miner → Miner) : FaultManager Miner PoWMessage :=
  .attach (if s.parasite.isSome then [parasiteFault step] else [])

/-- `ByzantinePeer::broadcast`. No hook of a broadcast runs a protocol step. -/
def broadcast (s : Miner) (msg : PoWMessage) : Miner :=
  (ByzantinePeer.unlessSkipped (.send .broadcast)
    ((s.faultManager fun _ s => s).applySend s msg .broadcast) networkBroadcast).1

/-! ## The protocol step -/

/-- What `checkInStrm` does with a packet. -/
def onPacket (prefer : PreferCandidate) (s : Miner) (pkt : Packet PoWMessage) : Miner :=
  let s := { s with received := s.received ++ [pkt.message] }
  match pkt.message.content with
  | .tx tx =>
    if tx.id < 0 ∨ tx.submitter = NO_PEER_ID then s
    else if (tx.submitter, tx.id) ∈ s.knownTransactions then s
    else
      { s with
        knownTransactions := (tx.submitter, tx.id) :: s.knownTransactions
        queue := s.queue ++ [tx] }
  | .block b =>
    let hash := if b.hash = "" then toString b.miner ++ ":" ++ b.parents.headD GENESIS else b.hash
    let s := { s with pow := s.pow.registerBlock prefer hash b.parents b.miner b.parasite }
    if 0 ≤ b.tx.id ∧ b.tx.submitter ≠ NO_PEER_ID then
      { s with
        knownTransactions := (b.tx.submitter, b.tx.id) :: s.knownTransactions
        queue := s.queue.eraseP fun tx => tx.id = b.tx.id ∧ tx.submitter = b.tx.submitter }
    else s

def checkInStrm (prefer : PreferCandidate) (s : Miner) : Miner :=
  s.inStream.foldl (onPacket prefer) { s with inStream := [] }

variable (env : MiningRound)

def guardSubmit : Bool := 0 < env.submitRate && env.submitDraw = 0

def guardMine (s : Miner) : Bool :=
  0 < env.mineRate && 0 < env.mineDenominator && !s.queue.isEmpty && env.mineDraw < env.mineRate

def submit (s : Miner) : Miner :=
  if guardSubmit env then
    let pending : PendingTx := ⟨s.localSubmitted + 1, env.round, s.publicId⟩
    broadcast { s with
      localSubmitted := s.localSubmitted + 1
      queue := s.queue ++ [pending]
      knownTransactions := (s.publicId, s.localSubmitted + 1) :: s.knownTransactions }
      { content := .tx pending, fromId := s.publicId }
  else s

def buildBlockMessage (s : Miner) (record : BlockRecord) (pending : PendingTx) : PoWMessage where
  content := .block ⟨record.hash, record.parents, s.publicId, record.height, record.parasite, pending, env.round⟩
  fromId := s.publicId

def getParents (pow : PoW) : List String :=
  if pow.parentsForNextBlock = [] then [GENESIS] else pow.parentsForNextBlock

/-- A block for the first transaction of the queue, registered and announced. -/
def mine (overrideParents : List String) (s : Miner) : Miner :=
  match s.queue with
  | [] => s
  | pending :: rest =>
    let parents := if overrideParents = [] then getParents s.pow else overrideParents
    let hash := toString s.publicId ++ ":" ++ toString pending.id ++ ":" ++ toString env.round
    let pow := s.pow.registerBlock env.prefer hash parents s.publicId (overrideParents ≠ [])
    match pow.findBlock hash with
    | none => { s with queue := rest, pow := pow }
    | some record =>
      broadcast { s with queue := rest, pow := pow } (s.buildBlockMessage env record pending)

/-- `runProtocolStep` up to `guardMine`. -/
def beforeMining (s : Miner) : Miner := submit env (checkInStrm env.prefer s)

def runProtocolStep (overrideParents : List String) (s : Miner) : Miner :=
  let s := beforeMining env s
  if guardMine env s then mine env overrideParents s else s

/-- `ByzantinePeer::tryPerformComputation`; these peers do not crash. -/
def tryPerformComputation (s : Miner) : Miner :=
  let r := (s.faultManager (runProtocolStep env)).applyPerformComputation s
    { content := .tx {}, fromId := s.publicId }
  if r.2.2.1 then r.1 else runProtocolStep env [] r.1

end Miner

/-! ## The system -/

/-- The miners of an experiment. The draws are a table, by peer and round. -/
structure Miners where
  prefer : PreferCandidate
  peers : List InterfaceId
  neighbors : InterfaceId → List InterfaceId
  attackers : List InterfaceId
  leadThreshold : Int
  submitRate : Int
  mineRate : InterfaceId → Int
  mineDenominator : InterfaceId → Int
  submitDraw : InterfaceId → Nat → Int
  mineDraw : InterfaceId → Nat → Int

namespace Miners
variable (cfg : Miners)

def env (p : InterfaceId) (round : Nat) : MiningRound :=
  ⟨cfg.prefer, cfg.submitRate, cfg.mineRate p, cfg.mineDenominator p, round, cfg.submitDraw p round,
    cfg.mineDraw p round⟩

def init (p : InterfaceId) : Miner where
  publicId := p
  neighbors := cfg.neighbors p
  parasite :=
    if p ∈ cfg.attackers then some (.new cfg.leadThreshold (cfg.attackers.filter (· ≠ p))) else none

def protocol : Lib.Lossy.Protocol InterfaceId Miner (Packet PoWMessage) where
  members := cfg.peers
  initial := cfg.init
  accepts := fun p pkt => pkt.target = p
  react := fun p round arrived s =>
    let r := Miner.tryPerformComputation (cfg.env p round)
      { s with inStream := s.inStream ++ arrived, outbox := [] }
    (r, r.outbox)

instance (p : InterfaceId) (pkt : Packet PoWMessage) : Decidable (cfg.protocol.accepts p pkt) :=
  inferInstanceAs (Decidable (_ = _))

abbrev machine := cfg.protocol.machine

end Miners

abbrev MinerSystem := Lib.Lossy.Net InterfaceId Miner (Packet PoWMessage)

end Quantas
