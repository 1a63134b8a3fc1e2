import Quantas.Common.Faults
import Quantas.Pow.Ledger

/-!
# The parasite fault

The fields of `ParasiteFault` and what its hooks do with them: an attacker withholds the blocks that it mines,
and releases them when the highest is `leadThreshold` above `publicHeight`. That field is the fault's idea of
the public chain; `onReceive` raises it for every public block that arrives, and a release raises it to what
was released.
-/

namespace Quantas

structure PendingTx where
  id : Int := -1
  roundSubmitted : Int := -1
  submitter : InterfaceId := NO_PEER_ID
  deriving DecidableEq, Repr

/-- The block of a block message; `length` is the height in the miner's ledger. -/
structure AnnouncedBlock where
  hash : String
  parents : List String
  miner : InterfaceId
  length : Int
  parasite : Bool
  tx : PendingTx
  roundMined : Nat
  deriving DecidableEq, Repr

/-- What a message is about, its `messageType`. -/
inductive PoWContent
  | tx (tx : PendingTx)
  | block (block : AnnouncedBlock)
  deriving DecidableEq, Repr

structure PoWMessage where
  content : PoWContent
  fromId : InterfaceId
  parasitePrivate : Bool := false
  deriving DecidableEq, Repr

namespace PoWMessage

def publicBlock? (msg : PoWMessage) : Option AnnouncedBlock :=
  match msg.content with
  | .block b => if msg.parasitePrivate then none else some b
  | .tx _ => none

end PoWMessage

structure StoredBlock where
  message : PoWMessage
  height : Int := 0
  hash : String
  parents : List String
  deriving DecidableEq, Repr

/-- The fields of the fault, as its constructor leaves them. -/
structure ParasiteFault where
  leadThreshold : Int
  collaborators : List InterfaceId
  privateChain : List StoredBlock := []
  privateHashes : List String := []
  privateHeight : Int := 0
  publicHeight : Int := 0

namespace ParasiteFault
variable (f : ParasiteFault)

def new (leadThreshold : Int) (collaborators : List InterfaceId) : ParasiteFault where
  leadThreshold := max 1 leadThreshold
  collaborators := collaborators

/-- The choice of `selectPrivateParents` between two blocks. -/
def better (block : StoredBlock) (best : Option StoredBlock) : Bool :=
  match best with
  | none => true
  | some best => best.height < block.height || (block.height = best.height && block.hash < best.hash)

def selectPrivateParents : List String :=
  match f.privateChain.foldl (fun best block => if better block best then some block else best) none with
  | none => []
  | some best => if best.hash ≠ "" then [best.hash] else best.parents

def storePrivate (msg : PoWMessage) : ParasiteFault :=
  match msg.content with
  | .tx _ => f
  | .block block =>
    if block.hash = "" then f
    else if block.hash ∈ f.privateHashes then f
    else
      { f with
        privateHashes := block.hash :: f.privateHashes
        privateHeight := max f.privateHeight block.length
        privateChain := f.privateChain ++ [⟨msg, block.length, block.hash, block.parents⟩] }

def Releases : Prop := f.privateChain ≠ [] ∧ ¬ f.privateHeight < f.publicHeight + f.leadThreshold

instance : Decidable f.Releases := inferInstanceAs (Decidable (_ ∧ _))

/-- The order in which `tryRelease` sorts the withheld blocks. -/
def releaseOrder (a b : StoredBlock) : Prop := if a.height = b.height then a.hash ≤ b.hash else a.height < b.height

instance (a b : StoredBlock) : Decidable (releaseOrder a b) :=
  inferInstanceAs (Decidable (if a.height = b.height then a.hash ≤ b.hash else a.height < b.height))

/-- The messages that `tryRelease` broadcasts. -/
def releaseMessages : List PoWMessage :=
  (f.privateChain.insertionSort releaseOrder).map fun stored => { stored.message with parasitePrivate := false }

def released : ParasiteFault :=
  { f with
    publicHeight := max f.publicHeight f.privateHeight
    privateHeight := 0
    privateChain := []
    privateHashes := [] }

def extractHeight (msg : PoWMessage) : Int :=
  match msg.content with
  | .block block => block.length
  | .tx _ => 0

end ParasiteFault

end Quantas
