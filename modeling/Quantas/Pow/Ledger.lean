import Quantas.Common.Packet
import Quantas.Lib.Worklist

/-!
# The proof-of-work ledger

`PoW` remembers the blocks that it has heard of and the children of each, and keeps the hash of the best
block up to date: registering a block runs through everything that hangs below it, breadth first, recomputes
heights and promotes what the subclass prefers. `preferCandidate` is virtual, so it is a parameter here, with
the ledger as its first argument.

`_blocks` is a list of records with different hashes, in the order of registration; `_children` maps a hash
without an entry to the empty list, since no function tells the two apart. The `while` loops run on fuel: a
loop pops at most one entry more than there are parent references.
-/

namespace Quantas

def GENESIS : String := "GENESIS"

structure BlockRecord where
  hash : String
  parents : List String
  miner : InterfaceId := NO_PEER_ID
  height : Int := 0
  parasite : Bool := false
  deriving DecidableEq, Repr

structure PoW where
  blocks : List BlockRecord
  bestHash : String
  children : String → List String

/-- A subclass's choice between a candidate and the incumbent, if there is one. -/
abbrev PreferCandidate := PoW → BlockRecord → Option BlockRecord → Bool

namespace PoW

def fresh : PoW where
  blocks := [{ hash := GENESIS, parents := [] }]
  bestHash := GENESIS
  children := fun _ => []

variable (p : PoW)

def findBlock (hash : String) : Option BlockRecord := p.blocks.find? fun b => b.hash = hash

def modify (hash : String) (f : BlockRecord → BlockRecord) : PoW :=
  { p with blocks := p.blocks.map fun b => if b.hash = hash then f b else b }

def parentReferences : Nat := (p.blocks.map fun b => b.parents.length).sum

/-- Enough fuel for every loop. -/
def loopFuel : Nat := p.parentReferences + 2

def bestTip : Option BlockRecord := p.findBlock p.bestHash

def pushAll (entries stack : List String) : List String := entries.reverse ++ stack

def enqueueAll (entries queue : List String) : List String := queue ++ entries

/-- `subtreeSize`: its loop counts the hashes that it visits. -/
def subtreeSize (hash : String) : Int :=
  (Lib.visitAll p.children pushAll p.loopFuel [hash] []).length

def isAncestorLoop (ancestor : String) : Nat → List String → List String → Bool
  | 0, _, _ => false
  | _ + 1, [], _ => false
  | fuel + 1, current :: stack, visited =>
    if current ∈ visited then isAncestorLoop ancestor fuel stack visited
    else
      match p.findBlock current with
      | none => isAncestorLoop ancestor fuel stack (current :: visited)
      | some b =>
        if ancestor ∈ b.parents then true
        else isAncestorLoop ancestor fuel (pushAll b.parents stack) (current :: visited)

def isAncestor (ancestor descendant : String) : Bool :=
  if ancestor = descendant then false else p.isAncestorLoop ancestor p.loopFuel [descendant] []

def pushUnseen (parents : List String) (stack visited : List String) : List String × List String :=
  parents.foldl (fun sv parent => if parent ∈ sv.2 then sv else (parent :: sv.1, parent :: sv.2))
    (stack, visited)

def hasFullAncestryLoop : Nat → List String → List String → Bool
  | 0, _, _ => false
  | _ + 1, [], _ => true
  | fuel + 1, current :: stack, visited =>
    match p.findBlock current with
    | none => false
    | some b =>
      hasFullAncestryLoop fuel (pushUnseen b.parents stack visited).1
        (pushUnseen b.parents stack visited).2

def hasFullAncestry (hash : String) : Bool := p.hasFullAncestryLoop p.loopFuel [hash] []

/-- The loop of `recomputeHeight`, which a missing parent breaks off. -/
def maxParentHeight : List String → Int → Int
  | [], m => m
  | parent :: rest, m =>
    match p.findBlock parent with
    | none => -1
    | some b => maxParentHeight rest (max m b.height)

def recomputeHeight (hash : String) : PoW :=
  match p.findBlock hash with
  | none => p
  | some b =>
    if b.parents = [] then p.modify hash fun b => { b with height := 0 }
    else
      let m := p.maxParentHeight b.parents (-1)
      let newHeight := if 0 ≤ m then m + 1 else 0
      p.modify hash fun b => { b with height := newHeight }

variable (prefer : PreferCandidate)

def maybePromoteBest (hash : String) : PoW :=
  match p.findBlock hash with
  | none => p
  | some b =>
    if ¬ p.hasFullAncestry hash then p
    else if hash = p.bestHash then p
    else if prefer p b p.bestTip then { p with bestHash := hash }
    else p

def bestOfAll : Option BlockRecord :=
  p.blocks.foldl (fun best b =>
    if p.hasFullAncestry b.hash ∧ (best.isNone ∨ prefer p b best) then some b else best) none

def ensureBestValid : PoW :=
  if (p.findBlock p.bestHash).isSome ∧ p.hasFullAncestry p.bestHash then p
  else { p with bestHash := ((p.bestOfAll prefer).map BlockRecord.hash).getD GENESIS }

/-- What the loop of `propagateUpdates` does with a hash that it visits. -/
def visit (hash : String) : PoW := (p.recomputeHeight hash).maybePromoteBest prefer hash

def propagateLoop (prefer : PreferCandidate) : Nat → PoW → List String → List String → PoW
  | 0, p, _, _ => p
  | _ + 1, p, [], _ => p
  | fuel + 1, p, current :: queue, visited =>
    if current ∈ visited then propagateLoop prefer fuel p queue visited
    else
      let p := p.visit prefer current
      propagateLoop prefer fuel p (enqueueAll (p.children current) queue) (visited ++ [current])

def propagateUpdates (root : String) : PoW :=
  (propagateLoop prefer p.loopFuel p [root] []).ensureBestValid prefer

/-- The children map with `hash` listed once below each of its parents. -/
def linkToParents (hash : String) (parents : List String) : String → List String :=
  parents.foldl (fun children parent =>
    if hash ∈ children parent then children
    else Function.update children parent (children parent ++ [hash])) p.children

/-- `registerBlock`; the record that it returns is the one `findBlock` finds afterwards. -/
def registerBlock (hash : String) (parents : List String) (miner : InterfaceId) (parasiteFlag : Bool) :
    PoW :=
  match p.findBlock hash with
  | some _ => p.modify hash fun b => { b with parasite := b.parasite || parasiteFlag }
  | none =>
    ({ p with
        blocks := p.blocks ++ [{ hash, parents, miner, parasite := parasiteFlag }]
        children := p.linkToParents hash parents } : PoW).propagateUpdates prefer hash

def selectParentsForNextBlock (best : Option BlockRecord) : List String :=
  match best with
  | some b => [b.hash]
  | none => [GENESIS]

def parentsForNextBlock : List String := selectParentsForNextBlock p.bestTip

end PoW

/-- `PoWBitcoin::preferCandidate`: the longest chain, then the smaller hash. -/
def PoWBitcoin.preferCandidate : PreferCandidate
  | _, _, none => true
  | _, candidate, some incumbent =>
    if candidate.height ≠ incumbent.height then decide (incumbent.height < candidate.height)
    else decide (candidate.hash < incumbent.hash)

/-- `PoWEthereum::preferCandidate`: a descendant, then the larger subtree, then the greater height, then the
smaller hash. -/
def PoWEthereum.preferCandidate : PreferCandidate
  | _, _, none => true
  | p, candidate, some incumbent =>
    if p.isAncestor incumbent.hash candidate.hash then true
    else if p.isAncestor candidate.hash incumbent.hash then false
    else if p.subtreeSize candidate.hash ≠ p.subtreeSize incumbent.hash then
      decide (p.subtreeSize incumbent.hash < p.subtreeSize candidate.hash)
    else if candidate.height ≠ incumbent.height then decide (incumbent.height < candidate.height)
    else decide (candidate.hash < incumbent.hash)

end Quantas
