import Quantas.Pow.Ledger

/-!
# What the miners report at the end of the last round

`endOfRound` of both mining peers merges the ledgers into one block graph and measures it. An
`std::unordered_set` of children may be run through in any order, so the order is a parameter. The worklist
of heights and the walk down the heaviest children stop on their own only when the graph has no cycle; they
run on fuel, and `none` says that it was not enough.
-/

namespace Quantas

structure BlockAggregate where
  hash : String
  parents : List String
  parasite : Bool := false
  seen : Nat
  deriving DecidableEq, Repr

/-- `aggregatedBlocks` and `aggregatedChildren`. -/
structure Aggregated where
  blocks : List BlockAggregate
  children : String → List String

/-- An order in which the sets of children are run through. -/
structure IterationOrder where
  order : List String → List String
  perm : ∀ l, (order l).Perm l

def IterationOrder.insertion : IterationOrder := ⟨id, fun _ => .refl _⟩

namespace Aggregated

def empty : Aggregated := ⟨[], fun _ => []⟩

variable (a : Aggregated)

def count (hash : String) : Bool := a.blocks.any fun b => b.hash = hash

def insertInto (set : List String) (hash : String) : List String :=
  if hash ∈ set then set else set ++ [hash]

def addRecord (record : BlockRecord) : Aggregated where
  blocks :=
    if a.count record.hash then
      a.blocks.map fun b =>
        if b.hash = record.hash then
          { b with
            parents := record.parents.foldl insertInto b.parents
            parasite := b.parasite || record.parasite
            seen := b.seen + 1 }
        else b
    else
      a.blocks ++
        [{ hash := record.hash, parents := record.parents, parasite := record.parasite, seen := 1 }]
  children := record.parents.foldl
    (fun children parent => Function.update children parent (insertInto (children parent) record.hash))
    a.children

def addGenesis (ledgerCount : Nat) : Aggregated :=
  if a.count GENESIS then a
  else { a with blocks := a.blocks ++ [{ hash := GENESIS, parents := [], seen := ledgerCount }] }

def ofLedgers (ledgers : List PoW) : Aggregated :=
  (ledgers.foldl (fun a ledger => ledger.blocks.foldl addRecord a) empty).addGenesis ledgers.length

/-! ## Heights -/

/-- What the loop over the children does with one of them: a height that is new, or greater than the one
known, is recorded and the child is queued. -/
def relaxChild (baseHeight : Nat) (hq : (String → Option Nat) × List String) (child : String) :
    (String → Option Nat) × List String :=
  if ¬ a.count child then hq
  else
    match hq.1 child with
    | none => (Function.update hq.1 child (some (baseHeight + 1)), hq.2 ++ [child])
    | some height =>
      if height < baseHeight + 1 then
        (Function.update hq.1 child (some (baseHeight + 1)), hq.2 ++ [child])
      else hq

variable (iter : IterationOrder)

/-- The loop that fills `computedHeight`. -/
def heightLoop : Nat → (String → Option Nat) → List String → Option (String → Option Nat)
  | _, computedHeight, [] => some computedHeight
  | 0, _, _ :: _ => none
  | fuel + 1, computedHeight, current :: queue =>
    let baseHeight := (computedHeight current).getD 0
    let (computedHeight, queue) :=
      (iter.order (a.children current)).foldl (a.relaxChild baseHeight) (computedHeight, queue)
    heightLoop fuel computedHeight queue

def computedHeight (fuel : Nat) : Option (String → Option Nat) :=
  a.heightLoop iter fuel (Function.update (fun _ => none) GENESIS (some 0)) [GENESIS]

/-! ## The walk down the heaviest children -/

/-- `subtreeWeight`, with `weightActive` and `weightMemo`. -/
def subtreeWeight : Nat → List String → (String → Option Int) → String →
    Option (Int × (String → Option Int))
  | 0, _, _, _ => none
  | fuel + 1, weightActive, weightMemo, hash =>
    if hash ∈ weightActive then some (0, weightMemo)
    else
      match weightMemo hash with
      | some weight => some (weight, weightMemo)
      | none => do
        let (total, weightMemo) ← (iter.order (a.children hash)).foldlM
          (fun (total, weightMemo) child =>
            if ¬ a.count child then some (total, weightMemo)
            else do
              let (weight, weightMemo) ← subtreeWeight fuel (hash :: weightActive) weightMemo child
              some (total + weight, weightMemo))
          (1, weightMemo)
        some (total, Function.update weightMemo hash (some total))

structure BestChild where
  bestChild : String := ""
  bestWeight : Int := -1
  bestHeight : Int := -1

def compareChild (fuel : Nat) (computedHeight : String → Option Nat)
    (bm : BestChild × (String → Option Int)) (child : String) :
    Option (BestChild × (String → Option Int)) :=
  if ¬ a.count child then some bm
  else do
    let (weight, weightMemo) ← a.subtreeWeight iter fuel [] bm.2 child
    let height : Int := (computedHeight child).getD 0
    if bm.1.bestWeight < weight ∨
        weight = bm.1.bestWeight ∧ bm.1.bestHeight < height ∨
        weight = bm.1.bestWeight ∧ height = bm.1.bestHeight ∧ child < bm.1.bestChild then
      some ({ bestChild := child, bestWeight := weight, bestHeight := height }, weightMemo)
    else some (bm.1, weightMemo)

/-- The `while` loop; `path` ends with the cursor. -/
def ghostLoop (computedHeight : String → Option Nat) :
    Nat → (String → Option Int) → String → List String → Option (List String)
  | 0, _, _, _ => none
  | fuel + 1, weightMemo, cursor, path =>
    if a.children cursor = [] then some path
    else do
      let (best, weightMemo) ← (iter.order (a.children cursor)).foldlM
        (a.compareChild iter (a.blocks.length + 1) computedHeight) ({}, weightMemo)
      if best.bestChild = "" then some path
      else ghostLoop computedHeight fuel weightMemo best.bestChild (path ++ [best.bestChild])

def ghostPath (fuel : Nat) : Option (List String) := do
  let computedHeight ← a.computedHeight iter fuel
  a.ghostLoop iter computedHeight fuel (fun _ => none) GENESIS [GENESIS]

/-! ## The common root -/

def findBlock (hash : String) : Option BlockAggregate := a.blocks.find? fun b => b.hash = hash

def hashes : List String := a.blocks.map BlockAggregate.hash

/-- `longestChain` of Bitcoin, the greatest of the heights. -/
def longestChain (computedHeight : String → Option Nat) : Nat :=
  ((iter.order a.hashes).filterMap computedHeight).foldl max 0

/-- What the loop over the blocks does with one of them; `best` is `commonRoot` and its height. -/
def commonRootStep (ledgerCount : Nat) (computedHeight : String → Option Nat) (best : String × Nat)
    (hash : String) : String × Nat :=
  match a.findBlock hash with
  | none => best
  | some b =>
    if b.seen ≠ ledgerCount then best
    else
      match computedHeight hash with
      | none => best
      | some height =>
        if best.2 < height ∨ height = best.2 ∧ hash < best.1 then (hash, height) else best

/-- `commonRoot` and `commonRootHeight`. -/
def commonRoot (ledgerCount : Nat) (computedHeight : String → Option Nat) : String × Nat :=
  (iter.order a.hashes).foldl (a.commonRootStep ledgerCount computedHeight) (GENESIS, 0)

/-- The walk of Bitcoin from the common root back to GENESIS. -/
structure Walk where
  current : String
  steps : Nat := 0
  parasites : Nat := 0

/-- Whether the walk may go on to a parent: it has a height, one less than the current block's. -/
def oneLower (computedHeight : String → Option Nat) (currentHeight : Option Nat) (parent : String) : Bool :=
  match computedHeight parent, currentHeight with
  | none, _ => false
  | some _, none => true
  | some parentHeight, some currentHeight => parentHeight + 1 = currentHeight

/-- `nextParent`, the first parent that is one lower than the current block; `""` if there is none. -/
def nextParent (computedHeight : String → Option Nat) (parents : List String) (currentHeight : Option Nat) :
    String :=
  (parents.find? (oneLower computedHeight currentHeight)).getD ""

/-- The loop that counts `parasitesOnCommonPath`; an early `break` is where the walk stops before GENESIS. -/
def walkLoop (computedHeight : String → Option Nat) : Nat → Walk → Option Walk
  | 0, walk => if walk.current = GENESIS then some walk else none
  | fuel + 1, walk =>
    if walk.current = GENESIS then some walk
    else
      match a.findBlock walk.current with
      | none => some walk
      | some b =>
        let parasites := if b.parasite then walk.parasites + 1 else walk.parasites
        let next := nextParent computedHeight b.parents (computedHeight walk.current)
        if next = "" then some { walk with parasites := parasites }
        else walkLoop computedHeight fuel ⟨next, walk.steps + 1, parasites⟩

/-- What Bitcoin reports of the chains, and the walk on the way. -/
structure Metrics where
  computedHeight : String → Option Nat
  longestChain : Nat
  commonRoot : String
  commonRootHeight : Nat
  walk : Walk

/-- The metrics; the sets of children and the two maps have an order each. -/
def metrics (children blocks heights : IterationOrder) (ledgerCount fuel : Nat) : Option Metrics := do
  let computedHeight ← a.computedHeight children fuel
  let root := a.commonRoot blocks ledgerCount computedHeight
  let walk ← a.walkLoop computedHeight fuel { current := root.1 }
  some {
    computedHeight := computedHeight
    longestChain := a.longestChain heights computedHeight
    commonRoot := root.1
    commonRootHeight := root.2
    walk := walk }

/-- `longestDepthFrom`, with `depthActive` and `depthMemo`. -/
def longestDepthFrom (computedHeight : String → Option Nat) :
    Nat → List String → (String → Option Nat) → String → Option (Nat × (String → Option Nat))
  | 0, _, _, _ => none
  | fuel + 1, depthActive, depthMemo, hash =>
    if hash ∈ depthActive then some (0, depthMemo)
    else
      match depthMemo hash with
      | some depth => some (depth, depthMemo)
      | none => do
        let (best, depthMemo) ← (iter.order (a.children hash)).foldlM
          (fun (best, depthMemo) child =>
            if (computedHeight child).isNone then some (best, depthMemo)
            else do
              let (depth, depthMemo) ← longestDepthFrom computedHeight fuel (hash :: depthActive) depthMemo child
              some (max best (1 + depth), depthMemo))
          (0, depthMemo)
        some (best, Function.update depthMemo hash (some best))

/-- `parasitesOnCommonPath` of Ethereum: the parasites on the whole GHOST path after GENESIS. -/
def parasitesOnPath (ghostPath : List String) : Nat :=
  (ghostPath.drop 1).countP fun hash => ((a.findBlock hash).map BlockAggregate.parasite).getD false

end Aggregated

end Quantas
