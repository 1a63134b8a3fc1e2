import Quantas.Pow.Weights

/-!
# Heights of blocks with several parents

`propagateUpdates` visits every block below the new one once, breadth first. A block with several parents may
be visited before one of them, and then its height is computed from what that parent had before. Heights are
never too great (`Carries`). They stay right in a call exactly when every block that the call completes has, at
its visit, a parent of the greatest height that has it already (`VisitedInTime`).
-/

namespace Quantas

open Lib.Dag (Longest)

/-- Finitely many blocks, each but GENESIS with some parents, without a cycle. -/
structure BlockDag where
  blocks : Finset String
  parents : String → List String
  genesis_mem : GENESIS ∈ blocks
  genesis_parents : parents GENESIS = []
  parents_ne_nil : ∀ b ∈ blocks, b ≠ GENESIS → parents b ≠ []
  parents_mem : ∀ b ∈ blocks, ∀ x ∈ parents b, x ∈ blocks
  acyclic : ∀ x, ¬ Relation.TransGen (fun b x => b ∈ blocks ∧ x ∈ parents b) x x

variable {D : BlockDag} {p : PoW} {prefer : PreferCandidate}

namespace BlockDag

def dag (D : BlockDag) : Lib.Dag String where
  Edge b x := b ∈ D.blocks ∧ x ∈ D.parents b
  vertices := D.blocks
  mem _ _ h := D.parents_mem _ h.1 _ h.2
  acyclic := D.acyclic

/-- The length of the longest way to GENESIS. -/
noncomputable def height (D : BlockDag) (b : String) : Nat := D.dag.depth b

def Complete (D : BlockDag) (known : String → Prop) (b : String) : Prop := ∀ x, D.dag.Reach b x → known x

theorem Complete.parent {known : String → Prop} {b x : String} (hb : D.Complete known b) (hmem : b ∈ D.blocks)
    (hx : x ∈ D.parents b) : D.Complete known x :=
  fun y hy => hb y (Relation.ReflTransGen.head (show D.dag.Edge b x from ⟨hmem, hx⟩) hy)

theorem complete_of_all {known : String → Prop} (hall : ∀ x ∈ D.blocks, known x) {b : String} (hb : b ∈ D.blocks) :
    D.Complete known b := by
  intro x hx
  apply hall
  induction hx with
  | refl => exact hb
  | tail _ hedge _ => exact D.parents_mem _ hedge.1 _ hedge.2

/-! ## Heights in the graph -/

theorem height_genesis : D.height GENESIS = 0 := by
  obtain ⟨y, hy⟩ := (Lib.Dag.deepest_depth (G := D.dag) GENESIS).1
  unfold height
  generalize D.dag.depth GENESIS = n at hy
  cases n with
  | zero => rfl
  | succ n =>
    obtain ⟨z, hedge, -⟩ := hy.exists_head
    have hz := hedge.2
    rw [D.genesis_parents] at hz
    cases hz

theorem height_parent {b x : String} (hb : b ∈ D.blocks) (hx : x ∈ D.parents b) : D.height x + 1 ≤ D.height b := by
  obtain ⟨y, hy⟩ := (Lib.Dag.deepest_depth (G := D.dag) x).1
  exact (Lib.Dag.deepest_depth (G := D.dag) b).2 _ y (hy.head ⟨hb, hx⟩)

theorem exists_height_parent {b : String} (hb : b ∈ D.blocks) (hne : b ≠ GENESIS) :
    ∃ x ∈ D.parents b, D.height x + 1 = D.height b := by
  have hdepth : (D.parents b).foldl (fun best y => max best (1 + D.dag.depth y)) 0 = D.dag.depth b :=
    Lib.Dag.foldl_depth fun y => (and_iff_right hb).symm
  obtain ⟨-, hall, hattained⟩ := Lib.Dag.foldl_max_spec (fun y => 1 + D.dag.depth y) (D.parents b) 0
  rw [hdepth] at hall hattained
  rcases hattained with hzero | ⟨x, hx, heq⟩
  · obtain ⟨x, hx⟩ := List.exists_mem_of_ne_nil _ (D.parents_ne_nil b hb hne)
    have := hall x hx
    omega
  · exact ⟨x, hx, by rw [height, height, heq, add_comm]⟩

theorem height_longest {b : String} (hb : b ∈ D.blocks) : Longest D.dag.Edge b GENESIS (D.height b) := by
  refine ⟨?_, fun m hm => (Lib.Dag.deepest_depth (G := D.dag) b).2 m _ hm⟩
  revert hb
  refine D.dag.induction (motive := fun b => b ∈ D.blocks → Lib.Dag.Steps D.dag.Edge (D.height b) b GENESIS)
    (fun b ih hb => ?_) b
  by_cases hne : b = GENESIS
  · rw [hne, height_genesis]
    exact .refl _
  · obtain ⟨x, hx, heq⟩ := exists_height_parent hb hne
    rw [← heq]
    exact (ih x ⟨hb, hx⟩ (D.parents_mem b hb x hx)).head ⟨hb, hx⟩

end BlockDag

/-! ## Stored heights -/

namespace PoW

def heightOf (p : PoW) (hash : String) : Int :=
  match p.findBlock hash with
  | none => 0
  | some b => b.height

/-- What `recomputeHeight` stores for a block with these parents. -/
def recomputedHeight (p : PoW) (parents : List String) : Int :=
  if parents = [] then 0
  else if 0 ≤ p.maxParentHeight parents (-1) then p.maxParentHeight parents (-1) + 1 else 0

theorem heightOf_of_findBlock {x : String} {b : BlockRecord} (h : p.findBlock x = some b) :
    p.heightOf x = b.height := by
  unfold heightOf
  rw [h]

theorem maxParentHeight_spec (parents : List String) (m : Int) :
    ((∃ x ∈ parents, p.findBlock x = none) ∧ p.maxParentHeight parents m = -1) ∨
      (∀ x ∈ parents, (p.findBlock x).isSome) ∧ m ≤ p.maxParentHeight parents m ∧
        (∀ x ∈ parents, p.heightOf x ≤ p.maxParentHeight parents m) ∧
        (p.maxParentHeight parents m = m ∨ ∃ x ∈ parents, p.maxParentHeight parents m = p.heightOf x) := by
  induction parents generalizing m with
  | nil => exact .inr ⟨by simp, le_rfl, by simp, .inl rfl⟩
  | cons x parents ih =>
    rw [maxParentHeight]
    cases hx : p.findBlock x with
    | none => exact .inl ⟨⟨x, List.mem_cons_self, hx⟩, rfl⟩
    | some b =>
      dsimp only
      have hheight := heightOf_of_findBlock hx
      rcases ih (max m b.height) with ⟨⟨y, hy, hnone⟩, heq⟩ | ⟨hall, hle, hbound, hattained⟩
      · exact .inl ⟨⟨y, List.mem_cons_of_mem x hy, hnone⟩, heq⟩
      · refine .inr ⟨fun y hy => ?_, (le_max_left _ _).trans hle, fun y hy => ?_, ?_⟩
        · rcases List.mem_cons.mp hy with rfl | hy
          · rw [hx]
            rfl
          · exact hall y hy
        · rcases List.mem_cons.mp hy with rfl | hy
          · rw [hheight]
            exact (le_max_right _ _).trans hle
          · exact hbound y hy
        · rcases hattained with heq | ⟨y, hy, heq⟩
          · rcases max_choice m b.height with hmax | hmax
            · exact .inl (heq.trans hmax)
            · exact .inr ⟨x, List.mem_cons_self, by rw [hheight, heq, hmax]⟩
          · exact .inr ⟨y, List.mem_cons_of_mem x hy, heq⟩

theorem recomputedHeight_low (parents : List String) : 0 ≤ p.recomputedHeight parents ∧
    (p.recomputedHeight parents = 0 ∨ ∃ x ∈ parents, p.recomputedHeight parents = p.heightOf x + 1) := by
  unfold recomputedHeight
  by_cases hnil : parents = []
  · rw [if_pos hnil]
    exact ⟨le_rfl, .inl rfl⟩
  rw [if_neg hnil]
  by_cases hnonneg : 0 ≤ p.maxParentHeight parents (-1)
  · rw [if_pos hnonneg]
    refine ⟨by omega, .inr ?_⟩
    rcases maxParentHeight_spec (p := p) parents (-1) with ⟨-, heq⟩ | ⟨-, -, -, heq | ⟨x, hx, heq⟩⟩
    · omega
    · omega
    · exact ⟨x, hx, by rw [heq]⟩
  · rw [if_neg hnonneg]
    exact ⟨le_rfl, .inl rfl⟩

theorem recomputedHeight_greatest {parents : List String} (hne : parents ≠ [])
    (hparents : ∀ x ∈ parents, (p.findBlock x).isSome ∧ 0 ≤ p.heightOf x) :
    (∀ x ∈ parents, p.heightOf x + 1 ≤ p.recomputedHeight parents) ∧
      ∃ x ∈ parents, p.recomputedHeight parents = p.heightOf x + 1 := by
  obtain ⟨y, hy⟩ := List.exists_mem_of_ne_nil _ hne
  rcases maxParentHeight_spec (p := p) parents (-1) with ⟨⟨x, hx, hnone⟩, -⟩ | ⟨-, -, hbound, hattained⟩
  · have hknown := (hparents x hx).1
    rw [hnone] at hknown
    cases hknown
  · have hnonneg := (hparents y hy).2
    have hle := hbound y hy
    unfold recomputedHeight
    rw [if_neg hne, if_pos (by omega)]
    refine ⟨fun x hx => ?_, ?_⟩
    · have := hbound x hx
      omega
    · rcases hattained with heq | ⟨x, hx, heq⟩
      · omega
      · exact ⟨x, hx, by rw [heq]⟩

theorem blocks_maybePromoteBest (x : String) : (p.maybePromoteBest prefer x).blocks = p.blocks := by
  unfold maybePromoteBest
  cases p.findBlock x with
  | none => rfl
  | some b =>
    dsimp only
    split_ifs <;> rfl

theorem findBlock_visit (x y : String) : (p.visit prefer x).findBlock y =
    (p.findBlock y).map fun b => if y = x then { b with height := p.recomputedHeight b.parents } else b := by
  have hblocks : (p.visit prefer x).findBlock y = (p.recomputeHeight x).findBlock y := by
    unfold visit findBlock
    rw [blocks_maybePromoteBest]
  rw [hblocks]
  unfold recomputeHeight
  cases hx : p.findBlock x with
  | none =>
    dsimp only
    by_cases hyx : y = x
    · rw [hyx, hx]
      rfl
    · simp [hyx]
  | some b =>
    have hset : ∀ n : Int, p.recomputedHeight b.parents = n →
        (p.modify x fun b => { b with height := n }).findBlock y =
          (p.findBlock y).map fun b => if y = x then { b with height := p.recomputedHeight b.parents } else b := by
      rintro n rfl
      rw [findBlock_setHeight]
      by_cases hyx : y = x
      · rw [hyx, hx]
        simp
      · simp [hyx]
    dsimp only
    by_cases hnil : b.parents = []
    · rw [if_pos hnil]
      exact hset 0 (if_pos hnil)
    · rw [if_neg hnil]
      exact hset _ (if_neg hnil)

theorem heightOf_visit {x : String} {b : BlockRecord} (hx : p.findBlock x = some b) (y : String) :
    (p.visit prefer x).heightOf y = if y = x then p.recomputedHeight b.parents else p.heightOf y := by
  unfold heightOf
  rw [findBlock_visit]
  by_cases hyx : y = x
  · rw [hyx, hx]
    simp
  · simp only [hyx, if_false]
    cases p.findBlock y <;> rfl

end PoW

/-! ## Ledgers of the graph -/

/-- The ledger has blocks of the graph, and no height is too great. -/
structure Carries (D : BlockDag) (p : PoW) : Prop where
  linked : p.Linked
  drawn : ∀ link ∈ p.links, link.1 ∈ D.blocks ∧ link.2 = D.parents link.1
  low : ∀ x b, p.findBlock x = some b → 0 ≤ b.height ∧ b.height ≤ D.height x

/-- Every block whose whole ancestry is registered has its height stored: GENESIS has 0, any other block one
more than the greatest height of its parents. -/
def HeightsExact (D : BlockDag) (p : PoW) : Prop :=
  ∀ b ∈ p.blocks, D.Complete (fun x => (p.findBlock x).isSome) b.hash →
    (b.hash = GENESIS → b.height = 0) ∧
      (b.hash ≠ GENESIS → IsGreatest {n | ∃ x ∈ b.parents, n = p.heightOf x + 1} b.height)

def Exact (D : BlockDag) (p : PoW) : Prop :=
  ∀ x, D.Complete (fun y => (p.findBlock y).isSome) x → p.heightOf x = D.height x

theorem PoW.Linked.congr {q : PoW} (hp : p.Linked) (hlinks : q.links = p.links) (hchildren : q.children = p.children) :
    q.Linked where
  nodup := hlinks ▸ hp.nodup
  genesis := hlinks ▸ hp.genesis
  children := by
    rw [hlinks, hchildren]
    exact hp.children
  nodupChildren := hchildren ▸ hp.nodupChildren

namespace Carries

theorem fresh : Carries D PoW.fresh where
  linked := .fresh
  drawn := by
    intro link hlink
    rw [List.mem_singleton.mp hlink]
    exact ⟨D.genesis_mem, D.genesis_parents.symm⟩
  low := by
    intro x b hb
    have hmem := List.mem_singleton.mp (List.mem_of_find?_eq_some hb)
    rw [hmem]
    exact ⟨le_rfl, Int.natCast_nonneg _⟩

variable (hp : Carries D p)
include hp

theorem record {x : String} {b : BlockRecord} (hb : p.findBlock x = some b) :
    x ∈ D.blocks ∧ b.parents = D.parents x :=
  hp.drawn _ (PoW.mem_links_of_findBlock hb)

theorem mem_blocks {x : String} (hx : (p.findBlock x).isSome) : x ∈ D.blocks := by
  obtain ⟨b, hb⟩ := Option.isSome_iff_exists.mp hx
  exact (hp.record hb).1

theorem heightOf_low (x : String) : 0 ≤ p.heightOf x ∧ p.heightOf x ≤ D.height x := by
  cases hb : p.findBlock x with
  | none =>
    unfold PoW.heightOf
    rw [hb]
    exact ⟨le_rfl, Int.natCast_nonneg _⟩
  | some b =>
    rw [PoW.heightOf_of_findBlock hb]
    exact hp.low x b hb

theorem visit (x : String) : Carries D (p.visit prefer x) where
  linked := hp.linked.congr (PoW.links_visit x) (PoW.children_visit x)
  drawn := by
    rw [PoW.links_visit]
    exact hp.drawn
  low := by
    intro y b hb
    rw [PoW.findBlock_visit] at hb
    obtain ⟨b', hb', rfl⟩ := Option.map_eq_some_iff.mp hb
    by_cases hyx : y = x
    · rw [if_pos hyx]
      dsimp only
      obtain ⟨hmem, hparents⟩ := hp.record hb'
      obtain ⟨hnonneg, hattained⟩ := PoW.recomputedHeight_low (p := p) b'.parents
      refine ⟨hnonneg, ?_⟩
      rcases hattained with heq | ⟨u, hu, heq⟩
      · rw [heq]
        exact Int.natCast_nonneg _
      · have hlow := (hp.heightOf_low u).2
        have hheight := BlockDag.height_parent hmem (hparents ▸ hu)
        omega
    · rw [if_neg hyx]
      exact hp.low y b' hb'

theorem foldl_visit (l : List String) : Carries D (l.foldl (fun p x => p.visit prefer x) p) := by
  induction l generalizing p with
  | nil => exact hp
  | cons x l ih => exact ih (hp.visit x)

theorem exact_iff : Exact D p ↔ HeightsExact D p := by
  constructor
  · intro hexact b hb hcomplete
    have hfind := hp.linked.findBlock_of_mem hb
    obtain ⟨hmem, hparents⟩ := hp.record hfind
    have hheight := hexact b.hash hcomplete
    rw [PoW.heightOf_of_findBlock hfind] at hheight
    refine ⟨fun hroot => ?_, fun hne => ?_⟩
    · rw [hheight, hroot, BlockDag.height_genesis]
      rfl
    · have hall : ∀ x ∈ b.parents, p.heightOf x = D.height x := fun x hx =>
        hexact x (hcomplete.parent hmem (hparents ▸ hx))
      obtain ⟨x, hx, heq⟩ := BlockDag.exists_height_parent hmem hne
      rw [← hparents] at hx
      refine ⟨⟨x, hx, ?_⟩, ?_⟩
      · rw [hall x hx, hheight, ← heq]
        rfl
      · rintro n ⟨y, hy, rfl⟩
        have hlow := BlockDag.height_parent hmem (hparents ▸ hy)
        rw [hall y hy, hheight]
        exact_mod_cast hlow
  · intro hlocal x
    refine D.dag.induction (motive := fun x => D.Complete (fun y => (p.findBlock y).isSome) x →
      p.heightOf x = D.height x) (fun x ih hcomplete => ?_) x
    obtain ⟨b, hfind⟩ := Option.isSome_iff_exists.mp (hcomplete x .refl)
    obtain ⟨hmem, hparents⟩ := hp.record hfind
    have hhash := PoW.findBlock_hash hfind
    obtain ⟨hroot, hgreatest⟩ := hlocal b (List.mem_of_find?_eq_some hfind) (hhash ▸ hcomplete)
    rw [hhash] at hroot hgreatest
    rw [PoW.heightOf_of_findBlock hfind]
    by_cases hne : x = GENESIS
    · rw [hroot hne, hne, BlockDag.height_genesis]
      rfl
    · obtain ⟨⟨u, hu, heq⟩, hbound⟩ := hgreatest hne
      obtain ⟨v, hv, hheight⟩ := BlockDag.exists_height_parent hmem hne
      rw [hparents] at hu
      have hleu := ih u ⟨hmem, hu⟩ (hcomplete.parent hmem hu)
      have hlev := ih v ⟨hmem, hv⟩ (hcomplete.parent hmem hv)
      have hlow := BlockDag.height_parent hmem hu
      have hle := hbound ⟨v, hparents ▸ hv, rfl⟩
      omega

end Carries

/-! ## One call -/

def Registration.FromDag (D : BlockDag) (c : Registration) : Prop :=
  c.hash ∈ D.blocks ∧ (c.hash = GENESIS ∨ c.parents = D.parents c.hash)

namespace PoW

def visitOrder (p : PoW) (c : Registration) : List String :=
  Lib.visitAll (p.linkToParents c.hash c.parents) enqueueAll (p.loopFuel + c.parents.length) [c.hash] []

def insertBlock (p : PoW) (c : Registration) : PoW :=
  { p with
      blocks := p.blocks ++
        [{ hash := c.hash, parents := c.parents, miner := c.miner, parasite := c.parasiteFlag }]
      children := p.linkToParents c.hash c.parents }

variable {c : Registration}

theorem nodup_visitOrder (c : Registration) : (p.visitOrder c).Nodup :=
  Lib.nodup_visitAll Holds.enqueueAll_perm _ _

theorem loopFuel_insertBlock (c : Registration) : (p.insertBlock c).loopFuel = p.loopFuel + c.parents.length := by
  unfold loopFuel parentReferences insertBlock
  dsimp only
  rw [List.map_append, List.sum_append]
  simp only [List.map_cons, List.map_nil, List.sum_singleton]
  omega

theorem blocks_registerBlock (hnew : p.findBlock c.hash = none) :
    (p.registerBlock prefer c.hash c.parents c.miner c.parasiteFlag).blocks =
      ((p.visitOrder c).foldl (fun p x => p.visit prefer x) (p.insertBlock c)).blocks := by
  have hensure : ∀ q : PoW, (q.ensureBestValid prefer).blocks = q.blocks := by
    intro q
    unfold ensureBestValid
    split_ifs <;> rfl
  have horder : Lib.visitAll (p.insertBlock c).children enqueueAll (p.insertBlock c).loopFuel [c.hash] [] =
      [] ++ p.visitOrder c := by
    rw [loopFuel_insertBlock]
    rfl
  have hloop : propagateLoop prefer (p.insertBlock c).loopFuel (p.insertBlock c) [c.hash] [] =
      (p.visitOrder c).foldl (fun p x => p.visit prefer x) (p.insertBlock c) :=
    propagateLoop_eq _ _ _ _ _ horder
  unfold registerBlock
  rw [hnew]
  exact (hensure _).trans (congrArg blocks hloop)

theorem findBlock_insertBlock (hnew : p.findBlock c.hash = none) (x : String) :
    (p.insertBlock c).findBlock x = if x = c.hash then some
      { hash := c.hash, parents := c.parents, miner := c.miner, parasite := c.parasiteFlag } else p.findBlock x := by
  unfold insertBlock findBlock
  dsimp only
  rw [List.find?_append]
  by_cases hx : x = c.hash
  · subst hx
    unfold findBlock at hnew
    rw [hnew, if_pos rfl]
    simp
  · rw [if_neg hx]
    have hne : c.hash ≠ x := fun heq => hx heq.symm
    simp [hne]

theorem isSome_insertBlock (hnew : p.findBlock c.hash = none) (x : String) :
    ((p.insertBlock c).findBlock x).isSome ↔ x = c.hash ∨ (p.findBlock x).isSome := by
  rw [findBlock_insertBlock hnew]
  by_cases hx : x = c.hash
  · simp [hx]
  · simp [hx]

theorem heightOf_insertBlock (hnew : p.findBlock c.hash = none) (x : String) :
    (p.insertBlock c).heightOf x = p.heightOf x := by
  unfold heightOf
  rw [findBlock_insertBlock hnew]
  by_cases hx : x = c.hash
  · rw [if_pos hx, hx, hnew]
  · rw [if_neg hx]

/-! ## A pass of visits over the heights -/

theorem heightOf_visit_of_ne {x y : String} (hyx : y ≠ x) : (p.visit prefer x).heightOf y = p.heightOf y := by
  unfold heightOf
  rw [findBlock_visit]
  simp only [hyx, if_false]
  cases p.findBlock y <;> rfl

theorem heightOf_foldl_visit {y : String} (l : List String) (hy : y ∉ l) :
    (l.foldl (fun p x => p.visit prefer x) p).heightOf y = p.heightOf y := by
  induction l generalizing p with
  | nil => rfl
  | cons x l ih =>
    obtain ⟨hyx, hy⟩ := not_or.mp (List.mem_cons.not.mp hy)
    exact (ih hy).trans (heightOf_visit_of_ne hyx)

theorem isSome_foldl_visit (l : List String) (y : String) :
    ((l.foldl (fun p x => p.visit prefer x) p).findBlock y).isSome = (p.findBlock y).isSome := by
  induction l generalizing p with
  | nil => rfl
  | cons x l ih =>
    refine ih.trans ?_
    rw [findBlock_visit, Option.isSome_map]

theorem mem_iff_idxOf_lt {l l₁ l₂ : List String} {x u : String} (hl : l = l₁ ++ x :: l₂) (hnodup : l.Nodup) :
    u ∈ l₁ ↔ l.idxOf u < l.idxOf x := by
  subst hl
  have hnot : x ∉ l₁ := fun hmem => (List.nodup_append.mp hnodup).2.2 x hmem x List.mem_cons_self rfl
  rw [List.idxOf_append_of_notMem hnot, List.idxOf_cons_self, Nat.add_zero]
  constructor
  · intro hu
    rw [List.idxOf_append_of_mem hu]
    exact List.idxOf_lt_length_of_mem hu
  · intro hlt
    by_contra hu
    rw [List.idxOf_append_of_notMem hu] at hlt
    omega

theorem heightOf_foldl_split {l l₁ l₂ : List String} {x : String} (hl : l = l₁ ++ x :: l₂) (hnodup : l.Nodup)
    {b : BlockRecord} (hb : (l₁.foldl (fun p x => p.visit prefer x) p).findBlock x = some b) :
    (l.foldl (fun p x => p.visit prefer x) p).heightOf x =
      (l₁.foldl (fun p x => p.visit prefer x) p).recomputedHeight b.parents := by
  subst hl
  have hnot : x ∉ l₂ := (List.nodup_cons.mp (List.nodup_append.mp hnodup).2.1).1
  rw [List.foldl_append, List.foldl_cons, heightOf_foldl_visit l₂ hnot, heightOf_visit hb, if_pos rfl]

theorem heightOf_foldl_before {l l₁ l₂ : List String} {x u : String} (hl : l = l₁ ++ x :: l₂) (hnodup : l.Nodup)
    (hu : u ∈ l₁ ∨ u ∉ l) : (l₁.foldl (fun p x => p.visit prefer x) p).heightOf u =
      (l.foldl (fun p x => p.visit prefer x) p).heightOf u := by
  subst hl
  have hnot : u ∉ x :: l₂ := by
    rcases hu with hu | hu
    · exact fun hmem => (List.nodup_append.mp hnodup).2.2 u hu u hmem rfl
    · exact fun hmem => hu (List.mem_append_right _ hmem)
  rw [List.foldl_append, heightOf_foldl_visit _ hnot]

end PoW

/-- At its visit every block that the call completes has a parent of the greatest height that has this height:
because it is not below the new block, because it was visited before, or because it happened to have it. -/
def VisitedInTime (D : BlockDag) (p : PoW) (c : Registration) : Prop :=
  p.findBlock c.hash = none → ∀ x ∈ p.visitOrder c,
    D.Complete (fun y => y = c.hash ∨ (p.findBlock y).isSome) x →
    ∃ u ∈ D.parents x, D.height u + 1 = D.height x ∧
      (u ∉ p.visitOrder c ∨ (p.visitOrder c).idxOf u < (p.visitOrder c).idxOf x ∨ p.heightOf u = D.height u)

namespace Carries
variable (hp : Carries D p) {c : Registration}
include hp

theorem genesis_known : (p.findBlock GENESIS).isSome :=
  (PoW.findBlock_isSome_iff GENESIS).mpr (List.mem_map.mpr ⟨_, hp.linked.genesis, rfl⟩)

theorem ne_genesis (hnew : p.findBlock c.hash = none) : c.hash ≠ GENESIS := by
  intro heq
  have hknown := hp.genesis_known
  rw [← heq, hnew] at hknown
  cases hknown

theorem insertBlock (hc : c.FromDag D) (hnew : p.findBlock c.hash = none) : Carries D (p.insertBlock c) where
  linked := by
    have hlinked : (p.registerBlock (fun _ _ _ => false) c.hash c.parents c.miner c.parasiteFlag).Linked :=
      hp.linked.registerBlock _ _ _ _
    have hunknown : ¬ (p.findBlock c.hash).isSome = true := by
      rw [hnew]
      decide
    refine hlinked.congr ?_ ?_
    · rw [PoW.links_registerBlock, if_neg hunknown]
      unfold PoW.links PoW.insertBlock
      rw [List.map_append]
      rfl
    · rw [PoW.children_registerBlock, if_neg hunknown]
      rfl
  drawn := by
    intro link hlink
    have hlinks : (p.insertBlock c).links = p.links ++ [(c.hash, c.parents)] := by
      unfold PoW.links PoW.insertBlock
      rw [List.map_append]
      rfl
    rw [hlinks] at hlink
    rcases List.mem_append.mp hlink with hlink | hlink
    · exact hp.drawn link hlink
    · rw [List.mem_singleton.mp hlink]
      exact ⟨hc.1, hc.2.resolve_left (hp.ne_genesis hnew)⟩
  low := by
    intro x b hb
    rw [PoW.findBlock_insertBlock hnew] at hb
    by_cases hx : x = c.hash
    · rw [if_pos hx, Option.some_inj] at hb
      rw [← hb]
      exact ⟨le_rfl, Int.natCast_nonneg _⟩
    · rw [if_neg hx] at hb
      exact hp.low x b hb

theorem mem_visitOrder (hc : c.FromDag D) (hnew : p.findBlock c.hash = none) {x : String}
    (hx : D.Complete (fun y => y = c.hash ∨ (p.findBlock y).isSome) x) :
    x ∈ p.visitOrder c ↔ D.dag.Reach x c.hash := by
  have hp' := hp.insertBlock hc hnew
  have hknown : ∀ y, y ∈ ((p.insertBlock c).links.map Prod.fst).toFinset ↔
      y = c.hash ∨ (p.findBlock y).isSome := by
    intro y
    rw [List.mem_toFinset, ← PoW.findBlock_isSome_iff, PoW.isSome_insertBlock hnew]
  have hedge : ∀ u y, y ∈ (p.insertBlock c).children u ↔
      (y = c.hash ∨ (p.findBlock y).isSome) ∧ D.dag.Edge y u := by
    intro u y
    rw [hp'.linked.children, ← hknown, List.mem_toFinset, List.mem_map]
    constructor
    · rintro ⟨parents, hlink, hu⟩
      obtain ⟨hmem, hparents⟩ := hp'.drawn _ hlink
      exact ⟨⟨_, hlink, rfl⟩, hmem, hparents ▸ hu⟩
    · rintro ⟨⟨link, hlink, rfl⟩, -, hu⟩
      exact ⟨link.2, hlink, (hp'.drawn link hlink).2 ▸ hu⟩
  have hclosed : ∀ u ∈ ((p.insertBlock c).links.map Prod.fst).toFinset, ∀ y ∈ (p.insertBlock c).children u,
      y ∈ ((p.insertBlock c).links.map Prod.fst).toFinset :=
    fun u _ y hy => (hknown y).mpr ((hedge u y).mp hy).1
  have hfuel := hp'.linked.sum_children_le ((p.insertBlock c).links.map Prod.fst).toFinset
  have hvisit : x ∈ p.visitOrder c ↔
      Relation.ReflTransGen (fun u y => y ∈ (p.insertBlock c).children u) c.hash x := by
    refine Lib.mem_visitAll Holds.enqueueAll_perm hclosed ((hknown c.hash).mpr (.inl rfl)) ?_
    rw [← PoW.loopFuel_insertBlock]
    unfold PoW.loopFuel
    exact lt_of_le_of_lt (Nat.add_le_add_left hfuel 1) (by omega)
  rw [hvisit]
  clear hvisit
  constructor
  · intro hreach
    induction hreach with
    | refl => exact .refl
    | tail _ hy ih =>
      have hedge' := ((hedge _ _).mp hy).2
      exact .head hedge' (ih fun z hz => hx z (.head hedge' hz))
  · intro hreach
    induction hreach using Relation.ReflTransGen.head_induction_on with
    | refl => exact .refl
    | head hy _ ih =>
      exact (ih fun z hz => hx z (.head hy hz)).tail ((hedge _ _).mpr ⟨hx _ .refl, hy⟩)

theorem exact_visits_iff (hexact : Exact D p) (hc : c.FromDag D) (hnew : p.findBlock c.hash = none) :
    Exact D ((p.visitOrder c).foldl (fun p x => p.visit prefer x) (p.insertBlock c)) ↔ VisitedInTime D p c := by
  have hp' := hp.insertBlock hc hnew
  have hknown : ∀ l : List String, ∀ y, ((l.foldl (fun p x => p.visit prefer x) (p.insertBlock c)).findBlock y).isSome ↔
      y = c.hash ∨ (p.findBlock y).isSome := by
    intro l y
    rw [PoW.isSome_foldl_visit, PoW.isSome_insertBlock hnew]
  have hcarries : ∀ l : List String, Carries D (l.foldl (fun p x => p.visit prefer x) (p.insertBlock c)) :=
    fun l => hp'.foldl_visit l
  have hnodup := PoW.nodup_visitOrder (p := p) c
  -- the ledger at the visit of a complete block
  have hvisit : ∀ x ∈ p.visitOrder c, D.Complete (fun y => y = c.hash ∨ (p.findBlock y).isSome) x →
      ∃ l₁ l₂, p.visitOrder c = l₁ ++ x :: l₂ ∧ x ∈ D.blocks ∧ x ≠ GENESIS ∧
        ((p.visitOrder c).foldl (fun p x => p.visit prefer x) (p.insertBlock c)).heightOf x =
          (l₁.foldl (fun p x => p.visit prefer x) (p.insertBlock c)).recomputedHeight (D.parents x) := by
    intro x hx hcomplete
    obtain ⟨l₁, l₂, hsplit⟩ := List.append_of_mem hx
    obtain ⟨b, hb⟩ := Option.isSome_iff_exists.mp ((hknown l₁ x).mpr (hcomplete x .refl))
    obtain ⟨hmem, hparents⟩ := (hcarries l₁).record hb
    refine ⟨l₁, l₂, hsplit, hmem, ?_, hparents ▸ PoW.heightOf_foldl_split hsplit hnodup hb⟩
    rintro rfl
    rcases ((hp.mem_visitOrder hc hnew hcomplete).mp hx).cases_head with heq | ⟨y, hedge, -⟩
    · exact hp.ne_genesis hnew heq.symm
    · have hy := hedge.2
      rw [D.genesis_parents] at hy
      cases hy
  have hstale : ∀ (l₁ : List String) {u : String}, u ∉ l₁ →
      (l₁.foldl (fun p x => p.visit prefer x) (p.insertBlock c)).heightOf u = p.heightOf u :=
    fun l₁ u hu => (PoW.heightOf_foldl_visit l₁ hu).trans (PoW.heightOf_insertBlock hnew u)
  constructor
  · intro hafter _ x hx hcomplete
    obtain ⟨l₁, l₂, hsplit, hmem, hne, hheight⟩ := hvisit x hx hcomplete
    rw [hafter x fun y hy => (hknown _ y).mpr (hcomplete y hy)] at hheight
    obtain ⟨w, hw, hpos⟩ := BlockDag.exists_height_parent hmem hne
    obtain ⟨-, hzero | ⟨u, hu, heq⟩⟩ := PoW.recomputedHeight_low
      (p := l₁.foldl (fun p x => p.visit prefer x) (p.insertBlock c)) (D.parents x)
    · omega
    · have hlow := ((hcarries l₁).heightOf_low u).2
      have hparent := BlockDag.height_parent hmem hu
      refine ⟨u, hu, by omega, ?_⟩
      by_cases hbeforeU : u ∈ l₁
      · exact .inr (.inl ((PoW.mem_iff_idxOf_lt hsplit hnodup).mp hbeforeU))
      · refine .inr (.inr ?_)
        rw [← hstale l₁ hbeforeU]
        omega
  · intro htime x
    refine D.dag.induction (motive := fun x => D.Complete (fun y => (((p.visitOrder c).foldl
      (fun p x => p.visit prefer x) (p.insertBlock c)).findBlock y).isSome) x →
        ((p.visitOrder c).foldl (fun p x => p.visit prefer x) (p.insertBlock c)).heightOf x = D.height x)
      (fun x ih hafter => ?_) x
    have hcomplete : D.Complete (fun y => y = c.hash ∨ (p.findBlock y).isSome) x :=
      fun y hy => (hknown _ y).mp (hafter y hy)
    by_cases hx : x ∈ p.visitOrder c
    · obtain ⟨l₁, l₂, hsplit, hmem, hne, hheight⟩ := hvisit x hx hcomplete
      obtain ⟨u, hu, hhighest, hclause⟩ := htime hnew x hx hcomplete
      have hright : ∀ v ∈ D.parents x,
          ((p.visitOrder c).foldl (fun p x => p.visit prefer x) (p.insertBlock c)).heightOf v = D.height v :=
        fun v hv => ih v ⟨hmem, hv⟩ (hafter.parent hmem hv)
      -- at the visit of `x`, the parent `u` has its height
      have hu' : (l₁.foldl (fun p x => p.visit prefer x) (p.insertBlock c)).heightOf u = D.height u := by
        by_cases hbeforeU : u ∈ l₁
        · rw [PoW.heightOf_foldl_before hsplit hnodup (.inl hbeforeU)]
          exact hright u hu
        · rcases hclause with hnot | hlt | hstored
          · rw [PoW.heightOf_foldl_before hsplit hnodup (.inr hnot)]
            exact hright u hu
          · exact absurd ((PoW.mem_iff_idxOf_lt hsplit hnodup).mpr hlt) hbeforeU
          · rw [hstale l₁ hbeforeU]
            exact hstored
      have hlow := fun v => (hcarries l₁).heightOf_low v
      obtain ⟨hbound, v, hv, heq⟩ := PoW.recomputedHeight_greatest
        (p := l₁.foldl (fun p x => p.visit prefer x) (p.insertBlock c)) (D.parents_ne_nil x hmem hne)
        fun v hv => ⟨(hknown l₁ v).mpr (hcomplete.parent hmem hv v .refl), (hlow v).1⟩
      have hleu := hbound u hu
      have hlev := (hlow v).2
      have hparent := BlockDag.height_parent hmem hv
      omega
    · rw [hstale _ hx]
      apply hexact
      intro y hy
      refine (hcomplete y hy).resolve_left ?_
      rintro rfl
      exact hx ((hp.mem_visitOrder hc hnew hcomplete).mpr hy)

theorem congr {q : PoW} (hblocks : q.blocks = p.blocks) (hq : q.Linked) : Carries D q where
  linked := hq
  drawn := by
    have hlinks : q.links = p.links := by
      unfold PoW.links
      rw [hblocks]
    rw [hlinks]
    exact hp.drawn
  low := by
    intro x b hb
    unfold PoW.findBlock at hb
    rw [hblocks] at hb
    exact hp.low x b hb

omit hp in
theorem exact_congr {q : PoW} (hblocks : q.blocks = p.blocks) : Exact D q ↔ Exact D p := by
  unfold Exact PoW.heightOf PoW.findBlock
  rw [hblocks]

omit hp in
theorem findBlock_registerBlock_known {b : BlockRecord} (hb : p.findBlock c.hash = some b) (x : String) :
    (p.registerBlock prefer c.hash c.parents c.miner c.parasiteFlag).findBlock x =
      (p.findBlock x).map fun b => if x = c.hash then { b with parasite := b.parasite || c.parasiteFlag } else b := by
  unfold PoW.registerBlock
  rw [hb]
  exact PoW.findBlock_modify c.hash (fun b => { b with parasite := b.parasite || c.parasiteFlag })
    (fun _ => rfl) x

theorem registerBlock (hc : c.FromDag D) :
    Carries D (p.registerBlock prefer c.hash c.parents c.miner c.parasiteFlag) := by
  have hlinked : (p.registerBlock prefer c.hash c.parents c.miner c.parasiteFlag).Linked :=
    hp.linked.registerBlock _ _ _ _
  cases hfind : p.findBlock c.hash with
  | none =>
    have hcarries : Carries D ((p.visitOrder c).foldl (fun p x => p.visit prefer x) (p.insertBlock c)) :=
      (hp.insertBlock hc hfind).foldl_visit _
    exact hcarries.congr (PoW.blocks_registerBlock hfind) hlinked
  | some b =>
    refine ⟨hlinked, ?_, fun x b' hb' => ?_⟩
    · rw [PoW.links_registerBlock, if_pos (by rw [hfind]; rfl)]
      exact hp.drawn
    · rw [findBlock_registerBlock_known hfind] at hb'
      obtain ⟨b'', hb'', rfl⟩ := Option.map_eq_some_iff.mp hb'
      have hlow := hp.low x b'' hb''
      split_ifs <;> exact hlow

theorem exact_registerBlock_iff (hexact : Exact D p) (hc : c.FromDag D) :
    Exact D (p.registerBlock prefer c.hash c.parents c.miner c.parasiteFlag) ↔ VisitedInTime D p c := by
  cases hfind : p.findBlock c.hash with
  | none =>
    rw [exact_congr (PoW.blocks_registerBlock hfind)]
    exact hp.exact_visits_iff hexact hc hfind
  | some b =>
    refine iff_of_true (fun x hx => ?_) fun hnew => ?_
    · have hheight : (p.registerBlock prefer c.hash c.parents c.miner c.parasiteFlag).heightOf x =
          p.heightOf x := by
        unfold PoW.heightOf
        rw [findBlock_registerBlock_known hfind]
        cases p.findBlock x with
        | none => rfl
        | some b =>
          rw [Option.map_some]
          dsimp only
          split_ifs <;> rfl
      rw [hheight]
      apply hexact
      intro y hy
      have hknown := hx y hy
      dsimp only at hknown
      rw [findBlock_registerBlock_known hfind, Option.isSome_map] at hknown
      exact hknown
    · rw [hfind] at hnew
      cases hnew

end Carries

/-! ## Runs -/

theorem exact_fresh : Exact D PoW.fresh := by
  intro x hx
  have hmem := (PoW.findBlock_isSome_iff x).mp (hx x .refl)
  rw [List.mem_singleton.mp hmem, BlockDag.height_genesis]
  rfl

theorem Carries.registerAll {calls : List Registration} (hcalls : ∀ c ∈ calls, c.FromDag D) :
    Carries D (PoW.fresh.registerAll prefer calls) := by
  induction calls using List.reverseRecOn with
  | nil => exact .fresh
  | append_singleton l c ih =>
    rw [PoW.registerAll_concat]
    exact (ih fun c' hc' => hcalls c' (List.mem_append_left _ hc')).registerBlock (hcalls c (by simp))

theorem exact_registerAll {calls : List Registration} (hcalls : ∀ c ∈ calls, c.FromDag D)
    (htime : ∀ l c, l ++ [c] <+: calls → VisitedInTime D (PoW.fresh.registerAll prefer l) c) :
    Exact D (PoW.fresh.registerAll prefer calls) := by
  induction calls using List.reverseRecOn with
  | nil => exact exact_fresh
  | append_singleton l c ih =>
    have hl : ∀ c' ∈ l, c'.FromDag D := fun c' hc' => hcalls c' (List.mem_append_left _ hc')
    have hexact := ih hl fun l' c' hinit => htime l' c' (hinit.trans (List.prefix_append l [c]))
    have hcarries : Carries D (PoW.fresh.registerAll prefer l) := .registerAll hl
    rw [PoW.registerAll_concat, hcarries.exact_registerBlock_iff hexact (hcalls c (by simp))]
    exact htime l c (List.prefix_refl _)

/-- **Heights of blocks with several parents.** For any graph of blocks and any calls about them, in any order,
the stored heights of the blocks with a complete ancestry are right after every call if and only if every call
visits the blocks that it completes in time. -/
theorem heights_exact_iff (prefer : PreferCandidate) (D : BlockDag) (calls : List Registration)
    (hcalls : ∀ c ∈ calls, c.FromDag D) :
    (∀ l, l <+: calls → HeightsExact D (PoW.fresh.registerAll prefer l)) ↔
      ∀ l c, l ++ [c] <+: calls → VisitedInTime D (PoW.fresh.registerAll prefer l) c := by
  have hcarries : ∀ l, l <+: calls → Carries D (PoW.fresh.registerAll prefer l) := fun l hl =>
    .registerAll fun c hc => hcalls c (hl.subset hc)
  constructor
  · intro hall l c hinit
    have hl := (List.prefix_append l [c]).trans hinit
    have hc : c.FromDag D := hcalls c (hinit.subset (by simp))
    have hbefore := (hcarries l hl).exact_iff.mpr (hall l hl)
    have hafter := (hcarries _ hinit).exact_iff.mpr (hall _ hinit)
    rw [PoW.registerAll_concat] at hafter
    exact ((hcarries l hl).exact_registerBlock_iff hbefore hc).mp hafter
  · intro htime l hl
    refine (hcarries l hl).exact_iff.mp (exact_registerAll (fun c hc => hcalls c (hl.subset hc)) ?_)
    exact fun l' c hinit => htime l' c (hinit.trans hl)

/-! ## A parent that is visited late -/

/-- Two blocks on `r`; the second one is also on the first. -/
def lateParentDag : BlockDag where
  blocks := {GENESIS, "r", "a", "c"}
  parents b := if b = "r" then [GENESIS] else if b = "a" then ["r"] else if b = "c" then ["r", "a"] else []
  genesis_mem := by decide
  genesis_parents := by decide
  parents_ne_nil := by decide
  parents_mem := by decide
  acyclic := by
    intro x h
    have hall : ∀ b ∈ ({GENESIS, "r", "a", "c"} : Finset String),
        ∀ y ∈ (if b = "r" then [GENESIS] else if b = "a" then ["r"] else if b = "c" then ["r", "a"] else []),
          (if b = "c" then 0 else if b = "a" then 1 else if b = "r" then 2 else 3) <
            if y = "c" then 0 else if y = "a" then 1 else if y = "r" then 2 else 3 := by
      decide
    exact Lib.Dag.acyclic_of_rank (fun b => if b = "c" then 0 else if b = "a" then 1 else if b = "r" then 2 else 3)
      (fun b y hedge => hall b hedge.1 y hedge.2) x h

/-- The last one first, and `r` at the end. -/
def lateParentCalls : List Registration := [⟨"c", ["r", "a"], 0, false⟩, ⟨"a", ["r"], 0, false⟩,
  ⟨"r", [GENESIS], 0, false⟩]

theorem lateParentCalls_fromDag : ∀ c ∈ lateParentCalls, c.FromDag lateParentDag := by
  unfold Registration.FromDag
  decide

/-- When `r` arrives, the last block is visited before its other parent: both have height 2. -/
theorem lateParent_heights_wrong :
    ¬ ∀ (D : BlockDag) (calls : List Registration), (∀ c ∈ calls, c.FromDag D) →
      ∀ l, l <+: calls → HeightsExact D (PoW.fresh.registerAll PoWBitcoin.preferCandidate l) := by
  intro hclaim
  have hexact := hclaim lateParentDag lateParentCalls lateParentCalls_fromDag lateParentCalls (List.prefix_refl _)
  have hstored : (⟨"c", ["r", "a"], 0, 2, false⟩ : BlockRecord) ∈
      (PoW.fresh.registerAll PoWBitcoin.preferCandidate lateParentCalls).blocks ∧
      (PoW.fresh.registerAll PoWBitcoin.preferCandidate lateParentCalls).heightOf "a" = 2 ∧
      ∀ x ∈ lateParentDag.blocks,
        ((PoW.fresh.registerAll PoWBitcoin.preferCandidate lateParentCalls).findBlock x).isSome = true := by
    decide +kernel
  obtain ⟨hmem, ha, hknown⟩ := hstored
  have hcomplete := BlockDag.complete_of_all hknown (show "c" ∈ lateParentDag.blocks by decide)
  have hbound := ((hexact _ hmem hcomplete).2 (by decide)).2 ⟨"a", by decide, rfl⟩
  rw [ha] at hbound
  exact absurd hbound (by decide)

theorem heights_exact_iff_lateParent :
    (∀ l, l <+: lateParentCalls →
      HeightsExact lateParentDag (PoW.fresh.registerAll PoWBitcoin.preferCandidate l)) ↔
    ∀ l c, l ++ [c] <+: lateParentCalls →
      VisitedInTime lateParentDag (PoW.fresh.registerAll PoWBitcoin.preferCandidate l) c :=
  heights_exact_iff PoWBitcoin.preferCandidate lateParentDag lateParentCalls lateParentCalls_fromDag

end Quantas
