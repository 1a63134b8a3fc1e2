import Quantas.Pow.Ghost
import Quantas.Pow.Metrics

/-!
# Parasites on the common path

Bitcoin counts `parasitesOnCommonPath` on its walk back from the common root, Ethereum along the whole GHOST
path. When the union of the ledgers is a tree, the walk meets the ancestors of the common root, and the GHOST
path has the blocks of the line of heaviest children (`GhostLine`). So both count the same parasites when none
lies on one of the two ways only (`NoneApart`); otherwise the values differ, unless each way has a parasite that
the other has not.
-/

namespace Quantas

open Lib.RootedTree
open Lib.Dag (Steps Longest)

variable {t : BlockTree} {a : Aggregated} {rs : List BlockRecord}

/-! ## The metric in the tree -/

/-- Some ledger has the block flagged as a parasite. -/
def FlaggedIn (ledgers : List PoW) (x : String) : Prop :=
  ∃ p ∈ ledgers, ∃ b ∈ p.blocks, b.hash = x ∧ b.parasite = true

/-- The highest block that every ledger knows, the one with the smallest hash. -/
structure CommonRoot (t : BlockTree) (ledgers : List PoW) (root : String) : Prop where
  known : ∀ p ∈ ledgers, (p.findBlock root).isSome
  highest : ∀ x, (∀ p ∈ ledgers, (p.findBlock x).isSome) →
    t.depth x < t.depth root ∨ t.depth x = t.depth root ∧ root ≤ x

/-- From GENESIS to the block one goes to the GHOST child at every step. -/
def GhostLine (t : BlockTree) (x : String) : Prop := ∀ y, y ≠ GENESIS → t.Anc y x → GhostChild t y

open Classical in
noncomputable def blocksWith (t : BlockTree) (P : String → Prop) : Finset String :=
  t.blocks.filter fun x => x ≠ GENESIS ∧ P x

noncomputable def countBlocks (t : BlockTree) (P : String → Prop) : Nat := (blocksWith t P).card

noncomputable def parasitesTo (t : BlockTree) (ledgers : List PoW) (root : String) : Nat :=
  countBlocks t fun x => t.Anc x root ∧ FlaggedIn ledgers x

/-- No parasite lies on one of the two ways only: the line of GHOST children, and the way from GENESIS to the
common root. -/
def NoneApart (t : BlockTree) (ledgers : List PoW) (root : String) : Prop :=
  ∀ x, FlaggedIn ledgers x → (GhostLine t x ↔ t.Anc x root)

/-- A parasite on the line of GHOST children that is not on the way to the common root. -/
def BeyondRoot (t : BlockTree) (ledgers : List PoW) (root : String) : Prop :=
  ∃ x, FlaggedIn ledgers x ∧ GhostLine t x ∧ ¬ t.Anc x root

/-- A parasite on the way to the common root that is not on the line of GHOST children. -/
def OffLine (t : BlockTree) (ledgers : List PoW) (root : String) : Prop :=
  ∃ x, FlaggedIn ledgers x ∧ t.Anc x root ∧ ¬ GhostLine t x

theorem mem_blocksWith {P : String → Prop} {x : String} :
    x ∈ blocksWith t P ↔ x ∈ t.blocks ∧ x ≠ GENESIS ∧ P x := by
  classical
  rw [blocksWith, Finset.mem_filter]

theorem countBlocks_congr {P Q : String → Prop} (h : ∀ x ∈ t.blocks, x ≠ GENESIS → (P x ↔ Q x)) :
    countBlocks t P = countBlocks t Q := by
  unfold countBlocks
  congr 1
  ext x
  rw [mem_blocksWith, mem_blocksWith]
  exact and_congr_right fun hx => and_congr_right fun hne => h x hx hne

theorem countBlocks_split (t : BlockTree) (P Q : String → Prop) :
    countBlocks t P = countBlocks t (fun x => P x ∧ Q x) + countBlocks t fun x => P x ∧ ¬ Q x := by
  classical
  unfold countBlocks
  rw [← Finset.card_union_of_disjoint]
  · congr 1
    ext x
    rw [Finset.mem_union, mem_blocksWith, mem_blocksWith, mem_blocksWith]
    tauto
  · apply Finset.disjoint_left.mpr
    intro x hx hx'
    exact (mem_blocksWith.mp hx').2.2.2 (mem_blocksWith.mp hx).2.2.2

theorem countBlocks_eq_zero {P : String → Prop} :
    countBlocks t P = 0 ↔ ∀ x ∈ t.blocks, x ≠ GENESIS → ¬ P x := by
  rw [countBlocks, Finset.card_eq_zero, Finset.eq_empty_iff_forall_notMem]
  simp only [mem_blocksWith, not_and]

theorem ghostLine_genesis (t : BlockTree) : GhostLine t GENESIS :=
  fun _ hne hanc => absurd (anc_root_iff.mp hanc) hne

theorem GhostLine.of_anc {x y : String} (hy : GhostLine t y) (hanc : t.Anc x y) : GhostLine t x :=
  fun z hne hz => hy z hne (hz.trans hanc)

theorem noneApart_iff {ledgers : List PoW} {root : String} :
    NoneApart t ledgers root ↔ ¬ BeyondRoot t ledgers root ∧ ¬ OffLine t ledgers root := by
  unfold NoneApart BeyondRoot OffLine
  push Not
  constructor
  · exact fun h => ⟨fun x hx hline => (h x hx).mp hline, fun x hx hanc => (h x hx).mpr hanc⟩
  · exact fun h x hx => ⟨h.1 x hx, h.2 x hx⟩

theorem countBlocks_eq_iff (t : BlockTree) (ledgers : List PoW) (root : String) :
    countBlocks t (fun x => GhostLine t x ∧ FlaggedIn ledgers x) = parasitesTo t ledgers root ↔
      countBlocks t (fun x => (GhostLine t x ∧ FlaggedIn ledgers x) ∧ ¬ t.Anc x root) =
        countBlocks t fun x => (t.Anc x root ∧ FlaggedIn ledgers x) ∧ ¬ GhostLine t x := by
  have hghost := countBlocks_split t (fun x => GhostLine t x ∧ FlaggedIn ledgers x) fun x => t.Anc x root
  have hroot := countBlocks_split t (fun x => t.Anc x root ∧ FlaggedIn ledgers x) (GhostLine t)
  have hboth : countBlocks t (fun x => (GhostLine t x ∧ FlaggedIn ledgers x) ∧ t.Anc x root) =
      countBlocks t fun x => (t.Anc x root ∧ FlaggedIn ledgers x) ∧ GhostLine t x :=
    countBlocks_congr fun x _ _ => by tauto
  unfold parasitesTo
  omega

section TwoWays
variable {ledgers : List PoW} {root : String} (hknown : ∀ x, FlaggedIn ledgers x → x ∈ t.blocks)
include hknown

theorem countBlocks_beyondRoot : 0 < countBlocks t (fun x => (GhostLine t x ∧ FlaggedIn ledgers x) ∧
    ¬ t.Anc x root) ↔ BeyondRoot t ledgers root := by
  rw [Nat.pos_iff_ne_zero, ne_eq, countBlocks_eq_zero]
  push Not
  constructor
  · rintro ⟨x, -, -, ⟨hline, hflag⟩, hnot⟩
    exact ⟨x, hflag, hline, hnot⟩
  · rintro ⟨x, hflag, hline, hnot⟩
    refine ⟨x, hknown x hflag, ?_, ⟨hline, hflag⟩, hnot⟩
    rintro rfl
    exact hnot (root_anc root)

theorem countBlocks_offLine : 0 < countBlocks t (fun x => (t.Anc x root ∧ FlaggedIn ledgers x) ∧
    ¬ GhostLine t x) ↔ OffLine t ledgers root := by
  rw [Nat.pos_iff_ne_zero, ne_eq, countBlocks_eq_zero]
  push Not
  constructor
  · rintro ⟨x, -, -, ⟨hanc, hflag⟩, hnot⟩
    exact ⟨x, hflag, hanc, hnot⟩
  · rintro ⟨x, hflag, hanc, hnot⟩
    refine ⟨x, hknown x hflag, ?_, ⟨hanc, hflag⟩, hnot⟩
    rintro rfl
    exact hnot (ghostLine_genesis t)

theorem counts_of_noneApart (h : NoneApart t ledgers root) :
    countBlocks t (fun x => GhostLine t x ∧ FlaggedIn ledgers x) = parasitesTo t ledgers root := by
  obtain ⟨hbeyond, hoff⟩ := noneApart_iff.mp h
  rw [← countBlocks_beyondRoot hknown] at hbeyond
  rw [← countBlocks_offLine hknown] at hoff
  rw [countBlocks_eq_iff]
  omega

theorem noneApart_of_counts
    (h : countBlocks t (fun x => GhostLine t x ∧ FlaggedIn ledgers x) = parasitesTo t ledgers root) :
    NoneApart t ledgers root ∨ BeyondRoot t ledgers root ∧ OffLine t ledgers root := by
  rw [countBlocks_eq_iff] at h
  rw [noneApart_iff, ← countBlocks_beyondRoot hknown, ← countBlocks_offLine hknown]
  omega

end TwoWays

theorem noneApart_iff_same {ledgers : List PoW} {root : String} {path : List String}
    (hpath : ∀ x, x ∈ path.drop 1 ↔ x ≠ GENESIS ∧ GhostLine t x) :
    (∀ x, x ∈ path.drop 1 ∧ FlaggedIn ledgers x ↔ x ≠ GENESIS ∧ t.Anc x root ∧ FlaggedIn ledgers x) ↔
      NoneApart t ledgers root := by
  constructor
  · intro hsame x hflag
    by_cases hx : x = GENESIS
    · rw [hx]
      exact iff_of_true (ghostLine_genesis t) (root_anc root)
    · have hmem := hsame x
      rw [hpath] at hmem
      tauto
  · intro hnone x
    have hx := hnone x
    rw [hpath]
    tauto

theorem not_offLine {ledgers : List PoW} {root : String} (hroot : GhostLine t root) : ¬ OffLine t ledgers root := by
  rintro ⟨x, -, hanc, hnot⟩
  exact hnot (hroot.of_anc hanc)

theorem countBlocks_anc (P : String → Prop) {x : String} (hx : x ∈ t.blocks) (hne : x ≠ GENESIS) [Decidable (P x)] :
    countBlocks t (fun y => t.Anc y x ∧ P y) =
      (if P x then 1 else 0) + countBlocks t fun y => t.Anc y (t.parent x) ∧ P y := by
  unfold countBlocks
  by_cases hP : P x
  · have hinsert : blocksWith t (fun y => t.Anc y x ∧ P y) =
        insert x (blocksWith t fun y => t.Anc y (t.parent x) ∧ P y) := by
      ext y
      rw [Finset.mem_insert, mem_blocksWith, mem_blocksWith, anc_iff hne]
      constructor
      · rintro ⟨hy, hyne, rfl | hanc, hPy⟩
        · exact .inl rfl
        · exact .inr ⟨hy, hyne, hanc, hPy⟩
      · rintro (rfl | ⟨hy, hyne, hanc, hPy⟩)
        · exact ⟨hx, hne, .inl rfl, hP⟩
        · exact ⟨hy, hyne, .inr hanc, hPy⟩
    rw [hinsert, Finset.card_insert_of_notMem, if_pos hP, add_comm]
    intro hmem
    exact not_anc_parent hne (mem_blocksWith.mp hmem).2.2.1
  · have hsame : blocksWith t (fun y => t.Anc y x ∧ P y) =
        blocksWith t fun y => t.Anc y (t.parent x) ∧ P y := by
      ext y
      rw [mem_blocksWith, mem_blocksWith, anc_iff hne]
      constructor
      · rintro ⟨hy, hyne, rfl | hanc, hPy⟩
        · exact absurd hPy hP
        · exact ⟨hy, hyne, hanc, hPy⟩
      · rintro ⟨hy, hyne, hanc, hPy⟩
        exact ⟨hy, hyne, .inr hanc, hPy⟩
    rw [hsame, if_neg hP, Nat.zero_add]

theorem countBlocks_anc_genesis (P : String → Prop) : countBlocks t (fun y => t.Anc y GENESIS ∧ P y) = 0 := by
  apply Finset.card_eq_zero.mpr
  apply Finset.eq_empty_of_forall_notMem
  intro y hy
  obtain ⟨-, hne, hanc, -⟩ := mem_blocksWith.mp hy
  exact hne (anc_root_iff.mp hanc)

theorem LineTo.mem_drop {path : List String} {head : String} (hpath : LineTo t head path) (x : String) :
    x ∈ path.drop 1 ↔ x ≠ GENESIS ∧ t.Anc x head := by
  rw [← hpath.mem x]
  have hfirst := hpath.first
  have hnodup := hpath.nodup
  cases hp : path with
  | nil =>
    rw [hp] at hfirst
    cases hfirst
  | cons y rest =>
    rw [hp, List.head?_cons, Option.some_inj] at hfirst
    rw [hp, hfirst, List.nodup_cons] at hnodup
    rw [hfirst, List.drop_succ_cons, List.drop_zero, List.mem_cons]
    constructor
    · exact fun hx => ⟨fun heq => hnodup.1 (heq ▸ hx), .inr hx⟩
    · exact fun hx => hx.2.resolve_left hx.1

theorem LineTo.countP_eq {path : List String} {head : String} (hpath : LineTo t head path)
    (hhead : t.Rooted t.blocks head) (f : String → Bool) :
    (path.drop 1).countP f = countBlocks t fun x => t.Anc x head ∧ f x = true := by
  have hnodup : (path.drop 1).Nodup := hpath.nodup.sublist (List.drop_sublist 1 path)
  rw [List.countP_eq_length_filter, ← List.toFinset_card_of_nodup (hnodup.filter f)]
  unfold countBlocks
  congr 1
  ext x
  rw [List.mem_toFinset, List.mem_filter, hpath.mem_drop, mem_blocksWith]
  constructor
  · rintro ⟨⟨hne, hanc⟩, hf⟩
    exact ⟨hhead x hanc, hne, hanc, hf⟩
  · rintro ⟨-, hne, hanc, hf⟩
    exact ⟨⟨hne, hanc⟩, hf⟩

theorem ghostLine_iff_anc {head : String} (hnamed : "" ∉ t.blocks)
    (hway : ∀ x, x ≠ GENESIS → t.Anc x head → x ≠ "" ∧ GhostChild t x)
    (hend : ∀ c, t.parent c = head → GhostChild t c → c = "") (x : String) :
    GhostLine t x ↔ t.Anc x head := by
  constructor
  · refine induction_on (t := t.toRootedTree) (motive := fun x => GhostLine t x → t.Anc x head) x
      (fun _ => root_anc head) fun x hne ih hx => ?_
    have hghost := hx x hne (.refl x)
    have hparent := ih fun y hyne hy => hx y hyne (hy.trans (anc_parent hne))
    by_cases heq : t.parent x = head
    · exact absurd (hend x heq hghost ▸ hghost.1) hnamed
    · obtain ⟨c, hcne, hcparent, hchead⟩ := hparent.exists_child heq
      rw [hghost.unique (hway c hcne hchead).2 hcparent]
      exact hchead
  · exact fun hx y hyne hy => (hway y hyne (hy.trans hx)).2

/-! ## The walk and the path -/

def Aggregated.flagged (a : Aggregated) (x : String) : Bool :=
  ((a.findBlock x).map BlockAggregate.parasite).getD false

namespace Collects
variable (ha : Collects rs a)
include ha

theorem flagged_iff (x : String) : a.flagged x = true ↔ ∃ r ∈ rs, r.hash = x ∧ r.parasite = true := by
  unfold Aggregated.flagged
  cases hfind : a.findBlock x with
  | none =>
    refine ⟨(by simp), ?_⟩
    rintro ⟨r, hr, heq, -⟩
    obtain ⟨b, hb, hhash⟩ := ha.known r hr
    rw [ha.findBlock_eq_some.mpr ⟨hb, hhash.trans heq⟩] at hfind
    cases hfind
  | some b =>
    obtain ⟨hb, rfl⟩ := ha.findBlock_eq_some.mp hfind
    exact ha.parasite b hb

theorem walkLoop_counts (hm : Merged t t.blocks a) (hacyclic : Acyclic a.children) {h : String → Option Nat}
    (hl : Labelled (ha.dag hacyclic) h) (hnamed : h "" = none) (fuel : Nat) (walk : Aggregated.Walk) {n : Nat}
    (hmem : walk.current ∈ t.blocks) (hn : h walk.current = some n) (hfuel : n ≤ fuel) :
    a.walkLoop h fuel walk = some ⟨GENESIS, walk.steps + n,
      walk.parasites + countBlocks t fun x => t.Anc x walk.current ∧ a.flagged x = true⟩ := by
  induction n generalizing fuel walk with
  | zero =>
    have hroot : walk.current = GENESIS := ((hl _ _).mp hn).1.eq_of_zero.symm
    obtain ⟨current, steps, parasites⟩ := walk
    dsimp only at hroot
    subst hroot
    rw [countBlocks_anc_genesis]
    cases fuel with
    | zero => rw [Aggregated.walkLoop, if_pos rfl, Nat.add_zero, Nat.add_zero]
    | succ fuel => rw [Aggregated.walkLoop, if_pos rfl, Nat.add_zero, Nat.add_zero]
  | succ n ih =>
    obtain ⟨fuel, rfl⟩ : ∃ k, fuel = k + 1 := ⟨fuel - 1, by omega⟩
    obtain ⟨b, next, hfind, hparent, hnext, hstep⟩ := ha.walkLoop_step hacyclic hl hnamed fuel walk hn
    obtain ⟨hb, hhash⟩ := ha.findBlock_eq_some.mp hfind
    have hedge : walk.current ∈ a.children next := by
      obtain ⟨r, hr, heq, hx⟩ := (ha.parents b hb next).mp hparent
      exact (ha.children next walk.current).mpr ⟨r, hr, heq.trans hhash, hx⟩
    obtain ⟨-, hne, rfl⟩ := (hm.children next walk.current).mp hedge
    have hflag : b.parasite = a.flagged walk.current := by
      unfold Aggregated.flagged
      rw [hfind]
      rfl
    rw [hstep, ih fuel ⟨t.parent walk.current, walk.steps + 1,
      if b.parasite then walk.parasites + 1 else walk.parasites⟩ (t.parent_mem _ hmem hne) hnext (by omega),
      countBlocks_anc (fun x => a.flagged x = true) hmem hne, hflag]
    dsimp only
    split_ifs
    · rw [show walk.steps + 1 + n = walk.steps + (n + 1) by omega, Nat.add_assoc]
    · rw [show walk.steps + 1 + n = walk.steps + (n + 1) by omega, Nat.zero_add]

end Collects

/-! ## Two counts -/

theorem CommonRoot.unique {ledgers : List PoW} {x y : String} (hx : CommonRoot t ledgers x)
    (hy : CommonRoot t ledgers y) : x = y :=
  eq_of_ties (hx.highest y hy.known) (hy.highest x hx.known)

theorem UnionIs.counts {ledgers : List PoW} (ht : UnionIs t ledgers)
    (ha : Collects (ledgers.flatMap PoW.blocks) a) (hlinked : ∀ p ∈ ledgers, p.Linked) (hpos : 0 < ledgers.length)
    (hnamed : ∀ r ∈ ledgers.flatMap PoW.blocks, r.hash ≠ "") (children blocks heights ghost : IterationOrder)
    {fuel : Nat} (hfuel : (t.blocks.card + 1) * (t.blocks.card + 1) ≤ fuel) :
    ∃ m path, a.metrics children blocks heights ledgers.length fuel = some m ∧ a.ghostPath ghost fuel = some path ∧
      CommonRoot t ledgers m.commonRoot ∧ m.commonRootHeight = t.depth m.commonRoot ∧
      m.walk.parasites = parasitesTo t ledgers m.commonRoot ∧ m.walk.parasites ≤ m.commonRootHeight ∧
      (∀ x, x ∈ path.drop 1 ↔ x ≠ GENESIS ∧ GhostLine t x) ∧
      a.parasitesOnPath path = countBlocks t fun x => GhostLine t x ∧ FlaggedIn ledgers x := by
  have hm := ht.merged ha
  have hacyclic := ht.acyclic ha
  have hempty : "" ∉ t.blocks := by
    intro hmem
    obtain ⟨p, hp, r, hr, heq⟩ := (ht.known "").mpr hmem
    exact hnamed r (List.mem_flatMap.mpr ⟨p, hp, hr⟩) heq
  have hflagged : ∀ x, a.flagged x = true ↔ FlaggedIn ledgers x := by
    intro x
    rw [ha.flagged_iff]
    constructor
    · rintro ⟨r, hr, h⟩
      obtain ⟨p, hp, hr⟩ := List.mem_flatMap.mp hr
      exact ⟨p, hp, r, hr, h⟩
    · rintro ⟨p, hp, r, hr, h⟩
      exact ⟨r, List.mem_flatMap.mpr ⟨p, hp, hr⟩, h⟩
  have hcard : t.blocks.card ≤ fuel := by nlinarith
  -- Bitcoin
  have hfuel' : (a.blocks.length + 1) * (a.blocks.length + 1) ≤ fuel := by
    rw [hm.length]
    exact hfuel
  obtain ⟨m, hrun, hmeasures, -⟩ := ha.measures hacyclic hnamed (countP_genesis hlinked) hpos children blocks
    heights hfuel'
  obtain ⟨hheights, hwalk⟩ := Aggregated.metrics_eq_some hrun
  have hl : Labelled (ha.dag hacyclic) m.computedHeight := hmeasures.height
  have hdepth : ∀ x ∈ t.blocks, m.computedHeight x = some (t.depth x) := by
    obtain ⟨h, hrun', hdepth⟩ := computedHeight_spec hm children hcard
    rw [hheights, Option.some_inj] at hrun'
    rw [hrun']
    exact hdepth
  have hcommon : ∀ x, CommonBlock a ledgers.length m.computedHeight x (t.depth x) ↔
      x ∈ t.blocks ∧ ∀ p ∈ ledgers, (p.findBlock x).isSome := by
    intro x
    rw [ha.commonBlock_iff, countP_records hlinked, List.countP_eq_length]
    constructor
    · rintro ⟨⟨⟨r, hr, rfl⟩, hall⟩, -⟩
      obtain ⟨p, hp, hr⟩ := List.mem_flatMap.mp hr
      exact ⟨(ht.known _).mp ⟨p, hp, r, hr, rfl⟩, hall⟩
    · rintro ⟨hx, hall⟩
      obtain ⟨p, hp, r, hr, rfl⟩ := (ht.known x).mpr hx
      exact ⟨⟨⟨r, List.mem_flatMap.mpr ⟨p, hp, hr⟩, rfl⟩, hall⟩, hdepth _ hx⟩
  have hrootMem : m.commonRoot ∈ t.blocks := by
    obtain ⟨⟨⟨r, hr, heq⟩, -⟩, -⟩ := ha.commonBlock_iff.mp hmeasures.root
    obtain ⟨p, hp, hr⟩ := List.mem_flatMap.mp hr
    exact (ht.known _).mp ⟨p, hp, r, hr, heq⟩
  have hrootHeight : m.commonRootHeight = t.depth m.commonRoot := by
    have hlabel := hmeasures.root.2
    rw [hdepth _ hrootMem, Option.some_inj] at hlabel
    exact hlabel.symm
  have hroot : CommonRoot t ledgers m.commonRoot := by
    refine ⟨((hcommon _).mp (hrootHeight ▸ hmeasures.root)).2, fun x hx => ?_⟩
    have hxmem : x ∈ t.blocks := by
      obtain ⟨p, hp⟩ := List.exists_mem_of_length_pos hpos
      obtain ⟨b, hb⟩ := Option.isSome_iff_exists.mp (hx p hp)
      exact (ht.known x).mp ⟨p, hp, b, List.mem_of_find?_eq_some hb, PoW.findBlock_hash hb⟩
    have habove := hmeasures.highest x _ ((hcommon x).mpr ⟨hxmem, hx⟩)
    rw [hrootHeight] at habove
    exact habove
  have hunnamed := ha.label_unnamed hacyclic hl hnamed
  have hlow : m.commonRootHeight ≤ fuel := by
    have := (t.rooted_blocks hrootMem).depth_lt_card
    omega
  have hcounts := ha.walkLoop_counts hm hacyclic hl hunnamed fuel { current := m.commonRoot } hrootMem
    hmeasures.root.2 hlow
  obtain ⟨parasites, hspec, hle⟩ := ha.walkLoop_spec hacyclic hl hunnamed fuel { current := m.commonRoot }
    hmeasures.root.2 hlow
  rw [hwalk, Option.some_inj] at hcounts hspec
  -- Ethereum
  obtain ⟨path, head, hpath, hline, hhead, hway, hend⟩ := ghostPath_spec hm ghost hcard
  refine ⟨m, path, hrun, hpath, hroot, hrootHeight, ?_, ?_, fun x => ?_, ?_⟩
  · rw [hcounts]
    dsimp only
    rw [Nat.zero_add]
    exact countBlocks_congr fun x _ _ => and_congr_right fun _ => hflagged x
  · rw [hspec]
    dsimp only
    omega
  · rw [hline.mem_drop, ghostLine_iff_anc hempty hway hend]
  · refine (hline.countP_eq (t.rooted_blocks hhead) a.flagged).trans (countBlocks_congr fun x _ _ => ?_)
    rw [ghostLine_iff_anc hempty hway hend, hflagged]

/-- **Parasites on the common path.** The union of the ledgers is a tree. Whatever the orders of the hash maps,
both peers terminate. Bitcoin counts the parasites on the way from GENESIS to the common root, no more than it
is high. Ethereum counts the same blocks exactly when no parasite lies on one of two ways only, the line of heaviest
children and the way to the common root. Its count is then the same, and otherwise it differs unless each of the
two ways has a parasite that the other has not. With the common root on the line, the counts agree exactly when no
parasite lies beyond it. -/
theorem commonRootParasites_agree_iff (prefer : PreferCandidate) (t : BlockTree) (runs : List (List LedgerCall))
    (hruns : runs ≠ []) (hunion : UnionIs t (runs.map (PoW.called prefer))) :
    ∃ root, CommonRoot t (runs.map (PoW.called prefer)) root ∧
      ∀ ledgers, SameLedgers (runs.map (PoW.called prefer)) ledgers →
        ∀ (children blocks heights ghost : IterationOrder) (fuel : Nat),
          (t.blocks.card + 1) * (t.blocks.card + 1) ≤ fuel →
          ∃ m path, (Aggregated.ofLedgers ledgers).metrics children blocks heights runs.length fuel = some m ∧
            (Aggregated.ofLedgers ledgers).ghostPath ghost fuel = some path ∧
            m.commonRoot = root ∧ m.commonRootHeight = t.depth root ∧
            m.walk.parasites = parasitesTo t (runs.map (PoW.called prefer)) root ∧
            m.walk.parasites ≤ m.commonRootHeight ∧
            ((∀ x, x ∈ path.drop 1 ∧ FlaggedIn (runs.map (PoW.called prefer)) x ↔
              x ≠ GENESIS ∧ t.Anc x root ∧ FlaggedIn (runs.map (PoW.called prefer)) x) ↔
                NoneApart t (runs.map (PoW.called prefer)) root) ∧
            (NoneApart t (runs.map (PoW.called prefer)) root →
              (Aggregated.ofLedgers ledgers).parasitesOnPath path = m.walk.parasites) ∧
            ((Aggregated.ofLedgers ledgers).parasitesOnPath path = m.walk.parasites →
              NoneApart t (runs.map (PoW.called prefer)) root ∨
                BeyondRoot t (runs.map (PoW.called prefer)) root ∧ OffLine t (runs.map (PoW.called prefer)) root) ∧
            (GhostLine t root → ((Aggregated.ofLedgers ledgers).parasitesOnPath path = m.walk.parasites ↔
              ¬ BeyondRoot t (runs.map (PoW.called prefer)) root)) := by
  obtain ⟨ledgers, hledgers⟩ : ∃ ledgers, ledgers = runs.map (PoW.called prefer) := ⟨_, rfl⟩
  have hlength : ledgers.length = runs.length := by rw [hledgers, List.length_map]
  have hlinked : ∀ p ∈ ledgers, p.Linked := hledgers ▸ linked_runs
  have hrecords : ∀ r ∈ ledgers.flatMap PoW.blocks, r.hash ≠ "" := hledgers ▸ records_named
  have hpos : 0 < ledgers.length := hlength ▸ List.length_pos_iff.mpr hruns
  rw [← hledgers] at hunion ⊢
  rw [← hlength]
  have hknown : ∀ x, FlaggedIn ledgers x → x ∈ t.blocks := by
    rintro x ⟨p, hp, r, hr, rfl, -⟩
    exact (hunion.known _).mp ⟨p, hp, r, hr, rfl⟩
  have hsame := SameLedgers.refl ledgers
  obtain ⟨m, -, -, -, hroot, -⟩ := hunion.counts (hsame.collects hlinked hpos) hlinked hpos hrecords
    .insertion .insertion .insertion .insertion le_rfl
  refine ⟨m.commonRoot, hroot, fun ledgers' hsame' children blocks heights ghost fuel hfuel => ?_⟩
  obtain ⟨m', path, hrun, hpath, hroot', hheight, hwalk, hle, hblocks, hghost⟩ :=
    hunion.counts (hsame'.collects hlinked hpos) hlinked hpos hrecords children blocks heights ghost hfuel
  have heq := hroot'.unique hroot
  rw [heq] at hheight hwalk
  refine ⟨m', path, hrun, hpath, heq, hheight, hwalk, hle, noneApart_iff_same hblocks, ?_⟩
  rw [hghost, hwalk]
  refine ⟨counts_of_noneApart hknown, noneApart_of_counts hknown, fun hline => ?_⟩
  constructor
  · intro hcounts
    rcases noneApart_of_counts hknown hcounts with hnone | ⟨-, hoff⟩
    · exact (noneApart_iff.mp hnone).1
    · exact absurd hoff (not_offLine hline)
  · exact fun hbeyond => counts_of_noneApart hknown (noneApart_iff.mpr ⟨hbeyond, not_offLine hline⟩)

/-! ## A parasite in flight -/

def lineTree : BlockTree where
  parent b := if b = "b" then "a" else GENESIS
  acyclic b := by
    refine ⟨2, ?_⟩
    simp only [Function.iterate_succ_apply, Function.iterate_zero_apply]
    split_ifs <;> simp_all [GENESIS]
  blocks := {GENESIS, "a", "b"}
  genesis_mem := by decide
  parent_mem := by decide

/-- The second block, a parasite, has not arrived at one of the two ledgers. -/
def inFlightRuns : List (List LedgerCall) :=
  [[announce "a" [GENESIS] false], [announce "a" [GENESIS] false, announce "b" ["a"] true]]

theorem inFlight_union : UnionIs lineTree (inFlightRuns.map (PoW.called PoWEthereum.preferCandidate)) :=
  .of_records (by decide +kernel) (by decide +kernel)

/-- The common root is the first block, with no parasite on the way to it; Ethereum counts one. -/
theorem inFlight_counts_differ :
    ¬ ∀ (t : BlockTree) (runs : List (List LedgerCall)), runs ≠ [] →
      UnionIs t (runs.map (PoW.called PoWEthereum.preferCandidate)) →
      ∀ fuel, (t.blocks.card + 1) * (t.blocks.card + 1) ≤ fuel →
        ((Aggregated.ofLedgers (runs.map (PoW.called PoWEthereum.preferCandidate))).ghostPath
            .insertion fuel).map
              (Aggregated.ofLedgers (runs.map (PoW.called PoWEthereum.preferCandidate))).parasitesOnPath =
          ((Aggregated.ofLedgers (runs.map (PoW.called PoWEthereum.preferCandidate))).metrics
            .insertion .insertion .insertion runs.length fuel).map fun m => m.walk.parasites := by
  intro hclaim
  have hcounts : ((Aggregated.ofLedgers (inFlightRuns.map
      (PoW.called PoWEthereum.preferCandidate))).ghostPath .insertion 16).map
        (Aggregated.ofLedgers (inFlightRuns.map
          (PoW.called PoWEthereum.preferCandidate))).parasitesOnPath = some 1 ∧
      ((Aggregated.ofLedgers (inFlightRuns.map (PoW.called PoWEthereum.preferCandidate))).metrics
        .insertion .insertion .insertion 2 16).map (fun m => m.walk.parasites) = some 0 := by
    decide +kernel
  have hsame := hclaim lineTree inFlightRuns (by decide) inFlight_union 16 (by decide)
  rw [hcounts.1] at hsame
  exact absurd (hsame.trans hcounts.2) (by decide)

theorem commonRootParasites_agree_iff_inFlight :
    ∃ root, CommonRoot lineTree (inFlightRuns.map (PoW.called PoWEthereum.preferCandidate)) root ∧
      ∃ m path, (Aggregated.ofLedgers (inFlightRuns.map
          (PoW.called PoWEthereum.preferCandidate))).metrics .insertion .insertion .insertion 2 16 = some m ∧
        (Aggregated.ofLedgers (inFlightRuns.map
          (PoW.called PoWEthereum.preferCandidate))).ghostPath .insertion 16 = some path ∧
        m.commonRoot = root ∧
        (GhostLine lineTree root → ((Aggregated.ofLedgers (inFlightRuns.map
          (PoW.called PoWEthereum.preferCandidate))).parasitesOnPath path = m.walk.parasites ↔
            ¬ BeyondRoot lineTree (inFlightRuns.map (PoW.called PoWEthereum.preferCandidate)) root)) := by
  obtain ⟨root, hroot, hall⟩ := commonRootParasites_agree_iff PoWEthereum.preferCandidate lineTree inFlightRuns
    (by decide) inFlight_union
  obtain ⟨m, path, hrun, hpath, heq, -, -, -, -, -, -, hiff⟩ := hall _ (.refl _) .insertion .insertion .insertion
    .insertion 16 (by decide)
  exact ⟨root, hroot, m, path, hrun, hpath, heq, hiff⟩

end Quantas
