import Quantas.Lib.RootedTree
import Quantas.Pow.Ledger

/-!
# A ledger that holds part of a block tree

`BlockTree` is a finite tree of blocks below GENESIS. `Holds t R p` says that the ledger `p` knows exactly
the blocks `R` of the tree `t`, in any state of their heights. For such a ledger every loop has a plain
meaning: `hasFullAncestry` is connection to GENESIS through `R`, `isAncestor` is ancestry in the tree,
`subtreeSize` counts the connected blocks below, and `propagateUpdates` visits these, parents first.
-/

namespace Quantas

/-- A finite tree of blocks below GENESIS. The parent of a string that is no block does not matter. -/
structure BlockTree extends Lib.RootedTree GENESIS where
  blocks : Finset String
  genesis_mem : GENESIS ∈ blocks
  parent_mem : ∀ b ∈ blocks, b ≠ GENESIS → parent b ∈ blocks

namespace PoW
variable {p : PoW}

/-! ## Records -/

theorem findBlock_hash {h : String} {b : BlockRecord} (hb : p.findBlock h = some b) : b.hash = h := by
  simpa using List.find?_some hb

theorem findBlock_modify (h : String) (f : BlockRecord → BlockRecord) (hf : ∀ b, (f b).hash = b.hash)
    (k : String) : (p.modify h f).findBlock k = (p.findBlock k).map fun b => if k = h then f b else b := by
  unfold findBlock modify
  induction p.blocks with
  | nil => rfl
  | cons b bs ih =>
    rw [List.map_cons, List.find?_cons, List.find?_cons]
    have hhash : (if b.hash = h then f b else b).hash = b.hash := by
      split_ifs
      · exact hf b
      · rfl
    rw [hhash]
    by_cases hk : b.hash = k
    · simp [hk]
    · simp only [hk, decide_false]
      exact ih

theorem parentReferences_modify (h : String) (f : BlockRecord → BlockRecord)
    (hf : ∀ b, (f b).parents = b.parents) : (p.modify h f).parentReferences = p.parentReferences := by
  unfold parentReferences modify
  rw [List.map_map]
  congr 1
  apply List.map_congr_left
  intro b _
  dsimp only [Function.comp]
  split_ifs
  · rw [hf]
  · rfl

end PoW

open Lib.RootedTree

variable {t : BlockTree} {R : Finset String} {p : PoW}

def BlockTree.parentsOf (t : BlockTree) (h : String) : List String :=
  if h = GENESIS then [] else [t.parent h]

/-- The ledger knows the blocks `R` of the tree, and no others. -/
structure Holds (t : BlockTree) (R : Finset String) (p : PoW) : Prop where
  sub : R ⊆ t.blocks
  genesis : GENESIS ∈ R
  known : ∀ h ∈ R, ∃ b, p.findBlock h = some b ∧ b.parents = t.parentsOf h
  records : ∀ b ∈ p.blocks, b.hash ∈ R ∧ b.parents = t.parentsOf b.hash
  children : ∀ a c, c ∈ p.children a ↔ c ∈ R ∧ c ≠ GENESIS ∧ t.parent c = a
  nodup : ∀ a, (p.children a).Nodup
  references : p.parentReferences + 1 = R.card

namespace Holds

theorem fresh : Holds t {GENESIS} PoW.fresh where
  sub := Finset.singleton_subset_iff.mpr t.genesis_mem
  genesis := Finset.mem_singleton_self _
  known := by
    intro h hh
    rw [Finset.mem_singleton] at hh
    subst hh
    exact ⟨{ hash := GENESIS, parents := [] }, by decide, rfl⟩
  records := by
    intro b hb
    rw [List.mem_singleton.mp hb]
    exact ⟨Finset.mem_singleton_self _, rfl⟩
  children := by
    intro a c
    simp only [PoW.fresh, List.not_mem_nil, Finset.mem_singleton, false_iff, not_and]
    exact fun hc hne => absurd hc hne
  nodup := fun a => List.nodup_nil
  references := rfl

theorem unknown (hp : Holds t R p) (h : String) (hh : h ∉ R) : p.findBlock h = none := by
  cases hfind : p.findBlock h with
  | none => rfl
  | some b =>
    have hmem := (hp.records b (List.mem_of_find?_eq_some hfind)).1
    rw [PoW.findBlock_hash hfind] at hmem
    exact absurd hmem hh

theorem mem_iff (hp : Holds t R p) (h : String) : (p.findBlock h).isSome ↔ h ∈ R := by
  constructor
  · intro hsome
    by_contra hh
    rw [hp.unknown h hh] at hsome
    cases hsome
  · intro hh
    obtain ⟨b, hb, -⟩ := hp.known h hh
    rw [hb]
    rfl

theorem parent_mem (hp : Holds t R p) {a c : String} (hc : c ∈ p.children a) : t.parent c = a :=
  ((hp.children a c).mp hc).2.2

theorem modify (hp : Holds t R p) (h : String) (f : BlockRecord → BlockRecord)
    (hhash : ∀ b, (f b).hash = b.hash) (hparents : ∀ b, (f b).parents = b.parents) :
    Holds t R (p.modify h f) where
  sub := hp.sub
  genesis := hp.genesis
  known := by
    intro k hk
    obtain ⟨b, hb, hpar⟩ := hp.known k hk
    rw [PoW.findBlock_modify h f hhash, hb]
    refine ⟨_, rfl, ?_⟩
    split_ifs
    · rw [hparents, hpar]
    · exact hpar
  records := by
    intro b hb
    obtain ⟨b, hmem, rfl⟩ := List.mem_map.mp hb
    obtain ⟨hmem, hpar⟩ := hp.records b hmem
    split_ifs
    · rw [hhash, hparents]
      exact ⟨hmem, hpar⟩
    · exact ⟨hmem, hpar⟩
  children := hp.children
  nodup := hp.nodup
  references := by rw [PoW.parentReferences_modify h f hparents, hp.references]

theorem setBest (hp : Holds t R p) (h : String) : Holds t R { p with bestHash := h } :=
  ⟨hp.sub, hp.genesis, hp.known, hp.records, hp.children, hp.nodup, hp.references⟩

/-! ## Upward loops -/

theorem findBlock_of_mem (hp : Holds t R p) {h : String} (hh : h ∈ R) (hne : h ≠ GENESIS) :
    ∃ b, p.findBlock h = some b ∧ b.parents = [t.parent h] := by
  obtain ⟨b, hb, hpar⟩ := hp.known h hh
  exact ⟨b, hb, by rw [hpar, BlockTree.parentsOf, if_neg hne]⟩

theorem findBlock_genesis (hp : Holds t R p) :
    ∃ b, p.findBlock GENESIS = some b ∧ b.parents = [] := by
  obtain ⟨b, hb, hpar⟩ := hp.known GENESIS hp.genesis
  exact ⟨b, hb, by rw [hpar, BlockTree.parentsOf, if_pos rfl]⟩

theorem hasFullAncestryLoop_iff (hp : Holds t R p) (h : String) (fuel : Nat) (visited : List String)
    (hvisited : ∀ v ∈ visited, t.Anc h v) (hfuel : t.Rooted R h → t.depth h + 1 < fuel) :
    p.hasFullAncestryLoop fuel [h] visited = true ↔ t.Rooted R h := by
  induction fuel generalizing h visited with
  | zero => exact iff_of_false Bool.false_ne_true fun hroot => absurd (hfuel hroot) (by omega)
  | succ fuel ih =>
    rw [PoW.hasFullAncestryLoop]
    by_cases hh : h ∈ R
    swap
    · rw [hp.unknown h hh]
      exact iff_of_false Bool.false_ne_true fun hroot => hh hroot.mem
    by_cases hne : h = GENESIS
    · subst hne
      have hroot : t.Rooted R GENESIS := rooted_root.mpr hp.genesis
      obtain ⟨b, hb, hpar⟩ := hp.findBlock_genesis
      obtain ⟨fuel, rfl⟩ : ∃ n, fuel = n + 1 := ⟨fuel - 1, by have := hfuel hroot; omega⟩
      rw [hb]
      simp only [hpar, PoW.pushUnseen, List.foldl_nil, PoW.hasFullAncestryLoop, true_iff]
      exact hroot
    · obtain ⟨b, hb, hpar⟩ := hp.findBlock_of_mem hh hne
      have hdepth := depth_of_ne (t := t.toRootedTree) hne
      have hunseen : t.parent h ∉ visited := fun hmem => not_anc_parent hne (hvisited _ hmem)
      rw [hb]
      simp only [hpar, PoW.pushUnseen, List.foldl_cons, List.foldl_nil, if_neg hunseen]
      rw [ih (t.parent h) (t.parent h :: visited), rooted_iff hne]
      · exact (and_iff_right hh).symm
      · intro v hv
        rcases List.mem_cons.mp hv with rfl | hv
        · exact .refl _
        · exact (anc_parent hne).trans (hvisited v hv)
      · intro hroot
        have := hfuel ((rooted_iff hne).mpr ⟨hh, hroot⟩)
        omega

theorem hasFullAncestry_iff (hp : Holds t R p) (h : String) :
    p.hasFullAncestry h = true ↔ t.Rooted R h := by
  apply hp.hasFullAncestryLoop_iff h _ [] (by simp)
  intro hroot
  have hdepth := hroot.depth_lt_card
  rw [PoW.loopFuel, ← Nat.succ_lt_succ_iff]
  have := hp.references
  omega

theorem isAncestorLoop_iff (hp : Holds t R p) (a d : String) (hd : t.Rooted R d) (fuel : Nat)
    (visited : List String) (hvisited : ∀ v ∈ visited, t.depth d < t.depth v)
    (hfuel : t.depth d + 1 < fuel) :
    p.isAncestorLoop a fuel [d] visited = true ↔ a ≠ d ∧ t.Anc a d := by
  induction fuel generalizing d visited with
  | zero => omega
  | succ fuel ih =>
    have hnew : d ∉ visited := fun hmem => lt_irrefl _ (hvisited d hmem)
    rw [PoW.isAncestorLoop, if_neg hnew]
    by_cases hne : d = GENESIS
    · subst hne
      obtain ⟨b, hb, hpar⟩ := hp.findBlock_genesis
      obtain ⟨fuel, rfl⟩ : ∃ n, fuel = n + 1 := ⟨fuel - 1, by omega⟩
      rw [hb]
      simp only [hpar, List.not_mem_nil, if_false, PoW.pushAll, List.reverse_nil, List.nil_append,
        PoW.isAncestorLoop, Bool.false_eq_true, false_iff, not_and, anc_root_iff]
      exact fun hne heq => hne heq
    · obtain ⟨b, hb, hpar⟩ := hp.findBlock_of_mem hd.mem hne
      have hdepth := depth_of_ne (t := t.toRootedTree) hne
      rw [hb]
      simp only [hpar, List.mem_singleton]
      by_cases ha : a = t.parent d
      · rw [if_pos ha]
        subst ha
        refine iff_of_true rfl ⟨fun heq => ?_, anc_parent hne⟩
        rw [heq] at hdepth
        omega
      · rw [if_neg ha, PoW.pushAll, List.reverse_singleton, List.append_nil,
          ih (t.parent d) ((rooted_iff hne).mp hd).2 (d :: visited), anc_iff hne]
        · constructor
          · rintro ⟨-, hanc⟩
            refine ⟨fun had => ?_, .inr hanc⟩
            rw [had] at hanc
            exact not_anc_parent hne hanc
          · rintro ⟨had, heq | hanc⟩
            · exact absurd heq had
            · exact ⟨ha, hanc⟩
        · intro v hv
          rcases List.mem_cons.mp hv with rfl | hv
          · omega
          · have := hvisited v hv
            omega
        · omega

theorem isAncestor_iff (hp : Holds t R p) {a d : String} (hd : t.Rooted R d) :
    p.isAncestor a d = true ↔ a ≠ d ∧ t.Anc a d := by
  unfold PoW.isAncestor
  by_cases had : a = d
  · rw [if_pos had]
    exact iff_of_false Bool.false_ne_true fun h => h.1 had
  · rw [if_neg had]
    apply hp.isAncestorLoop_iff a d hd _ [] (by simp)
    have hdepth := hd.depth_lt_card
    have := hp.references
    rw [PoW.loopFuel]
    omega

/-! ## Downward loops -/

theorem sum_children_le (hp : Holds t R p) :
    ∑ a ∈ R, (p.children a).length ≤ p.parentReferences := by
  have hcard : ∀ a, (p.children a).length =
      ((R.erase GENESIS).filter fun c => t.parent c = a).card := by
    intro a
    rw [← List.toFinset_card_of_nodup (hp.nodup a)]
    congr 1
    ext c
    rw [List.mem_toFinset, hp.children a c, Finset.mem_filter, Finset.mem_erase]
    tauto
  have hsum : ∑ a ∈ R, ((R.erase GENESIS).filter fun c => t.parent c = a).card ≤
      (R.erase GENESIS).card := by
    rw [Finset.sum_card_fiberwise_eq_card_filter]
    exact Finset.card_filter_le _ _
  have := Finset.card_erase_of_mem hp.genesis
  have := hp.references
  simp only [hcard]
  omega

theorem pushAll_perm (s r : List String) : (PoW.pushAll s r).Perm (s ++ r) :=
  (List.reverse_perm s).append_right r

theorem enqueueAll_perm (s r : List String) : (PoW.enqueueAll s r).Perm (s ++ r) :=
  List.perm_append_comm

theorem mem_visitAll_children (hp : Holds t R p) {add : List String → List String → List String}
    (hadd : ∀ s r, (add s r).Perm (s ++ r)) {h x : String} (hh : h ∈ R) :
    x ∈ Lib.visitAll p.children add p.loopFuel [h] [] ↔
      Relation.ReflTransGen (fun a c => c ∈ p.children a) h x := by
  have hle := hp.sum_children_le
  exact Lib.mem_visitAll hadd (fun a _ c hc => ((hp.children a c).mp hc).1) hh (by
    rw [PoW.loopFuel]
    omega)

theorem anc_of_reach (hp : Holds t R p) {h x : String}
    (hreach : Relation.ReflTransGen (fun a c => c ∈ p.children a) h x) : t.Anc h x := by
  induction hreach with
  | refl => exact .refl h
  | tail _ hc ih =>
    obtain ⟨-, hne, rfl⟩ := (hp.children _ _).mp hc
    exact .step hne ih

theorem reach_of_rooted (hp : Holds t R p) {h x : String} (hanc : t.Anc h x) (hx : t.Rooted R x) :
    Relation.ReflTransGen (fun a c => c ∈ p.children a) h x := by
  induction hanc with
  | refl => exact .refl
  | step hne _ ih =>
    obtain ⟨hmem, hparent⟩ := (rooted_iff hne).mp hx
    exact (ih hparent).tail ((hp.children _ _).mpr ⟨hmem, hne, rfl⟩)

theorem rooted_of_reach (hp : Holds t R p) {h x : String} (hh : t.Rooted R h)
    (hreach : Relation.ReflTransGen (fun a c => c ∈ p.children a) h x) : t.Rooted R x := by
  induction hreach with
  | refl => exact hh
  | tail _ hc ih =>
    obtain ⟨hmem, hne, rfl⟩ := (hp.children _ _).mp hc
    exact (rooted_iff hne).mpr ⟨hmem, ih⟩

end Holds

open Classical in
/-- The number of connected blocks at and below `h`. -/
noncomputable def BlockTree.weight (t : BlockTree) (R : Finset String) (h : String) : Nat :=
  (R.filter fun x => t.Anc h x ∧ t.Rooted R x).card

namespace Holds

open Classical in
theorem subtreeSize_eq (hp : Holds t R p) {h : String} (hh : t.Rooted R h) :
    p.subtreeSize h = t.weight R h := by
  rw [PoW.subtreeSize, BlockTree.weight, Nat.cast_inj,
    ← List.toFinset_card_of_nodup (Lib.nodup_visitAll pushAll_perm _ _)]
  congr 1
  ext x
  rw [List.mem_toFinset, hp.mem_visitAll_children pushAll_perm hh.mem, Finset.mem_filter]
  constructor
  · intro hreach
    have hx := hp.rooted_of_reach hh hreach
    exact ⟨hx.mem, hp.anc_of_reach hreach, hx⟩
  · rintro ⟨-, hanc, hx⟩
    exact hp.reach_of_rooted hanc hx

end Holds

end Quantas
