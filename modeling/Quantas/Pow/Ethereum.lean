import Quantas.Pow.Arrival

/-!
# Ethereum: when the order of arrival does not matter

`PoWEthereum` compares the subtrees of two blocks at the moment when one of them is visited. A leaf is never
visited again, so a block whose subtree was there before it, as orphans, is compared with its whole weight,
and one whose children come later with weight one. On a caterpillar, where the blocks with children form one
chain, this makes no difference: the choice goes by `BlockTree.weightedRank`. On every other tree it does.
-/

namespace Quantas

open Lib.RootedTree

variable {t : BlockTree} {R : Finset String} {p : PoW}

/-! ## Weights -/

namespace BlockTree

open Classical in
theorem mem_weight {h x : String} :
    x ∈ R.filter (fun x => t.Anc h x ∧ t.Rooted R x) ↔ t.Anc h x ∧ t.Rooted R x := by
  rw [Finset.mem_filter]
  exact ⟨And.right, fun hx => ⟨hx.2.mem, hx⟩⟩

theorem weight_pos {x : String} (hx : t.Rooted R x) : 0 < t.weight R x := by
  classical
  exact Finset.card_pos.mpr ⟨x, mem_weight.mpr ⟨.refl x, hx⟩⟩

theorem one_lt_weight_iff {x : String} (hx : t.Rooted R x) :
    1 < t.weight R x ↔ ∃ z, t.Rooted R z ∧ t.Anc x z ∧ z ≠ x := by
  classical
  rw [weight, Finset.one_lt_card]
  constructor
  · rintro ⟨a, ha, b, hb, hab⟩
    rw [mem_weight] at ha hb
    by_cases hax : a = x
    · exact ⟨b, hb.2, hb.1, fun hbx => hab (hax.trans hbx.symm)⟩
    · exact ⟨a, ha.2, ha.1, hax⟩
  · rintro ⟨z, hz, hanc, hne⟩
    exact ⟨z, mem_weight.mpr ⟨hanc, hz⟩, x, mem_weight.mpr ⟨.refl x, hx⟩, hne⟩

def Leaf (t : BlockTree) (R : Finset String) (x : String) : Prop :=
  ∀ z, t.Rooted R z → t.Anc x z → z = x

theorem Leaf.weight_eq_one {x : String} (h : t.Leaf R x) (hx : t.Rooted R x) : t.weight R x = 1 := by
  have hpos := t.weight_pos hx
  have hle : ¬ 1 < t.weight R x := by
    rw [one_lt_weight_iff hx]
    rintro ⟨z, hz, hanc, hne⟩
    exact hne (h z hz hanc)
  omega

theorem Longest.leaf {b : String} (hb : t.Longest R b) : t.Leaf R b := fun _ hz hanc => hb.eq_of_anc hz hanc

theorem Leaf.insert {h x : String} (hx : t.Leaf R x) (hh : t.Leaf (insert h R) h) :
    t.Anc x h ∨ t.Leaf (insert h R) x := by
  by_cases hanc : t.Anc x h
  · exact .inl hanc
  · refine .inr fun z hz hxz => ?_
    rcases rooted_insert hz with hold | hhz
    · exact hx z hold hxz
    · exact absurd (hh z hz hhz ▸ hxz) hanc

theorem weight_insert {h x : String} (hnew : h ∉ R) (hx : t.Rooted R x)
    (hanc : t.Rooted (insert h R) h → ¬ t.Anc x h) :
    t.weight (insert h R) x = t.weight R x := by
  classical
  unfold weight
  congr 1
  ext z
  rw [mem_weight, mem_weight]
  refine and_congr_right fun hxz => ⟨fun hz => ?_, fun hz => hz.mono (Finset.subset_insert h R)⟩
  rcases rooted_insert hz with hz | hhz
  · exact hz
  · rcases hxz.comparable hhz with hxh | hhx
    · exact absurd hxh (hanc (hz.of_anc hhz))
    · exact absurd hhx (hx.not_anc_of_notMem hnew)

/-- Something of the tree hangs below `u`. -/
def HasChild (t : BlockTree) (u : String) : Prop := ∃ c ∈ t.blocks, c ≠ GENESIS ∧ t.parent c = u

theorem hasChild_of_anc {u x : String} (hx : x ∈ t.blocks) (hanc : t.Anc u x) (hne : u ≠ x) :
    t.HasChild u := by
  obtain ⟨c, hc, hparent, hcx⟩ := hanc.exists_child hne
  refine ⟨c, ?_, hc, hparent⟩
  clear hanc hparent hne
  induction hcx with
  | refl => exact hx
  | step hb _ ih => exact ih (t.parent_mem _ hx hb)

/-- The blocks with children form one chain. -/
def Caterpillar (t : BlockTree) : Prop :=
  ∀ u v, t.HasChild u → t.HasChild v → t.Anc u v ∨ t.Anc v u

end BlockTree

/-! ## The choice -/

namespace PoWEthereum

/-- The choice between two connected blocks, when `R` is known. -/
def Heavier (t : BlockTree) (R : Finset String) (x y : String) : Prop :=
  (y ≠ x ∧ t.Anc y x) ∨
    (¬ t.Anc x y ∧ (t.weight R y < t.weight R x ∨ t.weight R y = t.weight R x ∧ t.rank y < t.rank x))

theorem decides (t : BlockTree) : Decides t preferCandidate (Heavier t) := by
  intro R p hp x y bx bz hrx hry hne hbx hbz hx hy
  rw [preferCandidate, hx, hy, PoW.findBlock_hash hbx, PoW.findBlock_hash hbz, hp.subtreeSize_eq hrx,
    hp.subtreeSize_eq hry, Heavier, BlockTree.rank_lt_iff]
  by_cases hyx : t.Anc y x
  · rw [if_pos ((hp.isAncestor_iff hrx).mpr ⟨Ne.symm hne, hyx⟩)]
    exact iff_of_true rfl (.inl ⟨Ne.symm hne, hyx⟩)
  rw [if_neg fun h => hyx ((hp.isAncestor_iff hrx).mp h).2]
  by_cases hxy : t.Anc x y
  · rw [if_pos ((hp.isAncestor_iff hry).mpr ⟨hne, hxy⟩)]
    simp [hxy, hyx]
  rw [if_neg fun h => hxy ((hp.isAncestor_iff hry).mp h).2]
  simp only [hyx, hxy, and_false, false_or, not_false_eq_true, true_and]
  by_cases hweight : t.weight R x = t.weight R y
  · by_cases hdepth : t.depth x = t.depth y
    · simp [hweight, hdepth]
    · have hdepth' : (t.depth x : Int) ≠ t.depth y := by omega
      have hdepth'' : t.depth y ≠ t.depth x := Ne.symm hdepth
      simp [hweight, hdepth', hdepth'']
  · have hweight' : (t.weight R x : Int) ≠ t.weight R y := by omega
    have hweight'' : t.weight R y ≠ t.weight R x := Ne.symm hweight
    simp [hweight', hweight'']

theorem heavier_iff_rank {x y : String} (hx : t.Rooted R x) (hy : t.Rooted R y) (hleaf : t.Leaf R x)
    (h : t.Anc y x ∨ t.Leaf R y) : Heavier t R x y ↔ t.rank y < t.rank x := by
  by_cases hyx : t.Anc y x
  · by_cases hne : y = x
    · subst hne
      simp [Heavier, Anc.refl]
    · exact iff_of_true (.inl ⟨hne, hyx⟩) (BlockTree.rank_lt_iff.mpr (.inl (hyx.depth_lt hne)))
  · have hxy : ¬ t.Anc x y := fun hanc => hyx (hleaf y hy hanc ▸ .refl y)
    rw [Heavier, hleaf.weight_eq_one hx, (h.resolve_left hyx).weight_eq_one hy]
    simp [hyx, hxy]

/-! ## Caterpillars -/

/-- The order of the choice on a caterpillar. -/
noncomputable def weightedRank (t : BlockTree) (R : Finset String) (x : String) :
    Lex (Nat × Lex (Nat × Stringᵒᵈ)) :=
  toLex (t.depth x, toLex (t.weight R x, OrderDual.toDual x))

theorem weightedRank_lt_iff {x y : String} : weightedRank t R x < weightedRank t R y ↔
    t.depth x < t.depth y ∨ t.depth x = t.depth y ∧
      (t.weight R x < t.weight R y ∨ t.weight R x = t.weight R y ∧ y < x) := by
  rw [weightedRank, weightedRank, Prod.Lex.toLex_lt_toLex]
  dsimp only
  rw [Prod.Lex.toLex_lt_toLex]
  rfl

theorem weightedRank_injective : Function.Injective (weightedRank t R) := by
  intro x y h
  have h := congrArg (fun k => (ofLex (ofLex k).2).2) h
  exact OrderDual.toDual.injective h

theorem depth_le_of_weight_lt (ht : t.Caterpillar) (hR : R ⊆ t.blocks) {x y : String}
    (hx : t.Rooted R x) (hy : t.Rooted R y) (hxy : ¬ t.Anc x y)
    (hweight : t.weight R y < t.weight R x) : t.depth y ≤ t.depth x := by
  have hpos := t.weight_pos hy
  obtain ⟨z, hz, hanc, hne⟩ := (BlockTree.one_lt_weight_iff hx).mp (by omega)
  have hxchild := BlockTree.hasChild_of_anc (hR hz.mem) hanc (Ne.symm hne)
  by_cases hroot : y = GENESIS
  · rw [hroot, depth_root]
    exact Nat.zero_le _
  have hdepth := depth_of_ne (t := t.toRootedTree) hroot
  rcases ht x (t.parent y) hxchild ⟨y, hR hy.mem, hroot, rfl⟩ with h | h
  · exact absurd (.step hroot h) hxy
  · have hne : t.parent y ≠ x := fun heq => hxy (heq ▸ anc_parent hroot)
    have := h.depth_lt hne
    omega

theorem heavier_iff (ht : t.Caterpillar) (hR : R ⊆ t.blocks) {x y : String} (hx : t.Rooted R x)
    (hy : t.Rooted R y) : Heavier t R x y ↔ weightedRank t R y < weightedRank t R x := by
  rw [weightedRank_lt_iff, Heavier, BlockTree.rank_lt_iff]
  by_cases hyx : t.Anc y x
  · by_cases hne : y = x
    · subst hne
      simp [Anc.refl]
    · exact iff_of_true (.inl ⟨hne, hyx⟩) (.inl (hyx.depth_lt hne))
  by_cases hxy : t.Anc x y
  · have hne : x ≠ y := fun heq => hyx (heq ▸ .refl x)
    have := hxy.depth_lt hne
    refine iff_of_false ?_ ?_
    · rintro (⟨-, h⟩ | ⟨h, -⟩)
      · exact hyx h
      · exact h hxy
    · rintro (h | ⟨h, -⟩) <;> omega
  simp only [hyx, hxy, and_false, false_or, not_false_eq_true, true_and]
  -- different branches
  have hle := depth_le_of_weight_lt ht hR hx hy hxy
  have hge := depth_le_of_weight_lt ht hR hy hx hyx
  constructor
  · rintro (h | ⟨h, hdepth | ⟨hdepth, hlt⟩⟩)
    · rcases (hle h).lt_or_eq with hlt | heq
      · exact .inl hlt
      · exact .inr ⟨heq, .inl h⟩
    · exact .inl hdepth
    · exact .inr ⟨hdepth, .inr ⟨h, hlt⟩⟩
  · rintro (hdepth | ⟨hdepth, h | ⟨h, hlt⟩⟩)
    · rcases lt_trichotomy (t.weight R y) (t.weight R x) with h | h | h
      · exact .inl h
      · exact .inr ⟨h, .inl hdepth⟩
      · have := hge h
        omega
    · exact .inl h
    · exact .inr ⟨h, .inr ⟨hdepth, hlt⟩⟩

/-- `b` is the connected block of the greatest weighted rank. -/
def Top (t : BlockTree) (R : Finset String) (b : String) : Prop :=
  t.Rooted R b ∧ ∀ x, t.Rooted R x → weightedRank t R x ≤ weightedRank t R b

theorem Top.unique {b b' : String} (hb : Top t R b) (hb' : Top t R b') : b = b' :=
  weightedRank_injective (le_antisymm (hb'.2 b hb.1) (hb.2 b' hb'.1))

theorem weightedRank_insert {h x : String} (hnew : h ∉ R) (hx : t.Rooted R x) :
    weightedRank t (insert h R) x = weightedRank t R x ∨ t.Rooted (insert h R) h ∧
      weightedRank t (insert h R) x < weightedRank t (insert h R) h := by
  by_cases hanc : t.Rooted (insert h R) h ∧ t.Anc x h
  · refine .inr ⟨hanc.1, weightedRank_lt_iff.mpr (.inl (hanc.2.depth_lt fun heq => ?_))⟩
    exact hnew (heq ▸ hx.mem)
  · rw [weightedRank, BlockTree.weight_insert hnew hx fun hh h => hanc ⟨hh, h⟩]
    exact .inl rfl

theorem weightedRank_le_insert {h x : String} : weightedRank t R x ≤ weightedRank t (insert h R) x := by
  classical
  have hle : t.weight R x ≤ t.weight (insert h R) x := by
    apply Finset.card_le_card
    intro z hz
    rw [BlockTree.mem_weight] at hz ⊢
    exact ⟨hz.1, hz.2.mono (Finset.subset_insert h R)⟩
  refine Prod.Lex.toLex_le_toLex.mpr (.inr ⟨rfl, Prod.Lex.toLex_le_toLex.mpr ?_⟩)
  exact hle.lt_or_eq.imp id fun heq => ⟨heq, le_rfl⟩

theorem top_register (ht : t.Caterpillar) (hp : Settled t R p) (hbest : Top t R p.bestHash) {c : Registration}
    (hc : c.DrawnFrom t) :
    Top t (insert c.hash R)
      (p.registerBlock preferCandidate c.hash c.parents c.miner c.parasiteFlag).bestHash := by
  obtain ⟨hsettled, hknown, hnew⟩ := hp.register (decides t) hc
  by_cases hh : c.hash ∈ R
  · rw [hknown hh, Finset.insert_eq_of_mem hh]
    exact hbest
  obtain ⟨D, hD, hfold⟩ := hnew hh
  refine ⟨hsettled.best, fun x hx => ?_⟩
  have hold : t.Rooted (insert c.hash R) p.bestHash := hp.best.mono (Finset.subset_insert _ R)
  have hmax := foldl_pick_max (weightedRank t (insert c.hash R)) (Heavier t (insert c.hash R)) D p.bestHash
    fun a ha b hb => by
      apply heavier_iff ht hsettled.sub ((hD.mem a).mp ha).2
      rcases hb with rfl | hb
      · exact hold
      · exact ((hD.mem b).mp hb).2
  rw [hfold]
  rcases rooted_insert hx with hxold | hanc
  · rcases weightedRank_insert hh hxold with heq | ⟨hconnected, hlt⟩
    · rw [heq]
      exact ((hbest.2 x hxold).trans weightedRank_le_insert).trans (hmax _ (.inl rfl))
    · exact hlt.le.trans (hmax _ (.inr ((hD.mem _).mpr ⟨.refl _, hconnected⟩)))
  · exact hmax x (.inr ((hD.mem x).mpr ⟨hanc, hx⟩))

theorem top_registerAll (ht : t.Caterpillar) {calls : List Registration} (hcalls : ∀ c ∈ calls, c.DrawnFrom t) :
    Top t (registeredBlocks calls) (PoW.fresh.registerAll preferCandidate calls).bestHash := by
  induction calls using List.reverseRecOn with
  | nil =>
    rw [registeredBlocks, registered_nil]
    refine ⟨rooted_root.mpr (Finset.mem_singleton_self _), fun x hx => ?_⟩
    rw [Finset.mem_singleton.mp hx.mem]
    exact le_rfl
  | append_singleton l c ih =>
    have hl := fun c hc => hcalls c (List.mem_append_left _ hc)
    rw [registeredBlocks, registered_concat, PoW.registerAll_concat]
    exact top_register ht (Settled.fresh.registerAll (decides t) hl) (ih hl) (hcalls c (by simp))

/-! ## Parents first -/

theorem longest_of_parentFirst {calls : List Registration} (hcalls : ∀ c ∈ calls, c.DrawnFrom t)
    (hfirst : ParentFirst t calls) :
    t.Longest (registeredBlocks calls) (PoW.fresh.registerAll preferCandidate calls).bestHash := by
  induction calls using List.reverseRecOn with
  | nil =>
    rw [registeredBlocks, registered_nil]
    exact .singleton
  | append_singleton l c ih =>
    have hl := fun c hc => hcalls c (List.mem_append_left _ hc)
    have hbest := ih hl hfirst.of_append
    have hall := hfirst.rooted
    obtain ⟨hsettled, hknown, hnew⟩ :=
      (Settled.fresh.registerAll (decides t) hl).register (decides t) (hcalls c (by simp))
    rw [registeredBlocks, registered_concat] at hall ⊢
    rw [PoW.registerAll_concat]
    generalize PoW.fresh.registerAll preferCandidate l = p at *
    by_cases hh : c.hash ∈ registeredBlocks l
    · rw [hknown hh, Finset.insert_eq_of_mem hh]
      exact hbest
    obtain ⟨D, hD, hfold⟩ := hnew hh
    have hc := hall c.hash (Finset.mem_insert_self _ _)
    -- nothing waits for the new block
    have hleaf : t.Leaf (insert c.hash (registeredBlocks l)) c.hash := by
      intro z hz hanc
      rcases Finset.mem_insert.mp hz.mem with heq | hmem
      · exact heq
      · exact absurd hanc ((hfirst.of_append.rooted z hmem).not_anc_of_notMem hh)
    have hold := hbest.1.mono (Finset.subset_insert c.hash (registeredBlocks l))
    have hmax := foldl_pick_max t.rank (Heavier t (insert c.hash (registered {GENESIS} l))) D p.bestHash fun a ha b hb => by
      obtain ⟨hanc, hrooted⟩ := (hD.mem a).mp ha
      obtain rfl := hleaf a hrooted hanc
      rcases hb with rfl | hb
      · exact heavier_iff_rank hc hold hleaf (hbest.leaf.insert hleaf)
      · obtain ⟨hanc', hrooted'⟩ := (hD.mem b).mp hb
        exact heavier_iff_rank hc hrooted' hleaf (.inl (hleaf b hrooted' hanc' ▸ .refl _))
    refine ⟨hsettled.best, fun x hx => ?_⟩
    rw [hfold, ← BlockTree.rank_le_iff]
    rcases rooted_insert hx with hx | hanc
    · exact (BlockTree.rank_le_iff.mpr (hbest.2 x hx)).trans (hmax _ (.inl rfl))
    · exact hmax x (.inr ((hD.mem x).mpr ⟨hanc, hx⟩))

theorem bestHash_orphans {u : String} (hp : Settled t R p) (hu : u ∉ R) {calls : List Registration}
    (hcalls : ∀ c ∈ calls, c.DrawnFrom t) (hbelow : ∀ c ∈ calls, t.Anc u c.hash ∧ c.hash ≠ u) :
    (p.registerAll preferCandidate calls).bestHash = p.bestHash := by
  induction calls using List.reverseRecOn with
  | nil => rfl
  | append_singleton l c ih =>
    have hl := fun c hc => hcalls c (List.mem_append_left [_] hc)
    have hlbelow := fun c hc => hbelow c (List.mem_append_left [_] hc)
    have hu' : u ∉ insert c.hash (registered R l) := by
      rw [← registered_concat, mem_registered, not_or]
      refine ⟨hu, fun hmem => ?_⟩
      obtain ⟨c, hc, heq⟩ := hmem
      exact (hbelow c hc).2 heq
    obtain ⟨-, hknown, hnew⟩ := (hp.registerAll (decides t) hl).register (decides t) (hcalls c (by simp))
    rw [PoW.registerAll_concat, ← ih hl hlbelow]
    by_cases hh : c.hash ∈ registered R l
    · exact hknown hh
    · obtain ⟨D, hD, hfold⟩ := hnew hh
      have hempty : D = [] := by
        apply List.eq_nil_iff_forall_not_mem.mpr
        intro x hx
        obtain ⟨hanc, hrooted⟩ := (hD.mem x).mp hx
        exact hu' (hrooted u ((hbelow c (by simp)).1.trans hanc))
      rw [hfold, hempty]
      rfl

theorem exists_anc_bestHash {u b : String} (hu : t.HasChild u) (hb : t.Longest t.blocks b)
    (hub : ¬ t.Anc u b) : ∃ calls : List Registration, (∀ c ∈ calls, c.DrawnFrom t) ∧
      registeredBlocks calls = t.blocks ∧
      t.Anc u (PoW.fresh.registerAll preferCandidate calls).bestHash := by
  classical
  obtain ⟨child, hchild, hchildne, hparent⟩ := hu
  have huroot : u ≠ GENESIS := fun heq => hub (by rw [heq]; exact root_anc b)
  have hublocks : u ∈ t.blocks := hparent ▸ t.parent_mem child hchild hchildne
  -- first all that does not lie below
  obtain ⟨calls, hdrawn, hfirst, hregistered⟩ := exists_parentFirst (t := t)
    (t.blocks.filter fun x => ¬ t.Anc u x) (Finset.filter_subset _ _)
    (Finset.mem_filter.mpr ⟨t.genesis_mem, fun hanc => huroot (anc_root_iff.mp hanc)⟩)
    (fun x hx hne => by
      rw [Finset.mem_filter] at hx ⊢
      exact ⟨t.parent_mem x hx.1 hne, fun hanc => hx.2 (.step hne hanc)⟩)
  have hsettled := (Settled.fresh (t := t)).registerAll (decides t) hdrawn
  have hunew : u ∉ registeredBlocks calls := by
    rw [hregistered, Finset.mem_filter]
    exact fun h => h.2 (.refl u)
  have hbest : (PoW.fresh.registerAll preferCandidate calls).bestHash = b := by
    refine (longest_of_parentFirst hdrawn hfirst).unique ⟨hfirst.rooted b ?_, fun x hx => hb.2 x ?_⟩
    · rw [hregistered, Finset.mem_filter]
      exact ⟨hb.1.mem, hub⟩
    · rw [hregistered] at hx
      exact hx.mono (Finset.filter_subset _ _)
  -- then the blocks below, as orphans
  obtain ⟨orphans, horphans⟩ : ∃ l : List Registration, ∀ c, c ∈ l ↔
      c = { hash := c.hash, parents := [t.parent c.hash] } ∧ c.hash ∈ t.blocks ∧ t.Anc u c.hash ∧
        c.hash ≠ u := by
    refine ⟨((t.blocks.filter fun x => t.Anc u x ∧ x ≠ u).toList.map fun x =>
      { hash := x, parents := [t.parent x] }), fun c => ?_⟩
    rw [List.mem_map]
    constructor
    · rintro ⟨x, hx, rfl⟩
      rw [Finset.mem_toList, Finset.mem_filter] at hx
      exact ⟨rfl, hx⟩
    · rintro ⟨heq, hc⟩
      exact ⟨c.hash, by rwa [Finset.mem_toList, Finset.mem_filter], heq.symm⟩
  have horphansDrawn : ∀ c ∈ orphans, c.DrawnFrom t := by
    intro c hc
    obtain ⟨heq, hmem, -⟩ := (horphans c).mp hc
    exact ⟨hmem, .inr (by rw [heq])⟩
  have hsettled' := hsettled.registerAll (decides t) horphansDrawn
  have hbest' := bestHash_orphans hsettled hunew horphansDrawn fun c hc => ((horphans c).mp hc).2.2
  rw [hbest, ← PoW.registerAll_append] at hbest'
  rw [← registered_append, ← PoW.registerAll_append] at hsettled'
  have hall : insert u (registeredBlocks (calls ++ orphans)) = t.blocks := by
    ext x
    rw [registeredBlocks, registered_append, Finset.mem_insert, mem_registered, ← registeredBlocks,
      hregistered, Finset.mem_filter]
    constructor
    · rintro (rfl | ⟨hx, -⟩ | ⟨c, hc, rfl⟩)
      · exact hublocks
      · exact hx
      · exact ((horphans c).mp hc).2.1
    · intro hx
      by_cases hxu : x = u
      · exact .inl hxu
      · by_cases hanc : t.Anc u x
        · exact .inr (.inr ⟨{ hash := x, parents := [t.parent x] }, (horphans _).mpr ⟨rfl, hx, hanc, hxu⟩,
            rfl⟩)
        · exact .inr (.inl ⟨hx, hanc⟩)
  have hunew' : u ∉ registeredBlocks (calls ++ orphans) := by
    rw [registeredBlocks, registered_append, mem_registered, not_or]
    refine ⟨hunew, fun hmem => ?_⟩
    obtain ⟨c, hc, heq⟩ := hmem
    exact ((horphans c).mp hc).2.2.2 heq
  -- and last the block itself
  have hudrawn : Registration.DrawnFrom t { hash := u, parents := [t.parent u] } := ⟨hublocks, .inr rfl⟩
  refine ⟨calls ++ orphans ++ [{ hash := u, parents := [t.parent u] }], ?_, ?_, ?_⟩
  · intro c hc
    simp only [List.mem_append, List.mem_singleton] at hc
    rcases hc with (hc | hc) | rfl
    · exact hdrawn c hc
    · exact horphansDrawn c hc
    · exact hudrawn
  · rw [registeredBlocks, registered_concat]
    exact hall
  · obtain ⟨-, -, hnew⟩ := hsettled'.register (decides t) hudrawn
    obtain ⟨D, hD, hfold⟩ := hnew hunew'
    change _ = D.foldl (pick (Heavier t (insert u (registeredBlocks (calls ++ orphans))))) _ at hfold
    rw [hall, hbest'] at hfold
    have hDmem : ∀ x, x ∈ D ↔ t.Anc u x ∧ t.Rooted t.blocks x := by
      intro x
      rw [hD.mem x]
      change t.Anc u x ∧ t.Rooted (insert u (registeredBlocks (calls ++ orphans))) x ↔ _
      rw [hall]
    have hurooted := t.rooted_blocks hublocks
    have hheavier : Heavier t t.blocks u b := by
      by_cases hbu : t.Anc b u
      · exact .inl ⟨fun heq => hub (heq ▸ .refl b), hbu⟩
      · refine .inr ⟨hub, .inl ?_⟩
        rw [hb.leaf.weight_eq_one hb.1, BlockTree.one_lt_weight_iff hurooted]
        refine ⟨child, t.rooted_blocks hchild, hparent ▸ anc_parent hchildne, fun heq => ?_⟩
        exact not_anc_parent hchildne (by rw [hparent, heq]; exact .refl u)
    rw [PoW.registerAll_concat, hfold]
    cases D with
    | nil => exact absurd ((hDmem u).mpr ⟨.refl u, hurooted⟩) List.not_mem_nil
    | cons x D =>
      obtain rfl : x = u := hD.head x D rfl
      rw [List.foldl_cons, pick, if_pos hheavier]
      rcases foldl_pick_mem (Heavier t t.blocks) x D with hx | hx
      · rw [hx]
        exact .refl x
      · exact ((hDmem _).mp (List.mem_cons_of_mem x hx)).1

/-- **Convergence.** Ledgers that received the blocks of a tree in different orders end with the same best
block exactly when no two blocks that have children lie on different branches. -/
theorem bestHash_converges_iff (t : BlockTree) :
    (∀ calls calls' : List Registration, (∀ c ∈ calls, c.DrawnFrom t) → (∀ c ∈ calls', c.DrawnFrom t) →
      registeredBlocks calls = t.blocks → registeredBlocks calls' = t.blocks →
      (PoW.fresh.registerAll preferCandidate calls).bestHash =
        (PoW.fresh.registerAll preferCandidate calls').bestHash) ↔
    t.Caterpillar := by
  constructor
  · intro h u v hu hv
    by_contra hcomparable
    rw [not_or] at hcomparable
    obtain ⟨calls, hdrawn, hfirst, hregistered⟩ :=
      exists_parentFirst t.blocks (Finset.Subset.refl _) t.genesis_mem t.parent_mem
    have hlongest := longest_of_parentFirst hdrawn hfirst
    have hsame : ∀ w, t.HasChild w → t.Anc w (PoW.fresh.registerAll preferCandidate calls).bestHash := by
      intro w hw
      by_contra hnot
      obtain ⟨calls', hdrawn', hregistered', hanc⟩ :=
        exists_anc_bestHash hw (hregistered ▸ hlongest) hnot
      rw [h calls' calls hdrawn' hdrawn hregistered' hregistered] at hanc
      exact hnot hanc
    rcases (hsame u hu).comparable (hsame v hv) with huv | hvu
    · exact hcomparable.1 huv
    · exact hcomparable.2 hvu
  · intro ht calls calls' hdrawn hdrawn' hregistered hregistered'
    have htop := top_registerAll ht hdrawn
    have htop' := top_registerAll ht hdrawn'
    rw [hregistered] at htop
    rw [hregistered'] at htop'
    exact htop.unique htop'

/-- The bushy branch wins when its root arrives last, the long one when the parents come first. -/
theorem bushyTree_diverges :
    ∃ calls calls' : List Registration, (∀ c ∈ calls, c.DrawnFrom bushyTree) ∧ calls.Perm calls' ∧
      registeredBlocks calls = bushyTree.blocks ∧
      (PoW.fresh.registerAll preferCandidate calls).bestHash = "a2" ∧
      (PoW.fresh.registerAll preferCandidate calls').bestHash = "y1" :=
  ⟨["a", "a1", "a2", "x", "y1", "y2", "y3"].map bushyCall,
    ["a", "a1", "a2", "y1", "y2", "y3", "x"].map bushyCall, by decide, by decide, by decide,
    by decide +kernel, by decide +kernel⟩

end PoWEthereum

end Quantas
