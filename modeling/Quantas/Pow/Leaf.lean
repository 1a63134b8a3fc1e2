import Quantas.Pow.Ethereum

/-!
# Ethereum: the best block is a leaf

`PoWEthereum` prefers a descendant to its ancestor, whatever they weigh, and a pass of updates comes to the
parents first. So whoever is the best block when its child is visited is replaced by the child
(`foldl_pick_childless`), and after every registration the best block is connected and has no registered child.
-/

namespace Quantas

open Lib.RootedTree

variable {t : BlockTree} {R : Finset String} {p : PoW}

theorem foldl_pick_childless {better : String → String → Prop} {h : String} {D : List String} (y : String)
    (hbetter : ∀ c ∈ D, better c (t.parent c)) (hroot : GENESIS ∉ D) (hnodup : D.Nodup)
    (hhead : t.parent h ∉ D) (horder : ∀ l₁ x l₂, D = l₁ ++ x :: l₂ → x = h ∨ t.parent x ∈ l₁) :
    ∀ c ∈ D, t.parent c ≠ D.foldl (pick better) y := by
  induction D using List.reverseRecOn with
  | nil => simp
  | append_singleton l x ih =>
    have hx : x ∉ l := by
      rw [← List.concat_eq_append, List.nodup_concat] at hnodup
      exact hnodup.1
    have hne : x ≠ GENESIS := by
      rintro rfl
      exact hroot (List.mem_append_right _ (List.mem_singleton_self _))
    have hrest := ih (fun c hc => hbetter c (List.mem_append_left _ hc))
      (fun hmem => hroot (List.mem_append_left _ hmem)) (List.Nodup.of_append_left hnodup)
      (fun hmem => hhead (List.mem_append_left _ hmem))
      fun l₁ z l₂ hsplit => horder l₁ z (l₂ ++ [x]) (by rw [hsplit]; simp)
    -- no child of `x` comes before it
    have hchildless : ∀ c ∈ l, t.parent c ≠ x := by
      intro c hc hparent
      obtain ⟨l₁, l₂, hsplit⟩ := List.append_of_mem hc
      rcases horder l₁ c (l₂ ++ [x]) (by rw [hsplit]; simp) with rfl | hbefore
      · apply hhead
        rw [hparent]
        exact List.mem_append_right _ (List.mem_singleton_self _)
      · apply hx
        rw [hsplit, ← hparent]
        exact List.mem_append_left _ hbefore
    intro c hc
    rw [List.foldl_append, List.foldl_cons, List.foldl_nil, pick]
    by_cases hpick : better x (l.foldl (pick better) y)
    · rw [if_pos hpick]
      rcases List.mem_append.mp hc with hc | hc
      · exact hchildless c hc
      · rw [List.mem_singleton.mp hc]
        intro hself
        exact not_anc_parent hne (by rw [hself]; exact .refl x)
    · rw [if_neg hpick]
      rcases List.mem_append.mp hc with hc | hc
      · exact hrest c hc
      · rw [List.mem_singleton.mp hc]
        intro hparent
        apply hpick
        rw [← hparent]
        exact hbetter x (List.mem_append_right _ (List.mem_singleton_self _))

/-- No block of `R` names `b` as its parent. -/
def BlockTree.Childless (t : BlockTree) (R : Finset String) (b : String) : Prop :=
  ∀ c ∈ R, c ≠ GENESIS → t.parent c ≠ b

namespace PoWEthereum

theorem heavier_parent {c : String} (hne : c ≠ GENESIS) : Heavier t R c (t.parent c) := by
  refine .inl ⟨fun heq => ?_, anc_parent hne⟩
  exact not_anc_parent hne (by rw [heq]; exact .refl c)

theorem childless_register (hp : Settled t R p) (hbest : t.Childless R p.bestHash) {c : Registration}
    (hc : c.DrawnFrom t) :
    t.Childless (insert c.hash R)
      (p.registerBlock preferCandidate c.hash c.parents c.miner c.parasiteFlag).bestHash := by
  obtain ⟨hmem, hparents⟩ := hc
  by_cases hh : c.hash ∈ R
  · obtain ⟨-, hsame⟩ := hp.register_known preferCandidate hh c.parents c.miner c.parasiteFlag
    rw [hsame, Finset.insert_eq_of_mem hh]
    exact hbest
  have hne : c.hash ≠ GENESIS := fun heq => hh (heq ▸ hp.genesis)
  rw [hparents.resolve_left hne]
  obtain ⟨hsettled, D, hnodup, hD, horder, hfold⟩ :=
    hp.register_new_inOrder (decides t) hmem hh c.miner c.parasiteFlag
  have hroot : GENESIS ∉ D := fun hroot => hne (anc_root_iff.mp ((hD _).mp hroot).1)
  have hbetter : ∀ x ∈ D, Heavier t (insert c.hash R) x (t.parent x) := fun x hx =>
    heavier_parent fun heq => hroot (heq ▸ hx)
  have hpass := foldl_pick_childless p.bestHash hbetter hroot hnodup
    (fun hup => not_anc_parent hne ((hD _).mp hup).1) horder
  have hconnected := hsettled.best
  rw [hfold] at hconnected ⊢
  intro x hx hxne hparent
  -- a registered child of the best block is connected, so it is in the pass or was there before
  have hxrooted : t.Rooted (insert c.hash R) x := (rooted_iff hxne).mpr ⟨hx, hparent ▸ hconnected⟩
  rcases rooted_insert hxrooted with hold | hanc
  · rcases foldl_pick_mem (Heavier t (insert c.hash R)) p.bestHash D with hsame | hnew
    · rw [hsame] at hparent
      exact hbest x hold.mem hxne hparent
    · have hup : t.Anc c.hash x := ((hD _).mp hnew).1.trans (hparent ▸ anc_parent hxne)
      exact hold.not_anc_of_notMem hh hup
  · exact hpass x ((hD x).mpr ⟨hanc, hxrooted⟩) hparent

theorem childless_registerAll {calls : List Registration} (hcalls : ∀ c ∈ calls, c.DrawnFrom t) :
    t.Childless (registeredBlocks calls) (PoW.fresh.registerAll preferCandidate calls).bestHash := by
  induction calls using List.reverseRecOn with
  | nil =>
    rw [registeredBlocks, registered_nil]
    exact fun c hc hne => absurd (Finset.mem_singleton.mp hc) hne
  | append_singleton l c ih =>
    have hl := fun c hc => hcalls c (List.mem_append_left _ hc)
    rw [registeredBlocks, registered_concat, PoW.registerAll_concat]
    exact childless_register (Settled.fresh.registerAll (decides t) hl) (ih hl) (hcalls c (by simp))

/-- **The head is a connected leaf.** After any calls about blocks of a tree, orphans and repeats among them,
the whole ancestry of the best block is registered and no child of it is, in the tree and by what the ledger
itself finds; and the next block is mined on it. -/
theorem bestHash_leaf {calls : List Registration} (hcalls : ∀ c ∈ calls, c.DrawnFrom t) :
    (∀ a, t.Anc a (PoW.fresh.registerAll preferCandidate calls).bestHash → a ∈ registeredBlocks calls) ∧
      t.Childless (registeredBlocks calls) (PoW.fresh.registerAll preferCandidate calls).bestHash ∧
      (PoW.fresh.registerAll preferCandidate calls).hasFullAncestry
        (PoW.fresh.registerAll preferCandidate calls).bestHash = true ∧
      (PoW.fresh.registerAll preferCandidate calls).children
        (PoW.fresh.registerAll preferCandidate calls).bestHash = [] ∧
      (PoW.fresh.registerAll preferCandidate calls).parentsForNextBlock =
        [(PoW.fresh.registerAll preferCandidate calls).bestHash] := by
  have hsettled := (Settled.fresh (t := t)).registerAll (decides t) hcalls
  have hchildless := childless_registerAll hcalls
  rw [← registeredBlocks] at hsettled
  generalize PoW.fresh.registerAll preferCandidate calls = p at *
  refine ⟨hsettled.best, hchildless, (hsettled.hasFullAncestry_iff _).mpr hsettled.best, ?_, ?_⟩
  · apply List.eq_nil_iff_forall_not_mem.mpr
    intro c hc
    obtain ⟨hmem, hne, hparent⟩ := (hsettled.children _ c).mp hc
    exact hchildless c hmem hne hparent
  · obtain ⟨b, hb, -⟩ := hsettled.known _ hsettled.best.mem
    rw [PoW.parentsForNextBlock, PoW.bestTip, hb, PoW.selectParentsForNextBlock, PoW.findBlock_hash hb]

theorem bestHash_leaf_bushyTree :
    let calls := ["y1", "y2", "a2", "x", "a1", "y1", "a"].map bushyCall
    (PoW.fresh.registerAll preferCandidate calls).children
      (PoW.fresh.registerAll preferCandidate calls).bestHash = [] :=
  (bestHash_leaf (t := bushyTree) (by decide)).2.2.2.1

end PoWEthereum

end Quantas
