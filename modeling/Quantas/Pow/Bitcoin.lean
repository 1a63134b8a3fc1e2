import Quantas.Pow.Arrival

/-!
# Bitcoin: the longest chain, whatever the order of arrival

`PoWBitcoin` goes by `BlockTree.rank`, which does not depend on what else is known. So the fold over what a
block connects keeps the best block on top of all that is connected.
-/

namespace Quantas

open Lib.RootedTree

variable {t : BlockTree} {R : Finset String} {p : PoW}

namespace PoWBitcoin

theorem decides (t : BlockTree) :
    Decides t preferCandidate fun _ x y => t.rank y < t.rank x := by
  intro R p _ x y bx bz _ _ _ hbx hbz hx hy
  show _ ↔ t.rank y < t.rank x
  rw [BlockTree.rank_lt_iff, preferCandidate, hx, hy, PoW.findBlock_hash hbx, PoW.findBlock_hash hbz]
  by_cases hdepth : t.depth x = t.depth y
  · simp [hdepth]
  · have hne : (t.depth x : Int) ≠ t.depth y := by omega
    simp only [hne, ne_eq, not_false_eq_true, if_true, decide_eq_true_eq, Nat.cast_lt]
    constructor
    · exact .inl
    · rintro (hlt | ⟨heq, -⟩)
      · exact hlt
      · exact absurd heq.symm hdepth

theorem longest_register (hp : Settled t R p) (hbest : t.Longest R p.bestHash) {c : Registration}
    (hc : c.DrawnFrom t) :
    t.Longest (insert c.hash R)
      (p.registerBlock preferCandidate c.hash c.parents c.miner c.parasiteFlag).bestHash := by
  obtain ⟨hsettled, hknown, hnew⟩ := hp.register (decides t) hc
  by_cases hh : c.hash ∈ R
  · rw [hknown hh, Finset.insert_eq_of_mem hh]
    exact hbest
  · obtain ⟨D, hD, hfold⟩ := hnew hh
    refine ⟨hsettled.best, fun x hx => ?_⟩
    have hmax := foldl_pick_max t.rank (fun x y => t.rank y < t.rank x)
      D p.bestHash fun _ _ _ _ => Iff.rfl
    rw [hfold, ← BlockTree.rank_le_iff]
    rcases rooted_insert hx with hold | hanc
    · exact (BlockTree.rank_le_iff.mpr (hbest.2 x hold)).trans (hmax _ (.inl rfl))
    · exact hmax x (.inr ((hD.mem x).mpr ⟨hanc, hx⟩))

theorem longest_registerAll {calls : List Registration} (hcalls : ∀ c ∈ calls, c.DrawnFrom t) :
    t.Longest (registeredBlocks calls) (PoW.fresh.registerAll preferCandidate calls).bestHash := by
  induction calls using List.reverseRecOn with
  | nil =>
    rw [registeredBlocks, registered_nil]
    exact .singleton
  | append_singleton l c ih =>
    have hl := fun c hc => hcalls c (List.mem_append_left _ hc)
    rw [registeredBlocks, registered_concat, PoW.registerAll_concat]
    exact longest_register (Settled.fresh.registerAll (decides t) hl) (ih hl) (hcalls c (by simp))

/-- **The longest chain.** After any calls drawn from a tree, the best block is the one furthest from
GENESIS among the registered blocks with their whole ancestry registered, and of these the one with the
smallest hash; its stored height is that distance; and calls that register the same blocks agree on it. -/
theorem bestHash_longest (t : BlockTree) (calls : List Registration) (hcalls : ∀ c ∈ calls, c.DrawnFrom t) :
    t.Longest (registeredBlocks calls) (PoW.fresh.registerAll preferCandidate calls).bestHash ∧
    (∃ b, (PoW.fresh.registerAll preferCandidate calls).bestTip = some b ∧
      b.height = t.depth (PoW.fresh.registerAll preferCandidate calls).bestHash) ∧
    ∀ calls', (∀ c ∈ calls', c.DrawnFrom t) → registeredBlocks calls' = registeredBlocks calls →
      (PoW.fresh.registerAll preferCandidate calls').bestHash =
        (PoW.fresh.registerAll preferCandidate calls).bestHash := by
  have hlongest := longest_registerAll hcalls
  refine ⟨hlongest, ?_, fun calls' hcalls' hsame => ?_⟩
  · exact (Settled.fresh.registerAll (decides t) hcalls).height _ hlongest.1
  · have hlongest' := longest_registerAll hcalls'
    rw [hsame] at hlongest'
    exact hlongest'.unique hlongest

theorem bestHash_longest_orphans :
    (PoW.fresh.registerAll preferCandidate (["a2", "y1", "a1", "x", "a"].map bushyCall)).bestHash = "a2" ∧
    bushyTree.Longest (registeredBlocks (["a2", "y1", "a1", "x", "a"].map bushyCall))
      (PoW.fresh.registerAll preferCandidate (["a2", "y1", "a1", "x", "a"].map bushyCall)).bestHash :=
  ⟨by decide +kernel, (bestHash_longest bushyTree _ (by decide)).1⟩

end PoWBitcoin

end Quantas
