import Quantas.Pow.Tree

/-!
# What a registration does to the best block

`Settled t R p`: the ledger `p` holds the blocks `R` of the tree, the connected ones have their depth as
height, and the best block is connected. Registering a block keeps this. If the block becomes connected, the
breadth-first pass visits exactly what it connects, parents first, and the best block runs through these
visits as through a fold that picks the better one each time (`Settled.register`); if not, the best block
stays. `Decides t prefer better` ties a subclass's choice to a relation on the tree.
-/

namespace Quantas

open Lib.RootedTree

variable {t : BlockTree} {R : Finset String} {p : PoW} {prefer : PreferCandidate}

/-- The connected blocks have their depth as height, and the best block is one of them. -/
structure Settled (t : BlockTree) (R : Finset String) (p : PoW) : Prop extends Holds t R p where
  height : ∀ x, t.Rooted R x → ∃ b, p.findBlock x = some b ∧ b.height = t.depth x
  best : t.Rooted R p.bestHash

/-- On a ledger of the tree the subclass prefers `x` to `y` exactly when `better` does. -/
def Decides (t : BlockTree) (prefer : PreferCandidate) (better : Finset String → String → String → Prop) :
    Prop :=
  ∀ R p, Holds t R p → ∀ x y bx bz, t.Rooted R x → t.Rooted R y → x ≠ y →
    p.findBlock x = some bx → p.findBlock y = some bz → bx.height = t.depth x → bz.height = t.depth y →
    (prefer p bx (some bz) = true ↔ better R x y)

open Classical in
noncomputable def pick (better : String → String → Prop) (incumbent candidate : String) : String :=
  if better candidate incumbent then candidate else incumbent

theorem pick_eq (better : String → String → Prop) (y x : String) :
    pick better y x = y ∨ pick better y x = x := by
  unfold pick
  split_ifs
  · exact .inr rfl
  · exact .inl rfl

theorem foldl_pick_mem (better : String → String → Prop) (y : String) (l : List String) :
    l.foldl (pick better) y = y ∨ l.foldl (pick better) y ∈ l := by
  induction l generalizing y with
  | nil => exact .inl rfl
  | cons x l ih =>
    rw [List.foldl_cons]
    rcases ih (pick better y x) with h | h
    · rcases pick_eq better y x with hx | hx
      · exact .inl (h.trans hx)
      · exact .inr (by rw [h, hx]; exact List.mem_cons_self)
    · exact .inr (List.mem_cons_of_mem x h)

/-! ## One visit -/

namespace Holds

theorem recomputeHeight_eq (hp : Holds t R p) {x : String} (hx : x ∈ R) :
    ∃ n : Int, p.recomputeHeight x = p.modify x (fun b => { b with height := n }) ∧
      (x ≠ GENESIS → ∀ b, p.findBlock (t.parent x) = some b → b.height = t.depth (t.parent x) →
        n = t.depth x) := by
  obtain ⟨b, hb, hpar⟩ := hp.known x hx
  unfold PoW.recomputeHeight
  rw [hb]
  by_cases hne : x = GENESIS
  · subst hne
    refine ⟨0, ?_, fun h => absurd rfl h⟩
    simp only [hpar, BlockTree.parentsOf, if_true]
  · rw [BlockTree.parentsOf, if_neg hne] at hpar
    simp only [hpar, List.cons_ne_nil, if_false]
    refine ⟨_, rfl, fun _ bp hbp hheight => ?_⟩
    have hdepth := depth_of_ne (t := t.toRootedTree) hne
    simp only [PoW.maxParentHeight, hbp, hheight]
    rw [max_eq_right (by omega), if_pos (by omega), hdepth]
    push_cast
    ring

theorem maybePromoteBest_of_unconnected (hp : Holds t R p) {x : String} (hx : ¬ t.Rooted R x) :
    p.maybePromoteBest prefer x = p := by
  unfold PoW.maybePromoteBest
  cases p.findBlock x with
  | none => rfl
  | some b => simp only [hp.hasFullAncestry_iff, hx, not_false_eq_true, if_true]

theorem maybePromoteBest_of_connected (hp : Holds t R p) {x : String} (hx : t.Rooted R x)
    (hbest : x ≠ p.bestHash) {b : BlockRecord} (hb : p.findBlock x = some b) :
    p.maybePromoteBest prefer x =
      if prefer p b p.bestTip then { p with bestHash := x } else p := by
  unfold PoW.maybePromoteBest
  rw [hb]
  simp only [hp.hasFullAncestry_iff, hx, not_true_eq_false, if_false, hbest]

end Holds

theorem PoW.children_visit (x : String) : (p.visit prefer x).children = p.children := by
  have hrecompute : (p.recomputeHeight x).children = p.children := by
    unfold PoW.recomputeHeight
    cases p.findBlock x with
    | none => rfl
    | some b =>
      dsimp only
      split_ifs <;> rfl
  have hpromote : ∀ q : PoW, (q.maybePromoteBest prefer x).children = q.children := by
    intro q
    unfold PoW.maybePromoteBest
    cases q.findBlock x with
    | none => rfl
    | some b =>
      dsimp only
      split_ifs <;> rfl
  rw [PoW.visit, hpromote, hrecompute]

theorem PoW.propagateLoop_eq (fuel : Nat) (p : PoW) (queue visited l : List String)
    (hl : Lib.visitAll p.children PoW.enqueueAll fuel queue visited = visited ++ l) :
    PoW.propagateLoop prefer fuel p queue visited = l.foldl (fun p x => p.visit prefer x) p := by
  induction fuel generalizing p queue visited l with
  | zero =>
    obtain rfl : l = [] := by simpa [Lib.visitAll] using hl
    rfl
  | succ fuel ih =>
    cases queue with
    | nil =>
      obtain rfl : l = [] := by simpa [Lib.visitAll] using hl
      rfl
    | cons x queue =>
      rw [Lib.visitAll] at hl
      rw [PoW.propagateLoop]
      by_cases hx : x ∈ visited
      · rw [if_pos hx] at hl ⊢
        exact ih p queue visited l hl
      · rw [if_neg hx] at hl ⊢
        obtain ⟨l', hl', -⟩ := Lib.visitAll_shape p.children Holds.enqueueAll_perm fuel
          (PoW.enqueueAll (p.children x) queue) (visited ++ [x])
        rw [hl', List.append_assoc, List.append_cancel_left_eq] at hl
        rw [← hl, List.singleton_append, List.foldl_cons]
        refine ih (p.visit prefer x) _ (visited ++ [x]) l' ?_
        rw [PoW.children_visit]
        exact hl'

/-! ## A pass of visits -/

theorem PoW.findBlock_setHeight (x : String) (n : Int) (y : String) :
    (p.modify x fun b => { b with height := n }).findBlock y =
      (p.findBlock y).map fun b => if y = x then { b with height := n } else b :=
  PoW.findBlock_modify x (fun b => { b with height := n }) (fun _ => rfl) y

/-- The blocks of `S` have their depth as height. -/
def Measured (t : BlockTree) (S : String → Prop) (p : PoW) : Prop :=
  ∀ x, S x → ∃ b, p.findBlock x = some b ∧ b.height = t.depth x

theorem Measured.setHeight {S : String → Prop} (h : Measured t S p) {x : String} (hx : ¬ S x) (n : Int) :
    Measured t S (p.modify x fun b => { b with height := n }) := by
  intro y hy
  obtain ⟨b, hb, hheight⟩ := h y hy
  have hne : y ≠ x := fun heq => hx (heq ▸ hy)
  refine ⟨b, ?_, hheight⟩
  rw [PoW.findBlock_setHeight, hb, Option.map_some, if_neg hne]

theorem foldl_visit_unconnected (prefer : PreferCandidate) {S : String → Prop} {l : List String}
    (hp : Holds t R p)
    (hS : Measured t S p) (hl : ∀ x ∈ l, x ∈ R ∧ ¬ t.Rooted R x ∧ ¬ S x) :
    Holds t R (l.foldl (fun p x => p.visit prefer x) p) ∧
    Measured t S (l.foldl (fun p x => p.visit prefer x) p) ∧
    (l.foldl (fun p x => p.visit prefer x) p).bestHash = p.bestHash := by
  induction l generalizing p with
  | nil => exact ⟨hp, hS, rfl⟩
  | cons x l ih =>
    obtain ⟨hmem, hunconnected, hnotS⟩ := hl x List.mem_cons_self
    obtain ⟨n, hn, -⟩ := hp.recomputeHeight_eq hmem
    have hp' : Holds t R (p.modify x fun b => { b with height := n }) :=
      hp.modify x _ (fun _ => rfl) (fun _ => rfl)
    have hvisit : p.visit prefer x = p.modify x fun b => { b with height := n } := by
      rw [PoW.visit, hn, hp'.maybePromoteBest_of_unconnected hunconnected]
    rw [List.foldl_cons, hvisit]
    exact ih hp' (hS.setHeight hnotS n) fun y hy => hl y (List.mem_cons_of_mem x hy)

theorem foldl_visit_connected {better : Finset String → String → String → Prop}
    (hd : Decides t prefer better) {S : String → Prop} {l : List String} (hp : Holds t R p)
    (hS : Measured t S p) (hbest : S p.bestHash) (hconnected : ∀ x, S x → t.Rooted R x)
    (hl : ∀ x ∈ l, t.Rooted R x ∧ x ≠ GENESIS ∧ ¬ S x) (hnodup : l.Nodup)
    (horder : ∀ l₁ x l₂, l = l₁ ++ x :: l₂ → S (t.parent x) ∨ t.parent x ∈ l₁) :
    Holds t R (l.foldl (fun p x => p.visit prefer x) p) ∧
    Measured t (fun x => S x ∨ x ∈ l) (l.foldl (fun p x => p.visit prefer x) p) ∧
    (l.foldl (fun p x => p.visit prefer x) p).bestHash = l.foldl (pick (better R)) p.bestHash := by
  induction l generalizing p S with
  | nil => exact ⟨hp, fun x hx => hS x (by simpa using hx), rfl⟩
  | cons x l ih =>
    obtain ⟨hx, hne, hnotS⟩ := hl x List.mem_cons_self
    obtain ⟨n, hn, hheight⟩ := hp.recomputeHeight_eq hx.mem
    obtain ⟨bp, hbp, hbpHeight⟩ := hS (t.parent x) (by simpa using horder [] x l rfl)
    obtain rfl := hheight hne bp hbp hbpHeight
    obtain ⟨b, hb, -⟩ := hp.known x hx.mem
    obtain ⟨by', hby, hbyHeight⟩ := hS p.bestHash hbest
    have hxbest : x ≠ p.bestHash := fun heq => hnotS (heq ▸ hbest)
    -- the ledger after the height has been set
    obtain ⟨q, hq⟩ : ∃ q, q = p.modify x fun b => { b with height := t.depth x } := ⟨_, rfl⟩
    have hpq : Holds t R q := hq ▸ hp.modify x _ (fun _ => rfl) (fun _ => rfl)
    have hSq : Measured t S q := hq ▸ hS.setHeight hnotS _
    have hbestq : q.bestHash = p.bestHash := by rw [hq]; rfl
    have hbq : q.findBlock x = some { b with height := t.depth x } := by
      rw [hq, PoW.findBlock_setHeight, hb, Option.map_some, if_pos rfl]
    have hbyq : q.findBlock p.bestHash = some by' := by
      rw [hq, PoW.findBlock_setHeight, hby, Option.map_some, if_neg (Ne.symm hxbest)]
    have hprefer : prefer q { b with height := t.depth x } q.bestTip = true ↔ better R x p.bestHash := by
      rw [PoW.bestTip, hbestq, hbyq]
      exact hd R q hpq x p.bestHash _ by' hx (hconnected _ hbest) hxbest hbq hbyq rfl hbyHeight
    have hvisit : p.visit prefer x = { q with bestHash := pick (better R) p.bestHash x } := by
      rw [PoW.visit, hn, ← hq, hpq.maybePromoteBest_of_connected hx (hbestq ▸ hxbest) hbq, pick]
      by_cases hb : better R x p.bestHash
      · rw [if_pos (hprefer.mpr hb), if_pos hb]
      · rw [if_neg fun h => hb (hprefer.mp h), if_neg hb, ← hbestq]
    rw [List.foldl_cons, hvisit, List.foldl_cons]
    have hmeasured : Measured t (fun y => S y ∨ y = x)
        { q with bestHash := pick (better R) p.bestHash x } := by
      rintro y (hy | rfl)
      · exact hSq y hy
      · exact ⟨_, hbq, rfl⟩
    obtain ⟨hheld, hmeasured', hfold⟩ := ih (hpq.setBest _) hmeasured
      (by
        unfold pick
        split_ifs
        · exact .inr rfl
        · exact .inl hbest)
      (by
        rintro y (hy | rfl)
        · exact hconnected y hy
        · exact hx)
      (fun y hy => by
        obtain ⟨hy', hyne, hyS⟩ := hl y (List.mem_cons_of_mem x hy)
        refine ⟨hy', hyne, ?_⟩
        rintro (h | rfl)
        · exact hyS h
        · exact (List.nodup_cons.mp hnodup).1 hy)
      (List.nodup_cons.mp hnodup).2
      (fun l₁ y l₂ hsplit => by
        rcases horder (x :: l₁) y l₂ (by rw [hsplit, List.cons_append]) with h | h
        · exact .inl (.inl h)
        · exact (List.mem_cons.mp h).imp .inr id)
    refine ⟨hheld, fun y hy => hmeasured' y ?_, hfold⟩
    rcases hy with hy | hy
    · exact .inl (.inl hy)
    · exact (List.mem_cons.mp hy).elim (fun h => .inl (.inr h)) .inr

/-! ## Registration -/

/-- The ledger right after a new block has been stored, before the pass of updates. -/
def PoW.store (p : PoW) (hash : String) (parents : List String) (miner : InterfaceId)
    (parasiteFlag : Bool) : PoW :=
  { p with
    blocks := p.blocks ++ [{ hash, parents, miner, parasite := parasiteFlag }]
    children := p.linkToParents hash parents }

theorem Holds.store (hp : Holds t R p) {h : String} (hmem : h ∈ t.blocks) (hnew : h ∉ R)
    (miner : InterfaceId) (parasite : Bool) :
    Holds t (insert h R) (p.store h [t.parent h] miner parasite) := by
  have hne : h ≠ GENESIS := fun heq => hnew (heq ▸ hp.genesis)
  have hfind : ∀ k, (p.store h [t.parent h] miner parasite).findBlock k =
      (p.findBlock k).or (if h = k then
        some { hash := h, parents := [t.parent h], miner, parasite } else none) := by
    intro k
    rw [PoW.findBlock, PoW.store, List.find?_append]
    by_cases hk : h = k <;> simp [hk, PoW.findBlock]
  have hlink : ∀ a, (p.store h [t.parent h] miner parasite).children a =
      if a = t.parent h then p.children a ++ [h] else p.children a := by
    intro a
    have hunlinked : h ∉ p.children (t.parent h) := fun hc => hnew ((hp.children _ _).mp hc).1
    simp only [PoW.store, PoW.linkToParents, List.foldl_cons, List.foldl_nil, if_neg hunlinked]
    by_cases ha : a = t.parent h
    · subst ha
      rw [Function.update_self, if_pos rfl]
    · rw [Function.update_of_ne ha, if_neg ha]
  refine ⟨?sub, ?genesis, ?known, ?records, ?children, ?nodup, ?references⟩
  case sub => exact Finset.insert_subset hmem hp.sub
  case genesis => exact Finset.mem_insert_of_mem hp.genesis
  case known =>
    intro k hk
    rw [hfind]
    rcases Finset.mem_insert.mp hk with rfl | hk
    · rw [hp.unknown k hnew, if_pos rfl]
      exact ⟨_, rfl, by rw [BlockTree.parentsOf, if_neg hne]⟩
    · obtain ⟨b, hb, hpar⟩ := hp.known k hk
      exact ⟨b, by rw [hb, Option.some_or], hpar⟩
  case records =>
    intro b hb
    rcases List.mem_append.mp hb with hb | hb
    · exact (hp.records b hb).imp_left Finset.mem_insert_of_mem
    · rw [List.mem_singleton.mp hb]
      exact ⟨Finset.mem_insert_self h R, by rw [BlockTree.parentsOf, if_neg hne]⟩
  case children =>
    intro a c
    rw [hlink, Finset.mem_insert]
    by_cases ha : a = t.parent h
    · rw [if_pos ha, List.mem_append, hp.children a c, List.mem_singleton]
      constructor
      · rintro (⟨hc, hcne, hpar⟩ | rfl)
        · exact ⟨.inr hc, hcne, hpar⟩
        · exact ⟨.inl rfl, hne, ha.symm⟩
      · rintro ⟨rfl | hc, hcne, hpar⟩
        · exact .inr rfl
        · exact .inl ⟨hc, hcne, hpar⟩
    · rw [if_neg ha, hp.children a c]
      constructor
      · exact fun hc => ⟨.inr hc.1, hc.2⟩
      · rintro ⟨rfl | hc, hcne, hpar⟩
        · exact absurd hpar.symm ha
        · exact ⟨hc, hcne, hpar⟩
  case nodup =>
    intro a
    rw [hlink]
    split_ifs
    · rw [← List.concat_eq_append, List.nodup_concat]
      exact ⟨fun hc => hnew ((hp.children _ _).mp hc).1, hp.nodup a⟩
    · exact hp.nodup a
  case references =>
    rw [Finset.card_insert_of_notMem hnew, ← hp.references]
    simp [PoW.parentReferences, PoW.store]

theorem Holds.ensureBestValid_eq (hp : Holds t R p) (hbest : t.Rooted R p.bestHash) :
    p.ensureBestValid prefer = p := by
  unfold PoW.ensureBestValid
  rw [if_pos ⟨(hp.mem_iff _).mpr hbest.mem, (hp.hasFullAncestry_iff _).mpr hbest⟩]

namespace Settled

theorem fresh : Settled t {GENESIS} PoW.fresh where
  toHolds := .fresh
  height := by
    intro x hx
    obtain rfl := Finset.mem_singleton.mp hx.mem
    exact ⟨{ hash := GENESIS, parents := [] }, by decide, by rw [depth_root]; rfl⟩
  best := rooted_root.mpr (Finset.mem_singleton_self _)

theorem register_known (hp : Settled t R p) (prefer : PreferCandidate) {h : String} (hh : h ∈ R)
    (parents : List String) (miner : InterfaceId) (parasite : Bool) :
    Settled t R (p.registerBlock prefer h parents miner parasite) ∧
      (p.registerBlock prefer h parents miner parasite).bestHash = p.bestHash := by
  obtain ⟨b, hb, -⟩ := hp.known h hh
  unfold PoW.registerBlock
  rw [hb]
  refine ⟨⟨hp.toHolds.modify h _ (fun _ => rfl) (fun _ => rfl), ?_, hp.best⟩, rfl⟩
  intro x hx
  obtain ⟨bx, hbx, hheight⟩ := hp.height x hx
  rw [PoW.findBlock_modify h (fun b => { b with parasite := b.parasite || parasite }) (fun _ => rfl), hbx]
  refine ⟨_, rfl, ?_⟩
  split_ifs <;> exact hheight

theorem register_new_inOrder {better : Finset String → String → String → Prop} (hp : Settled t R p)
    (hd : Decides t prefer better) {h : String} (hmem : h ∈ t.blocks) (hnew : h ∉ R)
    (miner : InterfaceId) (parasite : Bool) :
    Settled t (insert h R) (p.registerBlock prefer h [t.parent h] miner parasite) ∧
    ∃ D : List String, D.Nodup ∧ (∀ x, x ∈ D ↔ t.Anc h x ∧ t.Rooted (insert h R) x) ∧
      (∀ l₁ x l₂, D = l₁ ++ x :: l₂ → x = h ∨ t.parent x ∈ l₁) ∧
      (p.registerBlock prefer h [t.parent h] miner parasite).bestHash =
        D.foldl (pick (better (insert h R))) p.bestHash := by
  have hne : h ≠ GENESIS := fun heq => hnew (heq ▸ hp.genesis)
  have hstored := hp.toHolds.store hmem hnew miner parasite
  have hhR : h ∈ insert h R := Finset.mem_insert_self h R
  -- the order of the visits
  obtain ⟨l, hl⟩ : ∃ l, l = Lib.visitAll (p.store h [t.parent h] miner parasite).children PoW.enqueueAll
      (p.store h [t.parent h] miner parasite).loopFuel [h] [] := ⟨_, rfl⟩
  have hlnodup : l.Nodup := hl ▸ Lib.nodup_visitAll Holds.enqueueAll_perm _ _
  have hmeml : ∀ x, x ∈ l ↔ Relation.ReflTransGen
      (fun a c => c ∈ (p.store h [t.parent h] miner parasite).children a) h x := by
    intro x
    rw [hl]
    exact hstored.mem_visitAll_children Holds.enqueueAll_perm hhR
  have horder : ∀ l₁ x l₂, l = l₁ ++ x :: l₂ → x = h ∨ t.parent x ∈ l₁ := by
    intro l₁ x l₂ hsplit
    rcases Lib.visitAll_order Holds.enqueueAll_perm (hl.symm.trans hsplit) with hx | ⟨y, hy, hxy⟩
    · exact .inl (List.mem_singleton.mp hx)
    · exact .inr (hstored.parent_mem hxy ▸ hy)
  have hregister : p.registerBlock prefer h [t.parent h] miner parasite =
      (l.foldl (fun p x => p.visit prefer x)
        (p.store h [t.parent h] miner parasite)).ensureBestValid prefer := by
    unfold PoW.registerBlock
    rw [hp.unknown h hnew]
    change ((p.store h [t.parent h] miner parasite).propagateUpdates prefer h) = _
    rw [PoW.propagateUpdates, PoW.propagateLoop_eq _ _ _ _ l (by rw [hl, List.nil_append])]
  have hmeasured : Measured t (t.Rooted R) (p.store h [t.parent h] miner parasite) := by
    intro x hx
    obtain ⟨b, hb, hheight⟩ := hp.height x hx
    refine ⟨b, ?_, hheight⟩
    rw [PoW.findBlock, PoW.store, List.find?_append]
    rw [PoW.findBlock] at hb
    rw [hb, Option.some_or]
  by_cases hconnected : t.Rooted (insert h R) h
  · -- all that is visited gets connected
    have hparent : t.Rooted R (t.parent h) := by
      have hup := hconnected.of_anc (anc_parent hne)
      exact (rooted_insert hup).resolve_right (not_anc_parent hne)
    obtain ⟨hheld, hmeasured', hfold⟩ := foldl_visit_connected hd (l := l) hstored hmeasured hp.best
      (fun x hx => hx.mono (Finset.subset_insert h R))
      (fun x hx => by
        have hreach := (hmeml x).mp hx
        have hanc := hstored.anc_of_reach hreach
        refine ⟨hstored.rooted_of_reach hconnected hreach, ?_, fun h' => h'.not_anc_of_notMem hnew hanc⟩
        rintro rfl
        exact hne (anc_root_iff.mp hanc))
      hlnodup
      (fun l₁ x l₂ hsplit => by
        rcases horder l₁ x l₂ hsplit with hx | hx
        · exact .inl (hx ▸ hparent)
        · exact .inr hx)
    have hcases : ∀ x, t.Rooted (insert h R) x → t.Rooted R x ∨ x ∈ l := fun x hx =>
      (rooted_insert hx).imp_right fun hanc => (hmeml x).mpr (hstored.reach_of_rooted hanc hx)
    have hbest : t.Rooted (insert h R)
        (l.foldl (fun p x => p.visit prefer x) (p.store h [t.parent h] miner parasite)).bestHash := by
      rw [hfold]
      rcases foldl_pick_mem (better (insert h R))
        (p.store h [t.parent h] miner parasite).bestHash l with hx | hx
      · rw [hx]
        exact hp.best.mono (Finset.subset_insert h R)
      · exact hstored.rooted_of_reach hconnected ((hmeml _).mp hx)
    rw [hregister, hheld.ensureBestValid_eq hbest]
    refine ⟨⟨hheld, fun x hx => hmeasured' x (hcases x hx), hbest⟩, l, hlnodup, fun x => ?_, horder, hfold⟩
    rw [hmeml x]
    constructor
    · exact fun hreach => ⟨hstored.anc_of_reach hreach, hstored.rooted_of_reach hconnected hreach⟩
    · exact fun ⟨hanc, hx⟩ => hstored.reach_of_rooted hanc hx
  · -- nothing below an unconnected block is connected
    have hbelow : ∀ x, t.Anc h x → ¬ t.Rooted (insert h R) x := fun x hanc hx =>
      hconnected (hx.of_anc hanc)
    obtain ⟨hheld, hmeasured', hsame⟩ := foldl_visit_unconnected prefer (l := l) hstored
      hmeasured fun x hx => by
        have hanc := hstored.anc_of_reach ((hmeml x).mp hx)
        refine ⟨?_, hbelow x hanc, fun h' => h'.not_anc_of_notMem hnew hanc⟩
        have hreach := (hmeml x).mp hx
        rcases Relation.ReflTransGen.cases_tail hreach with rfl | ⟨y, -, hxy⟩
        · exact hhR
        · exact ((hstored.children _ _).mp hxy).1
    have hbest : t.Rooted (insert h R)
        (l.foldl (fun p x => p.visit prefer x) (p.store h [t.parent h] miner parasite)).bestHash := by
      rw [hsame]
      exact hp.best.mono (Finset.subset_insert h R)
    rw [hregister, hheld.ensureBestValid_eq hbest]
    refine ⟨⟨hheld, fun x hx => ?_, hbest⟩, [], List.nodup_nil, fun x => ?_, ?_, hsame⟩
    · exact hmeasured' x ((rooted_insert hx).resolve_right fun hanc => hbelow x hanc hx)
    · simp only [List.not_mem_nil, false_iff, not_and]
      exact hbelow x
    · simp

theorem register_new {better : Finset String → String → String → Prop} (hp : Settled t R p)
    (hd : Decides t prefer better) {h : String} (hmem : h ∈ t.blocks) (hnew : h ∉ R)
    (miner : InterfaceId) (parasite : Bool) :
    Settled t (insert h R) (p.registerBlock prefer h [t.parent h] miner parasite) ∧
    ∃ D : List String, D.Nodup ∧ (∀ x, x ∈ D ↔ t.Anc h x ∧ t.Rooted (insert h R) x) ∧
      (∀ x l, D = x :: l → x = h) ∧
      (p.registerBlock prefer h [t.parent h] miner parasite).bestHash =
        D.foldl (pick (better (insert h R))) p.bestHash := by
  obtain ⟨hsettled, D, hnodup, hD, horder, hfold⟩ := hp.register_new_inOrder hd hmem hnew miner parasite
  refine ⟨hsettled, D, hnodup, hD, fun x l hsplit => ?_, hfold⟩
  exact (horder [] x l hsplit).resolve_right List.not_mem_nil

end Settled

end Quantas
