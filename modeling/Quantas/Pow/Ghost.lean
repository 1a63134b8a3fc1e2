import Quantas.Pow.Ethereum
import Quantas.Pow.Union

/-!
# Ethereum: when miners mine on the GHOST head

`Merged t S a`: the aggregated graph `a` has the blocks `S` of the tree. When all blocks are there, the
worklist finds their depths, `subtreeWeight` their weights, and the walk goes from child to
`GhostChild` until there is none. Miners, whose best block is that of the longest chain when the parents
come first, agree with it exactly when the way to that block goes through such children only.
-/

namespace Quantas

open Lib.RootedTree

variable {t : BlockTree} {a : Aggregated}

/-! ## The union of the ledgers -/

/-- The aggregated graph has the blocks `S` of the tree. -/
structure Merged (t : BlockTree) (S : Finset String) (a : Aggregated) : Prop where
  count : ∀ h, a.count h = true ↔ h ∈ S
  children : ∀ x c, c ∈ a.children x ↔ c ∈ S ∧ c ≠ GENESIS ∧ t.parent c = x
  nodup : ∀ x, (a.children x).Nodup
  length : a.blocks.length = S.card

/-- The union of the ledgers is the tree. -/
structure UnionIs (t : BlockTree) (ledgers : List PoW) : Prop where
  known : ∀ h, (∃ p ∈ ledgers, ∃ b ∈ p.blocks, b.hash = h) ↔ h ∈ t.blocks
  parents : ∀ h x, (∃ p ∈ ledgers, ∃ b ∈ p.blocks, b.hash = h ∧ x ∈ b.parents) ↔
    h ∈ t.blocks ∧ h ≠ GENESIS ∧ t.parent h = x

namespace UnionIs
variable {ledgers : List PoW}

theorem of_records (hrecords : ∀ p ∈ ledgers, ∀ b ∈ p.blocks, b.hash ∈ t.blocks ∧ b.parents = t.parentsOf b.hash)
    (hall : ∀ h ∈ t.blocks, ∃ p ∈ ledgers, ∃ b ∈ p.blocks, b.hash = h) : UnionIs t ledgers where
  known h := by
    refine ⟨?_, hall h⟩
    rintro ⟨p, hp, b, hb, rfl⟩
    exact (hrecords p hp b hb).1
  parents h x := by
    have hmem : ∀ h, x ∈ t.parentsOf h ↔ h ≠ GENESIS ∧ t.parent h = x := by
      intro h
      unfold BlockTree.parentsOf
      by_cases hroot : h = GENESIS
      · simp [hroot]
      · rw [if_neg hroot, List.mem_singleton]
        tauto
    constructor
    · rintro ⟨p, hp, b, hb, rfl, hx⟩
      obtain ⟨hblock, hparents⟩ := hrecords p hp b hb
      exact ⟨hblock, (hmem b.hash).mp (hparents ▸ hx)⟩
    · rintro ⟨hh, hparent⟩
      obtain ⟨p, hp, b, hb, rfl⟩ := hall h hh
      exact ⟨p, hp, b, hb, rfl, (hrecords p hp b hb).2 ▸ (hmem b.hash).mpr hparent⟩

variable (ht : UnionIs t ledgers) (ha : Collects (ledgers.flatMap PoW.blocks) a)
include ht ha

theorem mem_hashes (h : String) : h ∈ a.blocks.map BlockAggregate.hash ↔ h ∈ t.blocks := by
  rw [← ht.known h, List.mem_map]
  constructor
  · rintro ⟨b, hb, rfl⟩
    obtain ⟨r, hr, heq⟩ := ha.found b hb
    obtain ⟨p, hp, hr⟩ := List.mem_flatMap.mp hr
    exact ⟨p, hp, r, hr, heq⟩
  · rintro ⟨p, hp, r, hr, rfl⟩
    exact ha.known r (List.mem_flatMap.mpr ⟨p, hp, hr⟩)

theorem mem_children (x c : String) : c ∈ a.children x ↔ c ∈ t.blocks ∧ c ≠ GENESIS ∧ t.parent c = x := by
  rw [ha.children, ← ht.parents]
  constructor
  · rintro ⟨r, hr, heq, hx⟩
    obtain ⟨p, hp, hr⟩ := List.mem_flatMap.mp hr
    exact ⟨p, hp, r, hr, heq, hx⟩
  · rintro ⟨p, hp, r, hr, heq, hx⟩
    exact ⟨r, List.mem_flatMap.mpr ⟨p, hp, hr⟩, heq, hx⟩

theorem merged : Merged t t.blocks a where
  count h := (Collects.count_iff h).trans (ht.mem_hashes ha h)
  children := ht.mem_children ha
  nodup := ha.nodupChildren
  length := by
    have hlength : (a.blocks.map BlockAggregate.hash).length = a.blocks.length := List.length_map _
    rw [← hlength, ← List.toFinset_card_of_nodup ha.nodup]
    congr 1
    ext h
    rw [List.mem_toFinset, ht.mem_hashes ha]

theorem acyclic : Acyclic a.children := by
  apply Lib.Dag.acyclic_of_rank t.depth
  intro u c hc
  obtain ⟨-, hne, rfl⟩ := (ht.mem_children ha u c).mp hc
  rw [depth_of_ne hne]
  omega

end UnionIs

theorem Merged.ofLedgers (ledgers : List PoW) (hne : ledgers ≠ [])
    (hledgers : ∀ p ∈ ledgers, Holds t t.blocks p) :
    Merged t t.blocks (Aggregated.ofLedgers ledgers) := by
  obtain ⟨p, hp⟩ := List.exists_mem_of_ne_nil ledgers hne
  have hall : ∀ h ∈ t.blocks, ∃ p ∈ ledgers, ∃ b ∈ p.blocks, b.hash = h := by
    intro h hh
    obtain ⟨b, hb, -⟩ := (hledgers p hp).known h hh
    exact ⟨p, hp, b, List.mem_of_find?_eq_some hb, PoW.findBlock_hash hb⟩
  have hunion : UnionIs t ledgers := .of_records (fun p hp => (hledgers p hp).records) hall
  exact hunion.merged (.ofLedgers (hall GENESIS t.genesis_mem))

/-! ## Heights -/

/-- What has a height has its depth, and what waits in the queue has one. -/
structure Relaxed (t : BlockTree) (h : String → Option Nat) (queue : List String) : Prop where
  sound : ∀ x n, h x = some n → x ∈ t.blocks ∧ n = t.depth x
  queued : ∀ x ∈ queue, (h x).isSome

def pendingHeights (t : BlockTree) (h : String → Option Nat) (queue : List String) : Nat :=
  queue.length + (t.blocks.filter fun x => h x = none).card

theorem relaxChild_spec (ha : Merged t t.blocks a) {h : String → Option Nat} {queue : List String}
    (hr : Relaxed t h queue) {c : String} (hc : c ∈ t.blocks) (hne : c ≠ GENESIS) :
    ∃ h' queue', a.relaxChild (t.depth (t.parent c)) (h, queue) c = (h', queue') ∧ Relaxed t h' queue' ∧
      pendingHeights t h' queue' = pendingHeights t h queue ∧ (h' c).isSome ∧
      (∀ x, (h x).isSome → (h' x).isSome) ∧ (∀ x ∈ queue, x ∈ queue') ∧
      ∀ x, (h' x).isSome → (h x).isSome ∨ x ∈ queue' := by
  have hdepth := depth_of_ne (t := t.toRootedTree) hne
  unfold Aggregated.relaxChild
  rw [if_neg (not_not.mpr ((ha.count c).mpr hc)), ← hdepth]
  dsimp only
  cases hh : h c with
  | some n =>
    obtain ⟨-, rfl⟩ := hr.sound c n hh
    dsimp only
    rw [if_neg (lt_irrefl _)]
    exact ⟨h, queue, rfl, hr, rfl, by rw [hh]; rfl, fun _ => id, fun _ => id, fun _ => .inl⟩
  | none =>
    have hupdate : ∀ x, (Function.update h c (some (t.depth c)) x).isSome ↔ x = c ∨ (h x).isSome := by
      intro x
      by_cases hx : x = c
      · rw [hx, Function.update_self]
        simp
      · rw [Function.update_of_ne hx]
        simp [hx]
    refine ⟨_, _, rfl, ⟨fun x n hx => ?_, fun x hx => ?_⟩, ?_, ?_, ?_, ?_, ?_⟩
    · by_cases hxc : x = c
      · rw [hxc, Function.update_self, Option.some_inj] at hx
        exact ⟨hxc ▸ hc, by rw [hxc, hx]⟩
      · rw [Function.update_of_ne hxc] at hx
        exact hr.sound x n hx
    · rw [hupdate]
      rcases List.mem_append.mp hx with hx | hx
      · exact .inr (hr.queued x hx)
      · exact .inl (List.mem_singleton.mp hx)
    · -- one more in the queue, one less without a height
      have hfilter : (t.blocks.filter fun x => Function.update h c (some (t.depth c)) x = none) =
          (t.blocks.filter fun x => h x = none).erase c := by
        ext x
        rw [Finset.mem_filter, Finset.mem_erase, Finset.mem_filter, ← Option.not_isSome_iff_eq_none,
          ← Option.not_isSome_iff_eq_none, hupdate, not_or]
        tauto
      have hmem : c ∈ t.blocks.filter fun x => h x = none := Finset.mem_filter.mpr ⟨hc, hh⟩
      have hpos := Finset.card_pos.mpr ⟨c, hmem⟩
      rw [pendingHeights, pendingHeights, hfilter, Finset.card_erase_of_mem hmem, List.length_append,
        List.length_singleton]
      omega
    · exact (hupdate c).mpr (.inl rfl)
    · exact fun x hx => (hupdate x).mpr (.inr hx)
    · exact fun x hx => List.mem_append_left _ hx
    · intro x hx
      rcases (hupdate x).mp hx with rfl | hx
      · exact .inr (List.mem_append_right _ (List.mem_singleton_self x))
      · exact .inl hx

theorem foldl_relaxChild (ha : Merged t t.blocks a) {current : String} {cs : List String}
    (hcs : ∀ c ∈ cs, c ∈ t.blocks ∧ c ≠ GENESIS ∧ t.parent c = current) {h : String → Option Nat}
    {queue : List String} (hr : Relaxed t h queue) :
    ∃ h' queue', cs.foldl (a.relaxChild (t.depth current)) (h, queue) = (h', queue') ∧
      Relaxed t h' queue' ∧ pendingHeights t h' queue' = pendingHeights t h queue ∧
      (∀ c ∈ cs, (h' c).isSome) ∧ (∀ x, (h x).isSome → (h' x).isSome) ∧ (∀ x ∈ queue, x ∈ queue') ∧
      ∀ x, (h' x).isSome → (h x).isSome ∨ x ∈ queue' := by
  induction cs generalizing h queue with
  | nil =>
    exact ⟨h, queue, rfl, hr, rfl, by simp, fun _ => id, fun _ => id, fun _ => .inl⟩
  | cons c cs ih =>
    obtain ⟨hc, hne, rfl⟩ := hcs c List.mem_cons_self
    obtain ⟨h₁, queue₁, heq₁, hr₁, hpending₁, hc₁, hkeep₁, hqueue₁, hnew₁⟩ := relaxChild_spec ha hr hc hne
    obtain ⟨h₂, queue₂, heq₂, hr₂, hpending₂, hcs₂, hkeep₂, hqueue₂, hnew₂⟩ :=
      ih (fun c hc => hcs c (List.mem_cons_of_mem _ hc)) hr₁
    refine ⟨h₂, queue₂, by rw [List.foldl_cons, heq₁, heq₂], hr₂, hpending₂.trans hpending₁, ?_, ?_, ?_, ?_⟩
    · intro x hx
      rcases List.mem_cons.mp hx with rfl | hx
      · exact hkeep₂ x hc₁
      · exact hcs₂ x hx
    · exact fun x hx => hkeep₂ x (hkeep₁ x hx)
    · exact fun x hx => hqueue₂ x (hqueue₁ x hx)
    · intro x hx
      rcases hnew₂ x hx with hx | hx
      · exact (hnew₁ x hx).imp_right (hqueue₂ x)
      · exact .inr hx

theorem Relaxed.complete (ha : Merged t t.blocks a) {h : String → Option Nat} (hr : Relaxed t h [])
    (hroot : (h GENESIS).isSome) (hclosed : ∀ x, (h x).isSome → ∀ c ∈ a.children x, (h c).isSome) :
    ∀ x ∈ t.blocks, h x = some (t.depth x) := by
  have hall : ∀ x, x ∈ t.blocks → (h x).isSome := by
    intro x
    refine induction_on (t := t.toRootedTree) (motive := fun x => x ∈ t.blocks → (h x).isSome) x
      (fun _ => hroot) fun x hne ih hx => ?_
    exact hclosed _ (ih (t.parent_mem x hx hne)) x ((ha.children _ x).mpr ⟨hx, hne, rfl⟩)
  intro x hx
  obtain ⟨n, hn⟩ := Option.isSome_iff_exists.mp (hall x hx)
  rw [hn, (hr.sound x n hn).2]

theorem heightLoop_spec (ha : Merged t t.blocks a) (iter : IterationOrder) (fuel : Nat)
    {h : String → Option Nat} {queue : List String} (hr : Relaxed t h queue) (hroot : (h GENESIS).isSome)
    (hclosed : ∀ x, (h x).isSome → x ∈ queue ∨ ∀ c ∈ a.children x, (h c).isSome)
    (hfuel : pendingHeights t h queue ≤ fuel) :
    ∃ h', a.heightLoop iter fuel h queue = some h' ∧ ∀ x ∈ t.blocks, h' x = some (t.depth x) := by
  induction fuel generalizing h queue with
  | zero =>
    obtain rfl : queue = [] := by
      rw [pendingHeights] at hfuel
      exact List.length_eq_zero_iff.mp (by omega)
    refine ⟨h, rfl, hr.complete ha hroot fun x hx => (hclosed x hx).resolve_left List.not_mem_nil⟩
  | succ fuel ih =>
    cases queue with
    | nil => exact ⟨h, rfl, hr.complete ha hroot fun x hx => (hclosed x hx).resolve_left List.not_mem_nil⟩
    | cons x queue =>
      obtain ⟨n, hn⟩ := Option.isSome_iff_exists.mp (hr.queued x List.mem_cons_self)
      obtain ⟨hx, rfl⟩ := hr.sound x n hn
      have hchildren : ∀ c ∈ iter.order (a.children x), c ∈ t.blocks ∧ c ≠ GENESIS ∧ t.parent c = x :=
        fun c hc => (ha.children x c).mp ((iter.perm _).mem_iff.mp hc)
      have hr' : Relaxed t h queue := ⟨hr.sound, fun y hy => hr.queued y (List.mem_cons_of_mem x hy)⟩
      obtain ⟨h', queue', heq, hr'', hpending, hcs, hkeep, hqueue, hnew⟩ := foldl_relaxChild ha hchildren hr'
      rw [Aggregated.heightLoop, hn, Option.getD_some, heq]
      refine ih hr'' (hkeep _ hroot) (fun y hy => ?_) ?_
      · by_cases hyx : y = x
        · subst hyx
          exact .inr fun c hc => hcs c ((iter.perm _).mem_iff.mpr hc)
        · rcases hnew y hy with hold | hq
          · rcases hclosed y hold with hq | hc
            · exact .inl (hqueue y ((List.mem_cons.mp hq).resolve_left hyx))
            · exact .inr fun c hc' => hkeep c (hc c hc')
          · exact .inl hq
      · rw [hpending, pendingHeights]
        rw [pendingHeights, List.length_cons] at hfuel
        omega

theorem computedHeight_spec (ha : Merged t t.blocks a) (iter : IterationOrder) {fuel : Nat}
    (hfuel : t.blocks.card ≤ fuel) :
    ∃ h, a.computedHeight iter fuel = some h ∧ ∀ x ∈ t.blocks, h x = some (t.depth x) := by
  have hstart : ∀ x, (Function.update (fun _ => none) GENESIS (some 0) : String → Option Nat) x =
      if x = GENESIS then some 0 else none := fun x => by rw [Function.update_apply]
  refine heightLoop_spec ha iter fuel ⟨fun x n hx => ?_, fun x hx => ?_⟩ (by simp) (fun x hx => ?_) ?_
  · rw [hstart] at hx
    split_ifs at hx with hroot
    obtain rfl := Option.some_inj.mp hx
    exact ⟨hroot ▸ t.genesis_mem, by rw [hroot, depth_root]⟩
  · simp [List.mem_singleton.mp hx]
  · rw [hstart] at hx
    split_ifs at hx with hroot
    · exact .inl (hroot ▸ List.mem_singleton_self x)
    · cases hx
  · have hfilter : (t.blocks.filter fun x =>
        (Function.update (fun _ => none) GENESIS (some 0) : String → Option Nat) x = none) =
        t.blocks.erase GENESIS := by
      ext x
      rw [Finset.mem_filter, Finset.mem_erase, hstart]
      split_ifs with hroot <;> simp [hroot]
    have hpos := Finset.card_pos.mpr ⟨GENESIS, t.genesis_mem⟩
    rw [pendingHeights, hfilter, Finset.card_erase_of_mem t.genesis_mem, List.length_singleton]
    omega

/-! ## Weights -/

theorem weight_eq_sum (ha : Merged t t.blocks a) {x : String} (hx : x ∈ t.blocks) :
    t.weight t.blocks x = 1 + ((a.children x).map (t.weight t.blocks)).sum := by
  classical
  have hfilter : (t.blocks.filter fun y => t.Anc x y ∧ t.Rooted t.blocks y) =
      insert x ((a.children x).toFinset.biUnion fun c =>
        t.blocks.filter fun y => t.Anc c y ∧ t.Rooted t.blocks y) := by
    ext y
    rw [Finset.mem_insert, Finset.mem_biUnion, BlockTree.mem_weight]
    constructor
    · rintro ⟨hanc, hy⟩
      by_cases hyx : y = x
      · exact .inl hyx
      · obtain ⟨c, hne, hparent, hcy⟩ := hanc.exists_child (Ne.symm hyx)
        refine .inr ⟨c, List.mem_toFinset.mpr ((ha.children x c).mpr ⟨?_, hne, hparent⟩),
          BlockTree.mem_weight.mpr ⟨hcy, hy⟩⟩
        exact (hy.of_anc hcy).mem
    · rintro (rfl | ⟨c, hc, hy⟩)
      · exact ⟨.refl y, t.rooted_blocks hx⟩
      · obtain ⟨-, hne, hparent⟩ := (ha.children x c).mp (List.mem_toFinset.mp hc)
        obtain ⟨hcy, hy⟩ := BlockTree.mem_weight.mp hy
        exact ⟨(hparent ▸ anc_parent hne : t.Anc x c).trans hcy, hy⟩
  have hsum : ((a.children x).map (t.weight t.blocks)).sum =
      ∑ c ∈ (a.children x).toFinset, t.weight t.blocks c :=
    (List.sum_toFinset _ (ha.nodup x)).symm
  rw [BlockTree.weight, hfilter, Finset.card_insert_of_notMem, Finset.card_biUnion, hsum, add_comm]
  · rfl
  · -- two children have nothing in common
    intro c hc d hd hcd
    apply Finset.disjoint_left.mpr
    intro y hy hy'
    obtain ⟨-, hcne, hcparent⟩ := (ha.children x c).mp (List.mem_toFinset.mp hc)
    obtain ⟨-, hdne, hdparent⟩ := (ha.children x d).mp (List.mem_toFinset.mp hd)
    have hdepth : t.depth c = t.depth d := by
      rw [depth_of_ne hcne, depth_of_ne hdne, hcparent, hdparent]
    rcases (BlockTree.mem_weight.mp hy).1.comparable (BlockTree.mem_weight.mp hy').1 with h | h
    · exact hcd (h.eq_of_depth_le hdepth.ge)
    · exact hcd (h.eq_of_depth_le hdepth.le).symm
  · intro hmem
    obtain ⟨c, hc, hy⟩ := Finset.mem_biUnion.mp hmem
    obtain ⟨-, hne, hparent⟩ := (ha.children x c).mp (List.mem_toFinset.mp hc)
    exact not_anc_parent hne (hparent ▸ (BlockTree.mem_weight.mp hy).1)

def Weighed (t : BlockTree) (memo : String → Option Int) : Prop :=
  ∀ x w, memo x = some w → x ∈ t.blocks ∧ w = t.weight t.blocks x

theorem Weighed.update {memo : String → Option Int} (hm : Weighed t memo) {x : String}
    (hx : x ∈ t.blocks) : Weighed t (Function.update memo x (some (t.weight t.blocks x))) := by
  intro y w hy
  by_cases hyx : y = x
  · rw [hyx, Function.update_self, Option.some_inj] at hy
    exact ⟨hyx ▸ hx, by rw [hyx, hy]⟩
  · rw [Function.update_of_ne hyx] at hy
    exact hm y w hy

theorem foldlM_subtreeWeight (ha : Merged t t.blocks a) {iter : IterationOrder} {fuel : Nat}
    {active cs : List String}
    (hcs : ∀ c ∈ cs, c ∈ t.blocks ∧ ∀ memo, Weighed t memo →
      ∃ memo', a.subtreeWeight iter fuel active memo c = some ((t.weight t.blocks c : Int), memo') ∧
        Weighed t memo')
    (total : Int) (memo : String → Option Int) (hm : Weighed t memo) :
    ∃ memo', cs.foldlM (fun (total, weightMemo) child =>
        if ¬ a.count child then some (total, weightMemo)
        else do
          let (weight, weightMemo) ← a.subtreeWeight iter fuel active weightMemo child
          some (total + weight, weightMemo)) (total, memo) =
      some (total + ((cs.map (t.weight t.blocks)).sum : Nat), memo') ∧ Weighed t memo' := by
  induction cs generalizing total memo with
  | nil => exact ⟨memo, by simp, hm⟩
  | cons c cs ihcs =>
    obtain ⟨hc, hweight⟩ := hcs c List.mem_cons_self
    obtain ⟨memo₁, heq₁, hm₁⟩ := hweight memo hm
    obtain ⟨memo₂, heq₂, hm₂⟩ := ihcs (fun c hc => hcs c (List.mem_cons_of_mem _ hc))
      (total + t.weight t.blocks c) memo₁ hm₁
    refine ⟨memo₂, ?_, hm₂⟩
    rw [List.foldlM_cons]
    dsimp only
    rw [if_neg (not_not.mpr ((ha.count c).mpr hc)), heq₁]
    refine heq₂.trans ?_
    rw [List.map_cons, List.sum_cons]
    push_cast
    rw [add_assoc]

theorem subtreeWeight_spec (ha : Merged t t.blocks a) (iter : IterationOrder) (fuel : Nat)
    (active : List String) {memo : String → Option Int} {x : String} (hx : x ∈ t.blocks)
    (hactive : ∀ y ∈ active, t.Anc y x ∧ y ≠ x) (hm : Weighed t memo)
    (hfuel : t.blocks.card ≤ fuel + t.depth x) :
    ∃ memo', a.subtreeWeight iter fuel active memo x = some ((t.weight t.blocks x : Int), memo') ∧
      Weighed t memo' := by
  induction fuel generalizing active memo x with
  | zero =>
    have := (t.rooted_blocks hx).depth_lt_card
    omega
  | succ fuel ih =>
    rw [Aggregated.subtreeWeight, if_neg fun hmem => (hactive x hmem).2 rfl]
    cases hmemo : memo x with
    | some w =>
      obtain ⟨-, rfl⟩ := hm x w hmemo
      exact ⟨memo, rfl, hm⟩
    | none =>
      have hchildren : ∀ c ∈ iter.order (a.children x), c ∈ t.blocks ∧ ∀ memo, Weighed t memo →
          ∃ memo', a.subtreeWeight iter fuel (x :: active) memo c =
            some ((t.weight t.blocks c : Int), memo') ∧ Weighed t memo' := by
        intro c hmem
        obtain ⟨hc, hne, hparent⟩ := (ha.children x c).mp ((iter.perm _).mem_iff.mp hmem)
        have hdepth := depth_of_ne (t := t.toRootedTree) hne
        have hxc : t.Anc x c := hparent ▸ anc_parent hne
        have hcx : x ≠ c := fun heq => not_anc_parent hne (by rw [hparent, heq]; exact .refl c)
        refine ⟨hc, fun memo hm => ih (x :: active) hc (fun y hy => ?_) hm (by rw [hdepth, hparent]; omega)⟩
        rcases List.mem_cons.mp hy with rfl | hy
        · exact ⟨hxc, hcx⟩
        · obtain ⟨hyx, hne'⟩ := hactive y hy
          exact ⟨hyx.trans hxc, fun heq => hne' (hyx.antisymm (heq ▸ hxc))⟩
      obtain ⟨memo', heq, hm'⟩ := foldlM_subtreeWeight ha hchildren 1 memo hm
      have hsum : (1 : Int) + (((iter.order (a.children x)).map (t.weight t.blocks)).sum : Nat) =
          t.weight t.blocks x := by
        rw [((iter.perm (a.children x)).map _).sum_eq, weight_eq_sum ha hx]
        push_cast
        rfl
      rw [hsum] at heq
      refine ⟨_, ?_, hm'.update hx⟩
      dsimp only
      rw [heq]
      rfl

/-! ## The walk -/

/-- `c` is at least as heavy as `d`, and of the smaller hash if they weigh the same. -/
def Outweighs (t : BlockTree) (c d : String) : Prop :=
  t.weight t.blocks d < t.weight t.blocks c ∨ t.weight t.blocks d = t.weight t.blocks c ∧ c ≤ d

theorem Outweighs.refl (t : BlockTree) (c : String) : Outweighs t c c := .inr ⟨rfl, le_rfl⟩

theorem Outweighs.trans {c d e : String} (h : Outweighs t c d) (h' : Outweighs t d e) : Outweighs t c e := by
  rcases h with h | ⟨h, hle⟩ <;> rcases h' with h' | ⟨h', hle'⟩
  · exact .inl (h'.trans h)
  · exact .inl (h' ▸ h)
  · exact .inl (h ▸ h')
  · exact .inr ⟨h'.trans h, hle.trans hle'⟩

theorem Outweighs.antisymm {c d : String} (h : Outweighs t c d) (h' : Outweighs t d c) : c = d :=
  eq_of_ties h h'

/-- `c` is the child that GHOST goes to from its parent. -/
def GhostChild (t : BlockTree) (c : String) : Prop :=
  c ∈ t.blocks ∧ c ≠ GENESIS ∧
    ∀ d ∈ t.blocks, d ≠ GENESIS → t.parent d = t.parent c → Outweighs t c d

theorem GhostChild.unique {c d : String} (hc : GhostChild t c) (hd : GhostChild t d)
    (hparent : t.parent d = t.parent c) : c = d :=
  (hc.2.2 d hd.1 hd.2.1 hparent).antisymm (hd.2.2 c hc.1 hc.2.1 hparent.symm)

def BestOf (t : BlockTree) (l : List String) (best : Aggregated.BestChild) : Prop :=
  (l = [] ∧ best = {}) ∨
    (best.bestChild ∈ l ∧ best.bestWeight = t.weight t.blocks best.bestChild ∧
      best.bestHeight = t.depth best.bestChild ∧ ∀ d ∈ l, Outweighs t best.bestChild d)

theorem compareChild_spec (ha : Merged t t.blocks a) (iter : IterationOrder)
    {height : String → Option Nat} (hheight : ∀ x ∈ t.blocks, height x = some (t.depth x)) {l : List String}
    {best : Aggregated.BestChild} {memo : String → Option Int} (hbest : BestOf t l best)
    (hm : Weighed t memo) {c : String} (hc : c ∈ t.blocks) (hl : ∀ d ∈ l, t.depth d = t.depth c) :
    ∃ best' memo', a.compareChild iter (a.blocks.length + 1) height (best, memo) c = some (best', memo') ∧
      BestOf t (l ++ [c]) best' ∧ Weighed t memo' := by
  obtain ⟨memo', heq, hm'⟩ := subtreeWeight_spec ha iter (a.blocks.length + 1) [] hc (by simp) hm
    (by rw [ha.length]; omega)
  unfold Aggregated.compareChild
  rw [if_neg (not_not.mpr ((ha.count c).mpr hc)), heq, hheight c hc]
  simp only [Option.bind_eq_bind, Option.bind_some, Option.getD_some]
  rw [← apply_ite some]
  have hchosen : (∀ d ∈ l, Outweighs t c d) → BestOf t (l ++ [c])
      { bestChild := c, bestWeight := t.weight t.blocks c, bestHeight := t.depth c } := by
    intro hall
    refine .inr ⟨List.mem_append_right _ (List.mem_singleton_self c), rfl, rfl, fun d hd => ?_⟩
    rcases List.mem_append.mp hd with hd | hd
    · exact hall d hd
    · rw [List.mem_singleton.mp hd]
      exact .refl t c
  rcases hbest with ⟨rfl, rfl⟩ | ⟨hmem, hweight, hheight', hall⟩
  · rw [if_pos (.inl (by dsimp only; omega))]
    exact ⟨_, memo', rfl, hchosen (by simp), hm'⟩
  · rw [hweight, hheight', hl _ hmem]
    split_ifs with hbetter
    · refine ⟨_, memo', rfl, hchosen fun d hd => .trans ?_ (hall d hd), hm'⟩
      rcases hbetter with h | ⟨h, hlt⟩ | ⟨h, -, hlt⟩
      · exact .inl (by exact_mod_cast h)
      · exact absurd hlt (lt_irrefl _)
      · exact .inr ⟨by exact_mod_cast h.symm, hlt.le⟩
    · refine ⟨best, memo', rfl, .inr ⟨List.mem_append_left _ hmem, hweight, hheight', fun d hd => ?_⟩, hm'⟩
      rcases List.mem_append.mp hd with hd | hd
      · exact hall d hd
      · rw [List.mem_singleton.mp hd]
        simp only [not_or, not_and, not_lt, Nat.cast_le, Nat.cast_inj] at hbetter
        obtain ⟨hle, -, hhash⟩ := hbetter
        rcases hle.lt_or_eq with hlt | heq
        · exact .inl hlt
        · exact .inr ⟨heq, hhash heq trivial⟩

theorem foldlM_compareChild (ha : Merged t t.blocks a) (iter : IterationOrder)
    {height : String → Option Nat} (hheight : ∀ x ∈ t.blocks, height x = some (t.depth x))
    {cs l : List String} {best : Aggregated.BestChild} {memo : String → Option Int}
    (hbest : BestOf t l best) (hm : Weighed t memo) {n : Nat} (hcs : ∀ c ∈ cs, c ∈ t.blocks ∧ t.depth c = n)
    (hl : ∀ d ∈ l, t.depth d = n) :
    ∃ best' memo', cs.foldlM (a.compareChild iter (a.blocks.length + 1) height) (best, memo) =
      some (best', memo') ∧ BestOf t (l ++ cs) best' ∧ Weighed t memo' := by
  induction cs generalizing l best memo with
  | nil => exact ⟨best, memo, rfl, by rwa [List.append_nil], hm⟩
  | cons c cs ih =>
    obtain ⟨hc, rfl⟩ := hcs c List.mem_cons_self
    obtain ⟨best₁, memo₁, heq₁, hbest₁, hm₁⟩ := compareChild_spec ha iter hheight hbest hm hc hl
    obtain ⟨best₂, memo₂, heq₂, hbest₂, hm₂⟩ := ih hbest₁ hm₁ (fun d hd => hcs d (List.mem_cons_of_mem _ hd))
      fun d hd => by
        rcases List.mem_append.mp hd with hd | hd
        · exact hl d hd
        · rw [List.mem_singleton.mp hd]
    refine ⟨best₂, memo₂, ?_, by rwa [List.append_assoc] at hbest₂, hm₂⟩
    rw [List.foldlM_cons, heq₁]
    exact heq₂

/-- The path has the blocks on the way from GENESIS to `cursor`. -/
structure LineTo (t : BlockTree) (cursor : String) (path : List String) : Prop where
  first : path.head? = some GENESIS
  last : path.getLast? = some cursor
  nodup : path.Nodup
  mem : ∀ x, x ∈ path ↔ t.Anc x cursor

theorem LineTo.genesis : LineTo t GENESIS [GENESIS] where
  first := rfl
  last := rfl
  nodup := List.nodup_singleton _
  mem x := by rw [List.mem_singleton, anc_root_iff]

theorem LineTo.concat {c : String} {path : List String} (hpath : LineTo t (t.parent c) path) (hne : c ≠ GENESIS) :
    LineTo t c (path ++ [c]) where
  first := by rw [List.head?_append, hpath.first, Option.some_or]
  last := by simp
  nodup := by
    rw [← List.concat_eq_append, List.nodup_concat]
    exact ⟨fun hmem => not_anc_parent hne ((hpath.mem c).mp hmem), hpath.nodup⟩
  mem x := by rw [List.mem_append, List.mem_singleton, hpath.mem, anc_iff hne, or_comm]

theorem ghostLoop_spec (ha : Merged t t.blocks a) (iter : IterationOrder)
    {height : String → Option Nat} (hheight : ∀ x ∈ t.blocks, height x = some (t.depth x)) (fuel : Nat)
    {memo : String → Option Int} {cursor : String} (path : List String) (hcursor : cursor ∈ t.blocks)
    (hm : Weighed t memo) (hpath : LineTo t cursor path)
    (hfuel : t.blocks.card ≤ fuel + t.depth cursor) :
    ∃ path' head, a.ghostLoop iter height fuel memo cursor path = some path' ∧ LineTo t head path' ∧
      head ∈ t.blocks ∧ t.Anc cursor head ∧
      (∀ x, t.Anc cursor x → x ≠ cursor → t.Anc x head → x ≠ "" ∧ GhostChild t x) ∧
      ∀ c, t.parent c = head → GhostChild t c → c = "" := by
  induction fuel generalizing memo cursor path with
  | zero =>
    have := (t.rooted_blocks hcursor).depth_lt_card
    omega
  | succ fuel ih =>
    have hstop : ∀ x, t.Anc cursor x → x ≠ cursor → t.Anc x cursor → x ≠ "" ∧ GhostChild t x :=
      fun x hcx hne hxc => absurd (hxc.antisymm hcx) hne
    rw [Aggregated.ghostLoop]
    by_cases hempty : a.children cursor = []
    · rw [if_pos hempty]
      refine ⟨path, cursor, rfl, hpath, hcursor, .refl cursor, hstop, fun c hparent hc => ?_⟩
      have hmem := (ha.children cursor c).mpr ⟨hc.1, hc.2.1, hparent⟩
      rw [hempty] at hmem
      cases hmem
    have hchildren : ∀ c, c ∈ iter.order (a.children cursor) ↔
        c ∈ t.blocks ∧ c ≠ GENESIS ∧ t.parent c = cursor := fun c => by
      rw [(iter.perm _).mem_iff, ha.children]
    obtain ⟨best, memo', heq, hbest, hm'⟩ := foldlM_compareChild ha iter hheight (l := []) (.inl ⟨rfl, rfl⟩) hm
      (n := t.depth cursor + 1) (fun c hc => by
        obtain ⟨hmem, hne, hparent⟩ := (hchildren c).mp hc
        exact ⟨hmem, by rw [depth_of_ne hne, hparent]⟩) (by simp)
    rw [List.nil_append] at hbest
    have hnonempty : iter.order (a.children cursor) ≠ [] := fun h =>
      hempty (List.nil_perm.mp (h ▸ iter.perm (a.children cursor)))
    obtain ⟨hmem, -, -, hall⟩ := hbest.resolve_left fun h => hnonempty h.1
    obtain ⟨hblock, hne, hparent⟩ := (hchildren _).mp hmem
    have hghost : GhostChild t best.bestChild :=
      ⟨hblock, hne, fun d hd hdne hdparent => hall d ((hchildren d).mpr ⟨hd, hdne, hdparent.trans hparent⟩)⟩
    rw [if_neg hempty, heq]
    simp only [Option.bind_eq_bind, Option.bind_some]
    by_cases hhash : best.bestChild = ""
    · rw [if_pos hhash]
      refine ⟨path, cursor, rfl, hpath, hcursor, .refl cursor, hstop, fun c hcparent hc => ?_⟩
      rw [← hhash]
      exact hc.unique hghost (hparent.trans hcparent.symm)
    · rw [if_neg hhash]
      have hdepth := depth_of_ne (t := t.toRootedTree) hne
      obtain ⟨path', head, heq', hlast, hhead, hanc, hway, hend⟩ := ih (path ++ [best.bestChild]) hblock hm'
        (.concat (hparent ▸ hpath) hne) (by rw [hdepth, hparent]; omega)
      have hcursorBest : t.Anc cursor best.bestChild := hparent ▸ anc_parent hne
      refine ⟨path', head, heq', hlast, hhead, hcursorBest.trans hanc, fun x hcx hxne hxhead => ?_, hend⟩
      -- a block on the way is the best child or lies below it
      obtain ⟨c, hcne, hcparent, hcx'⟩ := hcx.exists_child (Ne.symm hxne)
      obtain rfl : c = best.bestChild := by
        rcases (hcx'.trans hxhead).comparable hanc with h | h
        · exact h.eq_of_depth_le (by rw [depth_of_ne hcne, hdepth, hcparent, hparent])
        · exact (h.eq_of_depth_le (by rw [depth_of_ne hcne, hdepth, hcparent, hparent])).symm
      by_cases hxbest : x = best.bestChild
      · exact hxbest ▸ ⟨hhash, hghost⟩
      · exact hway x hcx' hxbest hxhead

theorem ghostPath_spec (ha : Merged t t.blocks a) (iter : IterationOrder) {fuel : Nat}
    (hfuel : t.blocks.card ≤ fuel) :
    ∃ path head, a.ghostPath iter fuel = some path ∧ LineTo t head path ∧ head ∈ t.blocks ∧
      (∀ x, x ≠ GENESIS → t.Anc x head → x ≠ "" ∧ GhostChild t x) ∧
      ∀ c, t.parent c = head → GhostChild t c → c = "" := by
  obtain ⟨height, hsome, hheight⟩ := computedHeight_spec ha iter hfuel
  have hempty : Weighed t fun _ => none := fun x w h => by cases h
  obtain ⟨path, head, heq, hlast, hhead, -, hway, hend⟩ :=
    ghostLoop_spec ha iter hheight fuel [GENESIS] t.genesis_mem hempty .genesis (by omega)
  refine ⟨path, head, ?_, hlast, hhead, fun x hne hanc => hway x (root_anc x) hne hanc, hend⟩
  rw [Aggregated.ghostPath, hsome]
  exact heq

/-! ## Agreement -/

/-- Every block on the way to the best block of the longest-chain rule is the one that GHOST goes to among
its siblings, and has a hash that is not empty. -/
def HeaviestLine (t : BlockTree) : Prop :=
  ∀ b, t.Longest t.blocks b → ∀ x, x ≠ GENESIS → t.Anc x b → x ≠ "" ∧ GhostChild t x

theorem eq_of_ghost_ways {head b : String} (hb : t.Leaf t.blocks b)
    (hheadway : ∀ x, x ≠ GENESIS → t.Anc x head → x ≠ "" ∧ GhostChild t x)
    (hheadend : ∀ c, t.parent c = head → GhostChild t c → c = "")
    (hbway : ∀ x, x ≠ GENESIS → t.Anc x b → x ≠ "" ∧ GhostChild t x) : head = b := by
  have hbelow : ∀ x, t.Anc x head → t.Anc x b := by
    intro x
    refine induction_on (t := t.toRootedTree) (motive := fun x => t.Anc x head → t.Anc x b) x
      (fun _ => root_anc b) fun x hne ih hx => ?_
    have hparent := ih ((anc_parent hne).trans hx)
    have hghost := (hheadway x hne hx).2
    have hnotb : t.parent x ≠ b := fun heq => by
      have hxb := hb x (t.rooted_blocks hghost.1) (heq ▸ anc_parent hne)
      exact not_anc_parent hne (by rw [heq, hxb]; exact .refl b)
    obtain ⟨c, hcne, hcparent, hcb⟩ := hparent.exists_child hnotb
    rw [hghost.unique (hbway c hcne hcb).2 hcparent]
    exact hcb
  have hanc := hbelow head (.refl head)
  by_contra hne
  obtain ⟨c, hcne, hcparent, hcb⟩ := hanc.exists_child hne
  obtain ⟨hhash, hghost⟩ := hbway c hcne hcb
  exact hhash (hheadend c hcparent hghost)

namespace PoWEthereum

/-- The block tree as ledgers learn it, each with the parents first. -/
structure Learns (t : BlockTree) (calls : List Registration) : Prop where
  drawn : ∀ c ∈ calls, c.DrawnFrom t
  parentFirst : ParentFirst t calls
  all : registeredBlocks calls = t.blocks

/-- **Mining on the GHOST head.** The walk at the end of the round terminates, for any order in which the
sets of children are run through. A miner whose ledger has learnt the tree with the parents first mines on
the last block of the walk exactly when every block on the way to the furthest block (of the smallest hash)
is the heaviest child of its parent (of the smallest hash). -/
theorem mines_on_ghost_head_iff (t : BlockTree) (iter : IterationOrder) (runs : List (List Registration))
    (hruns : ∀ calls ∈ runs, Learns t calls) (fuel : Nat) (hfuel : t.blocks.card ≤ fuel)
    (calls : List Registration) (hcalls : calls ∈ runs) :
    ∃ path head, (Aggregated.ofLedgers
        (runs.map (PoW.fresh.registerAll preferCandidate))).ghostPath iter fuel = some path ∧
      path.getLast? = some head ∧
      ((PoW.fresh.registerAll preferCandidate calls).bestHash = head ↔ HeaviestLine t) ∧
      ((PoW.fresh.registerAll preferCandidate calls).parentsForNextBlock = [head] ↔ HeaviestLine t) := by
  have hsettled : ∀ calls ∈ runs, Settled t t.blocks (PoW.fresh.registerAll preferCandidate calls) := by
    intro calls hcalls
    obtain ⟨hdrawn, -, hall⟩ := hruns calls hcalls
    have h := (Settled.fresh (t := t)).registerAll (decides t) hdrawn
    rwa [← registeredBlocks, hall] at h
  have hmerged := Merged.ofLedgers (t := t) (runs.map (PoW.fresh.registerAll preferCandidate))
    (by
      intro h
      rw [List.map_eq_nil_iff.mp h] at hcalls
      cases hcalls)
    (by
      intro p hp
      obtain ⟨calls, hcalls, rfl⟩ := List.mem_map.mp hp
      exact (hsettled calls hcalls).toHolds)
  obtain ⟨path, head, hpath, hline, hhead, hway, hend⟩ := ghostPath_spec hmerged iter hfuel
  obtain ⟨hdrawn, hfirst, hall⟩ := hruns calls hcalls
  have hlongest := longest_of_parentFirst hdrawn hfirst
  rw [hall] at hlongest
  have hbest := hsettled calls hcalls
  generalize PoW.fresh.registerAll preferCandidate calls = p at *
  have hiff : p.bestHash = head ↔ HeaviestLine t := by
    constructor
    · rintro rfl b hb x hne hanc
      rw [hb.unique hlongest] at hanc
      exact hway x hne hanc
    · intro hline
      exact (eq_of_ghost_ways hlongest.leaf hway hend (hline _ hlongest)).symm
  have hparents : p.parentsForNextBlock = [p.bestHash] := by
    obtain ⟨b, hb, -⟩ := hbest.known _ hlongest.1.mem
    rw [PoW.parentsForNextBlock, PoW.bestTip, hb, PoW.selectParentsForNextBlock, PoW.findBlock_hash hb]
  refine ⟨path, head, hpath, hline.last, hiff, ?_⟩
  rw [hparents, List.singleton_inj]
  exact hiff

/-- The parents of `bushyTree` first, the long branch before the bushy one. -/
def bushyCalls : List Registration := ["a", "a1", "a2", "x", "y1", "y2", "y3"].map bushyCall

theorem mines_on_ghost_head_iff_bushyTree :
    ∃ path head, (Aggregated.ofLedgers
        ([bushyCalls].map (PoW.fresh.registerAll preferCandidate))).ghostPath .insertion 8 = some path ∧
      path.getLast? = some head ∧
      ((PoW.fresh.registerAll preferCandidate bushyCalls).bestHash = head ↔ HeaviestLine bushyTree) ∧
      ((PoW.fresh.registerAll preferCandidate bushyCalls).parentsForNextBlock = [head] ↔
        HeaviestLine bushyTree) :=
  mines_on_ghost_head_iff bushyTree .insertion [bushyCalls]
    (fun calls hcalls => List.mem_singleton.mp hcalls ▸ ⟨by decide, by decide, by decide⟩) 8 (by decide)
    bushyCalls (List.mem_singleton_self _)

/-- On `bushyTree` the miners go on with the long branch, and GHOST goes into the bushy one. -/
theorem bushyTree_head_differs : Learns bushyTree bushyCalls ∧
    (PoW.fresh.registerAll preferCandidate bushyCalls).bestHash = "a2" ∧
    (PoW.fresh.registerAll preferCandidate bushyCalls).parentsForNextBlock = ["a2"] ∧
    (Aggregated.ofLedgers [PoW.fresh.registerAll preferCandidate bushyCalls]).ghostPath .insertion 8 =
      some ["GENESIS", "x", "y1"] :=
  ⟨⟨by decide, by decide, by decide⟩, by decide +kernel, by decide +kernel, by decide +kernel⟩

end PoWEthereum

end Quantas
