import Quantas.Pow.Union

/-!
# Two weights of a subtree

`subtreeWeight` of `EthereumPeer::endOfRound` adds up the weights of the children, and so counts the paths
that lead down from a block (`subtreeWeight_paths`); `PoW::subtreeSize` has a visited set and counts the blocks
that are reached (`PoW.Linked.subtreeSize_eq`). On a graph in which blocks may have several parents the two
agree where no block of the subtree has two parents in it, and nowhere else.
-/

namespace Quantas

variable {a : Aggregated} {rs : List BlockRecord}

/-! ## The weight at the end of a round -/

def Weighs (G : Lib.Dag String) (memo : String → Option Int) : Prop := ∀ x w, memo x = some w → w = G.paths x

theorem Weighs.update {G : Lib.Dag String} {memo : String → Option Int} (hm : Weighs G memo) (x : String) :
    Weighs G (Function.update memo x (some (G.paths x))) := by
  intro y w hy
  by_cases hyx : y = x
  · rw [hyx, Function.update_self, Option.some_inj] at hy
    rw [hyx, hy]
  · rw [Function.update_of_ne hyx] at hy
    exact hm y w hy

namespace Collects

theorem sum_children (ha : Collects rs a) (hacyclic : Acyclic a.children) (iter : IterationOrder) (x : String) :
    1 + ((iter.order (a.children x)).map (ha.dag hacyclic).paths).sum = (ha.dag hacyclic).paths x := by
  rw [((iter.perm (a.children x)).map _).sum_eq, Lib.Dag.paths_eq, ← List.sum_toFinset _ (ha.nodupChildren x)]
  congr 1
  refine Finset.sum_congr ?_ fun _ _ => rfl
  ext c
  rw [List.mem_toFinset, Lib.Dag.mem_succ]
  rfl

theorem foldlM_subtreeWeight_paths (ha : Collects rs a) (hacyclic : Acyclic a.children) {iter : IterationOrder}
    {fuel : Nat} {active cs : List String} (hcs : ∀ c ∈ cs, a.count c = true ∧ ∀ memo,
      Weighs (ha.dag hacyclic) memo → ∃ memo', a.subtreeWeight iter fuel active memo c =
        some (((ha.dag hacyclic).paths c : Int), memo') ∧ Weighs (ha.dag hacyclic) memo')
    (total : Int) {memo : String → Option Int} (hm : Weighs (ha.dag hacyclic) memo) :
    ∃ memo', cs.foldlM (fun (total, weightMemo) child =>
        if ¬ a.count child then some (total, weightMemo)
        else do
          let (weight, weightMemo) ← a.subtreeWeight iter fuel active weightMemo child
          some (total + weight, weightMemo)) (total, memo) =
      some (total + ((cs.map (ha.dag hacyclic).paths).sum : Nat), memo') ∧ Weighs (ha.dag hacyclic) memo' := by
  induction cs generalizing total memo with
  | nil => exact ⟨memo, by simp, hm⟩
  | cons c cs ih =>
    obtain ⟨hc, hweight⟩ := hcs c List.mem_cons_self
    obtain ⟨memo₁, heq₁, hm₁⟩ := hweight memo hm
    obtain ⟨memo₂, heq₂, hm₂⟩ := ih (fun c hc => hcs c (List.mem_cons_of_mem _ hc))
      (total + (ha.dag hacyclic).paths c) hm₁
    refine ⟨memo₂, ?_, hm₂⟩
    rw [List.foldlM_cons]
    dsimp only
    rw [if_neg (not_not.mpr hc), heq₁]
    refine heq₂.trans ?_
    rw [List.map_cons, List.sum_cons]
    push_cast
    rw [add_assoc]

theorem subtreeWeight_paths (ha : Collects rs a) (hacyclic : Acyclic a.children) (iter : IterationOrder)
    (fuel : Nat) (active : List String) {memo : String → Option Int} {x : String}
    (hactive : ∀ y ∈ active, Relation.TransGen (fun u c => c ∈ a.children u) y x)
    (hm : Weighs (ha.dag hacyclic) memo) (hfuel : (ha.dag hacyclic).rank x < fuel) :
    ∃ memo', a.subtreeWeight iter fuel active memo x = some (((ha.dag hacyclic).paths x : Int), memo') ∧
      Weighs (ha.dag hacyclic) memo' := by
  induction fuel generalizing active memo x with
  | zero => omega
  | succ fuel ih =>
    rw [Aggregated.subtreeWeight, if_neg fun hmem => hacyclic x (hactive x hmem)]
    cases hmemo : memo x with
    | some w =>
      rw [hm x w hmemo]
      exact ⟨memo, rfl, hm⟩
    | none =>
      have hchildren : ∀ c ∈ iter.order (a.children x), a.count c = true ∧ ∀ memo,
          Weighs (ha.dag hacyclic) memo → ∃ memo', a.subtreeWeight iter fuel (x :: active) memo c =
            some (((ha.dag hacyclic).paths c : Int), memo') ∧ Weighs (ha.dag hacyclic) memo' := by
        intro c hc
        have hedge : c ∈ a.children x := (iter.perm _).mem_iff.mp hc
        have hrank : (ha.dag hacyclic).rank c < (ha.dag hacyclic).rank x := Lib.Dag.rank_lt hedge
        refine ⟨ha.count_of_child hedge, fun memo hm => ih (x :: active) (fun y hy => ?_) hm (by omega)⟩
        rcases List.mem_cons.mp hy with rfl | hy
        · exact .single hedge
        · exact (hactive y hy).tail hedge
      obtain ⟨memo', heq, hm'⟩ := ha.foldlM_subtreeWeight_paths hacyclic hchildren 1 hm
      have hsum := ha.sum_children hacyclic iter x
      have htotal : (1 : Int) + (((iter.order (a.children x)).map (ha.dag hacyclic).paths).sum : Nat) =
          ((ha.dag hacyclic).paths x : Int) := by
        rw [← hsum]
        push_cast
        rfl
      rw [htotal] at heq
      refine ⟨_, ?_, hm'.update x⟩
      dsimp only
      rw [heq]
      rfl

end Collects

/-! ## The size in a ledger -/

namespace PoW.Linked
variable {p : PoW}

theorem sum_children_le (hp : p.Linked) (U : Finset String) :
    ∑ x ∈ U, (p.children x).length ≤ p.parentReferences := by
  have hlength : ∀ x, (p.children x).length ≤ p.blocks.countP fun b => x ∈ b.parents := by
    intro x
    have hsub : p.children x ⊆ (p.blocks.filter fun b => x ∈ b.parents).map BlockRecord.hash := by
      intro c hc
      obtain ⟨parents, hlink, hx⟩ := (hp.children x c).mp hc
      obtain ⟨b, hb, heq⟩ := List.mem_map.mp hlink
      obtain ⟨rfl, rfl⟩ := Prod.mk.inj heq
      exact List.mem_map_of_mem (List.mem_filter.mpr ⟨hb, by simpa using hx⟩)
    have hle := (List.subperm_of_subset (hp.nodupChildren x) hsub).length_le
    rw [List.length_map, ← List.countP_eq_length_filter] at hle
    exact hle
  have hcount : ∀ bs : List BlockRecord,
      ∑ x ∈ U, bs.countP (fun b => x ∈ b.parents) ≤ (bs.map fun b => b.parents.length).sum := by
    intro bs
    induction bs with
    | nil => simp
    | cons b bs ih =>
      have hone : ∑ x ∈ U, (if x ∈ b.parents then 1 else 0) ≤ b.parents.length := by
        rw [Finset.sum_boole, Nat.cast_id]
        have hsub : (U.filter fun x => x ∈ b.parents) ⊆ b.parents.toFinset := by
          intro x hx
          exact List.mem_toFinset.mpr (Finset.mem_filter.mp hx).2
        exact (Finset.card_le_card hsub).trans (List.toFinset_card_le _)
      simp only [List.countP_cons, Finset.sum_add_distrib, List.map_cons, List.sum_cons, decide_eq_true_eq]
      omega
  exact (Finset.sum_le_sum fun x _ => hlength x).trans (hcount p.blocks)

theorem subtreeSize_eq (hp : p.Linked) {h : String} (hh : (p.findBlock h).isSome) {S : Finset String}
    (hS : ∀ x, x ∈ S ↔ Relation.ReflTransGen (fun u c => c ∈ p.children u) h x) :
    p.subtreeSize h = S.card := by
  have hclosed : ∀ x ∈ (p.links.map Prod.fst).toFinset, ∀ c ∈ p.children x,
      c ∈ (p.links.map Prod.fst).toFinset := by
    intro x _ c hc
    obtain ⟨parents, hlink, -⟩ := (hp.children x c).mp hc
    exact List.mem_toFinset.mpr (List.mem_map.mpr ⟨_, hlink, rfl⟩)
  have hstart : h ∈ (p.links.map Prod.fst).toFinset :=
    List.mem_toFinset.mpr ((PoW.findBlock_isSome_iff h).mp hh)
  have hfuel := hp.sum_children_le (p.links.map Prod.fst).toFinset
  rw [PoW.subtreeSize, Nat.cast_inj,
    ← List.toFinset_card_of_nodup (Lib.nodup_visitAll Holds.pushAll_perm _ _)]
  congr 1
  ext x
  rw [List.mem_toFinset, hS]
  exact Lib.mem_visitAll Holds.pushAll_perm hclosed hstart (by rw [PoW.loopFuel]; omega)

end PoW.Linked

/-! ## Agreement -/

/-- The memos that calls of `subtreeWeight` leave. -/
inductive Aggregated.WeightMemo (a : Aggregated) (iter : IterationOrder) (fuel : Nat) :
    (String → Option Int) → Prop
  | start : a.WeightMemo iter fuel fun _ => none
  | call {memo memo' : String → Option Int} {hash : String} {w : Int} (hmemo : a.WeightMemo iter fuel memo)
      (hhash : a.count hash = true) (hcall : a.subtreeWeight iter fuel [] memo hash = some (w, memo')) :
      a.WeightMemo iter fuel memo'

theorem Collects.rank_lt_fuel (ha : Collects rs a) (hacyclic : Acyclic a.children) {fuel : Nat}
    (hfuel : a.blocks.length ≤ fuel) {x : String} (hx : a.count x = true) :
    (ha.dag hacyclic).rank x < fuel := by
  have hmem : x ∈ (ha.dag hacyclic).vertices := List.mem_toFinset.mpr ((Collects.count_iff x).mp hx)
  have hlt := Lib.Dag.rank_lt_card hmem
  rw [ha.card_vertices hacyclic] at hlt
  omega

theorem Collects.weighs (ha : Collects rs a) (hacyclic : Acyclic a.children) {iter : IterationOrder} {fuel : Nat}
    (hfuel : a.blocks.length ≤ fuel) {memo : String → Option Int} (hm : a.WeightMemo iter fuel memo) :
    Weighs (ha.dag hacyclic) memo := by
  induction hm with
  | start => exact fun x w hx => by cases hx
  | call _ hhash hcall ih =>
    obtain ⟨memo', heq, hm'⟩ := ha.subtreeWeight_paths hacyclic iter fuel [] (by simp) ih
      (ha.rank_lt_fuel hacyclic hfuel hhash)
    rw [heq, Option.some_inj, Prod.mk.injEq] at hcall
    rw [← hcall.2]
    exact hm'

/-- No block in the subtree of `b` has two parents in it. -/
def OneParentBelow (children : String → List String) (b : String) : Prop :=
  ∀ y u v, Relation.ReflTransGen (fun x c => c ∈ children x) b u → y ∈ children u →
    Relation.ReflTransGen (fun x c => c ∈ children x) b v → y ∈ children v → u = v

/-- **Two subtree weights.** Ledgers have been merged at the end of a round into a graph without cycles, and
`p` is a ledger with the same blocks. `subtreeSize` of a block is the number of blocks in its subtree.
`subtreeWeight` terminates with the same result whatever was asked before, and that is the number of blocks in
the subtree exactly when no block in the subtree has two parents in it. -/
theorem subtreeWeight_eq_subtreeSize_iff (prefer prefer' : PreferCandidate) (runs : List (List Registration))
    (calls : List Registration)
    (hsame : ∀ link, link ∈ (PoW.fresh.registerAll prefer calls).links ↔
      ∃ run ∈ runs, link ∈ (PoW.fresh.registerAll prefer' run).links)
    (hacyclic : Acyclic (PoW.fresh.registerAll prefer calls).children) (iter : IterationOrder) (fuel : Nat)
    (hfuel : (Aggregated.ofLedgers (runs.map (PoW.fresh.registerAll prefer'))).blocks.length ≤ fuel)
    (b : String) (hb : ((PoW.fresh.registerAll prefer calls).findBlock b).isSome) :
    ∃ (w : Int) (S : Finset String),
      (∀ memo, (Aggregated.ofLedgers (runs.map (PoW.fresh.registerAll prefer'))).WeightMemo iter fuel memo →
        ∃ memo', (Aggregated.ofLedgers (runs.map (PoW.fresh.registerAll prefer'))).subtreeWeight iter fuel []
          memo b = some (w, memo')) ∧
      (∀ x, x ∈ S ↔
        Relation.ReflTransGen (fun u c => c ∈ (PoW.fresh.registerAll prefer calls).children u) b x) ∧
      (PoW.fresh.registerAll prefer calls).subtreeSize b = S.card ∧
      (w = (PoW.fresh.registerAll prefer calls).subtreeSize b ↔
        OneParentBelow (PoW.fresh.registerAll prefer calls).children b) := by
  have hp : (PoW.fresh.registerAll prefer calls).Linked := PoW.Linked.fresh.registerAll calls
  generalize PoW.fresh.registerAll prefer calls = p at *
  obtain ⟨ledgers, hledgers⟩ : ∃ ledgers, ledgers = runs.map (PoW.fresh.registerAll prefer') := ⟨_, rfl⟩
  have hlinks : ∀ hash parents, (hash, parents) ∈ p.links ↔
      ∃ r ∈ ledgers.flatMap PoW.blocks, r.hash = hash ∧ r.parents = parents := by
    intro hash parents
    rw [hsame, hledgers]
    constructor
    · rintro ⟨run, hrun, hlink⟩
      obtain ⟨r, hr, heq⟩ := List.mem_map.mp hlink
      obtain ⟨rfl, rfl⟩ := Prod.mk.inj heq
      exact ⟨r, List.mem_flatMap.mpr ⟨_, List.mem_map_of_mem hrun, hr⟩, rfl, rfl⟩
    · rintro ⟨r, hr, rfl, rfl⟩
      obtain ⟨ledger, hledger, hr⟩ := List.mem_flatMap.mp hr
      obtain ⟨run, hrun, rfl⟩ := List.mem_map.mp hledger
      exact ⟨run, hrun, List.mem_map.mpr ⟨r, hr, rfl⟩⟩
  rw [← hledgers] at hfuel ⊢
  have hgenesis : ∃ q ∈ ledgers, ∃ r ∈ q.blocks, r.hash = GENESIS := by
    obtain ⟨r, hr, heq, -⟩ := (hlinks GENESIS []).mp hp.genesis
    obtain ⟨q, hq, hr⟩ := List.mem_flatMap.mp hr
    exact ⟨q, hq, r, hr, heq⟩
  have ha := Collects.ofLedgers hgenesis
  have hchildren : ∀ x c, c ∈ (Aggregated.ofLedgers ledgers).children x ↔ c ∈ p.children x := by
    intro x c
    rw [ha.children, hp.children]
    constructor
    · rintro ⟨r, hr, rfl, hx⟩
      exact ⟨r.parents, (hlinks _ _).mpr ⟨r, hr, rfl, rfl⟩, hx⟩
    · rintro ⟨parents, hlink, hx⟩
      obtain ⟨r, hr, hhash, rfl⟩ := (hlinks _ _).mp hlink
      exact ⟨r, hr, hhash, hx⟩
  have hedges : (fun u c => c ∈ (Aggregated.ofLedgers ledgers).children u) = fun u c => c ∈ p.children u := by
    funext u c
    rw [hchildren]
  have hacyclic' : Acyclic (Aggregated.ofLedgers ledgers).children := by
    unfold Acyclic
    rw [hedges]
    exact hacyclic
  have hcount : (Aggregated.ofLedgers ledgers).count b = true := by
    obtain ⟨link, hlink, heq⟩ := List.mem_map.mp ((PoW.findBlock_isSome_iff b).mp hb)
    obtain ⟨r, hr, hhash, -⟩ := (hlinks link.1 link.2).mp hlink
    obtain ⟨block, hblock, hsame⟩ := ha.known r hr
    exact (Collects.count_iff b).mpr (List.mem_map.mpr ⟨block, hblock, hsame.trans (hhash.trans heq)⟩)
  have hreach : ∀ x, x ∈ (ha.dag hacyclic').reached b ↔
      Relation.ReflTransGen (fun u c => c ∈ p.children u) b x := by
    intro x
    rw [Lib.Dag.mem_reached, ← hedges]
    rfl
  have hsize := hp.subtreeSize_eq hb hreach
  refine ⟨(ha.dag hacyclic').paths b, (ha.dag hacyclic').reached b, fun memo hmemo => ?_, hreach, hsize, ?_⟩
  · obtain ⟨memo', heq, -⟩ := ha.subtreeWeight_paths hacyclic' iter fuel [] (by simp)
      (ha.weighs hacyclic' hfuel hmemo) (ha.rank_lt_fuel hacyclic' hfuel hcount)
    exact ⟨memo', heq⟩
  · rw [hsize, Nat.cast_inj, Lib.Dag.paths_eq_iff]
    unfold Lib.Dag.OneWay OneParentBelow
    have hedge : ∀ u c, (ha.dag hacyclic').Edge u c ↔ c ∈ p.children u := hchildren
    have hway : ∀ u, (ha.dag hacyclic').Reach b u ↔
        Relation.ReflTransGen (fun x c => c ∈ p.children x) b u := by
      intro u
      rw [← hreach, Lib.Dag.mem_reached]
    simp only [hedge, hway]

/-! ## Two parents -/

theorem PoW.Linked.acyclic {p : PoW} (hp : p.Linked) (rank : String → Nat)
    (hrank : ∀ link ∈ p.links, ∀ x ∈ link.2, rank x < rank link.1) : Acyclic p.children := by
  apply Lib.Dag.acyclic_of_rank rank
  intro u c hc
  obtain ⟨parents, hlink, hu⟩ := (hp.children u c).mp hc
  exact hrank _ hlink u hu

def diamondCalls : List Registration := [⟨"a", [GENESIS], 0, false⟩, ⟨"b", [GENESIS], 1, false⟩,
  ⟨"c", ["a", "b"], 0, false⟩]

theorem diamond_acyclic :
    Acyclic (PoW.fresh.registerAll PoWEthereum.preferCandidate diamondCalls).children := by
  refine (PoW.Linked.fresh.registerAll diamondCalls).acyclic
    (fun h => if h = "c" then 2 else if h = GENESIS then 0 else 1) ?_
  decide +kernel

/-- In the diamond GENESIS weighs five at the end of the round, and four in the ledger. -/
theorem diamond_weights_differ :
    ¬ ∀ calls : List Registration, Acyclic (PoW.fresh.registerAll PoWEthereum.preferCandidate calls).children →
      ∀ b, ((PoW.fresh.registerAll PoWEthereum.preferCandidate calls).findBlock b).isSome →
        ((Aggregated.ofLedgers [PoW.fresh.registerAll PoWEthereum.preferCandidate calls]).subtreeWeight
          .insertion 4 [] (fun _ => none) b).map Prod.fst =
          some ((PoW.fresh.registerAll PoWEthereum.preferCandidate calls).subtreeSize b) := by
  intro hclaim
  have hweights : ((Aggregated.ofLedgers
      [PoW.fresh.registerAll PoWEthereum.preferCandidate diamondCalls]).subtreeWeight
        .insertion 4 [] (fun _ => none) GENESIS).map Prod.fst = some 5 ∧
      (PoW.fresh.registerAll PoWEthereum.preferCandidate diamondCalls).subtreeSize GENESIS = 4 := by
    decide +kernel
  have hsame := hclaim diamondCalls diamond_acyclic GENESIS (by decide +kernel)
  rw [hweights.1, hweights.2] at hsame
  exact absurd hsame (by decide)

theorem subtreeWeight_eq_subtreeSize_iff_diamond :
    ∃ (w : Int) (S : Finset String),
      (∀ memo, (Aggregated.ofLedgers ([diamondCalls].map
          (PoW.fresh.registerAll PoWEthereum.preferCandidate))).WeightMemo .insertion 4 memo →
        ∃ memo', (Aggregated.ofLedgers ([diamondCalls].map
          (PoW.fresh.registerAll PoWEthereum.preferCandidate))).subtreeWeight .insertion 4 [] memo "a" =
            some (w, memo')) ∧
      (PoW.fresh.registerAll PoWEthereum.preferCandidate diamondCalls).subtreeSize "a" = S.card ∧
      (w = (PoW.fresh.registerAll PoWEthereum.preferCandidate diamondCalls).subtreeSize "a" ↔
        OneParentBelow (PoW.fresh.registerAll PoWEthereum.preferCandidate diamondCalls).children "a") := by
  obtain ⟨w, S, hcall, -, hsize, hiff⟩ := subtreeWeight_eq_subtreeSize_iff PoWEthereum.preferCandidate
    PoWEthereum.preferCandidate [diamondCalls] diamondCalls (by simp) diamond_acyclic .insertion 4
    (by decide +kernel) "a" (by decide +kernel)
  exact ⟨w, S, hcall, hsize, hiff⟩

end Quantas
