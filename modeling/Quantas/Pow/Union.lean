import Quantas.Lib.Dag
import Quantas.Pow.EndOfRound
import Quantas.Pow.Graph

/-!
# The union of the ledgers as a graph

`PoW.Linked` says how the records and the children of a ledger belong together, after any registrations: a
block may have any number of parents. `Collects rs a` says what the aggregated graph `a` is after the records
`rs`: a block's parents are those of all records of the block, and its children are the blocks that name it.
Without a cycle it is a `Lib.Dag`.
-/

namespace Quantas

variable {p : PoW} {a : Aggregated} {prefer : PreferCandidate}

def Acyclic (children : String → List String) : Prop :=
  ∀ x, ¬ Relation.TransGen (fun u c => c ∈ children u) x x

/-! ## Ledgers -/

/-- The children of a ledger are those that its records name. -/
structure PoW.Linked (p : PoW) : Prop where
  nodup : (p.links.map Prod.fst).Nodup
  genesis : (GENESIS, []) ∈ p.links
  children : ∀ x c, c ∈ p.children x ↔ ∃ parents, (c, parents) ∈ p.links ∧ x ∈ parents
  nodupChildren : ∀ x, (p.children x).Nodup

namespace PoW

theorem mem_linkToParents (hash : String) (parents : List String) (x c : String) :
    c ∈ p.linkToParents hash parents x ↔ c ∈ p.children x ∨ c = hash ∧ x ∈ parents := by
  unfold linkToParents
  generalize p.children = children
  induction parents generalizing children with
  | nil => simp
  | cons parent parents ih =>
    rw [List.foldl_cons, ih]
    have hstep : c ∈ (if hash ∈ children parent then children
        else Function.update children parent (children parent ++ [hash])) x ↔
        c ∈ children x ∨ c = hash ∧ x = parent := by
      by_cases hknown : hash ∈ children parent
      · rw [if_pos hknown]
        refine ⟨.inl, ?_⟩
        rintro (hc | ⟨rfl, rfl⟩)
        · exact hc
        · exact hknown
      · rw [if_neg hknown]
        by_cases hx : x = parent
        · rw [hx, Function.update_self, List.mem_append, List.mem_singleton]
          simp
        · rw [Function.update_of_ne hx]
          simp [hx]
    rw [hstep, List.mem_cons]
    tauto

theorem nodup_linkToParents (hp : ∀ x, (p.children x).Nodup) (hash : String) (parents : List String)
    (x : String) : (p.linkToParents hash parents x).Nodup := by
  unfold linkToParents
  generalize p.children = children at hp
  induction parents generalizing children with
  | nil => exact hp x
  | cons parent parents ih =>
    rw [List.foldl_cons]
    refine ih _ fun y => ?_
    by_cases hknown : hash ∈ children parent
    · rw [if_pos hknown]
      exact hp y
    · rw [if_neg hknown]
      by_cases hy : y = parent
      · rw [hy, Function.update_self, ← List.concat_eq_append, List.nodup_concat]
        exact ⟨hknown, hp parent⟩
      · rw [Function.update_of_ne hy]
        exact hp y

theorem children_propagateLoop (fuel : Nat) (p : PoW) (queue visited : List String) :
    (propagateLoop prefer fuel p queue visited).children = p.children := by
  induction fuel generalizing p queue visited with
  | zero => rfl
  | succ fuel ih =>
    cases queue with
    | nil => rfl
    | cons current queue =>
      rw [propagateLoop]
      split_ifs
      · exact ih p queue visited
      · exact (ih _ _ _).trans (children_visit current)

theorem children_registerBlock (hash : String) (parents : List String) (miner : InterfaceId) (flag : Bool) :
    (p.registerBlock prefer hash parents miner flag).children =
      if (p.findBlock hash).isSome then p.children else p.linkToParents hash parents := by
  have hensure : ∀ q : PoW, (q.ensureBestValid prefer).children = q.children := by
    intro q
    unfold ensureBestValid
    split_ifs <;> rfl
  unfold registerBlock
  cases p.findBlock hash with
  | some b => rfl
  | none => exact (hensure _).trans (children_propagateLoop _ _ _ _)

theorem findBlock_isSome_iff (hash : String) : (p.findBlock hash).isSome ↔ hash ∈ p.links.map Prod.fst := by
  unfold findBlock links
  rw [List.find?_isSome, List.map_map, List.mem_map]
  simp

namespace Linked

theorem fresh : PoW.fresh.Linked where
  nodup := List.nodup_singleton _
  genesis := List.mem_singleton_self _
  children := by simp [PoW.fresh, links]
  nodupChildren _ := List.nodup_nil

theorem registerBlock (hp : p.Linked) (hash : String) (parents : List String) (miner : InterfaceId)
    (flag : Bool) : (p.registerBlock prefer hash parents miner flag).Linked := by
  have hlinks : (p.registerBlock prefer hash parents miner flag).links =
      if (p.findBlock hash).isSome then p.links else p.links ++ [(hash, parents)] :=
    links_registerBlock hash parents miner flag
  have hchildren : (p.registerBlock prefer hash parents miner flag).children =
      if (p.findBlock hash).isSome then p.children else p.linkToParents hash parents :=
    children_registerBlock hash parents miner flag
  by_cases hknown : (p.findBlock hash).isSome
  · rw [if_pos hknown] at hlinks hchildren
    refine ⟨?_, ?_, ?_, ?_⟩
    · rw [hlinks]
      exact hp.nodup
    · rw [hlinks]
      exact hp.genesis
    · rw [hlinks, hchildren]
      exact hp.children
    · rw [hchildren]
      exact hp.nodupChildren
  · rw [if_neg hknown] at hlinks hchildren
    refine ⟨?_, ?_, fun x c => ?_, ?_⟩
    · rw [hlinks, List.map_append, List.map_singleton, ← List.concat_eq_append, List.nodup_concat]
      exact ⟨fun hmem => hknown ((findBlock_isSome_iff hash).mpr hmem), hp.nodup⟩
    · rw [hlinks]
      exact List.mem_append_left _ hp.genesis
    · rw [hlinks, hchildren, mem_linkToParents, hp.children]
      simp only [List.mem_append, List.mem_singleton, Prod.mk.injEq]
      constructor
      · rintro (⟨ps, hps, hx⟩ | ⟨rfl, hx⟩)
        · exact ⟨ps, .inl hps, hx⟩
        · exact ⟨parents, .inr ⟨rfl, rfl⟩, hx⟩
      · rintro ⟨ps, hps | ⟨rfl, rfl⟩, hx⟩
        · exact .inl ⟨ps, hps, hx⟩
        · exact .inr ⟨rfl, hx⟩
    · rw [hchildren]
      exact nodup_linkToParents hp.nodupChildren hash parents

theorem registerAll (hp : p.Linked) (calls : List Registration) : (p.registerAll prefer calls).Linked := by
  induction calls using List.reverseRecOn with
  | nil => exact hp
  | append_singleton l c ih =>
    rw [PoW.registerAll_concat]
    exact ih.registerBlock _ _ _ _

theorem findBlock_of_mem (hp : p.Linked) {b : BlockRecord} (hb : b ∈ p.blocks) :
    p.findBlock b.hash = some b := by
  obtain ⟨b', hb'⟩ := exists_findBlock (List.mem_map_of_mem (f := fun b => (b.hash, b.parents)) hb)
  have hnodup := hp.nodup
  unfold links at hnodup
  rw [List.map_map] at hnodup
  rw [hb', List.inj_on_of_nodup_map hnodup (List.mem_of_find?_eq_some hb') hb (findBlock_hash hb')]

theorem findBlock_genesis (hp : p.Linked) : ∃ b, p.findBlock GENESIS = some b ∧ b.parents = [] := by
  obtain ⟨b, hb, heq⟩ := List.mem_map.mp hp.genesis
  obtain ⟨hhash, hparents⟩ := Prod.mk.inj heq
  exact ⟨b, hhash ▸ hp.findBlock_of_mem hb, hparents⟩

end Linked

end PoW

/-! ## The aggregated graph -/

structure Collects (rs : List BlockRecord) (a : Aggregated) : Prop where
  nodup : (a.blocks.map BlockAggregate.hash).Nodup
  known : ∀ r ∈ rs, ∃ b ∈ a.blocks, b.hash = r.hash
  found : ∀ b ∈ a.blocks, ∃ r ∈ rs, r.hash = b.hash
  parents : ∀ b ∈ a.blocks, ∀ x, x ∈ b.parents ↔ ∃ r ∈ rs, r.hash = b.hash ∧ x ∈ r.parents
  parasite : ∀ b ∈ a.blocks, b.parasite = true ↔ ∃ r ∈ rs, r.hash = b.hash ∧ r.parasite = true
  seen : ∀ b ∈ a.blocks, b.seen = rs.countP fun r => r.hash = b.hash
  children : ∀ x c, c ∈ a.children x ↔ ∃ r ∈ rs, r.hash = c ∧ x ∈ r.parents
  nodupChildren : ∀ x, (a.children x).Nodup

namespace Collects
variable {rs : List BlockRecord}

theorem mem_insertInto {l : List String} {h c : String} :
    c ∈ Aggregated.insertInto l h ↔ c ∈ l ∨ c = h := by
  unfold Aggregated.insertInto
  by_cases hmem : h ∈ l
  · rw [if_pos hmem]
    refine ⟨.inl, ?_⟩
    rintro (hc | rfl)
    · exact hc
    · exact hmem
  · rw [if_neg hmem, List.mem_append, List.mem_singleton]

theorem nodup_insertInto {l : List String} (hl : l.Nodup) (h : String) :
    (Aggregated.insertInto l h).Nodup := by
  unfold Aggregated.insertInto
  by_cases hmem : h ∈ l
  · rw [if_pos hmem]
    exact hl
  · rw [if_neg hmem, ← List.concat_eq_append, List.nodup_concat]
    exact ⟨hmem, hl⟩

theorem mem_foldl_insertInto (parents l : List String) (x : String) :
    x ∈ parents.foldl Aggregated.insertInto l ↔ x ∈ l ∨ x ∈ parents := by
  induction parents generalizing l with
  | nil => simp
  | cons parent parents ih =>
    rw [List.foldl_cons, ih, mem_insertInto, List.mem_cons, or_assoc]

theorem addRecord_children (record : BlockRecord) (x : String) :
    (∀ c, c ∈ (a.addRecord record).children x ↔ c ∈ a.children x ∨ c = record.hash ∧ x ∈ record.parents) ∧
      ((a.children x).Nodup → ((a.addRecord record).children x).Nodup) := by
  unfold Aggregated.addRecord
  dsimp only
  generalize a.children = children
  induction record.parents generalizing children with
  | nil => simp
  | cons parent parents ih =>
    obtain ⟨hmem, hnodup⟩ := ih (Function.update children parent
      (Aggregated.insertInto (children parent) record.hash))
    rw [List.foldl_cons]
    by_cases hx : x = parent
    · subst hx
      rw [Function.update_self] at hmem hnodup
      refine ⟨fun c => ?_, fun h => hnodup (nodup_insertInto h _)⟩
      rw [hmem, mem_insertInto, List.mem_cons]
      tauto
    · rw [Function.update_of_ne hx] at hmem hnodup
      refine ⟨fun c => ?_, hnodup⟩
      rw [hmem, List.mem_cons]
      tauto

theorem count_iff (hash : String) : a.count hash = true ↔ hash ∈ a.blocks.map BlockAggregate.hash := by
  rw [Aggregated.count, List.any_eq_true, List.mem_map]
  simp

theorem empty : Collects [] .empty where
  nodup := List.nodup_nil
  known := by simp
  found := by simp [Aggregated.empty]
  parents := by simp [Aggregated.empty]
  parasite := by simp [Aggregated.empty]
  seen := by simp [Aggregated.empty]
  children := by simp [Aggregated.empty]
  nodupChildren _ := List.nodup_nil

theorem addRecord (ha : Collects rs a) (record : BlockRecord) :
    Collects (rs ++ [record]) (a.addRecord record) := by
  have hold : ∀ {P : BlockRecord → Prop} {b : BlockAggregate}, b.hash ≠ record.hash →
      ((∃ r ∈ rs ++ [record], r.hash = b.hash ∧ P r) ↔ ∃ r ∈ rs, r.hash = b.hash ∧ P r) := by
    intro P b hne
    simp only [List.mem_append, List.mem_singleton]
    constructor
    · rintro ⟨r, hr | rfl, heq, hP⟩
      · exact ⟨r, hr, heq, hP⟩
      · exact absurd heq.symm hne
    · rintro ⟨r, hr, h⟩
      exact ⟨r, .inl hr, h⟩
  have hnew : ∀ {P : BlockRecord → Prop} {b : BlockAggregate}, b.hash = record.hash →
      ((∃ r ∈ rs ++ [record], r.hash = b.hash ∧ P r) ↔ (∃ r ∈ rs, r.hash = b.hash ∧ P r) ∨ P record) := by
    intro P b heq
    simp only [List.mem_append, List.mem_singleton]
    constructor
    · rintro ⟨r, hr | rfl, hhash, hP⟩
      · exact .inl ⟨r, hr, hhash, hP⟩
      · exact .inr hP
    · rintro (⟨r, hr, h⟩ | hP)
      · exact ⟨r, .inl hr, h⟩
      · exact ⟨record, .inr rfl, heq.symm, hP⟩
  have hcount : ∀ b : BlockAggregate, (rs ++ [record]).countP (fun r => r.hash = b.hash) =
      rs.countP (fun r => r.hash = b.hash) + if b.hash = record.hash then 1 else 0 := by
    intro b
    rw [List.countP_append, List.countP_singleton]
    simp [eq_comm]
  have hchildren : ∀ x c, c ∈ (a.addRecord record).children x ↔
      ∃ r ∈ rs ++ [record], r.hash = c ∧ x ∈ r.parents := by
    intro x c
    rw [(addRecord_children record x).1, ha.children]
    simp only [List.mem_append, List.mem_singleton]
    constructor
    · rintro (⟨r, hr, h⟩ | ⟨rfl, hx⟩)
      · exact ⟨r, .inl hr, h⟩
      · exact ⟨record, .inr rfl, rfl, hx⟩
    · rintro ⟨r, hr | rfl, hc, hx⟩
      · exact .inl ⟨r, hr, hc, hx⟩
      · exact .inr ⟨hc.symm, hx⟩
  have hnodupChildren := fun x => (addRecord_children (a := a) record x).2 (ha.nodupChildren x)
  by_cases hknown : a.count record.hash
  · -- the record is added to the block that is there
    obtain ⟨f, hf, hblocks⟩ : ∃ f : BlockAggregate → BlockAggregate, (∀ b, f b = if b.hash = record.hash then
          { b with
            parents := record.parents.foldl Aggregated.insertInto b.parents
            parasite := b.parasite || record.parasite
            seen := b.seen + 1 }
        else b) ∧ (a.addRecord record).blocks = a.blocks.map f :=
      ⟨_, fun _ => rfl, if_pos hknown⟩
    have hhash : ∀ b, (f b).hash = b.hash := by
      intro b
      rw [hf]
      split_ifs <;> rfl
    have hmap : (a.blocks.map f).map BlockAggregate.hash = a.blocks.map BlockAggregate.hash := by
      rw [List.map_map]
      exact List.map_congr_left fun b _ => hhash b
    refine ⟨?_, ?_, ?_, ?_, ?_, ?_, hchildren, hnodupChildren⟩
    · rw [hblocks, hmap]
      exact ha.nodup
    · intro r hr
      suffices hmem : r.hash ∈ (a.blocks.map f).map BlockAggregate.hash by
        rw [hblocks]
        exact List.mem_map.mp hmem
      rw [hmap]
      rcases List.mem_append.mp hr with hr | hr
      · exact List.mem_map.mpr (ha.known r hr)
      · rw [List.mem_singleton.mp hr]
        exact (count_iff _).mp hknown
    · rw [hblocks]
      intro b' hb'
      obtain ⟨b, hb, rfl⟩ := List.mem_map.mp hb'
      obtain ⟨r, hr, heq⟩ := ha.found b hb
      exact ⟨r, List.mem_append_left _ hr, heq.trans (hhash b).symm⟩
    · rw [hblocks]
      intro b' hb' x
      obtain ⟨b, hb, rfl⟩ := List.mem_map.mp hb'
      rw [hhash]
      by_cases hsame : b.hash = record.hash
      · rw [hf, if_pos hsame, hnew hsame, ← ha.parents b hb, mem_foldl_insertInto]
      · rw [hf, if_neg hsame, hold hsame, ha.parents b hb]
    · rw [hblocks]
      intro b' hb'
      obtain ⟨b, hb, rfl⟩ := List.mem_map.mp hb'
      rw [hhash]
      by_cases hsame : b.hash = record.hash
      · rw [hf, if_pos hsame, hnew hsame, ← ha.parasite b hb, Bool.or_eq_true]
      · rw [hf, if_neg hsame, hold hsame, ha.parasite b hb]
    · rw [hblocks]
      intro b' hb'
      obtain ⟨b, hb, rfl⟩ := List.mem_map.mp hb'
      rw [hhash, hcount, ← ha.seen b hb]
      by_cases hsame : b.hash = record.hash
      · rw [hf, if_pos hsame, if_pos hsame]
      · rw [hf, if_neg hsame, if_neg hsame, Nat.add_zero]
  · -- a new block
    have hblocks : (a.addRecord record).blocks = a.blocks ++ [{
        hash := record.hash
        parents := record.parents
        parasite := record.parasite
        seen := 1 }] := if_neg hknown
    have hfresh : ∀ b ∈ a.blocks, b.hash ≠ record.hash := by
      intro b hb heq
      exact hknown ((count_iff _).mpr (List.mem_map.mpr ⟨b, hb, heq⟩))
    have hnone : ∀ r ∈ rs, r.hash ≠ record.hash := by
      intro r hr heq
      obtain ⟨b, hb, hhash⟩ := ha.known r hr
      exact hfresh b hb (hhash.trans heq)
    have hno : ∀ P : BlockRecord → Prop, ¬ ∃ r ∈ rs, r.hash = record.hash ∧ P r := by
      rintro P ⟨r, hr, heq, -⟩
      exact hnone r hr heq
    refine ⟨?_, ?_, ?_, ?_, ?_, ?_, hchildren, hnodupChildren⟩
    · rw [hblocks, List.map_append, List.map_singleton, ← List.concat_eq_append, List.nodup_concat]
      exact ⟨fun hmem => hknown ((count_iff _).mpr hmem), ha.nodup⟩
    · intro r hr
      rw [hblocks]
      rcases List.mem_append.mp hr with hr | hr
      · obtain ⟨b, hb, heq⟩ := ha.known r hr
        exact ⟨b, List.mem_append_left _ hb, heq⟩
      · rw [List.mem_singleton.mp hr]
        exact ⟨_, List.mem_append_right _ (List.mem_singleton_self _), rfl⟩
    · rw [hblocks]
      intro b hb
      rcases List.mem_append.mp hb with hb | hb
      · obtain ⟨r, hr, heq⟩ := ha.found b hb
        exact ⟨r, List.mem_append_left _ hr, heq⟩
      · rw [List.mem_singleton.mp hb]
        exact ⟨record, List.mem_append_right _ (List.mem_singleton_self _), rfl⟩
    · rw [hblocks]
      intro b hb x
      rcases List.mem_append.mp hb with hb | hb
      · rw [hold (hfresh b hb), ha.parents b hb]
      · rw [List.mem_singleton.mp hb, hnew rfl]
        simp only [hno, false_or]
    · rw [hblocks]
      intro b hb
      rcases List.mem_append.mp hb with hb | hb
      · rw [hold (hfresh b hb), ha.parasite b hb]
      · rw [List.mem_singleton.mp hb, hnew rfl]
        simp only [hno, false_or]
    · rw [hblocks]
      intro b hb
      rw [hcount]
      rcases List.mem_append.mp hb with hb | hb
      · rw [if_neg (hfresh b hb), ha.seen b hb, Nat.add_zero]
      · rw [List.mem_singleton.mp hb, if_pos rfl, List.countP_eq_zero.mpr]
        intro r hr
        simpa using hnone r hr

theorem foldl_addRecord (ha : Collects rs a) (records : List BlockRecord) :
    Collects (rs ++ records) (records.foldl Aggregated.addRecord a) := by
  induction records generalizing rs a with
  | nil => rwa [List.append_nil]
  | cons r records ih =>
    have h := ih (ha.addRecord r)
    rwa [List.append_assoc, List.singleton_append] at h

theorem ofLedgers {ledgers : List PoW} (hgenesis : ∃ p ∈ ledgers, ∃ r ∈ p.blocks, r.hash = GENESIS) :
    Collects (ledgers.flatMap PoW.blocks) (.ofLedgers ledgers) := by
  have hfold : ledgers.foldl (fun a ledger => ledger.blocks.foldl Aggregated.addRecord a) .empty =
      (ledgers.flatMap PoW.blocks).foldl Aggregated.addRecord .empty := by
    rw [List.foldl_flatMap]
  have hcollects := empty.foldl_addRecord (ledgers.flatMap PoW.blocks)
  rw [List.nil_append] at hcollects
  unfold Aggregated.ofLedgers Aggregated.addGenesis
  rw [hfold, if_pos]
  · exact hcollects
  · obtain ⟨p, hp, r, hr, hgen⟩ := hgenesis
    obtain ⟨b, hb, heq⟩ := hcollects.known r (List.mem_flatMap.mpr ⟨p, hp, hr⟩)
    exact (count_iff _).mpr (List.mem_map.mpr ⟨b, hb, heq.trans hgen⟩)

theorem count_of_child (ha : Collects rs a) {x c : String} (hc : c ∈ a.children x) : a.count c = true := by
  obtain ⟨r, hr, rfl, -⟩ := (ha.children x c).mp hc
  obtain ⟨b, hb, heq⟩ := ha.known r hr
  exact (count_iff _).mpr (List.mem_map.mpr ⟨b, hb, heq⟩)

def dag (ha : Collects rs a) (hacyclic : Acyclic a.children) : Lib.Dag String where
  Edge x c := c ∈ a.children x
  vertices := (a.blocks.map BlockAggregate.hash).toFinset
  mem _ _ hc := List.mem_toFinset.mpr ((count_iff _).mp (ha.count_of_child hc))
  acyclic := hacyclic

theorem card_vertices (ha : Collects rs a) (hacyclic : Acyclic a.children) :
    (ha.dag hacyclic).vertices.card = a.blocks.length := by
  have hcard := List.toFinset_card_of_nodup ha.nodup
  rw [List.length_map] at hcard
  exact hcard

theorem acyclic (ha : Collects rs a) (rank : String → Nat)
    (hrank : ∀ r ∈ rs, ∀ x ∈ r.parents, rank x < rank r.hash) : Acyclic a.children := by
  apply Lib.Dag.acyclic_of_rank rank
  intro u c hc
  obtain ⟨r, hr, rfl, hu⟩ := (ha.children u c).mp hc
  exact hrank r hr u hu

end Collects

end Quantas
