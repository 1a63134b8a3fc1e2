import Quantas.Pow.Arrival
import Quantas.Pow.History

/-!
# The block graph of all ledgers

The records of all ledgers of a run form one tree below GENESIS (`ledgers_form_tree`), although no code
checks it. A miner names its block after itself, the transaction and the round, so with one protocol step in
a round a hash is used once (`blockHash_inj`); the parent is the best block, GENESIS or a withheld block,
and all of these exist; what a message says of a block is what its miner registered. The proof keeps the tree
itself: `GraphInv t net` says that the ledgers, the messages and the withheld chains of `net` speak of the
blocks of `t`, and a protocol step either leaves `t` as it is or grafts one new block on it.
-/

namespace Quantas

/-! ## Hashes -/

theorem colon_notMem_natRepr (n : Nat) : ':' ∉ n.repr.toList := by
  rw [Nat.toList_repr]
  intro hmem
  have hdigit := Nat.isDigit_of_mem_toDigits (by omega) (by omega) hmem
  exact absurd hdigit (by decide)

theorem colon_notMem_intRepr (a : Int) : ':' ∉ a.repr.toList := by
  rw [Int.repr_eq_if]
  split_ifs
  · exact colon_notMem_natRepr _
  · rw [String.toList_append]
    intro hmem
    rcases List.mem_append.mp hmem with hmem | hmem
    · exact absurd hmem (by decide)
    · exact colon_notMem_natRepr _ hmem

theorem append_cons_inj {α : Type*} {a : α} {l l' r r' : List α} (hl : a ∉ l) (hl' : a ∉ l')
    (h : l ++ a :: r = l' ++ a :: r') : l = l' ∧ r = r' := by
  induction l generalizing l' with
  | nil =>
    cases l' with
    | nil => exact ⟨rfl, (List.cons.inj h).2⟩
    | cons b l' => exact absurd ((List.cons.inj h).1 ▸ List.mem_cons_self) hl'
  | cons b l ih =>
    cases l' with
    | nil => exact absurd ((List.cons.inj h).1 ▸ List.mem_cons_self) hl
    | cons c l' =>
      obtain ⟨rfl, hrest⟩ := List.cons.inj h
      obtain ⟨rfl, rfl⟩ := ih (fun hm => hl (.tail _ hm)) (fun hm => hl' (.tail _ hm)) hrest
      exact ⟨rfl, rfl⟩

theorem toList_blockHash (p : InterfaceId) (txId : Int) (round : Nat) :
    (blockHash p txId round).toList =
      (Int.repr p).toList ++ ':' :: ((Int.repr txId).toList ++ ':' :: (Nat.repr round).toList) := by
  unfold blockHash
  simp only [String.toList_append, List.append_assoc]
  rfl

theorem blockHash_inj {p q : InterfaceId} {i j : Int} {r r' : Nat}
    (h : blockHash p i r = blockHash q j r') : p = q ∧ i = j ∧ r = r' := by
  have hlist := congrArg String.toList h
  rw [toList_blockHash, toList_blockHash] at hlist
  obtain ⟨hminer, hrest⟩ := append_cons_inj (colon_notMem_intRepr p) (colon_notMem_intRepr q) hlist
  obtain ⟨htx, hround⟩ := append_cons_inj (colon_notMem_intRepr i) (colon_notMem_intRepr j) hrest
  refine ⟨?_, ?_, ?_⟩
  · exact Int.repr_injective (String.toList_injective hminer)
  · exact Int.repr_injective (String.toList_injective htx)
  · exact Nat.repr_injective (String.toList_injective hround)

theorem colon_mem_blockHash (p : InterfaceId) (i : Int) (r : Nat) : ':' ∈ (blockHash p i r).toList := by
  rw [toList_blockHash]
  exact List.mem_append_right _ List.mem_cons_self

theorem blockHash_ne_genesis (p : InterfaceId) (i : Int) (r : Nat) : blockHash p i r ≠ GENESIS := by
  intro heq
  have hmem := colon_mem_blockHash p i r
  rw [heq] at hmem
  exact absurd hmem (by decide)

theorem blockHash_ne_empty (p : InterfaceId) (i : Int) (r : Nat) : blockHash p i r ≠ "" := by
  intro heq
  have hmem := colon_mem_blockHash p i r
  rw [heq] at hmem
  exact absurd hmem (by decide)

/-! ## Links -/

namespace PoW
variable {p : PoW} {prefer : PreferCandidate}

/-- What a ledger knows of its blocks for good: their hashes and parents. -/
def links (p : PoW) : List (String × List String) := p.blocks.map fun b => (b.hash, b.parents)

theorem links_modify (hash : String) {f : BlockRecord → BlockRecord} (hhash : ∀ b, (f b).hash = b.hash)
    (hparents : ∀ b, (f b).parents = b.parents) : (p.modify hash f).links = p.links := by
  unfold links modify
  rw [List.map_map]
  apply List.map_congr_left
  intro b _
  dsimp only [Function.comp]
  split_ifs
  · rw [hhash, hparents]
  · rfl

theorem links_visit (hash : String) : (p.visit prefer hash).links = p.links := by
  have hheight : (p.recomputeHeight hash).links = p.links := by
    unfold recomputeHeight
    cases p.findBlock hash with
    | none => rfl
    | some b =>
      dsimp only
      split_ifs <;> exact links_modify hash (fun _ => rfl) fun _ => rfl
  have hpromote : ((p.recomputeHeight hash).maybePromoteBest prefer hash).links =
      (p.recomputeHeight hash).links := by
    unfold maybePromoteBest
    cases (p.recomputeHeight hash).findBlock hash with
    | none => rfl
    | some b =>
      dsimp only
      split_ifs <;> rfl
  exact hpromote.trans hheight

theorem links_propagateLoop (fuel : Nat) (p : PoW) (queue visited : List String) :
    (propagateLoop prefer fuel p queue visited).links = p.links := by
  induction fuel generalizing p queue visited with
  | zero => rfl
  | succ fuel ih =>
    cases queue with
    | nil => rfl
    | cons current queue =>
      rw [propagateLoop]
      split_ifs
      · exact ih p queue visited
      · exact (ih _ _ _).trans (links_visit current)

theorem links_propagateUpdates (root : String) : (p.propagateUpdates prefer root).links = p.links := by
  have hensure : ∀ q : PoW, (q.ensureBestValid prefer).links = q.links := by
    intro q
    unfold ensureBestValid
    split_ifs <;> rfl
  exact (hensure _).trans (links_propagateLoop _ _ _ _)

theorem links_registerBlock (hash : String) (parents : List String) (miner : InterfaceId) (flag : Bool) :
    (p.registerBlock prefer hash parents miner flag).links =
      if (p.findBlock hash).isSome then p.links else p.links ++ [(hash, parents)] := by
  unfold registerBlock
  cases p.findBlock hash with
  | some b => exact links_modify hash (fun _ => rfl) fun _ => rfl
  | none =>
    refine (links_propagateUpdates hash).trans ?_
    unfold links
    rw [List.map_append]
    rfl

theorem mem_links_of_findBlock {hash : String} {b : BlockRecord} (h : p.findBlock hash = some b) :
    (hash, b.parents) ∈ p.links := by
  refine List.mem_map.mpr ⟨b, List.mem_of_find?_eq_some h, ?_⟩
  rw [findBlock_hash h]

theorem exists_findBlock {link : String × List String} (h : link ∈ p.links) :
    ∃ b, p.findBlock link.1 = some b := by
  obtain ⟨b, hb, rfl⟩ := List.mem_map.mp h
  exact Option.isSome_iff_exists.mp (List.find?_isSome.mpr ⟨b, hb, by simp⟩)

theorem links_subset_registerBlock (hash : String) (parents : List String) (miner : InterfaceId)
    (flag : Bool) : p.links ⊆ (p.registerBlock prefer hash parents miner flag).links := by
  rw [links_registerBlock]
  split_ifs
  · exact List.Subset.refl _
  · exact List.subset_append_left _ _

theorem exists_link_registerBlock (hash : String) (parents : List String) (miner : InterfaceId)
    (flag : Bool) : ∃ ps, (hash, ps) ∈ (p.registerBlock prefer hash parents miner flag).links := by
  rw [links_registerBlock]
  cases hfind : p.findBlock hash with
  | some b => exact ⟨b.parents, mem_links_of_findBlock hfind⟩
  | none => exact ⟨parents, List.mem_append_right _ (List.mem_singleton.mpr rfl)⟩

end PoW

/-! ## The tree grows -/

namespace BlockTree
variable {t t' : BlockTree}

open Lib.RootedTree

def seed : BlockTree where
  parent := fun _ => GENESIS
  acyclic := fun _ => ⟨1, rfl⟩
  blocks := {GENESIS}
  genesis_mem := Finset.mem_singleton_self GENESIS
  parent_mem := fun _ hb hne => absurd (Finset.mem_singleton.mp hb) hne

/-- `t'` has the blocks of `t` where they were. -/
structure Extends (t' t : BlockTree) : Prop where
  blocks : t.blocks ⊆ t'.blocks
  parent : ∀ b ∈ t.blocks, t'.parent b = t.parent b

theorem Extends.refl (t : BlockTree) : Extends t t := ⟨Finset.Subset.refl _, fun _ _ => rfl⟩

theorem Extends.parentsOf (h : Extends t' t) {b : String} (hb : b ∈ t.blocks) :
    t'.parentsOf b = t.parentsOf b := by
  unfold BlockTree.parentsOf
  rw [h.parent b hb]

theorem not_anc_of_notMem {b a : String} (hb : b ∉ t.blocks) (ha : a ∈ t.blocks) : ¬ t.Anc b a :=
  fun hanc => hb (rooted_blocks ha b hanc)

/-- The tree with a new block `b` below the block `a`. -/
def graft (t : BlockTree) (b a : String) (hb : b ∉ t.blocks) (ha : a ∈ t.blocks) : BlockTree where
  toRootedTree := t.toRootedTree.graft b a (not_anc_of_notMem hb ha)
  blocks := insert b t.blocks
  genesis_mem := Finset.mem_insert_of_mem t.genesis_mem
  parent_mem := by
    intro c hc hne
    change Function.update t.parent b a c ∈ _
    rcases Finset.mem_insert.mp hc with rfl | hc
    · rw [Function.update_self]
      exact Finset.mem_insert_of_mem ha
    · have hcb : c ≠ b := fun heq => hb (heq ▸ hc)
      rw [Function.update_of_ne hcb]
      exact Finset.mem_insert_of_mem (t.parent_mem c hc hne)

variable {b a : String} (hb : b ∉ t.blocks) (ha : a ∈ t.blocks)

theorem graft_parent_self : (t.graft b a hb ha).parent b = a := Function.update_self ..

theorem graft_extends : (t.graft b a hb ha).Extends t where
  blocks := Finset.subset_insert b t.blocks
  parent := by
    intro c hc
    have hcb : c ≠ b := fun heq => hb (heq ▸ hc)
    exact Function.update_of_ne hcb ..

theorem graft_parentsOf_self : (t.graft b a hb ha).parentsOf b = [a] := by
  have hne : b ≠ GENESIS := fun heq => hb (heq ▸ t.genesis_mem)
  unfold BlockTree.parentsOf
  rw [if_neg hne, graft_parent_self hb ha]

def Describes (t : BlockTree) : PoWContent → Prop
  | .tx _ => True
  | .block b => b.hash ≠ "" ∧ b.hash ∈ t.blocks ∧ b.parents = t.parentsOf b.hash

theorem Extends.describes (h : Extends t' t) {c : PoWContent} (hc : t.Describes c) : t'.Describes c := by
  cases c with
  | tx tx => trivial
  | block b =>
    obtain ⟨hne, hmem, hparents⟩ := hc
    exact ⟨hne, h.blocks hmem, hparents.trans (h.parentsOf hmem).symm⟩

theorem parasiteBlind_describes (t : BlockTree) : Miner.ParasiteBlind t.Describes := fun _ hb => hb

end BlockTree

namespace Miner
variable {s r : Miner} {env : MiningRound} {t t' : BlockTree} {p : InterfaceId} {own : String → Prop}

/-- Miner `p` speaks of the blocks of the tree only, and its ledger has its `own` blocks. -/
structure Within (t : BlockTree) (p : InterfaceId) (own : String → Prop) (s : Miner) : Prop where
  publicId : s.publicId = p
  ledger : ∀ link ∈ s.pow.links, link.1 ∈ t.blocks ∧ link.2 = t.parentsOf link.1
  own : ∀ h, own h → ∃ ps, (h, ps) ∈ s.pow.links
  received : ∀ msg ∈ s.received, t.Describes msg.content
  vouched : s.Vouched t.Describes

theorem Within.mono (h : s.Within t p own) (ht : t'.Extends t) : s.Within t' p own where
  publicId := h.publicId
  ledger := fun link hlink => by
    obtain ⟨hmem, hparents⟩ := h.ledger link hlink
    exact ⟨ht.blocks hmem, hparents.trans (ht.parentsOf hmem).symm⟩
  own := h.own
  received := fun msg hmsg => ht.describes (h.received msg hmsg)
  vouched := h.vouched.mono fun _ hc => ht.describes hc

theorem Within.publishes (h : s.Within t p own) (hr : Publishes s r) (hvouched : r.Vouched t.Describes) :
    r.Within t p own := by
  obtain ⟨_, _, _, rfl⟩ := hr
  exact ⟨h.publicId, h.ledger, h.own, h.received, hvouched⟩

theorem Within.broadcast (h : s.Within t p own) {msg : PoWMessage} (hmsg : t.Describes msg.content) :
    (s.broadcast msg).Within t p own :=
  h.publishes (publishes_broadcast s msg) (h.vouched.broadcast t.parasiteBlind_describes hmsg)

theorem Within.register (h : s.Within t p own) (prefer : PreferCandidate) {hash : String}
    {parents : List String} (hmem : hash ∈ t.blocks) (hparents : parents = t.parentsOf hash)
    (miner : InterfaceId) (flag : Bool) :
    Within t p (fun k => own k ∨ k = hash)
      { s with pow := s.pow.registerBlock prefer hash parents miner flag } where
  publicId := h.publicId
  ledger := by
    intro link hlink
    change link ∈ (s.pow.registerBlock prefer hash parents miner flag).links at hlink
    rw [PoW.links_registerBlock] at hlink
    split_ifs at hlink
    · exact h.ledger link hlink
    · rcases List.mem_append.mp hlink with hlink | hlink
      · exact h.ledger link hlink
      · obtain rfl := List.mem_singleton.mp hlink
        exact ⟨hmem, hparents⟩
  own := by
    rintro k (hk | rfl)
    · obtain ⟨ps, hps⟩ := h.own k hk
      exact ⟨ps, PoW.links_subset_registerBlock _ _ _ _ hps⟩
    · exact PoW.exists_link_registerBlock k parents miner flag
  received := h.received
  vouched := ⟨h.vouched.inStream, h.vouched.outbox, h.vouched.withheld⟩

theorem Within.onPacket (h : s.Within t p own) (prefer : PreferCandidate) {pkt : Packet PoWMessage}
    (hpkt : t.Describes pkt.message.content) : (s.onPacket prefer pkt).Within t p own := by
  have hreceived : ∀ msg ∈ s.received ++ [pkt.message], t.Describes msg.content := by
    intro msg hmsg
    rcases List.mem_append.mp hmsg with hmsg | hmsg
    · exact h.received msg hmsg
    · obtain rfl := List.mem_singleton.mp hmsg
      exact hpkt
  obtain ⟨hpublicId, hledger, hown, -, ⟨hin, hout, hwithheld⟩⟩ := id h
  unfold Miner.onPacket
  cases hcontent : pkt.message.content with
  | tx tx =>
    dsimp only
    split_ifs
    · exact ⟨hpublicId, hledger, hown, hreceived, hin, hout, hwithheld⟩
    · exact ⟨hpublicId, hledger, hown, hreceived, hin, hout, hwithheld⟩
    · exact ⟨hpublicId, hledger, hown, hreceived, hin, hout, hwithheld⟩
  | block b =>
    rw [hcontent] at hpkt
    obtain ⟨hne, hmem, hparents⟩ := hpkt
    dsimp only
    rw [if_neg hne]
    have hregister := h.register prefer hmem hparents b.miner b.parasite
    have hown' : ∀ k, own k →
        ∃ ps, (k, ps) ∈ (s.pow.registerBlock prefer b.hash b.parents b.miner b.parasite).links :=
      fun k hk => hregister.own k (.inl hk)
    split_ifs
    · exact ⟨hpublicId, hregister.ledger, hown', hreceived, hin, hout, hwithheld⟩
    · exact ⟨hpublicId, hregister.ledger, hown', hreceived, hin, hout, hwithheld⟩

theorem Within.checkInStrm (h : s.Within t p own) (prefer : PreferCandidate) :
    (s.checkInStrm prefer).Within t p own := by
  have hstart : Within t p own { s with inStream := [] } :=
    ⟨h.publicId, h.ledger, h.own, h.received, h.vouched.readAll⟩
  exact List.foldlRecOn s.inStream _ hstart fun _ hr pkt hpkt =>
    hr.onPacket prefer (h.vouched.inStream pkt hpkt)

theorem Within.beforeMining (h : s.Within t p own) : (s.beforeMining env).Within t p own := by
  have hread := h.checkInStrm env.prefer
  unfold Miner.beforeMining Miner.submit
  split_ifs
  · apply Within.broadcast
    · exact ⟨hread.publicId, hread.ledger, hread.own, hread.received, hread.vouched.inStream,
        hread.vouched.outbox, hread.vouched.withheld⟩
    · trivial
  · exact hread

/-! ## Parents -/

theorem Within.overrideParents (h : s.Within t p own) :
    s.overrideParents = [] ∨ ∃ a ∈ t.blocks, s.overrideParents = [a] := by
  unfold Miner.overrideParents
  cases hf : s.parasite with
  | none => exact .inl rfl
  | some f =>
    have hwithheld := h.vouched.withheld f hf
    have hbest : ∀ best ∈ f.privateChain.foldl (fun best block =>
        if ParasiteFault.better block best then some block else best) none, best ∈ f.privateChain := by
      refine List.foldlRecOn (motive := fun best : Option StoredBlock => ∀ b ∈ best, b ∈ f.privateChain)
        f.privateChain _ ?_ ?_
      · exact fun _ hb => absurd hb (Option.not_mem_none _)
      · intro best hmem block hblock b hb
        split_ifs at hb
        · obtain rfl := Option.some.inj hb
          exact hblock
        · exact hmem b hb
    change f.selectPrivateParents = [] ∨ ∃ a ∈ t.blocks, f.selectPrivateParents = [a]
    unfold ParasiteFault.selectPrivateParents
    cases hchosen : f.privateChain.foldl (fun best block =>
        if ParasiteFault.better block best then some block else best) none with
    | none => exact .inl rfl
    | some best =>
      obtain ⟨hne, b, -, hhash, -, hmem, -⟩ := hwithheld best (hbest best hchosen)
      dsimp only
      rw [if_pos hne]
      exact .inr ⟨best.hash, hhash ▸ hmem, rfl⟩

theorem Within.getParents (h : s.Within t p own) : ∃ a ∈ t.blocks, getParents s.pow = [a] := by
  unfold Miner.getParents PoW.parentsForNextBlock PoW.selectParentsForNextBlock
  cases htip : s.pow.bestTip with
  | none => exact ⟨GENESIS, t.genesis_mem, rfl⟩
  | some b =>
    have hmem := (h.ledger _ (PoW.mem_links_of_findBlock htip)).1
    refine ⟨b.hash, ?_, rfl⟩
    rw [PoW.findBlock_hash htip]
    exact hmem

theorem Within.blockParents {parents : List String} (h : s.Within t p own)
    (hparents : parents = [] ∨ ∃ a ∈ t.blocks, parents = [a]) :
    ∃ a ∈ t.blocks, s.blockParents parents = [a] := by
  unfold Miner.blockParents
  rcases hparents with rfl | ⟨a, ha, rfl⟩
  · rw [if_pos rfl]
    exact h.getParents
  · exact ⟨a, ha, if_neg (List.cons_ne_nil a [])⟩

/-! ## Mining -/

theorem Within.mine {parents : List String} (h : s.Within t p own)
    (hparents : parents = [] ∨ ∃ a ∈ t.blocks, parents = [a]) {b : MinedBlock}
    (hmined : s.mineBlock env parents = some b) (hfresh : ∀ i, blockHash p i env.round ∉ t.blocks) :
    b.hash = blockHash p b.tx.id env.round ∧
      ∃ a, ∃ (hb : b.hash ∉ t.blocks) (ha : a ∈ t.blocks), b.parents = (t.graft b.hash a hb ha).parentsOf b.hash ∧
        (s.mine env parents).Within (t.graft b.hash a hb ha) p fun k => own k ∨ k = b.hash := by
  obtain ⟨-, hhash, hchosen, -, hafter⟩ := mine_cases hmined
  obtain ⟨a, ha, hparent⟩ := h.blockParents hparents
  rw [h.publicId] at hhash
  have hb : b.hash ∉ t.blocks := by
    rw [hhash]
    exact hfresh b.tx.id
  have hparentsOf : b.parents = (t.graft b.hash a hb ha).parentsOf b.hash :=
    (hchosen.trans hparent).trans (t.graft_parentsOf_self hb ha).symm
  refine ⟨hhash, a, hb, ha, hparentsOf, ?_⟩
  have hregister := (h.mono (t.graft_extends hb ha)).register env.prefer (Finset.mem_insert_self _ _)
    hparentsOf s.publicId (parents ≠ [])
  have hmember : (s.withBlock env.prefer b (parents ≠ [])).Within (t.graft b.hash a hb ha) p
      fun k => own k ∨ k = b.hash :=
    ⟨h.publicId, hregister.ledger, hregister.own, hregister.received, hregister.vouched.inStream,
      hregister.vouched.outbox, hregister.vouched.withheld⟩
  rcases hafter with heq | ⟨record, hrecord, heq⟩
  · rw [heq]
    exact hmember
  · rw [heq]
    apply hmember.broadcast
    have hrecorded : record.hash = b.hash := PoW.findBlock_hash hrecord
    obtain ⟨hknown, hlink⟩ := hmember.ledger _ (PoW.mem_links_of_findBlock hrecord)
    refine ⟨?_, ?_, ?_⟩
    · change record.hash ≠ ""
      rw [hrecorded, hhash]
      exact blockHash_ne_empty _ _ _
    · change record.hash ∈ _
      rw [hrecorded]
      exact hknown
    · change record.parents = BlockTree.parentsOf _ record.hash
      rw [hrecorded]
      exact hlink

theorem Within.tryPerformComputation (h : s.Within t p own) (env : MiningRound)
    (hfresh : ∀ i, blockHash p i env.round ∉ t.blocks) :
    (s.stepBlock env = none ∧ (s.tryPerformComputation env).Within t p own) ∨
    ∃ b, s.stepBlock env = some b ∧ b.hash = blockHash p b.tx.id env.round ∧
      ∃ a, ∃ (hb : b.hash ∉ t.blocks) (ha : a ∈ t.blocks), b.parents = (t.graft b.hash a hb ha).parentsOf b.hash ∧
        (s.tryPerformComputation env).Within (t.graft b.hash a hb ha) p fun k => own k ∨ k = b.hash := by
  have hbefore : (s.beforeMining env).Within t p own := h.beforeMining
  rcases tryPerformComputation_cases env s with ⟨hnone, heq⟩ | ⟨b, hsome, hblock, heq⟩
  · rw [heq]
    exact .inl ⟨hnone, hbefore⟩
  · rw [heq]
    obtain ⟨hhash, hgrafted⟩ := hbefore.mine h.overrideParents hblock hfresh
    exact .inr ⟨b, hsome, hhash, hgrafted⟩

theorem Within.own_mono {own' : String → Prop} (h : s.Within t p own) (hown : ∀ k, own' k → own k) :
    s.Within t p own' :=
  ⟨h.publicId, h.ledger, fun k hk => h.own k (hown k hk), h.received, h.vouched⟩

end Miner

/-! ## The invariant of a run -/

namespace MinerHistory

/-- Peer `p` has mined a block with the hash `h`. -/
def MinedBy (net : MinerHistory) (p : InterfaceId) (h : String) : Prop :=
  ∃ step ∈ (net.nodes p).2, ∃ b ∈ step.mined, b.hash = h

/-- A block with the hash `h` has been mined. -/
def Mined (net : MinerHistory) (h : String) : Prop := ∃ p, net.MinedBy p h

variable {net : MinerHistory} {p q : InterfaceId} {h : String} {r : Miner} {step : MinerStep}
  {sent : List (Packet PoWMessage)}

theorem minedBy_after : MinedBy (net.after p ((r, (net.nodes p).2 ++ [step]), sent)) q h ↔
    net.MinedBy q h ∨ q = p ∧ ∃ b ∈ step.mined, b.hash = h := by
  unfold MinedBy
  by_cases hq : q = p
  · subst hq
    rw [Lib.Lossy.Net.after_self]
    constructor
    · rintro ⟨old, hold, hb⟩
      rcases List.mem_append.mp hold with hold | hold
      · exact .inl ⟨old, hold, hb⟩
      · obtain rfl := List.mem_singleton.mp hold
        exact .inr ⟨rfl, hb⟩
    · rintro (⟨old, hold, hb⟩ | ⟨-, hb⟩)
      · exact ⟨old, List.mem_append_left _ hold, hb⟩
      · exact ⟨step, List.mem_append_right _ (List.mem_singleton.mpr rfl), hb⟩
  · rw [Lib.Lossy.Net.after_other hq]
    exact ⟨.inl, fun hmined => hmined.resolve_right fun hnew => hq hnew.1⟩

end MinerHistory

/-- The ledgers, the messages and the withheld chains speak of the blocks of `t`, which are GENESIS and what
has been mined. -/
structure GraphInv (cfg : Miners) (t : BlockTree) (net : MinerHistory) : Prop where
  blocks : ∀ h ∈ t.blocks, h = GENESIS ∨ net.Mined h
  named : ∀ p, ∀ step ∈ (net.nodes p).2, ∀ b ∈ step.mined,
    b.hash = blockHash p b.tx.id step.round ∧ b.parents = t.parentsOf b.hash
  members : ∀ p h, net.MinedBy p h → p ∈ cfg.peers
  nodes : ∀ p, (net.nodes p).1.Within t p fun h => h = GENESIS ∨ net.MinedBy p h
  sent : ∀ pkt ∈ net.sent, t.Describes pkt.message.content

namespace GraphInv
variable {cfg : Miners} {t t' : BlockTree} {net : MinerHistory} {p : InterfaceId}

theorem mem_blocks (hinv : GraphInv cfg t net) {h : String} (hmined : net.Mined h) : h ∈ t.blocks := by
  obtain ⟨p, hp⟩ := hmined
  obtain ⟨ps, hps⟩ := (hinv.nodes p).own h (.inr hp)
  exact ((hinv.nodes p).ledger _ hps).1

theorem blockHash_notMem (hinv : GraphInv cfg t net) (hround : ∀ step ∈ (net.nodes p).2, step.round ≠ net.time)
    (i : Int) : blockHash p i net.time ∉ t.blocks := by
  intro hmem
  rcases hinv.blocks _ hmem with heq | ⟨q, step, hstep, b, hb, hhash⟩
  · exact blockHash_ne_genesis p i net.time heq
  · rw [(hinv.named q step hstep b hb).1] at hhash
    obtain ⟨rfl, -, hsame⟩ := blockHash_inj hhash
    exact hround step hstep hsame

theorem after (hinv : GraphInv cfg t net) (hp : p ∈ cfg.peers) (ht : t'.Extends t) {r : Miner}
    {step : MinerStep} (hnew : ∀ h ∈ t'.blocks, h ∈ t.blocks ∨ ∃ b ∈ step.mined, b.hash = h)
    (hnamed : ∀ b ∈ step.mined, b.hash = blockHash p b.tx.id step.round ∧ b.parents = t'.parentsOf b.hash)
    (hr : r.Within t' p fun h => (h = GENESIS ∨ net.MinedBy p h) ∨ ∃ b ∈ step.mined, b.hash = h) :
    GraphInv cfg t' (net.after p ((r, (net.nodes p).2 ++ [step]), r.outbox)) where
  blocks := by
    intro h hmem
    rcases hnew h hmem with hmem | hmined
    · exact (hinv.blocks h hmem).imp_right fun ⟨q, hq⟩ => ⟨q, MinerHistory.minedBy_after.mpr (.inl hq)⟩
    · exact .inr ⟨p, MinerHistory.minedBy_after.mpr (.inr ⟨rfl, hmined⟩)⟩
  named := by
    have hold : ∀ q, ∀ old ∈ (net.nodes q).2, ∀ b ∈ old.mined,
        b.hash = blockHash q b.tx.id old.round ∧ b.parents = t'.parentsOf b.hash := by
      intro q old hold b hb
      obtain ⟨hhash, hparents⟩ := hinv.named q old hold b hb
      exact ⟨hhash, hparents.trans (ht.parentsOf (hinv.mem_blocks ⟨q, old, hold, b, hb, rfl⟩)).symm⟩
    refine Lib.Lossy.Net.forall_after (Q := fun q (s : Miner × List MinerStep) => ∀ old ∈ s.2, ∀ b ∈ old.mined,
      b.hash = blockHash q b.tx.id old.round ∧ b.parents = t'.parentsOf b.hash) (fun new hnew => ?_)
      fun q _ => hold q
    rcases List.mem_append.mp hnew with hmem | hmem
    · exact hold p new hmem
    · obtain rfl := List.mem_singleton.mp hmem
      exact hnamed
  members := by
    intro q h hmined
    rcases MinerHistory.minedBy_after.mp hmined with hold | ⟨rfl, -⟩
    · exact hinv.members q h hold
    · exact hp
  nodes := by
    intro q
    by_cases hq : q = p
    · subst hq
      rw [Lib.Lossy.Net.after_self]
      apply hr.own_mono
      intro h hown
      rw [MinerHistory.minedBy_after] at hown
      tauto
    · rw [Lib.Lossy.Net.after_other hq]
      refine ((hinv.nodes q).mono ht).own_mono fun h hown => ?_
      rw [MinerHistory.minedBy_after] at hown
      tauto
  sent := by
    intro pkt hpkt
    rcases Lib.Lossy.Net.mem_after_sent.mp hpkt with hold | hsent
    · exact ht.describes (hinv.sent pkt hold)
    · exact hr.vouched.outbox pkt hsent

theorem react (hinv : GraphInv cfg t net) {arrived : List (Packet PoWMessage)} (hp : p ∈ cfg.peers)
    (hround : ∀ step ∈ (net.nodes p).2, step.round ≠ net.time) (harrived : ∀ pkt ∈ arrived, pkt ∈ net.sent)
    {net' : MinerHistory} (hnet' : net' = net.after p (cfg.history.react p net.time arrived (net.nodes p))) :
    (GraphInv cfg t net' ∧ ∀ h, net'.Mined h → net.Mined h) ∨
    ∃ b a, ∃ (hb : b ∉ t.blocks) (ha : a ∈ t.blocks), GraphInv cfg (t.graft b a hb ha) net' ∧
      ∀ h, net'.Mined h → net.Mined h ∨ h = b := by
  have hnode := hinv.nodes p
  have hstart : (Miners.startStep (net.nodes p).1 arrived).Within t p
      fun h => h = GENESIS ∨ net.MinedBy p h := by
    exact ⟨hnode.publicId, hnode.ledger, hnode.own, hnode.received,
      hnode.vouched.startStep fun pkt hpkt => hinv.sent pkt (harrived pkt hpkt)⟩
  rw [Miners.history_react] at hnet'
  subst hnet'
  have hmined : ∀ (step : MinerStep) (r : Miner) h,
      MinerHistory.Mined (net.after p ((r, (net.nodes p).2 ++ [step]), r.outbox)) h →
        net.Mined h ∨ ∃ b ∈ step.mined, b.hash = h := by
    rintro step r h ⟨q, hq⟩
    exact (MinerHistory.minedBy_after.mp hq).imp (⟨q, ·⟩) And.right
  rcases hstart.tryPerformComputation (cfg.env p net.time) (hinv.blockHash_notMem hround) with
    ⟨hnone, hwithin⟩ | ⟨b, hsome, hhash, a, hfresh, ha, hparents, hwithin⟩
  · rw [hnone]
    have hnothing : ∀ h, ¬ ∃ b ∈ (⟨net.time, none⟩ : MinerStep).mined, b.hash = h := by
      rintro h ⟨b, hb, -⟩
      cases hb
    refine .inl ⟨hinv.after hp (.refl t) (fun h hmem => .inl hmem) ?_ ?_, fun h hh => ?_⟩
    · exact fun b hb => absurd ⟨b, hb, rfl⟩ (hnothing b.hash)
    · exact hwithin.own_mono fun h hown => hown.resolve_right (hnothing h)
    · exact (hmined _ _ h hh).resolve_right (hnothing h)
  · rw [hsome]
    have hone : ∀ h, (∃ c ∈ (⟨net.time, some b⟩ : MinerStep).mined, c.hash = h) ↔ h = b.hash := by
      intro h
      constructor
      · rintro ⟨c, hc, rfl⟩
        obtain rfl := Option.some.inj hc
        rfl
      · rintro rfl
        exact ⟨b, rfl, rfl⟩
    refine .inr ⟨b.hash, a, hfresh, ha, hinv.after hp (t.graft_extends hfresh ha) ?_ ?_ ?_, ?_⟩
    · intro h hmem
      rcases Finset.mem_insert.mp hmem with rfl | hmem
      · exact .inr ((hone _).mpr rfl)
      · exact .inl hmem
    · intro c hc
      obtain rfl := Option.some.inj hc
      exact ⟨hhash, hparents⟩
    · exact hwithin.own_mono fun h hown => hown.imp_right (hone h).mp
    · exact fun h hh => (hmined _ _ h hh).imp_right (hone h).mp

theorem start (cfg : Miners) : GraphInv cfg .seed ⟨0, cfg.history.initial, []⟩ where
  blocks := fun h hmem => .inl (Finset.mem_singleton.mp hmem)
  named := fun _ _ hstep => absurd hstep List.not_mem_nil
  members := fun _ _ ⟨_, hstep, _⟩ => absurd hstep List.not_mem_nil
  nodes := by
    intro p
    refine ⟨rfl, fun link hlink => ?_, ?_, fun _ hmsg => ?_, Miner.vouched_init _ cfg p⟩
    · obtain rfl := List.mem_singleton.mp hlink
      exact ⟨Finset.mem_singleton_self _, rfl⟩
    · rintro h (rfl | ⟨_, hstep, _⟩)
      · exact ⟨[], List.mem_singleton.mpr rfl⟩
      · exact absurd hstep List.not_mem_nil
    · exact absurd hmsg List.not_mem_nil
  sent := fun _ hpkt => absurd hpkt List.not_mem_nil

end GraphInv

theorem Miners.exists_tree (cfg : Miners) {last : MinerHistory} {run : List MinerHistory}
    (h : cfg.history.machine.PassesUnder OncePerRound (last :: run)) :
    ∃ t, GraphInv cfg t last ∧ ∀ b, last.Mined b →
      ∃ sys ∈ run, (t.parent b = GENESIS ∨ sys.Mined (t.parent b)) ∧ ¬ sys.Mined b := by
  generalize hss : last :: run = ss at h
  induction h generalizing last run with
  | start hs =>
    obtain ⟨rfl, rfl⟩ := List.cons.inj hss
    obtain rfl := hs
    refine ⟨.seed, .start cfg, fun b hb => ?_⟩
    obtain ⟨p, step, hstep, -⟩ := hb
    exact absurd hstep List.not_mem_nil
  | @next sys _ before e hr hguard he ih =>
    obtain ⟨rfl, rfl⟩ := List.cons.inj hss
    obtain ⟨t, hinv, hbefore⟩ := ih rfl
    rcases Lib.Lossy.Protocol.step_cases he with ⟨-, rfl⟩ | ⟨p, arrived, rfl, hp, harrived, hnet⟩
    · refine ⟨t, ⟨hinv.blocks, hinv.named, hinv.members, hinv.nodes, hinv.sent⟩, fun b hb => ?_⟩
      obtain ⟨earlier, hmem, hb⟩ := hbefore b hb
      exact ⟨earlier, List.mem_cons_of_mem _ hmem, hb⟩
    · rcases hinv.react hp hguard (fun pkt hpkt => (harrived pkt hpkt).1) hnet with
        ⟨hinv', hmined⟩ | ⟨b, a, hb, ha, hinv', hmined⟩
      · refine ⟨t, hinv', fun b hb => ?_⟩
        obtain ⟨earlier, hmem, hb⟩ := hbefore b (hmined b hb)
        exact ⟨earlier, List.mem_cons_of_mem _ hmem, hb⟩
      · refine ⟨t.graft b a hb ha, hinv', fun c hc => ?_⟩
        rcases hmined c hc with hold | rfl
        · obtain ⟨earlier, hmem, hc⟩ := hbefore c hold
          rw [(t.graft_extends hb ha).parent c (hinv.mem_blocks hold)]
          exact ⟨earlier, List.mem_cons_of_mem _ hmem, hc⟩
        · rw [t.graft_parent_self hb ha]
          exact ⟨sys, List.mem_cons_self, hinv.blocks a ha, fun hmined => hb (hinv.mem_blocks hmined)⟩

/-! ## The union of the ledgers -/

def Miners.ledgers (cfg : Miners) (net : MinerHistory) : Set BlockRecord :=
  fun b => ∃ p ∈ cfg.peers, b ∈ (net.nodes p).1.pow.blocks

/-- A record of the block `b` names `a` as a parent. -/
def NamesParent (records : Set BlockRecord) (a b : String) : Prop := ∃ r ∈ records, r.hash = b ∧ a ∈ r.parents

namespace GraphInv
variable {cfg : Miners} {t : BlockTree} {net : MinerHistory}

theorem record (hinv : GraphInv cfg t net) {b : BlockRecord} (hb : b ∈ cfg.ledgers net) :
    b.hash ∈ t.blocks ∧ b.parents = t.parentsOf b.hash := by
  obtain ⟨p, -, hmem⟩ := hb
  exact (hinv.nodes p).ledger _ (List.mem_map.mpr ⟨b, hmem, rfl⟩)

theorem exists_record (hinv : GraphInv cfg t net) {p : InterfaceId} (hp : p ∈ cfg.peers) {h : String}
    (hh : h ∈ t.blocks) : ∃ b ∈ cfg.ledgers net, b.hash = h := by
  have howned : ∃ q ∈ cfg.peers, h = GENESIS ∨ net.MinedBy q h := by
    rcases hinv.blocks h hh with heq | ⟨q, hq⟩
    · exact ⟨p, hp, .inl heq⟩
    · exact ⟨q, hinv.members q h hq, .inr hq⟩
  obtain ⟨q, hq, hown⟩ := howned
  obtain ⟨ps, hps⟩ := (hinv.nodes q).own h hown
  obtain ⟨b, hb, heq⟩ := List.mem_map.mp hps
  exact ⟨b, ⟨q, hq, hb⟩, congrArg Prod.fst heq⟩

theorem namesParent_iff (hinv : GraphInv cfg t net) {p : InterfaceId} (hp : p ∈ cfg.peers) {a b : String} :
    NamesParent (cfg.ledgers net) a b ↔ b ∈ t.blocks ∧ b ≠ GENESIS ∧ a = t.parent b := by
  constructor
  · rintro ⟨r, hr, rfl, ha⟩
    obtain ⟨hmem, hparents⟩ := hinv.record hr
    rw [hparents, BlockTree.parentsOf] at ha
    split_ifs at ha with hgenesis
    · exact absurd ha List.not_mem_nil
    · exact ⟨hmem, hgenesis, List.mem_singleton.mp ha⟩
  · rintro ⟨hmem, hne, rfl⟩
    obtain ⟨r, hr, rfl⟩ := hinv.exists_record hp hmem
    refine ⟨r, hr, rfl, ?_⟩
    rw [(hinv.record hr).2, BlockTree.parentsOf, if_neg hne]
    exact List.mem_singleton.mpr rfl

end GraphInv

/-- **The block graph is a tree.** In every state of a run in which nobody takes two protocol steps in one
round: records with one hash have the same parents; a block other than GENESIS has one parent, which is in a
ledger and had been mined when the block had not; no block is above itself; and every block is below GENESIS. -/
theorem Miners.ledgers_form_tree (cfg : Miners) (last : MinerHistory) (run : List MinerHistory)
    (h : cfg.history.machine.PassesUnder OncePerRound (last :: run)) :
    (∀ b ∈ cfg.ledgers last, ∀ c ∈ cfg.ledgers last, b.hash = c.hash → b.parents = c.parents) ∧
    (∀ b ∈ cfg.ledgers last, b.hash ≠ GENESIS → ∃ a ∈ cfg.ledgers last, b.parents = [a.hash] ∧
      last.Mined b.hash ∧ ∃ sys ∈ run, (a.hash = GENESIS ∨ sys.Mined a.hash) ∧ ¬ sys.Mined b.hash) ∧
    (∀ b, ¬ Relation.TransGen (NamesParent (cfg.ledgers last)) b b) ∧
    ∀ b ∈ cfg.ledgers last, Relation.ReflTransGen (NamesParent (cfg.ledgers last)) GENESIS b.hash := by
  obtain ⟨t, hinv, hbefore⟩ := cfg.exists_tree h
  refine ⟨?unique, ?parent, ?acyclic, ?connected⟩
  case unique =>
    intro b hb c hc heq
    rw [(hinv.record hb).2, (hinv.record hc).2, heq]
  case parent =>
    intro b hb hne
    obtain ⟨hmem, hparents⟩ := hinv.record hb
    have hmined := (hinv.blocks _ hmem).resolve_left hne
    obtain ⟨p, hp, -⟩ := id hb
    obtain ⟨a, ha, hahash⟩ := hinv.exists_record hp (t.parent_mem _ hmem hne)
    refine ⟨a, ha, ?_, hmined, ?_⟩
    · rw [hparents, BlockTree.parentsOf, if_neg hne, hahash]
    · rw [hahash]
      exact hbefore _ hmined
  case acyclic =>
    have hdepth : ∀ a b, Relation.TransGen (NamesParent (cfg.ledgers last)) a b → t.depth a < t.depth b := by
      intro a b hab
      have hone : ∀ a b, NamesParent (cfg.ledgers last) a b → t.depth a < t.depth b := by
        intro a b hparent
        obtain ⟨r, ⟨p, hp, -⟩, -⟩ := id hparent
        obtain ⟨-, hne, rfl⟩ := (hinv.namesParent_iff hp).mp hparent
        have := Lib.RootedTree.depth_of_ne (t := t.toRootedTree) hne
        omega
      induction hab with
      | single hab => exact hone _ _ hab
      | tail _ hbc ih => exact ih.trans (hone _ _ hbc)
    exact fun b hb => lt_irrefl _ (hdepth b b hb)
  case connected =>
    intro b hb
    obtain ⟨p, hp, -⟩ := id hb
    have hall : ∀ h, h ∈ t.blocks → Relation.ReflTransGen (NamesParent (cfg.ledgers last)) GENESIS h := by
      intro h
      induction h using Lib.RootedTree.induction_on (t := t.toRootedTree) with
      | hroot => exact fun _ => .refl
      | hstep h hne ih =>
        intro hh
        exact (ih (t.parent_mem h hh hne)).tail ((hinv.namesParent_iff hp).mpr ⟨hh, hne, rfl⟩)
    exact hall b.hash (hinv.record hb).1

/-- The ledger of an attacker: its own chain, four blocks long, and the honest block beside it. -/
theorem Miners.ledgers_form_tree_blockLate :
    ∃ last run, oneAttacker.history.machine.PassesUnder OncePerRound (last :: run) ∧
      (last.nodes 0).1.pow.links =
        [(GENESIS, []), ("0:1:0", [GENESIS]), ("0:2:1", ["0:1:0"]), ("1:1:0", [GENESIS]), ("0:3:2", ["0:2:1"]),
          ("0:4:3", ["0:3:2"])] ∧
      ∀ b ∈ oneAttacker.ledgers last,
        Relation.ReflTransGen (NamesParent (oneAttacker.ledgers last)) GENESIS b.hash := by
  have hrun : (oneAttacker.history.machine.runUnder OncePerRound ⟨0, oneAttacker.history.initial, []⟩
      blockLate).map (fun last => (last.nodes 0).1.pow.links) =
        some [(GENESIS, []), ("0:1:0", [GENESIS]), ("0:2:1", ["0:1:0"]), ("1:1:0", [GENESIS]),
          ("0:3:2", ["0:2:1"]), ("0:4:3", ["0:3:2"])] := by
    decide +kernel
  obtain ⟨last, hlast, hlinks⟩ := Option.map_eq_some_iff.mp hrun
  obtain ⟨run, hpasses⟩ := Lib.Machine.passesUnder_of_runUnder (.start rfl) hlast
  exact ⟨last, run, hpasses, hlinks, (ledgers_form_tree oneAttacker last run hpasses).2.2.2⟩

end Quantas
