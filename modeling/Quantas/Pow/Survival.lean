import Quantas.Pow.Bitcoin
import Quantas.Pow.Graph
import Quantas.Pow.Transactions

/-!
# Transactions and changes of branch

A Bitcoin peer forgets a transaction as soon as it hears of a block that carries it, on whatever branch, and
puts nothing back when its best block moves to another branch. So a transaction is lost to the peer exactly
when only losing branches carry it (`transactions_survive_iff`): `NothingStranded` says of the blocks that the
peer has heard of, its own included, that this is not the case. The ledger is the one that registers these
blocks (`PoW.Replays`), so its best block is the tip of their longest chain.
-/

namespace Quantas

/-! ## What a miner has heard of -/

/-- A block that a miner has been told of or has mined, with the transaction that the miner takes notice of. -/
structure HeardBlock where
  hash : String
  parents : List String
  tx : Option TxKey
  deriving DecidableEq, Repr

/-- The block as `checkInStrm` registers it. -/
def AnnouncedBlock.heard (b : AnnouncedBlock) : HeardBlock where
  hash := if b.hash = "" then toString b.miner ++ ":" ++ b.parents.headD GENESIS else b.hash
  parents := b.parents
  tx := if Noticed b.tx.key then some b.tx.key else none

def PoWMessage.heard? (msg : PoWMessage) : Option HeardBlock :=
  match msg.content with
  | .block b => some b.heard
  | .tx _ => none

def MinedBlock.heard (b : MinedBlock) : HeardBlock := ⟨b.hash, b.parents, some b.tx.key⟩

def heardBlocks (received : List PoWMessage) (log : List MinerStep) : List HeardBlock :=
  received.filterMap PoWMessage.heard? ++ log.filterMap fun step => step.mined.map MinedBlock.heard

/-! ## Chains of such blocks -/

/-- A chain of blocks from GENESIS to `tip`, each the only parent of the next. -/
inductive ChainTo (heard : List HeardBlock) : List String → String → Prop
  | genesis : ChainTo heard [GENESIS] GENESIS
  | next {path : List String} {a : String} {b : HeardBlock} (h : ChainTo heard path a) (hb : b ∈ heard)
      (hparents : b.parents = [a]) : ChainTo heard (path ++ [b.hash]) b.hash

def Connected (heard : List HeardBlock) (hash : String) : Prop := ∃ path, ChainTo heard path hash

def LongestChain (heard : List HeardBlock) (path : List String) : Prop :=
  ∃ tip, ChainTo heard path tip ∧ ∀ path' tip', ChainTo heard path' tip' →
    path'.length < path.length ∨ path'.length = path.length ∧ tip ≤ tip'

/-- Whatever a losing branch carries is also carried by the longest chain or by a block with a missing
ancestor. -/
def NothingStranded (heard : List HeardBlock) : Prop :=
  ∃ path, LongestChain heard path ∧
    ∀ b ∈ heard, ∀ k ∈ b.tx, Connected heard b.hash → b.hash ∉ path →
      ∃ c ∈ heard, k ∈ c.tx ∧ (c.hash ∈ path ∨ ¬ Connected heard c.hash)

/-- Every known transaction is queued, or in a block on the path from GENESIS to the best block, or in a block
that waits for an ancestor. -/
def Miner.Survives (s : Miner) (heard : List HeardBlock) : Prop :=
  ∀ k ∈ s.knownTransactions, k ∈ s.queue.map PendingTx.key ∨
    ∃ b ∈ heard, k ∈ b.tx ∧
      (b.hash = s.pow.bestHash ∨ s.pow.isAncestor b.hash s.pow.bestHash ∨ ¬ s.pow.hasFullAncestry b.hash)

instance (s : Miner) (heard : List HeardBlock) : Decidable (s.Survives heard) :=
  inferInstanceAs (Decidable (∀ k ∈ _, _ ∨ ∃ b ∈ _, _))

/-! ## The ledger of these blocks -/

def Registration.link (c : Registration) : String × List String := (c.hash, c.parents)

def HeardBlock.link (b : HeardBlock) : String × List String := (b.hash, b.parents)

/-- The ledger is what calls about the blocks `links` make of a fresh one. -/
def PoW.Replays (prefer : PreferCandidate) (links : List (String × List String)) (p : PoW) : Prop :=
  ∃ calls : List Registration, p = PoW.fresh.registerAll prefer calls ∧
    ∀ link, link ∈ calls.map Registration.link ↔ link ∈ links

section Replays
variable {prefer : PreferCandidate} {links links' : List (String × List String)} {p : PoW}

theorem PoW.replays_fresh : PoW.fresh.Replays prefer [] := ⟨[], rfl, fun _ => Iff.rfl⟩

theorem PoW.Replays.congr (h : p.Replays prefer links) (hlinks : ∀ l, l ∈ links' ↔ l ∈ links) :
    p.Replays prefer links' := by
  obtain ⟨calls, hp, hcalls⟩ := h
  exact ⟨calls, hp, fun l => (hcalls l).trans (hlinks l).symm⟩

theorem PoW.Replays.register (h : p.Replays prefer links) (hash : String) (parents : List String)
    (miner : InterfaceId) (flag : Bool) :
    (p.registerBlock prefer hash parents miner flag).Replays prefer (links ++ [(hash, parents)]) := by
  obtain ⟨calls, rfl, hcalls⟩ := h
  refine ⟨calls ++ [⟨hash, parents, miner, flag⟩], ?_, fun l => ?_⟩
  · exact (PoW.registerAll_concat calls ⟨hash, parents, miner, flag⟩).symm
  · rw [List.map_append, List.mem_append, List.mem_append, hcalls l]
    rfl

end Replays

namespace Miner
variable {s r : Miner} {env : MiningRound} {mined : List HeardBlock}

def heardLinks (s : Miner) (mined : List HeardBlock) : List (String × List String) :=
  (s.received.filterMap PoWMessage.heard? ++ mined).map HeardBlock.link

theorem Publishes.heardLinks (h : Publishes s r) : r.heardLinks mined = s.heardLinks mined ∧ r.pow = s.pow := by
  obtain ⟨_, _, _, rfl⟩ := h
  exact ⟨rfl, rfl⟩

theorem replays_onPacket {prefer : PreferCandidate} (h : s.pow.Replays prefer (s.heardLinks mined))
    (pkt : Packet PoWMessage) :
    (s.onPacket prefer pkt).pow.Replays prefer ((s.onPacket prefer pkt).heardLinks mined) := by
  have hlinks : ∀ r : Miner, r.received = s.received ++ [pkt.message] → ∀ l, l ∈ r.heardLinks mined ↔
      l ∈ s.heardLinks mined ∨ ∃ b ∈ pkt.message.heard?, b.link = l := by
    intro r hr l
    unfold heardLinks
    rw [hr, List.filterMap_append]
    cases hheard : pkt.message.heard? with
    | none => simp [hheard]
    | some b =>
      simp only [List.filterMap_cons, hheard, List.filterMap_nil, List.map_append, List.map_cons,
        List.map_nil, List.mem_append, List.mem_singleton, Option.mem_some_iff, exists_eq_left']
      rw [eq_comm (a := l)]
      tauto
  unfold onPacket
  cases hcontent : pkt.message.content with
  | tx tx =>
    have hnone : pkt.message.heard? = none := by rw [PoWMessage.heard?, hcontent]
    have hsame : ∀ r : Miner, r.received = s.received ++ [pkt.message] → r.pow = s.pow →
        r.pow.Replays prefer (r.heardLinks mined) := by
      intro r hr hpow
      rw [hpow]
      refine h.congr fun l => (hlinks r hr l).trans ?_
      rw [hnone]
      simp
    dsimp only
    split_ifs <;> exact hsame _ rfl rfl
  | block b =>
    have hsome : pkt.message.heard? = some b.heard := by rw [PoWMessage.heard?, hcontent]
    have hnew : ∀ r : Miner, r.received = s.received ++ [pkt.message] →
        r.pow = s.pow.registerBlock prefer b.heard.hash b.parents b.miner b.parasite →
        r.pow.Replays prefer (r.heardLinks mined) := by
      intro r hr hpow
      rw [hpow]
      refine (h.register b.heard.hash b.parents b.miner b.parasite).congr fun l => (hlinks r hr l).trans ?_
      rw [hsome, List.mem_append, List.mem_singleton]
      apply or_congr_right
      constructor
      · rintro ⟨c, hc, rfl⟩
        obtain rfl := Option.some.inj hc
        rfl
      · rintro rfl
        exact ⟨b.heard, rfl, rfl⟩
    by_cases hvalid : 0 ≤ b.tx.id ∧ b.tx.submitter ≠ NO_PEER_ID
    · dsimp only
      rw [if_pos hvalid]
      exact hnew _ rfl rfl
    · dsimp only
      rw [if_neg hvalid]
      exact hnew _ rfl rfl

theorem replays_beforeMining (h : s.pow.Replays env.prefer (s.heardLinks mined)) :
    (s.beforeMining env).pow.Replays env.prefer ((s.beforeMining env).heardLinks mined) := by
  have hread : (s.checkInStrm env.prefer).pow.Replays env.prefer ((s.checkInStrm env.prefer).heardLinks mined) :=
    List.foldlRecOn (motive := fun r : Miner => r.pow.Replays env.prefer (r.heardLinks mined)) s.inStream _ h
      fun _ hr pkt _ => replays_onPacket hr pkt
  unfold beforeMining submit
  split_ifs
  · obtain ⟨hlinks, hpow⟩ := (publishes_broadcast _ _).heardLinks
    rw [hlinks, hpow]
    exact hread
  · exact hread

theorem replays_tryPerformComputation (env : MiningRound)
    (h : s.pow.Replays env.prefer (s.heardLinks mined)) :
    (s.tryPerformComputation env).pow.Replays env.prefer ((s.tryPerformComputation env).heardLinks
      (mined ++ ((s.stepBlock env).map MinedBlock.heard).toList)) := by
  have hbefore := replays_beforeMining h
  rcases tryPerformComputation_cases env s with ⟨hnone, heq⟩ | ⟨b, hsome, hblock, heq⟩
  · rw [hnone, heq, Option.map_none, Option.toList_none, List.append_nil]
    exact hbefore
  · obtain ⟨-, -, -, -, hafter⟩ := mine_cases hblock
    obtain ⟨u, hu⟩ : ∃ u, u = s.beforeMining env := ⟨_, rfl⟩
    rw [← hu] at hbefore hafter heq
    have hregistered : (u.withBlock env.prefer b (s.overrideParents ≠ [])).pow.Replays env.prefer
        ((u.withBlock env.prefer b (s.overrideParents ≠ [])).heardLinks (mined ++ [b.heard])) := by
      refine (hbefore.register b.hash b.parents u.publicId _).congr fun l => ?_
      unfold heardLinks
      rw [← List.append_assoc, List.map_append, List.map_singleton]
      rfl
    rw [hsome, heq]
    rcases hafter with heq | ⟨record, -, heq⟩
    · rw [heq]
      exact hregistered
    · obtain ⟨hlinks, hpow⟩ := (publishes_broadcast _ _).heardLinks
      rw [heq, hlinks, hpow]
      exact hregistered

end Miner

theorem Miners.replays (cfg : Miners) {net : MinerHistory} (h : cfg.history.machine.Reached net)
    (p : InterfaceId) : (net.nodes p).1.pow.Replays cfg.prefer
      ((heardBlocks (net.nodes p).1.received (net.nodes p).2).map HeardBlock.link) := by
  refine Lib.Lossy.Protocol.invariant (I := fun net : MinerHistory => ∀ p, (net.nodes p).1.pow.Replays cfg.prefer
    ((heardBlocks (net.nodes p).1.received (net.nodes p).2).map HeardBlock.link)) ?_ ?_ ?_ h p
  · exact fun _ => PoW.replays_fresh
  · exact fun _ _ hall => hall
  · intro net p arrived hall _ _ _
    have hstart : (Miners.startStep (net.nodes p).1 arrived).pow.Replays cfg.prefer
        ((Miners.startStep (net.nodes p).1 arrived).heardLinks
          ((net.nodes p).2.filterMap fun step => step.mined.map MinedBlock.heard)) := hall p
    have hstep := Miner.replays_tryPerformComputation (cfg.env p net.time) hstart
    have hlog : ∀ step : MinerStep, ((net.nodes p).2 ++ [step]).filterMap
        (fun step => step.mined.map MinedBlock.heard) = ((net.nodes p).2.filterMap
          fun step => step.mined.map MinedBlock.heard) ++ (step.mined.map MinedBlock.heard).toList := by
      intro step
      rw [List.filterMap_append]
      cases hmined : step.mined <;> simp [hmined]
    rw [Miners.history_react]
    refine Lib.Lossy.Net.forall_after (Q := fun _ (s : Miner × List MinerStep) => s.1.pow.Replays cfg.prefer
      ((heardBlocks s.1.received s.2).map HeardBlock.link)) (hstep.congr fun l => ?_) fun q _ => hall q
    unfold heardBlocks Miner.heardLinks
    rw [hlog]

/-! ## Chains and the tree -/

open Lib.RootedTree

section Chains
variable {t : BlockTree} {R : Finset String} {heard : List HeardBlock}

/-- The blocks are blocks of the tree, and `R` is all of them. -/
structure HeardOf (t : BlockTree) (R : Finset String) (heard : List HeardBlock) : Prop where
  parents : ∀ b ∈ heard, b.parents = t.parentsOf b.hash
  mem : ∀ h, h ∈ R ↔ h = GENESIS ∨ ∃ b ∈ heard, b.hash = h

namespace HeardOf

theorem parent (h : HeardOf t R heard) {b : HeardBlock} (hb : b ∈ heard) {a : String} (ha : b.parents = [a]) :
    b.hash ≠ GENESIS ∧ t.parent b.hash = a := by
  rw [h.parents b hb, BlockTree.parentsOf] at ha
  split_ifs at ha with hgenesis
  exact ⟨hgenesis, List.singleton_inj.mp ha⟩

theorem chainTo (h : HeardOf t R heard) {path : List String} {x : String} (hpath : ChainTo heard path x) :
    t.Rooted R x ∧ path.length = t.depth x + 1 ∧ ∀ a, a ∈ path ↔ t.Anc a x := by
  induction hpath with
  | genesis =>
    refine ⟨rooted_root.mpr ((h.mem _).mpr (.inl rfl)), ?_, fun a => ?_⟩
    · rw [depth_root]
      rfl
    · rw [List.mem_singleton, anc_root_iff]
  | next _ hb hparents ih =>
    obtain ⟨hne, rfl⟩ := h.parent hb hparents
    obtain ⟨hrooted, hlength, hmem⟩ := ih
    refine ⟨(rooted_iff hne).mpr ⟨(h.mem _).mpr (.inr ⟨_, hb, rfl⟩), hrooted⟩, ?_, fun a => ?_⟩
    · rw [List.length_append, hlength, depth_of_ne hne, List.length_singleton]
    · rw [List.mem_append, hmem a, List.mem_singleton, anc_iff hne]
      exact or_comm

theorem exists_chainTo (h : HeardOf t R heard) (x : String) (hx : t.Rooted R x) :
    ∃ path, ChainTo heard path x := by
  induction x using induction_on (t := t.toRootedTree) with
  | hroot => exact ⟨[GENESIS], .genesis⟩
  | hstep x hne ih =>
    obtain ⟨hmem, hparent⟩ := (rooted_iff hne).mp hx
    obtain ⟨path, hpath⟩ := ih hparent
    obtain ⟨b, hb, rfl⟩ := ((h.mem x).mp hmem).resolve_left hne
    refine ⟨path ++ [b.hash], hpath.next hb ?_⟩
    rw [h.parents b hb, BlockTree.parentsOf, if_neg hne]

theorem connected_iff (h : HeardOf t R heard) (x : String) : Connected heard x ↔ t.Rooted R x := by
  constructor
  · rintro ⟨path, hpath⟩
    exact (h.chainTo hpath).1
  · exact h.exists_chainTo x

theorem longestChain_iff (h : HeardOf t R heard) {best : String} (hbest : t.Longest R best)
    (path : List String) : LongestChain heard path ↔ ChainTo heard path best := by
  constructor
  · rintro ⟨tip, hpath, hlongest⟩
    obtain ⟨hrooted, hlength, -⟩ := h.chainTo hpath
    have htip : t.Longest R tip := by
      refine ⟨hrooted, fun x hx => ?_⟩
      obtain ⟨path', hpath'⟩ := h.exists_chainTo x hx
      obtain ⟨-, hlength', -⟩ := h.chainTo hpath'
      rcases hlongest path' x hpath' with hlt | ⟨heq, hle⟩
      · exact .inl (by omega)
      · exact .inr ⟨by omega, hle⟩
    exact htip.unique hbest ▸ hpath
  · intro hpath
    obtain ⟨-, hlength, -⟩ := h.chainTo hpath
    refine ⟨best, hpath, fun path' tip' hpath' => ?_⟩
    obtain ⟨hrooted', hlength', -⟩ := h.chainTo hpath'
    rcases hbest.2 tip' hrooted' with hlt | ⟨heq, hle⟩
    · exact .inl (by omega)
    · exact .inr ⟨by omega, hle⟩

end HeardOf

end Chains

theorem Settled.on_path_iff {t : BlockTree} {R : Finset String} {p : PoW} (hp : Settled t R p) (h : String) :
    (h = p.bestHash ∨ p.isAncestor h p.bestHash = true) ↔ t.Anc h p.bestHash := by
  rw [hp.toHolds.isAncestor_iff hp.best]
  constructor
  · rintro (heq | ⟨-, hanc⟩)
    · exact heq ▸ .refl _
    · exact hanc
  · intro hanc
    by_cases heq : h = p.bestHash
    · exact .inl heq
    · exact .inr ⟨heq, hanc⟩

theorem Miner.survives_iff {t : BlockTree} {R : Finset String} {s : Miner} {heard : List HeardBlock}
    (hheard : HeardOf t R heard) (hp : Settled t R s.pow) (hbest : t.Longest R s.pow.bestHash)
    (hknown : ∀ k, k ∈ s.knownTransactions ↔ k ∈ s.queue.map PendingTx.key ∨ ∃ b ∈ heard, k ∈ b.tx)
    (hqueue : ∀ k ∈ s.queue.map PendingTx.key, ∀ b ∈ heard, k ∉ b.tx) :
    s.Survives heard ↔ NothingStranded heard := by
  obtain ⟨path, hpath⟩ := hheard.exists_chainTo _ hp.best
  have hmem := (hheard.chainTo hpath).2.2
  have hwaits : ∀ h, ¬ s.pow.hasFullAncestry h = true ↔ ¬ Connected heard h := fun h =>
    not_congr ((hp.toHolds.hasFullAncestry_iff h).trans (hheard.connected_iff h).symm)
  constructor
  · intro hsurvives
    refine ⟨path, (hheard.longestChain_iff hbest path).mpr hpath, fun b hb k hk _ _ => ?_⟩
    have hkk : k ∈ s.knownTransactions := (hknown k).mpr (.inr ⟨b, hb, hk⟩)
    rcases hsurvives k hkk with hqueued | ⟨c, hc, hkc, hplace⟩
    · exact absurd hk (hqueue k hqueued b hb)
    · refine ⟨c, hc, hkc, ?_⟩
      rcases or_assoc.mpr hplace with hon | hwaiting
      · exact .inl ((hmem c.hash).mpr ((hp.on_path_iff c.hash).mp hon))
      · exact .inr ((hwaits c.hash).mp hwaiting)
  · rintro ⟨path', hlongest, hcarried⟩ k hk
    have hmem' := (hheard.chainTo ((hheard.longestChain_iff hbest path').mp hlongest)).2.2
    have hplace : ∀ c : HeardBlock, c.hash ∈ path' ∨ ¬ Connected heard c.hash →
        c.hash = s.pow.bestHash ∨ s.pow.isAncestor c.hash s.pow.bestHash = true ∨
          ¬ s.pow.hasFullAncestry c.hash = true := by
      rintro c (hon | hwaiting)
      · exact or_assoc.mp (.inl ((hp.on_path_iff c.hash).mpr ((hmem' c.hash).mp hon)))
      · exact .inr (.inr ((hwaits c.hash).mpr hwaiting))
    rcases (hknown k).mp hk with hqueued | ⟨b, hb, hkb⟩
    · exact .inl hqueued
    · by_cases hlosing : Connected heard b.hash ∧ b.hash ∉ path'
      · obtain ⟨c, hc, hkc, hcplace⟩ := hcarried b hb k hkb hlosing.1 hlosing.2
        exact .inr ⟨c, hc, hkc, hplace c hcplace⟩
      · refine .inr ⟨b, hb, hkb, hplace b ?_⟩
        by_cases hon : b.hash ∈ path'
        · exact .inl hon
        · exact .inr fun hconnected => hlosing ⟨hconnected, hon⟩

/-! ## Runs -/

theorem mem_heardBlocks_tx {received : List PoWMessage} {log : List MinerStep} {k : TxKey} :
    (∃ b ∈ heardBlocks received log, k ∈ b.tx) ↔ (k ∈ heardKeys received ∧ Noticed k) ∨ k ∈ minedKeys log := by
  constructor
  · rintro ⟨b, hb, hk⟩
    rcases List.mem_append.mp hb with hb | hb
    · obtain ⟨msg, hmsg, hheard⟩ := List.mem_filterMap.mp hb
      unfold PoWMessage.heard? at hheard
      cases hcontent : msg.content with
      | tx tx =>
        rw [hcontent] at hheard
        cases hheard
      | block a =>
        rw [hcontent] at hheard
        obtain rfl := Option.some.inj hheard
        have hk' : (if Noticed a.tx.key then some a.tx.key else none) = some k := hk
        split_ifs at hk' with hnoticed
        obtain rfl := Option.some.inj hk'
        exact .inl ⟨mem_heardKeys hmsg hcontent, hnoticed⟩
    · obtain ⟨step, hstep, hmined⟩ := List.mem_filterMap.mp hb
      obtain ⟨m, hm, rfl⟩ := Option.map_eq_some_iff.mp hmined
      obtain rfl := Option.some.inj hk
      exact .inr (mem_minedKeys hstep hm)
  · rintro (⟨hheard, hnoticed⟩ | hmined)
    · obtain ⟨msg, hmsg, hcarried⟩ := List.mem_filterMap.mp hheard
      unfold PoWMessage.carried? at hcarried
      cases hcontent : msg.content with
      | tx tx =>
        rw [hcontent] at hcarried
        cases hcarried
      | block a =>
        rw [hcontent] at hcarried
        obtain rfl := Option.some.inj hcarried
        refine ⟨a.heard, List.mem_append_left _ (List.mem_filterMap.mpr ⟨msg, hmsg, ?_⟩), if_pos hnoticed⟩
        rw [PoWMessage.heard?, hcontent]
    · obtain ⟨step, hstep, hblock⟩ := List.mem_filterMap.mp hmined
      obtain ⟨m, hm, rfl⟩ := Option.map_eq_some_iff.mp hblock
      refine ⟨m.heard, List.mem_append_right _ (List.mem_filterMap.mpr ⟨step, hstep, ?_⟩), rfl⟩
      rw [hm]
      rfl

theorem GraphInv.heard {cfg : Miners} {t : BlockTree} {net : MinerHistory} (hinv : GraphInv cfg t net)
    {p : InterfaceId} {b : HeardBlock} (hb : b ∈ heardBlocks (net.nodes p).1.received (net.nodes p).2) :
    b.hash ∈ t.blocks ∧ b.parents = t.parentsOf b.hash := by
  rcases List.mem_append.mp hb with hb | hb
  · obtain ⟨msg, hmsg, hheard⟩ := List.mem_filterMap.mp hb
    have hdescribes := (hinv.nodes p).received msg hmsg
    unfold PoWMessage.heard? at hheard
    cases hcontent : msg.content with
    | tx tx =>
      rw [hcontent] at hheard
      cases hheard
    | block a =>
      rw [hcontent] at hheard hdescribes
      obtain rfl := Option.some.inj hheard
      obtain ⟨hne, hmem, hparents⟩ := hdescribes
      have hhash : a.heard.hash = a.hash := if_neg hne
      rw [hhash]
      exact ⟨hmem, hparents⟩
  · obtain ⟨step, hstep, hmined⟩ := List.mem_filterMap.mp hb
    obtain ⟨m, hm, rfl⟩ := Option.map_eq_some_iff.mp hmined
    exact ⟨hinv.mem_blocks ⟨p, step, hstep, m, hm, rfl⟩, (hinv.named p step hstep m hm).2⟩

namespace Miners

/-- **Which transactions survive a change of branch.** In every state of a run of Bitcoin peers in which nobody
takes two protocol steps in one round, every known transaction of a peer is queued, on the path to its best
block or in a block that waits for an ancestor if and only if nothing is stranded on the losing branches among
the blocks that the peer has been told of or has mined. -/
theorem transactions_survive_iff (cfg : Miners) (hcfg : cfg.prefer = PoWBitcoin.preferCandidate)
    (net : MinerHistory) (h : cfg.history.machine.ReachedUnder OncePerRound net) (p : InterfaceId) :
    (net.nodes p).1.Survives (heardBlocks (net.nodes p).1.received (net.nodes p).2) ↔
      NothingStranded (heardBlocks (net.nodes p).1.received (net.nodes p).2) := by
  have hreached : cfg.history.machine.Reached net := h.mono fun _ _ _ => trivial
  obtain ⟨run, hpasses⟩ := h.exists_passes
  obtain ⟨t, hinv, -⟩ := cfg.exists_tree hpasses
  obtain ⟨c, hnet⟩ := cfg.exists_txNet hreached
  obtain ⟨calls, hpow, hcalls⟩ := cfg.replays hreached p
  have htxs := (hnet.nodes p).txs
  rw [hcfg] at hpow
  have hdrawn : ∀ c ∈ calls, c.DrawnFrom t := by
    intro c hc
    obtain ⟨b, hb, hlink⟩ := List.mem_map.mp ((hcalls c.link).mp (List.mem_map.mpr ⟨c, hc, rfl⟩))
    obtain ⟨hhash, hpar⟩ := Prod.mk.inj hlink
    obtain ⟨hmem, hparents⟩ := hinv.heard hb
    rw [hhash, hpar] at hparents
    rw [hhash] at hmem
    refine ⟨hmem, or_iff_not_imp_left.mpr fun hne => ?_⟩
    rw [hparents, BlockTree.parentsOf, if_neg hne]
  have hheard : HeardOf t (registeredBlocks calls) (heardBlocks (net.nodes p).1.received (net.nodes p).2) := by
    refine ⟨fun b hb => (hinv.heard hb).2, fun x => ?_⟩
    rw [registeredBlocks, mem_registered, Finset.mem_singleton]
    apply or_congr_right
    constructor
    · rintro ⟨c, hc, rfl⟩
      obtain ⟨b, hb, hlink⟩ := List.mem_map.mp ((hcalls c.link).mp (List.mem_map.mpr ⟨c, hc, rfl⟩))
      exact ⟨b, hb, congrArg Prod.fst hlink⟩
    · rintro ⟨b, hb, rfl⟩
      obtain ⟨c, hc, hlink⟩ := List.mem_map.mp ((hcalls b.link).mpr (List.mem_map.mpr ⟨b, hb, rfl⟩))
      exact ⟨c, hc, congrArg Prod.fst hlink⟩
  have hsettled : Settled t (registeredBlocks calls) (net.nodes p).1.pow :=
    hpow ▸ Settled.fresh.registerAll (PoWBitcoin.decides t) hdrawn
  have hlongest : t.Longest (registeredBlocks calls) (net.nodes p).1.pow.bestHash :=
    hpow ▸ PoWBitcoin.longest_registerAll hdrawn
  refine Miner.survives_iff hheard hsettled hlongest (fun k => ?_) fun k hk b hb hkb => ?_
  · rw [mem_heardBlocks_tx]
    constructor
    · intro hk
      rcases htxs.accounted k hk with hqueued | hmined | hnoticed
      · exact .inl hqueued
      · exact .inr (.inr hmined)
      · exact .inr (.inl hnoticed)
    · rintro (hqueued | ⟨hk, hnoticed⟩ | hmined)
      · obtain ⟨tx, htx, rfl⟩ := List.mem_map.mp hqueued
        exact htxs.queued tx htx
      · exact (htxs.heard_known k hk).resolve_right fun hunnamed => hnoticed.2 hunnamed.1
      · exact htxs.mined_known k hmined
  · obtain ⟨tx, htx, rfl⟩ := List.mem_map.mp hk
    obtain ⟨hmined, hnew⟩ := htxs.fresh tx htx
    rcases mem_heardBlocks_tx.mp ⟨b, hb, hkb⟩ with ⟨hkey, -⟩ | hkey
    · exact hnew hkey
    · exact hmined hkey

def otherBlock : Packet PoWMessage :=
  ⟨0, 1, { content := .block ⟨"0:1:0", [GENESIS], 0, 1, false, ⟨1, 0, 0⟩, 0⟩, fromId := 0 }⟩

theorem transactions_survive_iff_oneBlock :
    ∃ net, twoMiners.history.machine.ReachedUnder OncePerRound net ∧
      (net.nodes 1).1.knownTransactions = [(1, 1), (0, 1)] ∧
      NothingStranded (heardBlocks (net.nodes 1).1.received (net.nodes 1).2) := by
  have hrun : (twoMiners.history.machine.runUnder OncePerRound ⟨0, twoMiners.history.initial, []⟩
      [.react 0 [], .tick, .react 1 [otherBlock]]).map (fun net =>
        decide ((net.nodes 1).1.knownTransactions = [(1, 1), (0, 1)] ∧
          (net.nodes 1).1.Survives (heardBlocks (net.nodes 1).1.received (net.nodes 1).2))) = some true := by
    decide +kernel
  obtain ⟨net, hnet, hfinal⟩ := Option.map_eq_some_iff.mp hrun
  obtain ⟨hknown, hsurvives⟩ := of_decide_eq_true hfinal
  have hreached := Lib.Machine.reachedUnder_of_runUnder (.start rfl) hnet
  exact ⟨net, hreached, hknown, (transactions_survive_iff twoMiners rfl net hreached 1).mp hsurvives⟩

/-- Each of two honest miners mines its own transaction on GENESIS, and miner 0 hears of the other's: its own
block stays the best one, and the other's transaction has left the queue. -/
theorem transaction_lost_sameHeight :
    ¬ ∀ (cfg : Miners) (net : MinerHistory), cfg.prefer = PoWBitcoin.preferCandidate → cfg.attackers = [] →
      cfg.history.machine.ReachedUnder OncePerRound net →
      ∀ p, (net.nodes p).1.Survives (heardBlocks (net.nodes p).1.received (net.nodes p).2) := by
  intro hall
  have hrun : (twoMiners.history.machine.runUnder OncePerRound ⟨0, twoMiners.history.initial, []⟩
      [.react 0 [], .react 1 [], .tick, .react 0 [honestTx, honestBlock]]).map (fun net =>
        decide ((net.nodes 0).1.Survives (heardBlocks (net.nodes 0).1.received (net.nodes 0).2))) =
          some false := by
    decide +kernel
  obtain ⟨net, hnet, hlost⟩ := Option.map_eq_some_iff.mp hrun
  have hreached := Lib.Machine.reachedUnder_of_runUnder (.start rfl) hnet
  exact of_decide_eq_false hlost (hall twoMiners net rfl rfl hreached 0)

end Miners

end Quantas
