import Quantas.Pow.Survival
import Quantas.Pow.Withheld

/-!
# Bitcoin peers converge

The head of a Bitcoin peer is the tip of the longest chain of the blocks that it has heard of. So it depends on
these blocks only, in whatever order and however often they came, and it never changes for the worse
(`heads_agree`). Nobody passes blocks on: a miner sends its block to its neighbours, and an attacker does so
when it releases. So on a complete network all peers agree as soon as nothing is withheld and every block that
was sent has been read (`heads_converge`). The invariant for the second result is `Offering`: a block that its
miner does not withhold has been sent to all its neighbours.
-/

namespace Quantas

open Lib.RootedTree

/-! ## The ledger of the blocks heard of -/

/-- The hashes of the blocks heard of, GENESIS included. -/
def heardHashes (heard : List HeardBlock) : Finset String :=
  insert GENESIS (heard.map HeardBlock.hash).toFinset

theorem mem_heardHashes {heard : List HeardBlock} {x : String} :
    x ∈ heardHashes heard ↔ x = GENESIS ∨ ∃ b ∈ heard, b.hash = x := by
  simp [heardHashes]

section Ledgers
variable {t : BlockTree} {p q : PoW} {heard heard' : List HeardBlock}

def OfTree (t : BlockTree) (heard : List HeardBlock) : Prop :=
  ∀ b ∈ heard, b.hash ∈ t.blocks ∧ b.parents = t.parentsOf b.hash

theorem OfTree.sub (h : OfTree t heard') (hsub : heard ⊆ heard') : OfTree t heard :=
  fun b hb => h b (hsub hb)

theorem heardHashes_mono (h : heard ⊆ heard') : heardHashes heard ⊆ heardHashes heard' := by
  intro x hx
  rw [mem_heardHashes] at hx ⊢
  exact hx.imp_right fun ⟨b, hb, heq⟩ => ⟨b, h hb, heq⟩

theorem PoW.Replays.longest (hp : p.Replays PoWBitcoin.preferCandidate (heard.map HeardBlock.link))
    (hheard : OfTree t heard) :
    Settled t (heardHashes heard) p ∧ t.Longest (heardHashes heard) p.bestHash := by
  obtain ⟨calls, rfl, hcalls⟩ := hp
  have hcall : ∀ c ∈ calls, ∃ b ∈ heard, b.hash = c.hash ∧ b.parents = c.parents := by
    intro c hc
    obtain ⟨b, hb, hlink⟩ := List.mem_map.mp ((hcalls c.link).mp (List.mem_map.mpr ⟨c, hc, rfl⟩))
    exact ⟨b, hb, Prod.mk.inj hlink⟩
  have hdrawn : ∀ c ∈ calls, c.DrawnFrom t := by
    intro c hc
    obtain ⟨b, hb, hhash, hparents⟩ := hcall c hc
    obtain ⟨hmem, htree⟩ := hheard b hb
    rw [hhash, hparents] at htree
    refine ⟨hhash ▸ hmem, or_iff_not_imp_left.mpr fun hne => ?_⟩
    rw [htree, BlockTree.parentsOf, if_neg hne]
  have hknown : registeredBlocks calls = heardHashes heard := by
    ext x
    rw [registeredBlocks, mem_registered, Finset.mem_singleton, mem_heardHashes]
    apply or_congr_right
    constructor
    · rintro ⟨c, hc, rfl⟩
      obtain ⟨b, hb, hhash, -⟩ := hcall c hc
      exact ⟨b, hb, hhash⟩
    · rintro ⟨b, hb, rfl⟩
      obtain ⟨c, hc, hlink⟩ := List.mem_map.mp ((hcalls b.link).mpr (List.mem_map.mpr ⟨b, hb, rfl⟩))
      exact ⟨c, hc, congrArg Prod.fst hlink⟩
  rw [← hknown]
  exact ⟨Settled.fresh.registerAll (PoWBitcoin.decides t) hdrawn, PoWBitcoin.longest_registerAll hdrawn⟩

theorem Settled.exists_bestTip {R : Finset String} (h : Settled t R p) :
    ∃ b, p.bestTip = some b ∧ b.hash = p.bestHash ∧ b.height = t.depth p.bestHash := by
  obtain ⟨b, hb, hheight⟩ := h.height p.bestHash h.best
  exact ⟨b, hb, PoW.findBlock_hash hb, hheight⟩

/-- Of two records of heads the second is at least as good. -/
def BlockRecord.NoBetter (b b' : BlockRecord) : Prop :=
  b.height < b'.height ∨ b.height = b'.height ∧ b'.hash ≤ b.hash

theorem PoW.Replays.head_rises (hp : p.Replays PoWBitcoin.preferCandidate (heard.map HeardBlock.link))
    (hq : q.Replays PoWBitcoin.preferCandidate (heard'.map HeardBlock.link)) (hheard : OfTree t heard')
    (hsub : heard ⊆ heard') : ∃ b b', p.bestTip = some b ∧ q.bestTip = some b' ∧ b.NoBetter b' := by
  obtain ⟨hsettled, hlongest⟩ := hp.longest (hheard.sub hsub)
  obtain ⟨hsettled', hlongest'⟩ := hq.longest hheard
  obtain ⟨b, hb, hhash, hheight⟩ := hsettled.exists_bestTip
  obtain ⟨b', hb', hhash', hheight'⟩ := hsettled'.exists_bestTip
  refine ⟨b, b', hb, hb', ?_⟩
  unfold BlockRecord.NoBetter
  rw [hheight, hheight', hhash, hhash', Nat.cast_lt, Nat.cast_inj]
  exact hlongest'.2 p.bestHash (hlongest.1.mono (heardHashes_mono hsub))

theorem PoW.Replays.head_eq (hp : p.Replays PoWBitcoin.preferCandidate (heard.map HeardBlock.link))
    (hq : q.Replays PoWBitcoin.preferCandidate (heard'.map HeardBlock.link)) (hheard : OfTree t heard)
    (hheard' : OfTree t heard') (hsame : heardHashes heard = heardHashes heard') :
    p.bestHash = q.bestHash ∧ p.bestTip.map BlockRecord.height = q.bestTip.map BlockRecord.height := by
  obtain ⟨hsettled, hlongest⟩ := hp.longest hheard
  obtain ⟨hsettled', hlongest'⟩ := hq.longest hheard'
  rw [hsame] at hlongest
  have hbest : p.bestHash = q.bestHash := hlongest.unique hlongest'
  obtain ⟨b, hb, -, hheight⟩ := hsettled.exists_bestTip
  obtain ⟨b', hb', -, hheight'⟩ := hsettled'.exists_bestTip
  refine ⟨hbest, ?_⟩
  rw [hb, hb', Option.map_some, Option.map_some, hheight, hheight', hbest]

end Ledgers

/-! ## What a miner has heard of only grows -/

namespace Miner
variable {s : Miner}

theorem received_onPacket (prefer : PreferCandidate) (s : Miner) (pkt : Packet PoWMessage) :
    (s.onPacket prefer pkt).received = s.received ++ [pkt.message] := by
  unfold onPacket
  cases pkt.message.content with
  | tx tx =>
    dsimp only
    split_ifs <;> rfl
  | block b =>
    dsimp only
    split_ifs <;> rfl

theorem received_checkInStrm (prefer : PreferCandidate) (s : Miner) :
    (s.checkInStrm prefer).received = s.received ++ s.inStream.map Packet.message := by
  have hfold : ∀ (l : List (Packet PoWMessage)) (r : Miner),
      (l.foldl (onPacket prefer) r).received = r.received ++ l.map Packet.message := by
    intro l
    induction l with
    | nil => exact fun r => (List.append_nil _).symm
    | cons pkt l ih =>
      intro r
      rw [List.foldl_cons, ih, received_onPacket, List.map_cons, List.append_assoc, List.singleton_append]
  exact hfold s.inStream { s with inStream := [] }

theorem Publishes.received {r : Miner} (h : Publishes s r) : r.received = s.received := by
  obtain ⟨_, _, _, rfl⟩ := h
  rfl

theorem received_beforeMining (env : MiningRound) (s : Miner) :
    (s.beforeMining env).received = s.received ++ s.inStream.map Packet.message := by
  unfold beforeMining submit
  split_ifs
  · exact (publishes_broadcast _ _).received.trans (received_checkInStrm _ s)
  · exact received_checkInStrm _ s

theorem received_tryPerformComputation (env : MiningRound) (s : Miner) :
    (s.tryPerformComputation env).received = s.received ++ s.inStream.map Packet.message := by
  rcases tryPerformComputation_cases env s with ⟨-, heq⟩ | ⟨b, -, hblock, heq⟩
  · rw [heq]
    exact received_beforeMining env s
  · obtain ⟨-, -, -, -, hafter⟩ := mine_cases hblock
    rw [heq, ← received_beforeMining env s]
    rcases hafter with hafter | ⟨record, -, hafter⟩
    · rw [hafter]
      rfl
    · rw [hafter]
      exact (publishes_broadcast _ _).received

end Miner

namespace Miners
variable (cfg : Miners)

/-- The blocks that a peer has been told of or has mined. -/
def heardBy (net : MinerHistory) (p : InterfaceId) : List HeardBlock :=
  heardBlocks (net.nodes p).1.received (net.nodes p).2

theorem heardBy_step {net net' : MinerHistory} {e : Lib.Lossy.Event InterfaceId (Packet PoWMessage)}
    (h : cfg.history.machine.step net e = some net') (p : InterfaceId) : heardBy net p ⊆ heardBy net' p := by
  rcases Lib.Lossy.Protocol.step_cases h with ⟨-, rfl⟩ | ⟨q, arrived, -, -, -, rfl⟩
  · exact List.Subset.refl _
  · refine Lib.Lossy.Net.forall_after (Q := fun p (s : Miner × List MinerStep) =>
      heardBy net p ⊆ heardBlocks s.1.received s.2) ?_ (fun j _ => List.Subset.refl _) p
    rw [history_react]
    unfold heardBy heardBlocks
    rw [Miner.received_tryPerformComputation, List.filterMap_append, List.filterMap_append]
    apply List.append_subset.mpr
    constructor
    · apply List.subset_append_of_subset_left
      exact List.subset_append_left _ _
    · apply List.subset_append_of_subset_right
      exact List.subset_append_left _ _

theorem heardBy_sub {last : MinerHistory} {run : List MinerHistory}
    (h : cfg.history.machine.PassesUnder OncePerRound (last :: run)) {net : MinerHistory} (hnet : net ∈ last :: run)
    (p : InterfaceId) : heardBy net p ⊆ heardBy last p := by
  refine h.carried (Q := fun s => heardBy net p ⊆ heardBy s p) (fun s e s' hstep hs => ?_) last rfl net hnet
    (List.Subset.refl _)
  exact List.Subset.trans hs (cfg.heardBy_step hstep p)

/-- **Who has heard of the same blocks has the same head.** In every run of Bitcoin peers in which nobody takes
two protocol steps in one round: two peers that have heard of the same blocks, in whatever order, have the same
best block and the same height; and a peer has replaced its best block by higher ones only, or by one of the
same height with a smaller hash. -/
theorem heads_agree (hcfg : cfg.prefer = PoWBitcoin.preferCandidate) (last : MinerHistory)
    (run : List MinerHistory) (h : cfg.history.machine.PassesUnder OncePerRound (last :: run)) :
    (∀ p q, heardHashes (heardBy last p) = heardHashes (heardBy last q) →
      (last.nodes p).1.pow.bestHash = (last.nodes q).1.pow.bestHash ∧
      (last.nodes p).1.pow.bestTip.map BlockRecord.height = (last.nodes q).1.pow.bestTip.map BlockRecord.height) ∧
    ∀ net ∈ run, ∀ p, ∃ b b', (net.nodes p).1.pow.bestTip = some b ∧ (last.nodes p).1.pow.bestTip = some b' ∧
      b.NoBetter b' := by
  obtain ⟨t, hinv, -⟩ := cfg.exists_tree h
  have hheard : ∀ p, OfTree t (heardBy last p) := fun p b hb => hinv.heard hb
  have hreplays : ∀ net ∈ last :: run, ∀ p, (net.nodes p).1.pow.Replays PoWBitcoin.preferCandidate
      ((heardBy net p).map HeardBlock.link) := by
    intro net hnet p
    have hreached := (h.reached net hnet).mono fun _ _ _ => trivial
    exact hcfg ▸ cfg.replays hreached p
  constructor
  · intro p q hsame
    have hlast := hreplays last List.mem_cons_self
    exact (hlast p).head_eq (hlast q) (hheard p) (hheard q) hsame
  · intro net hnet p
    have hmem := List.mem_cons_of_mem last hnet
    exact (hreplays net hmem p).head_rises (hreplays last List.mem_cons_self p) (hheard p)
      (cfg.heardBy_sub h hmem p)

def briefMiners : Miners :=
  { oneAttacker with mineDraw := fun p round => if p + round < 2 then 0 else 1 }

def releasedBlock (hash : String) (parents : List String) (length : Int) (tx : PendingTx) (round : Nat) :
    Packet PoWMessage :=
  ⟨0, 1, { content := .block ⟨hash, parents, 0, length, true, tx, round⟩, fromId := 0 }⟩

/-- The attacker releases its two blocks, and then both peers read all blocks. -/
def allRead : List (Lib.Lossy.Event InterfaceId (Packet PoWMessage)) :=
  [.react 0 [], .react 1 [], .tick, .react 0 [], .tick, .react 0 [honestBlock],
    .react 1 [releasedBlock "0:2:1" ["0:1:0"] 2 ⟨2, 1, 0⟩ 1, releasedBlock "0:1:0" [GENESIS] 1 ⟨1, 0, 0⟩ 0]]

/-- Miner 1 hears of the second block before the first, and its own is third. -/
theorem heads_agree_allRead :
    ∃ last run, briefMiners.history.machine.PassesUnder OncePerRound (last :: run) ∧
      (last.nodes 0).1.pow.links.map Prod.fst = [GENESIS, "0:1:0", "0:2:1", "1:1:0"] ∧
      (last.nodes 1).1.pow.links.map Prod.fst = [GENESIS, "1:1:0", "0:2:1", "0:1:0"] ∧
      (last.nodes 0).1.pow.bestHash = (last.nodes 1).1.pow.bestHash := by
  have hrun : (briefMiners.history.machine.runUnder OncePerRound ⟨0, briefMiners.history.initial, []⟩ allRead).map
      (fun last => decide ((last.nodes 0).1.pow.links.map Prod.fst = [GENESIS, "0:1:0", "0:2:1", "1:1:0"] ∧
        (last.nodes 1).1.pow.links.map Prod.fst = [GENESIS, "1:1:0", "0:2:1", "0:1:0"] ∧
        heardHashes (heardBy last 0) = heardHashes (heardBy last 1))) = some true := by
    decide +kernel
  obtain ⟨last, hlast, hfinal⟩ := Option.map_eq_some_iff.mp hrun
  obtain ⟨hfirst, hsecond, hsame⟩ := of_decide_eq_true hfinal
  obtain ⟨run, hpasses⟩ := Lib.Machine.passesUnder_of_runUnder (.start rfl) hlast
  exact ⟨last, run, hpasses, hfirst, hsecond, ((heads_agree briefMiners rfl last run hpasses).1 0 1 hsame).1⟩

end Miners

/-! ## What is not withheld has been sent -/

/-- The packet brings `q` a block with the hash `h`. -/
def Brings (q : InterfaceId) (h : String) (pkt : Packet PoWMessage) : Prop :=
  pkt.target = q ∧ ∃ b, pkt.message.content = .block b ∧ b.hash = h

namespace Miner
variable {s r : Miner} {f : ParasiteFault} {sent sent' : List (Packet PoWMessage)} {own own' : String → Prop}
  {nbrs : List InterfaceId}

/-- The fault withholds a block with the hash `h`. -/
def Withholding (s : Miner) (h : String) : Prop := ∃ f ∈ s.parasite, ∃ stored ∈ f.privateChain, stored.hash = h

/-- Every neighbour has been sent a block with the hash `h`, now or before, as `sent` says. -/
def Offered (sent : List (Packet PoWMessage)) (s : Miner) (h : String) : Prop :=
  ∀ q ∈ s.neighbors, ∃ pkt ∈ sent ++ s.outbox, Brings q h pkt

/-- Each of the miner's `own` blocks is withheld or has been sent to all of its neighbours, which are `nbrs`. -/
structure Offering (nbrs : List InterfaceId) (sent : List (Packet PoWMessage)) (own : String → Prop)
    (s : Miner) : Prop where
  neighbors : s.neighbors = nbrs
  recorded : ∀ f ∈ s.parasite, ∀ hash ∈ f.privateHashes, s.Withholding hash
  stored : ∀ f ∈ s.parasite, ∀ stored ∈ f.privateChain,
    ∃ b, stored.message.content = .block b ∧ b.hash = stored.hash
  offers : ∀ h, own h → s.Withholding h ∨ s.Offered sent h

theorem Offered.mono {h : String} (hs : s.Offered sent h) (hneighbors : r.neighbors = s.neighbors)
    (hsent : sent ++ s.outbox ⊆ sent' ++ r.outbox) : r.Offered sent' h := by
  intro q hq
  rw [hneighbors] at hq
  obtain ⟨pkt, hpkt, hbrings⟩ := hs q hq
  exact ⟨pkt, hsent hpkt, hbrings⟩

theorem Offering.mono (h : s.Offering nbrs sent own) (hparasite : r.parasite = s.parasite)
    (hneighbors : r.neighbors = s.neighbors) (hsent : sent ++ s.outbox ⊆ sent' ++ r.outbox)
    (hown : ∀ k, own' k → own k) : r.Offering nbrs sent' own' := by
  have hwithholding : ∀ k, s.Withholding k → r.Withholding k := by
    intro k hk
    unfold Withholding
    rw [hparasite]
    exact hk
  refine ⟨hneighbors.trans h.neighbors, ?_, ?_, ?_⟩
  · rw [hparasite]
    exact fun f hf hash hhash => hwithholding hash (h.recorded f hf hash hhash)
  · rw [hparasite]
    exact h.stored
  · intro k hk
    exact (h.offers k (hown k hk)).imp (hwithholding k) fun hoffered => hoffered.mono hneighbors hsent

theorem Offering.sends (h : s.Offering nbrs sent own) (hsends : Sends s r) : r.Offering nbrs sent own := by
  obtain ⟨new, rfl⟩ := hsends
  refine h.mono rfl rfl ?_ fun _ hk => hk
  rw [← List.append_assoc]
  exact List.subset_append_left _ _

theorem offered_networkBroadcast (sent : List (Packet PoWMessage)) (s : Miner) {msg : PoWMessage}
    {b : AnnouncedBlock} (hmsg : msg.content = .block b) : (s.networkBroadcast msg).Offered sent b.hash := by
  rw [networkBroadcast_eq]
  intro q hq
  refine ⟨⟨s.publicId, q, msg⟩, ?_, rfl, b, hmsg, rfl⟩
  apply List.mem_append_right
  apply List.mem_append_right
  exact List.mem_map.mpr ⟨q, hq, rfl⟩

theorem Offering.networkBroadcast (h : s.Offering nbrs sent own) {msg : PoWMessage} {b : AnnouncedBlock}
    (hmsg : msg.content = .block b) : (s.networkBroadcast msg).Offering nbrs sent fun k => own k ∨ k = b.hash := by
  obtain ⟨hneighbors, hrecorded, hstored, hoffers⟩ := h.sends (sends_networkBroadcast s msg)
  refine ⟨hneighbors, hrecorded, hstored, fun k hk => ?_⟩
  rcases hk with hk | rfl
  · exact hoffers k hk
  · exact .inr (offered_networkBroadcast sent s hmsg)

theorem Offering.tryRelease (h : s.Offering nbrs sent own) : s.tryRelease.Offering nbrs sent own := by
  cases hf : s.parasite with
  | none =>
    have hsame : s.tryRelease = s := by
      unfold Miner.tryRelease
      rw [hf]
    rw [hsame]
    exact h
  | some f =>
    rw [tryRelease_eq hf]
    split_ifs
    swap
    · exact h
    refine ⟨h.neighbors, ?_, ?_, fun k hk => .inr ?_⟩
    · intro g hg hash hhash
      obtain rfl := Option.some.inj hg
      exact absurd hhash List.not_mem_nil
    · intro g hg stored hstored
      obtain rfl := Option.some.inj hg
      exact absurd hstored List.not_mem_nil
    · rcases h.offers k hk with hwithheld | hoffered
      · obtain ⟨g, hg, stored, hmem, rfl⟩ := hwithheld
        obtain rfl := Option.some.inj (hf.symm.trans hg)
        obtain ⟨b, hcontent, hhash⟩ := h.stored f hf stored hmem
        have hmsg : { stored.message with parasitePrivate := false } ∈
            (Release.messages ⟨f.privateChain, s.received⟩) := by
          rw [(Release.messages_perm _).mem_iff]
          exact List.mem_map.mpr ⟨stored, hmem, rfl⟩
        intro q hq
        refine ⟨⟨s.publicId, q, { stored.message with parasitePrivate := false }⟩, ?_, rfl, b, hcontent, hhash⟩
        apply List.mem_append_right
        apply List.mem_append_right
        exact List.mem_flatMap.mpr ⟨_, hmsg, List.mem_map.mpr ⟨q, hq, rfl⟩⟩
      · refine hoffered.mono rfl ?_
        rw [← List.append_assoc]
        exact List.subset_append_left _ _

theorem Offering.storePrivate (h : s.Offering nbrs sent own) (hf : s.parasite = some f) {msg : PoWMessage}
    {b : AnnouncedBlock} (hmsg : msg.content = .block b) (hne : b.hash ≠ "") :
    (s.updateParasite (·.storePrivate msg)).Offering nbrs sent fun k => own k ∨ k = b.hash := by
  have hupdate : s.updateParasite (·.storePrivate msg) = { s with parasite := some (f.storePrivate msg) } := by
    unfold updateParasite
    rw [hf]
    rfl
  rw [hupdate]
  by_cases hknown : b.hash ∈ f.privateHashes
  · have hsame : f.storePrivate msg = f := by
      unfold ParasiteFault.storePrivate
      rw [hmsg]
      dsimp only
      rw [if_neg hne, if_pos hknown]
    rw [hsame, ← hf]
    refine ⟨h.neighbors, h.recorded, h.stored, fun k hk => ?_⟩
    rcases hk with hk | rfl
    · exact h.offers k hk
    · exact .inl (h.recorded f hf _ hknown)
  · have hnew : f.storePrivate msg = { f with
        privateHashes := b.hash :: f.privateHashes
        privateHeight := max f.privateHeight b.length
        privateChain := f.privateChain ++ [⟨msg, b.length, b.hash, b.parents⟩] } := by
      unfold ParasiteFault.storePrivate
      rw [hmsg]
      dsimp only
      rw [if_neg hne, if_neg hknown]
    have hchain : ∀ k, (s.Withholding k ∨ k = b.hash) →
        Withholding { s with parasite := some (f.storePrivate msg) } k := by
      intro k hk
      refine ⟨f.storePrivate msg, rfl, ?_⟩
      rw [hnew]
      rcases hk with ⟨g, hg, stored, hmem, hhash⟩ | rfl
      · obtain rfl := Option.some.inj (hf.symm.trans hg)
        exact ⟨stored, List.mem_append_left _ hmem, hhash⟩
      · exact ⟨_, List.mem_append_right _ (List.mem_singleton_self _), rfl⟩
    refine ⟨h.neighbors, ?recorded, ?stored, ?offers⟩
    case recorded =>
      intro g hg hash hhash
      obtain rfl := Option.some.inj hg
      rw [hnew] at hhash
      rcases List.mem_cons.mp hhash with rfl | hhash
      · exact hchain _ (.inr rfl)
      · exact hchain hash (.inl (h.recorded f hf hash hhash))
    case stored =>
      intro g hg stored hstored
      obtain rfl := Option.some.inj hg
      rw [hnew] at hstored
      rcases List.mem_append.mp hstored with hstored | hstored
      · exact h.stored f hf stored hstored
      · obtain rfl := List.mem_singleton.mp hstored
        exact ⟨b, hmsg, rfl⟩
    case offers =>
      intro k hk
      rcases hk with hk | rfl
      · exact (h.offers k hk).imp_left fun hold => hchain k (.inl hold)
      · exact .inl (hchain _ (.inr rfl))

theorem Offering.broadcast (h : s.Offering nbrs sent own) {msg : PoWMessage} {b : AnnouncedBlock}
    (hmsg : msg.content = .block b) (hne : b.hash ≠ "") :
    (s.broadcast msg).Offering nbrs sent fun k => own k ∨ k = b.hash := by
  cases hf : s.parasite with
  | none =>
    rw [broadcast_honest hf]
    exact h.networkBroadcast hmsg
  | some f =>
    have hskip : (s.onSend msg .broadcast []).2.2 = true := by
      unfold onSend
      rw [if_neg (by simp), hmsg]
    rw [broadcast_attacker hf, if_pos hskip]
    unfold onSend
    rw [if_neg (by simp), hmsg]
    apply Offering.tryRelease
    apply Offering.sends _ (sends_foldl (fun t collaborator => t.sends_unicastTo _ collaborator) _ _)
    exact h.storePrivate (b := { b with parasite := true }) hf rfl hne

theorem Offering.broadcast_tx (h : s.Offering nbrs sent own) {msg : PoWMessage} {tx : PendingTx}
    (hmsg : msg.content = .tx tx) : (s.broadcast msg).Offering nbrs sent own := by
  cases hf : s.parasite with
  | none =>
    rw [broadcast_honest hf]
    exact h.sends (sends_networkBroadcast s msg)
  | some f =>
    have hsend : s.onSend msg .broadcast [] = (s, msg, false) := by
      unfold onSend
      rw [if_neg (by simp), hmsg]
    rw [broadcast_attacker hf, hsend]
    exact h.sends (sends_networkBroadcast s msg)

theorem Offering.onPacket (h : s.Offering nbrs sent own) (prefer : PreferCandidate) (pkt : Packet PoWMessage) :
    (s.onPacket prefer pkt).Offering nbrs sent own := by
  have hsame : (s.onPacket prefer pkt).parasite = s.parasite ∧
      (s.onPacket prefer pkt).neighbors = s.neighbors ∧ (s.onPacket prefer pkt).outbox = s.outbox := by
    unfold Miner.onPacket
    cases pkt.message.content with
    | tx tx =>
      dsimp only
      split_ifs <;> exact ⟨rfl, rfl, rfl⟩
    | block b =>
      dsimp only
      split_ifs <;> exact ⟨rfl, rfl, rfl⟩
  obtain ⟨hparasite, hneighbors, houtbox⟩ := hsame
  refine h.mono hparasite hneighbors ?_ fun _ hk => hk
  rw [houtbox]
  exact List.Subset.refl _

theorem Offering.beforeMining (h : s.Offering nbrs sent own) (env : MiningRound) :
    (s.beforeMining env).Offering nbrs sent own := by
  have hread : (s.checkInStrm env.prefer).Offering nbrs sent own :=
    List.foldlRecOn (motive := fun r : Miner => r.Offering nbrs sent own) s.inStream _
      (h.mono rfl rfl (List.Subset.refl _) fun _ hk => hk) fun _ hr pkt _ => hr.onPacket env.prefer pkt
  unfold Miner.beforeMining Miner.submit
  split_ifs
  · apply Offering.broadcast_tx _ rfl
    exact hread.mono rfl rfl (List.Subset.refl _) fun _ hk => hk
  · exact hread

theorem mine_broadcasts {env : MiningRound} {parents : List String} {b : MinedBlock}
    (h : s.mineBlock env parents = some b) :
    ∃ record, record.hash = b.hash ∧ s.mine env parents =
      (s.withBlock env.prefer b (parents ≠ [])).broadcast (s.buildBlockMessage env record b.tx) := by
  unfold mineBlock at h
  cases hqueue : s.queue with
  | nil =>
    rw [hqueue] at h
    cases h
  | cons pending rest =>
    rw [hqueue] at h
    obtain rfl := Option.some.inj h
    obtain ⟨ps, hlink⟩ : ∃ ps, (blockHash s.publicId pending.id env.round, ps) ∈
        (s.pow.registerBlock env.prefer (blockHash s.publicId pending.id env.round) (s.blockParents parents)
          s.publicId (parents ≠ [])).links := PoW.exists_link_registerBlock _ _ _ _
    obtain ⟨record, hrecord⟩ := PoW.exists_findBlock hlink
    refine ⟨record, PoW.findBlock_hash hrecord, ?_⟩
    unfold mine withBlock
    rw [hqueue]
    dsimp only
    split
    · rename_i hnone
      exact absurd (hnone.symm.trans hrecord) (by simp)
    · rename_i other hother
      obtain rfl := Option.some.inj (hother.symm.trans hrecord)
      rfl

theorem Offering.tryPerformComputation (h : s.Offering nbrs sent own) (env : MiningRound) :
    (s.tryPerformComputation env).Offering nbrs sent fun k => own k ∨ ∃ b ∈ s.stepBlock env, b.hash = k := by
  have hbefore := h.beforeMining env
  rcases tryPerformComputation_cases env s with ⟨hnone, heq⟩ | ⟨b, hsome, hblock, heq⟩
  · rw [hnone, heq]
    refine hbefore.mono rfl rfl (List.Subset.refl _) fun k hk => ?_
    rcases hk with hk | ⟨b, hb, -⟩
    · exact hk
    · cases hb
  · obtain ⟨-, hhash, -⟩ := mine_cases hblock
    obtain ⟨record, hrecord, hmine⟩ := mine_broadcasts hblock
    rw [hsome, heq, hmine]
    have hregistered : ((s.beforeMining env).withBlock env.prefer b (s.overrideParents ≠ [])).Offering nbrs sent own :=
      hbefore.mono rfl rfl (List.Subset.refl _) fun _ hk => hk
    have hne : record.hash ≠ "" := by
      rw [hrecord, hhash]
      exact blockHash_ne_empty _ _ _
    have hmsg : ((s.beforeMining env).buildBlockMessage env record b.tx).content = .block ⟨record.hash,
        record.parents, (s.beforeMining env).publicId, record.height, record.parasite, b.tx, env.round⟩ := rfl
    refine (hregistered.broadcast hmsg hne).mono rfl rfl (List.Subset.refl _) fun k hk => ?_
    rcases hk with hk | ⟨c, hc, rfl⟩
    · exact .inl hk
    · obtain rfl := Option.some.inj hc
      exact .inr hrecord.symm

end Miner

namespace Miners
variable (cfg : Miners)

theorem offering {net : MinerHistory} (h : cfg.history.machine.Reached net) (p : InterfaceId) :
    Miner.Offering (cfg.neighbors p) net.sent (net.MinedBy p) { (net.nodes p).1 with outbox := [] } := by
  refine Lib.Lossy.Protocol.invariant (I := fun net : MinerHistory => ∀ p, Miner.Offering (cfg.neighbors p)
    net.sent (MinerHistory.MinedBy net p) { (net.nodes p).1 with outbox := [] }) ?_ ?_ ?_ h p
  · intro p
    have hinit : ∀ f ∈ (cfg.init p).parasite, f.privateHashes = [] ∧ f.privateChain = [] := by
      intro f hf
      change (if p ∈ cfg.attackers then some _ else none) = some f at hf
      split_ifs at hf
      obtain rfl := Option.some.inj hf
      exact ⟨rfl, rfl⟩
    refine ⟨rfl, fun f hf hash hhash => ?_, fun f hf stored hstored => ?_, fun h hmined => ?_⟩
    · rw [(hinit f hf).1] at hhash
      exact absurd hhash List.not_mem_nil
    · rw [(hinit f hf).2] at hstored
      exact absurd hstored List.not_mem_nil
    · obtain ⟨step, hstep, -⟩ := hmined
      exact absurd hstep List.not_mem_nil
  · exact fun _ _ hall => hall
  · intro net p arrived hall _ _ _
    have hstart : (startStep (net.nodes p).1 arrived).Offering (cfg.neighbors p) net.sent
        (MinerHistory.MinedBy net p) :=
      (hall p).mono rfl rfl (List.Subset.refl _) fun _ hk => hk
    have hstep := hstart.tryPerformComputation (cfg.env p net.time)
    intro q
    by_cases hq : q = p
    · subst hq
      rw [Lib.Lossy.Net.after_self, history_react]
      refine hstep.mono rfl rfl ?_ fun k hk => ?_
      · intro pkt hpkt
        exact List.mem_append_left _ (Lib.Lossy.Net.mem_after_sent.mpr (List.mem_append.mp hpkt))
      · exact (MinerHistory.minedBy_after.mp hk).imp_right And.right
    · rw [Lib.Lossy.Net.after_other hq, history_react]
      refine (hall q).mono rfl rfl ?_ fun k hk => ?_
      · intro pkt hpkt
        rw [List.append_nil] at hpkt ⊢
        exact Lib.Lossy.Net.mem_after_sent.mpr (.inl hpkt)
      · exact (MinerHistory.minedBy_after.mp hk).resolve_right fun hnew => hq hnew.1

/-- Every block that has been sent to a peer has been read by it. -/
def AllRead (net : MinerHistory) : Prop :=
  ∀ pkt ∈ net.sent, pkt.target ∈ cfg.peers → ∀ b ∈ pkt.message.heard?, b ∈ heardBy net pkt.target

instance (net : MinerHistory) : Decidable (cfg.AllRead net) :=
  inferInstanceAs (Decidable (∀ pkt ∈ _, _ → ∀ b ∈ _, _))

def NothingWithheld (net : MinerHistory) : Prop :=
  ∀ p ∈ cfg.peers, ∀ f ∈ (net.nodes p).1.parasite, f.privateChain = []

instance (net : MinerHistory) : Decidable (cfg.NothingWithheld net) :=
  inferInstanceAs (Decidable (∀ p ∈ _, ∀ f ∈ _, _))

/-- Every peer is a neighbour of every other. -/
def CompleteNetwork : Prop := ∀ p ∈ cfg.peers, ∀ q ∈ cfg.peers, q ≠ p → q ∈ cfg.neighbors p

instance : Decidable cfg.CompleteNetwork := inferInstanceAs (Decidable (∀ p ∈ _, ∀ q ∈ _, _))

theorem mem_heardBy_of_minedBy {net : MinerHistory} {p : InterfaceId} {x : String} (h : net.MinedBy p x) :
    ∃ b ∈ heardBy net p, b.hash = x := by
  obtain ⟨step, hstep, b, hb, rfl⟩ := h
  refine ⟨b.heard, List.mem_append_right _ (List.mem_filterMap.mpr ⟨step, hstep, ?_⟩), rfl⟩
  rw [hb]
  rfl

/-- **Bitcoin peers converge.** On a complete network, in every state of a run in which nobody takes two protocol
steps in one round: if no attacker withholds a block and every block that was sent has been read, then every
ledger has every block that was ever mined and no others, and all have the same best block at the same height. -/
theorem heads_converge (hcfg : cfg.prefer = PoWBitcoin.preferCandidate) (hcomplete : cfg.CompleteNetwork)
    (net : MinerHistory) (h : cfg.history.machine.ReachedUnder OncePerRound net)
    (hwithheld : cfg.NothingWithheld net) (hread : cfg.AllRead net) :
    ∀ p ∈ cfg.peers,
      (∀ x, ((net.nodes p).1.pow.findBlock x).isSome ↔ x = GENESIS ∨ net.Mined x) ∧
      ∀ q ∈ cfg.peers, (net.nodes p).1.pow.bestHash = (net.nodes q).1.pow.bestHash ∧
        (net.nodes p).1.pow.bestTip.map BlockRecord.height =
          (net.nodes q).1.pow.bestTip.map BlockRecord.height := by
  have hreached : cfg.history.machine.Reached net := h.mono fun _ _ _ => trivial
  obtain ⟨run, hpasses⟩ := h.exists_passes
  obtain ⟨t, hinv, -⟩ := cfg.exists_tree hpasses
  have hheard : ∀ p, OfTree t (heardBy net p) := fun p b hb => hinv.heard hb
  have hreplays : ∀ p, (net.nodes p).1.pow.Replays PoWBitcoin.preferCandidate
      ((heardBy net p).map HeardBlock.link) := fun p => hcfg ▸ cfg.replays hreached p
  -- whoever mined the block has sent it to everybody else
  have hmined : ∀ p ∈ cfg.peers, ∀ x, net.Mined x → ∃ b ∈ heardBy net p, b.hash = x := by
    intro p hp x hx
    obtain ⟨q, hq⟩ := hx
    by_cases hpq : p = q
    · subst hpq
      exact mem_heardBy_of_minedBy hq
    · have hmember := hinv.members q x hq
      have hoffering := cfg.offering hreached q
      rcases hoffering.offers x hq with ⟨f, hf, stored, hstored, -⟩ | hoffered
      · rw [hwithheld q hmember f hf] at hstored
        exact absurd hstored List.not_mem_nil
      · have hneighbor : p ∈ cfg.neighbors q := hcomplete q hmember p hp hpq
        rw [← hoffering.neighbors] at hneighbor
        obtain ⟨pkt, hpkt, rfl, b, hcontent, rfl⟩ := hoffered p hneighbor
        have hsent : pkt ∈ net.sent := by simpa using hpkt
        have hdescribes := hinv.sent pkt hsent
        rw [hcontent] at hdescribes
        refine ⟨b.heard, hread pkt hsent hp b.heard ?_, if_neg hdescribes.1⟩
        rw [PoWMessage.heard?, hcontent]
        rfl
  have hall : ∀ p ∈ cfg.peers, ∀ x, x ∈ heardHashes (heardBy net p) ↔ x = GENESIS ∨ net.Mined x := by
    intro p hp x
    rw [mem_heardHashes]
    constructor
    · rintro (rfl | ⟨b, hb, rfl⟩)
      · exact .inl rfl
      · exact hinv.blocks _ (hheard p b hb).1
    · exact fun hx => hx.imp_right (hmined p hp x)
  intro p hp
  refine ⟨fun x => ?_, fun q hq => ?_⟩
  · obtain ⟨hsettled, -⟩ := (hreplays p).longest (hheard p)
    rw [hsettled.toHolds.mem_iff]
    exact hall p hp x
  · apply (hreplays p).head_eq (hreplays q) (hheard p) (hheard q)
    ext x
    rw [hall p hp, hall q hq]

/-- The attacker has released its two blocks, and both peers have read all blocks. -/
theorem heads_converge_allRead :
    ∃ net : MinerHistory, briefMiners.history.machine.ReachedUnder OncePerRound net ∧
      (net.nodes 1).1.pow.bestHash = "0:2:1" ∧
      (∀ x, ((net.nodes 1).1.pow.findBlock x).isSome ↔ x = GENESIS ∨ net.Mined x) ∧
      (net.nodes 0).1.pow.bestHash = (net.nodes 1).1.pow.bestHash := by
  have hrun : (briefMiners.history.machine.runUnder OncePerRound ⟨0, briefMiners.history.initial, []⟩ allRead).map
      (fun net => decide ((net.nodes 1).1.pow.bestHash = "0:2:1" ∧ briefMiners.NothingWithheld net ∧
        briefMiners.AllRead net)) = some true := by
    decide +kernel
  obtain ⟨net, hnet, hfinal⟩ := Option.map_eq_some_iff.mp hrun
  obtain ⟨hbest, hwithheld, hread⟩ := of_decide_eq_true hfinal
  have hreached := Lib.Machine.reachedUnder_of_runUnder (.start rfl) hnet
  have hconverge := heads_converge briefMiners rfl (by decide) net hreached hwithheld hread
  exact ⟨net, hreached, hbest, (hconverge 1 (by decide)).1, ((hconverge 0 (by decide)).2 1 (by decide)).1⟩

end Miners

end Quantas
