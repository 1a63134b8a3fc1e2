import Quantas.Pow.Graph

/-!
# What the miners register

`registerBlock` has two callers: `checkInStrm` for a block that was announced, which makes up a hash if the
announcement has none, and the miner for its own block. No other call is ever made of a ledger
(`Miners.ledgers_called`), and no block is recorded with an empty hash (`PoW.named_of_calls`).
-/

namespace Quantas

/-- A call of `registerBlock`, by `checkInStrm` or by a miner for the block that it mines. -/
inductive LedgerCall
  | announced (b : AnnouncedBlock)
  | mined (publicId : InterfaceId) (txId : Int) (round : Nat) (parents : List String) (parasite : Bool)
  deriving DecidableEq, Repr

def LedgerCall.registration : LedgerCall → Registration
  | .announced b =>
    { hash := if b.hash = "" then toString b.miner ++ ":" ++ b.parents.headD GENESIS else b.hash
      parents := b.parents
      miner := b.miner
      parasiteFlag := b.parasite }
  | .mined publicId txId round parents parasite =>
    { hash := blockHash publicId txId round
      parents
      miner := publicId
      parasiteFlag := parasite }

theorem LedgerCall.hash_ne_empty (c : LedgerCall) : c.registration.hash ≠ "" := by
  cases c with
  | announced b =>
    show (if b.hash = "" then _ else b.hash) ≠ ""
    split_ifs with hempty
    · intro heq
      have hchars := congrArg String.toList heq
      simp at hchars
    · exact hempty
  | mined publicId txId round parents parasite => exact blockHash_ne_empty publicId txId round

def PoW.called (prefer : PreferCandidate) (calls : List LedgerCall) : PoW :=
  PoW.fresh.registerAll prefer (calls.map LedgerCall.registration)

namespace PoW
variable {prefer : PreferCandidate}

theorem called_concat (calls : List LedgerCall) (c : LedgerCall) : PoW.called prefer (calls ++ [c]) =
    (PoW.called prefer calls).registerBlock prefer c.registration.hash c.registration.parents c.registration.miner
      c.registration.parasiteFlag := by
  unfold called
  rw [List.map_append, List.map_singleton, registerAll_concat]

theorem mem_links_registerAll (calls : List Registration) {link : String × List String}
    (hlink : link ∈ (PoW.fresh.registerAll prefer calls).links) :
    link = (GENESIS, []) ∨ ∃ c ∈ calls, link = (c.hash, c.parents) := by
  induction calls using List.reverseRecOn with
  | nil => exact .inl (List.mem_singleton.mp hlink)
  | append_singleton l c ih =>
    rw [PoW.registerAll_concat, links_registerBlock] at hlink
    split_ifs at hlink
    · exact (ih hlink).imp_right fun ⟨c', hc', heq⟩ => ⟨c', List.mem_append_left _ hc', heq⟩
    · rcases List.mem_append.mp hlink with hlink | hlink
      · exact (ih hlink).imp_right fun ⟨c', hc', heq⟩ => ⟨c', List.mem_append_left _ hc', heq⟩
      · exact .inr ⟨c, List.mem_append_right _ (List.mem_singleton_self c), List.mem_singleton.mp hlink⟩

theorem named_of_calls {calls : List LedgerCall} {r : BlockRecord} (hr : r ∈ (PoW.called prefer calls).blocks) :
    r.hash ≠ "" := by
  rcases mem_links_registerAll _ (List.mem_map_of_mem hr) with heq | ⟨c, hc, heq⟩
  · rw [(Prod.mk.inj heq).1]
    decide
  · obtain ⟨call, -, rfl⟩ := List.mem_map.mp hc
    rw [(Prod.mk.inj heq).1]
    exact call.hash_ne_empty

end PoW

/-! ## The ledgers of a run -/

def PoW.Called (prefer : PreferCandidate) (p : PoW) : Prop := ∃ calls, p = PoW.called prefer calls

theorem PoW.Called.register {prefer : PreferCandidate} {p : PoW} (h : p.Called prefer) (c : LedgerCall) :
    (p.registerBlock prefer c.registration.hash c.registration.parents c.registration.miner
      c.registration.parasiteFlag).Called prefer := by
  obtain ⟨calls, rfl⟩ := h
  exact ⟨calls ++ [c], (PoW.called_concat calls c).symm⟩

namespace Miner
variable {s r : Miner} {env : MiningRound} {prefer : PreferCandidate}

theorem Publishes.pow_eq (h : Publishes s r) : r.pow = s.pow := by
  obtain ⟨_, _, _, rfl⟩ := h
  rfl

theorem called_onPacket (h : s.pow.Called prefer) (pkt : Packet PoWMessage) :
    (s.onPacket prefer pkt).pow.Called prefer := by
  unfold onPacket
  cases pkt.message.content with
  | tx tx =>
    dsimp only
    split_ifs <;> exact h
  | block b =>
    dsimp only
    by_cases hvalid : 0 ≤ b.tx.id ∧ b.tx.submitter ≠ NO_PEER_ID
    · rw [if_pos hvalid]
      exact h.register (.announced b)
    · rw [if_neg hvalid]
      exact h.register (.announced b)

theorem called_beforeMining (h : s.pow.Called env.prefer) : (s.beforeMining env).pow.Called env.prefer := by
  have hread : (s.checkInStrm env.prefer).pow.Called env.prefer :=
    List.foldlRecOn (motive := fun r : Miner => r.pow.Called env.prefer) s.inStream _ h
      fun _ hr pkt _ => called_onPacket hr pkt
  unfold beforeMining submit
  split_ifs
  · rw [(publishes_broadcast _ _).pow_eq]
    exact hread
  · exact hread

theorem called_tryPerformComputation (env : MiningRound) (h : s.pow.Called env.prefer) :
    (s.tryPerformComputation env).pow.Called env.prefer := by
  have hbefore := called_beforeMining h
  rcases tryPerformComputation_cases env s with ⟨-, heq⟩ | ⟨b, -, hblock, heq⟩
  · rw [heq]
    exact hbefore
  obtain ⟨-, hhash, -, -, hafter⟩ := mine_cases hblock
  have hregistered : ((s.beforeMining env).withBlock env.prefer b (s.overrideParents ≠ [])).pow.Called
      env.prefer := by
    show (PoW.registerBlock _ env.prefer b.hash _ _ _).Called env.prefer
    rw [hhash]
    exact hbefore.register (.mined _ b.tx.id env.round b.parents _)
  rw [heq]
  rcases hafter with heq | ⟨record, -, heq⟩
  · rw [heq]
    exact hregistered
  · rw [heq, (publishes_broadcast _ _).pow_eq]
    exact hregistered

end Miner

theorem Miners.ledgers_called (cfg : Miners) {net : MinerSystem} (h : cfg.machine.Reached net) (p : InterfaceId) :
    (net.nodes p).pow.Called cfg.prefer := by
  refine Lib.Lossy.Protocol.invariant (I := fun net : MinerSystem => ∀ p, (net.nodes p).pow.Called cfg.prefer)
    ?_ ?_ ?_ h p
  · exact fun _ => ⟨[], rfl⟩
  · exact fun _ _ hall => hall
  · intro net p arrived hall _ _ _
    exact Lib.Lossy.Net.forall_after (Q := fun _ (s : Miner) => s.pow.Called cfg.prefer)
      (Miner.called_tryPerformComputation (cfg.env p net.time) (hall p)) fun q _ => hall q

end Quantas
