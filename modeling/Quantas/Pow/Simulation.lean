import Quantas.Network.Refinement
import Quantas.Pow.Convergence

/-!
# Miners in the simulator

The runs of miners are those of a network that loses, copies, delays and reorders, and what is said of the block
graph is said of runs in which nobody takes two protocol steps in one round. The simulator keeps to this: on any
topology, with channels that cannot throw and any number of threads, it ends with the peers of such a run
(`simulation_runs_miners`). So the ledgers of a simulation form one tree of blocks, and Bitcoin peers with the same
blocks have the same head.
-/

namespace Quantas

open Abstract

namespace Miner
variable {s r : Miner} {p : InterfaceId} {nbrs : List InterfaceId} {env : MiningRound}

/-! ## A peer and its interface -/

def bare (s : Miner) : Miner := { s with publicId := NO_PEER_ID, neighbors := [], inStream := [], outbox := [] }

/-- The miner with an interface at which the packets `arrived` wait. -/
def wired (p : InterfaceId) (nbrs : List InterfaceId) (arrived : List (Quantas.Packet PoWMessage)) (s : Miner) :
    Miner :=
  { s with publicId := p, neighbors := nbrs, inStream := arrived, outbox := [] }

theorem pow_bare (s : Miner) : s.bare.pow = s.pow := rfl

theorem wired_bare (p : InterfaceId) (nbrs : List InterfaceId) (arrived : List (Quantas.Packet PoWMessage))
    (s : Miner) : s.bare.wired p nbrs arrived = s.wired p nbrs arrived := rfl

/-- The miner has read all that arrived and sends under its own id. -/
structure Signs (p : InterfaceId) (nbrs : List InterfaceId) (s : Miner) : Prop where
  publicId : s.publicId = p
  neighbors : s.neighbors = nbrs
  inStream : s.inStream = []
  source : ∀ pkt ∈ s.outbox, pkt.source = p

theorem Signs.startStep (h : s.Signs p nbrs) (arrived : List (Quantas.Packet PoWMessage)) :
    Miners.startStep s arrived = s.wired p nbrs arrived := by
  obtain ⟨rfl, rfl, hread, -⟩ := h
  unfold Miners.startStep wired
  rw [hread, List.nil_append]

theorem Signs.unicastTo (h : s.Signs p nbrs) (msg : PoWMessage) (dest : InterfaceId) :
    (s.unicastTo msg dest).Signs p nbrs := by
  unfold Miner.unicastTo
  split_ifs
  · refine ⟨h.publicId, h.neighbors, h.inStream, fun pkt hpkt => ?_⟩
    rcases List.mem_append.mp hpkt with hold | hnew
    · exact h.source pkt hold
    · obtain rfl := List.mem_singleton.mp hnew
      exact h.publicId
  · exact h

theorem Signs.networkBroadcast (h : s.Signs p nbrs) (msg : PoWMessage) : (s.networkBroadcast msg).Signs p nbrs :=
  List.foldlRecOn s.neighbors _ h fun _ hr _ _ => hr.unicastTo msg _

theorem Signs.tryRelease (h : s.Signs p nbrs) : s.tryRelease.Signs p nbrs := by
  unfold Miner.tryRelease
  cases s.parasite with
  | none => exact h
  | some f =>
    dsimp only
    split_ifs
    · refine List.foldlRecOn f.releaseMessages _ ?_ fun _ hr msg _ => hr.networkBroadcast msg
      exact ⟨h.publicId, h.neighbors, h.inStream, h.source⟩
    · exact h

theorem Signs.broadcast (h : s.Signs p nbrs) (msg : PoWMessage) : (s.broadcast msg).Signs p nbrs := by
  cases hf : s.parasite with
  | none =>
    rw [broadcast_honest hf]
    exact h.networkBroadcast msg
  | some f =>
    rw [broadcast_attacker hf]
    have hsend : (s.onSend msg .broadcast []).1.Signs p nbrs := by
      unfold onSend
      rw [if_neg (by simp)]
      cases msg.content with
      | tx tx => exact h
      | block b =>
        apply Signs.tryRelease
        refine List.foldlRecOn _ _ ?_ fun _ hr collaborator _ => hr.unicastTo _ collaborator
        exact ⟨h.publicId, h.neighbors, h.inStream, h.source⟩
    split_ifs
    · exact hsend
    · exact hsend.networkBroadcast _

theorem signs_checkInStrm (prefer : PreferCandidate) (arrived : List (Quantas.Packet PoWMessage)) (s : Miner) :
    ((s.wired p nbrs arrived).checkInStrm prefer).Signs p nbrs := by
  refine List.foldlRecOn (motive := fun r : Miner => r.Signs p nbrs) arrived _ ?_ fun r hr pkt _ => ?_
  · exact ⟨rfl, rfl, rfl, fun _ hpkt => absurd hpkt List.not_mem_nil⟩
  · unfold onPacket
    cases pkt.message.content with
    | tx tx =>
      dsimp only
      split_ifs <;> exact ⟨hr.publicId, hr.neighbors, hr.inStream, hr.source⟩
    | block b =>
      dsimp only
      split_ifs <;> exact ⟨hr.publicId, hr.neighbors, hr.inStream, hr.source⟩

theorem signs_tryPerformComputation (env : MiningRound) (arrived : List (Quantas.Packet PoWMessage)) (s : Miner) :
    ((s.wired p nbrs arrived).tryPerformComputation env).Signs p nbrs := by
  have hread : ((s.wired p nbrs arrived).checkInStrm env.prefer).Signs p nbrs :=
    signs_checkInStrm env.prefer arrived s
  have hbefore : ((s.wired p nbrs arrived).beforeMining env).Signs p nbrs := by
    unfold beforeMining submit
    split_ifs
    · apply Signs.broadcast
      exact ⟨hread.publicId, hread.neighbors, hread.inStream, hread.source⟩
    · exact hread
  rcases tryPerformComputation_cases env (s.wired p nbrs arrived) with ⟨-, heq⟩ | ⟨b, -, hblock, heq⟩
  · rw [heq]
    exact hbefore
  · obtain ⟨record, -, hmine⟩ := mine_broadcasts hblock
    rw [heq, hmine]
    apply Signs.broadcast
    exact ⟨hbefore.publicId, hbefore.neighbors, hbefore.inStream, hbefore.source⟩

end Miner

namespace Miners
variable {cfg : Miners}

/-! ## The protocol on a network without channels -/

/-- The miners as `initParameters` leaves them. -/
def Starts (cfg : Miners) (states : InterfaceId → Miner) : Prop := ∀ p, states p = (cfg.init p).bare

def Acts (cfg : Miners) (p : InterfaceId) (now : Nat) (received : List (Quantas.Packet PoWMessage)) (s s' : Miner)
    (pkts : List (Quantas.Packet PoWMessage)) : Prop :=
  p ∈ cfg.peers ∧ ∃ r, r = (s.wired p (cfg.neighbors p) received).tryPerformComputation (cfg.env p now) ∧
    s' = r.bare ∧ pkts = r.outbox

/-- A state of the miners with their histories, after a round in which the peers `acted` have taken a step. -/
structure Shows (cfg : Miners) (now : Nat) (acted : List InterfaceId) (states : InterfaceId → Miner)
    (sent : List (Quantas.Packet PoWMessage)) (net : MinerHistory) : Prop where
  reached : cfg.history.machine.ReachedUnder OncePerRound net
  time : net.time = now
  sent : net.sent = sent
  states : ∀ p, (net.nodes p).1.bare = states p
  signs : ∀ p, (net.nodes p).1.Signs p (cfg.neighbors p)
  rounds : ∀ p, ∀ step ∈ (net.nodes p).2, step.round ≤ now ∧ (step.round = now → p ∈ acted)

theorem shows_of_soup {now : Nat} {acted : List InterfaceId} {states : InterfaceId → Miner}
    {sent : List (Quantas.Packet PoWMessage)} (h : Soup (Starts cfg) (Acts cfg) now acted states sent) :
    ∃ net, cfg.Shows now acted states sent net := by
  induction h with
  | start hstarts =>
    refine ⟨⟨0, cfg.history.initial, []⟩, .start rfl, rfl, rfl, fun p => (hstarts p).symm, fun p => ?_,
      fun _ _ hstep => absurd hstep List.not_mem_nil⟩
    exact ⟨rfl, rfl, rfl, fun _ hpkt => absurd hpkt List.not_mem_nil⟩
  | @nextRound now acted states sent h ih =>
    obtain ⟨net, hreached, rfl, rfl, hstates, hsigns, hrounds⟩ := ih
    have htick : cfg.history.machine.step net .tick = some { net with time := net.time + 1 } := rfl
    refine ⟨_, .next (e := .tick) hreached trivial htick, rfl, rfl, hstates, hsigns, fun p step hstep => ?_⟩
    have hold := (hrounds p step hstep).1
    exact ⟨hold.trans (Nat.le_succ _), fun heq => absurd (hold.trans_eq' heq) (Nat.not_succ_le_self _)⟩
  | @act now acted states p sent received pkts s' h hp hreceived hacts ih =>
    obtain ⟨net, hreached, rfl, rfl, hstates, hsigns, hrounds⟩ := ih
    obtain ⟨hmember, r, hr, rfl, rfl⟩ := hacts
    have hguard : OncePerRound net (.react p received) := by
      intro step hstep heq
      exact hp ((hrounds p step hstep).2 heq)
    have hstart : Miners.startStep (net.nodes p).1 received = (states p).wired p (cfg.neighbors p) received := by
      rw [(hsigns p).startStep, ← hstates p, Miner.wired_bare]
    have hstep : cfg.history.machine.step net (.react p received) =
        some (net.after p (cfg.history.react p net.time received (net.nodes p))) :=
      if_pos ⟨hmember, hreceived⟩
    have hreact := Miners.history_react cfg p net.time received (net.nodes p)
    rw [hstart, ← hr] at hreact
    refine ⟨_, .next hreached hguard hstep, rfl, ?_, fun q => ?_, fun q => ?_, fun q => ?_⟩
    · rw [hreact]
      rfl
    · rw [hreact]
      by_cases hq : q = p
      · subst hq
        rw [Lib.Lossy.Net.after_self, Function.update_self]
      · rw [Lib.Lossy.Net.after_other hq, Function.update_of_ne hq]
        exact hstates q
    · rw [hreact]
      refine Lib.Lossy.Net.forall_after (Q := fun q (s : Miner × List MinerStep) =>
        s.1.Signs q (cfg.neighbors q)) ?_ (fun q _ => hsigns q) q
      rw [hr]
      exact Miner.signs_tryPerformComputation _ _ _
    · rw [hreact]
      intro step hstep
      by_cases hq : q = p
      · subst hq
        rw [Lib.Lossy.Net.after_self] at hstep
        rcases List.mem_append.mp hstep with hold | hnew
        · exact ⟨(hrounds q step hold).1, fun _ => List.mem_cons_self⟩
        · obtain rfl := List.mem_singleton.mp hnew
          exact ⟨le_rfl, fun _ => List.mem_cons_self⟩
      · rw [Lib.Lossy.Net.after_other hq] at hstep
        obtain ⟨hle, hacted⟩ := hrounds q step hstep
        exact ⟨hle, fun heq => List.mem_cons_of_mem p (hacted heq)⟩

/-! ## The simulation -/

def neighborsOn (net : Network) (p : InterfaceId) : List InterfaceId :=
  match (List.range net.size).find? fun i => (net.peers i).publicId = p with
  | some i => (net.peers i).neighbors
  | none => []

def onNetwork (cfg : Miners) (net : Network) : Miners :=
  { cfg with
    peers := (List.range net.size).map fun i => (net.peers i).publicId
    neighbors := neighborsOn net }

/-- `tryPerformComputation` of the peer at a position; the draws are those of `cfg`. -/
def performComputation (cfg : Miners) {net : Network} : Algorithm net Miner PoWMessage := fun _ now own =>
  let s := own.state.wired own.publicId own.neighbors (own.inStream.map (·.toPacket))
  let r := s.tryPerformComputation (cfg.env own.publicId now)
  let own := { own with state := r, inStream := [] }
  { sends := r.outbox.map fun pkt => { own, msg := pkt.message, dest := pkt.target }, own }

def initialWorld (cfg : Miners) (net : Network) (params : ChannelParams) (lastRound : Nat) :
    World net Miner PoWMessage :=
  World.initial net (fun i => (cfg.onNetwork net).init (net.peers i).publicId) params lastRound

theorem neighborsOn_publicId {net : Network} (h : Addressed net) {i : Nat} (hi : i < net.size) :
    neighborsOn net (net.peers i).publicId = (net.peers i).neighbors := by
  unfold neighborsOn
  cases hfind : (List.range net.size).find? fun j => (net.peers j).publicId = (net.peers i).publicId with
  | none =>
    have hno := List.find?_eq_none.mp hfind i (List.mem_range.mpr hi)
    exact absurd (decide_eq_true rfl) hno
  | some j =>
    have hj : j < net.size := List.mem_range.mp (List.mem_of_find?_eq_some hfind)
    have hsame : (net.peers j).publicId = (net.peers i).publicId := by simpa using List.find?_some hfind
    obtain rfl := h.injective j i hj hi hsame
    rfl

section simulation
variable {t : TopologyConfig} {order : Equiv.Perm (Fin t.size)}

theorem performComputation_conforms (cfg : Miners) (i : Nat) (hi : i < (Network.initNetwork t order).size)
    (now : Nat) (own : Own (Network.initNetwork t order) i Miner PoWMessage)
    (hsettled : Abstract.Settled (Network.initNetwork t order) i own) :
    Conforms (Network.initNetwork t order) Miner.bare (Acts (cfg.onNetwork (Network.initNetwork t order))) now own
      ((cfg.onNetwork (Network.initNetwork t order)).performComputation i now own) := by
  have hneighbors := neighborsOn_publicId (addressed_initNetwork t order) hi
  obtain ⟨r, hr⟩ : ∃ r, r = (own.state.wired own.publicId own.neighbors
      (own.inStream.map (·.toPacket))).tryPerformComputation
        ((cfg.onNetwork (Network.initNetwork t order)).env own.publicId now) := ⟨_, rfl⟩
  unfold performComputation
  dsimp only
  rw [← hr]
  refine ⟨⟨hsettled.publicId, hsettled.neighbors, hsettled.inBound, hsettled.outBound⟩,
    .inr ⟨rfl, r.outbox, ⟨?_, r, ?_, rfl, rfl⟩, ?_⟩⟩
  · exact List.mem_map.mpr ⟨i, List.mem_range.mpr hi, rfl⟩
  · rw [Miner.wired_bare, hr, hsettled.publicId, hsettled.neighbors, ← hneighbors]
    rfl
  · intro send hsend _
    obtain ⟨pkt, hpkt, rfl⟩ := List.mem_map.mp hsend
    dsimp only
    have hsigns : r.Signs own.publicId own.neighbors := hr ▸ Miner.signs_tryPerformComputation _ _ _
    rw [← hsigns.source pkt hpkt]
    exact hpkt

/-- **A simulation of miners is a run of the miners.** On any topology, with channels that cannot throw and any
number of threads, the state in which a simulation ends holds the peers of a run in which nobody takes two
protocol steps in one round, and no packets but those that they have sent. So the ledgers of all peers agree on the
parents of a block, and two Bitcoin peers whose ledgers have the same blocks have the same best block. -/
theorem simulation_runs_miners (cfg : Miners) {params : ChannelParams}
    (hparams : Channel.Drawable (.ofParams params)) (lastRound : Nat) {thread_count : Nat}
    (hthreads : 0 < thread_count) (rounds : List Abstract.Draws)
    {s : BS.Pool (World (Network.initNetwork t order) Miner PoWMessage)}
    (hs : (BS.poolMachine thread_count (Simulation.script thread_count t.size
        (cfg.onNetwork (Network.initNetwork t order)).performComputation (fun _ peers => peers) 1 rounds)
      (cfg.initialWorld (Network.initNetwork t order) params lastRound)).Reached s)
    (hfinished : s.Finished) :
    (∃ net, (cfg.onNetwork (Network.initNetwork t order)).history.machine.ReachedUnder OncePerRound net ∧
      net.time = rounds.length ∧ ∀ i < t.size,
        (net.nodes ((Network.initNetwork t order).peers i).publicId).1.bare = (s.world.peers i).state.bare ∧
        (∀ pkt ∈ (s.world.peers i).inStream, Bound (Network.initNetwork t order) net.sent i pkt) ∧
        ∀ e ∈ ((Network.initNetwork t order).peers i).inBoundChannels,
          ∀ pkt ∈ (s.world.lines e.2.handle).channel.packetQueue, Bound (Network.initNetwork t order) net.sent i pkt) ∧
    (∀ i < t.size, ∀ j < t.size, ∀ b ∈ (s.world.peers i).state.pow.blocks,
      ∀ c ∈ (s.world.peers j).state.pow.blocks, b.hash = c.hash → b.parents = c.parents) ∧
    (cfg.prefer = PoWBitcoin.preferCandidate → ∀ i < t.size, ∀ j < t.size,
      (∀ x, ((s.world.peers i).state.pow.findBlock x).isSome ↔ ((s.world.peers j).state.pow.findBlock x).isSome) →
      (s.world.peers i).state.pow.bestHash = (s.world.peers j).state.pow.bestHash) := by
  have hstarts : Starts (cfg.onNetwork (Network.initNetwork t order))
      fun p => ((cfg.onNetwork (Network.initNetwork t order)).init p).bare := fun _ => rfl
  obtain ⟨_, states, sent, hsoup, htracks⟩ := Tracks.simulation hstarts
    (tracks_initial (Network.initNetwork t order) Miner.bare hparams lastRound fun _ _ => rfl)
    (performComputation_conforms cfg) hthreads rounds hs hfinished
  obtain ⟨net, hnet⟩ := shows_of_soup hsoup
  have hsize : (Network.initNetwork t order).size = t.size := Network.initNetwork_size order
  have hstate : ∀ i < t.size, (net.nodes ((Network.initNetwork t order).peers i).publicId).1.bare =
      (s.world.peers i).state.bare := fun i hi => (hnet.states _).trans (htracks.state i (hsize ▸ hi))
  have hpow : ∀ i < t.size, (net.nodes ((Network.initNetwork t order).peers i).publicId).1.pow =
      (s.world.peers i).state.pow := by
    intro i hi
    rw [← Miner.pow_bare, hstate i hi, Miner.pow_bare]
  obtain ⟨run, hpasses⟩ := hnet.reached.exists_passes
  obtain ⟨tree, hinv, -⟩ := exists_tree _ hpasses
  refine ⟨⟨net, hnet.reached, hnet.time, fun i hi => ⟨hstate i hi, ?_⟩⟩, ?_, fun hcfg => ?_⟩
  · rw [hnet.sent]
    exact ⟨htracks.arrived i (hsize ▸ hi), htracks.queued i⟩
  · intro i hi j hj b hb c hc heq
    rw [← hpow i hi] at hb
    rw [← hpow j hj] at hc
    have hparents : ∀ p, ∀ b ∈ (net.nodes p).1.pow.blocks, b.parents = tree.parentsOf b.hash := by
      exact fun p b hb => ((hinv.nodes p).ledger _ (List.mem_map.mpr ⟨b, hb, rfl⟩)).2
    rw [hparents _ b hb, hparents _ c hc, heq]
  · intro i hi j hj hsame
    have hreached := hnet.reached.mono fun _ _ (_ : OncePerRound _ _) => trivial
    have hlongest : ∀ i < t.size, ∃ R, (∀ x, ((s.world.peers i).state.pow.findBlock x).isSome ↔ x ∈ R) ∧
        tree.Longest R (s.world.peers i).state.pow.bestHash := by
      intro i hi
      have hreplays := replays _ hreached ((Network.initNetwork t order).peers i).publicId
      rw [hpow i hi] at hreplays
      obtain ⟨hsettled, hlongest⟩ := PoW.Replays.longest (hcfg ▸ hreplays) fun b hb => hinv.heard hb
      exact ⟨_, hsettled.toHolds.mem_iff, hlongest⟩
    obtain ⟨R, hR, hbest⟩ := hlongest i hi
    obtain ⟨R', hR', hbest'⟩ := hlongest j hj
    have hRR' : R = R' := by
      ext x
      rw [← hR, ← hR', hsame]
    rw [hRR'] at hbest
    exact hbest.unique hbest'

end simulation

theorem simulation_runs_miners_triangle :
    ∃ s, (BS.poolMachine 2 (Simulation.script 2 Network.triangle.size
        (oneAttacker.onNetwork (Network.initNetwork Network.triangle (Equiv.refl _))).performComputation
          (fun _ peers => peers) 1 [.middle, .middle])
        (oneAttacker.initialWorld (Network.initNetwork Network.triangle (Equiv.refl _)) {} 5)).Reached s ∧
      s.Finished ∧ ∀ i < 3, ∀ j < 3, ∀ b ∈ (s.world.peers i).state.pow.blocks,
        ∀ c ∈ (s.world.peers j).state.pow.blocks, b.hash = c.hash → b.parents = c.parents := by
  have htwo : 0 < 2 := by decide
  have hscript := parallel_script htwo Network.triangle.size
    (separate_initNetwork Network.triangle (Equiv.refl _))
    (oneAttacker.onNetwork (Network.initNetwork Network.triangle (Equiv.refl _))).performComputation
    (fun _ peers => peers) 1 [.middle, .middle]
  obtain ⟨s, hs, hfinished⟩ := BS.Pool.exists_finished htwo World.ext_cells hscript
  have hparams : Channel.Drawable (.ofParams {}) := ⟨by decide, by decide⟩
  obtain ⟨-, hparents, -⟩ := simulation_runs_miners oneAttacker hparams 5 htwo
    [.middle, .middle] hs hfinished
  exact ⟨s, hs, hfinished, hparents⟩

end Miners

end Quantas
