import Quantas.Network.Refinement
import Quantas.Raft.LiveMajority
import Quantas.Raft.Majority

/-!
# Raft in the simulator

`RaftPeer::performComputation` drains the in-stream through the handlers and ticks. On a complete network, with
channels of any description that cannot throw, and whatever threads run the rounds, the peers' states and the
packets of a simulation are those of the system of peers (`simulation_runs_raft`); so what holds in every state of
that system holds in every simulation.
-/

namespace Quantas.Raft

open Abstract

/-! ## The peer -/

/-- A peer of the simulation, with the draws of `maybeCrash` and of the handlers for each round. -/
structure RaftPeer where
  consensus : RaftConsensus
  crashOdds : ℚ := 0
  crashRecoveryDelay : Nat := 0
  crashDraw : Nat → ℚ
  draws : Nat → List Nat

def collect (handler : Local → Local) (s : Local) : Local :=
  let r := handler { s with outbox := [] }
  { r with outbox := s.outbox ++ r.outbox }

/-- The loop over the in-stream, and the `tick` behind it. -/
def drainAndTick (ctx : Ctx) (inStream : List Message) (s : Local) : Local :=
  collect (tick ctx) (inStream.foldl (fun s msg => collect (onMessage ctx msg) s) s)

section peer
variable {net : Network} {i : Nat}

def maybeCrash (now : Nat) (own : Own net i RaftPeer Message) : Own net i RaftPeer Message :=
  if own.state.crashOdds ≤ 0 ∨ own.state.crashRecoveryDelay = 0 then own
  else if trueWithProbability own.state.crashOdds (own.state.crashDraw now) then
    { own with crashRecoveryRound := now + own.state.crashRecoveryDelay }
  else own

/-- What a handler reads: the interface of its peer, the committee, and the round. -/
def ownCtx (members : List InterfaceId) (now : Nat) (own : Own net i RaftPeer Message) : Ctx where
  self := own.publicId
  neighbors := own.neighbors
  members := members
  round := now

/-- The state of a peer is read back from a send only if the send throws. -/
def performComputation (members : List InterfaceId) : Algorithm net RaftPeer Message := fun _ now own =>
  let own := maybeCrash now own
  if own.crashRecoveryRound > now then { sends := [], own }
  else
    let r := drainAndTick (ownCtx members now own) (own.inStream.map (·.message))
      { own.state.consensus with outbox := [], draws := own.state.draws now }
    let own := { own with state := { own.state with consensus := r.toRaftConsensus }, inStream := [] }
    { sends := r.outbox.map fun pkt => { own, msg := pkt.message, dest := pkt.target }, own }

end peer

/-! ## The start -/

/-- The parameters of `initParameters` that are not those of `Config`. -/
structure CrashParameters where
  crash_count : Int := 0
  crash_odds : ℚ := 0
  crash_recovery_round : Nat := 2 ^ 64 - 1
  crash_recovery_delay : Nat := 0

/-- The draws of the peer with each id, the one of the constructor's `resetTimer` first. -/
structure PeerDraws where
  jitter : InterfaceId → Int
  crash : InterfaceId → Nat → ℚ
  handlers : InterfaceId → Nat → List Nat

/-- The positions of the peers that are down from the start: those with the lowest ids. -/
def crashedPositions (net : Network) (crash : CrashParameters) : List Nat :=
  ((List.range net.size).insertionSort fun i j => (net.peers i).publicId ≤ (net.peers j).publicId).take
    (min net.size crash.crash_count.toNat)

/-- The peer with id `p` after `initParameters`. -/
def newPeer (cfg : Config) (crash : CrashParameters) (draws : PeerDraws) (p : InterfaceId) : RaftPeer where
  consensus := initialPeer cfg (draws.jitter p)
  crashOdds := max 0 (min crash.crash_odds 1)
  crashRecoveryDelay := crash.crash_recovery_delay
  crashDraw := draws.crash p
  draws := draws.handlers p

def initialWorld (net : Network) (cfg : Config) (crash : CrashParameters) (draws : PeerDraws) (params : ChannelParams)
    (lastRound : Nat) : World net RaftPeer Message :=
  let w : World net RaftPeer Message :=
    World.initial net (fun i => newPeer cfg crash draws (net.peers i).publicId) params lastRound
  { w with peers := fun i => { w.peers i with
      crashRecoveryRound := if i ∈ crashedPositions net crash then crash.crash_recovery_round else 0 } }

/-! ## A computation is a run of the system -/

namespace System
variable {cfg : Config} {sys : System} {p : InterfaceId} {s : Local}

theorem after_collect (handler : Local → Local) :
    (sys.after p s).after p (handler ((sys.after p s).start p s.draws)) = sys.after p (collect handler s) := by
  have hstart : (sys.after p s).start p s.draws = { s with outbox := [] } := by
    unfold start
    rw [after_self]
  rw [hstart]
  unfold after collect
  dsimp only
  rw [Function.update_idem, List.append_assoc]

theorem drain_reached (hp : p ∈ cfg.committee.members) {received : List (Packet Message)}
    (hreceived : ∀ pkt ∈ received, pkt ∈ sys.sent ∧ pkt.target = p) (h : (machine cfg).Reached (sys.after p s)) :
    (machine cfg).Reached (sys.after p
      ((received.map (·.message)).foldl (fun s msg => collect (onMessage (sys.ctx cfg p) msg) s) s)) := by
  induction received generalizing s with
  | nil => exact h
  | cons pkt received ih =>
    obtain ⟨hsent, htarget⟩ := hreceived pkt List.mem_cons_self
    apply ih fun pkt' hpkt' => hreceived pkt' (List.mem_cons_of_mem pkt hpkt')
    have hguard : p ∈ cfg.committee.members ∧ pkt ∈ (sys.after p s).sent ∧ pkt.target = p :=
      ⟨hp, List.mem_append_left _ hsent, htarget⟩
    have hstep : step cfg (sys.after p s) (.receive p pkt s.draws) =
        some (sys.after p (collect (onMessage (sys.ctx cfg p) pkt.message) s)) := by
      rw [step, if_pos hguard, ← after_collect]
      rfl
    exact .next h trivial (e := .receive p pkt s.draws) hstep

/-- **A computation** takes the system through one event for each message and one for the tick. -/
theorem drainAndTick_reached (h : (machine cfg).Reached sys) (hp : p ∈ cfg.committee.members)
    {received : List (Packet Message)} (hreceived : ∀ pkt ∈ received, pkt ∈ sys.sent ∧ pkt.target = p)
    (draws : List Nat) : (machine cfg).Reached (sys.after p
      (drainAndTick (sys.ctx cfg p) (received.map (·.message)) (sys.start p draws))) := by
  have hstart : (machine cfg).Reached (sys.after p (sys.start p draws)) := by
    rw [after_start]
    exact h
  have hdrain := drain_reached hp hreceived hstart
  unfold drainAndTick
  generalize (received.map (·.message)).foldl (fun s msg => collect (onMessage (sys.ctx cfg p) msg) s)
    (sys.start p draws) = s at hdrain ⊢
  have hstep : step cfg (sys.after p s) (.tick p s.draws) =
      some (sys.after p (collect (tick (sys.ctx cfg p)) s)) := by
    rw [step, if_pos hp, ← after_collect]
    rfl
  exact .next hdrain trivial (e := .tick p s.draws) hstep

/-! ## The protocol on a network without channels -/

def Starts (cfg : Config) (states : InterfaceId → RaftConsensus) : Prop :=
  ∀ p, ∃ jitter, 0 ≤ jitter ∧ jitter < 5 ∧ states p = initialPeer cfg jitter

def Acts (cfg : Config) (p : InterfaceId) (now : Nat) (received : List (Packet Message)) (s s' : RaftConsensus)
    (pkts : List (Packet Message)) : Prop :=
  p ∈ cfg.committee.members ∧ ∃ draws r,
    r = drainAndTick ⟨p, cfg.committee.members.filter (· ≠ p), cfg.committee.members, now⟩
      (received.map (·.message)) { s with outbox := [], draws } ∧
    s' = r.toRaftConsensus ∧ pkts = r.outbox

theorem soup_reached {now : Nat} {acted : List InterfaceId} {states : InterfaceId → RaftConsensus}
    {sent : List (Packet Message)} (h : Soup (Starts cfg) (Acts cfg) now acted states sent) :
    (machine cfg).Reached ⟨now, states, sent⟩ := by
  induction h with
  | start hstarts => exact .start ⟨rfl, rfl, hstarts⟩
  | nextRound h ih => exact .next ih trivial (e := .nextRound) rfl
  | act h _ hreceived hacts ih =>
    obtain ⟨hp, draws, r, rfl, rfl, rfl⟩ := hacts
    exact drainAndTick_reached ih hp hreceived draws

end System

/-! ## The simulation -/

theorem collect_sends {ctx : Ctx} {handler : Local → Local}
    (hhandler : ∀ s, ∃ l, (handler s).outbox = s.outbox ++ l ∧ ∀ pkt ∈ l, Genuine ctx pkt) {s : Local}
    (hs : ∀ pkt ∈ s.outbox, Genuine ctx pkt) : ∀ pkt ∈ (collect handler s).outbox, Genuine ctx pkt := by
  intro pkt hpkt
  obtain ⟨l, hl, hgenuine⟩ := hhandler { s with outbox := [] }
  rcases List.mem_append.mp hpkt with hold | hnew
  · exact hs pkt hold
  · rw [hl] at hnew
    exact hgenuine pkt hnew

theorem drainAndTick_sends (ctx : Ctx) (inStream : List Message) {s : Local}
    (hs : ∀ pkt ∈ s.outbox, Genuine ctx pkt) :
    ∀ pkt ∈ (drainAndTick ctx inStream s).outbox, Genuine ctx pkt := by
  apply collect_sends (System.tick_sends ctx)
  induction inStream generalizing s with
  | nil => exact hs
  | cons msg inStream ih => exact ih (collect_sends (System.onMessage_sends ctx msg) hs)

section simulation
variable {t : TopologyConfig} (htype : t.type = .complete) (haccepts : TopologyPlanner.Accepts t)
  {order : Equiv.Perm (Fin t.size)} {cfg : Config} (hcommittee : cfg.committee = .ofSize t.size)

include htype haccepts hcommittee in
theorem performComputation_conforms (i : Nat) (hi : i < (Network.initNetwork t order).size) (now : Nat)
    (own : Own (Network.initNetwork t order) i RaftPeer Message)
    (hsettled : Abstract.Settled (Network.initNetwork t order) i own) :
    Conforms (Network.initNetwork t order) RaftPeer.consensus (System.Acts cfg) now own
      (performComputation cfg.committee.members i now own) := by
  have hcrash : maybeCrash now own = { own with crashRecoveryRound := (maybeCrash now own).crashRecoveryRound } := by
    unfold maybeCrash
    split_ifs <;> rfl
  generalize (maybeCrash now own).crashRecoveryRound = recovery at hcrash
  unfold performComputation
  rw [hcrash]
  dsimp only
  by_cases hdown : recovery > now
  · rw [if_pos hdown]
    exact ⟨⟨hsettled.publicId, hsettled.neighbors, hsettled.inBound, hsettled.outBound⟩, .inl ⟨rfl, rfl, rfl⟩⟩
  rw [if_neg hdown]
  rw [Network.initNetwork_size] at hi
  have hctx : ownCtx cfg.committee.members now { own with crashRecoveryRound := recovery } =
      ⟨((Network.initNetwork t order).peers i).publicId,
        cfg.committee.members.filter (· ≠ ((Network.initNetwork t order).peers i).publicId),
        cfg.committee.members, now⟩ := by
    unfold ownCtx
    dsimp only
    rw [hsettled.publicId, hsettled.neighbors, neighbors_complete htype haccepts order hi, hcommittee]
  rw [hctx]
  obtain ⟨r, hr⟩ : ∃ r, r = drainAndTick ⟨((Network.initNetwork t order).peers i).publicId,
      cfg.committee.members.filter (· ≠ ((Network.initNetwork t order).peers i).publicId), cfg.committee.members, now⟩
      (own.inStream.map (·.message)) { own.state.consensus with outbox := [], draws := own.state.draws now } :=
    ⟨_, rfl⟩
  rw [← hr]
  refine ⟨⟨hsettled.publicId, hsettled.neighbors, hsettled.inBound, hsettled.outBound⟩,
    .inr ⟨rfl, r.outbox, ⟨?_, own.state.draws now, r, ?_, rfl, rfl⟩, ?_⟩⟩
  · rw [hcommittee]
    exact publicId_mem_committee order hi
  · rw [hr, List.map_map]
    rfl
  · intro send hsend _
    obtain ⟨pkt, hpkt, rfl⟩ := List.mem_map.mp hsend
    dsimp only
    have hsource : pkt.source = ((Network.initNetwork t order).peers i).publicId :=
      (drainAndTick_sends _ _ (fun _ h => absurd h List.not_mem_nil) pkt (hr ▸ hpkt)).source
    rw [hsettled.publicId, ← hsource]
    exact hpkt

include htype haccepts hcommittee

/-- **A simulation of Raft is a run of Raft.** On a complete network, with channels that cannot throw, peers that
crash as their parameters and draws say, and any number of threads: the state in which a simulation ends holds
the peers of a state that the system reaches in as many rounds, and no packets but those that the system has sent. A
request that some peer has committed is known to more than half of the peers. -/
theorem simulation_runs_raft (crash : CrashParameters) {draws : PeerDraws}
    (hjitter : ∀ p, 0 ≤ draws.jitter p ∧ draws.jitter p < 5) {params : ChannelParams}
    (hparams : Channel.Drawable (.ofParams params)) (lastRound : Nat) {thread_count : Nat}
    (hthreads : 0 < thread_count) (rounds : List Abstract.Draws)
    {s : BS.Pool (World (Network.initNetwork t order) RaftPeer Message)}
    (hs : (BS.poolMachine thread_count
      (Simulation.script thread_count t.size (performComputation cfg.committee.members) (fun _ peers => peers) 1 rounds)
      (initialWorld (Network.initNetwork t order) cfg crash draws params lastRound)).Reached s)
    (hfinished : s.Finished) :
    (∃ sys, (machine cfg).Reached sys ∧ sys.round = rounds.length ∧ ∀ i < t.size,
      sys.peers ((Network.initNetwork t order).peers i).publicId = (s.world.peers i).state.consensus ∧
      (∀ pkt ∈ (s.world.peers i).inStream, Bound (Network.initNetwork t order) sys.sent i pkt) ∧
      ∀ e ∈ ((Network.initNetwork t order).peers i).inBoundChannels,
        ∀ pkt ∈ (s.world.lines e.2.handle).channel.packetQueue, Bound (Network.initNetwork t order) sys.sent i pkt) ∧
    ∀ i < t.size, ∀ key ∈ (s.world.peers i).state.consensus.committedRequests,
      t.size / 2 < ((List.range t.size).filter fun j =>
        key ∈ (s.world.peers j).state.consensus.knownRequests).length := by
  have hstarts : System.Starts cfg fun p => initialPeer cfg (draws.jitter p) := fun p =>
    ⟨draws.jitter p, (hjitter p).1, (hjitter p).2, rfl⟩
  have hinitial : Tracks (Network.initNetwork t order) RaftPeer.consensus (fun p => initialPeer cfg (draws.jitter p)) []
      (World.initial (Network.initNetwork t order)
        (fun i => newPeer cfg crash draws ((Network.initNetwork t order).peers i).publicId) params lastRound :
        World (Network.initNetwork t order) RaftPeer Message) :=
    tracks_initial _ _ hparams lastRound fun _ _ => rfl
  obtain ⟨_, states, sent, hsoup, htracks⟩ := Tracks.simulation hstarts (hinitial.withRecovery _)
    (performComputation_conforms htype haccepts hcommittee) hthreads rounds hs hfinished
  have hreached := System.soup_reached hsoup
  have hsize : (Network.initNetwork t order).size = t.size := Network.initNetwork_size order
  rw [← hsize]
  refine ⟨⟨_, hreached, rfl, fun i hi => ⟨htracks.state i hi, htracks.arrived i hi, htracks.queued i⟩⟩, ?_⟩
  intro i hi key hkey
  rw [← htracks.state i hi] at hkey
  have hmajority : cfg.committee.size / 2 <
      (cfg.committee.members.filter fun q => key ∈ (states q).knownRequests).length :=
    (((System.majorityInv_of_reached hreached).peers _).committed key hkey).majority
  rw [hcommittee, Committee.size_ofSize, ← ((perm_committee order).filter _).length_eq, List.filter_map,
    List.length_map] at hmajority
  rw [hsize]
  refine hmajority.trans_eq (congrArg List.length (List.filter_congr fun j hj => ?_))
  have hstate := htracks.state j (hsize ▸ List.mem_range.mp hj)
  exact decide_eq_decide.mpr (by rw [hstate])

end simulation

/-- All draws zero. -/
def PeerDraws.zero : PeerDraws where
  jitter _ := 0
  crash _ _ := 0
  handlers _ _ := []

theorem simulation_runs_raft_triangle :
    ∃ s, (BS.poolMachine 2
        (Simulation.script 2 Network.triangle.size (performComputation (Committee.ofSize 3).members)
          (fun _ peers => peers) 1 [.middle, .middle])
        (initialWorld (Network.initNetwork Network.triangle (Equiv.refl _)) { committee := .ofSize 3 }
          { crash_count := 1, crash_recovery_round := 2 } .zero {} 5)).Reached s ∧ s.Finished ∧
      ∃ sys, (machine { committee := .ofSize 3 }).Reached sys ∧ sys.round = 2 ∧
        ∀ i : Nat, i < 3 → sys.peers i = (s.world.peers i).state.consensus := by
  have htwo : 0 < 2 := by decide
  have hscript := parallel_script htwo Network.triangle.size
    (separate_initNetwork Network.triangle (Equiv.refl _)) (performComputation (Committee.ofSize 3).members)
    (fun _ peers => peers) 1 [.middle, .middle]
  obtain ⟨s, hs, hfinished⟩ := BS.Pool.exists_finished htwo World.ext_cells hscript
  refine ⟨s, hs, hfinished, ?_⟩
  have htype : Network.triangle.type = .complete := rfl
  have haccepts : TopologyPlanner.Accepts Network.triangle := by decide
  have hcommittee : ({ committee := .ofSize 3 } : Config).committee = .ofSize Network.triangle.size := rfl
  have hjitter : ∀ p, 0 ≤ PeerDraws.zero.jitter p ∧ PeerDraws.zero.jitter p < 5 := fun _ =>
    ⟨le_refl (0 : Int), show (0 : Int) < 5 by decide⟩
  obtain ⟨⟨sys, hreached, hround, hpeers⟩, -⟩ := simulation_runs_raft htype haccepts hcommittee
    { crash_count := 1, crash_recovery_round := 2 } hjitter ⟨by decide, by decide⟩ 5 htwo
    [.middle, .middle] hs hfinished
  refine ⟨sys, hreached, hround, fun i hi => ?_⟩
  rw [← (hpeers i hi).1, Network.initNetwork_publicId]
  unfold Network.place
  rw [dif_pos (show i < Network.triangle.size from hi)]
  rfl

end Quantas.Raft
