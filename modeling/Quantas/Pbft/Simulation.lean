import Quantas.Network.Refinement
import Quantas.Pbft.Lockstep
import Quantas.Pbft.Nested

/-!
# PBFT in the simulator

`PBFTPeer::performComputation` files what has arrived and runs the phase with all calls at the ends of phases. On a
complete network, with channels of any description that cannot throw, and whatever threads run the rounds, the
replicas of a simulation are those of the system of replicas (`simulation_runs_pbft`), equivocating ones included.
-/

namespace Quantas.Pbft

open Abstract

/-! ## The peer -/

/-- Enough fuel for the calls of a step, by `runPhase_isSome`. -/
def callsEnough (ctx : Ctx) (s : PBFTConsensus) : Nat := 3 * (openProposals ctx s).card + 4

theorem runPhase_isSome (ctx : Ctx) (s : Local) : ∃ r, runPhase ctx (callsEnough ctx s.toPBFTConsensus) s = some r := by
  have hends : EndsWithin ctx s (callsEnough ctx s.toPBFTConsensus) (openProposals ctx s.toPBFTConsensus).card := by
    unfold callsEnough
    by_cases hself : ctx.self = leaderFor ctx s.view
    · exact (endsWithin_leader s hself).mono (by omega) le_rfl
    · have hleft : callsLeft ctx s ≤ 3 * (openProposals ctx s.toPBFTConsensus).card + 3 := by
        unfold callsLeft
        split <;> omega
      exact (endsWithin_backup s hself).mono (by omega) le_rfl
  obtain ⟨r, hr, -⟩ := hends
  exact ⟨r, hr _ le_rfl⟩

section peer
variable {net : Network} {i : Nat} (cfg : Config)

def ownCtx (now : Nat) (own : Own net i PBFTConsensus Message) : Ctx where
  self := own.publicId
  members := cfg.committee.members
  round := now
  fault := cfg.fault own.publicId
  digestOf := cfg.digestOf
  computeStateDigest := cfg.computeStateDigest

def filed (now : Nat) (own : Own net i PBFTConsensus Message) : Local :=
  (own.inStream.map (·.message)).foldl (fun s msg => onMessage (ownCtx cfg now own) msg s)
    { own.state with outbox := [] }

/-- `PBFTPeer::performComputation`. The state of a replica is read back from a send only if the send throws. -/
def peerComputation : Algorithm net PBFTConsensus Message := fun _ now own =>
  match performComputation (ownCtx cfg now own) (callsEnough (ownCtx cfg now own) (filed cfg now own).toPBFTConsensus)
      (own.inStream.map (·.message)) { own.state with outbox := [] } with
  | none => { sends := [], own }
  | some r =>
    let own := { own with state := r.toPBFTConsensus, inStream := [] }
    { sends := r.outbox.map fun pkt => { own, msg := pkt.message, dest := pkt.target }, own }

end peer

/-- The faults that `initParameters` attaches: the first `byzantine_count` replicas of the vector equivocate between
every other id and the rest. -/
def initFaults (net : Network) (byzantine_count : Nat) (p : InterfaceId) : Option EquivocateFault :=
  let members := (Committee.ofSize net.size).members.zipIdx
  if p ∈ ((List.range net.size).take byzantine_count).map fun i => (net.peers i).publicId then
    some ⟨(members.filter (·.2 % 2 = 0)).map (·.1), (members.filter (·.2 % 2 ≠ 0)).map (·.1)⟩
  else none

/-! ## What a step sends -/

theorem runPhase_sends {ctx : Ctx} {fuel : Nat} {s r : Local} (hr : runPhase ctx fuel s = some r)
    (hs : ∀ pkt ∈ s.outbox, pkt.source = ctx.self) : ∀ pkt ∈ r.outbox, pkt.source = ctx.self := by
  induction fuel generalizing s with
  | zero => cases hr
  | succ fuel ih =>
    have hcall : ∀ pkt ∈ (call ctx s).1.outbox, pkt.source = ctx.self := by
      intro pkt hpkt
      obtain ⟨ms, hemits, -⟩ := call_steps ctx s
      rw [hemits.outbox] at hpkt
      rcases List.mem_append.mp hpkt with hold | hnew
      · exact hs pkt hold
      · obtain ⟨m, -, hmem⟩ := List.mem_flatMap.mp hnew
        exact (of_mem_packets hmem).1
    rw [runPhase] at hr
    split_ifs at hr
    · exact ih hr hcall
    · obtain rfl := Option.some.inj hr
      exact hcall

theorem receive_outbox (ctx : Ctx) (ms : List Message) (s : Local) :
    (ms.foldl (fun s msg => onMessage ctx msg s) s).outbox = s.outbox := by
  induction ms generalizing s with
  | nil => rfl
  | cons m ms ih =>
    obtain ⟨-, -, -, houtbox, -⟩ := onMessage_same ctx m s
    exact (ih _).trans houtbox

/-! ## The protocol on a network without channels -/

namespace System
variable {cfg : Config} {sys : System}

def Starts (states : InterfaceId → PBFTConsensus) : Prop := states = fun _ => {}

/-- A step of replica `p`; what it addresses to itself does not leave it. -/
def Acts (cfg : Config) (p : InterfaceId) (now : Nat) (received : List (Packet Message)) (s s' : PBFTConsensus)
    (pkts : List (Packet Message)) : Prop :=
  p ∈ cfg.committee.members ∧ ∃ fuel r,
    performComputation ⟨p, cfg.committee.members, now, cfg.fault p, cfg.digestOf, cfg.computeStateDigest⟩ fuel
      (received.map (·.message)) { s with outbox := [] } = some r ∧
    s' = r.toPBFTConsensus ∧ pkts = r.outbox.filter (·.target ≠ p)

theorem soup_reached {now : Nat} {acted : List InterfaceId} {states : InterfaceId → PBFTConsensus}
    {sent : List (Packet Message)} (h : Soup Starts (Acts cfg) now acted states sent) :
    ∃ sys, (machine cfg).Reached sys ∧ sys.round = now ∧ sys.peers = states ∧
      ∀ pkt ∈ sent, pkt ∈ sys.sent ∧ pkt.source ≠ pkt.target := by
  induction h with
  | start hstarts => exact ⟨initial, .start rfl, rfl, hstarts.symm, fun _ h => absurd h List.not_mem_nil⟩
  | nextRound h ih =>
    obtain ⟨sys, hreached, rfl, hpeers, hsent⟩ := ih
    exact ⟨_, .next hreached trivial (e := .nextRound) rfl, rfl, hpeers, hsent⟩
  | @act now acted states p sent received pkts s' h _ hreceived hacts ih =>
    obtain ⟨sys, hreached, rfl, rfl, hsent⟩ := ih
    obtain ⟨hp, fuel, r, hr, rfl, rfl⟩ := hacts
    have hin : ∀ m ∈ received.map (·.message), ∃ z, z ≠ p ∧ ⟨z, p, m⟩ ∈ sys.sent := by
      intro m hm
      obtain ⟨pkt, hpkt, rfl⟩ := List.mem_map.mp hm
      obtain ⟨hmem, rfl⟩ := hreceived pkt hpkt
      exact ⟨pkt.source, (hsent pkt hmem).2, (hsent pkt hmem).1⟩
    have hstep : (machine cfg).Reached (sys.after p r) :=
      Lockstep.runPhase_reached hp (Lockstep.receive_reached hreached hp _ hin) hr
    have hsource : ∀ pkt ∈ r.outbox, pkt.source = p := by
      apply runPhase_sends hr
      rw [receive_outbox]
      exact fun _ h => absurd h List.not_mem_nil
    refine ⟨sys.after p r, hstep, rfl, rfl, fun pkt hpkt => ?_⟩
    rcases List.mem_append.mp hpkt with hold | hnew
    · exact ⟨List.mem_append_left _ (hsent pkt hold).1, (hsent pkt hold).2⟩
    · obtain ⟨hmem, htarget⟩ := List.mem_filter.mp hnew
      refine ⟨List.mem_append_right _ hmem, ?_⟩
      rw [hsource pkt hmem]
      exact (of_decide_eq_true htarget).symm

end System

/-! ## The simulation -/

section simulation
variable {t : TopologyConfig} (htype : t.type = .complete) (haccepts : TopologyPlanner.Accepts t)
  {order : Equiv.Perm (Fin t.size)} {cfg : Config} (hcommittee : cfg.committee = .ofSize t.size)
include htype haccepts hcommittee

theorem peerComputation_conforms (i : Nat) (hi : i < (Network.initNetwork t order).size) (now : Nat)
    (own : Own (Network.initNetwork t order) i PBFTConsensus Message)
    (hsettled : Abstract.Settled (Network.initNetwork t order) i own) :
    Conforms (Network.initNetwork t order) id (System.Acts cfg) now own (peerComputation cfg i now own) := by
  obtain ⟨r, hr⟩ := runPhase_isSome (ownCtx cfg now own) (filed cfg now own)
  have hcomputation : performComputation (ownCtx cfg now own)
      (callsEnough (ownCtx cfg now own) (filed cfg now own).toPBFTConsensus)
      (own.inStream.map (·.message)) { own.state with outbox := [] } = some r := hr
  rw [Network.initNetwork_size] at hi
  have hsource : ∀ pkt ∈ r.outbox, pkt.source = own.publicId := by
    apply runPhase_sends hr
    unfold filed
    rw [receive_outbox]
    exact fun _ h => absurd h List.not_mem_nil
  have hmember : own.publicId ∈ cfg.committee.members := by
    rw [hsettled.publicId, hcommittee]
    exact publicId_mem_committee order hi
  unfold peerComputation
  rw [hcomputation]
  dsimp only
  refine ⟨⟨hsettled.publicId, hsettled.neighbors, hsettled.inBound, hsettled.outBound⟩,
    .inr ⟨rfl, r.outbox.filter (·.target ≠ own.publicId), ?_, ?_⟩⟩
  · rw [← hsettled.publicId]
    refine ⟨hmember, callsEnough (ownCtx cfg now own) (filed cfg now own).toPBFTConsensus, r, ?_, rfl, rfl⟩
    rw [List.map_map]
    exact hcomputation
  · intro send hsend hdest
    obtain ⟨pkt, hpkt, rfl⟩ := List.mem_map.mp hsend
    dsimp only at hdest ⊢
    rw [hsettled.neighbors, neighbors_complete htype haccepts order hi, ← hsettled.publicId] at hdest
    refine List.mem_filter.mpr ⟨?_, (List.mem_filter.mp hdest).2⟩
    rw [← hsource pkt hpkt]
    exact hpkt

/-- **A simulation of PBFT is a run of PBFT.** On a complete network, with channels that cannot throw, whichever
replicas equivocate, and any number of threads: the state in which a simulation ends holds the replicas of a state
that the system reaches in as many rounds, and no packets but those that the system has sent. What a replica has
confirmed was submitted by a member, and is flipped only where some replica has a fault. -/
theorem simulation_runs_pbft {params : ChannelParams} (hparams : Channel.Drawable (.ofParams params)) (lastRound : Nat)
    {thread_count : Nat} (hthreads : 0 < thread_count) (rounds : List Draws)
    {s : BS.Pool (World (Network.initNetwork t order) PBFTConsensus Message)}
    (hs : (BS.poolMachine thread_count
      (Simulation.script thread_count t.size (peerComputation cfg) (fun _ peers => peers) 1 rounds)
      (World.initial (Network.initNetwork t order) (fun _ => {}) params lastRound)).Reached s)
    (hfinished : s.Finished) :
    (∃ sys, (machine cfg).Reached sys ∧ sys.round = rounds.length ∧ ∀ i < t.size,
      sys.peers ((Network.initNetwork t order).peers i).publicId = (s.world.peers i).state ∧
      (∀ pkt ∈ (s.world.peers i).inStream, Bound (Network.initNetwork t order) sys.sent i pkt) ∧
      ∀ e ∈ ((Network.initNetwork t order).peers i).inBoundChannels,
        ∀ pkt ∈ (s.world.lines e.2.handle).channel.packetQueue, Bound (Network.initNetwork t order) sys.sent i pkt) ∧
    ∀ i < t.size, ∀ req ∈ (s.world.peers i).state.confirmedTrans, ∃ j < t.size,
      req.submitterId = ((Network.initNetwork t order).peers j).publicId ∧ req.roundSubmitted ≤ rounds.length ∧
      req.requestId < (s.world.peers j).state.currentClientRequestId ∧
      (req.faultFlip = true → ∃ p ∈ cfg.committee.members, ¬ cfg.Honest p) := by
  have hinitial : Tracks (Network.initNetwork t order) id (fun _ => ({} : PBFTConsensus)) []
      (World.initial (Network.initNetwork t order) (fun _ => {}) params lastRound :
        World (Network.initNetwork t order) PBFTConsensus Message) :=
    tracks_initial _ _ hparams lastRound fun _ _ => rfl
  have hstarts : System.Starts fun _ => ({} : PBFTConsensus) := rfl
  obtain ⟨_, states, sent, hsoup, htracks⟩ := Tracks.simulation hstarts hinitial
    (peerComputation_conforms htype haccepts hcommittee) hthreads rounds hs hfinished
  obtain ⟨sys, hreached, hround, rfl, hsent⟩ := System.soup_reached hsoup
  have hsize : (Network.initNetwork t order).size = t.size := Network.initNetwork_size order
  have hsubset : sent ⊆ sys.sent := fun pkt hpkt => (hsent pkt hpkt).1
  rw [← hsize]
  refine ⟨⟨sys, hreached, hround, fun i hi => ⟨htracks.state i hi, ?_, ?_⟩⟩, fun i hi req hreq => ?_⟩
  · exact fun pkt hpkt => (htracks.arrived i hi pkt hpkt).mono hsubset
  · exact fun e he pkt hpkt => (htracks.queued i e he pkt hpkt).mono hsubset
  have inv := System.requestInv_of_reached hreached
  have hstate : sys.peers ((Network.initNetwork t order).peers i).publicId = (s.world.peers i).state :=
    htracks.state i hi
  rw [← hstate] at hreq
  have hauthentic := inv.confirmed _ req hreq
  obtain ⟨target, hmem⟩ := hauthentic.submitted
  obtain ⟨-, hmember, hsubmitted, hid, -⟩ := inv.issued _ hmem _ rfl
  rw [hcommittee, ← (perm_committee order).mem_iff] at hmember
  obtain ⟨j, hj, hsubmitter⟩ := List.mem_map.mp hmember
  rw [hsize]
  refine ⟨j, List.mem_range.mp hj, hsubmitter.symm, hround ▸ hsubmitted, ?_, hauthentic.flipped⟩
  have hstate' : sys.peers ((Network.initNetwork t order).peers j).publicId = (s.world.peers j).state :=
    htracks.state j (hsize ▸ List.mem_range.mp hj)
  rw [← hstate', hsubmitter]
  exact hid

end simulation

def fourComplete : TopologyConfig := { initialPeers := some 4, type := .complete }

def firstEquivocates : Config := System.committeeOf 4 (initFaults (Network.initNetwork fourComplete (Equiv.refl _)) 1)

theorem simulation_runs_pbft_firstEquivocates :
    ∃ s, (BS.poolMachine 3
        (Simulation.script 3 fourComplete.size (peerComputation firstEquivocates) (fun _ peers => peers) 1
          [.middle, .middle, .middle])
        (World.initial (Network.initNetwork fourComplete (Equiv.refl _)) (fun _ => {}) {} 5)).Reached s ∧
      s.Finished ∧ ∃ sys, (machine firstEquivocates).Reached sys ∧ sys.round = 3 ∧
        ∀ i : Nat, i < 4 → sys.peers i = (s.world.peers i).state := by
  have hthree : 0 < 3 := by decide
  have hscript := parallel_script hthree fourComplete.size
    (separate_initNetwork fourComplete (Equiv.refl _)) (peerComputation firstEquivocates)
    (fun _ peers => peers) 1 [.middle, .middle, .middle]
  obtain ⟨s, hs, hfinished⟩ := BS.Pool.exists_finished hthree World.ext_cells hscript
  refine ⟨s, hs, hfinished, ?_⟩
  have htype : fourComplete.type = .complete := rfl
  have haccepts : TopologyPlanner.Accepts fourComplete := by decide
  have hcommittee : firstEquivocates.committee = .ofSize fourComplete.size := rfl
  obtain ⟨⟨sys, hreached, hround, hpeers⟩, -⟩ := simulation_runs_pbft htype haccepts hcommittee
    ⟨by decide, by decide⟩ 5 hthree [.middle, .middle, .middle] hs hfinished
  refine ⟨sys, hreached, hround, fun i hi => ?_⟩
  rw [← (hpeers i hi).1, Network.initNetwork_publicId]
  unfold Network.place
  rw [dif_pos (show i < fourComplete.size from hi)]
  rfl

end Quantas.Pbft
