import Quantas.Pbft.Slots

/-!
# PBFT: rounds in lock-step

The simulation with channels that lose nothing and deliver in the round after sending: in a round every
replica, in any order, takes the messages that the last round sent to it, in any order, and makes its calls.
Such a round is a run of the machine of all interleavings. Without faults four or more replicas decide one
request in every three rounds, and none asks for a view change.
-/

namespace Quantas.Pbft

/-- The messages that the packets of the last round bring to replica `p`. -/
def arrivals (fresh : List (Packet Message)) (p : InterfaceId) : List Message :=
  (fresh.filter fun pkt => pkt.target = p ∧ pkt.source ≠ p).map Packet.message

/-- The order in which the replicas move in a round, and the order of their in-streams. -/
structure Schedule where
  order : List InterfaceId
  inStream : InterfaceId → List Message

namespace Schedule

def Fits (cfg : Config) (fresh : List (Packet Message)) (schedule : Schedule) : Prop :=
  schedule.order.Perm cfg.committee.members ∧
    ∀ p ∈ cfg.committee.members, (schedule.inStream p).toFinset = (arrivals fresh p).toFinset

instance (cfg : Config) (fresh : List (Packet Message)) (schedule : Schedule) :
    Decidable (schedule.Fits cfg fresh) := inferInstanceAs (Decidable (_ ∧ _))

theorem Fits.mem_inStream {cfg : Config} {fresh : List (Packet Message)} {schedule : Schedule}
    (h : schedule.Fits cfg fresh) {p : InterfaceId} (hp : p ∈ cfg.committee.members) {m : Message} :
    m ∈ schedule.inStream p ↔ ∃ z, z ≠ p ∧ ⟨z, p, m⟩ ∈ fresh := by
  rw [← List.mem_toFinset, h.2 p hp, List.mem_toFinset]
  unfold arrivals
  rw [List.mem_map]
  constructor
  · intro hm
    obtain ⟨⟨source, target, message⟩, hpkt, heq⟩ := hm
    obtain ⟨hmem, hmatch⟩ := List.mem_filter.mp hpkt
    obtain ⟨htarget, hsource⟩ := of_decide_eq_true hmatch
    simp only at htarget hsource heq
    subst htarget heq
    exact ⟨source, hsource, hmem⟩
  · intro hm
    obtain ⟨z, hz, hmem⟩ := hm
    exact ⟨_, List.mem_filter.mpr ⟨hmem, decide_eq_true ⟨rfl, hz⟩⟩, rfl⟩

end Schedule

/-- A global state between two rounds, and the packets of the last one. -/
structure Lockstep extends System where
  fresh : List (Packet Message)

namespace Lockstep
variable (cfg : Config) (fuel : Nat)

/-- `performComputation` of replica `p`. -/
def compute (schedule : Schedule) (sys : System) (p : InterfaceId) : Option System :=
  (performComputation (sys.ctx cfg p) fuel (schedule.inStream p) (sys.start p)).map (sys.after p)

def step (s : Lockstep) (schedule : Schedule) : Option Lockstep :=
  if schedule.Fits cfg s.fresh then
    (schedule.order.foldlM (compute cfg fuel schedule) { s.toSystem with round := s.round + 1 }).map
      fun sys => { sys with fresh := sys.sent.drop s.sent.length }
  else none

def initial : Lockstep := { System.initial with fresh := [] }

end Lockstep

/-- The replicas in lock-step; the fuel bounds the calls of a replica in a round. -/
def lockstep (cfg : Config) (fuel : Nat) : Lib.Machine Lockstep Schedule where
  initial := fun s => s = Lockstep.initial
  step := Lockstep.step cfg fuel

/-! ## The calls of a step, one by one -/

def Local.behind (o : List (Packet Message)) (s : Local) : Local := { s with outbox := o ++ s.outbox }

section Behind
variable {ctx : Ctx} {s : Local} {o : List (Packet Message)}

theorem behind_consensus : (s.behind o).toPBFTConsensus = s.toPBFTConsensus := rfl

theorem multicastAndInsert_behind (msg : Message) :
    multicastAndInsert ctx msg (s.behind o) = (multicastAndInsert ctx msg s).behind o := by
  unfold multicastAndInsert insertMessage multicast Local.behind
  simp

theorem maybeStableCheckpoint_behind :
    maybeStableCheckpoint ctx (s.behind o) = (maybeStableCheckpoint ctx s).behind o := by
  rcases maybeStableCheckpoint_cases ctx s with ⟨hready, heq⟩ | ⟨hready, heq⟩
  · rcases maybeStableCheckpoint_cases ctx (s.behind o) with ⟨-, heq'⟩ | ⟨hready', -⟩
    · rw [heq, heq']
    · exact absurd (hready.symm.trans hready') (by simp)
  · rcases maybeStableCheckpoint_cases ctx (s.behind o) with ⟨hready', -⟩ | ⟨-, heq'⟩
    · exact absurd (hready.symm.trans hready') (by simp)
    · rw [heq, heq']
      rfl

theorem requestViewChange_behind :
    requestViewChange ctx (s.behind o) = (requestViewChange ctx s).behind o := by
  unfold requestViewChange multicastAndInsert insertMessage multicast Local.behind
  simp

theorem propose_behind : propose ctx (s.behind o) = (propose ctx s).behind o := by
  cases hqueue : s.unhandledRequests with
  | nil =>
    unfold propose submitRequest multicastAndInsert insertMessage multicast Local.behind
    simp [hqueue, multimapInsert, nextSeq]
  | cons e rest =>
    unfold propose multicastAndInsert insertMessage multicast Local.behind
    simp [hqueue, nextSeq]

theorem decideRequest_behind (req : ClientRequest) :
    decideRequest ctx req (s.behind o) = (decideRequest ctx req s).behind o := by
  unfold decideRequest sendCheckpoint
  dsimp only [Local.behind]
  split_ifs
  · rfl
  · unfold multicastAndInsert insertMessage multicast
    simp

theorem foldl_reissue_behind (pps : List PhaseMessage) :
    pps.foldl (reissue ctx) (s.behind o) = (pps.foldl (reissue ctx) s).behind o := by
  induction pps generalizing s with
  | nil => rfl
  | cons pp pps ih =>
    rw [List.foldl_cons, List.foldl_cons, ← ih]
    congr 1
    exact multicastAndInsert_behind _

theorem call_behind (ctx : Ctx) (o : List (Packet Message)) (s : Local) :
    call ctx (s.behind o) = ((call ctx s).1.behind o, (call ctx s).2) := by
  unfold call
  rw [behind_consensus]
  cases s.phase with
  | prePrepare =>
    unfold PBFTPrePreparePhase.runPhase
    rw [maybeStableCheckpoint_behind]
    generalize maybeStableCheckpoint ctx s = t
    dsimp only
    rw [requestViewChange_behind, propose_behind, behind_consensus]
    split_ifs
    · rfl
    · rfl
    · cases leaderProposal ctx t.toPBFTConsensus with
      | none => rfl
      | some pp =>
        dsimp only
        rw [multicastAndInsert_behind]
        rfl
  | prepare =>
    unfold PBFTPreparePhase.runPhase
    rw [maybeStableCheckpoint_behind]
    generalize maybeStableCheckpoint ctx s = t
    dsimp only
    rw [requestViewChange_behind, behind_consensus]
    split_ifs
    · rfl
    · cases preparedProposal ctx t.toPBFTConsensus with
      | none => rfl
      | some pp =>
        dsimp only
        rw [multicastAndInsert_behind]
        rfl
  | commit =>
    unfold PBFTCommitPhase.runPhase
    rw [maybeStableCheckpoint_behind]
    generalize maybeStableCheckpoint ctx s = t
    dsimp only
    rw [requestViewChange_behind, behind_consensus]
    split_ifs
    · rfl
    · cases committedProposal ctx t.toPBFTConsensus with
      | none => rfl
      | some pp =>
        dsimp only
        rw [decideRequest_behind]
  | viewChange =>
    unfold PBFTViewChangePhase.runPhase announceNewView
    rw [maybeStableCheckpoint_behind]
    generalize maybeStableCheckpoint ctx s = t
    dsimp only
    rw [requestViewChange_behind, multicastAndInsert_behind, behind_consensus]
    by_cases htimer : t.viewChangeTimer ≤ ctx.round
    · rw [if_pos htimer, if_pos htimer]
    rw [if_neg htimer, if_neg htimer]
    by_cases hquorum : (vcSenders t.toPBFTConsensus).card ≤ quorum ctx
    · rw [if_pos hquorum, if_pos hquorum]
    rw [if_neg hquorum, if_neg hquorum]
    by_cases hself : ctx.self = leaderFor ctx t.view
    · rw [if_pos hself, if_pos hself]
      rfl
    · rw [if_neg hself, if_neg hself]
      rfl
  | newView =>
    unfold PBFTNewViewPhase.runPhase
    rw [maybeStableCheckpoint_behind]
    generalize maybeStableCheckpoint ctx s = t
    dsimp only
    rw [requestViewChange_behind, behind_consensus]
    by_cases htimer : t.viewChangeTimer ≤ ctx.round
    · rw [if_pos htimer, if_pos htimer]
    rw [if_neg htimer, if_neg htimer]
    cases leaderNewView ctx t.toPBFTConsensus with
    | none => rfl
    | some nv =>
      dsimp only
      by_cases hquorum : (vcSenders t.toPBFTConsensus).card ≤ 2 * f ctx
      · rw [if_pos hquorum, if_pos hquorum]
      rw [if_neg hquorum, if_neg hquorum]
      have hreissue : nv.preparedProof.foldl (reissue ctx) (({ t with
          lowWaterMark := t.lastStableCheckpoint
          highWaterMark := t.lastStableCheckpoint + WINDOW } : Local).behind o) = _ := foldl_reissue_behind nv.preparedProof
      unfold Local.behind at hreissue ⊢
      dsimp only at hreissue ⊢
      rw [hreissue]

end Behind

namespace Lockstep
variable {cfg : Config} {fuel : Nat} {sys : System} {p : InterfaceId} {s r : Local}

theorem after_after : (sys.after p s).after p r = sys.after p (r.behind s.outbox) := by
  unfold System.after Local.behind
  simp

theorem start_after : (sys.after p s).start p = { s with outbox := [] } := by
  unfold System.start
  rw [System.after_self]

theorem receive_reached (hsys : (machine cfg).Reached sys) (hp : p ∈ cfg.committee.members) (ms : List Message)
    (hms : ∀ m ∈ ms, ∃ z, z ≠ p ∧ ⟨z, p, m⟩ ∈ sys.sent) :
    (machine cfg).Reached
      (sys.after p (ms.foldl (fun s msg => onMessage (sys.ctx cfg p) msg s) (sys.start p))) := by
  induction ms generalizing sys with
  | nil =>
    have hsame : sys.after p (sys.start p) = sys := by
      unfold System.after System.start
      simp
    rw [List.foldl_nil, hsame]
    exact hsys
  | cons m ms ih =>
    obtain ⟨z, hz, hsent⟩ := hms m List.mem_cons_self
    have hstep : (machine cfg).step sys (.receive p ⟨z, p, m⟩) =
        some (sys.after p (onMessage (sys.ctx cfg p) m (sys.start p))) := if_pos ⟨hp, hsent, rfl, hz⟩
    have hnext := ih (.next hsys trivial hstep) fun m' hm' => by
      obtain ⟨z', hz', hsent'⟩ := hms m' (List.mem_cons_of_mem m hm')
      exact ⟨z', hz', List.mem_append_left _ hsent'⟩
    obtain ⟨-, -, -, houtbox, -⟩ := onMessage_same (sys.ctx cfg p) m (sys.start p)
    have hstart : (sys.after p (onMessage (sys.ctx cfg p) m (sys.start p))).start p =
        onMessage (sys.ctx cfg p) m (sys.start p) := by
      rw [start_after]
      have hnil : (onMessage (sys.ctx cfg p) m (sys.start p)).outbox = [] := houtbox
      rw [← hnil]
    rw [hstart, after_after] at hnext
    rw [List.foldl_cons]
    have hbehind : ∀ t : Local, t.behind (onMessage (sys.ctx cfg p) m (sys.start p)).outbox = t := by
      intro t
      rw [houtbox]
      rfl
    rw [hbehind] at hnext
    exact hnext

theorem runPhase_reached (hp : p ∈ cfg.committee.members) (hsys : (machine cfg).Reached (sys.after p s))
    (hr : runPhase (sys.ctx cfg p) fuel s = some r) : (machine cfg).Reached (sys.after p r) := by
  induction fuel generalizing s with
  | zero => cases hr
  | succ fuel ih =>
    have hstep : (machine cfg).step (sys.after p s) (.call p) = some ((sys.after p s).after p
        (Pbft.call (sys.ctx cfg p) ((sys.after p s).start p)).1) := if_pos hp
    have hcall : (Pbft.call (sys.ctx cfg p) s).1 =
        (Pbft.call (sys.ctx cfg p) ((sys.after p s).start p)).1.behind s.outbox := by
      have hbehind := call_behind (sys.ctx cfg p) s.outbox ({ s with outbox := [] } : Local)
      have hs : ({ s with outbox := [] } : Local).behind s.outbox = s := by
        unfold Local.behind
        simp
      rw [hs] at hbehind
      rw [start_after, hbehind]
    rw [after_after, ← hcall] at hstep
    have hnext := Lib.Machine.ReachedUnder.next hsys trivial hstep
    rw [runPhase] at hr
    split_ifs at hr
    · exact ih hnext hr
    · exact Option.some.inj hr ▸ hnext

theorem compute_reached {schedule : Schedule} {sys' : System} (hsys : (machine cfg).Reached sys)
    (hp : p ∈ cfg.committee.members)
    (hin : ∀ m ∈ schedule.inStream p, ∃ z, z ≠ p ∧ ⟨z, p, m⟩ ∈ sys.sent)
    (h : compute cfg fuel schedule sys p = some sys') :
    (machine cfg).Reached sys' ∧ sys.sent <+: sys'.sent := by
  obtain ⟨r, hr, rfl⟩ := Option.map_eq_some_iff.mp h
  exact ⟨runPhase_reached hp (receive_reached hsys hp _ hin) hr, List.prefix_append _ _⟩

theorem foldlM_reached {schedule : Schedule} {order : List InterfaceId} {fresh : List (Packet Message)}
    (horder : ∀ p ∈ order, p ∈ cfg.committee.members)
    (hin : ∀ p ∈ order, ∀ m ∈ schedule.inStream p, ∃ z, z ≠ p ∧ ⟨z, p, m⟩ ∈ fresh)
    (hfresh : ∀ pkt ∈ fresh, pkt ∈ sys.sent) (hsys : (machine cfg).Reached sys) {sys' : System}
    (h : order.foldlM (compute cfg fuel schedule) sys = some sys') :
    (machine cfg).Reached sys' ∧ sys.sent <+: sys'.sent := by
  induction order generalizing sys with
  | nil => exact Option.some.inj h ▸ ⟨hsys, List.prefix_rfl⟩
  | cons p order ih =>
    rw [List.foldlM_cons] at h
    obtain ⟨mid, hmid, hrest⟩ := Option.bind_eq_some_iff.mp h
    obtain ⟨hreached, hsent⟩ := compute_reached hsys (horder p List.mem_cons_self) (fun m hm => by
      obtain ⟨z, hz, hmem⟩ := hin p List.mem_cons_self m hm
      exact ⟨z, hz, hfresh _ hmem⟩) hmid
    obtain ⟨hreached', hsent'⟩ := ih (fun q hq => horder q (List.mem_cons_of_mem p hq))
      (fun q hq => hin q (List.mem_cons_of_mem p hq)) (fun pkt hpkt => hsent.subset (hfresh pkt hpkt))
      hreached hrest
    exact ⟨hreached', hsent.trans hsent'⟩

/-- **Lock-step is one way to interleave.** A state reached by rounds in lock-step is reached by the machine of
all interleavings, and the fresh packets are among those sent. -/
theorem reached_machine {s : Lockstep} (h : (lockstep cfg fuel).Reached s) :
    (machine cfg).Reached s.toSystem ∧ ∀ pkt ∈ s.fresh, pkt ∈ s.sent := by
  refine h.invariant (P := fun s => (machine cfg).Reached s.toSystem ∧ ∀ pkt ∈ s.fresh, pkt ∈ s.sent) ?_ ?_
  · intro s hs
    rw [show s = initial from hs]
    exact ⟨.start rfl, fun pkt hpkt => absurd hpkt List.not_mem_nil⟩
  · intro s schedule s' ih _ hstep
    obtain ⟨hreached, hfresh⟩ := ih
    change step cfg fuel s schedule = some s' at hstep
    unfold step at hstep
    split_ifs at hstep with hfits
    obtain ⟨sys', hround, rfl⟩ := Option.map_eq_some_iff.mp hstep
    have hnext : (machine cfg).Reached { s.toSystem with round := s.round + 1 } :=
      .next (e := .nextRound) hreached trivial rfl
    have hfresh' : ∀ pkt ∈ s.fresh, pkt ∈ ({ s.toSystem with round := s.round + 1 } : System).sent := hfresh
    have horder : ∀ p ∈ schedule.order, p ∈ cfg.committee.members := fun p hp => hfits.1.subset hp
    obtain ⟨hreached', -⟩ := foldlM_reached horder
      (fun p hp m hm => (hfits.mem_inStream (horder p hp)).mp hm) hfresh' hnext hround
    exact ⟨hreached', fun pkt hpkt => List.mem_of_mem_drop hpkt⟩

theorem foldlM_compute {schedule : Schedule} {order : List InterfaceId} (hnodup : order.Nodup)
    {result : InterfaceId → Local} (hresult : ∀ p ∈ order,
      performComputation (sys.ctx cfg p) fuel (schedule.inStream p) (sys.start p) = some (result p)) :
    order.foldlM (compute cfg fuel schedule) sys = some {
      round := sys.round
      peers := fun q => if q ∈ order then (result q).toPBFTConsensus else sys.peers q
      sent := sys.sent ++ order.flatMap fun p => (result p).outbox } := by
  induction order generalizing sys with
  | nil => simp
  | cons p order ih =>
    obtain ⟨hnot, hnodup'⟩ := List.nodup_cons.mp hnodup
    have hp : compute cfg fuel schedule sys p = some (sys.after p (result p)) := by
      unfold compute
      rw [hresult p List.mem_cons_self, Option.map_some]
    rw [List.foldlM_cons, hp]
    have hrest : order.foldlM (compute cfg fuel schedule) (sys.after p (result p)) = _ := ih hnodup' fun q hq => by
      have hne : q ≠ p := fun h => hnot (h ▸ hq)
      have hstart : (sys.after p (result p)).start q = sys.start q := by
        unfold System.start
        rw [System.after_other hne]
      rw [hstart]
      exact hresult q (List.mem_cons_of_mem p hq)
    refine hrest.trans (congrArg some ?_)
    have hpeers : (fun q => if q ∈ order then (result q).toPBFTConsensus else (sys.after p (result p)).peers q) =
        fun q => if q ∈ p :: order then (result q).toPBFTConsensus else sys.peers q := by
      funext q
      by_cases hq : q = p
      · subst hq
        rw [if_neg hnot, System.after_self, if_pos List.mem_cons_self]
      · rw [System.after_other hq]
        simp only [List.mem_cons, hq, false_or]
    rw [hpeers]
    simp [System.after]

end Lockstep

end Quantas.Pbft
