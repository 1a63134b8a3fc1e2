import Quantas.Pbft.Checkpoints
import Quantas.Pbft.Execution

/-!
# PBFT: the water marks

The low water mark is the last stable checkpoint, and the high one stands `WINDOW` above it; no phase compares
a sequence number with it. A checkpoint becomes stable only while a replica stands at its sequence number, so
that a replica whose checkpoint messages are late goes on without one, and leaves the window at the decision
it makes at the high water mark.
-/

namespace Quantas.Pbft

/-- The confirmed requests reach from the low water mark, which is the last stable checkpoint, to the high one
at most: so no more than `WINDOW` of them are not below a stable checkpoint. -/
structure InWindow (c : PBFTConsensus) : Prop where
  low : c.lowWaterMark = c.lastStableCheckpoint
  stable : c.lastStableCheckpoint ≤ nextSeq c
  high : nextSeq c ≤ c.highWaterMark
  unpruned : (Finset.Ico c.lastStableCheckpoint (nextSeq c)).card ≤ WINDOW

structure MarkInv (c : PBFTConsensus) : Prop extends MarksSet c where
  stable : c.lastStableCheckpoint ≤ nextSeq c
  interval : c.lastStableCheckpoint % checkpointInterval = 0

variable {ctx : Ctx} {s : Local} {c : PBFTConsensus}

theorem MarkInv.inWindow_iff (h : MarkInv c) : InWindow c ↔ nextSeq c ≤ c.highWaterMark := by
  refine ⟨fun hin => hin.high, fun hle => ⟨h.low, h.stable, hle, ?_⟩⟩
  have hhigh := h.high
  rw [Nat.card_Ico]
  omega

theorem markInv_initial : MarkInv {} := ⟨⟨rfl, rfl⟩, Nat.le_refl _, rfl⟩

theorem MarkInv.checkpoint (h : MarkInv s.toPBFTConsensus) (ctx : Ctx) :
    MarkInv (maybeStableCheckpoint ctx s).toPBFTConsensus := by
  rcases maybeStableCheckpoint_cases ctx s with ⟨-, heq⟩ | ⟨hready, heq⟩
  · rw [heq]
    exact h
  · rw [heq]
    exact ⟨⟨rfl, rfl⟩, le_rfl, (stableCheckpointReady_iff.mp hready).1⟩

theorem MarkInv.call (h : MarkInv s.toPBFTConsensus) : MarkInv (call ctx s).1.toPBFTConsensus := by
  obtain ⟨hstable, hmarks, -⟩ := call_frame ctx s
  obtain ⟨lastStable, low, high, log, htrimmed, -⟩ := maybeStableCheckpoint_eq ctx s
  have hafter := h.checkpoint ctx
  have hgrows := (confirmedTrans_grows ctx s).length_le
  have hle := hafter.stable
  rw [htrimmed] at hle
  refine ⟨hmarks hafter.toMarksSet, ?_, ?_⟩
  · rw [hstable, htrimmed]
    exact hle.trans hgrows
  · rw [hstable]
    exact hafter.interval

namespace System

/-- Replica `p` is in its commit phase with a committed request, and its next sequence number is its high water
mark. -/
def DecidesAtHighMark (cfg : Config) (sys : System) (p : InterfaceId) : Prop :=
  (sys.peers p).phase = .commit ∧ sys.round ≤ (sys.peers p).viewChangeTimer ∧
    (committedProposal (sys.ctx cfg p) (sys.peers p)).isSome ∧
    nextSeq (sys.peers p) = (sys.peers p).highWaterMark

/-- The steps that the window can bear. -/
def StaysInWindow (cfg : Config) (sys : System) : Event → Prop
  | .call p => ¬ DecidesAtHighMark cfg sys p
  | _ => True

instance (cfg : Config) (sys : System) (p : InterfaceId) : Decidable (DecidesAtHighMark cfg sys p) :=
  inferInstanceAs (Decidable (_ ∧ _ ∧ _ ∧ _))

instance (cfg : Config) (sys : System) : (e : Event) → Decidable (StaysInWindow cfg sys e)
  | .call _ => inferInstanceAs (Decidable (¬ _))
  | .nextRound => .isTrue trivial
  | .receive .. => .isTrue trivial

variable {cfg : Config} {sys : System} {p : InterfaceId}

theorem checkpoint_of_high (cfg : Config) (hmarks : MarkInv (sys.peers p))
    (hhigh : nextSeq (sys.peers p) = (sys.peers p).highWaterMark) :
    maybeStableCheckpoint (sys.ctx cfg p) (sys.start p) = sys.start p := by
  rcases maybeStableCheckpoint_cases (sys.ctx cfg p) (sys.start p) with ⟨-, heq⟩ | ⟨hready, -⟩
  · exact heq
  · have hseq : nextSeq (sys.peers p) % checkpointInterval = 0 := (stableCheckpointReady_iff.mp hready).1
    have hinterval := hmarks.interval
    rw [hhigh, hmarks.high] at hseq
    unfold checkpointInterval at hseq hinterval
    unfold WINDOW at hseq
    omega

theorem inWindow_call_iff (hmarks : MarkInv (sys.peers p)) (hwindow : InWindow (sys.peers p)) :
    InWindow (Pbft.call (sys.ctx cfg p) (sys.start p)).1.toPBFTConsensus ↔ ¬ DecidesAtHighMark cfg sys p := by
  have hafter : MarkInv (Pbft.call (sys.ctx cfg p) (sys.start p)).1.toPBFTConsensus :=
    MarkInv.call (s := sys.start p) hmarks
  have hstable := (call_frame (sys.ctx cfg p) (sys.start p)).1
  have hhigh := hwindow.high
  have hle := hmarks.stable
  have hset := hmarks.high
  rw [hafter.inWindow_iff, hafter.high, hstable]
  constructor
  · intro hin hdecides
    obtain ⟨hphase, htimer, hcommitted, hmark⟩ := hdecides
    obtain ⟨pp, hpp⟩ := Option.isSome_iff_exists.mp hcommitted
    have hcheckpoint := checkpoint_of_high cfg hmarks hmark
    have hcall := call_decide hcheckpoint hphase (not_lt.mpr htimer) hpp
    rw [hcheckpoint, hcall, nextSeq, decideRequest_confirmedTrans, List.length_append,
      List.length_singleton] at hin
    have hlength : (sys.start p).confirmedTrans.length = nextSeq (sys.peers p) := rfl
    have hlast : (sys.start p).lastStableCheckpoint = (sys.peers p).lastStableCheckpoint := rfl
    omega
  · intro hdecides
    rcases confirmedTrans_cases (sys.ctx cfg p) (sys.start p) with hsame | ⟨hphase, htimer, pp, hpp, hmore⟩
    · have hnext : nextSeq (Pbft.call (sys.ctx cfg p) (sys.start p)).1.toPBFTConsensus =
          nextSeq (sys.peers p) := congrArg List.length hsame
      rcases maybeStableCheckpoint_cases (sys.ctx cfg p) (sys.start p) with ⟨-, heq⟩ | ⟨-, heq⟩
      · rw [hnext, heq]
        exact hset ▸ hhigh
      · rw [hnext, heq]
        exact Nat.le_add_right _ _
    · have hnext : nextSeq (Pbft.call (sys.ctx cfg p) (sys.start p)).1.toPBFTConsensus =
          nextSeq (sys.peers p) + 1 := by rw [nextSeq, hmore, List.length_append]; rfl
      rcases maybeStableCheckpoint_cases (sys.ctx cfg p) (sys.start p) with ⟨-, heq⟩ | ⟨-, heq⟩
      · -- without a new checkpoint the replica decides on the log that it had
        rw [heq] at hpp
        have hne : nextSeq (sys.peers p) ≠ (sys.peers p).highWaterMark := fun hmark =>
          hdecides ⟨hphase, not_lt.mp htimer, Option.isSome_iff_exists.mpr ⟨pp, hpp⟩, hmark⟩
        rw [hnext, heq]
        show nextSeq (sys.peers p) + 1 ≤ (sys.peers p).lastStableCheckpoint + WINDOW
        omega
      · rw [hnext, heq]
        show nextSeq (sys.peers p) + 1 ≤ nextSeq (sys.peers p) + WINDOW
        unfold WINDOW
        omega

theorem inWindow_receive (cfg : Config) (sys : System) (p : InterfaceId) (msg : Message) :
    (MarkInv (sys.peers p) → MarkInv (onMessage (sys.ctx cfg p) msg (sys.start p)).toPBFTConsensus) ∧
      (InWindow (sys.peers p) → InWindow (onMessage (sys.ctx cfg p) msg (sys.start p)).toPBFTConsensus) := by
  obtain ⟨ms, queue, heq⟩ := onMessage_frame (sys.ctx cfg p) msg (sys.start p)
  rw [heq]
  exact ⟨fun h => ⟨⟨h.low, h.high⟩, h.stable, h.interval⟩, fun h => ⟨h.low, h.stable, h.high, h.unpruned⟩⟩

theorem markInv_of_reached {guard : System → Event → Prop} (h : (machine cfg).ReachedUnder guard sys) :
    ∀ q, MarkInv (sys.peers q) := by
  refine h.invariant (P := fun sys => ∀ q, MarkInv (sys.peers q)) ?_ ?_
  · intro sys hsys q
    rw [show sys = initial from hsys]
    exact markInv_initial
  · intro sys e sys' inv _ hstep q
    rcases step_cases hstep with ⟨-, rfl⟩ | ⟨p, pkt, rfl, -, -, -, -, rfl⟩ | ⟨p, rfl, -, rfl⟩
    · exact inv q
    · by_cases hq : q = p
      · rw [hq, after_self]
        exact (inWindow_receive cfg sys p pkt.message).1 (inv p)
      · rw [after_other hq]
        exact inv q
    · by_cases hq : q = p
      · rw [hq, after_self]
        exact MarkInv.call (s := sys.start p) (inv p)
      · rw [after_other hq]
        exact inv q

/-- **The window.** In every run in which no replica decides at its high water mark, all replicas stay within
their windows, and the next call of one leaves its window exactly if it is such a decision. -/
theorem window_kept (h : (machine cfg).ReachedUnder (StaysInWindow cfg) sys) :
    (∀ q, InWindow (sys.peers q)) ∧ ∀ p sys', step cfg sys (.call p) = some sys' →
      (InWindow (sys'.peers p) ↔ ¬ DecidesAtHighMark cfg sys p) := by
  have hall : ∀ q, InWindow (sys.peers q) := by
    induction h with
    | start hsys =>
      intro q
      rw [show _ = initial from hsys]
      exact markInv_initial.inWindow_iff.mpr (Nat.zero_le _)
    | next hr hguard hstep ih =>
      have hmarks := markInv_of_reached hr
      intro q
      rcases step_cases hstep with ⟨-, rfl⟩ | ⟨p, pkt, rfl, -, -, -, -, rfl⟩ | ⟨p, rfl, -, rfl⟩
      · exact ih q
      · by_cases hq : q = p
        · rw [hq, after_self]
          exact (inWindow_receive cfg _ p pkt.message).2 (ih p)
        · rw [after_other hq]
          exact ih q
      · by_cases hq : q = p
        · rw [hq, after_self]
          exact (inWindow_call_iff (hmarks p) (ih p)).mpr hguard
        · rw [after_other hq]
          exact ih q
  have hmarks := markInv_of_reached h
  refine ⟨hall, fun p sys' hstep => ?_⟩
  rcases step_cases hstep with ⟨he, -⟩ | ⟨_, _, he, -⟩ | ⟨q, he, -, rfl⟩
  · cases he
  · cases he
  · obtain rfl := Event.call.inj he
    rw [after_self]
    exact inWindow_call_iff (hmarks p) (hall p)

/-! ## A run out of the window

Four replicas without a fault decide one request after the other in round 0. They hear of each other's
pre-prepares, prepares and commits, and never of a checkpoint.
-/

/-- What a phase of replica `p` reads in round 0. -/
abbrev four (p : InterfaceId) : Ctx := initial.ctx fourReplicas p

theorem quorum_four (p : InterfaceId) : quorum (four p) = 2 := by
  show quorum (four 0) = 2
  decide

/-- A replica in view 0 that has confirmed `n` requests and hears of no checkpoint but its own; `pps` are the
pre-prepares for the next sequence number. -/
structure At (n : Nat) (phase : Phase) (pps : List PhaseMessage) (c : PBFTConsensus) : Prop where
  view : c.view = 0
  phase : c.phase = phase
  length : c.confirmedTrans.length = n
  stable : c.lastStableCheckpoint = 0
  checkpoints : ∀ k, (checkpoints c k 0).length ≤ if k ≤ n then 1 else 0
  proposals : phaseMessages c .prePrepare n 0 = pps
  ahead : ∀ k, n < k → phaseMessages c .prePrepare k 0 = []

theorem At.checkpoint {n : Nat} {phase : Phase} {pps : List PhaseMessage} {s : Local}
    (h : At n phase pps s.toPBFTConsensus) (p : InterfaceId) : maybeStableCheckpoint (four p) s = s := by
  rcases maybeStableCheckpoint_cases (four p) s with ⟨-, heq⟩ | ⟨hready, -⟩
  · exact heq
  · obtain ⟨-, d, hcount⟩ := stableCheckpointReady_iff.mp hready
    have hone := h.checkpoints s.confirmedTrans.length
    have hquorum := quorum_four p
    rw [if_pos h.length.le] at hone
    unfold checkpointVotes at hcount
    rw [h.view, hquorum] at hcount
    have hle := List.count_le_length (a := d) (l := (Pbft.checkpoints s.toPBFTConsensus
      s.confirmedTrans.length 0).map Checkpoint.digest)
    rw [List.length_map] at hle
    omega

theorem At.insert {n : Nat} {phase phase' : Phase} {pps : List PhaseMessage} {c c' : PBFTConsensus}
    (h : At n phase pps c) {m : PhaseMessage} (hview : m.view = 0) (hseq : m.seqNum = n)
    (hlog : c'.receivedMessages = c.receivedMessages ++ [.phase m]) (hview' : c'.view = c.view)
    (hphase : c'.phase = phase') (hconfirmed : c'.confirmedTrans = c.confirmedTrans)
    (hstable : c'.lastStableCheckpoint = c.lastStableCheckpoint) :
    At n phase' (pps ++ if m.messageType = .prePrepare then [m] else []) c' := by
  have hslot : ∀ k, phaseMessages c' .prePrepare k 0 = phaseMessages c .prePrepare k 0 ++
      if m.messageType = .prePrepare ∧ k = n then [m] else [] := by
    intro k
    unfold phaseMessages
    rw [hlog, List.filterMap_append, List.filter_append]
    congr 1
    by_cases hmatch : m.messageType = .prePrepare ∧ k = n
    · rw [if_pos hmatch]
      simp [Message.phase?, hmatch, hview, hseq]
    · rw [if_neg hmatch]
      simp only [List.filterMap_cons, Message.phase?, List.filterMap_nil, List.filter_cons, List.filter_nil]
      rw [if_neg]
      intro h
      obtain ⟨htype, hk, -⟩ := of_decide_eq_true h
      exact hmatch ⟨htype, hk.symm.trans hseq⟩
  refine ⟨hview'.trans h.view, hphase, by rw [hconfirmed, h.length], hstable.trans h.stable, ?_, ?_, ?_⟩
  · intro k
    have hsame : Pbft.checkpoints c' k 0 = Pbft.checkpoints c k 0 := by
      simp [Pbft.checkpoints, hlog, Message.checkpoint?]
    rw [hsame]
    exact h.checkpoints k
  · rw [hslot, h.proposals]
    simp
  · intro k hk
    rw [hslot, h.ahead k hk, if_neg (by omega)]
    rfl

/-! ### The four kinds of call -/

/-- The message of one type that `z` sends about the request at sequence number `n`. -/
def about (n : Nat) (tx : ClientRequest) (type : PhaseType) (z : InterfaceId) : PhaseMessage :=
  ⟨type, n, 0, tx, 0, z⟩

/-- All replicas but `z` were sent a message by `z`. -/
def Announced (sys : System) (m : PhaseMessage) : Prop :=
  ∀ q ∈ fourReplicas.committee.members, ⟨m.fromId, q, .phase m⟩ ∈ sys.sent

section
variable {n : Nat} {tx : ClientRequest} {s : Local} {p : InterfaceId}

theorem mem_packets_four {m : PhaseMessage} (hfrom : m.fromId = p) {q : InterfaceId}
    (hq : q ∈ fourReplicas.committee.members) :
    ⟨m.fromId, q, .phase m⟩ ∈ packets (four p) (.phase m) :=
  (mem_packets_of_no_fault (four p) rfl).mpr ⟨hfrom, hq, rfl⟩

theorem heardFrom_about {c : PBFTConsensus} {type : PhaseType} {z : InterfaceId}
    (h : .phase (about n tx type z) ∈ c.receivedMessages) :
    HeardFrom (four p) c type 0 n (unaryDigest tx) z :=
  ⟨_, h, rfl, rfl, rfl, rfl, rfl, rfl⟩

theorem At.propose (h : At n .prePrepare [] s.toPBFTConsensus) : ∃ tx,
    At n .prepare [about n tx .prePrepare 0] (Pbft.call (four 0) s).1.toPBFTConsensus ∧
      ∀ q ∈ fourReplicas.committee.members,
        ⟨0, q, .phase (about n tx .prePrepare 0)⟩ ∈ (Pbft.call (four 0) s).1.outbox := by
  have hself : (four 0).self = leaderFor (four 0) s.view := by rw [h.view]; rfl
  rw [call_propose (h.checkpoint 0) h.phase (Nat.not_lt_zero _) hself]
  obtain ⟨tx, queue, next, outbox, heq⟩ := propose_eq (four 0) s
  have hmessage : (⟨.prePrepare, nextSeq s.toPBFTConsensus, s.view, tx, s.view, (four 0).self⟩ : PhaseMessage) =
      about n tx .prePrepare 0 := by
    rw [nextSeq, h.length, h.view]
    rfl
  rw [hmessage] at heq
  rw [heq]
  refine ⟨tx, ?_, fun q hq =>
    List.mem_append_right _ (mem_packets_four (m := about n tx .prePrepare 0) rfl hq)⟩
  exact h.insert (m := about n tx .prePrepare 0) rfl rfl rfl rfl rfl rfl rfl

theorem At.prepare (hp : p ≠ 0) (h : At n .prePrepare [about n tx .prePrepare 0] s.toPBFTConsensus) :
    At n .prepare [about n tx .prePrepare 0] (Pbft.call (four p) s).1.toPBFTConsensus ∧
      .phase (about n tx .prepare p) ∈ (Pbft.call (four p) s).1.receivedMessages ∧
      ∀ q ∈ fourReplicas.committee.members,
        ⟨p, q, .phase (about n tx .prepare p)⟩ ∈ (Pbft.call (four p) s).1.outbox := by
  have hself : (four p).self ≠ leaderFor (four p) s.view := by
    rw [h.view]
    exact hp
  have hpp : leaderProposal (four p) s.toPBFTConsensus = some (about n tx .prePrepare 0) := by
    unfold leaderProposal
    rw [nextSeq, h.length, h.view, h.proposals]
    exact List.find?_cons_of_pos (by simp [about, leaderFor]; decide)
  rw [call_prepare (h.checkpoint p) h.phase (Nat.not_lt_zero _) hself hpp]
  refine ⟨?_, List.mem_append_right _ List.mem_cons_self, fun q hq =>
    List.mem_append_right _ (mem_packets_four (m := about n tx .prepare p) rfl hq)⟩
  exact h.insert (m := about n tx .prepare p) rfl rfl rfl rfl rfl rfl rfl

theorem quorum_lt_senders {c : PBFTConsensus} {type : PhaseType}
    (h : ∀ z ∈ [1, 2, 3], .phase (about n tx type z) ∈ c.receivedMessages) :
    quorum (four p) < (senders (four p) c type 0 n (unaryDigest tx)).card := by
  have hsubset : ({1, 2, 3} : Finset InterfaceId) ⊆ senders (four p) c type 0 n (unaryDigest tx) := by
    intro z hz
    exact mem_senders.mpr (heardFrom_about (h z (by simpa using hz)))
  have hcard := Finset.card_le_card hsubset
  have hthree : ({1, 2, 3} : Finset InterfaceId).card = 3 := rfl
  rw [quorum_four]
  omega

theorem At.commit (h : At n .prepare [about n tx .prePrepare 0] s.toPBFTConsensus)
    (hheard : ∀ z ∈ [1, 2, 3], .phase (about n tx .prepare z) ∈ s.receivedMessages) :
    At n .commit [about n tx .prePrepare 0] (Pbft.call (four p) s).1.toPBFTConsensus ∧
      .phase (about n tx .commit p) ∈ (Pbft.call (four p) s).1.receivedMessages ∧
      ∀ q ∈ fourReplicas.committee.members,
        ⟨p, q, .phase (about n tx .commit p)⟩ ∈ (Pbft.call (four p) s).1.outbox := by
  have hmem : about n tx .prePrepare 0 ∈ phaseMessages s.toPBFTConsensus .prePrepare n 0 := by
    rw [h.proposals]
    exact List.mem_cons_self
  have hprepared : isPrepared (four p) s.toPBFTConsensus 0 n (unaryDigest tx) = true :=
    isPrepared_iff.mpr ⟨heardFrom_about (mem_phaseMessages.mp hmem).1, quorum_lt_senders hheard⟩
  have hpp : preparedProposal (four p) s.toPBFTConsensus = some (about n tx .prePrepare 0) := by
    unfold preparedProposal
    rw [nextSeq, h.length, h.view, h.proposals]
    exact List.find?_cons_of_pos (decide_eq_true ⟨rfl, hprepared⟩)
  rw [call_commit (h.checkpoint p) h.phase (Nat.not_lt_zero _) hpp]
  refine ⟨?_, List.mem_append_right _ List.mem_cons_self, fun q hq =>
    List.mem_append_right _ (mem_packets_four (m := about n tx .commit p) rfl hq)⟩
  exact h.insert (m := about n tx .commit p) rfl rfl rfl rfl rfl rfl rfl

theorem decideRequest_log (ctx : Ctx) (req : ClientRequest) (s : Local) :
    (decideRequest ctx req s).receivedMessages = s.receivedMessages ∨ ∃ k : Checkpoint,
      (decideRequest ctx req s).receivedMessages = s.receivedMessages ++ [.checkpoint k] ∧
        k.seqNum = s.confirmedTrans.length + 1 := by
  unfold decideRequest sendCheckpoint
  dsimp only
  split_ifs
  · exact .inl rfl
  · exact .inr ⟨_, rfl, by simp⟩

theorem At.afterDecision {phase : Phase} {pps : List PhaseMessage} (h : At n phase pps s.toPBFTConsensus) :
    At (n + 1) .prePrepare [] (decideRequest (four p) tx s).toPBFTConsensus := by
  have hview : (decideRequest (four p) tx s).view = 0 := by
    rw [← h.view]
    unfold decideRequest sendCheckpoint
    dsimp only
    split_ifs <;> rfl
  have hlength : (decideRequest (four p) tx s).confirmedTrans.length = n + 1 := by
    rw [decideRequest_confirmedTrans, List.length_append, h.length, List.length_singleton]
  have hstable := (decideRequest_frame (four p) tx s).1.trans h.stable
  have hnext : phaseMessages s.toPBFTConsensus .prePrepare (n + 1) 0 = [] := h.ahead _ (Nat.lt_succ_self n)
  rcases decideRequest_log (four p) tx s with hlog | ⟨k, hlog, hseq⟩
  · refine ⟨hview, rfl, hlength, hstable, fun j => ?_, ?_, fun j hj => ?_⟩
    · have hbound := h.checkpoints j
      unfold Pbft.checkpoints at hbound ⊢
      rw [hlog]
      split_ifs at hbound ⊢ <;> omega
    · unfold phaseMessages at hnext ⊢
      rwa [hlog]
    · have hahead := h.ahead j (by omega)
      unfold phaseMessages at hahead ⊢
      rwa [hlog]
  · rw [h.length] at hseq
    have hphase : ∀ j, phaseMessages (decideRequest (four p) tx s).toPBFTConsensus .prePrepare j 0 =
        phaseMessages s.toPBFTConsensus .prePrepare j 0 := by
      intro j
      simp [phaseMessages, hlog, Message.phase?]
    refine ⟨hview, rfl, hlength, hstable, fun j => ?_, (hphase _).trans hnext, fun j hj =>
      (hphase j).trans (h.ahead j (by omega))⟩
    -- the own checkpoint is the first one for its sequence number
    have hbound := h.checkpoints j
    unfold Pbft.checkpoints at hbound ⊢
    rw [hlog, List.filterMap_append, List.filter_append, List.length_append]
    by_cases hj : j = n + 1
    · have hone := List.length_filter_le (fun m : Checkpoint => decide (m.seqNum = j ∧ m.view = 0))
        ([Message.checkpoint k].filterMap Message.checkpoint?)
      have hsingle : ([Message.checkpoint k].filterMap Message.checkpoint?).length = 1 := rfl
      rw [if_neg (by omega)] at hbound
      rw [if_pos (by omega)]
      omega
    · have hother : ([Message.checkpoint k].filterMap Message.checkpoint?).filter
          (fun m : Checkpoint => decide (m.seqNum = j ∧ m.view = 0)) = [] := by
        simp only [List.filterMap_cons, Message.checkpoint?, List.filterMap_nil, List.filter_cons,
          List.filter_nil]
        rw [if_neg]
        intro hmatch
        have hk := (of_decide_eq_true hmatch).1
        omega
      rw [hother, List.length_nil]
      split_ifs at hbound ⊢ <;> omega

theorem At.decides (h : At n .commit [about n tx .prePrepare 0] s.toPBFTConsensus)
    (hheard : ∀ z ∈ [1, 2, 3], .phase (about n tx .commit z) ∈ s.receivedMessages) :
    At (n + 1) .prePrepare [] (Pbft.call (four p) s).1.toPBFTConsensus := by
  have hcommitted : isCommitted (four p) s.toPBFTConsensus 0 n (unaryDigest tx) = true :=
    decide_eq_true (quorum_lt_senders hheard)
  have hpp : committedProposal (four p) s.toPBFTConsensus = some (about n tx .prePrepare 0) := by
    unfold committedProposal
    rw [nextSeq, h.length, h.view, h.proposals]
    exact List.find?_cons_of_pos (decide_eq_true ⟨rfl, rfl, hcommitted⟩)
  rw [call_decide (h.checkpoint p) h.phase (Nat.not_lt_zero _) hpp]
  exact h.afterDecision

end

/-! ### The run -/

def InRoundZero (sys : System) : Prop := (machine fourReplicas).Reached sys ∧ sys.round = 0

/-- From `sys` a run goes on to `sys'`, in which only replica `p` has moved. -/
structure Moves (p : InterfaceId) (sys sys' : System) : Prop where
  reached : InRoundZero sys'
  sent : ∀ pkt ∈ sys.sent, pkt ∈ sys'.sent
  others : ∀ q, q ≠ p → sys'.peers q = sys.peers q

theorem receive_all {sys : System} (hsys : InRoundZero sys) {p : InterfaceId}
    (hp : p ∈ fourReplicas.committee.members) (ms : List PhaseMessage)
    (hms : ∀ m ∈ ms, m.fromId ≠ p ∧ ⟨m.fromId, p, .phase m⟩ ∈ sys.sent) :
    ∃ sys', Moves p sys sys' ∧ sys'.start p = { sys.start p with
      receivedMessages := (sys.start p).receivedMessages ++ ms.map .phase } := by
  induction ms generalizing sys with
  | nil =>
    refine ⟨sys, ⟨hsys, fun _ h => h, fun _ _ => rfl⟩, ?_⟩
    rw [List.map_nil, List.append_nil]
  | cons m ms ih =>
    obtain ⟨hne, hsent⟩ := hms m List.mem_cons_self
    have hstep : (machine fourReplicas).step sys (.receive p ⟨m.fromId, p, .phase m⟩) = some (sys.after p
        (onMessage (sys.ctx fourReplicas p) (.phase m) (sys.start p))) := if_pos ⟨hp, hsent, rfl, hne⟩
    have hnext : InRoundZero (sys.after p (onMessage (sys.ctx fourReplicas p) (.phase m) (sys.start p))) :=
      ⟨.next hsys.1 trivial hstep, hsys.2⟩
    obtain ⟨sys', hmoves, hstart⟩ := ih hnext fun m' hm' =>
      ⟨(hms m' (List.mem_cons_of_mem _ hm')).1,
        List.mem_append_left _ (hms m' (List.mem_cons_of_mem _ hm')).2⟩
    refine ⟨sys', ⟨hmoves.reached, fun pkt hpkt => hmoves.sent pkt (List.mem_append_left _ hpkt),
      fun q hq => (hmoves.others q hq).trans (after_other hq)⟩, ?_⟩
    rw [hstart]
    unfold start
    rw [after_self]
    simp [onMessage, insertMessage]

theorem visit_moves {sys : System} (hsys : InRoundZero sys) {p : InterfaceId}
    (hp : p ∈ fourReplicas.committee.members) (ms : List PhaseMessage)
    (hms : ∀ m ∈ ms, m.fromId ≠ p ∧ ⟨m.fromId, p, .phase m⟩ ∈ sys.sent) :
    ∃ sys' s, Moves p sys sys' ∧ s = { sys.start p with
        receivedMessages := (sys.start p).receivedMessages ++ ms.map .phase } ∧
      sys'.peers p = (Pbft.call (four p) s).1.toPBFTConsensus ∧
      ∀ pkt ∈ (Pbft.call (four p) s).1.outbox, pkt ∈ sys'.sent := by
  obtain ⟨mid, hmoves, hstart⟩ := receive_all hsys hp ms hms
  have hctx : mid.ctx fourReplicas p = four p := by
    unfold four ctx
    rw [hmoves.reached.2]
    rfl
  have hstep : (machine fourReplicas).step mid (.call p) =
      some (mid.after p (Pbft.call (mid.ctx fourReplicas p) (mid.start p)).1) := if_pos hp
  rw [hctx] at hstep
  refine ⟨mid.after p (Pbft.call (four p) (mid.start p)).1, mid.start p,
    ⟨⟨.next hmoves.reached.1 trivial hstep, hmoves.reached.2⟩,
    fun pkt hpkt => List.mem_append_left _ (hmoves.sent pkt hpkt),
    fun q hq => (after_other hq).trans (hmoves.others q hq)⟩, hstart, after_self, fun pkt hpkt => ?_⟩
  exact List.mem_append_right _ hpkt

theorem Announced.mono {sys sys' : System} (h : ∀ pkt ∈ sys.sent, pkt ∈ sys'.sent) {m : PhaseMessage}
    (hm : Announced sys m) : Announced sys' m := fun q hq => h _ (hm q hq)

/-- One replica after the other moves: each of them gets from `Before` to `After` and announces `out`, once the
messages in `need` are announced. -/
theorem sweep (need : List PhaseMessage) (out : InterfaceId → PhaseMessage)
    (Before After : InterfaceId → PBFTConsensus → Prop) (ps : List InterfaceId) (hps : ps.Nodup)
    (hmove : ∀ sys p, InRoundZero sys → p ∈ ps → (∀ m ∈ need, Announced sys m) → Before p (sys.peers p) →
      ∃ sys', Moves p sys sys' ∧ After p (sys'.peers p) ∧ Announced sys' (out p))
    {sys : System} (hsys : InRoundZero sys) (hneed : ∀ m ∈ need, Announced sys m)
    (hbefore : ∀ p ∈ ps, Before p (sys.peers p)) :
    ∃ sys', InRoundZero sys' ∧ (∀ p ∈ ps, After p (sys'.peers p) ∧ Announced sys' (out p)) ∧
      (∀ pkt ∈ sys.sent, pkt ∈ sys'.sent) ∧ ∀ q ∉ ps, sys'.peers q = sys.peers q := by
  induction ps generalizing sys with
  | nil => exact ⟨sys, hsys, by simp, fun _ h => h, fun _ _ => rfl⟩
  | cons p ps ih =>
    obtain ⟨hnot, hnodup⟩ := List.nodup_cons.mp hps
    obtain ⟨mid, hmoves, hafter, hout⟩ := hmove sys p hsys List.mem_cons_self hneed
      (hbefore p List.mem_cons_self)
    have hrest : ∀ q ∈ ps, Before q (mid.peers q) := by
      intro q hq
      rw [hmoves.others q (fun h => hnot (h ▸ hq))]
      exact hbefore q (List.mem_cons_of_mem p hq)
    obtain ⟨sys', hsys', hall, hsent, hothers⟩ := ih hnodup
      (fun sys q hsys hq => hmove sys q hsys (List.mem_cons_of_mem p hq)) hmoves.reached
      (fun m hm => (hneed m hm).mono hmoves.sent) hrest
    refine ⟨sys', hsys', fun q hq => ?_, fun pkt hpkt => hsent pkt (hmoves.sent pkt hpkt), fun q hq => ?_⟩
    · rcases List.mem_cons.mp hq with rfl | hq
      · rw [hothers q hnot]
        exact ⟨hafter, hout.mono hsent⟩
      · exact hall q hq
    · obtain ⟨hne, hq'⟩ := not_or.mp (List.mem_cons.not.mp hq)
      rw [hothers q hq', hmoves.others q hne]

theorem At.receive {n : Nat} {phase : Phase} {pps : List PhaseMessage} {s : Local}
    (h : At n phase pps s.toPBFTConsensus) (tx : ClientRequest) {type : PhaseType} (htype : type ≠ .prePrepare)
    (zs : List InterfaceId) : At n phase pps { s with
      receivedMessages := s.receivedMessages ++ (zs.map (about n tx type)).map Message.phase }.toPBFTConsensus := by
  induction zs generalizing s with
  | nil =>
    rw [List.map_nil, List.map_nil, List.append_nil]
    exact h
  | cons z zs ih =>
    have hinsert : At n phase (pps ++ if type = .prePrepare then [about n tx type z] else []) { s with
        receivedMessages := s.receivedMessages ++ [Message.phase (about n tx type z)] }.toPBFTConsensus :=
      h.insert (m := about n tx type z) rfl rfl rfl rfl h.phase rfl rfl
    rw [if_neg htype, List.append_nil] at hinsert
    have hrest := ih hinsert
    rw [List.append_assoc] at hrest
    exact hrest

theorem members_four : fourReplicas.committee.members = [0, 1, 2, 3] := by decide

section
variable {n : Nat} {tx : ClientRequest} {sys : System} {p : InterfaceId}

theorem mem_votes {type : PhaseType} {log : List Message}
    (hown : p ∈ [1, 2, 3] → Message.phase (about n tx type p) ∈ log) (z : InterfaceId) (hz : z ∈ [1, 2, 3]) :
    Message.phase (about n tx type z) ∈
      log ++ ((([1, 2, 3] : List InterfaceId).filter (· ≠ p)).map (about n tx type)).map Message.phase := by
  by_cases hzp : z = p
  · exact List.mem_append_left _ (hzp ▸ hown (hzp ▸ hz))
  · refine List.mem_append_right _ (List.mem_map_of_mem (List.mem_map_of_mem ?_))
    exact List.mem_filter.mpr ⟨hz, by simpa using hzp⟩

theorem votes_sent {type : PhaseType} (hp : p ∈ fourReplicas.committee.members)
    (hneed : ∀ m ∈ ([1, 2, 3] : List InterfaceId).map (about n tx type), Announced sys m) :
    ∀ m ∈ (([1, 2, 3] : List InterfaceId).filter (· ≠ p)).map (about n tx type),
      m.fromId ≠ p ∧ ⟨m.fromId, p, .phase m⟩ ∈ sys.sent := by
  intro m hm
  obtain ⟨z, hz, rfl⟩ := List.mem_map.mp hm
  obtain ⟨hz, hne⟩ := List.mem_filter.mp hz
  exact ⟨of_decide_eq_true hne, hneed _ (List.mem_map_of_mem hz) p hp⟩

theorem prepare_moves (hsys : InRoundZero sys) (hp : p ∈ [1, 2, 3])
    (hneed : ∀ m ∈ [about n tx .prePrepare 0], Announced sys m) (hat : At n .prePrepare [] (sys.peers p)) :
    ∃ sys', Moves p sys sys' ∧ (At n .prepare [about n tx .prePrepare 0] (sys'.peers p) ∧
      .phase (about n tx .prepare p) ∈ (sys'.peers p).receivedMessages) ∧
        Announced sys' (about n tx .prepare p) := by
  have hmember : p ∈ fourReplicas.committee.members := by
    rw [members_four]
    exact List.mem_cons_of_mem _ hp
  have hne : p ≠ 0 := by
    rintro rfl
    revert hp
    decide
  obtain ⟨sys', s, hmoves, hs, hpeer, hout⟩ := visit_moves hsys hmember [about n tx .prePrepare 0] (by
    intro m hm
    obtain rfl := List.mem_singleton.mp hm
    exact ⟨hne.symm, hneed _ hm p hmember⟩)
  have hready : At n .prePrepare [about n tx .prePrepare 0] s.toPBFTConsensus := by
    rw [hs]
    exact hat.insert (m := about n tx .prePrepare 0) rfl rfl rfl rfl hat.phase rfl rfl
  obtain ⟨hat', hown, hsent⟩ := hready.prepare hne
  exact ⟨sys', hmoves, ⟨hpeer ▸ hat', hpeer ▸ hown⟩, fun q hq => hout _ (hsent q hq)⟩

theorem commit_moves (hsys : InRoundZero sys) (hp : p ∈ fourReplicas.committee.members)
    (hneed : ∀ m ∈ ([1, 2, 3] : List InterfaceId).map (about n tx .prepare), Announced sys m)
    (hbefore : At n .prepare [about n tx .prePrepare 0] (sys.peers p) ∧
      (p ∈ [1, 2, 3] → .phase (about n tx .prepare p) ∈ (sys.peers p).receivedMessages)) :
    ∃ sys', Moves p sys sys' ∧ (At n .commit [about n tx .prePrepare 0] (sys'.peers p) ∧
      .phase (about n tx .commit p) ∈ (sys'.peers p).receivedMessages) ∧
        Announced sys' (about n tx .commit p) := by
  obtain ⟨hat, hown⟩ := hbefore
  obtain ⟨sys', s, hmoves, hs, hpeer, hout⟩ := visit_moves hsys hp _ (votes_sent hp hneed)
  have hready : At n .prepare [about n tx .prePrepare 0] s.toPBFTConsensus := by
    rw [hs]
    exact At.receive (s := sys.start p) hat tx (by decide) _
  obtain ⟨hat', hown', hsent⟩ := hready.commit (p := p) (by
    rw [hs]
    exact mem_votes hown)
  exact ⟨sys', hmoves, ⟨hpeer ▸ hat', hpeer ▸ hown'⟩, fun q hq => hout _ (hsent q hq)⟩

theorem decide_moves (hsys : InRoundZero sys) (hp : p ∈ fourReplicas.committee.members)
    (hneed : ∀ m ∈ ([1, 2, 3] : List InterfaceId).map (about n tx .commit), Announced sys m)
    (hbefore : At n .commit [about n tx .prePrepare 0] (sys.peers p) ∧
      .phase (about n tx .commit p) ∈ (sys.peers p).receivedMessages) :
    ∃ sys', Moves p sys sys' ∧ At (n + 1) .prePrepare [] (sys'.peers p) := by
  obtain ⟨hat, hown⟩ := hbefore
  obtain ⟨sys', s, hmoves, hs, hpeer, -⟩ := visit_moves hsys hp _ (votes_sent hp hneed)
  have hready : At n .commit [about n tx .prePrepare 0] s.toPBFTConsensus := by
    rw [hs]
    exact At.receive (s := sys.start p) hat tx (by decide) _
  have hat' := hready.decides (p := p) (by
    rw [hs]
    exact mem_votes fun _ => hown)
  exact ⟨sys', hmoves, hpeer ▸ hat'⟩

end

theorem decide_next {n : Nat} {sys : System} (hsys : InRoundZero sys)
    (hall : ∀ p ∈ fourReplicas.committee.members, At n .prePrepare [] (sys.peers p)) :
    ∃ sys', InRoundZero sys' ∧
      ∀ p ∈ fourReplicas.committee.members, At (n + 1) .prePrepare [] (sys'.peers p) := by
  have hbackup : ∀ p ∈ fourReplicas.committee.members, p ≠ 0 → p ∈ [1, 2, 3] := by decide
  have hmember : ∀ p ∈ [1, 2, 3], p ∈ fourReplicas.committee.members ∧ p ≠ 0 := by decide
  -- the leader proposes
  obtain ⟨proposed, s, hmoves, hs, hpeer, hout⟩ := visit_moves hsys (p := 0) (by decide) [] (by simp)
  rw [List.map_nil, List.append_nil] at hs
  have hat : At n .prePrepare [] s.toPBFTConsensus := hs ▸ hall 0 (by decide)
  obtain ⟨tx, hleader, hsent⟩ := hat.propose
  rw [← hpeer] at hleader
  -- the others prepare
  obtain ⟨prepared, hprepared, hbackups, -, hothers⟩ := sweep [about n tx .prePrepare 0] (about n tx .prepare)
    (fun _ c => At n .prePrepare [] c)
    (fun p c => At n .prepare [about n tx .prePrepare 0] c ∧
      .phase (about n tx .prepare p) ∈ c.receivedMessages) [1, 2, 3] (by decide)
    (fun _ _ => prepare_moves) hmoves.reached
    (fun m hm q hq => by
      obtain rfl := List.mem_singleton.mp hm
      exact hout _ (hsent q hq))
    (fun p hp => by
      rw [hmoves.others p (hmember p hp).2]
      exact hall p (hmember p hp).1)
  -- all commit
  obtain ⟨committed, hcommitted, hvotes, -, -⟩ := sweep (([1, 2, 3] : List InterfaceId).map (about n tx .prepare))
    (about n tx .commit)
    (fun p c => At n .prepare [about n tx .prePrepare 0] c ∧
      (p ∈ [1, 2, 3] → .phase (about n tx .prepare p) ∈ c.receivedMessages))
    (fun p c => At n .commit [about n tx .prePrepare 0] c ∧
      .phase (about n tx .commit p) ∈ c.receivedMessages) fourReplicas.committee.members (by decide)
    (fun _ _ => commit_moves) hprepared
    (fun m hm => by
      obtain ⟨z, hz, rfl⟩ := List.mem_map.mp hm
      exact (hbackups z hz).2)
    (fun p hp => by
      by_cases hzero : p = 0
      · rw [hzero, hothers 0 (by decide)]
        exact ⟨hleader, fun h => absurd rfl (hmember 0 h).2⟩
      · have hafter := (hbackups p (hbackup p hp hzero)).1
        exact ⟨hafter.1, fun _ => hafter.2⟩)
  -- all decide
  obtain ⟨decided, hdecided, hafter, -⟩ := sweep (([1, 2, 3] : List InterfaceId).map (about n tx .commit))
    (fun _ => about n tx .commit 1)
    (fun p c => At n .commit [about n tx .prePrepare 0] c ∧
      .phase (about n tx .commit p) ∈ c.receivedMessages)
    (fun _ c => At (n + 1) .prePrepare [] c) fourReplicas.committee.members (by decide)
    (fun _ _ hsys hp hneed hbefore => by
      obtain ⟨sys', hmoves, hat⟩ := decide_moves hsys hp hneed hbefore
      exact ⟨sys', hmoves, hat, (hneed _ List.mem_cons_self).mono hmoves.sent⟩) hcommitted
    (fun m hm => by
      obtain ⟨z, hz, rfl⟩ := List.mem_map.mp hm
      exact (hvotes z (hmember z hz).1).2)
    (fun p hp => (hvotes p hp).1)
  exact ⟨decided, hdecided, fun p hp => (hafter p hp).1⟩

theorem exists_decided (n : Nat) : ∃ sys, InRoundZero sys ∧
    ∀ p ∈ fourReplicas.committee.members, At n .prePrepare [] (sys.peers p) := by
  induction n with
  | zero =>
    refine ⟨initial, ⟨.start rfl, rfl⟩, fun p _ => ⟨rfl, rfl, rfl, rfl, fun k => ?_, rfl, fun _ _ => rfl⟩⟩
    exact Nat.zero_le _
  | succ n ih =>
    obtain ⟨sys, hsys, hall⟩ := ih
    exact decide_next hsys hall

/-- After 129 decisions in round 0 replica 1 is beyond its high water mark. -/
theorem lateCheckpoints_leaveWindow :
    ¬ ∀ (cfg : Config) (sys : System), (machine cfg).Reached sys → ∀ q, cfg.Honest q → InWindow (sys.peers q) := by
  intro hall
  obtain ⟨sys, hsys, hat⟩ := exists_decided 129
  have hone := hat 1 (by decide)
  have hhigh := (hall fourReplicas sys hsys.1 1 rfl).high
  rw [(markInv_of_reached hsys.1 1).high, hone.stable, nextSeq, hone.length] at hhigh
  revert hhigh
  decide

theorem window_kept_firstRequest :
    ∃ sys, (machine fourReplicas).ReachedUnder (StaysInWindow fourReplicas) sys ∧
      (sys.peers 1).confirmedTrans = [⟨0, 0, 0, false⟩] ∧
      (∀ q, InWindow (sys.peers q)) ∧ ∀ p sys', step fourReplicas sys (.call p) = some sys' →
        (InWindow (sys'.peers p) ↔ ¬ DecidesAtHighMark fourReplicas sys p) := by
  have hrun : ((machine fourReplicas).runUnder (StaysInWindow fourReplicas) initial firstRequest).map
      (fun sys => (sys.peers 1).confirmedTrans) = some [⟨0, 0, 0, false⟩] := by
    decide +kernel
  obtain ⟨sys, hsys, hconfirmed⟩ := Option.map_eq_some_iff.mp hrun
  have hreached := Lib.Machine.reachedUnder_of_runUnder (.start rfl) hsys
  exact ⟨sys, hreached, hconfirmed, window_kept hreached⟩

end System

end Quantas.Pbft
