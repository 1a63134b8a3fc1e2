import Quantas.Lib.Transition
import Quantas.Pbft.Checkpoints

/-!
# PBFT: which votes for a new view are counted

A view change is filed under the stable checkpoint of its sender, and looked up under the one that the receiver
had when it asked for the view itself, its anchor. One replica is run among arbitrary others: any message may
arrive at any time, and all messages that went into the log are recorded beside it (`history`), also those that
a checkpoint has removed since.
-/

namespace Quantas.Pbft

/-- A replica and all messages that it has put into its log so far. -/
structure Recorded where
  state : PBFTConsensus
  history : List Message

inductive ReplicaEvent
  | receive (round : Nat) (msg : Message)
  | call (round : Nat)

def ChangesView (c : PBFTConsensus) : Prop := c.phase = .viewChange ∨ c.phase = .newView

instance (c : PBFTConsensus) : Decidable (ChangesView c) := inferInstanceAs (Decidable (_ ∨ _))

namespace Recorded

def start (x : Recorded) : Local := { x.state with outbox := [] }

/-- The replica after a step that ended in `r`: what stands behind `kept` in the log is new. -/
def after (x : Recorded) (kept : List Message) (r : Local) : Recorded where
  state := r.toPBFTConsensus
  history := x.history ++ r.receivedMessages.drop kept.length

def step (ctx : Ctx) (x : Recorded) : ReplicaEvent → Option Recorded
  | .receive round msg =>
    some (x.after x.state.receivedMessages (onMessage { ctx with round := round } msg x.start))
  | .call round =>
    some (x.after (maybeStableCheckpoint ctx x.start).receivedMessages
      (call { ctx with round := round } x.start).1)

def machine (ctx : Ctx) : Lib.Machine Recorded ReplicaEvent where
  initial := fun x => x = ⟨{}, []⟩
  step := step ctx

/-- The senders of the view changes for the own view, among all that were sent and received. -/
def votesSeen (x : Recorded) : Finset InterfaceId :=
  (((x.history.filterMap Message.viewChange?).filter fun m => m.newView = x.state.view).map
    ViewChange.fromId).toFinset

/-- The senders that the phases compare with the quorum, once the checkpoints are up to date. -/
def votesCounted (ctx : Ctx) (x : Recorded) : Finset InterfaceId :=
  vcSenders (maybeStableCheckpoint ctx x.start).toPBFTConsensus

theorem mem_votesSeen {x : Recorded} {z : InterfaceId} : z ∈ x.votesSeen ↔
    ∃ vc, .viewChange vc ∈ x.history ∧ vc.newView = x.state.view ∧ vc.fromId = z := by
  simp only [votesSeen, List.mem_toFinset, List.mem_map, List.mem_filter, List.mem_filterMap,
    Message.viewChange?_eq_some, decide_eq_true_eq]
  constructor
  · rintro ⟨vc, ⟨⟨_, hvc, rfl⟩, hnew⟩, hfrom⟩
    exact ⟨vc, hvc, hnew, hfrom⟩
  · rintro ⟨vc, hvc, hnew, hfrom⟩
    exact ⟨vc, ⟨⟨_, hvc, rfl⟩, hnew⟩, hfrom⟩

end Recorded

/-! ## The invariant -/

variable {ctx : Ctx} {c : PBFTConsensus} {history : List Message}

/-- The log is what the history holds from the stable checkpoint on, and some of what came late. On the way to
a new view the own vote was cast, and a checkpoint beyond the anchor is the one of all confirmed requests and
still ready. -/
structure Filed (ctx : Ctx) (c : PBFTConsensus) (history : List Message) : Prop where
  logged : ∀ m ∈ c.receivedMessages, m ∈ history
  kept : ∀ m ∈ history, c.lastStableCheckpoint ≤ m.seqNum → m ∈ c.receivedMessages
  stable : c.lastStableCheckpoint ≤ c.confirmedTrans.length
  anchored : ChangesView c → c.viewChangeAnchorSeq ≤ c.lastStableCheckpoint
  voted : ChangesView c → ∃ vc, .viewChange vc ∈ history ∧ vc.newView = c.view ∧ vc.fromId = ctx.self
  moved : ChangesView c → c.viewChangeAnchorSeq < c.lastStableCheckpoint →
    c.lastStableCheckpoint = c.confirmedTrans.length ∧
      stableCheckpointReady ctx c c.confirmedTrans.length = true

namespace Filed

theorem initial : Filed ctx {} [] where
  logged := fun m hm => hm
  kept := fun m hm _ => hm
  stable := le_rfl
  anchored := by simp [ChangesView]
  voted := by simp [ChangesView]
  moved := by simp [ChangesView]

theorem checkpoint {s : Local} (h : Filed ctx s.toPBFTConsensus history) :
    Filed ctx (maybeStableCheckpoint ctx s).toPBFTConsensus history := by
  rcases maybeStableCheckpoint_cases ctx s with ⟨-, heq⟩ | ⟨hready, heq⟩
  · rw [heq]
    exact h
  rw [heq]
  refine ⟨?logged, ?kept, le_rfl, fun hphase => (h.anchored hphase).trans h.stable, h.voted, ?moved⟩
  case logged => exact fun m hm => h.logged m (List.mem_filter.mp hm).1
  case kept =>
    intro m hm hle
    exact List.mem_filter.mpr ⟨h.kept m hm (h.stable.trans hle), decide_eq_true hle⟩
  case moved =>
    refine fun _ _ => ⟨rfl, ?_⟩
    obtain ⟨hseq, d, hcount⟩ := stableCheckpointReady_iff.mp hready
    refine stableCheckpointReady_iff.mpr ⟨hseq, d, ?_⟩
    unfold checkpointVotes checkpoints at hcount ⊢
    rw [← checkpoints_filter] at hcount
    exact hcount

theorem append (h : Filed ctx c history) {c' : PBFTConsensus} (ms : List Message)
    (hlog : c'.receivedMessages = c.receivedMessages ++ ms)
    (hstable : c'.lastStableCheckpoint = c.lastStableCheckpoint)
    (hlength : c.confirmedTrans.length ≤ c'.confirmedTrans.length)
    (hphase : ChangesView c' → ChangesView c ∧ c'.view = c.view ∧
        c'.viewChangeAnchorSeq = c.viewChangeAnchorSeq ∧ c'.confirmedTrans = c.confirmedTrans ∨
      c'.viewChangeAnchorSeq = c'.lastStableCheckpoint ∧
        ∃ vc, .viewChange vc ∈ ms ∧ vc.newView = c'.view ∧ vc.fromId = ctx.self) :
    Filed ctx c' (history ++ ms) := by
  refine ⟨?logged, ?kept, hstable ▸ h.stable.trans hlength, ?anchored, ?voted, ?moved⟩
  case logged =>
    intro m hm
    rw [hlog] at hm
    exact List.mem_append.mpr ((List.mem_append.mp hm).imp_left (h.logged m))
  case kept =>
    intro m hm hle
    rw [hlog]
    refine List.mem_append.mpr ((List.mem_append.mp hm).imp_left fun hm => h.kept m hm ?_)
    omega
  case anchored =>
    intro hchanges
    rcases hphase hchanges with ⟨hbefore, -, hanchor, -⟩ | ⟨hanchor, -⟩
    · have hle := h.anchored hbefore
      omega
    · exact hanchor.le
  case voted =>
    intro hchanges
    rcases hphase hchanges with ⟨hbefore, hview, -, -⟩ | ⟨-, vc, hvc, hnew, hfrom⟩
    · obtain ⟨vc, hvc, hnew, hfrom⟩ := h.voted hbefore
      exact ⟨vc, List.mem_append_left _ hvc, hnew.trans hview.symm, hfrom⟩
    · exact ⟨vc, List.mem_append_right _ hvc, hnew, hfrom⟩
  case moved =>
    intro hchanges hlt
    rcases hphase hchanges with ⟨hbefore, hview, hanchor, hconfirmed⟩ | ⟨hanchor, -⟩
    · obtain ⟨hall, hready⟩ := h.moved hbefore (by omega)
      rw [hstable, hconfirmed]
      exact ⟨hall, stableCheckpointReady_append hlog hview hready⟩
    · omega

end Filed

namespace Recorded
variable {x : Recorded}

theorem filed_of_reached (h : (machine ctx).Reached x) : Filed ctx x.state x.history := by
  refine h.invariant (P := fun x => Filed ctx x.state x.history) (fun x hx => ?_) ?_
  · rw [show x = ⟨{}, []⟩ from hx]
    exact .initial
  · intro x e x' inv _ hstep
    cases e with
    | receive round msg =>
      obtain rfl := Option.some.inj hstep
      obtain ⟨ms, queue, heq⟩ := onMessage_frame { ctx with round := round } msg x.start
      rw [heq]
      unfold after
      dsimp only
      rw [show x.start.receivedMessages = x.state.receivedMessages from rfl, List.drop_left]
      exact inv.append ms rfl rfl le_rfl fun hchanges => .inl ⟨hchanges, rfl, rfl, rfl⟩
    | call round =>
      obtain rfl := Option.some.inj hstep
      obtain ⟨hstable, -, ⟨ms, hlog⟩, hphase⟩ := call_frame { ctx with round := round } x.start
      have hgrows := confirmedTrans_grows { ctx with round := round } x.start
      have hsame : maybeStableCheckpoint { ctx with round := round } x.start =
        maybeStableCheckpoint ctx x.start := rfl
      rw [hsame] at hstable hlog hphase
      obtain ⟨lastStable, low, high, log, htrimmed, -⟩ := maybeStableCheckpoint_eq ctx x.start
      unfold after
      rw [hlog, List.drop_left]
      refine inv.checkpoint.append ms hlog hstable ?_ fun hchanges => ?_
      · rw [htrimmed]
        exact hgrows.length_le
      · rcases hphase hchanges with heq | ⟨hbefore, hview, hanchor, hconfirmed⟩
        · -- the replica has just asked for the view
          rw [heq] at hlog ⊢
          obtain rfl := List.append_cancel_left hlog
          exact .inr ⟨rfl, _, List.mem_singleton.mpr rfl, rfl, rfl⟩
        · rw [htrimmed]
          exact .inl ⟨hbefore, hview, hanchor, hconfirmed⟩

/-! ## The votes -/

/-- The anchor is the stable checkpoint, and no checkpoint beyond it is ready. -/
def AnchorStands (ctx : Ctx) (c : PBFTConsensus) : Prop :=
  c.lastStableCheckpoint = c.viewChangeAnchorSeq ∧
    (stableCheckpointReady ctx c (nextSeq c) = true → nextSeq c = c.viewChangeAnchorSeq)

/-- Everyone who has voted for the own view has filed a vote under the anchor and the view before. -/
def VotesAtAnchor (x : Recorded) : Prop :=
  ∀ vc, .viewChange vc ∈ x.history → vc.newView = x.state.view →
    ∃ vc', .viewChange vc' ∈ x.history ∧ vc'.fromId = vc.fromId ∧ vc'.newView = x.state.view ∧
      vc'.view + 1 = x.state.view ∧ vc'.seqNum = x.state.viewChangeAnchorSeq

theorem anchorStands_iff (inv : Filed ctx x.state x.history) (hphase : ChangesView x.state) :
    AnchorStands ctx x.state ↔
      (maybeStableCheckpoint ctx x.start).lastStableCheckpoint = x.state.viewChangeAnchorSeq := by
  have hanchored := inv.anchored hphase
  have hstable := inv.stable
  unfold AnchorStands nextSeq
  rcases maybeStableCheckpoint_cases ctx x.start with ⟨hready, heq⟩ | ⟨hready, heq⟩
  · have hready' : stableCheckpointReady ctx x.state x.state.confirmedTrans.length = false := hready
    rw [heq, hready']
    exact ⟨fun h => h.1, fun h => ⟨h, fun h' => by cases h'⟩⟩
  · have hready' : stableCheckpointReady ctx x.state x.state.confirmedTrans.length = true := hready
    rw [heq, hready']
    show _ ↔ x.state.confirmedTrans.length = x.state.viewChangeAnchorSeq
    constructor
    · intro h
      exact h.2 rfl
    · intro h
      exact ⟨by omega, fun _ => h⟩

theorem votesCounted_eq_empty (inv : Filed ctx x.state x.history) (hphase : ChangesView x.state)
    (h : ¬ AnchorStands ctx x.state) : votesCounted ctx x = ∅ := by
  have hanchored := inv.anchored hphase
  rw [anchorStands_iff inv hphase] at h
  unfold votesCounted
  rcases maybeStableCheckpoint_cases ctx x.start with ⟨hready, heq⟩ | ⟨hready, heq⟩
  · rw [heq] at h
    have hlt : x.state.viewChangeAnchorSeq < x.state.lastStableCheckpoint :=
      lt_of_le_of_ne hanchored fun heq => h heq.symm
    have hready' : stableCheckpointReady ctx x.state x.state.confirmedTrans.length = false := hready
    rw [(inv.moved hphase hlt).2] at hready'
    cases hready'
  · -- the log was cut beyond the anchor
    have hstable := inv.stable
    rw [heq] at h ⊢
    have hne : x.state.confirmedTrans.length ≠ x.state.viewChangeAnchorSeq := h
    apply Finset.eq_empty_of_forall_notMem
    intro z hz
    obtain ⟨vc, hvc, hseq, -⟩ := mem_vcSenders.mp hz
    have hle : x.state.confirmedTrans.length ≤ vc.seqNum := of_decide_eq_true (List.mem_filter.mp hvc).2
    have hseq' : vc.seqNum = x.state.viewChangeAnchorSeq := hseq
    omega

theorem mem_votesCounted (inv : Filed ctx x.state x.history) (hphase : ChangesView x.state)
    (h : AnchorStands ctx x.state) {z : InterfaceId} : z ∈ votesCounted ctx x ↔
      ∃ vc, .viewChange vc ∈ x.history ∧ vc.fromId = z ∧ vc.newView = x.state.view ∧
        vc.view + 1 = x.state.view ∧ vc.seqNum = x.state.viewChangeAnchorSeq := by
  have hanchor := (anchorStands_iff inv hphase).mp h
  have inv' := inv.checkpoint (s := x.start)
  obtain ⟨lastStable, low, high, log, htrimmed, -⟩ := maybeStableCheckpoint_eq ctx x.start
  unfold votesCounted
  rw [mem_vcSenders]
  constructor
  · rintro ⟨vc, hvc, hseq, hold, hnew, hfrom⟩
    have hmem := inv'.logged _ hvc
    rw [htrimmed] at hseq hold hnew
    exact ⟨vc, hmem, hfrom, hnew, hold, hseq⟩
  · rintro ⟨vc, hvc, hfrom, hnew, hold, hseq⟩
    have hmem := inv'.kept _ hvc (by rw [hanchor]; exact hseq.ge)
    rw [htrimmed] at hmem ⊢
    exact ⟨vc, hmem, hseq, hold, hnew, hfrom⟩

/-- **The votes for a view.** On the way to a new view the senders that are counted are all those who have
voted for it exactly when the anchor stands and each of them has filed a vote there. -/
theorem votes_counted_iff (h : (machine ctx).Reached x) (hphase : ChangesView x.state) :
    votesCounted ctx x = x.votesSeen ↔ AnchorStands ctx x.state ∧ VotesAtAnchor x := by
  have inv := filed_of_reached h
  by_cases hstands : AnchorStands ctx x.state
  · have hcounted := fun z => mem_votesCounted (z := z) inv hphase hstands
    constructor
    · intro heq
      refine ⟨hstands, fun vc hvc hnew => ?_⟩
      have hseen : vc.fromId ∈ x.votesSeen := mem_votesSeen.mpr ⟨vc, hvc, hnew, rfl⟩
      exact (hcounted _).mp (heq ▸ hseen)
    · rintro ⟨-, hfiled⟩
      ext z
      rw [hcounted, mem_votesSeen]
      constructor
      · rintro ⟨vc, hvc, hfrom, hnew, -, -⟩
        exact ⟨vc, hvc, hnew, hfrom⟩
      · rintro ⟨vc, hvc, hnew, rfl⟩
        exact hfiled vc hvc hnew
  · -- not even the own vote is counted
    have hempty := votesCounted_eq_empty inv hphase hstands
    obtain ⟨vc, hvc, hnew, hfrom⟩ := inv.voted hphase
    have hown : ctx.self ∈ x.votesSeen := mem_votesSeen.mpr ⟨vc, hvc, hnew, hfrom⟩
    constructor
    · intro heq
      rw [← heq, hempty] at hown
      cases hown
    · exact fun hboth => absurd hboth.1 hstands

/-- Replica 0 of four takes the vote of replica 1, whose stable checkpoint is `n`, and times out. -/
def voteFiledAt (n : Nat) : List ReplicaEvent :=
  [.receive 11 (.viewChange ⟨n, 1, 0, n, [], 1⟩), .call 11]

theorem votes_counted_iff_same : ∃ x, (machine (replicaOf 4)).Reached x ∧ x.votesSeen = {0, 1} ∧
    (votesCounted (replicaOf 4) x = x.votesSeen ↔ AnchorStands (replicaOf 4) x.state ∧ VotesAtAnchor x) := by
  have hrun : ((machine (replicaOf 4)).run ⟨{}, []⟩ (voteFiledAt 0)).map (fun x =>
      decide (ChangesView x.state ∧ x.votesSeen = {0, 1})) = some true := by
    decide +kernel
  obtain ⟨x, hx, hfinal⟩ := Option.map_eq_some_iff.mp hrun
  obtain ⟨hphase, hseen⟩ := of_decide_eq_true hfinal
  have hreached := Lib.Machine.reached_of_run (.start rfl) hx
  exact ⟨x, hreached, hseen, votes_counted_iff hreached hphase⟩

/-- The vote of a replica that is one stable checkpoint ahead is not counted. -/
theorem voteAhead_notCounted : ¬ ∀ (ctx : Ctx) (x : Recorded), (machine ctx).Reached x →
    ChangesView x.state → votesCounted ctx x = x.votesSeen := by
  intro hall
  have hrun : ((machine (replicaOf 4)).run ⟨{}, []⟩ (voteFiledAt 10)).map (fun x =>
      decide (ChangesView x.state ∧ x.votesSeen = {0, 1} ∧ votesCounted (replicaOf 4) x = {0})) =
        some true := by
    decide +kernel
  obtain ⟨x, hx, hfinal⟩ := Option.map_eq_some_iff.mp hrun
  obtain ⟨hphase, hseen, hcounted⟩ := of_decide_eq_true hfinal
  have heq := hall (replicaOf 4) x (Lib.Machine.reached_of_run (.start rfl) hx) hphase
  rw [hseen, hcounted] at heq
  revert heq
  decide

end Recorded

end Quantas.Pbft
