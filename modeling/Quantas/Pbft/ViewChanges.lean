import Quantas.Pbft.Execution
import Quantas.Pbft.Checkpoints

/-!
# PBFT: what a view change carries, and which votes for it are counted

`requestViewChange` collects pre-prepares of the old view for the sequence numbers from above the stable
checkpoint to below `nextSeq()`. Certificates of earlier views, and the one for the sequence number in flight,
are left behind. A view change is filed under the stable checkpoint of its sender and looked up under that of
the receiver, as it was when the receiver asked for the view itself.
-/

namespace Quantas.Pbft

variable {ctx : Ctx} {s : Local}

/-! ## The view change message -/

/-- The message that `requestViewChange` sends. -/
def viewChangeOf (ctx : Ctx) (c : PBFTConsensus) : ViewChange where
  seqNum := c.lastStableCheckpoint
  newView := c.view + 1
  view := c.view
  lastStable := c.lastStableCheckpoint
  preparedProof := (List.range' (c.lastStableCheckpoint + 1)
    (nextSeq c - (c.lastStableCheckpoint + 1))).filterMap (proofFor ctx c c.view)
  fromId := ctx.self

theorem requestViewChange_eq (ctx : Ctx) (s : Local) : requestViewChange ctx s =
    multicastAndInsert ctx (.viewChange (viewChangeOf ctx s.toPBFTConsensus))
      { s with
        viewChangeAnchorSeq := s.lastStableCheckpoint
        view := s.view + 1
        viewChangeTimer := ctx.round + viewChangeDelay
        phase := .viewChange } := rfl

/-! ## The certificates it carries -/

/-- For each sequence number above the stable checkpoint the message has a pre-prepare with the digest that
the log holds a certificate for, in the highest view that has one. -/
def CarriesCertificates (ctx : Ctx) (c : PBFTConsensus) (vc : ViewChange) : Prop :=
  ∀ n v d, c.lastStableCheckpoint < n → v ≤ c.view → isPrepared ctx c v n d = true →
    (∀ v' d', v' ≤ c.view → isPrepared ctx c v' n d' = true → v' ≤ v) →
    ∃ pp ∈ vc.preparedProof, pp.seqNum = n ∧ pp.view = v ∧ ctx.digestOf pp.request = d

/-- Every sequence number above the stable checkpoint with a certificate is below the one in flight, and it
has one certificate in the own view. -/
def CertificatesInReach (ctx : Ctx) (c : PBFTConsensus) : Prop :=
  ∀ n v d, c.lastStableCheckpoint < n → v ≤ c.view → isPrepared ctx c v n d = true →
    n < nextSeq c ∧ ∃ d', isPrepared ctx c c.view n d' = true ∧
      ∀ d'', isPrepared ctx c c.view n d'' = true → d'' = d'

section
variable {c : PBFTConsensus}

theorem of_proofFor {v n : Nat} {pp : PhaseMessage} (h : proofFor ctx c v n = some pp) :
    pp.seqNum = n ∧ pp.view = v ∧ isPrepared ctx c v n (ctx.digestOf pp.request) = true := by
  obtain ⟨-, -, hseq, -⟩ := mem_phaseMessages.mp (List.mem_of_find?_eq_some h)
  have hfound := List.find?_some h
  obtain ⟨hview, hprepared⟩ := of_decide_eq_true hfound
  exact ⟨hseq, hview, hprepared⟩

theorem exists_proofFor {v n : Nat} {d : String} (h : isPrepared ctx c v n d = true) :
    ∃ pp, proofFor ctx c v n = some pp := by
  obtain ⟨m, hlog, htype, hseq, hview, -, hdigest, -⟩ := (isPrepared_iff.mp h).1
  apply Option.isSome_iff_exists.mp
  apply List.find?_isSome.mpr
  refine ⟨m, mem_phaseMessages.mpr ⟨hlog, htype, hseq, hview⟩, decide_eq_true ⟨hview, ?_⟩⟩
  rwa [hdigest]

theorem mem_preparedProof {pp : PhaseMessage} : pp ∈ (viewChangeOf ctx c).preparedProof ↔
    c.lastStableCheckpoint < pp.seqNum ∧ pp.seqNum < nextSeq c ∧
      proofFor ctx c c.view pp.seqNum = some pp := by
  show pp ∈ List.filterMap _ _ ↔ _
  rw [List.mem_filterMap]
  constructor
  · rintro ⟨n, hn, hproof⟩
    obtain rfl := (of_proofFor hproof).1
    rw [List.mem_range'_1] at hn
    exact ⟨by omega, by omega, hproof⟩
  · rintro ⟨hlow, hhigh, hproof⟩
    refine ⟨pp.seqNum, ?_, hproof⟩
    rw [List.mem_range'_1]
    omega

theorem exists_highest {n v : Nat} {d : String} (hv : v ≤ c.view) (h : isPrepared ctx c v n d = true) :
    ∃ v' d', v' ≤ c.view ∧ isPrepared ctx c v' n d' = true ∧
      ∀ u d'', u ≤ c.view → isPrepared ctx c u n d'' = true → u ≤ v' := by
  classical
  let P : Nat → Prop := fun u => ∃ d, isPrepared ctx c u n d = true
  have hP : P (Nat.findGreatest P c.view) := Nat.findGreatest_spec (P := P) hv ⟨d, h⟩
  obtain ⟨d', hd'⟩ := hP
  exact ⟨_, d', Nat.findGreatest_le _, hd', fun u d'' hu hd'' => Nat.le_findGreatest hu ⟨d'', hd''⟩⟩

theorem carriesCertificates_iff :
    CarriesCertificates ctx c (viewChangeOf ctx c) ↔ CertificatesInReach ctx c := by
  constructor
  · intro h n v d hn hv hprepared
    obtain ⟨v', d', hv', hprepared', hhighest⟩ := exists_highest hv hprepared
    obtain ⟨pp, hpp, rfl, rfl, rfl⟩ := h n v' d' hn hv' hprepared' hhighest
    obtain ⟨-, hlt, hproof⟩ := mem_preparedProof.mp hpp
    obtain ⟨-, hview, hdigest⟩ := of_proofFor hproof
    refine ⟨hlt, _, hdigest, fun d'' hd'' => ?_⟩
    -- a second digest would need an entry of its own
    obtain ⟨pp', hpp', hseq, -, rfl⟩ := h pp.seqNum c.view d'' hn le_rfl hd'' fun u _ hu _ => hu
    have hproof' := (mem_preparedProof.mp hpp').2.2
    rw [hseq, hproof] at hproof'
    rw [Option.some.inj hproof']
  · intro h n v d hn hv hprepared hhighest
    obtain ⟨hlt, d', hd', hunique⟩ := h n v d hn hv hprepared
    obtain rfl : v = c.view := le_antisymm hv (hhighest _ d' le_rfl hd')
    obtain ⟨pp, hproof⟩ := exists_proofFor hprepared
    obtain ⟨rfl, hview, hdigest⟩ := of_proofFor hproof
    refine ⟨pp, mem_preparedProof.mpr ⟨hn, hlt, hproof⟩, rfl, hview, ?_⟩
    rw [hunique _ hdigest, hunique _ hprepared]

end

namespace System
variable {cfg : Config} {sys : System} {p : InterfaceId}

/-- The state in which replica `p` asks for a view change, with its checkpoints brought up to date. -/
def requester (cfg : Config) (sys : System) (p : InterfaceId) : PBFTConsensus :=
  (maybeStableCheckpoint (sys.ctx cfg p) (sys.start p)).toPBFTConsensus

/-- **What a view change carries.** A replica whose timer has run out sends a view change, and the message
carries the certificates of its log exactly when these are in reach of the loop that collects them. -/
theorem viewChange_carries_iff (hp : p ∈ cfg.committee.members)
    (htimeout : TimedOut (sys.ctx cfg p) (sys.peers p)) :
    ∃ sys' vc, step cfg sys (.call p) = some sys' ∧
      sys'.sent = sys.sent ++ packets (sys.ctx cfg p) (.viewChange vc) ∧
      (CarriesCertificates (sys.ctx cfg p) (requester cfg sys p) vc ↔
        CertificatesInReach (sys.ctx cfg p) (requester cfg sys p)) := by
  have hcall : Pbft.call (sys.ctx cfg p) (sys.start p) =
      (requestViewChange (sys.ctx cfg p) (maybeStableCheckpoint (sys.ctx cfg p) (sys.start p)), false) :=
    call_of_timedOut htimeout
  obtain ⟨lastStable, low, high, log, htrimmed, -⟩ :=
    maybeStableCheckpoint_eq (sys.ctx cfg p) (sys.start p)
  refine ⟨_, viewChangeOf (sys.ctx cfg p) (requester cfg sys p), if_pos hp, ?_, carriesCertificates_iff⟩
  rw [hcall, requestViewChange_eq, requester, htrimmed]
  rfl

/-- Four replicas decide the first two requests of replica 0, and then time out. -/
def twoDecided : List Event :=
  firstRequest ++ exchange 1 0 ⟨1, 0, 0, false⟩ 0 [1, 2, 3] [0, 1, 2, 3] [0, 1, 2, 3] ++
  List.replicate 11 .nextRound

/-- The second request has its certificate at replica 1, and was decided. -/
theorem viewChange_carries_twoDecided :
    ∃ sys, (machine fourReplicas).Reached sys ∧
      isPrepared (sys.ctx fourReplicas 1) (requester fourReplicas sys 1) 0 1
        (unaryDigest ⟨1, 0, 0, false⟩) = true ∧
      ∃ sys' vc, step fourReplicas sys (.call 1) = some sys' ∧
        sys'.sent = sys.sent ++ packets (sys.ctx fourReplicas 1) (.viewChange vc) ∧
        (CarriesCertificates (sys.ctx fourReplicas 1) (requester fourReplicas sys 1) vc ↔
          CertificatesInReach (sys.ctx fourReplicas 1) (requester fourReplicas sys 1)) := by
  have hrun : ((machine fourReplicas).run initial twoDecided).map (fun sys =>
      decide (TimedOut (sys.ctx fourReplicas 1) (sys.peers 1) ∧
        isPrepared (sys.ctx fourReplicas 1) (requester fourReplicas sys 1) 0 1
          (unaryDigest ⟨1, 0, 0, false⟩) = true)) = some true := by
    decide +kernel
  obtain ⟨sys, hsys, hfinal⟩ := Option.map_eq_some_iff.mp hrun
  obtain ⟨htimeout, hprepared⟩ := of_decide_eq_true hfinal
  exact ⟨sys, Lib.Machine.reached_of_run (.start rfl) hsys, hprepared,
    viewChange_carries_iff (by decide) htimeout⟩

/-- Replicas 1, 2 and 3 commit the second request and do not hear of each other's commits in time. -/
def inFlight : List Event :=
  firstRequest ++ exchange 1 0 ⟨1, 0, 0, false⟩ 0 [1, 2, 3] [1, 2, 3] [] ++ List.replicate 11 .nextRound

/-- The certificate for the sequence number in flight is left behind. -/
theorem inFlight_leftBehind :
    ¬ ∀ (cfg : Config) (sys : System) (p : InterfaceId), (machine cfg).Reached sys →
      p ∈ cfg.committee.members → TimedOut (sys.ctx cfg p) (sys.peers p) →
      CarriesCertificates (sys.ctx cfg p) (requester cfg sys p)
        (viewChangeOf (sys.ctx cfg p) (requester cfg sys p)) := by
  intro hcarries
  have hrun : ((machine fourReplicas).run initial inFlight).map (fun sys =>
      decide (TimedOut (sys.ctx fourReplicas 1) (sys.peers 1) ∧
        isPrepared (sys.ctx fourReplicas 1) (requester fourReplicas sys 1) 0 1
          (unaryDigest ⟨1, 0, 0, false⟩) = true ∧
        (requester fourReplicas sys 1).lastStableCheckpoint = 0 ∧
        (viewChangeOf (sys.ctx fourReplicas 1) (requester fourReplicas sys 1)).preparedProof = [])) =
          some true := by
    decide +kernel
  obtain ⟨sys, hsys, hfinal⟩ := Option.map_eq_some_iff.mp hrun
  obtain ⟨htimeout, hprepared, hstable, hproof⟩ := of_decide_eq_true hfinal
  have hreached := Lib.Machine.reached_of_run (.start rfl) hsys
  obtain ⟨v, d, hv, hd, hhighest⟩ := exists_highest (Nat.zero_le _) hprepared
  obtain ⟨pp, hpp, -⟩ := hcarries fourReplicas sys 1 hreached (by decide) htimeout 1 v d (by omega) hv hd hhighest
  rw [hproof] at hpp
  exact List.not_mem_nil hpp

end System

end Quantas.Pbft
