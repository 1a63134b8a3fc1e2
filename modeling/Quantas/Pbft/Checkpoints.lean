import Quantas.Pbft.Thresholds

/-!
# PBFT: the stable checkpoint and the log

What a call does to the checkpoints and to the log: it cuts the log at the confirmed requests when their
checkpoint is ready, and otherwise it only adds messages behind.
-/

namespace Quantas.Pbft

variable {ctx : Ctx} {s : Local}

theorem maybeStableCheckpoint_cases (ctx : Ctx) (s : Local) :
    stableCheckpointReady ctx s.toPBFTConsensus s.confirmedTrans.length = false ∧
        maybeStableCheckpoint ctx s = s ∨
      stableCheckpointReady ctx s.toPBFTConsensus s.confirmedTrans.length = true ∧
        maybeStableCheckpoint ctx s = trimmed s s.confirmedTrans.length s.confirmedTrans.length
          (s.confirmedTrans.length + WINDOW)
          (s.receivedMessages.filter fun m => s.confirmedTrans.length ≤ m.seqNum) := by
  unfold maybeStableCheckpoint
  dsimp only
  by_cases hseq : s.confirmedTrans.length % checkpointInterval ≠ 0
  · rw [if_pos hseq]
    refine .inl ⟨?_, rfl⟩
    unfold stableCheckpointReady
    rw [if_pos hseq]
  · rw [if_neg hseq]
    cases hready : stableCheckpointReady ctx s.toPBFTConsensus s.confirmedTrans.length with
    | false => exact .inl ⟨rfl, if_pos (by simp)⟩
    | true => exact .inr ⟨rfl, if_neg (by simp)⟩

theorem stableCheckpointReady_append {c c' : PBFTConsensus} {ms : List Message} {seq : Nat}
    (hlog : c'.receivedMessages = c.receivedMessages ++ ms) (hview : c'.view = c.view)
    (h : stableCheckpointReady ctx c seq = true) : stableCheckpointReady ctx c' seq = true := by
  obtain ⟨hseq, d, hcount⟩ := stableCheckpointReady_iff.mp h
  refine stableCheckpointReady_iff.mpr ⟨hseq, d, hcount.trans_le ?_⟩
  unfold checkpointVotes checkpoints
  rw [hlog, hview, List.filterMap_append, List.filter_append, List.map_append, List.count_append]
  omega

theorem checkpoints_filter {log : List Message} {n v : Nat} :
    ((log.filter fun m => decide (n ≤ m.seqNum)).filterMap Message.checkpoint?).filter
        (fun m => decide (m.seqNum = n ∧ m.view = v)) =
      (log.filterMap Message.checkpoint?).filter fun m => decide (m.seqNum = n ∧ m.view = v) := by
  induction log with
  | nil => rfl
  | cons msg log ih =>
    by_cases hle : n ≤ msg.seqNum
    · rw [List.filter_cons_of_pos (by simpa using hle)]
      cases msg <;> simp_all [List.filterMap_cons, Message.checkpoint?, List.filter_cons]
    · rw [List.filter_cons_of_neg (by simpa using hle), ih]
      cases msg with
      | checkpoint k =>
        have hne : k.seqNum ≠ n := fun h => hle h.ge
        simp [Message.checkpoint?, hne]
      | _ => rfl

/-- The water marks are those of the stable checkpoint. -/
structure MarksSet (c : PBFTConsensus) : Prop where
  low : c.lowWaterMark = c.lastStableCheckpoint
  high : c.highWaterMark = c.lastStableCheckpoint + WINDOW

theorem propose_frame (ctx : Ctx) (s : Local) :
    (propose ctx s).lastStableCheckpoint = s.lastStableCheckpoint ∧
      (MarksSet s.toPBFTConsensus → MarksSet (propose ctx s).toPBFTConsensus) ∧
      (∃ ms, (propose ctx s).receivedMessages = s.receivedMessages ++ ms) ∧
      (propose ctx s).phase = .prepare := by
  obtain ⟨tx, queue, next, outbox, heq⟩ := propose_eq ctx s
  rw [heq]
  exact ⟨rfl, fun h => ⟨h.low, h.high⟩, ⟨_, rfl⟩, rfl⟩

theorem decideRequest_frame (ctx : Ctx) (req : ClientRequest) (s : Local) :
    (decideRequest ctx req s).lastStableCheckpoint = s.lastStableCheckpoint ∧
      (MarksSet s.toPBFTConsensus → MarksSet (decideRequest ctx req s).toPBFTConsensus) ∧
      ∃ ms, (decideRequest ctx req s).receivedMessages = s.receivedMessages ++ ms := by
  unfold decideRequest sendCheckpoint
  dsimp only
  split_ifs
  · exact ⟨rfl, fun h => ⟨h.low, h.high⟩, [], (List.append_nil _).symm⟩
  · exact ⟨rfl, fun h => ⟨h.low, h.high⟩, _, rfl⟩

theorem call_frame (ctx : Ctx) (s : Local) :
    (call ctx s).1.lastStableCheckpoint = (maybeStableCheckpoint ctx s).lastStableCheckpoint ∧
    (MarksSet (maybeStableCheckpoint ctx s).toPBFTConsensus → MarksSet (call ctx s).1.toPBFTConsensus) ∧
    (∃ ms, (call ctx s).1.receivedMessages = (maybeStableCheckpoint ctx s).receivedMessages ++ ms) ∧
    ((call ctx s).1.phase = .viewChange ∨ (call ctx s).1.phase = .newView →
      (call ctx s).1 = requestViewChange ctx (maybeStableCheckpoint ctx s) ∨
        (s.phase = .viewChange ∨ s.phase = .newView) ∧ (call ctx s).1.view = s.view ∧
          (call ctx s).1.viewChangeAnchorSeq = s.viewChangeAnchorSeq ∧
          (call ctx s).1.confirmedTrans = s.confirmedTrans) := by
  have hcall := call_cases ctx s
  obtain ⟨lastStable, low, high, log, htrimmed, -⟩ := maybeStableCheckpoint_eq ctx s
  rw [htrimmed] at hcall ⊢
  generalize call ctx s = res at hcall ⊢
  cases hcall with
  | timeout => exact ⟨rfl, fun h => ⟨h.low, h.high⟩, ⟨_, rfl⟩, fun _ => .inl rfl⟩
  | wait => exact ⟨rfl, id, ⟨[], (List.append_nil _).symm⟩, fun h => .inr ⟨h, rfl, rfl, rfl⟩⟩
  | propose =>
    obtain ⟨hstable, hmarks, hlog, hphase⟩ := propose_frame ctx (trimmed s lastStable low high log)
    exact ⟨hstable, hmarks, hlog, fun h => by simp [hphase] at h⟩
  | prepare pp => exact ⟨rfl, fun h => ⟨h.low, h.high⟩, ⟨_, rfl⟩, by simp⟩
  | commit pp => exact ⟨rfl, fun h => ⟨h.low, h.high⟩, ⟨_, rfl⟩, by simp⟩
  | decide pp =>
    obtain ⟨hstable, hmarks, hlog⟩ := decideRequest_frame ctx pp.request (trimmed s lastStable low high log)
    exact ⟨hstable, hmarks, hlog, by simp [decideRequest]⟩
  | enterNewView hphase =>
    split_ifs
    · exact ⟨rfl, fun h => ⟨h.low, h.high⟩, ⟨_, rfl⟩, fun _ => .inr ⟨.inl hphase, rfl, rfl, rfl⟩⟩
    · exact ⟨rfl, fun h => ⟨h.low, h.high⟩, ⟨[], (List.append_nil _).symm⟩,
        fun _ => .inr ⟨.inl hphase, rfl, rfl, rfl⟩⟩
  | install nv =>
    obtain ⟨sent, heq, -⟩ := foldl_reissue ctx nv.preparedProof { trimmed s lastStable low high log with
      lowWaterMark := lastStable
      highWaterMark := lastStable + WINDOW }
    refine ⟨?_, fun _ => ⟨?_, ?_⟩, ?_, by simp⟩
    · exact congrArg (·.lastStableCheckpoint) heq
    · exact (congrArg (·.lowWaterMark) heq).trans (congrArg (·.lastStableCheckpoint) heq).symm
    · exact (congrArg (·.highWaterMark) heq).trans
        (congrArg (·.lastStableCheckpoint + WINDOW) heq).symm
    · exact ⟨sent, congrArg (·.receivedMessages) heq⟩

theorem decideRequest_confirmedTrans (ctx : Ctx) (req : ClientRequest) (s : Local) :
    (decideRequest ctx req s).confirmedTrans = s.confirmedTrans ++ [req] := by
  unfold decideRequest sendCheckpoint
  dsimp only
  split_ifs <;> rfl

theorem confirmedTrans_cases (ctx : Ctx) (s : Local) : (call ctx s).1.confirmedTrans = s.confirmedTrans ∨
    s.phase = .commit ∧ ¬ s.viewChangeTimer < ctx.round ∧ ∃ pp,
      committedProposal ctx (maybeStableCheckpoint ctx s).toPBFTConsensus = some pp ∧
        (call ctx s).1.confirmedTrans = s.confirmedTrans ++ [pp.request] := by
  have hcall := call_cases ctx s
  obtain ⟨lastStable, low, high, log, htrimmed, -⟩ := maybeStableCheckpoint_eq ctx s
  rw [htrimmed] at hcall ⊢
  generalize call ctx s = res at hcall ⊢
  cases hcall with
  | timeout => exact .inl rfl
  | wait => exact .inl rfl
  | propose => exact .inl (propose_confirmedTrans ctx _)
  | prepare => exact .inl rfl
  | commit => exact .inl rfl
  | decide pp hphase htimer hpp =>
    exact .inr ⟨hphase, htimer, pp, hpp, decideRequest_confirmedTrans ..⟩
  | enterNewView =>
    split_ifs
    · exact .inl rfl
    · exact .inl rfl
  | install nv =>
    obtain ⟨sent, heq, -⟩ := foldl_reissue ctx nv.preparedProof { trimmed s lastStable low high log with
      lowWaterMark := lastStable
      highWaterMark := lastStable + WINDOW }
    exact .inl (congrArg (·.confirmedTrans) heq)

theorem confirmedTrans_grows (ctx : Ctx) (s : Local) : s.confirmedTrans <+: (call ctx s).1.confirmedTrans := by
  rcases confirmedTrans_cases ctx s with h | ⟨-, -, pp, -, h⟩
  · rw [h]
  · rw [h]
    exact List.prefix_append _ _

theorem onMessage_frame (ctx : Ctx) (msg : Message) (s : Local) : ∃ ms queue,
    onMessage ctx msg s = { s with
      receivedMessages := s.receivedMessages ++ ms
      unhandledRequests := queue } := by
  cases msg with
  | request req => exact ⟨[], _, by rw [List.append_nil]; rfl⟩
  | _ => exact ⟨_, _, rfl⟩

end Quantas.Pbft
