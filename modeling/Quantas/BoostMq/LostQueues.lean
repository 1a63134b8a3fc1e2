import Quantas.BoostMq.Frames

/-!
# Data queues that are lost

A peer makes its data queue before it reports ready and opens it in `configure`, after the assignments. In between
`cleanUp` of the test before may remove the new queue under the old name. The peer then fails in `configure`, whatever
the others do: a data queue that is lost stays lost (`State.Lost`), and none is lost by a step of the leader alone.
-/

namespace Quantas.BoostMq

variable {totalPeers tests : Nat} {s s' : State} {i j : Nat}

/-! ## Between making and opening -/

@[simp] def PeerPc.beforeOpen : PeerPc → Bool
  | .openBarrier | .sendReady _ | .waitForAssignments | .configure => true
  | _ => false

/-- Peer `i` has still to open its data queue, and `cleanUp` has removed it or does so next. -/
def State.Lost (s : State) (i : Nat) : Prop :=
  (s.peer i).beforeOpen ∧ (s.queues.linked (.data i) = none ∨ s.leader = .dropData i)

/-- Peer `i` finds no data queue to open: `configure` throws. -/
def State.Fails (s : State) (i : Nat) : Prop :=
  s.peer i = .configure ∧ s.queues.linked (.data i) = none

instance (s : State) (i : Nat) : Decidable (s.Lost i) := inferInstanceAs (Decidable (_ ∧ _))

theorem State.Fails.lost (h : s.Fails i) : s.Lost i := by
  obtain ⟨hpc, hdata⟩ := h
  refine ⟨?_, .inl hdata⟩
  rw [hpc]
  rfl

theorem PeerPc.grade_of_beforeOpen {pc : PeerPc} (h : pc.beforeOpen) : 2 ≤ pc.grade ∧ pc.grade ≤ 3 := by
  cases pc <;> simp at h ⊢

theorem LeaderPc.grade_eq_three {leader : LeaderPc} : leader.grade i = 3 ↔ leader = .dropData i := by
  cases leader with
  | dropData k =>
    rw [LeaderPc.grade, LeaderPc.dropData.injEq]
    split_ifs <;> omega
  | waitForAllReady | openInbox | sendSignal | waitForAllDone | dropControl =>
    dsimp only [LeaderPc.grade]
    split_ifs <;> simp
  | _ => simp

theorem peerStep_beforeOpen (hstep : peerStep totalPeers tests i s = some s') :
    ((s.peer i).beforeOpen → s'.queues.linked (.data i) = s.queues.linked (.data i) ∧
      ((s'.peer i).beforeOpen ∨ s.queues.linked (.data i) ≠ none)) ∧
    ((s'.peer i).beforeOpen → (s.peer i).beforeOpen ∨ s'.queues.linked (.data i) ≠ none) := by
  unfold peerStep at hstep
  cases hpc : s.peer i <;> rw [hpc] at hstep <;>
    simp only [Option.map_eq_some_iff, Option.some.injEq, reduceCtorEq] at hstep
  case openBarrier =>
    obtain ⟨queue, -, rfl⟩ := hstep
    simp
  case sendReady queue =>
    obtain ⟨q, hsend, rfl⟩ := hstep
    obtain rfl := Lib.NamedQueues.send_eq_some hsend
    simp [State.record]
  case waitForAssignments =>
    split at hstep
    · rename_i q hreceive
      obtain ⟨rest, -, rfl⟩ := Lib.NamedQueues.receive_eq_some hreceive
      obtain rfl := Option.some.inj hstep
      simp
    · cases hstep
  case configure =>
    obtain ⟨queue, hlinked, rfl⟩ := hstep
    simp [hlinked]
  case makeData =>
    obtain ⟨q, hcreate, rfl⟩ := hstep
    obtain ⟨-, rfl⟩ := Lib.NamedQueues.create_eq_some hcreate
    simp
  case removeControl | removeData | dropControl | dropData =>
    subst hstep
    simp
  case makeControl | openDone | sendDone =>
    obtain ⟨_, -, rfl⟩ := hstep
    simp [State.record]
  case waitForStart =>
    split at hstep
    · obtain rfl := Option.some.inj hstep
      simp
    · cases hstep
  case waitForStop =>
    split at hstep
    · obtain rfl := Option.some.inj hstep
      rw [State.setPeer_self]
      split_ifs <;> simp
    · cases hstep
  case waitForQueueRemoval =>
    split_ifs at hstep <;> obtain rfl := Option.some.inj hstep <;> simp [State.record, State.setPeer]

theorem peerStep_dropData (h : Rendezvous totalPeers tests s) (hi : i < totalPeers) (hpc : s.leader = .dropData i)
    (hbefore : (s.peer i).beforeOpen) : peerStep totalPeers tests i s = none := by
  have hpeer := h.peers i hi
  have haligned := hpeer.aligned
  have hthree : s.leaderGrade i = 3 := LeaderPc.grade_eq_three.mpr hpc
  unfold Aligned State.peerGrade at haligned
  unfold peerStep
  cases hpeerPc : s.peer i <;> rw [hpeerPc] at hbefore haligned <;> dsimp only [PeerPc.grade] at haligned ⊢
  case openBarrier =>
    rw [h.barrier, hpc, if_neg (by simp)]
    rfl
  case sendReady queue =>
    have hkeeps := (hpeer.opened queue hpeerPc).2.2
    rw [hpc] at hkeeps
    cases hkeeps
  case waitForAssignments => omega
  case configure => omega
  all_goals cases hbefore

/-! ## Lost for good -/

namespace State.Lost

theorem of_leaderStep (h : s.Lost i) (hstep : leaderStep totalPeers tests s = some s') : s'.Lost i := by
  obtain ⟨hbefore, hgone⟩ := h
  have hframe := (leaderStep_frame hstep).1
  refine ⟨hframe.peer ▸ hbefore, .inl ?_⟩
  rw [hframe.data]
  split_ifs with hdrop
  · rfl
  · exact hgone.resolve_right hdrop

theorem of_peerStep (h : s.Lost i) (hinv : Rendezvous totalPeers tests s) (hi : i < totalPeers)
    (hstep : peerStep totalPeers tests j s = some s') : s'.Lost i := by
  obtain ⟨hbefore, hgone⟩ := h
  by_cases hij : i = j
  · subst hij
    have hnone : s.queues.linked (.data i) = none := by
      apply hgone.resolve_right
      intro hdrop
      rw [peerStep_dropData hinv hi hdrop hbefore] at hstep
      cases hstep
    obtain ⟨hlinked, hstays⟩ := (peerStep_beforeOpen hstep).1 hbefore
    exact ⟨hstays.resolve_right (not_not_intro hnone), .inl (hlinked.trans hnone)⟩
  · have hframe := peerStep_frame hstep
    unfold State.Lost
    rw [hframe.peer i hij, hframe.others i hij, hframe.leader]
    exact ⟨hbefore, hgone⟩

theorem of_peerRetry (h : s.Lost i) (hstep : peerRetry j s = some s') : s'.Lost i := by
  obtain ⟨hbefore, hgone⟩ := h
  unfold peerRetry at hstep
  split at hstep
  · rename_i queue hpc
    obtain rfl := Option.some.inj hstep
    refine ⟨?_, hgone⟩
    by_cases hij : i = j
    · rw [hij, State.setPeer_self]
      rfl
    · rw [State.setPeer_of_ne hij]
      exact hbefore
  · rename_i queue hpc
    obtain rfl := Option.some.inj hstep
    have hij : i ≠ j := by
      rintro rfl
      rw [hpc] at hbefore
      cases hbefore
    refine ⟨?_, hgone⟩
    rw [State.setPeer_of_ne hij]
    exact hbefore
  · cases hstep

theorem run (h : s.Lost i) (hr : (machine totalPeers tests).Reached s) (hi : i < totalPeers) {es : List Event}
    (hrun : (machine totalPeers tests).run s es = some s') : s'.Lost i := by
  induction es generalizing s with
  | nil =>
    obtain rfl := Option.some.inj hrun
    exact h
  | cons e es ih =>
    obtain ⟨t, ht, hrest⟩ := Option.bind_eq_some_iff.mp hrun
    refine ih ?_ (.next hr trivial ht) hrest
    change step totalPeers tests s e = some t at ht
    cases e with
    | leader => exact h.of_leaderStep ht
    | peer k =>
      rw [step] at ht
      split_ifs at ht
      exact h.of_peerStep (rendezvous hr) hi ht
    | retry k =>
      rw [step] at ht
      split_ifs at ht
      exact h.of_peerRetry ht

end State.Lost

/-! ## Steps that lose nothing -/

theorem not_lost_of_leaderStep (hinv : Rendezvous totalPeers tests s) (hi : i < totalPeers)
    (hstep : leaderStep totalPeers tests s = some s') (hkept : ¬ s.Lost i) : ¬ s'.Lost i := by
  have hframe := (leaderStep_frame hstep).1
  rintro ⟨hbefore, hgone⟩
  have hpeer : s'.peer i = s.peer i := congrFun hframe.peer i
  have htest : s'.peerTest i = s.peerTest i := congrFun hframe.peerTest i
  have hbefore' : (s.peer i).beforeOpen := hpeer ▸ hbefore
  have hleader : s.leader ≠ .dropData i := fun hdrop => hkept ⟨hbefore', .inr hdrop⟩
  rw [hframe.data, if_neg hleader] at hgone
  rcases hgone with hnone | hdrop
  · exact hkept ⟨hbefore', .inl hnone⟩
  -- the peer would be in the next test, with the leader past the removal of the control queue
  have hbefore_grade := PeerPc.grade_of_beforeOpen hbefore'
  have hthree : s'.leaderGrade i = 3 := LeaderPc.grade_eq_three.mpr hdrop
  have hnot_three : s.leaderGrade i ≠ 3 := fun h => hleader (LeaderPc.grade_eq_three.mp h)
  have haligned := (hinv.peers i hi).aligned
  have haligned' := ((hinv.of_leader_step hstep).peers i hi).aligned
  unfold Aligned State.peerGrade at haligned haligned'
  rw [hpeer, htest] at haligned'
  rcases hframe.grades with ⟨hsame, hmono⟩ | ⟨-, hremove, -⟩
  · have hgrows := hmono i
    omega
  · rw [hdrop] at hremove
    cases hremove

theorem not_lost_of_peerStep (hstep : peerStep totalPeers tests j s = some s') (hleader : s.leader ≠ .dropData i)
    (hkept : ¬ s.Lost i) : ¬ s'.Lost i := by
  have hframe := peerStep_frame hstep
  rintro ⟨hbefore, hgone⟩
  rw [hframe.leader] at hgone
  have hnone := hgone.resolve_right hleader
  by_cases hij : i = j
  · subst hij
    obtain ⟨hold, hnew⟩ := peerStep_beforeOpen hstep
    rcases hnew hbefore with hbefore' | hmade
    · exact hkept ⟨hbefore', .inl ((hold hbefore').1 ▸ hnone)⟩
    · exact hmade hnone
  · rw [hframe.peer i hij] at hbefore
    rw [hframe.others i hij] at hnone
    exact hkept ⟨hbefore, .inl hnone⟩

end Quantas.BoostMq
