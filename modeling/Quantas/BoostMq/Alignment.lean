import Quantas.BoostMq.Rendezvous

/-!
# How far the leader and a peer can be apart

The program counters are graded by what matters between the leader and one peer. `Aligned` says which grades
and tests go together: a peer runs one test ahead of the leader only between the removal of its control queue
and the new barrier, and one test behind only until the leader has counted its ready. `PeerInv` is the invariant of
the leader and one peer, with one lemma for each kind of step.
-/

namespace Quantas.BoostMq

/-! ## Grades -/

/-- What the leader has done in its test for peer `i`: 0 before it counts the ready, 1 before it counts the
completion, 2 before `cleanUp` removes the control queue, 3 before it removes the data queue, 4 after. -/
@[simp] def LeaderPc.grade (i : Nat) : LeaderPc → Nat
  | .removeBarrier | .removeDone | .makeBarrier | .makeDone => 0
  | .waitForAllReady ready => if i ∈ ready then 1 else 0
  | .openInbox signal _ | .sendSignal signal _ _ => if signal = .stop then 2 else 1
  | .openDone => 1
  | .waitForAllDone _ completed => if i ∈ completed then 2 else 1
  | .dropBarrier | .dropDone => 2
  | .dropControl j => if j ≤ i then 2 else 4
  | .dropData j => if i < j then 4 else if i = j then 3 else 2
  | .finished => 4

/-- What a peer has done in its test: 0 before its control queue is made, 1 before its data queue is, 2 before
its ready is sent, 3 before its completion is sent, 4 before it has stopped, 5 after its last test. -/
@[simp] def PeerPc.grade : PeerPc → Nat
  | .removeControl | .removeData | .makeControl => 0
  | .makeData => 1
  | .openBarrier | .sendReady _ => 2
  | .waitForAssignments | .configure | .waitForStart | .openDone | .sendDone _ => 3
  | .waitForStop | .waitForQueueRemoval => 4
  | .dropControl | .dropData | .finished => 5

/-- The leader keeps `mq_barrier` from `createBarrier` to the start of `cleanUp`. -/
@[simp] def LeaderPc.keepsBarrier : LeaderPc → Bool
  | .removeBarrier | .removeDone | .makeBarrier => false
  | .dropDone | .dropControl _ | .dropData _ | .finished => false
  | _ => true

@[simp] def LeaderPc.keepsDone : LeaderPc → Bool
  | .removeBarrier | .removeDone | .makeBarrier | .makeDone => false
  | .dropControl _ | .dropData _ | .finished => false
  | _ => true

/-- The leader in test `t` at grade `a` and a peer in test `p` at grade `b`. -/
def Aligned (t a p b : Nat) : Prop :=
  p = t + 1 ∧ 3 ≤ a ∧ b ≤ 2 ∨
  p = t ∧ (b ≤ 2 → a = 0) ∧ (b = 3 → a ≤ 1) ∧ (b = 5 → 3 ≤ a) ∨
  p + 1 = t ∧ a = 0 ∧ b = 4

/-! ## The invariant -/

variable (totalPeers tests : Nat)

namespace State

/-- The grade of the leader towards peer `i`. -/
abbrev leaderGrade (s : State) (i : Nat) : Nat := s.leader.grade i

abbrev peerGrade (s : State) (i : Nat) : Nat := (s.peer i).grade

end State

structure PeerInv (s : State) (i : Nat) : Prop where
  aligned : Aligned s.leaderTest (s.leaderGrade i) (s.peerTest i) (s.peerGrade i)
  positive : 1 ≤ s.peerTest i
  last : s.peerGrade i = 5 → tests ≤ s.peerTest i
  /-- The control queue of the peer's test stays linked until the leader removes it. -/
  control : 1 ≤ s.peerGrade i → s.peerGrade i ≤ 4 → s.leaderTest ≤ s.peerTest i →
    (s.peerTest i = s.leaderTest → s.leaderGrade i ≤ 2) →
    s.queues.linked (.control i) = some (s.peerTest i)
  /-- The ready of the peer is in `mq_barrier` from its sending to its counting. -/
  ready : (s.queues.messages .barrier s.leaderTest).count (.ready i s.leaderTest) =
    if s.peerTest i = s.leaderTest ∧ 3 ≤ s.peerGrade i ∧ s.leaderGrade i = 0 then 1 else 0
  /-- An open handle on `mq_barrier` is on the barrier of the running test. -/
  opened : ∀ queue, s.peer i = .sendReady queue →
    queue = s.leaderTest ∧ s.peerTest i = s.leaderTest ∧ s.leader.keepsBarrier
  openedDone : ∀ queue, s.peer i = .sendDone queue → queue = s.leaderTest
  completed : .done i ∈ s.queues.messages .done s.leaderTest →
    s.leaderTest < s.peerTest i ∨ s.peerTest i = s.leaderTest ∧ 4 ≤ s.peerGrade i

/-! ## Grades and alignment -/

section Grades
variable {i : Nat} {leader : LeaderPc}

theorem LeaderPc.grade_le_two_of_keepsBarrier (h : leader.keepsBarrier) : leader.grade i ≤ 2 := by
  revert h
  cases leader <;> simp [LeaderPc.keepsBarrier, LeaderPc.grade] <;> split_ifs <;> simp

end Grades

variable {totalPeers tests} {s s' : State} {i : Nat}

namespace PeerInv

theorem grade_zero_of_sendReady (h : PeerInv tests s i) {queue : Nat} (hpc : s.peer i = .sendReady queue) :
    s.leaderGrade i = 0 := by
  have htest := (h.opened queue hpc).2.1
  have hgrade : s.peerGrade i = 2 := by simp [State.peerGrade, hpc, PeerPc.grade]
  have haligned := h.aligned
  unfold Aligned at haligned
  omega

theorem of_others (h : PeerInv tests s i) (hT : s'.leaderTest = s.leaderTest)
    (hpeer : s'.peer i = s.peer i) (htest : s'.peerTest i = s.peerTest i)
    (haligned : Aligned s.leaderTest (s'.leaderGrade i) (s.peerTest i) (s.peerGrade i))
    (hmono : s.leaderGrade i ≤ s'.leaderGrade i)
    (hcontrol : (s.peerTest i = s.leaderTest → s'.leaderGrade i ≤ 2) →
      s'.queues.linked (.control i) = s.queues.linked (.control i))
    (hready : (s'.queues.messages .barrier s.leaderTest).count (.ready i s.leaderTest) =
      if s.peerTest i = s.leaderTest ∧ 3 ≤ s.peerGrade i ∧ s'.leaderGrade i = 0 then 1 else 0)
    (hdone : .done i ∈ s'.queues.messages .done s.leaderTest →
      .done i ∈ s.queues.messages .done s.leaderTest)
    (hkeeps : s.leaderGrade i = 0 → s.leader.keepsBarrier → s'.leader.keepsBarrier) :
    PeerInv tests s' i := by
  have hgrade : s'.peerGrade i = s.peerGrade i := congrArg PeerPc.grade hpeer
  constructor
  · rw [hT, htest, hgrade]
    exact haligned
  · rw [htest]
    exact h.positive
  · rw [hgrade, htest]
    exact h.last
  · rw [hgrade, hT, htest]
    intro hlow hhigh hle hdrop
    rw [hcontrol hdrop]
    exact h.control hlow hhigh hle fun hsame => hmono.trans (hdrop hsame)
  · rw [hT, hready, htest, hgrade]
  · intro queue hpc
    rw [hpeer] at hpc
    obtain ⟨hqueue, hsame, hk⟩ := h.opened queue hpc
    exact ⟨by rw [hT, hqueue], by rw [hT, htest, hsame], hkeeps (h.grade_zero_of_sendReady hpc) hk⟩
  · intro queue hpc
    rw [hpeer] at hpc
    rw [hT]
    exact h.openedDone queue hpc
  · rw [hT, hgrade, htest]
    exact fun hmem => h.completed (hdone hmem)

theorem congr (h : PeerInv tests s i) (hT : s'.leaderTest = s.leaderTest)
    (hleader : s'.leaderGrade i = s.leaderGrade i) (hpeer : s'.peer i = s.peer i)
    (htest : s'.peerTest i = s.peerTest i)
    (hcontrol : s'.queues.linked (.control i) = s.queues.linked (.control i))
    (hready : (s'.queues.messages .barrier s.leaderTest).count (.ready i s.leaderTest) =
      (s.queues.messages .barrier s.leaderTest).count (.ready i s.leaderTest))
    (hdone : .done i ∈ s'.queues.messages .done s.leaderTest →
      .done i ∈ s.queues.messages .done s.leaderTest)
    (hkeeps : s.leaderGrade i = 0 → s.leader.keepsBarrier → s'.leader.keepsBarrier) :
    PeerInv tests s' i :=
  h.of_others hT hpeer htest (hleader ▸ h.aligned) hleader.ge (fun _ => hcontrol)
    (by rw [hready, hleader, h.ready]) hdone hkeeps

theorem of_peer (h : PeerInv tests s i) (hleader : s'.leader = s.leader)
    (hT : s'.leaderTest = s.leaderTest) (htest : s'.peerTest i = s.peerTest i)
    (hgrade : s'.peerGrade i = s.peerGrade i ∨ s.peerGrade i ≤ 2 ∧ s'.peerGrade i ≤ 2)
    (hcontrol : 1 ≤ s'.peerGrade i → s'.peerGrade i ≤ 4 →
      s'.queues.linked (.control i) = some (s.peerTest i) ∨
        1 ≤ s.peerGrade i ∧ s.peerGrade i ≤ 4 ∧
          s'.queues.linked (.control i) = s.queues.linked (.control i))
    (hready : s'.queues.messages .barrier = s.queues.messages .barrier)
    (hdone : s'.queues.messages .done = s.queues.messages .done)
    (hopened : ∀ queue, s'.peer i = .sendReady queue →
      queue = s.leaderTest ∧ s.peerTest i = s.leaderTest ∧ s.leader.keepsBarrier)
    (hopenedDone : ∀ queue, s'.peer i = .sendDone queue → queue = s.leaderTest) :
    PeerInv tests s' i := by
  have hleader' : s'.leaderGrade i = s.leaderGrade i := by simp [State.leaderGrade, hleader]
  constructor
  · rw [hT, hleader', htest]
    have haligned := h.aligned
    unfold Aligned at haligned ⊢
    omega
  · rw [htest]
    exact h.positive
  · intro hlast
    rw [htest]
    exact h.last (by omega)
  · rw [hT, hleader', htest]
    intro hlow hhigh hle hdrop
    rcases hcontrol hlow hhigh with hlink | ⟨hlow', hhigh', hlink⟩
    · exact hlink
    · rw [hlink]
      exact h.control hlow' hhigh' hle hdrop
  · rw [hT, hleader', htest, hready, h.ready]
    congr 1
    simp only [eq_iff_iff]
    omega
  · rw [hT, htest, hleader]
    exact hopened
  · rw [hT]
    exact hopenedDone
  · rw [hT, htest, hdone]
    intro hmem
    have hdone' := h.completed hmem
    omega

/-! ### Steps that move a grade -/

theorem ready_sent (h : PeerInv tests s i) {queue : Nat} (hpc : s.peer i = .sendReady queue)
    (hleader : s'.leader = s.leader) (hT : s'.leaderTest = s.leaderTest)
    (htest : s'.peerTest i = s.peerTest i) (hpeer : s'.peer i = .waitForAssignments)
    (hlinked : s'.queues.linked = s.queues.linked)
    (hready : s'.queues.messages .barrier queue =
      s.queues.messages .barrier queue ++ [.ready i (s.peerTest i)])
    (hdone : s'.queues.messages .done = s.queues.messages .done) : PeerInv tests s' i := by
  obtain ⟨hqueue, hsame, -⟩ := h.opened queue hpc
  have hzero := h.grade_zero_of_sendReady hpc
  have hleader' : s'.leaderGrade i = s.leaderGrade i := by simp [State.leaderGrade, hleader]
  have hb : s.peerGrade i = 2 := by simp [State.peerGrade, hpc, PeerPc.grade]
  have hb' : s'.peerGrade i = 3 := by simp [State.peerGrade, hpeer, PeerPc.grade]
  have hcount := h.ready
  rw [if_neg (by omega)] at hcount
  subst hqueue
  constructor
  · rw [hT, hleader', htest]
    unfold Aligned
    omega
  · rw [htest]
    exact h.positive
  · omega
  · rw [hT, hleader', htest, hlinked]
    intro _ _
    exact h.control (by omega) (by omega)
  · rw [hT, hready, hsame, List.count_append, hcount, if_pos ⟨by omega, by omega, by omega⟩]
    simp
  · simp [hpeer]
  · simp [hpeer]
  · rw [hT, htest, hdone]
    intro hmem
    have hfour := h.completed hmem
    omega

theorem completion_sent (h : PeerInv tests s i) {queue : Nat} (hpc : s.peer i = .sendDone queue)
    (hleader : s'.leader = s.leader) (hT : s'.leaderTest = s.leaderTest)
    (htest : s'.peerTest i = s.peerTest i) (hpeer : s'.peer i = .waitForStop)
    (hlinked : s'.queues.linked = s.queues.linked)
    (hready : s'.queues.messages .barrier = s.queues.messages .barrier) : PeerInv tests s' i := by
  have hleader' : s'.leaderGrade i = s.leaderGrade i := by simp [State.leaderGrade, hleader]
  have hb : s.peerGrade i = 3 := by simp [State.peerGrade, hpc, PeerPc.grade]
  have hb' : s'.peerGrade i = 4 := by simp [State.peerGrade, hpeer, PeerPc.grade]
  constructor
  · rw [hT, hleader', htest]
    have haligned := h.aligned
    unfold Aligned at haligned ⊢
    omega
  · rw [htest]
    exact h.positive
  · omega
  · rw [hT, hleader', htest, hlinked]
    intro _ _
    exact h.control (by omega) (by omega)
  · rw [hT, hleader', htest, hready, h.ready]
    congr 1
    simp only [eq_iff_iff]
    omega
  · simp [hpeer]
  · simp [hpeer]
  · intro _
    have haligned := h.aligned
    unfold Aligned at haligned
    omega

theorem stopped (h : PeerInv tests s i) (hpc : s.peer i = .waitForQueueRemoval)
    (hremoved : s.queues.linked (.control i) = none) (htests : 2 ≤ s.leaderTest → s.leaderTest ≤ tests)
    (hleader : s'.leader = s.leader) (hT : s'.leaderTest = s.leaderTest) (hqueues : s'.queues = s.queues)
    (hpeer : s'.peer i = .removeControl ∧ s'.peerTest i = s.peerTest i + 1 ∨
      s'.peer i = .dropControl ∧ s'.peerTest i = s.peerTest i ∧ tests ≤ s.peerTest i) :
    PeerInv tests s' i := by
  have hleader' : s'.leaderGrade i = s.leaderGrade i := by simp [State.leaderGrade, hleader]
  have hb : s.peerGrade i = 4 := by simp [State.peerGrade, hpc, PeerPc.grade]
  have hb' : s'.peerGrade i = 0 ∧ s'.peerTest i = s.peerTest i + 1 ∨
      s'.peerGrade i = 5 ∧ s'.peerTest i = s.peerTest i ∧ tests ≤ s.peerTest i := by
    rcases hpeer with ⟨hpc', hp⟩ | ⟨hpc', hp⟩
    · exact .inl ⟨by simp [State.peerGrade, hpc', PeerPc.grade], hp⟩
    · exact .inr ⟨by simp [State.peerGrade, hpc', PeerPc.grade], hp⟩
  have haligned := h.aligned
  have hpositive := h.positive
  -- in the leader's test the control queue is removed by the leader only
  have hgone : s.peerTest i = s.leaderTest → 3 ≤ s.leaderGrade i := by
    intro hsame
    by_contra hlow
    have hlinked := h.control (by omega) (by omega) (by omega) (by omega)
    rw [hremoved] at hlinked
    cases hlinked
  unfold Aligned at haligned
  have hready := h.ready
  have hcount : (s.queues.messages .barrier s.leaderTest).count (.ready i s.leaderTest) = 0 := by
    rw [hready, if_neg (by omega)]
  constructor
  · rw [hT, hleader']
    unfold Aligned
    omega
  · omega
  · omega
  · omega
  · rw [hT, hleader', hqueues, hcount, if_neg (by omega)]
  · rcases hpeer with ⟨hpc', -⟩ | ⟨hpc', -⟩ <;> simp [hpc']
  · rcases hpeer with ⟨hpc', -⟩ | ⟨hpc', -⟩ <;> simp [hpc']
  · rw [hT, hqueues]
    intro hmem
    have hdone := h.completed hmem
    omega

theorem next_test (h : PeerInv tests s i) (hdropped : s.leaderGrade i = 4)
    (hmore : s.leaderTest < tests) (hT : s'.leaderTest = s.leaderTest + 1)
    (hleader : s'.leader = .removeBarrier) (hpeer : s'.peer i = s.peer i)
    (htest : s'.peerTest i = s.peerTest i) (hqueues : s'.queues = s.queues)
    (hready : s.queues.messages .barrier (s.leaderTest + 1) = [])
    (hdone : s.queues.messages .done (s.leaderTest + 1) = []) : PeerInv tests s' i := by
  have hgrade : s'.peerGrade i = s.peerGrade i := congrArg PeerPc.grade hpeer
  have hzero : s'.leaderGrade i = 0 := by simp [State.leaderGrade, hleader, LeaderPc.grade]
  have haligned := h.aligned
  have hlast := h.last
  unfold Aligned at haligned
  constructor
  · rw [hT, htest, hgrade]
    unfold Aligned
    have hmax : s.peerGrade i ≤ 5 := by
      unfold State.peerGrade
      cases s.peer i <;> simp [PeerPc.grade]
    omega
  · rw [htest]
    exact h.positive
  · rw [hgrade, htest]
    exact h.last
  · rw [hgrade, hT, htest, hqueues]
    intro hlow hhigh hle _
    exact h.control hlow hhigh (by omega) (by omega)
  · rw [hT, hqueues, hready, if_neg (by omega)]
    simp
  · intro queue hpc
    rw [hpeer] at hpc
    have := h.grade_zero_of_sendReady hpc
    omega
  · intro queue hpc
    rw [hpeer] at hpc
    have hb : s.peerGrade i = 3 := by simp [State.peerGrade, hpc, PeerPc.grade]
    omega
  · rw [hT, hqueues, hdone]
    simp

end PeerInv

end Quantas.BoostMq
