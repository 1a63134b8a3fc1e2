import Quantas.BoostMq.Frames

/-!
# The queues of the next test

A peer starts its next test when its control queue is gone, while `cleanUp` removes its data queue only
afterwards. What the peer created in between is removed under the old name: the queues of the next test are all
there at `broadcastStart` in the runs in which `cleanUp` comes to each data queue before its peer has made a
new one, and a run in which it comes later loses a data queue.
-/

namespace Quantas.BoostMq

/-! ## The condition and the property -/

namespace State
variable (s : State)

/-- Peer `i` has created its data queue for test `test`. -/
def CreatedData (i test : Nat) : Prop :=
  s.peerTest i = test ∧ s.peer i ≠ .removeControl ∧ s.peer i ≠ .removeData ∧ s.peer i ≠ .makeControl ∧
    s.peer i ≠ .makeData

instance (i test : Nat) : Decidable (s.CreatedData i test) := by
  unfold CreatedData
  infer_instance

/-- The leader is in `broadcastStart` of its test. -/
def BroadcastsStart : Prop :=
  (∃ i, s.leader = .openInbox .start i) ∨ ∃ i queue, s.leader = .sendSignal .start i queue

/-- The leader is in `cleanUp` of its test. -/
def CleansUp : Prop :=
  s.leader = .dropBarrier ∨ s.leader = .dropDone ∨ (∃ i, s.leader = .dropControl i) ∨
    ∃ i, s.leader = .dropData i

end State

def LeaderPc.removesData : LeaderPc → Option Nat
  | .dropData i => some i
  | _ => none

/-- The step is no removal of a data queue by `cleanUp` after the peer has made the one of the next test. -/
def RemovesInTime (s : State) (e : Event) : Prop :=
  e = .leader → ∀ i ∈ s.leader.removesData, ¬ s.CreatedData i (s.leaderTest + 1)

instance (s : State) (e : Event) : Decidable (RemovesInTime s e) := by
  unfold RemovesInTime
  infer_instance

variable {totalPeers tests : Nat} {s s' : State} {i : Nat}

theorem State.createdData_of_grade (h : 2 ≤ s.peerGrade i) : s.CreatedData i (s.peerTest i) := by
  refine ⟨rfl, ?_, ?_, ?_, ?_⟩ <;> intro hpc <;> simp [State.peerGrade, hpc] at h

theorem State.peerGrade_le (s : State) (i : Nat) : s.peerGrade i ≤ 5 := by
  unfold State.peerGrade
  cases s.peer i <;> simp

theorem leaderStep_dropData (hpc : s.leader = .dropData i)
    (hstep : leaderStep totalPeers tests s = some s') :
    s'.leaderTest = s.leaderTest ∧ s'.leader = .dropControl (i + 1) := by
  unfold leaderStep at hstep
  rw [hpc] at hstep
  obtain rfl := Option.some.inj hstep
  exact ⟨rfl, rfl⟩

/-! ## The invariant of the data queues -/

structure DataInv (s : State) (i : Nat) : Prop where
  kept : 2 ≤ s.peerGrade i → s.peerGrade i ≤ 4 → s.leaderTest ≤ s.peerTest i →
    (s.peerTest i = s.leaderTest → s.leaderGrade i ≤ 3) →
    s.queues.linked (.data i) = some (s.peerTest i)
  made : ∀ t, s.queues.linked (.data i) = some t →
    t < s.peerTest i ∨ t = s.peerTest i ∧ 2 ≤ s.peerGrade i

namespace DataInv

theorem of_leader_step (h : DataInv s i) (hinv : PeerInv tests s i)
    (hintime : RemovesInTime s .leader) (hstep : leaderStep totalPeers tests s = some s') : DataInv s' i := by
  have hframe := (leaderStep_frame hstep).1
  have hgrade : s'.peerGrade i = s.peerGrade i := by simp only [State.peerGrade, hframe.peer]
  constructor
  · rw [hgrade, hframe.peerTest, hframe.data]
    intro hlow hhigh hle hdrop
    rcases hframe.grades with ⟨hT, hmono⟩ | ⟨hT, -⟩
    · have hgrows := hmono i
      rw [if_neg]
      · exact h.kept hlow hhigh (by omega) (by omega)
      · intro hpc
        -- the peer is in the next test, so the step comes too late
        have hthree : s.leaderGrade i = 3 := by simp [State.leaderGrade, hpc]
        have hfour : s'.leaderGrade i = 4 := by
          simp [State.leaderGrade, (leaderStep_dropData hpc hstep).2]
        have haligned := hinv.aligned
        unfold Aligned at haligned
        have hnext : s.peerTest i = s.leaderTest + 1 := by omega
        exact hintime rfl i (by simp [hpc, LeaderPc.removesData])
          (hnext ▸ State.createdData_of_grade hlow)
    · rw [if_neg]
      · exact h.kept hlow hhigh (by omega) (by omega)
      · intro hpc
        have := (leaderStep_dropData hpc hstep).1
        omega
  · intro t ht
    rw [hframe.data] at ht
    split_ifs at ht
    rw [hframe.peerTest, hgrade]
    exact h.made t ht

theorem of_frame (h : DataInv s i) {j : Nat} (hframe : PeerFrame j s s') : DataInv s' i := by
  have hleader : s'.leaderGrade i = s.leaderGrade i := by simp only [State.leaderGrade, hframe.leader]
  by_cases hij : i = j
  · subst hij
    constructor
    · rw [hframe.leaderTest, hleader]
      intro hlow hhigh hle hdrop
      obtain ⟨htest, hnew | ⟨hlow', hhigh', hold⟩⟩ := hframe.data hlow hhigh
      · rw [hnew, htest]
      · rw [hold, htest]
        rw [htest] at hle hdrop
        exact h.kept hlow' hhigh' hle hdrop
    · intro t ht
      rcases hframe.made t ht with hnew | ⟨hold, hnext⟩
      · exact .inr hnew
      · have hmade := h.made t hold
        omega
  · have hpeer : s'.peerGrade i = s.peerGrade i := by simp only [State.peerGrade, hframe.peer i hij]
    constructor
    · rw [hframe.leaderTest, hleader, hpeer, hframe.peerTest i hij, hframe.others i hij]
      exact h.kept
    · rw [hpeer, hframe.peerTest i hij, hframe.others i hij]
      exact h.made

end DataInv

theorem dataInv (hr : (machine totalPeers tests).ReachedUnder RemovesInTime s) (hi : i < totalPeers) :
    DataInv s i := by
  induction hr with
  | start hs =>
    obtain rfl : _ = ({} : State) := hs
    exact ⟨by simp [State.peerGrade], by simp [Lib.NamedQueues.empty]⟩
  | @next s s' e hr hintime hstep ih =>
    change step totalPeers tests s e = some s' at hstep
    cases e with
    | leader => exact ih.of_leader_step ((rendezvous hr).peers i hi) hintime hstep
    | peer j =>
      rw [step] at hstep
      split_ifs at hstep
      exact ih.of_frame (peerStep_frame hstep)
    | retry j =>
      rw [step] at hstep
      split_ifs at hstep
      exact ih.of_frame (peerRetry_frame hstep)

/-! ## The test boundary -/

theorem dropData_lt {guard : State → Event → Prop} (hr : (machine totalPeers tests).ReachedUnder guard s)
    {k : Nat} (hpc : s.leader = .dropData k) : k < totalPeers := by
  induction hr with
  | start hs =>
    obtain rfl : _ = ({} : State) := hs
    cases hpc
  | @next s s' e hr _ hstep ih =>
    change step totalPeers tests s e = some s' at hstep
    cases e with
    | leader => exact (leaderStep_frame hstep).1.removes k hpc
    | peer j =>
      rw [step] at hstep
      split_ifs at hstep
      exact ih ((peerStep_frame hstep).leader ▸ hpc)
    | retry j =>
      rw [step] at hstep
      split_ifs at hstep
      exact ih ((peerRetry_frame hstep).leader ▸ hpc)

/-- **Test boundary.** In a run whose removals of data queues all come in time, the control and the data queue
that every peer created for a test are there throughout the start broadcast of that test, and no step of
`cleanUp` removes a queue of the next test. -/
theorem test_boundary (hr : (machine totalPeers tests).ReachedUnder RemovesInTime s) :
    (s.BroadcastsStart → ∀ i < totalPeers, s.CreatedData i s.leaderTest ∧
      s.queues.linked (.control i) = some s.leaderTest ∧
      s.queues.linked (.data i) = some s.leaderTest) ∧
    (s.CleansUp → RemovesInTime s .leader → ∀ s', leaderStep totalPeers tests s = some s' →
      ∀ name, s.queues.linked name = some (s.leaderTest + 1) →
        s'.queues.linked name = some (s.leaderTest + 1)) := by
  have hinv := rendezvous hr
  constructor
  · intro hstart i hi
    have hpeer := hinv.peers i hi
    have hdata := dataInv hr hi
    have haligned := hpeer.aligned
    have hone : s.leaderGrade i = 1 := by
      rcases hstart with ⟨k, hpc⟩ | ⟨k, queue, hpc⟩ <;> simp [State.leaderGrade, hpc]
    have hmax := s.peerGrade_le i
    unfold Aligned at haligned
    have hsame : s.peerTest i = s.leaderTest := by omega
    refine ⟨hsame ▸ State.createdData_of_grade (by omega), ?_, ?_⟩
    · rw [← hsame]
      exact hpeer.control (by omega) (by omega) (by omega) (by omega)
    · rw [← hsame]
      exact hdata.kept (by omega) (by omega) (by omega) (by omega)
  · intro hclean hintime s' hstep name hlinked
    have hne (removed : QueueName) (hremoved : s.queues.linked removed ≠ some (s.leaderTest + 1)) :
        name ≠ removed := fun heq => hremoved (heq ▸ hlinked)
    unfold leaderStep at hstep
    rcases hclean with hpc | hpc | ⟨k, hpc⟩ | ⟨k, hpc⟩ <;> rw [hpc] at hstep
    · obtain rfl := Option.some.inj hstep
      rw [Lib.NamedQueues.remove_linked_of_ne (hne .barrier ?_), hlinked]
      rw [hinv.barrier]
      split_ifs <;> simp
    · obtain rfl := Option.some.inj hstep
      rw [Lib.NamedQueues.remove_linked_of_ne (hne .done ?_), hlinked]
      rw [hinv.done]
      split_ifs <;> simp
    · dsimp only at hstep
      split_ifs at hstep with hk
      · obtain rfl := Option.some.inj hstep
        rw [Lib.NamedQueues.remove_linked_of_ne (hne (.control k) ?_), hlinked]
        have hpeer := hinv.peers k hk
        have haligned := hpeer.aligned
        have htwo : s.leaderGrade k = 2 := by simp [State.leaderGrade, hpc]
        have hmax := s.peerGrade_le k
        unfold Aligned at haligned
        rw [hpeer.control (by omega) (by omega) (by omega) (by omega)]
        simp only [ne_eq, Option.some.injEq]
        omega
      · obtain rfl := Option.some.inj hstep
        exact hlinked
      · obtain rfl := Option.some.inj hstep
        exact hlinked
    · obtain rfl := Option.some.inj hstep
      rw [Lib.NamedQueues.remove_linked_of_ne (hne (.data k) ?_), hlinked]
      have hk := dropData_lt hr hpc
      intro hdata
      have hmade := (dataInv hr hk).made _ hdata
      have haligned := (hinv.peers k hk).aligned
      unfold Aligned at haligned
      have hnext : s.peerTest k = s.leaderTest + 1 := by omega
      refine hintime rfl k (by simp [hpc, LeaderPc.removesData]) ?_
      exact hnext ▸ State.createdData_of_grade (by omega)

/-! ## One peer, two tests -/

def leaderSteps (n : Nat) : List Event := List.replicate n .leader

def peerSteps (n : Nat) : List Event := List.replicate n (.peer 0)

/-- The first test up to the removal of the control queue by `cleanUp`. The control inbox has room for one
message, so the leader waits for the peer between two signals. -/
def firstTest : List Event :=
  leaderSteps 4 ++ peerSteps 6 ++ leaderSteps 4 ++ peerSteps 2 ++ leaderSteps 3 ++ peerSteps 1 ++
    leaderSteps 2 ++ peerSteps 2 ++ leaderSteps 4 ++ peerSteps 1 ++ leaderSteps 4

/-- The second test from `createBarrier` to the start broadcast, the queues of the peer being made. -/
def secondTest : List Event :=
  leaderSteps 5 ++ peerSteps 2 ++ leaderSteps 4 ++ peerSteps 1 ++ leaderSteps 1

/-- The data queue of the first test is removed when the peer has made its control queue of the second and not yet
its data queue; both are there at the second start. -/
theorem test_boundary_inTime :
    (∃ s s' : State, (machine 1 2).ReachedUnder RemovesInTime s ∧ s.leader = .dropData 0 ∧
      RemovesInTime s .leader ∧ leaderStep 1 2 s = some s' ∧
      s.queues.linked (.control 0) = some (s.leaderTest + 1) ∧
      s'.queues.linked (.control 0) = some (s.leaderTest + 1)) ∧
    ∃ s : State, (machine 1 2).ReachedUnder RemovesInTime s ∧ s.BroadcastsStart ∧ s.leaderTest = 2 ∧
      s.queues.linked (.control 0) = some 2 ∧ s.queues.linked (.data 0) = some 2 := by
  constructor
  · have hrun : ((machine 1 2).runUnder RemovesInTime {} (firstTest ++ peerSteps 4)).map
        (fun s => decide (s.leader = .dropData 0 ∧ RemovesInTime s .leader ∧
          s.queues.linked (.control 0) = some (s.leaderTest + 1))) = some true := by
      decide +kernel
    obtain ⟨s, hs, hstate⟩ := Option.map_eq_some_iff.mp hrun
    obtain ⟨hpc, hintime, hlinked⟩ := of_decide_eq_true hstate
    have hr := Lib.Machine.reachedUnder_of_runUnder (.start rfl) hs
    obtain ⟨s', hstep⟩ : ∃ s', leaderStep 1 2 s = some s' := by
      rw [leaderStep, hpc]
      exact ⟨_, rfl⟩
    have hkept := (test_boundary hr).2 (.inr (.inr (.inr ⟨0, hpc⟩))) hintime s' hstep _ hlinked
    exact ⟨s, s', hr, hpc, hintime, hstep, hlinked, hkept⟩
  · have hrun : ((machine 1 2).runUnder RemovesInTime {}
        (firstTest ++ peerSteps 4 ++ leaderSteps 1 ++ peerSteps 1 ++ secondTest)).map
          (fun s => decide (s.leader = .openInbox .start 0 ∧ s.leaderTest = 2)) = some true := by
      decide +kernel
    obtain ⟨s, hs, hstate⟩ := Option.map_eq_some_iff.mp hrun
    obtain ⟨hstart, htest⟩ := of_decide_eq_true hstate
    have hr := Lib.Machine.reachedUnder_of_runUnder (.start rfl) hs
    have hkept := (test_boundary hr).1 (.inl ⟨0, hstart⟩) 0 (by omega)
    exact ⟨s, hr, .inl ⟨0, hstart⟩, htest, htest ▸ hkept.2.1, htest ▸ hkept.2.2⟩

/-- The peer sees its control queue removed and makes both queues of the second test before `cleanUp` of the
first comes to `peer_0_data`: the leader broadcasts the second start to a peer without a data queue. -/
theorem test_boundary_lostInbox : ¬ ∀ totalPeers tests (s : State), (machine totalPeers tests).Reached s →
    s.BroadcastsStart → ∀ i < totalPeers, s.queues.linked (.control i) = some s.leaderTest ∧
      s.queues.linked (.data i) = some s.leaderTest := by
  intro hclaim
  have hrun : ((machine 1 2).run {} (firstTest ++ peerSteps 5 ++ leaderSteps 1 ++ secondTest)).map
      (fun s => decide (s.leader = .openInbox .start 0 ∧ s.queues.linked (.data 0) = none)) =
        some true := by
    decide +kernel
  obtain ⟨s, hs, hstate⟩ := Option.map_eq_some_iff.mp hrun
  obtain ⟨hstart, hlost⟩ := of_decide_eq_true hstate
  have hkept := hclaim 1 2 s (Lib.Machine.reached_of_run (.start rfl) hs) (.inl ⟨0, hstart⟩) 0 (by omega)
  rw [hlost] at hkept
  cases hkept.2

end Quantas.BoostMq
