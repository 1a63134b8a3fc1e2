import Quantas.BoostMq.Invariant

/-!
# What a step leaves alone

What the steps of the leader and of a peer do to the data queues, to the readies in `mq_barrier` and to the
history, read off the two step functions once.
-/

namespace Quantas.BoostMq

variable (totalPeers tests : Nat)

/-! ## Steps of the leader -/

structure LeaderFrame (s s' : State) : Prop where
  peer : s'.peer = s.peer
  peerTest : s'.peerTest = s.peerTest
  data : ∀ j, s'.queues.linked (.data j) =
    if s.leader = .dropData j then none else s.queues.linked (.data j)
  removes : ∀ j, s'.leader = .dropData j → j < totalPeers
  grades : s'.leaderTest = s.leaderTest ∧ (∀ j, s.leaderGrade j ≤ s'.leaderGrade j) ∨
    s'.leaderTest = s.leaderTest + 1 ∧ s'.leader = .removeBarrier ∧
      ∃ k, s.leader = .dropControl k ∧ totalPeers ≤ k

/-- `waitForAllReady` takes the first message of `mq_barrier`. -/
def CountsReady (s s' : State) : Prop :=
  ∃ ready k test rest, k < totalPeers ∧ s.leader = .waitForAllReady ready ∧
    s.queues.messages .barrier s.leaderTest = .ready k test :: rest ∧
    s'.leader = .waitForAllReady (insert k ready) ∧ s'.leaderTest = s.leaderTest ∧
    s'.queues.messages .barrier = Function.update (s.queues.messages .barrier) s.leaderTest rest ∧
    s'.history = s.history ++ [.readyCounted k test s.leaderTest]

/-- No ready is taken; a grade leaves 0 only when `waitForAllReady` is over. -/
def CountsNothing (s s' : State) : Prop :=
  s'.history = s.history ∧ (∀ t, ∀ m ∈ s'.queues.messages .barrier t, m ∈ s.queues.messages .barrier t) ∧
    ∀ j, s.leaderGrade j = 0 → 1 ≤ s'.leaderGrade j →
      ∃ ready, s.leader = .waitForAllReady ready ∧ ¬ ready.card < totalPeers

variable {totalPeers tests} {s s' : State} {i : Nat}

theorem CountsNothing.of_queues (hhistory : s'.history = s.history)
    (hqueues : s'.queues.messages .barrier = s.queues.messages .barrier)
    (hgrade : ∀ j, s'.leaderGrade j = s.leaderGrade j ∨ s.leaderGrade j ≠ 0) :
    CountsNothing totalPeers s s' := by
  refine ⟨hhistory, fun t m hm => by rwa [hqueues] at hm, fun j hzero hone => ?_⟩
  rcases hgrade j with heq | hne
  · omega
  · exact absurd hzero hne

theorem leaderStep_frame (hstep : leaderStep totalPeers tests s = some s') :
    LeaderFrame totalPeers s s' ∧ (CountsReady totalPeers s s' ∨ CountsNothing totalPeers s s') := by
  have hreadyWait := leaderStep_waitForAllReady hstep
  have hdoneWait := leaderStep_waitForAllDone hstep
  unfold leaderStep at hstep
  cases hpc : s.leader <;> rw [hpc] at hstep <;>
    simp only [Option.map_eq_some_iff, Option.some.injEq, reduceCtorEq] at hstep
  case makeBarrier =>
    obtain ⟨q, hq, rfl⟩ := hstep
    obtain ⟨-, rfl⟩ := Lib.NamedQueues.create_eq_some hq
    refine ⟨⟨rfl, rfl, by simp [hpc], by simp, .inl ⟨rfl, by simp [State.leaderGrade, hpc]⟩⟩, .inr ⟨rfl, ?_, ?_⟩⟩
    · intro t m hm
      by_cases ht : t = s.leaderTest
      · simp [ht, Lib.NamedQueues.store_messages_self] at hm
      · simpa [ht] using hm
    · simp [State.leaderGrade]
  case makeDone =>
    obtain ⟨q, hq, rfl⟩ := hstep
    obtain ⟨-, rfl⟩ := Lib.NamedQueues.create_eq_some hq
    exact ⟨⟨rfl, rfl, by simp [hpc], by simp, .inl ⟨rfl, by simp [State.leaderGrade, hpc]⟩⟩,
      .inr (.of_queues rfl (by simp) (by simp [State.leaderGrade, hpc]))⟩
  case waitForAllReady ready =>
    rcases hreadyWait ready hpc with ⟨-, k, test, rest, hk, hcontent, rfl⟩ | ⟨hfew, rfl⟩
    · refine ⟨⟨rfl, rfl, by simp [hpc], by simp [State.record], .inl ⟨rfl, fun j => ?_⟩⟩, .inl ?_⟩
      · simp only [State.leaderGrade, State.record, hpc, LeaderPc.grade, Finset.mem_insert]
        split_ifs <;> simp_all
      · exact ⟨ready, k, test, rest, hk, hpc, hcontent, rfl, rfl,
          by simp [Lib.NamedQueues.store_messages_name], rfl⟩
    · refine ⟨⟨rfl, rfl, by simp [hpc], by simp, .inl ⟨rfl, fun j => ?_⟩⟩, .inr ⟨rfl, fun _ _ => id, ?_⟩⟩
      · simp only [State.leaderGrade, hpc, LeaderPc.grade]
        split_ifs <;> simp_all
      · exact fun _ _ _ => ⟨ready, hpc, hfew⟩
  case openInbox signal k =>
    split_ifs at hstep with hk
    · obtain ⟨queue, -, rfl⟩ := Option.map_eq_some_iff.mp hstep
      exact ⟨⟨rfl, rfl, by simp [hpc], by simp, .inl ⟨rfl, by simp [State.leaderGrade, hpc]⟩⟩,
        .inr (.of_queues rfl rfl (by simp [State.leaderGrade, hpc]))⟩
    · obtain rfl := Option.some.inj hstep
      cases signal <;>
        exact ⟨⟨rfl, rfl, by simp [hpc], by simp [afterSignal], .inl ⟨rfl, by simp [State.leaderGrade, hpc, afterSignal]⟩⟩,
          .inr (.of_queues rfl rfl (by simp [State.leaderGrade, hpc, afterSignal]))⟩
  case sendSignal signal k queue =>
    obtain ⟨q, hsend, rfl⟩ := hstep
    obtain rfl := Lib.NamedQueues.send_eq_some hsend
    exact ⟨⟨rfl, rfl, by simp [hpc], by simp, .inl ⟨rfl, by simp [State.leaderGrade, hpc]⟩⟩,
      .inr (.of_queues rfl (by simp) (by simp [State.leaderGrade, hpc]))⟩
  case openDone =>
    obtain ⟨queue, hqueue, rfl⟩ := hstep
    exact ⟨⟨rfl, rfl, by simp [hpc], by simp, .inl ⟨rfl, by simp [State.leaderGrade, hpc]⟩⟩,
      .inr (.of_queues rfl rfl (by simp [State.leaderGrade, hpc]))⟩
  case waitForAllDone queue completed =>
    have hnonzero : ∀ j, s.leaderGrade j ≠ 0 := by
      intro j
      simp only [State.leaderGrade, hpc, LeaderPc.grade]
      split_ifs <;> omega
    rcases hdoneWait queue completed hpc with ⟨-, k, rest, hk, hcontent, rfl⟩ | ⟨hfew, rfl⟩
    · refine ⟨⟨rfl, rfl, by simp [hpc], by simp, .inl ⟨rfl, fun j => ?_⟩⟩,
        .inr (.of_queues rfl (by simp) fun j => .inr (hnonzero j))⟩
      simp only [State.leaderGrade, hpc, LeaderPc.grade, Finset.mem_insert]
      split_ifs <;> simp_all
    · refine ⟨⟨rfl, rfl, by simp [hpc], by simp, .inl ⟨rfl, fun j => ?_⟩⟩,
        .inr (.of_queues rfl rfl fun j => .inr (hnonzero j))⟩
      simp only [State.leaderGrade, hpc, LeaderPc.grade]
      split_ifs <;> simp_all
  case dropControl k =>
    have hnonzero : ∀ j, s.leaderGrade j ≠ 0 := by
      intro j
      simp only [State.leaderGrade, hpc, LeaderPc.grade]
      split_ifs <;> omega
    have hcounts {s' : State} (hhistory : s'.history = s.history)
        (hqueues : s'.queues.messages .barrier = s.queues.messages .barrier) :
        CountsNothing totalPeers s s' :=
      .of_queues hhistory hqueues fun j => .inr (hnonzero j)
    split_ifs at hstep with hk hmore
    · obtain rfl := Option.some.inj hstep
      refine ⟨⟨rfl, rfl, by simp [hpc], by simp [hk], .inl ⟨rfl, fun j => ?_⟩⟩, .inr (hcounts rfl rfl)⟩
      simp only [State.leaderGrade, hpc, LeaderPc.grade]
      split_ifs <;> omega
    · obtain rfl := Option.some.inj hstep
      exact ⟨⟨rfl, rfl, by simp [hpc], by simp, .inr ⟨rfl, rfl, k, hpc, by omega⟩⟩, .inr (hcounts rfl rfl)⟩
    · obtain rfl := Option.some.inj hstep
      refine ⟨⟨rfl, rfl, by simp [hpc], by simp, .inl ⟨rfl, fun j => ?_⟩⟩, .inr (hcounts rfl rfl)⟩
      simp only [State.leaderGrade, hpc, LeaderPc.grade]
      split_ifs <;> omega
  case dropData k =>
    subst hstep
    refine ⟨⟨rfl, rfl, fun j => ?_, by simp, .inl ⟨rfl, fun j => ?_⟩⟩, .inr (.of_queues rfl rfl fun j => .inr ?_)⟩
    · by_cases hjk : k = j
      · simp [hpc, hjk]
      · rw [hpc, if_neg (by simpa using hjk)]
        exact Lib.NamedQueues.remove_linked_of_ne (by simpa using Ne.symm hjk)
    all_goals
      simp only [State.leaderGrade, hpc, LeaderPc.grade]
      split_ifs <;> omega
  all_goals
    subst hstep
    exact ⟨⟨rfl, rfl, by simp [hpc], by simp, .inl ⟨rfl, by simp [State.leaderGrade, hpc]⟩⟩,
      .inr (.of_queues rfl rfl (by simp [State.leaderGrade, hpc]))⟩

/-! ## Steps of a peer -/

/-- What a step of peer `i` records: nothing, its control inbox, its ready, or the end of a test. -/
inductive PeerRecord (i : Nat) (s s' : State) : Prop
  | silent (hhistory : s'.history = s.history) (htest : s'.peerTest i = s.peerTest i)
      (hmade : 1 ≤ s'.peerGrade i → 1 ≤ s.peerGrade i) (hsent : 3 ≤ s'.peerGrade i ↔ 3 ≤ s.peerGrade i)
      (hqueues : s'.queues.messages .barrier = s.queues.messages .barrier)
  | inboxCreated (hhistory : s'.history = s.history ++ [.inboxCreated i (s.peerTest i)])
      (htest : s'.peerTest i = s.peerTest i) (hgrade : s.peerGrade i = 0) (hgrade' : s'.peerGrade i = 1)
      (hqueues : s'.queues.messages .barrier = s.queues.messages .barrier)
  | readySent (queue : Nat) (hpc : s.peer i = .sendReady queue)
      (hhistory : s'.history = s.history ++ [.readySent i (s.peerTest i)])
      (htest : s'.peerTest i = s.peerTest i) (hgrade' : s'.peerGrade i = 3)
      (hqueues : s'.queues.messages .barrier = Function.update (s.queues.messages .barrier) queue
        (s.queues.messages .barrier queue ++ [.ready i (s.peerTest i)]))
  | stopped (hpc : s.peer i = .waitForQueueRemoval)
      (hhistory : s'.history = s.history ++ [.stopped i (s.peerTest i)])
      (hnext : s'.peerTest i = s.peerTest i + 1 ∧ s'.peerGrade i = 0 ∨
        s'.peerTest i = s.peerTest i ∧ s'.peerGrade i = 5)
      (hqueues : s'.queues.messages .barrier = s.queues.messages .barrier)

structure PeerFrame (i : Nat) (s s' : State) : Prop where
  leader : s'.leader = s.leader
  leaderTest : s'.leaderTest = s.leaderTest
  peer : ∀ j, j ≠ i → s'.peer j = s.peer j
  peerTest : ∀ j, j ≠ i → s'.peerTest j = s.peerTest j
  others : ∀ j, j ≠ i → s'.queues.linked (.data j) = s.queues.linked (.data j)
  /-- A data queue of the peer's test is there once it is made. -/
  data : 2 ≤ s'.peerGrade i → s'.peerGrade i ≤ 4 → s'.peerTest i = s.peerTest i ∧
    (s'.queues.linked (.data i) = some (s.peerTest i) ∨
      2 ≤ s.peerGrade i ∧ s.peerGrade i ≤ 4 ∧ s'.queues.linked (.data i) = s.queues.linked (.data i))
  /-- A data queue is made by its peer, in the peer's test. -/
  made : ∀ t, s'.queues.linked (.data i) = some t →
    t = s'.peerTest i ∧ 2 ≤ s'.peerGrade i ∨
      s.queues.linked (.data i) = some t ∧
        (s'.peerTest i = s.peerTest i ∧ s.peerGrade i ≤ s'.peerGrade i ∨
          s'.peerTest i = s.peerTest i + 1)
  record : PeerRecord i s s'

theorem PeerFrame.of_silent {pc : PeerPc} {q : Queues}
    (hlinked : ∀ j, q.linked (.data j) = s.queues.linked (.data j))
    (hqueues : q.messages .barrier = s.queues.messages .barrier)
    (hgrade : pc.grade = (s.peer i).grade) :
    PeerFrame i s ({ s with queues := q }.setPeer i pc) := by
  have hgrade' : ({ s with queues := q }.setPeer i pc).peerGrade i = s.peerGrade i := by
    rw [State.peerGrade, State.setPeer_self, hgrade]
  refine ⟨rfl, rfl, fun j hj => State.setPeer_of_ne hj, fun _ _ => rfl, fun j _ => hlinked j,
    fun hlow hhigh => ⟨rfl, .inr ⟨by omega, by omega, hlinked i⟩⟩,
    fun t ht => .inr ⟨(hlinked i).symm.trans ht, .inl ⟨rfl, hgrade'.ge⟩⟩, ?_⟩
  exact .silent rfl rfl (by omega) (by omega) hqueues

theorem peerStep_frame (hstep : peerStep totalPeers tests i s = some s') : PeerFrame i s s' := by
  unfold peerStep at hstep
  cases hpc : s.peer i <;> rw [hpc] at hstep <;>
    simp only [Option.map_eq_some_iff, Option.some.injEq, reduceCtorEq] at hstep
  case removeControl =>
    subst hstep
    exact .of_silent (by simp) rfl (by simp [hpc])
  case removeData =>
    subst hstep
    refine ⟨rfl, rfl, fun j hj => State.setPeer_of_ne hj, fun _ _ => rfl, fun j hj => ?_, ?_, ?_, ?_⟩
    · simp [hj]
    · simp [State.peerGrade]
    · simp
    · exact .silent rfl rfl (by simp [State.peerGrade]) (by simp [State.peerGrade, hpc]) rfl
  case makeControl =>
    obtain ⟨q, hq, rfl⟩ := hstep
    obtain ⟨-, rfl⟩ := Lib.NamedQueues.create_eq_some hq
    refine ⟨rfl, rfl, fun j hj => State.setPeer_of_ne hj, fun _ _ => rfl, by simp, ?_, ?_, ?_⟩
    · simp [State.peerGrade, State.record]
    · intro t ht
      exact .inr ⟨by simpa using ht, .inl ⟨rfl, by simp [State.peerGrade, hpc]⟩⟩
    · exact .inboxCreated rfl rfl (by simp [State.peerGrade, hpc]) (by simp [State.peerGrade, State.record])
        (by simp)
  case makeData =>
    obtain ⟨q, hq, rfl⟩ := hstep
    obtain ⟨-, rfl⟩ := Lib.NamedQueues.create_eq_some hq
    refine ⟨rfl, rfl, fun j hj => State.setPeer_of_ne hj, fun _ _ => rfl, fun j hj => ?_, ?_, ?_, ?_⟩
    · simp [hj]
    · exact fun _ _ => ⟨rfl, .inl (by simp)⟩
    · intro t ht
      have heq : s.peerTest i = t := by simpa using ht
      exact .inl ⟨heq.symm, by simp [State.peerGrade]⟩
    · exact .silent rfl rfl (by simp [State.peerGrade, hpc]) (by simp [State.peerGrade, hpc]) (by simp)
  case openBarrier | openDone | configure =>
    obtain ⟨queue, hqueue, rfl⟩ := hstep
    exact .of_silent (q := s.queues) (fun _ => rfl) rfl (by simp [hpc])
  case sendReady queue =>
    obtain ⟨q, hsend, rfl⟩ := hstep
    obtain rfl := Lib.NamedQueues.send_eq_some hsend
    refine ⟨rfl, rfl, fun j hj => State.setPeer_of_ne hj, fun _ _ => rfl, by simp, ?_, ?_, ?_⟩
    · exact fun _ _ => ⟨rfl, .inr ⟨by simp [State.peerGrade, hpc], by simp [State.peerGrade, hpc], by simp⟩⟩
    · intro t ht
      exact .inr ⟨by simpa using ht, .inl ⟨rfl, by simp [State.peerGrade, State.record, hpc]⟩⟩
    · exact .readySent queue hpc rfl rfl (by simp [State.peerGrade, State.record])
        (by simp [Lib.NamedQueues.store_messages_name])
  case waitForAssignments | waitForStart =>
    split at hstep
    · rename_i q hreceive
      obtain ⟨rest, -, rfl⟩ := Lib.NamedQueues.receive_eq_some hreceive
      obtain rfl := Option.some.inj hstep
      exact .of_silent (by simp) (by simp) (by simp [hpc])
    · cases hstep
  case sendDone queue =>
    obtain ⟨q, hsend, rfl⟩ := hstep
    obtain rfl := Lib.NamedQueues.send_eq_some hsend
    refine ⟨rfl, rfl, fun j hj => State.setPeer_of_ne hj, fun _ _ => rfl, by simp, ?_, ?_, ?_⟩
    · exact fun _ _ => ⟨rfl, .inr ⟨by simp [State.peerGrade, hpc], by simp [State.peerGrade, hpc], by simp⟩⟩
    · intro t ht
      exact .inr ⟨by simpa using ht, .inl ⟨rfl, by simp [State.peerGrade, hpc]⟩⟩
    · exact .silent rfl rfl (by simp [State.peerGrade, hpc]) (by simp [State.peerGrade, hpc]) (by simp)
  case waitForStop =>
    split at hstep
    · rename_i message q hreceive
      obtain ⟨rest, -, rfl⟩ := Lib.NamedQueues.receive_eq_some hreceive
      obtain rfl := Option.some.inj hstep
      exact .of_silent (by simp) (by simp) (by split_ifs <;> simp [hpc])
    · cases hstep
  case waitForQueueRemoval =>
    split_ifs at hstep with hremoved hmore
    · obtain rfl := Option.some.inj hstep
      refine ⟨rfl, rfl, fun j hj => State.setPeer_of_ne hj, fun j hj => Function.update_of_ne hj ..,
        fun _ _ => rfl, ?_, ?_, ?_⟩
      · simp [State.peerGrade, State.record]
      · exact fun t ht => .inr ⟨ht, .inr (Function.update_self ..)⟩
      · exact .stopped hpc rfl (.inl ⟨Function.update_self .., by simp [State.peerGrade, State.record]⟩) rfl
    · obtain rfl := Option.some.inj hstep
      refine ⟨rfl, rfl, fun j hj => State.setPeer_of_ne hj, fun _ _ => rfl, fun _ _ => rfl, ?_, ?_, ?_⟩
      · simp [State.peerGrade, State.record]
      · exact fun t ht => .inr ⟨ht, .inl ⟨rfl, by simp [State.peerGrade, State.record, hpc]⟩⟩
      · exact .stopped hpc rfl (.inr ⟨rfl, by simp [State.peerGrade, State.record]⟩) rfl
  case dropControl =>
    subst hstep
    exact .of_silent (by simp) rfl (by simp [hpc])
  case dropData =>
    subst hstep
    refine ⟨rfl, rfl, fun j hj => State.setPeer_of_ne hj, fun _ _ => rfl, fun j hj => ?_, ?_, ?_, ?_⟩
    · simp [hj]
    · simp [State.peerGrade]
    · simp
    · exact .silent rfl rfl (by simp [State.peerGrade, hpc]) (by simp [State.peerGrade, hpc]) rfl

theorem peerRetry_frame (hstep : peerRetry i s = some s') : PeerFrame i s s' := by
  unfold peerRetry at hstep
  split at hstep
  · rename_i queue hpc
    obtain rfl := Option.some.inj hstep
    exact .of_silent (q := s.queues) (fun _ => rfl) rfl (by simp [hpc])
  · rename_i queue hpc
    obtain rfl := Option.some.inj hstep
    exact .of_silent (q := s.queues) (fun _ => rfl) rfl (by simp [hpc])
  · cases hstep

end Quantas.BoostMq
