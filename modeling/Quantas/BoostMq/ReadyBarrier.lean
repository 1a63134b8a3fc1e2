import Quantas.BoostMq.TestBoundary
import Quantas.Lib.History

/-!
# The ready barrier over the tests

The history of a run is causal: a ready is sent by a peer that has stopped the test before and made its control
inbox for the new one, and it is counted by `waitForAllReady` of the test it was sent for. What is sent and not
yet counted waits in the barrier of the running test.
-/

namespace Quantas.BoostMq

def Justifies (history : List Entry) : Entry → Prop
  | .stopped _ _ => True
  | .inboxCreated i test => 2 ≤ test → .stopped i (test - 1) ∈ history
  | .readySent i test => .inboxCreated i test ∈ history
  | .readyCounted i test countedIn => test = countedIn ∧ .readySent i test ∈ history

variable (totalPeers : Nat)

/-- What the history holds of the readies and of the tests of the peers. -/
structure HistoryInv (s : State) : Prop where
  causal : Lib.Causal Justifies s.history
  created : ∀ i, 1 ≤ s.peerGrade i → .inboxCreated i (s.peerTest i) ∈ s.history
  stopped : ∀ i, 2 ≤ s.peerTest i → .stopped i (s.peerTest i - 1) ∈ s.history
  waiting : ∀ t i test, .ready i test ∈ s.queues.messages .barrier t → .readySent i test ∈ s.history
  /-- A ready was sent in a test that its peer has left, or in the peer's test. -/
  bounded : ∀ i test, .readySent i test ∈ s.history →
    i < totalPeers ∧ 1 ≤ test ∧ (test < s.peerTest i ∨ test = s.peerTest i ∧ 3 ≤ s.peerGrade i)
  counted : ∀ i < totalPeers, ∀ test, 1 ≤ test →
    test < s.leaderTest ∨ test = s.leaderTest ∧ 1 ≤ s.leaderGrade i →
    .readyCounted i test test ∈ s.history

variable {totalPeers} {tests : Nat} {s s' : State}

namespace HistoryInv

theorem of_counted (h : HistoryInv totalPeers s) (hinv : Rendezvous totalPeers tests s)
    (hframe : LeaderFrame totalPeers s s') (hcounts : CountsReady totalPeers s s') :
    HistoryInv totalPeers s' := by
  obtain ⟨ready, k, test, rest, hk, hpc, hcontent, hpc', hT, hqueues, hhistory⟩ := hcounts
  obtain ⟨rfl, -⟩ := hinv.ready_received hpc hcontent hk
  have hpeer (i : Nat) : s'.peerGrade i = s.peerGrade i := by simp only [State.peerGrade, hframe.peer]
  have hold : ∀ entry ∈ s.history, entry ∈ s'.history := by
    intro entry hentry
    rw [hhistory]
    exact List.mem_append_left _ hentry
  have hsent : ∀ i test, .readySent i test ∈ s'.history → .readySent i test ∈ s.history := by
    intro i test hentry
    simpa [hhistory] using hentry
  have hwaiting := h.waiting s.leaderTest k s.leaderTest (by rw [hcontent]; exact List.mem_cons_self ..)
  constructor
  · rw [hhistory]
    exact h.causal.snoc ⟨rfl, hwaiting⟩
  · intro i hmade
    rw [hframe.peerTest]
    exact hold _ (h.created i (hpeer i ▸ hmade))
  · intro i htwo
    rw [hframe.peerTest] at htwo ⊢
    exact hold _ (h.stopped i htwo)
  · intro t i test hmem
    apply hold
    by_cases ht : t = s.leaderTest
    · rw [hqueues, ht, Function.update_self] at hmem
      exact h.waiting s.leaderTest i test (by rw [hcontent]; exact List.mem_cons_of_mem _ hmem)
    · rw [hqueues, Function.update_of_ne ht] at hmem
      exact h.waiting t i test hmem
  · intro i test hentry
    rw [hframe.peerTest, hpeer]
    exact h.bounded i test (hsent i test hentry)
  · intro i hi test hpos hwhen
    by_cases hnew : test = s.leaderTest ∧ i = k
    · rw [hhistory, hnew.1, hnew.2]
      simp
    · apply hold
      refine h.counted i hi test hpos ?_
      rw [hT] at hwhen
      rcases hwhen with hlt | ⟨rfl, hone⟩
      · exact .inl hlt
      · refine .inr ⟨rfl, ?_⟩
        have hik : i ≠ k := fun hik => hnew ⟨rfl, hik⟩
        simpa [State.leaderGrade, hpc, hpc', hik] using hone

theorem of_uncounted (h : HistoryInv totalPeers s) (hinv : Rendezvous totalPeers tests s)
    (hframe : LeaderFrame totalPeers s s') (hcounts : CountsNothing totalPeers s s') :
    HistoryInv totalPeers s' := by
  obtain ⟨hhistory, hqueues, hzero⟩ := hcounts
  have hpeer (i : Nat) : s'.peerGrade i = s.peerGrade i := by simp only [State.peerGrade, hframe.peer]
  constructor
  · rw [hhistory]
    exact h.causal
  · intro i hmade
    rw [hhistory, hframe.peerTest]
    exact h.created i (hpeer i ▸ hmade)
  · rw [hhistory, hframe.peerTest]
    exact h.stopped
  · intro t i test hmem
    rw [hhistory]
    exact h.waiting t i test (hqueues t _ hmem)
  · intro i test hentry
    rw [hhistory] at hentry
    rw [hframe.peerTest, hpeer]
    exact h.bounded i test hentry
  · intro i hi test hpos hwhen
    rw [hhistory]
    refine h.counted i hi test hpos ?_
    rcases hframe.grades with ⟨hT, -⟩ | ⟨hT, hpc', k, hpc, -⟩
    · rw [hT] at hwhen
      rcases hwhen with hlt | ⟨rfl, hone⟩
      · exact .inl hlt
      · refine .inr ⟨rfl, ?_⟩
        by_contra hnone
        -- the wait is over, so every peer has been counted
        obtain ⟨ready, hpc, hfew⟩ := hzero i (by omega) hone
        have hall := Rendezvous.all_of_card (hinv.counted ready hpc) hfew
        simp [State.leaderGrade, hpc, hall, hi] at hnone
    · have hgrade : 1 ≤ s.leaderGrade i := by
        simp only [State.leaderGrade, hpc, LeaderPc.grade]
        split_ifs <;> omega
      have hgrade' : s'.leaderGrade i = 0 := by simp [State.leaderGrade, hpc']
      omega

theorem of_peer (h : HistoryInv totalPeers s) (hinv : Rendezvous totalPeers tests s) {j : Nat}
    (hj : j < totalPeers) (hframe : PeerFrame j s s') : HistoryInv totalPeers s' := by
  have hleader (i : Nat) : s'.leaderGrade i = s.leaderGrade i := by
    simp only [State.leaderGrade, hframe.leader]
  have hpeer : ∀ i, i ≠ j → s'.peerGrade i = s.peerGrade i := by
    intro i hi
    simp only [State.peerGrade, hframe.peer i hi]
  have hold : ∀ entry ∈ s.history, entry ∈ s'.history := by
    intro entry hentry
    cases hframe.record with
    | silent hhistory => rwa [hhistory]
    | inboxCreated hhistory | readySent _ _ hhistory | stopped _ hhistory =>
      rw [hhistory]
      exact List.mem_append_left _ hentry
  constructor
  · cases hframe.record with
    | silent hhistory =>
      rw [hhistory]
      exact h.causal
    | inboxCreated hhistory =>
      rw [hhistory]
      exact h.causal.snoc (h.stopped j)
    | readySent queue hpc hhistory =>
      rw [hhistory]
      exact h.causal.snoc (h.created j (by simp [State.peerGrade, hpc]))
    | stopped _ hhistory =>
      rw [hhistory]
      exact h.causal.snoc trivial
  · intro i hmade
    by_cases hij : i = j
    · subst hij
      cases hframe.record with
      | silent _ htest hgrade =>
        rw [htest]
        exact hold _ (h.created i (hgrade hmade))
      | inboxCreated hhistory htest =>
        rw [hhistory, htest]
        simp
      | readySent queue hpc _ htest =>
        rw [htest]
        exact hold _ (h.created i (by simp [State.peerGrade, hpc]))
      | stopped hpc _ hnext =>
        rcases hnext with ⟨-, hzero⟩ | ⟨htest, -⟩
        · omega
        · rw [htest]
          exact hold _ (h.created i (by simp [State.peerGrade, hpc]))
    · rw [hpeer i hij] at hmade
      rw [hframe.peerTest i hij]
      exact hold _ (h.created i hmade)
  · intro i htwo
    by_cases hij : i = j
    · subst hij
      cases hframe.record with
      | silent _ htest | inboxCreated _ htest | readySent _ _ _ htest =>
        rw [htest] at htwo ⊢
        exact hold _ (h.stopped i htwo)
      | stopped hpc hhistory hnext =>
        rcases hnext with ⟨htest, -⟩ | ⟨htest, -⟩
        · rw [hhistory, htest]
          simp
        · rw [htest] at htwo ⊢
          exact hold _ (h.stopped i htwo)
    · rw [hframe.peerTest i hij] at htwo ⊢
      exact hold _ (h.stopped i htwo)
  · intro t i test hmem
    cases hframe.record with
    | silent _ _ _ _ hqueues | inboxCreated _ _ _ _ hqueues | stopped _ _ _ hqueues =>
      rw [hqueues] at hmem
      exact hold _ (h.waiting t i test hmem)
    | readySent queue hpc hhistory _ _ hqueues =>
      rw [hqueues] at hmem
      by_cases ht : t = queue
      · rw [ht, Function.update_self, List.mem_append, List.mem_singleton] at hmem
        rcases hmem with hmem | hnew
        · exact hold _ (h.waiting queue i test hmem)
        · obtain ⟨rfl, rfl⟩ := Message.ready.inj hnew
          rw [hhistory]
          simp
      · rw [Function.update_of_ne ht] at hmem
        exact hold _ (h.waiting t i test hmem)
  · intro i test hentry
    by_cases hij : i = j
    · subst hij
      cases hframe.record with
      | silent hhistory htest _ hsent =>
        rw [hhistory] at hentry
        have hbound := h.bounded i test hentry
        omega
      | inboxCreated hhistory htest hgrade =>
        have hbound := h.bounded i test (by simpa [hhistory] using hentry)
        omega
      | readySent queue hpc hhistory htest hgrade' =>
        have hpositive := (hinv.peers i hj).positive
        rw [hhistory, List.mem_append, List.mem_singleton] at hentry
        rcases hentry with hentry | hnew
        · have hbound := h.bounded i test hentry
          omega
        · obtain ⟨-, rfl⟩ := Entry.readySent.inj hnew
          omega
      | stopped hpc hhistory hnext =>
        have hbound := h.bounded i test (by simpa [hhistory] using hentry)
        omega
    · rw [hpeer i hij, hframe.peerTest i hij]
      refine h.bounded i test ?_
      cases hframe.record with
      | silent hhistory => rwa [hhistory] at hentry
      | inboxCreated hhistory | stopped _ hhistory => simpa [hhistory] using hentry
      | readySent queue hpc hhistory => simpa [hhistory, hij] using hentry
  · intro i hi test hpos hwhen
    rw [hframe.leaderTest, hleader] at hwhen
    exact hold _ (h.counted i hi test hpos hwhen)

theorem initial : HistoryInv totalPeers {} := by
  constructor
  · exact .nil
  case counted =>
    simp only [State.leaderGrade, LeaderPc.grade]
    omega
  all_goals simp [State.peerGrade, Lib.NamedQueues.empty]

end HistoryInv

theorem historyInv (hr : (machine totalPeers tests).Reached s) : HistoryInv totalPeers s := by
  induction hr with
  | start hs =>
    obtain rfl : _ = ({} : State) := hs
    exact .initial
  | @next s s' e hr _ hstep ih =>
    change step totalPeers tests s e = some s' at hstep
    have hinv := rendezvous hr
    cases e with
    | leader =>
      obtain ⟨hframe, hcounts | hcounts⟩ := leaderStep_frame hstep
      · exact ih.of_counted hinv hframe hcounts
      · exact ih.of_uncounted hinv hframe hcounts
    | peer j =>
      rw [step] at hstep
      split_ifs at hstep with hj
      exact ih.of_peer hinv hj (peerStep_frame hstep)
    | retry j =>
      rw [step] at hstep
      split_ifs at hstep with hj
      exact ih.of_peer hinv hj (peerRetry_frame hstep)

/-! ## The barrier -/

theorem uncounted_waits (hr : (machine totalPeers tests).Reached s) {i test : Nat}
    (hsent : .readySent i test ∈ s.history) (huncounted : .readyCounted i test test ∉ s.history) :
    i < totalPeers ∧ test = s.leaderTest ∧ s.leaderGrade i = 0 ∧
      .ready i test ∈ s.queues.messages .barrier test := by
  have hinv := rendezvous hr
  have hhistory := historyInv hr
  obtain ⟨hi, hpos, hwhen⟩ := hhistory.bounded i test hsent
  have hnot : ¬ (test < s.leaderTest ∨ test = s.leaderTest ∧ 1 ≤ s.leaderGrade i) :=
    fun hcounted => huncounted (hhistory.counted i hi test hpos hcounted)
  have hpeer := hinv.peers i hi
  have haligned := hpeer.aligned
  unfold Aligned at haligned
  have htest : test = s.leaderTest := by omega
  have hready := hpeer.ready
  rw [if_pos (by omega)] at hready
  subst htest
  exact ⟨hi, rfl, by omega, List.count_pos_iff.mp (by omega)⟩

theorem LeaderPc.of_grade_zero {leader : LeaderPc} {i : Nat} (h : leader.grade i = 0) :
    (leader = .removeBarrier ∨ leader = .removeDone ∨ leader = .makeBarrier) ∨ leader = .makeDone ∨
      ∃ ready, leader = .waitForAllReady ready ∧ i ∉ ready := by
  revert h
  cases leader <;> simp [LeaderPc.grade] <;> split_ifs <;> simp

theorem leader_reads (hinv : Rendezvous totalPeers tests s) {i : Nat} (hi : i < totalPeers)
    (hzero : s.leaderGrade i = 0) (hmem : .ready i s.leaderTest ∈ s.queues.messages .barrier s.leaderTest) :
    s.queues.linked .barrier = some s.leaderTest ∧
      (s.leader = .makeDone ∨ ∃ ready, s.leader = .waitForAllReady ready ∧ i ∉ ready) ∧
      (leaderStep totalPeers tests s).isSome := by
  have hbarrier := hinv.barrier
  rcases LeaderPc.of_grade_zero hzero with hunmade | hpc | ⟨ready, hpc, hnew⟩
  · rw [hinv.unmade hunmade] at hmem
    cases hmem
  · have hfree : s.queues.linked .done = none := by simpa [hpc] using hinv.done
    refine ⟨by simpa [hpc] using hbarrier, .inl hpc, ?_⟩
    simp [leaderStep, hpc, Lib.NamedQueues.create, hfree]
  · refine ⟨by simpa [hpc] using hbarrier, .inr ⟨ready, hpc, hnew⟩, ?_⟩
    have hfew : ready.card < totalPeers := by
      have hlt := Finset.card_lt_card ((Finset.ssubset_iff_of_subset (hinv.counted ready hpc)).mpr
        ⟨i, Finset.mem_range.mpr hi, hnew⟩)
      simpa using hlt
    -- the first message of the barrier is a ready of this test
    obtain ⟨first, rest, hcontent⟩ := List.exists_cons_of_ne_nil (List.ne_nil_of_mem hmem)
    obtain ⟨k, hk, rfl⟩ := hinv.readies first (by rw [hcontent]; exact List.mem_cons_self ..)
    simp [leaderStep, hpc, hfew, Lib.NamedQueues.receive, hcontent, hk]

/-- **Ready barrier.** Every ready that `waitForAllReady` of a test counts was sent for that test, by a peer
that had stopped the test before and created its control inbox for this one; every ready that was sent is
counted by `waitForAllReady` of its test or is in the linked barrier of that test, from which the leader goes on
to receive. -/
theorem ready_exact (hr : (machine totalPeers tests).Reached s) :
    (∀ before after i test countedIn, s.history = before ++ .readyCounted i test countedIn :: after →
      test = countedIn ∧ ∃ earlier later, before = earlier ++ .readySent i test :: later ∧
        .inboxCreated i test ∈ earlier ∧ (2 ≤ test → .stopped i (test - 1) ∈ earlier)) ∧
    (∀ i test, .readySent i test ∈ s.history →
      .readyCounted i test test ∈ s.history ∨
        test = s.leaderTest ∧ .ready i test ∈ s.queues.messages .barrier test ∧
          s.queues.linked .barrier = some test ∧
          (s.leader = .makeDone ∨ ∃ ready, s.leader = .waitForAllReady ready ∧ i ∉ ready) ∧
          (leaderStep totalPeers tests s).isSome) := by
  constructor
  · intro before after i test countedIn hhistory
    have hcausal := (historyInv hr).causal
    rw [hhistory] at hcausal
    obtain ⟨hbefore, htest, hsent⟩ := hcausal.before
    obtain ⟨earlier, later, rfl⟩ := List.append_of_mem hsent
    obtain ⟨hearlier, hcreated⟩ := hbefore.before
    refine ⟨htest, earlier, later, rfl, hcreated, fun htwo => ?_⟩
    obtain ⟨l₁, l₂, rfl⟩ := List.append_of_mem hcreated
    exact List.mem_append_left _ (hearlier.before.2 htwo)
  · intro i test hsent
    by_cases hcounted : .readyCounted i test test ∈ s.history
    · exact .inl hcounted
    · obtain ⟨hi, rfl, hzero, hmem⟩ := uncounted_waits hr hsent hcounted
      have hreads := leader_reads (rendezvous hr) hi hzero hmem
      exact .inr ⟨rfl, hmem, hreads⟩

theorem ready_exact_twoTests : ∃ s : State, .readyCounted 0 2 2 ∈ s.history ∧ .stopped 0 1 ∈ s.history := by
  have hrun : ((machine 1 2).run {}
      (firstTest ++ leaderSteps 1 ++ peerSteps 5 ++ leaderSteps 5 ++ peerSteps 2 ++ leaderSteps 1)).map
        (fun s => decide (.readyCounted 0 2 2 ∈ s.history)) = some true := by
    decide +kernel
  obtain ⟨s, hs, hstate⟩ := Option.map_eq_some_iff.mp hrun
  have hcounted := of_decide_eq_true hstate
  obtain ⟨before, after, hhistory⟩ := List.append_of_mem hcounted
  have hexact := (ready_exact (Lib.Machine.reached_of_run (.start rfl) hs)).1 before after 0 2 2 hhistory
  obtain ⟨-, earlier, later, rfl, -, hstopped⟩ := hexact
  refine ⟨s, hcounted, ?_⟩
  rw [hhistory]
  exact List.mem_append_left _ (List.mem_append_left _ (hstopped (by omega)))

end Quantas.BoostMq
