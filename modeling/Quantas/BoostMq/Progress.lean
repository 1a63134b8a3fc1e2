import Quantas.BoostMq.Inbox
import Quantas.BoostMq.LostQueues
import Quantas.BoostMq.TestBoundary
import Quantas.Lib.Potential

/-!
# An experiment ends

As long as no peer fails in `configure`, somebody can always go on: whoever waits is waited for by nobody who waits
for him, for a peer that has not sent what the leader waits for has been sent what it waits for itself. Each
operation takes the experiment a step nearer to its end, except for a send that is tried again. So every run with
finitely many such retries ends. All processes finish, and no queue is left, unless a peer has lost the data queue of
its test before it opens it (`State.Lost`); from then on no run brings the experiment to its end.
-/

namespace Quantas.BoostMq

variable {totalPeers tests : Nat} {s s' : State} {i : Nat}

/-! ## Somebody can go on -/

/-- The leader or a peer has something to do other than to open a queue anew. -/
def State.Moves (totalPeers tests : Nat) (s : State) : Prop :=
  (∃ s', leaderStep totalPeers tests s = some s') ∨ ∃ i < totalPeers, ∃ s', peerStep totalPeers tests i s = some s'

theorem State.Moves.of_peer (hi : i < totalPeers) (h : (peerStep totalPeers tests i s).isSome) :
    s.Moves totalPeers tests :=
  .inr ⟨i, hi, Option.isSome_iff_exists.mp h⟩

theorem State.Moves.of_leader (h : (leaderStep totalPeers tests s).isSome) : s.Moves totalPeers tests :=
  .inl (Option.isSome_iff_exists.mp h)

theorem moves_before_ready (h : Inboxes totalPeers tests s) (hi : i < totalPeers) (hgrade : s.peerGrade i ≤ 2)
    (hbarrier : ∃ queue, s.queues.linked .barrier = some queue)
    (hroom : ∀ queue, s.peer i = .sendReady queue → (s.queues.messages .barrier queue).length < totalPeers) :
    s.Moves totalPeers tests := by
  apply State.Moves.of_peer hi
  obtain ⟨queue, hqueue⟩ := hbarrier
  have hinv := h.peers i hi
  unfold peerStep
  cases hpc : s.peer i <;> simp only [State.peerGrade, hpc, PeerPc.grade] at hgrade
  case removeControl => rfl
  case removeData => rfl
  case makeControl =>
    dsimp only
    rw [Lib.NamedQueues.create, if_pos (hinv.free (.inr hpc))]
    rfl
  case makeData =>
    dsimp only
    rw [Lib.NamedQueues.create, if_pos (hinv.freeData (.inr hpc))]
    rfl
  case openBarrier =>
    dsimp only
    rw [hqueue]
    rfl
  case sendReady queue =>
    dsimp only
    rw [Lib.NamedQueues.send, if_pos (hroom queue hpc)]
    rfl
  all_goals omega

theorem moves_on_signal (h : Inboxes totalPeers tests s) (hi : i < totalPeers)
    (hpc : s.peer i = .waitForAssignments ∨ s.peer i = .waitForStart ∨ s.peer i = .waitForStop)
    (hsent : s.taken i < s.given i) : s.Moves totalPeers tests := by
  apply State.Moves.of_peer hi
  have hread := (h.peers i hi).content (by rcases hpc with hpc | hpc | hpc <;> simp [State.peerGrade, hpc])
    (by rcases hpc with hpc | hpc | hpc <;> simp [State.peerGrade, hpc])
  rw [signals_take hsent (State.given_le s i)] at hread
  unfold peerStep
  rcases hpc with hpc | hpc | hpc <;> simp [hpc, Lib.NamedQueues.receive, hread, State.taken]

theorem moves_at_end (h : Inboxes totalPeers tests s) (hi : i < totalPeers) (hfour : s.peerGrade i = 4)
    (hgiven : s.given i = 3) (hgone : s.leaderTest ≠ s.peerTest i ∨ 3 ≤ s.leaderGrade i) :
    s.Moves totalPeers tests := by
  cases hpc : s.peer i <;> simp [State.peerGrade, hpc] at hfour
  case waitForStop =>
    apply moves_on_signal h hi (.inr (.inr hpc))
    rw [hgiven, State.taken, hpc]
    simp
  case waitForQueueRemoval =>
    apply State.Moves.of_peer hi
    have hremoved := (h.peers i hi).removed (by rw [State.peerGrade, hpc, PeerPc.grade]) hgone
    unfold peerStep
    rw [hpc]
    dsimp only
    rw [if_pos hremoved]
    split_ifs <;> rfl

def State.Finished (totalPeers : Nat) (s : State) : Prop :=
  s.leader = .finished ∧ ∀ i < totalPeers, s.peer i = .finished

theorem leader_ends (hr : (machine totalPeers tests).Reached s) :
    1 ≤ s.leaderTest ∧ (s.leader = .finished → tests ≤ s.leaderTest) := by
  refine hr.invariant (P := fun s => 1 ≤ s.leaderTest ∧ (s.leader = .finished → tests ≤ s.leaderTest))
    (fun s hs => ?_) fun s e s' ih _ hstep => ?_
  · rw [show s = {} from hs]
    simp
  · cases e with
    | leader =>
      obtain ⟨hframe, -⟩ := leaderStep_frame hstep
      have hpositive : 1 ≤ s'.leaderTest := by
        rcases hframe.grades with ⟨hT, -⟩ | ⟨hT, -⟩ <;> omega
      refine ⟨hpositive, fun hfinished => ?_⟩
      change leaderStep totalPeers tests s = some s' at hstep
      unfold leaderStep at hstep
      cases hpc : s.leader <;> rw [hpc] at hstep <;>
        simp only [Option.map_eq_some_iff, Option.some.injEq, reduceCtorEq] at hstep
      case waitForAllReady ready =>
        split_ifs at hstep
        · split at hstep
          · split_ifs at hstep
            obtain rfl := Option.some.inj hstep
            cases hfinished
          · cases hstep
        · obtain rfl := Option.some.inj hstep
          cases hfinished
      case openInbox signal k =>
        split_ifs at hstep
        · obtain ⟨queue, -, rfl⟩ := Option.map_eq_some_iff.mp hstep
          cases hfinished
        · obtain rfl := Option.some.inj hstep
          cases signal <;> cases hfinished
      case waitForAllDone queue completed =>
        split_ifs at hstep
        · split at hstep
          · split_ifs at hstep
            obtain rfl := Option.some.inj hstep
            cases hfinished
          · cases hstep
        · obtain rfl := Option.some.inj hstep
          cases hfinished
      case dropControl k =>
        split_ifs at hstep with hk hmore
        · obtain rfl := Option.some.inj hstep
          cases hfinished
        · obtain rfl := Option.some.inj hstep
          cases hfinished
        · obtain rfl := Option.some.inj hstep
          exact not_lt.mp hmore
      all_goals
        first
          | (subst hstep; cases hfinished)
          | (obtain ⟨_, _, rfl⟩ := hstep; cases hfinished)
    | peer i =>
      change step totalPeers tests s (.peer i) = some s' at hstep
      rw [step] at hstep
      split_ifs at hstep
      have hframe := peerStep_frame hstep
      rw [hframe.leader, hframe.leaderTest]
      exact ih
    | retry i =>
      change step totalPeers tests s (.retry i) = some s' at hstep
      rw [step] at hstep
      split_ifs at hstep
      have hframe := peerRetry_frame hstep
      rw [hframe.leader, hframe.leaderTest]
      exact ih

theorem moves_in_test (h : Inboxes totalPeers tests s) (hi : i < totalPeers) (hgrade : s.peerGrade i = 3)
    (hgiven : s.given i = 2) (hdone : ∃ queue, s.queues.linked .done = some queue)
    (hroom : ∀ queue, s.peer i = .sendDone queue → (s.queues.messages .done queue).length < totalPeers) :
    s.Moves totalPeers tests ∨ s.Fails i := by
  obtain ⟨queue, hqueue⟩ := hdone
  cases hpc : s.peer i <;> simp [State.peerGrade, hpc] at hgrade
  case configure =>
    cases hdata : s.queues.linked (.data i) with
    | none => exact .inr ⟨hpc, hdata⟩
    | some test =>
      left
      apply State.Moves.of_peer hi
      unfold peerStep
      rw [hpc]
      dsimp only
      rw [hdata]
      rfl
  all_goals left
  case waitForAssignments =>
    apply moves_on_signal h hi (.inl hpc)
    rw [hgiven, State.taken, hpc]
    simp
  case waitForStart =>
    apply moves_on_signal h hi (.inr (.inl hpc))
    rw [hgiven, State.taken, hpc]
    simp
  case openDone =>
    apply State.Moves.of_peer hi
    unfold peerStep
    rw [hpc]
    dsimp only
    rw [hqueue]
    rfl
  case sendDone queue' =>
    apply State.Moves.of_peer hi
    unfold peerStep
    rw [hpc]
    dsimp only
    rw [Lib.NamedQueues.send, if_pos (hroom queue' hpc)]
    rfl

theorem moves_waitForAllReady (h : Inboxes totalPeers tests s) (hinv : Rendezvous totalPeers tests s)
    {ready : Finset Nat} (hpc : s.leader = .waitForAllReady ready) : s.Moves totalPeers tests := by
  by_cases hfew : ready.card < totalPeers
  swap
  · apply State.Moves.of_leader
    unfold leaderStep
    rw [hpc]
    dsimp only
    rw [if_neg hfew]
    rfl
  have hbarrier := hinv.barrier
  rw [hpc, if_pos (by simp)] at hbarrier
  cases hcontent : s.queues.messages .barrier s.leaderTest with
  | cons m rest =>
    obtain ⟨k, hk, rfl⟩ := hinv.readies m (hcontent ▸ List.mem_cons_self)
    apply State.Moves.of_leader
    unfold leaderStep
    rw [hpc]
    dsimp only
    rw [if_pos hfew, Lib.NamedQueues.receive, hcontent]
    dsimp only
    rw [if_pos hk]
    rfl
  | nil =>
    obtain ⟨i, hmem, hmissing⟩ : ∃ i ∈ Finset.range totalPeers, i ∉ ready := by
      apply Finset.exists_mem_notMem_of_card_lt_card
      rw [Finset.card_range]
      exact hfew
    have hi := Finset.mem_range.mp hmem
    have hzero : s.leaderGrade i = 0 := by
      rw [State.leaderGrade, hpc, LeaderPc.grade, if_neg hmissing]
    have hpeer := hinv.peers i hi
    have haligned := hpeer.aligned
    unfold Aligned at haligned
    rcases haligned with ⟨-, hthree, -⟩ | ⟨hsame, -, -, -⟩ | ⟨hbehind, -, hfour⟩
    · omega
    · have hready := hpeer.ready
      rw [hcontent, List.count_nil] at hready
      have hearly : s.peerGrade i ≤ 2 := by
        by_contra hlate
        rw [if_pos ⟨hsame, by omega, hzero⟩] at hready
        cases hready
      refine moves_before_ready h hi hearly ⟨_, hbarrier⟩ fun queue hqueue => ?_
      rw [(hpeer.opened queue hqueue).1, hcontent]
      exact Nat.lt_of_le_of_lt (Nat.zero_le _) hi
    · have hgiven : s.given i = 3 := by
        unfold State.given
        rw [if_neg (by omega), if_neg (by omega)]
      exact moves_at_end h hi hfour hgiven (.inl (by omega))

theorem moves_waitForAllDone (h : Inboxes totalPeers tests s) (hinv : Rendezvous totalPeers tests s) {queue : Nat}
    {completed : Finset Nat} (hpc : s.leader = .waitForAllDone queue completed) :
    s.Moves totalPeers tests ∨ ∃ i < totalPeers, s.Fails i := by
  by_cases hfew : completed.card < totalPeers
  swap
  · left
    apply State.Moves.of_leader
    unfold leaderStep
    rw [hpc]
    dsimp only
    rw [if_neg hfew]
    rfl
  obtain rfl := hinv.opened queue completed hpc
  have hdone := hinv.done
  rw [hpc, if_pos (by simp)] at hdone
  cases hcontent : s.queues.messages .done s.leaderTest with
  | cons m rest =>
    obtain ⟨k, hk, rfl⟩ := h.dones m (hcontent ▸ List.mem_cons_self)
    left
    apply State.Moves.of_leader
    unfold leaderStep
    rw [hpc]
    dsimp only
    rw [if_pos hfew, Lib.NamedQueues.receive, hcontent]
    dsimp only
    rw [if_pos hk]
    rfl
  | nil =>
    obtain ⟨i, hmem, hmissing⟩ : ∃ i ∈ Finset.range totalPeers, i ∉ completed := by
      apply Finset.exists_mem_notMem_of_card_lt_card
      rw [Finset.card_range]
      exact hfew
    have hi := Finset.mem_range.mp hmem
    have hone : s.leaderGrade i = 1 := by
      rw [State.leaderGrade, hpc, LeaderPc.grade, if_neg hmissing]
    obtain ⟨-, hsame, hthree, hfour⟩ := hinv.between hi (by omega)
    have hgiven : s.given i = 2 := by
      unfold State.given
      rw [if_pos hsame, hpc]
      rfl
    have hcount := (h.peers i hi).done
    rw [hcontent, List.count_nil] at hcount
    have hnotFour : s.peerGrade i ≠ 4 := by
      intro heq
      rw [if_pos ⟨hsame, heq, by omega⟩] at hcount
      cases hcount
    have hroom : ∀ queue, s.peer i = .sendDone queue → (s.queues.messages .done queue).length < totalPeers := by
      intro queue hqueue
      rw [(hinv.peers i hi).openedDone queue hqueue, hcontent]
      exact Nat.lt_of_le_of_lt (Nat.zero_le _) hi
    exact (moves_in_test h hi (by omega) hgiven ⟨_, hdone⟩ hroom).imp_right fun hfails => ⟨i, hi, hfails⟩

theorem moves_sendSignal (h : Inboxes totalPeers tests s) (hinv : Rendezvous totalPeers tests s) {signal : Signal}
    {k queue : Nat} (hpc : s.leader = .sendSignal signal k queue) : s.Moves totalPeers tests := by
  obtain ⟨rfl, hk⟩ := h.handle signal k queue hpc
  by_cases hroom : (s.queues.messages (.control k) s.leaderTest).length < totalPeers
  · apply State.Moves.of_leader
    unfold leaderStep
    rw [hpc]
    dsimp only
    rw [Lib.NamedQueues.send, if_pos hroom]
    rfl
  obtain ⟨-, hsame, hthree, hfour⟩ := hinv.between hk (by
    rw [State.leaderGrade, hpc]
    exact signal.grade_openInbox k k)
  have hread := (h.peers k hk).content (by omega) hfour
  rw [hsame] at hread
  have hgiven : s.given k ≤ 2 := by
    unfold State.given
    rw [if_pos hsame, hpc]
    cases signal <;> simp
  have hsent : s.taken k < s.given k := by
    refine lt_of_le_of_ne (h.peers k hk).ahead fun heq => ?_
    rw [hread, heq, signals_self] at hroom
    exact hroom (Nat.lt_of_le_of_lt (Nat.zero_le _) hk)
  have hopened : s.peer k ≠ .configure := by
    intro hpeer
    -- a stop is sent to a peer that has reported its completion
    have haligned := (hinv.peers k hk).aligned
    unfold Aligned State.leaderGrade State.peerGrade at haligned
    unfold State.given State.taken at hsent
    rw [hpc, hpeer] at haligned
    rw [if_pos hsame, hpc, hpeer] at hsent
    cases signal
    · simp at hsent
    · simp at hsent
    · dsimp only [LeaderPc.grade, PeerPc.grade] at haligned
      rw [if_pos rfl] at haligned
      omega
  refine moves_on_signal h hk ?_ hsent
  cases hpeer : s.peer k <;> simp [State.peerGrade, State.taken, hpeer] at hthree hfour hsent hopened ⊢ <;> omega

theorem moves_or_finished (hr : (machine totalPeers tests).Reached s) :
    s.Finished totalPeers ∨ s.Moves totalPeers tests ∨ ∃ i < totalPeers, s.Fails i := by
  have h := inboxes hr
  have hinv := rendezvous hr
  have hbarrier := hinv.barrier
  have hdone := hinv.done
  cases hpc : s.leader <;> rw [hpc] at hbarrier hdone
  case waitForAllReady ready => exact .inr (.inl (moves_waitForAllReady h hinv hpc))
  case waitForAllDone queue completed => exact .inr (moves_waitForAllDone h hinv hpc)
  case sendSignal signal k queue => exact .inr (.inl (moves_sendSignal h hinv hpc))
  case openInbox signal k =>
    right
    left
    apply State.Moves.of_leader
    unfold leaderStep
    rw [hpc]
    dsimp only
    split_ifs with hk
    · obtain ⟨hlinked, -⟩ := hinv.between hk (by rw [State.leaderGrade, hpc]; exact signal.grade_openInbox k k)
      rw [hlinked]
      rfl
    · rfl
  case finished =>
    obtain ⟨hpositive, hlast⟩ := leader_ends hr
    have htests := hlast hpc
    by_cases hall : ∀ i < totalPeers, s.peer i = .finished
    · exact .inl ⟨hpc, hall⟩
    right
    left
    simp only [not_forall] at hall
    obtain ⟨i, hi, hpeer⟩ := hall
    have haligned := (hinv.peers i hi).aligned
    have hupper := (h.peers i hi).last
    have hleader : s.leaderGrade i = 4 := by rw [State.leaderGrade, hpc, LeaderPc.grade]
    have hplace : s.peerTest i = s.leaderTest ∧ 4 ≤ s.peerGrade i := by
      unfold Aligned at haligned
      omega
    have hgiven : s.given i = 3 := by
      unfold State.given
      rw [if_pos hplace.1, hpc]
      rfl
    by_cases hfour : s.peerGrade i = 4
    · exact moves_at_end h hi hfour hgiven (.inr (by omega))
    · apply State.Moves.of_peer hi
      unfold peerStep
      cases hpeer' : s.peer i <;> simp [State.peerGrade, hpeer'] at hplace hfour ⊢
      exact hpeer hpeer'
  all_goals
    right
    left
    apply State.Moves.of_leader
    unfold leaderStep
    rw [hpc]
    dsimp only
  case makeBarrier =>
    rw [Lib.NamedQueues.create, if_pos (by simpa using hbarrier)]
    rfl
  case makeDone =>
    rw [Lib.NamedQueues.create, if_pos (by simpa using hdone)]
    rfl
  case openDone =>
    rw [hdone, if_pos (by simp)]
    rfl
  case dropControl k =>
    split_ifs <;> rfl
  all_goals rfl

/-! ## How many operations are left -/

/-- How many operations of its test the leader has before it, the rest of a run with no further test included. -/
def LeaderPc.rank (n : Nat) : LeaderPc → Nat
  | .removeBarrier => 10 * n + 13
  | .removeDone => 10 * n + 12
  | .makeBarrier => 10 * n + 11
  | .makeDone => 10 * n + 10
  | .waitForAllReady ready => n - ready.card + 9 * n + 9
  | .openInbox .assignment k => 2 * (n - k) + 7 * n + 8
  | .sendSignal .assignment k _ => 2 * (n - k) + 7 * n + 7
  | .openInbox .start k => 2 * (n - k) + 5 * n + 7
  | .sendSignal .start k _ => 2 * (n - k) + 5 * n + 6
  | .openDone => 5 * n + 6
  | .waitForAllDone _ completed => n - completed.card + 4 * n + 5
  | .openInbox .stop k => 2 * (n - k) + 2 * n + 4
  | .sendSignal .stop k _ => 2 * (n - k) + 2 * n + 3
  | .dropBarrier => 2 * n + 3
  | .dropDone => 2 * n + 2
  | .dropControl k => 2 * (n - k) + 1
  | .dropData k => 2 * (n - k)
  | .finished => 0

def PeerPc.rank : PeerPc → Nat
  | .removeControl => 15
  | .removeData => 14
  | .makeControl => 13
  | .makeData => 12
  | .openBarrier => 11
  | .sendReady _ => 10
  | .waitForAssignments => 9
  | .configure => 8
  | .waitForStart => 7
  | .openDone => 6
  | .sendDone _ => 5
  | .waitForStop => 4
  | .waitForQueueRemoval => 3
  | .dropControl => 2
  | .dropData => 1
  | .finished => 0

def State.leaderLeft (totalPeers tests : Nat) (s : State) : Nat :=
  (tests - s.leaderTest) * (10 * totalPeers + 13) + s.leader.rank totalPeers

/-- The operations of peer `i` that are left. -/
def State.peerLeft (tests i : Nat) (s : State) : Nat :=
  (tests - s.peerTest i) * 13 + (s.peer i).rank

/-- The operations that are left of an experiment. -/
def State.left (totalPeers tests : Nat) (s : State) : Nat :=
  s.leaderLeft totalPeers tests + ∑ i ∈ Finset.range totalPeers, s.peerLeft tests i

/-- A send that comes back without having sent costs two operations: itself, and the opening that follows it. -/
def Event.cost : Event → Nat
  | .leader | .peer _ => 0
  | .retry _ => 2

theorem tests_left {t m : Nat} (h : t < tests) : (tests - t) * m = (tests - (t + 1)) * m + m := by
  rw [show tests - t = tests - (t + 1) + 1 by omega, Nat.add_mul, Nat.one_mul]

theorem leaderStep_left (h : Inboxes totalPeers tests s) (hinv : Rendezvous totalPeers tests s)
    (hstep : leaderStep totalPeers tests s = some s') :
    s'.leaderLeft totalPeers tests + 1 = s.leaderLeft totalPeers tests := by
  have hreadyWait := leaderStep_waitForAllReady hstep
  have hdoneWait := leaderStep_waitForAllDone hstep
  unfold leaderStep at hstep
  unfold State.leaderLeft
  cases hpc : s.leader <;> rw [hpc] at hstep <;>
    simp only [Option.map_eq_some_iff, Option.some.injEq, reduceCtorEq] at hstep
  case waitForAllReady ready =>
    rcases hreadyWait ready hpc with ⟨hfew, k, test, rest, hk, hcontent, rfl⟩ | ⟨hfew, rfl⟩
    · obtain ⟨-, -, -, hnew, -⟩ := hinv.ready_received hpc hcontent hk
      dsimp only [State.record, LeaderPc.rank]
      rw [Finset.card_insert_of_notMem hnew]
      omega
    · dsimp only [LeaderPc.rank]
      omega
  case waitForAllDone queue completed =>
    obtain rfl := hinv.opened queue completed hpc
    rcases hdoneWait _ completed hpc with ⟨hfew, k, rest, hk, hcontent, rfl⟩ | ⟨hfew, rfl⟩
    · have hnew : k ∉ completed := by
        intro hmem
        have hcount := (h.peers k hk).done
        rw [hcontent, List.count_cons_self, if_neg] at hcount
        · cases hcount
        · rintro ⟨-, -, hone⟩
          rw [State.leaderGrade, hpc, LeaderPc.grade, if_pos hmem] at hone
          omega
      dsimp only [LeaderPc.rank]
      rw [Finset.card_insert_of_notMem hnew]
      omega
    · dsimp only [LeaderPc.rank]
      omega
  case openInbox signal k =>
    split_ifs at hstep with hk
    · obtain ⟨queue, -, rfl⟩ := Option.map_eq_some_iff.mp hstep
      cases signal <;> dsimp only [LeaderPc.rank] <;> omega
    · obtain rfl := Option.some.inj hstep
      cases signal <;> dsimp only [LeaderPc.rank, afterSignal] <;> omega
  case sendSignal signal k queue =>
    obtain ⟨-, hk⟩ := h.handle signal k queue hpc
    obtain ⟨q, -, rfl⟩ := hstep
    cases signal <;> dsimp only [LeaderPc.rank] <;> omega
  case dropControl k =>
    split_ifs at hstep with hk hmore
    · obtain rfl := Option.some.inj hstep
      dsimp only [LeaderPc.rank]
      omega
    · obtain rfl := Option.some.inj hstep
      dsimp only [LeaderPc.rank]
      rw [tests_left hmore]
      omega
    · obtain rfl := Option.some.inj hstep
      dsimp only [LeaderPc.rank]
      omega
  case dropData k =>
    have hk := h.dropping k hpc
    subst hstep
    dsimp only [LeaderPc.rank]
    omega
  case makeBarrier | makeDone | openDone =>
    obtain ⟨_, -, rfl⟩ := hstep
    dsimp only [LeaderPc.rank, Finset.card_empty]
    omega
  all_goals
    subst hstep
    dsimp only [LeaderPc.rank]
    omega

theorem peerStep_left (h : Inboxes totalPeers tests s) (hi : i < totalPeers)
    (hstep : peerStep totalPeers tests i s = some s') : s'.peerLeft tests i + 1 = s.peerLeft tests i := by
  have hinv := h.peers i hi
  unfold peerStep at hstep
  unfold State.peerLeft
  cases hpc : s.peer i <;> rw [hpc] at hstep <;>
    simp only [Option.map_eq_some_iff, Option.some.injEq, reduceCtorEq] at hstep
  case waitForAssignments | waitForStart =>
    split at hstep
    · obtain rfl := Option.some.inj hstep
      rw [State.setPeer_self]
      rfl
    · cases hstep
  case waitForStop =>
    split at hstep
    · rename_i message q hreceive
      obtain ⟨rest, hcontent, -⟩ := Lib.NamedQueues.receive_eq_some hreceive
      -- the third signal is the only one that a peer finds here
      have hread := hinv.content (by simp [State.peerGrade, hpc]) (by simp [State.peerGrade, hpc])
      have hsent : s.taken i < s.given i := by
        refine lt_of_le_of_ne hinv.ahead fun heq => ?_
        rw [hcontent, heq, signals_self] at hread
        cases hread
      rw [hcontent, signals_take hsent (State.given_le s i), State.taken, hpc] at hread
      obtain rfl := (List.cons.inj hread).1
      obtain rfl := Option.some.inj hstep
      rw [State.setPeer_self]
      rfl
    · cases hstep
  case waitForQueueRemoval =>
    split_ifs at hstep with hremoved hmore
    · obtain rfl := Option.some.inj hstep
      have hpc' : (({ s with peerTest := Function.update s.peerTest i (s.peerTest i + 1) }.setPeer i
          .removeControl).record (.stopped i (s.peerTest i))).peer i = .removeControl := State.setPeer_self
      have htest : (({ s with peerTest := Function.update s.peerTest i (s.peerTest i + 1) }.setPeer i
          .removeControl).record (.stopped i (s.peerTest i))).peerTest i = s.peerTest i + 1 :=
        Function.update_self ..
      rw [hpc', htest, tests_left hmore, PeerPc.rank, PeerPc.rank]
    · obtain rfl := Option.some.inj hstep
      have hpc' : ((s.setPeer i .dropControl).record (.stopped i (s.peerTest i))).peer i = .dropControl :=
        State.setPeer_self
      rw [hpc']
      rfl
  case makeControl | makeData | openBarrier | sendReady | configure | openDone | sendDone =>
    obtain ⟨_, -, rfl⟩ := hstep
    simp only [State.record, State.setPeer_self]
    rfl
  all_goals
    subst hstep
    rw [State.setPeer_self]
    rfl

theorem peerRetry_left (hstep : peerRetry i s = some s') : s'.peerLeft tests i = s.peerLeft tests i + 1 := by
  unfold peerRetry at hstep
  unfold State.peerLeft
  split at hstep
  · rename_i queue hpc
    obtain rfl := Option.some.inj hstep
    rw [State.setPeer_self, hpc]
    rfl
  · rename_i queue hpc
    obtain rfl := Option.some.inj hstep
    rw [State.setPeer_self, hpc]
    rfl
  · cases hstep

theorem PeerFrame.left (h : PeerFrame i s s') (hi : i < totalPeers) :
    s'.left totalPeers tests + s.peerLeft tests i = s.left totalPeers tests + s'.peerLeft tests i := by
  have hleader : s'.leaderLeft totalPeers tests = s.leaderLeft totalPeers tests := by
    unfold State.leaderLeft
    rw [h.leader, h.leaderTest]
  have hothers : ∑ j ∈ (Finset.range totalPeers).erase i, s'.peerLeft tests j =
      ∑ j ∈ (Finset.range totalPeers).erase i, s.peerLeft tests j := by
    apply Finset.sum_congr rfl
    intro j hj
    have hne := Finset.ne_of_mem_erase hj
    unfold State.peerLeft
    rw [h.peer j hne, h.peerTest j hne]
  have hmem := Finset.mem_range.mpr hi
  unfold State.left
  rw [hleader, ← Finset.sum_erase_add _ _ hmem, ← Finset.sum_erase_add _ (fun j => s.peerLeft tests j) hmem, hothers]
  omega

theorem machine_drains : (machine totalPeers tests).Drains (State.left totalPeers tests) Event.cost := by
  intro s e s' hr hstep
  have h := inboxes hr
  cases e with
  | leader =>
    change leaderStep totalPeers tests s = some s' at hstep
    obtain ⟨hframe, -⟩ := leaderStep_frame hstep
    have hleader := leaderStep_left h (rendezvous hr) hstep
    have hpeers : ∑ i ∈ Finset.range totalPeers, s'.peerLeft tests i =
        ∑ i ∈ Finset.range totalPeers, s.peerLeft tests i := by
      unfold State.peerLeft
      rw [hframe.peer, hframe.peerTest]
    unfold State.left
    rw [hpeers, Event.cost]
    omega
  | peer i =>
    change step totalPeers tests s (.peer i) = some s' at hstep
    rw [step] at hstep
    split_ifs at hstep with hi
    have hpeer := peerStep_left h hi hstep
    have hleft : s'.left totalPeers tests + s.peerLeft tests i = s.left totalPeers tests + s'.peerLeft tests i :=
      (peerStep_frame hstep).left hi
    rw [Event.cost]
    omega
  | retry i =>
    change step totalPeers tests s (.retry i) = some s' at hstep
    rw [step] at hstep
    split_ifs at hstep with hi
    have hpeer : s'.peerLeft tests i = s.peerLeft tests i + 1 := peerRetry_left hstep
    have hleft : s'.left totalPeers tests + s.peerLeft tests i = s.left totalPeers tests + s'.peerLeft tests i :=
      (peerRetry_frame hstep).left hi
    rw [Event.cost]
    omega

theorem left_eq_zero (hr : (machine totalPeers tests).Reached s) (hfinished : s.Finished totalPeers) :
    s.left totalPeers tests = 0 := by
  obtain ⟨hleader, hpeers⟩ := hfinished
  have hlast := (leader_ends hr).2 hleader
  have hinv := rendezvous hr
  have hpeersLeft : ∑ i ∈ Finset.range totalPeers, s.peerLeft tests i = 0 := by
    apply Finset.sum_eq_zero
    intro i hmem
    have hi := Finset.mem_range.mp hmem
    have hends := (hinv.peers i hi).last (by rw [State.peerGrade, hpeers i hi, PeerPc.grade])
    rw [State.peerLeft, hpeers i hi, Nat.sub_eq_zero_of_le hends, PeerPc.rank, Nat.zero_mul,
      Nat.add_zero]
  rw [State.left, hpeersLeft, State.leaderLeft, hleader, Nat.sub_eq_zero_of_le hlast, LeaderPc.rank, Nat.zero_mul]

theorem left_initial (totalPeers tests : Nat) :
    ({} : State).left totalPeers tests = max 1 tests * (23 * totalPeers + 13) + 2 * totalPeers := by
  have hpeer : ∀ i ∈ Finset.range totalPeers, ({} : State).peerLeft tests i = max 1 tests * 13 + 2 := by
    intro i _
    change (tests - 1) * 13 + 15 = max 1 tests * 13 + 2
    omega
  rw [State.left, Finset.sum_congr rfl hpeer, Finset.sum_const, Finset.card_range, State.leaderLeft, LeaderPc.rank,
    smul_eq_mul]
  obtain htests | htests : tests = 0 ∨ 1 ≤ tests := by omega
  · subst htests
    dsimp only
    rw [max_eq_left (Nat.zero_le 1)]
    omega
  · obtain ⟨k, rfl⟩ := Nat.exists_eq_add_of_le htests
    rw [max_eq_right htests]
    dsimp only
    rw [Nat.add_sub_cancel_left]
    ring

theorem queues_removed (hr : (machine totalPeers tests).Reached s) (hfinished : s.Finished totalPeers) :
    s.queues.linked .barrier = none ∧ s.queues.linked .done = none ∧
      ∀ i < totalPeers, s.queues.linked (.control i) = none ∧ s.queues.linked (.data i) = none := by
  obtain ⟨hleader, hpeers⟩ := hfinished
  have hinv := rendezvous hr
  have h := inboxes hr
  refine ⟨?_, ?_, fun i hi => ⟨(h.peers i hi).left (.inr (hpeers i hi)), (h.peers i hi).leftData (hpeers i hi)⟩⟩
  · rw [hinv.barrier, hleader]
    rfl
  · rw [hinv.done, hleader]
    rfl

/-! ## How experiments end -/

theorem machine_progresses : (machine totalPeers tests).Progresses Event.cost
    (fun s => ∀ i < totalPeers, ¬ s.Lost i) (State.Finished totalPeers) := by
  intro s hr hkept
  have hinv := rendezvous hr
  by_cases hleader : ∃ s', leaderStep totalPeers tests s = some s'
  · obtain ⟨s', hstep⟩ := hleader
    exact .inr ⟨.leader, s', rfl, hstep, fun i hi => not_lost_of_leaderStep hinv hi hstep (hkept i hi)⟩
  -- the leader waits, so it is at no data queue
  have hnotDropping : ∀ i, s.leader ≠ .dropData i := by
    intro i hdrop
    apply hleader
    unfold leaderStep
    rw [hdrop]
    exact ⟨_, rfl⟩
  rcases moves_or_finished hr with hfinished | (hmoves | ⟨i, hi, s', hstep⟩) | ⟨i, hi, hfails⟩
  · exact .inl hfinished
  · exact absurd hmoves hleader
  · refine .inr ⟨.peer i, s', rfl, ?_, fun k hk => not_lost_of_peerStep hstep (hnotDropping k) (hkept k hk)⟩
    change step totalPeers tests s (.peer i) = some s'
    rw [step, if_pos hi]
    exact hstep
  · exact absurd hfails.lost (hkept i hi)

/-- **The rendezvous gets stuck at a lost data queue only.** Whatever the processes have done so far, in whatever
order and with however many retries: unless all are through, one of them can go on, or a peer fails in `configure`;
and the experiment can be brought to its end from there exactly if no data queue is lost, then without another
retry and in as many operations as are left. -/
theorem never_stuck (hr : (machine totalPeers tests).Reached s) :
    (s.Finished totalPeers ∨ s.Moves totalPeers tests ∨ ∃ i < totalPeers, s.Fails i) ∧
      ((∃ es s', (machine totalPeers tests).run s es = some s' ∧ s'.Finished totalPeers) ↔
        ∀ i < totalPeers, ¬ s.Lost i) ∧
      ((∀ i < totalPeers, ¬ s.Lost i) → ∃ es s', (machine totalPeers tests).run s es = some s' ∧
        (∀ e ∈ es, ∀ i, e ≠ .retry i) ∧ s'.Finished totalPeers ∧ es.length = s.left totalPeers tests) := by
  have hend : (∀ i < totalPeers, ¬ s.Lost i) → ∃ es s', (machine totalPeers tests).run s es = some s' ∧
      (∀ e ∈ es, ∀ i, e ≠ .retry i) ∧ s'.Finished totalPeers ∧ es.length = s.left totalPeers tests := by
    intro hkept
    obtain ⟨es, s', hrun, hfree, hfinished⟩ := machine_progresses.exists_run machine_drains hr hkept
    have hcount := machine_drains.run hr hrun
    have hcosts : (es.map Event.cost).sum = 0 := by
      apply List.sum_eq_zero
      intro c hc
      obtain ⟨e, he, rfl⟩ := List.mem_map.mp hc
      exact hfree e he
    have hnone := left_eq_zero (Lib.Machine.reached_of_run hr hrun) hfinished
    refine ⟨es, s', hrun, ?_, hfinished, by omega⟩
    intro e he i heq
    have hretry := hfree e he
    rw [heq, Event.cost] at hretry
    cases hretry
  refine ⟨moves_or_finished hr, ⟨?_, fun hkept => ?_⟩, hend⟩
  · rintro ⟨es, s', hrun, -, hpeers⟩ i hi hlost
    obtain ⟨hbefore, -⟩ := hlost.run hr hi hrun
    rw [hpeers i hi] at hbefore
    cases hbefore
  · obtain ⟨es, s', hrun, -, hfinished, -⟩ := hend hkept
    exact ⟨es, s', hrun, hfinished⟩

/-- The experiment of one peer and one test until the ready is tried a second time. -/
def untilRetry : List Event := List.replicate 4 .leader ++ List.replicate 5 (.peer 0) ++ [.retry 0]

/-- The peer has its ready still to send: 19 operations of the leader are left, and eleven of the peer. -/
theorem never_stuck_retried : ∃ s, (machine 1 1).run {} untilRetry = some s ∧
    ∃ es s', (machine 1 1).run s es = some s' ∧ (∀ e ∈ es, ∀ i, e ≠ .retry i) ∧ s'.Finished 1 ∧ es.length = 30 := by
  have hrun : ((machine 1 1).run {} untilRetry).map (fun s => decide (s.left 1 1 = 30 ∧ ¬ s.Lost 0)) = some true := by
    decide +kernel
  obtain ⟨s, hs, hstate⟩ := Option.map_eq_some_iff.mp hrun
  obtain ⟨hleft, hkept⟩ := of_decide_eq_true hstate
  obtain ⟨-, -, hend⟩ := never_stuck (Lib.Machine.reached_of_run (.start rfl) hs)
  obtain ⟨es, s', hrun', hfree, hfinished, hlength⟩ := hend fun i hi => Nat.lt_one_iff.mp hi ▸ hkept
  exact ⟨s, hs, es, s', hrun', hfree, hfinished, hlength.trans hleft⟩

/-- All is at rest: neither the leader nor a peer has an operation, not even a retry. -/
def State.Stopped (totalPeers tests : Nat) (s : State) : Prop :=
  ∀ e, (machine totalPeers tests).step s e = none

theorem State.Finished.stopped (h : s.Finished totalPeers) : s.Stopped totalPeers tests := by
  obtain ⟨hleader, hpeers⟩ := h
  intro e
  cases e with
  | leader =>
    change leaderStep totalPeers tests s = none
    rw [leaderStep, hleader]
  | peer i =>
    change step totalPeers tests s (.peer i) = none
    rw [step]
    split_ifs with hi
    · rw [peerStep, hpeers i hi]
    · rfl
  | retry i =>
    change step totalPeers tests s (.retry i) = none
    rw [step]
    split_ifs with hi
    · rw [peerRetry, hpeers i hi]
    · rfl

theorem finished_or_fails (hr : (machine totalPeers tests).Reached s) (hstopped : s.Stopped totalPeers tests) :
    s.Finished totalPeers ∨ ∃ i < totalPeers, s.Fails i := by
  rcases moves_or_finished hr with hfinished | (⟨s', hstep⟩ | ⟨i, hi, s', hstep⟩) | hfails
  · exact .inl hfinished
  · have hnone := hstopped .leader
    change leaderStep totalPeers tests s = none at hnone
    rw [hnone] at hstep
    cases hstep
  · have hnone := hstopped (.peer i)
    change step totalPeers tests s (.peer i) = none at hnone
    rw [step, if_pos hi, hstep] at hnone
    cases hnone
  · exact .inr hfails

theorem not_fails (hr : (machine totalPeers tests).ReachedUnder RemovesInTime s) (hi : i < totalPeers) :
    ¬ s.Fails i := by
  rintro ⟨hpc, hnone⟩
  have hthree : s.peerGrade i = 3 := by rw [State.peerGrade, hpc, PeerPc.grade]
  have haligned := ((rendezvous hr).peers i hi).aligned
  unfold Aligned at haligned
  have hlinked := (dataInv hr hi).kept (by omega) (by omega) (by omega) (by omega)
  rw [hnone] at hlinked
  cases hlinked

/-- **An experiment ends.** A run of any interleaving has taken as many operations as `State.left` has lost since
the start, and two more for each retry. It stops only when all processes are through or a peer fails in
`configure`; when all are through no queue of the experiment has a name. Under the condition of `test_boundary` it
stops exactly when all are through. -/
theorem experiment_ends {es : List Event} (hrun : (machine totalPeers tests).run {} es = some s) :
    es.length + s.left totalPeers tests =
        max 1 tests * (23 * totalPeers + 13) + 2 * totalPeers + (es.map Event.cost).sum ∧
      (s.Stopped totalPeers tests → s.Finished totalPeers ∨ ∃ i < totalPeers, s.Fails i) ∧
      (s.Finished totalPeers → s.Stopped totalPeers tests ∧ s.left totalPeers tests = 0 ∧
        s.queues.linked .barrier = none ∧ s.queues.linked .done = none ∧
        ∀ i < totalPeers, s.queues.linked (.control i) = none ∧ s.queues.linked (.data i) = none) ∧
      ((machine totalPeers tests).runUnder RemovesInTime {} es = some s →
        (s.Stopped totalPeers tests ↔ s.Finished totalPeers)) := by
  have hstart : (machine totalPeers tests).Reached {} := .start rfl
  have hr := Lib.Machine.reached_of_run hstart hrun
  refine ⟨?_, finished_or_fails hr, fun h => ⟨h.stopped, left_eq_zero hr h, queues_removed hr h⟩, fun hunder => ?_⟩
  · rw [← left_initial]
    exact machine_drains.run hstart hrun
  · have hguarded := Lib.Machine.reachedUnder_of_runUnder (.start rfl) hunder
    refine ⟨fun hstopped => ?_, State.Finished.stopped⟩
    rcases finished_or_fails hr hstopped with hfinished | ⟨i, hi, hfails⟩
    · exact hfinished
    · exact absurd hfails (not_fails hguarded hi)

/-- The peer sends its ready at the second try, and the experiment runs to its end. -/
theorem experiment_ends_retried : ∃ s es, (machine 1 1).run {} (untilRetry ++ es) = some s ∧
    (untilRetry ++ es).length = 40 ∧ s.left 1 1 = 0 ∧ s.queues.linked (.control 0) = none := by
  let es : List Event := List.replicate 2 (.peer 0) ++ List.replicate 4 .leader ++ List.replicate 2 (.peer 0) ++
    List.replicate 3 .leader ++ [.peer 0] ++ List.replicate 2 .leader ++ List.replicate 2 (.peer 0) ++
    List.replicate 10 .leader ++ List.replicate 4 (.peer 0)
  have hrun : ((machine 1 1).run {} (untilRetry ++ es)).map
      (fun s => decide (s.leader = .finished ∧ s.peer 0 = .finished)) = some true := by
    decide +kernel
  obtain ⟨s, hs, hstate⟩ := Option.map_eq_some_iff.mp hrun
  obtain ⟨hleader, hpeer⟩ := of_decide_eq_true hstate
  obtain ⟨-, -, hend, -⟩ := experiment_ends hs
  obtain ⟨-, hleft, -, -, hqueues⟩ := hend ⟨hleader, fun i hi => Nat.lt_one_iff.mp hi ▸ hpeer⟩
  exact ⟨s, es, hs, rfl, hleft, (hqueues 0 Nat.one_pos).1⟩

end Quantas.BoostMq
