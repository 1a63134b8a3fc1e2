import Quantas.BoostMq.Invariant

/-!
# What waits in a control inbox

`Rendezvous` says when the queues are there; that a process which waits gets what it waits for also needs what
they hold. `InboxInv` is this part of the invariant for the leader and one peer: the inbox of the peer's test
holds the signals that the leader has sent and the peer has not taken, the completion of the peer is in `mq_done`
until the leader counts it, and the names that a process is about to create are free.
-/

namespace Quantas.BoostMq

/-! ## Signals sent and taken -/

/-- How many signals of its test the leader has sent to peer `i`. -/
@[simp] def LeaderPc.given (i : Nat) : LeaderPc → Nat
  | .removeBarrier | .removeDone | .makeBarrier | .makeDone | .waitForAllReady _ => 0
  | .openInbox .assignment k | .sendSignal .assignment k _ => if i < k then 1 else 0
  | .openInbox .start k | .sendSignal .start k _ => if i < k then 2 else 1
  | .openInbox .stop k | .sendSignal .stop k _ => if i < k then 3 else 2
  | .openDone | .waitForAllDone _ _ => 2
  | .dropBarrier | .dropDone | .dropControl _ | .dropData _ | .finished => 3

@[simp] def PeerPc.taken : PeerPc → Nat
  | .removeControl | .removeData | .makeControl | .makeData | .openBarrier | .sendReady _ => 0
  | .waitForAssignments => 0
  | .configure | .waitForStart => 1
  | .openDone | .sendDone _ | .waitForStop => 2
  | .waitForQueueRemoval | .dropControl | .dropData | .finished => 3

/-- The signals of a test from number `taken` up to number `given`. -/
def signals (taken given : Nat) : List Message :=
  (([Signal.assignment, .start, .stop].take given).drop taken).map .signal

def State.given (s : State) (i : Nat) : Nat :=
  if s.peerTest i = s.leaderTest then s.leader.given i else if s.leaderTest < s.peerTest i then 0 else 3

/-- How many signals of its test peer `i` has taken. -/
abbrev State.taken (s : State) (i : Nat) : Nat := (s.peer i).taken

/-- The completion of peer `i` is in `mq_done`. -/
def State.DonePending (s : State) (i : Nat) : Prop :=
  s.peerTest i = s.leaderTest ∧ s.peerGrade i = 4 ∧ s.leaderGrade i ≤ 1

instance (s : State) (i : Nat) : Decidable (s.DonePending i) := inferInstanceAs (Decidable (_ ∧ _))

/-! ## The invariant -/

variable (tests : Nat)

structure InboxInv (s : State) (i : Nat) : Prop where
  ahead : s.taken i ≤ s.given i
  content : 1 ≤ s.peerGrade i → s.peerGrade i ≤ 4 →
    s.queues.messages (.control i) (s.peerTest i) = signals (s.taken i) (s.given i)
  done : (s.queues.messages .done s.leaderTest).count (.done i) = if s.DonePending i then 1 else 0
  free : s.peer i = .removeData ∨ s.peer i = .makeControl → s.queues.linked (.control i) = none
  freeData : s.peer i = .makeControl ∨ s.peer i = .makeData → s.queues.linked (.data i) = none
  /-- The peer sees that `cleanUp` has come to its control queue. -/
  removed : s.peerGrade i = 4 → s.leaderTest ≠ s.peerTest i ∨ 3 ≤ s.leaderGrade i →
    s.queues.linked (.control i) = none
  last : 2 ≤ s.peerTest i → s.peerTest i ≤ tests
  left : s.peer i = .dropData ∨ s.peer i = .finished → s.queues.linked (.control i) = none
  leftData : s.peer i = .finished → s.queues.linked (.data i) = none

variable {tests} {totalPeers : Nat} {s s' : State} {i : Nat}

theorem signals_take {taken given : Nat} (h : taken < given) (hgiven : given ≤ 3) :
    signals taken given = .signal ([Signal.assignment, .start, .stop].getD taken .stop) :: signals (taken + 1) given := by
  interval_cases given <;> interval_cases taken <;> rfl

theorem signals_give {taken given : Nat} (h : taken ≤ given) (hgiven : given < 3) :
    signals taken given ++ [.signal ([Signal.assignment, .start, .stop].getD given .stop)] =
      signals taken (given + 1) := by
  interval_cases given <;> interval_cases taken <;> rfl

theorem signals_self (n : Nat) : signals n n = [] := by
  unfold signals
  rw [List.drop_take_self]
  rfl

theorem LeaderPc.given_le (leader : LeaderPc) (i : Nat) : leader.given i ≤ 3 := by
  cases leader with
  | openInbox signal k => cases signal <;> simp <;> split_ifs <;> simp
  | sendSignal signal k queue => cases signal <;> simp <;> split_ifs <;> simp
  | _ => simp

theorem State.given_le (s : State) (i : Nat) : s.given i ≤ 3 := by
  unfold State.given
  split_ifs
  · exact LeaderPc.given_le _ _
  · simp
  · simp

theorem LeaderPc.given_eq_zero {leader : LeaderPc} (h : leader.grade i = 0) : leader.given i = 0 := by
  cases leader with
  | openInbox signal k => cases signal <;> simp at h
  | sendSignal signal k queue => cases signal <;> simp at h
  | waitForAllDone queue completed =>
    simp only [LeaderPc.grade] at h
    split_ifs at h
  | dropControl k =>
    simp only [LeaderPc.grade] at h
    split_ifs at h
  | dropData k =>
    simp only [LeaderPc.grade] at h
    split_ifs at h
  | _ => first | rfl | simp at h

theorem InboxInv.counted (h : InboxInv tests s i) (hsame : s.peerTest i = s.leaderTest) (htaken : 1 ≤ s.taken i) :
    1 ≤ s.leaderGrade i := by
  by_contra hzero
  have hgiven : s.leader.given i = 0 := LeaderPc.given_eq_zero (Nat.lt_one_iff.mp (not_le.mp hzero))
  have hahead := h.ahead
  unfold State.given at hahead
  rw [if_pos hsame, hgiven] at hahead
  omega

theorem Rendezvous.between (h : Rendezvous totalPeers tests s) (hi : i < totalPeers)
    (hgrade : 1 ≤ s.leaderGrade i ∧ s.leaderGrade i ≤ 2) :
    s.queues.linked (.control i) = some s.leaderTest ∧ s.peerTest i = s.leaderTest ∧ 3 ≤ s.peerGrade i ∧
      s.peerGrade i ≤ 4 := by
  have hpeer := h.peers i hi
  have haligned := hpeer.aligned
  have hfive : s.peerGrade i ≤ 5 := by
    unfold State.peerGrade
    cases s.peer i <;> simp
  have hplace : s.peerTest i = s.leaderTest ∧ 3 ≤ s.peerGrade i ∧ s.peerGrade i ≤ 4 := by
    unfold Aligned at haligned
    omega
  obtain ⟨hsame, hthree, hfour⟩ := hplace
  have hlinked := hpeer.control (by omega) hfour hsame.ge fun _ => hgrade.2
  rw [hsame] at hlinked
  exact ⟨hlinked, hsame, hthree, hfour⟩

theorem Signal.grade_openInbox (signal : Signal) (k i : Nat) :
    1 ≤ (LeaderPc.openInbox signal k).grade i ∧ (LeaderPc.openInbox signal k).grade i ≤ 2 := by
  cases signal <;> simp

/-! ## The steps of the leader -/

namespace InboxInv

/-- A step of the leader that sends nothing to the peer and leaves it on the same side of the counting of
completions and of the removal of its control queue. -/
theorem quiet (h : InboxInv tests s i) (hpeer : s'.peer = s.peer) (htest : s'.peerTest = s.peerTest)
    (hT : s'.leaderTest = s.leaderTest) (hgiven : s'.leader.given i = s.leader.given i)
    (hcounts : s'.leaderGrade i ≤ 1 ↔ s.leaderGrade i ≤ 1) (hremoves : 3 ≤ s'.leaderGrade i → 3 ≤ s.leaderGrade i)
    (hcontent : s'.queues.messages (.control i) = s.queues.messages (.control i))
    (hdone : (s'.queues.messages .done s.leaderTest).count (.done i) =
      (s.queues.messages .done s.leaderTest).count (.done i))
    (hlinked : ∀ name, s.queues.linked name = none → name ≠ .barrier → name ≠ .done →
      s'.queues.linked name = none) : InboxInv tests s' i := by
  have hpc : s'.peer i = s.peer i := congrFun hpeer i
  have hp : s'.peerTest i = s.peerTest i := congrFun htest i
  have hstate : s'.given i = s.given i := by
    unfold State.given
    rw [hp, hT, hgiven]
  have hpending : s'.DonePending i ↔ s.DonePending i := by
    unfold State.DonePending State.peerGrade
    rw [hp, hT, hpc, hcounts]
  refine ⟨?_, ?_, ?_, ?_, ?_, ?_, ?_, ?_, ?_⟩
  · rw [hstate, State.taken, hpc]
    exact h.ahead
  · rw [hstate, State.taken, State.peerGrade, hpc, hp, hcontent]
    exact h.content
  · rw [hT, hdone, h.done]
    exact if_congr hpending.symm rfl rfl
  · rw [hpc]
    exact fun hfree => hlinked _ (h.free hfree) (by simp) (by simp)
  · rw [hpc]
    exact fun hfree => hlinked _ (h.freeData hfree) (by simp) (by simp)
  · rw [State.peerGrade, hpc, hT, hp]
    exact fun hfour hgone => hlinked _ (h.removed hfour (hgone.imp_right hremoves)) (by simp) (by simp)
  · rw [hp]
    exact h.last
  · rw [hpc]
    exact fun hleft => hlinked _ (h.left hleft) (by simp) (by simp)
  · rw [hpc]
    exact fun hleft => hlinked _ (h.leftData hleft) (by simp) (by simp)

end InboxInv

structure Inboxes (totalPeers tests : Nat) (s : State) : Prop where
  peers : ∀ i < totalPeers, InboxInv tests s i
  handle : ∀ signal k queue, s.leader = .sendSignal signal k queue → queue = s.leaderTest ∧ k < totalPeers
  dones : ∀ m ∈ s.queues.messages .done s.leaderTest, ∃ i < totalPeers, m = .done i
  dropping : ∀ k, s.leader = .dropData k → k < totalPeers

namespace Inboxes

theorem quiet (h : Inboxes totalPeers tests s) (hpeer : s'.peer = s.peer) (htest : s'.peerTest = s.peerTest)
    (hT : s'.leaderTest = s.leaderTest)
    (hmoves : ∀ i < totalPeers, s'.leader.given i = s.leader.given i ∧
      (s'.leaderGrade i ≤ 1 ↔ s.leaderGrade i ≤ 1) ∧ (3 ≤ s'.leaderGrade i → 3 ≤ s.leaderGrade i))
    (hcontent : ∀ i, s'.queues.messages (.control i) = s.queues.messages (.control i))
    (hdone : s'.queues.messages .done s.leaderTest = s.queues.messages .done s.leaderTest)
    (hlinked : ∀ name, s.queues.linked name = none → name ≠ .barrier → name ≠ .done →
      s'.queues.linked name = none)
    (hhandle : ∀ signal k queue, s'.leader = .sendSignal signal k queue → queue = s.leaderTest ∧ k < totalPeers)
    (hdropping : ∀ k, s'.leader = .dropData k → k < totalPeers) : Inboxes totalPeers tests s' := by
  refine ⟨fun i hi => ?_, ?_, ?_, hdropping⟩
  · obtain ⟨hgiven, hcounts, hremoves⟩ := hmoves i hi
    exact (h.peers i hi).quiet hpeer htest hT hgiven hcounts hremoves (hcontent i) (by rw [hdone]) hlinked
  · rw [hT]
    exact hhandle
  · rw [hT, hdone]
    exact h.dones

theorem of_completion (h : Inboxes totalPeers tests s) {queue k : Nat} {completed : Finset Nat} {rest : List Message}
    (hpc : s.leader = .waitForAllDone queue completed) (hqueue : queue = s.leaderTest)
    (hcontent : s.queues.messages .done queue = .done k :: rest)
    (hs' : s' = { s with
      queues := s.queues.store .done queue rest
      leader := .waitForAllDone queue (insert k completed) }) : Inboxes totalPeers tests s' := by
  subst hqueue hs'
  refine ⟨fun i hi => ?_, by simp, ?_, by simp⟩
  · have hinv := h.peers i hi
    by_cases hik : i = k
    · subst hik
      have hdone := hinv.done
      rw [hcontent, List.count_cons_self] at hdone
      have hnone : rest.count (.done i) = 0 := by
        split_ifs at hdone
        omega
      have hgiven : State.given { s with
          queues := s.queues.store .done s.leaderTest rest
          leader := .waitForAllDone s.leaderTest (insert i completed) } i = s.given i := by
        unfold State.given
        rw [hpc]
        rfl
      refine ⟨?_, ?_, ?_, hinv.free, hinv.freeData, ?_, hinv.last, hinv.left, hinv.leftData⟩
      · rw [hgiven]
        exact hinv.ahead
      · rw [hgiven]
        exact hinv.content
      · rw [Lib.NamedQueues.store_messages_self, hnone]
        refine (if_neg fun hpending => ?_).symm
        have := hpending.2.2
        simp [State.leaderGrade] at this
      · intro hfour hgone
        exact hinv.removed hfour (hgone.imp_right fun hthree => by simp [State.leaderGrade] at hthree)
    · refine hinv.quiet rfl rfl rfl (by simp [hpc]) ?_ ?_ (by simp) ?_ (fun _ hnone _ _ => hnone)
      · simp [State.leaderGrade, hpc, hik]
      · simp only [State.leaderGrade, LeaderPc.grade]
        intro hthree
        split_ifs at hthree <;> omega
      · rw [Lib.NamedQueues.store_messages_self, hcontent, List.count_cons_of_ne]
        intro heq
        exact hik (Message.done.inj heq).symm
  · intro m hm
    rw [Lib.NamedQueues.store_messages_self] at hm
    exact h.dones m (hcontent ▸ List.mem_cons_of_mem _ hm)

theorem of_signal (h : Inboxes totalPeers tests s) (hinv : Rendezvous totalPeers tests s) {signal : Signal}
    {k queue : Nat} (hpc : s.leader = .sendSignal signal k queue)
    (hs' : s' = { s with
      queues := s.queues.store (.control k) queue (s.queues.messages (.control k) queue ++ [.signal signal])
      leader := .openInbox signal (k + 1) }) : Inboxes totalPeers tests s' := by
  obtain ⟨rfl, hk⟩ := h.handle signal k queue hpc
  subst hs'
  have hgrade : ∀ i, (LeaderPc.openInbox signal (k + 1)).grade i = s.leaderGrade i := by
    intro i
    rw [State.leaderGrade, hpc]
    rfl
  refine ⟨fun i hi => ?_, by simp, h.dones, by simp⟩
  have hold := h.peers i hi
  by_cases hik : i = k
  swap
  · refine hold.quiet rfl rfl rfl ?_ (by rw [State.leaderGrade, hgrade]) (by rw [State.leaderGrade, hgrade]; exact id)
      ?_ (by simp) (fun _ hnone _ _ => hnone)
    · have hlt : i < k + 1 ↔ i < k := by omega
      cases signal <;> simp [hpc, hlt]
    · exact Lib.NamedQueues.store_messages_of_name_ne (by simpa using hik)
  · subst hik
    -- the leader sends signals only to peers in its own test
    have haligned := (hinv.peers i hi).aligned
    have hmiddle : 1 ≤ s.leaderGrade i ∧ s.leaderGrade i ≤ 2 := by
      rw [State.leaderGrade, hpc]
      simp only [LeaderPc.grade]
      split_ifs <;> simp
    have hsame : s.peerTest i = s.leaderTest := by
      unfold Aligned at haligned
      omega
    have hgiven : s.given i = s.leader.given i := if_pos hsame
    have hgive : s.leader.given i < 3 ∧ (LeaderPc.openInbox signal (i + 1)).given i = s.leader.given i + 1 ∧
        signal = [Signal.assignment, .start, .stop].getD (s.leader.given i) .stop := by
      rw [hpc]
      cases signal <;> simp
    have hnew : State.given { s with
        queues := s.queues.store (.control i) s.leaderTest
          (s.queues.messages (.control i) s.leaderTest ++ [.signal signal])
        leader := .openInbox signal (i + 1) } i = s.leader.given i + 1 := by
      unfold State.given
      rw [if_pos hsame]
      exact hgive.2.1
    have hahead := hold.ahead
    rw [hgiven] at hahead
    refine ⟨?_, ?_, hold.done.trans ?_, hold.free, hold.freeData, ?_, hold.last, hold.left, hold.leftData⟩
    · rw [hnew]
      exact hahead.trans (Nat.le_succ _)
    · intro hone hfour
      have hcontent := hold.content hone hfour
      rw [hgiven] at hcontent
      rw [hnew, ← signals_give hahead hgive.1, ← hcontent, ← hgive.2.2]
      dsimp only
      rw [hsame, Lib.NamedQueues.store_messages_self]
    · refine if_congr ?_ rfl rfl
      unfold State.DonePending
      rw [State.leaderGrade, State.leaderGrade, hgrade]
    · intro hfour hgone
      refine hold.removed hfour (hgone.imp_right fun hthree => ?_)
      rw [State.leaderGrade, hgrade] at hthree
      exact hthree

theorem of_makeDone (h : Inboxes totalPeers tests s) {q : Queues} (hpc : s.leader = .makeDone)
    (hq : s.queues.create .done s.leaderTest = some q)
    (hs' : s' = { s with queues := q, leader := .waitForAllReady ∅ }) : Inboxes totalPeers tests s' := by
  obtain ⟨-, rfl⟩ := Lib.NamedQueues.create_eq_some hq
  subst hs'
  refine ⟨fun i hi => ?_, by simp, ?_, by simp⟩
  · have hinv := h.peers i hi
    have hnot : ¬ s.DonePending i := by
      rintro ⟨hsame, hfour, -⟩
      have htwo : 1 ≤ s.taken i := by
        revert hfour
        unfold State.peerGrade State.taken
        cases s.peer i <;> simp
      have hcounted := hinv.counted hsame htwo
      simp [State.leaderGrade, hpc] at hcounted
    refine hinv.quiet rfl rfl rfl (by simp [hpc]) (by simp [State.leaderGrade, hpc])
      (by simp [State.leaderGrade]) (by simp) ?_ ?_
    · have hdone := hinv.done
      rw [if_neg hnot] at hdone
      rw [Lib.NamedQueues.link_messages, Lib.NamedQueues.store_messages_self, hdone]
      rfl
    · intro name hnone _ hname
      rw [Lib.NamedQueues.link_linked_of_ne hname]
      exact hnone
  · intro m hm
    rw [Lib.NamedQueues.link_messages, Lib.NamedQueues.store_messages_self] at hm
    cases hm

theorem of_dropControl (h : Inboxes totalPeers tests s) {k : Nat} (hpc : s.leader = .dropControl k)
    (hk : k < totalPeers)
    (hs' : s' = { s with queues := s.queues.remove (.control k), leader := .dropData k }) :
    Inboxes totalPeers tests s' := by
  subst hs'
  have hkept : ∀ name, s.queues.linked name = none → (s.queues.remove (.control k)).linked name = none := by
    intro name hnone
    by_cases hname : name = .control k
    · rw [hname]
      exact Lib.NamedQueues.remove_linked_self
    · rw [Lib.NamedQueues.remove_linked_of_ne hname]
      exact hnone
  refine ⟨fun i hi => ?_, by simp, h.dones, by simp [hk]⟩
  have hinv := h.peers i hi
  by_cases hik : i = k
  · subst hik
    have hgiven : State.given { s with queues := s.queues.remove (.control i), leader := .dropData i } i =
        s.given i := by
      unfold State.given
      rw [hpc]
      rfl
    refine ⟨?_, ?_, hinv.done.trans ?_, fun hfree => hkept _ (hinv.free hfree), fun hfree => hkept _ (hinv.freeData hfree),
      fun _ _ => Lib.NamedQueues.remove_linked_self, hinv.last, fun hleft => hkept _ (hinv.left hleft),
      fun hleft => hkept _ (hinv.leftData hleft)⟩
    · rw [hgiven]
      exact hinv.ahead
    · rw [hgiven]
      exact hinv.content
    · refine if_congr ?_ rfl rfl
      unfold State.DonePending
      simp [State.leaderGrade, hpc]
  · refine hinv.quiet rfl rfl rfl (by simp [hpc]) ?_ ?_ rfl rfl (fun name hnone _ _ => hkept name hnone)
    · simp only [State.leaderGrade, hpc, LeaderPc.grade]
      split_ifs <;> omega
    · simp only [State.leaderGrade, hpc, LeaderPc.grade]
      split_ifs <;> omega

theorem of_next_test (h : Inboxes totalPeers tests s) (hinv : Rendezvous totalPeers tests s) {k : Nat}
    (hpc : s.leader = .dropControl k) (hk : totalPeers ≤ k)
    (hs' : s' = { s with leaderTest := s.leaderTest + 1, leader := .removeBarrier }) :
    Inboxes totalPeers tests s' := by
  subst hs'
  have hfresh : s.queues.messages .done (s.leaderTest + 1) = [] :=
    hinv.fresh .done (by simp) _ (Nat.lt_succ_self _)
  refine ⟨fun i hi => ?_, by simp, ?_, by simp⟩
  · have hold := h.peers i hi
    have haligned := (hinv.peers i hi).aligned
    have hleader : s.leaderGrade i = 4 := by
      simp only [State.leaderGrade, hpc, LeaderPc.grade]
      exact if_neg (by omega)
    have hcases : s.peerTest i = s.leaderTest + 1 ∧ s.peerGrade i ≤ 2 ∨
        s.peerTest i = s.leaderTest ∧ 4 ≤ s.peerGrade i := by
      unfold Aligned at haligned
      omega
    have hgiven : State.given { s with leaderTest := s.leaderTest + 1, leader := .removeBarrier } i = s.given i := by
      unfold State.given
      rcases hcases with ⟨hnext, -⟩ | ⟨hsame, -⟩
      · rw [if_pos hnext, if_neg (by omega), if_pos (by omega)]
        rfl
      · rw [if_neg (by simp [hsame]), if_neg (by simp [hsame]), if_pos hsame, hpc]
        rfl
    refine ⟨?_, ?_, ?_, hold.free, hold.freeData, ?_, hold.last, hold.left, hold.leftData⟩
    · rw [hgiven]
      exact hold.ahead
    · rw [hgiven]
      exact hold.content
    · dsimp only
      rw [hfresh, if_neg]
      · rfl
      · rintro ⟨hsame, hfour, -⟩
        dsimp only at hsame
        have : s.peerGrade i = 4 := hfour
        omega
    · intro hfour _
      have : s.peerGrade i = 4 := hfour
      exact hold.removed hfour (.inr (by omega))
  · intro m hm
    dsimp only at hm
    rw [hfresh] at hm
    cases hm

theorem of_leader_step (h : Inboxes totalPeers tests s) (hinv : Rendezvous totalPeers tests s)
    (hstep : leaderStep totalPeers tests s = some s') : Inboxes totalPeers tests s' := by
  have hreadyWait := leaderStep_waitForAllReady hstep
  have hdoneWait := leaderStep_waitForAllDone hstep
  unfold leaderStep at hstep
  cases hpc : s.leader <;> rw [hpc] at hstep <;>
    simp only [Option.map_eq_some_iff, Option.some.injEq, reduceCtorEq] at hstep
  case removeBarrier =>
    subst hstep
    exact h.quiet rfl rfl rfl (by simp [State.leaderGrade, hpc]) (by simp) (by simp)
      (fun name hnone hname _ => by rwa [Lib.NamedQueues.remove_linked_of_ne hname]) (by simp) (by simp)
  case removeDone =>
    subst hstep
    exact h.quiet rfl rfl rfl (by simp [State.leaderGrade, hpc]) (by simp) (by simp)
      (fun name hnone _ hname => by rwa [Lib.NamedQueues.remove_linked_of_ne hname]) (by simp) (by simp)
  case makeBarrier =>
    obtain ⟨q, hq, rfl⟩ := hstep
    obtain ⟨-, rfl⟩ := Lib.NamedQueues.create_eq_some hq
    exact h.quiet rfl rfl rfl (by simp [State.leaderGrade, hpc]) (by simp) (by simp)
      (fun name hnone hname _ => by rwa [Lib.NamedQueues.link_linked_of_ne hname]) (by simp) (by simp)
  case makeDone =>
    obtain ⟨q, hq, rfl⟩ := hstep
    exact h.of_makeDone hpc hq rfl
  case waitForAllReady ready =>
    rcases hreadyWait ready hpc with ⟨-, k, test, rest, hk, hcontent, rfl⟩ | ⟨hfew, rfl⟩
    · refine h.quiet rfl rfl rfl (fun i _ => ⟨by simp [hpc, State.record], ?_, ?_⟩) (by simp) (by simp)
        (fun name hnone _ _ => hnone) (by simp [State.record]) (by simp [State.record])
      · simp only [State.leaderGrade, hpc, State.record, LeaderPc.grade]
        split_ifs <;> simp
      · simp only [State.leaderGrade, State.record, LeaderPc.grade]
        split_ifs <;> simp
    · refine h.quiet rfl rfl rfl (fun i _ => ⟨by simp [hpc], ?_, ?_⟩) (by simp) (by simp)
        (fun name hnone _ _ => hnone) (by simp) (by simp)
      · simp only [State.leaderGrade, hpc, LeaderPc.grade, reduceCtorEq, if_false]
        split_ifs <;> simp
      · simp [State.leaderGrade]
  case openInbox signal k =>
    split_ifs at hstep with hk
    · obtain ⟨queue, hqueue, rfl⟩ := Option.map_eq_some_iff.mp hstep
      refine h.quiet rfl rfl rfl ?_ (by simp) (by simp) (fun name hnone _ _ => hnone) ?_ (by simp)
      · intro i _
        cases signal <;> simp [State.leaderGrade, hpc]
      · intro signal' k' queue' heq
        obtain ⟨-, rfl, rfl⟩ := LeaderPc.sendSignal.inj heq
        obtain ⟨hlinked, -⟩ := hinv.between hk (by rw [State.leaderGrade, hpc]; exact signal.grade_openInbox k k)
        exact ⟨Option.some.inj (hqueue.symm.trans hlinked), hk⟩
    · obtain rfl := Option.some.inj hstep
      refine h.quiet rfl rfl rfl ?_ (by simp) (by simp) (fun name hnone _ _ => hnone) ?_ ?_
      · intro i hi
        have : i < k := by omega
        cases signal <;> simp [State.leaderGrade, hpc, afterSignal, this]
      · cases signal <;> simp [afterSignal]
      · cases signal <;> simp [afterSignal]
  case sendSignal signal k queue =>
    obtain ⟨q, hsend, rfl⟩ := hstep
    obtain rfl := Lib.NamedQueues.send_eq_some hsend
    exact h.of_signal hinv hpc rfl
  case openDone =>
    obtain ⟨queue, -, rfl⟩ := hstep
    exact h.quiet rfl rfl rfl (by simp [State.leaderGrade, hpc]) (by simp) (by simp)
      (fun name hnone _ _ => hnone) (by simp) (by simp)
  case waitForAllDone queue completed =>
    rcases hdoneWait queue completed hpc with ⟨-, k, rest, hk, hcontent, rfl⟩ | ⟨hfew, rfl⟩
    · exact h.of_completion hpc (hinv.opened queue completed hpc) hcontent rfl
    · have hall := Rendezvous.all_of_card (hinv.completed queue completed hpc) hfew
      refine h.quiet rfl rfl rfl ?_ (by simp) (by simp) (fun name hnone _ _ => hnone) (by simp) (by simp)
      intro i hi
      simp [State.leaderGrade, hpc, hall, hi]
  case dropBarrier =>
    subst hstep
    exact h.quiet rfl rfl rfl (by simp [State.leaderGrade, hpc]) (by simp) (by simp)
      (fun name hnone hname _ => by rwa [Lib.NamedQueues.remove_linked_of_ne hname]) (by simp) (by simp)
  case dropDone =>
    subst hstep
    exact h.quiet rfl rfl rfl (by simp [State.leaderGrade, hpc]) (by simp) (by simp)
      (fun name hnone _ hname => by rwa [Lib.NamedQueues.remove_linked_of_ne hname]) (by simp) (by simp)
  case dropControl k =>
    split_ifs at hstep with hk hmore
    · exact h.of_dropControl hpc hk (Option.some.inj hstep).symm
    · exact h.of_next_test hinv hpc (by omega) (Option.some.inj hstep).symm
    · obtain rfl := Option.some.inj hstep
      refine h.quiet rfl rfl rfl ?_ (by simp) (by simp) (fun name hnone _ _ => hnone) (by simp) (by simp)
      intro i hi
      have : ¬ k ≤ i := by omega
      simp [State.leaderGrade, hpc, this]
  case dropData k =>
    subst hstep
    refine h.quiet rfl rfl rfl ?_ (by simp) (by simp) ?_ (by simp) (by simp)
    · intro i hi
      refine ⟨by simp [hpc], ?_, ?_⟩
      · simp only [State.leaderGrade, hpc, LeaderPc.grade]
        split_ifs <;> omega
      · simp only [State.leaderGrade, hpc, LeaderPc.grade]
        split_ifs <;> omega
    · intro name hnone _ _
      by_cases hname : name = .data k
      · rw [hname]
        exact Lib.NamedQueues.remove_linked_self
      · rw [Lib.NamedQueues.remove_linked_of_ne hname]
        exact hnone

/-! ## The steps of a peer -/

theorem of_peer (h : Inboxes totalPeers tests s) (hi : i < totalPeers) (hself : InboxInv tests s' i)
    (hleader : s'.leader = s.leader) (hT : s'.leaderTest = s.leaderTest)
    (hpeer : ∀ j, j ≠ i → s'.peer j = s.peer j) (htest : ∀ j, j ≠ i → s'.peerTest j = s.peerTest j)
    (hcontent : ∀ j, j ≠ i → s'.queues.messages (.control j) = s.queues.messages (.control j))
    (hlinked : ∀ name, name ≠ .control i → name ≠ .data i → s'.queues.linked name = s.queues.linked name)
    (hdone : s'.queues.messages .done s.leaderTest = s.queues.messages .done s.leaderTest ∨
      s'.queues.messages .done s.leaderTest = s.queues.messages .done s.leaderTest ++ [.done i]) :
    Inboxes totalPeers tests s' := by
  refine ⟨fun j hj => ?_, ?_, ?_, ?_⟩
  · by_cases hji : j = i
    · exact hji ▸ hself
    have hold := h.peers j hj
    have hpc := hpeer j hji
    have hp := htest j hji
    have hstate : s'.given j = s.given j := by
      unfold State.given
      rw [hp, hT, hleader]
    have hcontrol : s'.queues.linked (.control j) = s.queues.linked (.control j) :=
      hlinked _ (by simpa using hji) (by simp)
    have hdata : s'.queues.linked (.data j) = s.queues.linked (.data j) :=
      hlinked _ (by simp) (by simpa using hji)
    have hcount : (s'.queues.messages .done s.leaderTest).count (.done j) =
        (s.queues.messages .done s.leaderTest).count (.done j) := by
      rcases hdone with hsame | hmore
      · rw [hsame]
      · rw [hmore, List.count_append, List.count_singleton, if_neg, Nat.add_zero]
        simpa using Ne.symm hji
    refine ⟨?_, ?_, ?_, ?_, ?_, ?_, ?_, ?_, ?_⟩
    · rw [hstate, State.taken, hpc]
      exact hold.ahead
    · rw [hstate, State.taken, State.peerGrade, hpc, hp, hcontent j hji]
      exact hold.content
    · rw [hT, hcount, hold.done]
      refine if_congr ?_ rfl rfl
      unfold State.DonePending State.peerGrade State.leaderGrade
      rw [hpc, hp, hT, hleader]
    · rw [hpc, hcontrol]
      exact hold.free
    · rw [hpc, hdata]
      exact hold.freeData
    · rw [State.peerGrade, State.leaderGrade, hpc, hp, hT, hleader, hcontrol]
      exact hold.removed
    · rw [hp]
      exact hold.last
    · rw [hpc, hcontrol]
      exact hold.left
    · rw [hpc, hdata]
      exact hold.leftData
  · rw [hleader, hT]
    exact h.handle
  · rw [hT]
    intro m hm
    rcases hdone with hsame | hmore
    · rw [hsame] at hm
      exact h.dones m hm
    · rw [hmore] at hm
      rcases List.mem_append.mp hm with hold | hnew
      · exact h.dones m hold
      · exact ⟨i, hi, List.mem_singleton.mp hnew⟩
  · rw [hleader]
    exact h.dropping

/-- A step of peer `i` in its test, apart from the making of its inbox and the sending of its completion: it leaves
the inbox alone, or takes a signal. -/
theorem of_own (h : Inboxes totalPeers tests s) (hi : i < totalPeers) {pc : PeerPc} {q : Queues}
    (hs' : s' = { s with queues := q }.setPeer i pc)
    (hfour : pc.grade = 4 ↔ (s.peer i).grade = 4)
    (hinbox : (pc.taken = (s.peer i).taken ∧ q.messages (.control i) = s.queues.messages (.control i) ∧
        (1 ≤ pc.grade ∧ pc.grade ≤ 4 → 1 ≤ (s.peer i).grade ∧ (s.peer i).grade ≤ 4)) ∨
      pc.taken = (s.peer i).taken + 1 ∧ (1 ≤ (s.peer i).grade ∧ (s.peer i).grade ≤ 4) ∧
        s.queues.messages (.control i) (s.peerTest i) ≠ [] ∧
        q.messages (.control i) (s.peerTest i) = (s.queues.messages (.control i) (s.peerTest i)).tail)
    (hcontent : ∀ j, j ≠ i → q.messages (.control j) = s.queues.messages (.control j))
    (hdone : q.messages .done = s.queues.messages .done)
    (hlinked : ∀ name, name ≠ .control i → name ≠ .data i → q.linked name = s.queues.linked name)
    (hkept : pc.grade = 4 → q.linked (.control i) = s.queues.linked (.control i))
    (hfree : pc = .removeData ∨ pc = .makeControl ∨ pc = .dropData ∨ pc = .finished → q.linked (.control i) = none)
    (hfreeData : pc = .makeControl ∨ pc = .makeData ∨ pc = .finished → q.linked (.data i) = none) :
    Inboxes totalPeers tests s' := by
  subst hs'
  have hold := h.peers i hi
  have hself : ({ s with queues := q }.setPeer i pc).peer i = pc := State.setPeer_self
  have hstate : ({ s with queues := q }.setPeer i pc).given i = s.given i := rfl
  refine h.of_peer hi ?_ rfl rfl (fun j hj => State.setPeer_of_ne hj) (fun _ _ => rfl) hcontent hlinked
    (.inl (congrFun hdone _))
  refine ⟨?_, ?_, ?_, ?_, ?_, ?_, hold.last, ?_, ?_⟩
  · rw [hstate, State.taken, hself]
    rcases hinbox with ⟨htaken, -⟩ | ⟨htaken, hbetween, hsome, -⟩
    · rw [htaken]
      exact hold.ahead
    · rw [htaken]
      have hahead := hold.ahead
      rw [hold.content hbetween.1 hbetween.2] at hsome
      have hne : s.taken i ≠ s.given i := fun heq => hsome (by rw [heq, signals_self])
      exact Nat.succ_le_of_lt (lt_of_le_of_ne hahead hne)
  · rw [hstate, State.taken, State.peerGrade, hself]
    intro hone hle
    rcases hinbox with ⟨htaken, hsame, hbetween⟩ | ⟨htaken, hbetween, hsome, htail⟩
    · obtain ⟨hone', hle'⟩ := hbetween ⟨hone, hle⟩
      rw [htaken]
      exact (congrFun hsame _).trans (hold.content hone' hle')
    · have hread := hold.content hbetween.1 hbetween.2
      rw [hread] at hsome
      have hne : s.taken i ≠ s.given i := fun heq => hsome (by rw [heq, signals_self])
      rw [signals_take (lt_of_le_of_ne hold.ahead hne) (State.given_le s i)] at hread
      rw [htaken]
      refine htail.trans ?_
      rw [hread]
      rfl
  · refine (congrArg (List.count _) (congrFun hdone _)).trans (hold.done.trans (if_congr ?_ rfl rfl))
    unfold State.DonePending State.peerGrade
    rw [hself, hfour]
    rfl
  · rw [hself]
    exact fun hpc => hfree (hpc.elim .inl fun hpc => .inr (.inl hpc))
  · rw [hself]
    exact fun hpc => hfreeData (hpc.elim .inl fun hpc => .inr (.inl hpc))
  · rw [State.peerGrade, hself]
    intro hpc hgone
    exact (hkept hpc).trans (hold.removed (hfour.mp hpc) hgone)
  · rw [hself]
    exact fun hpc => hfree (.inr (.inr hpc))
  · rw [hself]
    exact fun hpc => hfreeData (.inr (.inr hpc))

theorem record (h : Inboxes totalPeers tests s) (entry : Entry) : Inboxes totalPeers tests (s.record entry) := by
  refine ⟨fun i hi => ?_, h.handle, h.dones, h.dropping⟩
  obtain ⟨hahead, hcontent, hdone, hfree, hfreeData, hremoved, hlast, hleft, hleftData⟩ := h.peers i hi
  exact ⟨hahead, hcontent, hdone, hfree, hfreeData, hremoved, hlast, hleft, hleftData⟩

theorem of_makeControl (h : Inboxes totalPeers tests s) (hinv : Rendezvous totalPeers tests s) (hi : i < totalPeers)
    (hpc : s.peer i = .makeControl) {q : Queues}
    (hq : q = (s.queues.store (.control i) (s.peerTest i) []).link (.control i) (s.peerTest i)) :
    Inboxes totalPeers tests ({ s with queues := q }.setPeer i .makeData) := by
  have hold := h.peers i hi
  have hgrade : s.peerGrade i = 0 := by rw [State.peerGrade, hpc, PeerPc.grade]
  have hgiven : s.given i = 0 := by
    have haligned := (hinv.peers i hi).aligned
    unfold Aligned at haligned
    unfold State.given
    split_ifs with hsame hahead
    · have hzero : s.leaderGrade i = 0 := by omega
      exact LeaderPc.given_eq_zero hzero
    · rfl
    · omega
  have hempty : q.messages (.control i) (s.peerTest i) = [] := by
    rw [hq, Lib.NamedQueues.link_messages, Lib.NamedQueues.store_messages_self]
  have hothers : ∀ name, name ≠ .control i → q.messages name = s.queues.messages name ∧
      q.linked name = s.queues.linked name := by
    intro name hname
    rw [hq, Lib.NamedQueues.link_messages, Lib.NamedQueues.store_messages_of_name_ne hname,
      Lib.NamedQueues.link_linked_of_ne hname]
    exact ⟨rfl, rfl⟩
  refine h.of_peer hi ?_ rfl rfl (fun j hj => State.setPeer_of_ne hj) (fun _ _ => rfl)
    (fun j hj => (hothers _ (by simpa using hj)).1) (fun name hname _ => (hothers name hname).2)
    (.inl (congrFun (hothers .done (by simp)).1 _))
  refine ⟨?_, fun _ _ => ?_, ?_, ?_, ?_, ?_, hold.last, ?_, ?_⟩
  · rw [State.taken, State.setPeer_self]
    exact Nat.zero_le _
  · have hsame : ({ s with queues := q }.setPeer i .makeData).given i = 0 := hgiven
    rw [hsame, State.taken, State.setPeer_self]
    exact hempty
  · have hdone := hold.done
    rw [if_neg fun hpending => by have := hpending.2.1; omega] at hdone
    rw [if_neg fun hpending => by have := hpending.2.1; simp [State.peerGrade] at this]
    exact (congrArg (List.count _) (congrFun (hothers .done (by simp)).1 _)).trans hdone
  · simp
  · intro _
    exact (hothers (.data i) (by simp)).2.trans (hold.freeData (.inl hpc))
  · simp [State.peerGrade]
  · simp
  · simp

theorem of_sendDone (h : Inboxes totalPeers tests s) (hinv : Rendezvous totalPeers tests s) (hi : i < totalPeers)
    {queue : Nat} (hpc : s.peer i = .sendDone queue) :
    Inboxes totalPeers tests ({ s with
      queues := s.queues.store .done queue (s.queues.messages .done queue ++ [Message.done i]) }.setPeer
        i .waitForStop) := by
  have hold := h.peers i hi
  obtain rfl := (hinv.peers i hi).openedDone queue hpc
  have hgrade : s.peerGrade i = 3 := by rw [State.peerGrade, hpc, PeerPc.grade]
  have hplace : s.peerTest i = s.leaderTest ∧ s.leaderGrade i ≤ 1 := by
    have haligned := (hinv.peers i hi).aligned
    unfold Aligned at haligned
    omega
  refine h.of_peer hi ?_ rfl rfl (fun j hj => State.setPeer_of_ne hj) (fun _ _ => rfl) (by simp) (fun _ _ _ => rfl)
    (.inr Lib.NamedQueues.store_messages_self)
  have hahead := hold.ahead
  have hcontent := hold.content (by omega) (by omega)
  rw [State.taken, hpc] at hahead hcontent
  refine ⟨?_, fun _ _ => ?_, ?_, ?_, ?_, ?_, hold.last, ?_, ?_⟩
  · rw [State.taken, State.setPeer_self]
    exact hahead
  · rw [State.taken, State.setPeer_self]
    exact (congrFun (Lib.NamedQueues.store_messages_of_name_ne (by simp)) _).trans hcontent
  · have hdone := hold.done
    rw [if_neg fun hpending => by have := hpending.2.1; omega] at hdone
    rw [if_pos ⟨hplace.1, by rw [State.peerGrade, State.setPeer_self, PeerPc.grade], hplace.2⟩]
    refine (congrArg (List.count _) Lib.NamedQueues.store_messages_self).trans ?_
    rw [List.count_append, hdone, List.count_singleton_self]
  · simp
  · simp
  · intro _ hgone
    rcases hgone with hother | hthree
    · exact absurd hplace.1.symm hother
    · have : 3 ≤ s.leaderGrade i := hthree
      omega
  · simp
  · simp

theorem of_stopped (h : Inboxes totalPeers tests s) (hinv : Rendezvous totalPeers tests s) (hi : i < totalPeers)
    (hpc : s.peer i = .waitForQueueRemoval) (hgone : s.queues.linked (.control i) = none)
    (hs' : s.peerTest i < tests ∧ s' = { s with
        peerTest := Function.update s.peerTest i (s.peerTest i + 1) }.setPeer i .removeControl ∨
      s' = s.setPeer i .dropControl) : Inboxes totalPeers tests s' := by
  have hold := h.peers i hi
  have hpeer := hinv.peers i hi
  have hgrade : s.peerGrade i = 4 := by rw [State.peerGrade, hpc, PeerPc.grade]
  have hnot : ¬ s.DonePending i := by
    rintro ⟨hsame, -, hone⟩
    have hlinked := hpeer.control (by omega) (by omega) hsame.ge fun _ => by omega
    rw [hgone] at hlinked
    cases hlinked
  have hdone := hold.done
  rw [if_neg hnot] at hdone
  have hahead := hold.ahead
  rw [State.taken, hpc] at hahead
  rcases hs' with ⟨hmore, rfl⟩ | rfl
  · refine h.of_peer hi ?_ rfl rfl (fun j hj => State.setPeer_of_ne hj) (fun j hj => Function.update_of_ne hj ..)
      (fun _ _ => rfl) (fun _ _ _ => rfl) (.inl rfl)
    refine ⟨?_, ?_, ?_, ?_, ?_, ?_, ?_, ?_, ?_⟩
    · rw [State.taken, State.setPeer_self]
      exact Nat.zero_le _
    · simp [State.peerGrade]
    · rw [if_neg fun hpending => by have := hpending.2.1; simp [State.peerGrade] at this]
      exact hdone
    · simp
    · simp
    · simp [State.peerGrade]
    · intro _
      have hnext : ({ s with peerTest := Function.update s.peerTest i (s.peerTest i + 1) }.setPeer i
          .removeControl).peerTest i = s.peerTest i + 1 := Function.update_self ..
      rw [hnext]
      exact hmore
    · simp
    · simp
  · refine h.of_peer hi ?_ rfl rfl (fun j hj => State.setPeer_of_ne hj) (fun _ _ => rfl) (fun _ _ => rfl)
      (fun _ _ _ => rfl) (.inl rfl)
    refine ⟨?_, ?_, ?_, ?_, ?_, ?_, hold.last, ?_, ?_⟩
    · rw [State.taken, State.setPeer_self]
      exact hahead
    · simp [State.peerGrade]
    · rw [if_neg fun hpending => by have := hpending.2.1; simp [State.peerGrade] at this]
      exact hdone
    · simp
    · simp
    · simp [State.peerGrade]
    · simp
    · simp

theorem of_peer_step (h : Inboxes totalPeers tests s) (hinv : Rendezvous totalPeers tests s) (hi : i < totalPeers)
    (hstep : peerStep totalPeers tests i s = some s') : Inboxes totalPeers tests s' := by
  have hold := h.peers i hi
  unfold peerStep at hstep
  cases hpc : s.peer i <;> rw [hpc] at hstep <;>
    simp only [Option.map_eq_some_iff, Option.some.injEq, reduceCtorEq] at hstep
  case removeControl =>
    subst hstep
    refine h.of_own hi rfl (by simp [hpc]) (.inl ⟨by simp [hpc], rfl, by simp⟩) (by simp) (by simp) ?_ (by simp)
      (by simp) (by simp)
    exact fun name hname _ => Lib.NamedQueues.remove_linked_of_ne hname
  case removeData =>
    subst hstep
    refine h.of_own hi rfl (by simp [hpc]) (.inl ⟨by simp [hpc], rfl, by simp⟩) (by simp) (by simp) ?_ (by simp)
      ?_ (by simp)
    · exact fun name _ hname => Lib.NamedQueues.remove_linked_of_ne hname
    · intro _
      rw [Lib.NamedQueues.remove_linked_of_ne (by simp)]
      exact hold.free (.inl hpc)
  case makeControl =>
    obtain ⟨q, hq, rfl⟩ := hstep
    exact (h.of_makeControl hinv hi hpc (Lib.NamedQueues.create_eq_some hq).2).record _
  case makeData =>
    obtain ⟨q, hq, rfl⟩ := hstep
    obtain ⟨-, rfl⟩ := Lib.NamedQueues.create_eq_some hq
    refine h.of_own hi rfl (by simp [hpc]) (.inl ⟨by simp [hpc], by simp, by simp [hpc]⟩) (by simp) (by simp) ?_
      (by simp) (by simp) (by simp)
    exact fun name _ hname => Lib.NamedQueues.link_linked_of_ne hname
  case openBarrier =>
    obtain ⟨queue, -, rfl⟩ := hstep
    exact h.of_own hi (q := s.queues) rfl (by simp [hpc]) (.inl ⟨by simp [hpc], rfl, by simp [hpc]⟩) (by simp) rfl
      (fun _ _ _ => rfl) (by simp) (by simp) (by simp)
  case sendReady queue =>
    obtain ⟨q, hsend, rfl⟩ := hstep
    obtain rfl := Lib.NamedQueues.send_eq_some hsend
    apply record
    exact h.of_own hi rfl (by simp [hpc]) (.inl ⟨by simp [hpc], by simp, by simp [hpc]⟩) (by simp) (by simp)
      (fun _ _ _ => rfl) (by simp) (by simp) (by simp)
  case waitForAssignments =>
    split at hstep
    · rename_i q hreceive
      obtain ⟨rest, hread, rfl⟩ := Lib.NamedQueues.receive_eq_some hreceive
      obtain rfl := Option.some.inj hstep
      refine h.of_own hi rfl (by simp [hpc]) (.inr ⟨by simp [hpc], by simp [hpc], by simp [hread], ?_⟩) (by simp +contextual)
        (by simp) (fun _ _ _ => rfl) (by simp) (by simp) (by simp)
      rw [Lib.NamedQueues.store_messages_self, hread, List.tail_cons]
    · cases hstep
  case waitForStart =>
    split at hstep
    · rename_i q hreceive
      obtain ⟨rest, hread, rfl⟩ := Lib.NamedQueues.receive_eq_some hreceive
      obtain rfl := Option.some.inj hstep
      refine h.of_own hi rfl (by simp [hpc]) (.inr ⟨by simp [hpc], by simp [hpc], by simp [hread], ?_⟩) (by simp +contextual)
        (by simp) (fun _ _ _ => rfl) (by simp) (by simp) (by simp)
      rw [Lib.NamedQueues.store_messages_self, hread, List.tail_cons]
    · cases hstep
  case openDone | configure =>
    obtain ⟨queue, -, rfl⟩ := hstep
    exact h.of_own hi (q := s.queues) rfl (by simp [hpc]) (.inl ⟨by simp [hpc], rfl, by simp [hpc]⟩) (by simp) rfl
      (fun _ _ _ => rfl) (by simp) (by simp) (by simp)
  case sendDone queue =>
    obtain ⟨q, hsend, rfl⟩ := hstep
    obtain rfl := Lib.NamedQueues.send_eq_some hsend
    exact h.of_sendDone hinv hi hpc
  case waitForStop =>
    split at hstep
    · rename_i message q hreceive
      obtain ⟨rest, hread, rfl⟩ := Lib.NamedQueues.receive_eq_some hreceive
      obtain rfl := Option.some.inj hstep
      -- the third signal is the stop
      have hstop : message = .signal .stop := by
        have hcontent := hold.content (by simp [State.peerGrade, hpc]) (by simp [State.peerGrade, hpc])
        have hlt : s.taken i < s.given i := by
          refine lt_of_le_of_ne hold.ahead fun heq => ?_
          rw [heq, signals_self, hread] at hcontent
          cases hcontent
        rw [signals_take hlt (State.given_le s i), hread] at hcontent
        have htaken : s.taken i = 2 := by rw [State.taken, hpc, PeerPc.taken]
        rw [htaken] at hcontent
        exact (List.cons.inj hcontent).1
      rw [if_pos hstop]
      refine h.of_own hi rfl (by simp [hpc]) (.inr ⟨by simp [hpc], by simp [hpc], by simp [hread], ?_⟩) (by simp +contextual)
        (by simp) (fun _ _ _ => rfl) (fun _ => rfl) (by simp) (by simp)
      rw [Lib.NamedQueues.store_messages_self, hread, List.tail_cons]
    · cases hstep
  case waitForQueueRemoval =>
    split_ifs at hstep with hgone hmore
    · obtain rfl := Option.some.inj hstep
      exact (h.of_stopped hinv hi hpc hgone (.inl ⟨hmore, rfl⟩)).record _
    · obtain rfl := Option.some.inj hstep
      exact (h.of_stopped hinv hi hpc hgone (.inr rfl)).record _
  case dropControl =>
    subst hstep
    refine h.of_own hi rfl (by simp [hpc]) (.inl ⟨by simp [hpc], rfl, by simp⟩) (by simp) (by simp) ?_ (by simp)
      (by simp) (by simp)
    exact fun name hname _ => Lib.NamedQueues.remove_linked_of_ne hname
  case dropData =>
    subst hstep
    refine h.of_own hi rfl (by simp [hpc]) (.inl ⟨by simp [hpc], rfl, by simp⟩) (by simp) (by simp) ?_ (by simp)
      ?_ (by simp)
    · exact fun name _ hname => Lib.NamedQueues.remove_linked_of_ne hname
    · intro _
      rw [Lib.NamedQueues.remove_linked_of_ne (by simp)]
      exact hold.left (.inl hpc)

theorem of_retry (h : Inboxes totalPeers tests s) (hi : i < totalPeers) (hstep : peerRetry i s = some s') :
    Inboxes totalPeers tests s' := by
  unfold peerRetry at hstep
  split at hstep
  · rename_i queue hpc
    obtain rfl := Option.some.inj hstep
    exact h.of_own hi (q := s.queues) rfl (by simp [hpc]) (.inl ⟨by simp [hpc], rfl, by simp [hpc]⟩) (by simp) rfl
      (fun _ _ _ => rfl) (by simp) (by simp) (by simp)
  · rename_i queue hpc
    obtain rfl := Option.some.inj hstep
    exact h.of_own hi (q := s.queues) rfl (by simp [hpc]) (.inl ⟨by simp [hpc], rfl, by simp [hpc]⟩) (by simp) rfl
      (fun _ _ _ => rfl) (by simp) (by simp) (by simp)
  · cases hstep

/-! ## The run -/

theorem initial : Inboxes totalPeers tests {} := by
  refine ⟨fun i _ => ?_, by simp, ?_, by simp⟩
  · constructor <;> simp [State.taken, State.given, State.peerGrade, State.leaderGrade, State.DonePending,
      Lib.NamedQueues.empty]
  · simp [Lib.NamedQueues.empty]

end Inboxes

theorem inboxes (hr : (machine totalPeers tests).Reached s) : Inboxes totalPeers tests s := by
  induction hr with
  | start hs => exact hs ▸ .initial
  | @next s s' e hr _ hstep ih =>
    have hinv := rendezvous hr
    cases e with
    | leader => exact ih.of_leader_step hinv hstep
    | peer i =>
      change step totalPeers tests s (.peer i) = some s' at hstep
      rw [step] at hstep
      split_ifs at hstep with hi
      exact ih.of_peer_step hinv hi hstep
    | retry i =>
      change step totalPeers tests s (.retry i) = some s' at hstep
      rw [step] at hstep
      split_ifs at hstep with hi
      exact ih.of_retry hi hstep

end Quantas.BoostMq
