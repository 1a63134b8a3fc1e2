import Quantas.Lib.NamedQueues
import Quantas.Lib.Transition

/-!
# The rendezvous of the leader and the peers over named queues

The test loops of the leader and of the peers of one experiment, one queue operation a step: `createBarrier`,
`waitForAllReady`, `sendAssignments`, `broadcastStart`, `waitForAllDone` with `broadcastStop`, and `cleanUp`
at the leader; `createInbox`, `sendReady`, `waitForAssignments`, `configure` of the interface, `waitForStart`,
`notifyPeerStopped` and `waitForStop` at a peer. The steps are those of processes that neither fail nor time out; a
peer whose data queue is gone fails in `configure`. A queue is stamped with the number of the test in which its
owner created it, and tests are numbered from 1, as `testNumber` is.
-/

namespace Quantas.BoostMq

inductive QueueName
  | barrier
  | done
  | control (id : Nat)
  | data (id : Nat)
  deriving DecidableEq, Repr

/-- What the leader sends to the control inboxes: `PeerAssignment`, `kStartTrigger`, `kStopTrigger`. -/
inductive Signal
  | assignment
  | start
  | stop
  deriving DecidableEq, Repr

/-- `test` is no part of the ready message: it records for which test the peer sent it. -/
inductive Message
  | ready (id test : Nat)
  | done (id : Nat)
  | signal (signal : Signal)
  deriving DecidableEq, Repr

/-- What the leader does next. `queue` is the queue that an open handle stands for. -/
inductive LeaderPc
  | removeBarrier
  | removeDone
  | makeBarrier
  | makeDone
  | waitForAllReady (uniqueReadyPeers : Finset Nat)
  | openInbox (signal : Signal) (i : Nat)
  | sendSignal (signal : Signal) (i queue : Nat)
  | openDone
  | waitForAllDone (queue : Nat) (completedPeers : Finset Nat)
  | dropBarrier
  | dropDone
  | dropControl (i : Nat)
  | dropData (i : Nat)
  | finished
  deriving DecidableEq

inductive PeerPc
  | removeControl
  | removeData
  | makeControl
  | makeData
  | openBarrier
  | sendReady (queue : Nat)
  | waitForAssignments
  | configure
  | waitForStart
  | openDone
  | sendDone (queue : Nat)
  | waitForStop
  | waitForQueueRemoval
  | dropControl
  | dropData
  | finished
  deriving DecidableEq, Repr

/-- What the history records. `readyCounted i test countedIn` is the ready of peer `i` sent for test `test` and
counted by `waitForAllReady` of test `countedIn`. -/
inductive Entry
  | stopped (i test : Nat)
  | inboxCreated (i test : Nat)
  | readySent (i test : Nat)
  | readyCounted (i test countedIn : Nat)
  deriving DecidableEq, Repr

abbrev Queues := Lib.NamedQueues QueueName Nat Message

structure State where
  queues : Queues := .empty
  leader : LeaderPc := .removeBarrier
  leaderTest : Nat := 1
  peer : Nat → PeerPc := fun _ => .removeControl
  peerTest : Nat → Nat := fun _ => 1
  history : List Entry := []

namespace State
variable (s : State)

def setPeer (i : Nat) (pc : PeerPc) : State := { s with peer := Function.update s.peer i pc }

def record (entry : Entry) : State := { s with history := s.history ++ [entry] }

variable {s} {i j : Nat} {pc : PeerPc}

@[simp] theorem setPeer_self : (s.setPeer i pc).peer i = pc := by
  simp [setPeer]

@[simp] theorem setPeer_queues : (s.setPeer i pc).queues = s.queues := rfl

@[simp] theorem record_queues {entry : Entry} : (s.record entry).queues = s.queues := rfl

@[simp] theorem setPeer_of_ne (h : j ≠ i) : (s.setPeer i pc).peer j = s.peer j := by
  simp [setPeer, h]

end State

variable (totalPeers tests : Nat)

/-- The capacity that `parseBoostMqConfig` gives the control queues. -/
abbrev controlQueueCapacity : Nat := totalPeers

/-- The step after the last inbox of `sendAssignments`, `broadcastStart` and `broadcastStop`. -/
def afterSignal : Signal → LeaderPc
  | .assignment => .openInbox .start 0
  | .start => .openDone
  | .stop => .dropBarrier

/-- The next operation of the leader. It blocks on an empty or full queue; a name that it cannot open or create
fails the run. -/
def leaderStep (s : State) : Option State :=
  match s.leader with
  -- createBarrier
  | .removeBarrier => some { s with queues := s.queues.remove .barrier, leader := .removeDone }
  | .removeDone => some { s with queues := s.queues.remove .done, leader := .makeBarrier }
  | .makeBarrier =>
    (s.queues.create .barrier s.leaderTest).map fun q => { s with queues := q, leader := .makeDone }
  | .makeDone =>
    (s.queues.create .done s.leaderTest).map fun q =>
      { s with queues := q, leader := .waitForAllReady ∅ }
  -- waitForAllReady receives through the handle `_myBarrier`
  | .waitForAllReady ready =>
    if ready.card < totalPeers then
      match s.queues.receive .barrier s.leaderTest with
      | some (.ready i test, q) =>
        if i < totalPeers then
          some ({ s with queues := q, leader := .waitForAllReady (insert i ready) }.record
            (.readyCounted i test s.leaderTest))
        else none
      | _ => none
    else some { s with leader := .openInbox .assignment 0 }
  | .openInbox signal i =>
    if i < totalPeers then
      (s.queues.linked (.control i)).map fun queue => { s with leader := .sendSignal signal i queue }
    else some { s with leader := afterSignal signal }
  | .sendSignal signal i queue =>
    (s.queues.send (controlQueueCapacity totalPeers) (.control i) queue (.signal signal)).map fun q =>
      { s with queues := q, leader := .openInbox signal (i + 1) }
  -- waitForAllDone; the last completion starts broadcastStop
  | .openDone =>
    (s.queues.linked .done).map fun queue => { s with leader := .waitForAllDone queue ∅ }
  | .waitForAllDone queue completed =>
    if completed.card < totalPeers then
      match s.queues.receive .done queue with
      | some (.done i, q) =>
        if i < totalPeers then
          some { s with queues := q, leader := .waitForAllDone queue (insert i completed) }
        else none
      | _ => none
    else some { s with leader := .openInbox .stop 0 }
  -- cleanUp
  | .dropBarrier => some { s with queues := s.queues.remove .barrier, leader := .dropDone }
  | .dropDone => some { s with queues := s.queues.remove .done, leader := .dropControl 0 }
  | .dropControl i =>
    if i < totalPeers then
      some { s with queues := s.queues.remove (.control i), leader := .dropData i }
    else if s.leaderTest < tests then
      some { s with leaderTest := s.leaderTest + 1, leader := .removeBarrier }
    else some { s with leader := .finished }
  | .dropData i => some { s with queues := s.queues.remove (.data i), leader := .dropControl (i + 1) }
  | .finished => none

section waits
variable {totalPeers tests} {s s' : State}

theorem leaderStep_waitForAllReady (hstep : leaderStep totalPeers tests s = some s') (ready : Finset Nat)
    (hpc : s.leader = .waitForAllReady ready) :
    (ready.card < totalPeers ∧ ∃ k test rest, k < totalPeers ∧
      s.queues.messages .barrier s.leaderTest = .ready k test :: rest ∧
      s' = { s with
        queues := s.queues.store .barrier s.leaderTest rest
        leader := .waitForAllReady (insert k ready) }.record (.readyCounted k test s.leaderTest)) ∨
    (¬ ready.card < totalPeers ∧ s' = { s with leader := .openInbox .assignment 0 }) := by
  unfold leaderStep at hstep
  rw [hpc] at hstep
  dsimp only at hstep
  split_ifs at hstep with hfew
  · split at hstep
    · rename_i k test q hreceive
      split_ifs at hstep with hk
      obtain ⟨rest, hcontent, rfl⟩ := Lib.NamedQueues.receive_eq_some hreceive
      exact Or.inl ⟨hfew, k, test, rest, hk, hcontent, (Option.some.inj hstep).symm⟩
    · cases hstep
  · exact Or.inr ⟨hfew, (Option.some.inj hstep).symm⟩

theorem leaderStep_waitForAllDone (hstep : leaderStep totalPeers tests s = some s') (queue : Nat)
    (completed : Finset Nat) (hpc : s.leader = .waitForAllDone queue completed) :
    (completed.card < totalPeers ∧ ∃ k rest, k < totalPeers ∧ s.queues.messages .done queue = .done k :: rest ∧
      s' = { s with
        queues := s.queues.store .done queue rest
        leader := .waitForAllDone queue (insert k completed) }) ∨
    (¬ completed.card < totalPeers ∧ s' = { s with leader := .openInbox .stop 0 }) := by
  unfold leaderStep at hstep
  rw [hpc] at hstep
  dsimp only at hstep
  split_ifs at hstep with hfew
  · split at hstep
    · rename_i k q hreceive
      split_ifs at hstep with hk
      obtain ⟨rest, hcontent, rfl⟩ := Lib.NamedQueues.receive_eq_some hreceive
      exact Or.inl ⟨hfew, k, rest, hk, hcontent, (Option.some.inj hstep).symm⟩
    · cases hstep
  · exact Or.inr ⟨hfew, (Option.some.inj hstep).symm⟩

end waits

/-- The next operation of peer `i`, which receives through the handle `_myControlInbox` on the queue it
created in this test. -/
def peerStep (i : Nat) (s : State) : Option State :=
  match s.peer i with
  -- createInbox
  | .removeControl => some ({ s with queues := s.queues.remove (.control i) }.setPeer i .removeData)
  | .removeData => some ({ s with queues := s.queues.remove (.data i) }.setPeer i .makeControl)
  | .makeControl =>
    (s.queues.create (.control i) (s.peerTest i)).map fun q =>
      ({ s with queues := q }.setPeer i .makeData).record (.inboxCreated i (s.peerTest i))
  | .makeData =>
    (s.queues.create (.data i) (s.peerTest i)).map fun q =>
      { s with queues := q }.setPeer i .openBarrier
  -- sendReady
  | .openBarrier => (s.queues.linked .barrier).map fun queue => s.setPeer i (.sendReady queue)
  | .sendReady queue =>
    (s.queues.send (controlQueueCapacity totalPeers) .barrier queue (.ready i (s.peerTest i))).map fun q =>
      ({ s with queues := q }.setPeer i .waitForAssignments).record (.readySent i (s.peerTest i))
  | .waitForAssignments =>
    match s.queues.receive (.control i) (s.peerTest i) with
    | some (.signal .assignment, q) => some ({ s with queues := q }.setPeer i .configure)
    | _ => none
  -- NetworkInterfaceConcreteMQ::configure opens the data queue
  | .configure => (s.queues.linked (.data i)).map fun _ => s.setPeer i .waitForStart
  | .waitForStart =>
    match s.queues.receive (.control i) (s.peerTest i) with
    | some (.signal .start, q) => some ({ s with queues := q }.setPeer i .openDone)
    | _ => none
  -- runRounds is over: notifyPeerStopped
  | .openDone => (s.queues.linked .done).map fun queue => s.setPeer i (.sendDone queue)
  | .sendDone queue =>
    (s.queues.send (controlQueueCapacity totalPeers) .done queue (.done i)).map fun q =>
      { s with queues := q }.setPeer i .waitForStop
  -- waitForStop ignores every message but stop
  | .waitForStop =>
    match s.queues.receive (.control i) (s.peerTest i) with
    | some (message, q) =>
      some ({ s with queues := q }.setPeer i
        (if message = Message.signal .stop then .waitForQueueRemoval else .waitForStop))
    | none => none
  | .waitForQueueRemoval =>
    if s.queues.linked (.control i) = none then
      if s.peerTest i < tests then
        some (({ s with peerTest := Function.update s.peerTest i (s.peerTest i + 1) }.setPeer i
          .removeControl).record (.stopped i (s.peerTest i)))
      else some ((s.setPeer i .dropControl).record (.stopped i (s.peerTest i)))
    else none
  -- cleanUp after the last test
  | .dropControl => some ({ s with queues := s.queues.remove (.control i) }.setPeer i .dropData)
  | .dropData => some ({ s with queues := s.queues.remove (.data i) }.setPeer i .finished)
  | .finished => none

/-- A short timed send on a full queue comes back without sending, and the queue is opened anew. -/
def peerRetry (i : Nat) (s : State) : Option State :=
  match s.peer i with
  | .sendReady _ => some (s.setPeer i .openBarrier)
  | .sendDone _ => some (s.setPeer i .openDone)
  | _ => none

inductive Event
  | leader
  | peer (i : Nat)
  | retry (i : Nat)
  deriving DecidableEq, Repr

def step (s : State) : Event → Option State
  | .leader => leaderStep totalPeers tests s
  | .peer i => if i < totalPeers then peerStep totalPeers tests i s else none
  | .retry i => if i < totalPeers then peerRetry i s else none

/-- One experiment of `totalPeers` peers and `tests` tests, in any interleaving of the processes. No queue is
there at the start: `mq_cleanup` runs before the launcher. -/
def machine : Lib.Machine State Event where
  initial := fun s => s = {}
  step := step totalPeers tests

end Quantas.BoostMq
