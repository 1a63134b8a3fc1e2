import Quantas.Common.Packet

/-!
# Completion and stop in the leader process

`waitForAllReady` and `waitForAllDone` over the messages that arrive before their deadlines, the tracking of
completed peers that `configureExperiment` and `cleanUp` reset, and the test loop of the leader with its
verdicts. What lies outside the process is input: the messages, whether the control messages can be sent, and
whether the output files of the peers are valid.
-/

namespace Quantas.BoostMq

structure PeerCompletionMessage where
  peerId : InterfaceId := NO_PEER_ID
  succeeded : Bool := true
  deriving DecidableEq, Repr

/-- A message on `mq_done`: a completion, or one of another size. -/
inductive DoneMessage
  | completion (completion : PeerCompletionMessage)
  | otherSize
  deriving DecidableEq, Repr

structure PeerCompletionResult where
  completedPeers : List InterfaceId := []
  failedPeers : List InterfaceId := []
  timedOut : Bool := false
  deriving DecidableEq, Repr

/-- The leader's coordinator. `stopBroadcasts` is history: how often `broadcastStop` was started. -/
structure ProcessCoordinatorMQ where
  totalPeers : Nat := 0
  gCompletedPeers : Finset InterfaceId := ∅
  stopBroadcasts : Nat := 0

namespace ProcessCoordinatorMQ

def configureExperiment (totalPeers : Nat) (c : ProcessCoordinatorMQ) : ProcessCoordinatorMQ :=
  { c with totalPeers := totalPeers, gCompletedPeers := ∅ }

def cleanUp (c : ProcessCoordinatorMQ) : ProcessCoordinatorMQ := { c with gCompletedPeers := ∅ }

/-- `stop` is the exception of the first stop that cannot be sent, if there is one. -/
def broadcastStop (stop : Option String) (c : ProcessCoordinatorMQ) :
    ProcessCoordinatorMQ × Option String :=
  ({ c with stopBroadcasts := c.stopBroadcasts + 1 }, stop)

/-- The leader's branch of `notifyPeerFinished`. -/
def notifyPeerStopped (stop : Option String) (id : InterfaceId) (c : ProcessCoordinatorMQ) :
    ProcessCoordinatorMQ × Option String :=
  if id = NO_PEER_ID then (c, none)
  else
    let c := { c with gCompletedPeers := insert id c.gCompletedPeers }
    if c.totalPeers ≤ c.gCompletedPeers.card then c.broadcastStop stop else (c, none)

end ProcessCoordinatorMQ

/-- `waitForAllDone` at the head of its loop. `received` is history: what was taken from `mq_done`. -/
structure DoneWait where
  coordinator : ProcessCoordinatorMQ
  result : PeerCompletionResult := {}
  seenPeers : Finset InterfaceId := ∅
  received : List DoneMessage := []

inductive LoopEnd
  | next
  | leave
  | threw (what : String)
  deriving DecidableEq, Repr

/-- The body of the loop of `waitForAllDone`, with the message that it received. -/
def onDoneMessage (stop : Option String) (w : DoneWait) (message : DoneMessage) : DoneWait × LoopEnd :=
  let w := { w with received := w.received ++ [message] }
  match message with
  | .otherSize => (w, .threw "Unexpected done message size at ::waitForAllDone for leader -1")
  | .completion completion =>
    let id := completion.peerId
    if id < 0 ∨ w.coordinator.totalPeers ≤ id.toNat then (w, .next)
    else if id ∈ w.seenPeers then (w, .next)
    else
      let w := { w with seenPeers := insert id w.seenPeers }
      if completion.succeeded then
        let w := { w with result := { w.result with completedPeers := w.result.completedPeers ++ [id] } }
        let (coordinator, exception) := w.coordinator.notifyPeerStopped stop id
        ({ w with coordinator := coordinator }, exception.elim .next .threw)
      else ({ w with result := { w.result with failedPeers := w.result.failedPeers ++ [id] } }, .leave)

/-- The loop of `waitForAllDone` over the messages that arrive before the deadline; with the exception that
leaves it. -/
def waitForAllDoneLoop (stop : Option String) : List DoneMessage → DoneWait → DoneWait × Option String
  | messages, w =>
    if w.result.completedPeers.length + w.result.failedPeers.length < w.coordinator.totalPeers then
      match messages with
      | [] => ({ w with result := { w.result with timedOut := true } }, none)
      | message :: rest =>
        match onDoneMessage stop w message with
        | (w, .next) => waitForAllDoneLoop stop rest w
        | (w, .leave) => (w, none)
        | (w, .threw what) => (w, some what)
    else (w, none)

def waitForAllDone (stop : Option String) (messages : List DoneMessage) (c : ProcessCoordinatorMQ) :
    DoneWait × Option String :=
  waitForAllDoneLoop stop messages { coordinator := c }

/-! ## The report writer -/

/-- The ids that a `vector<bool>` of length `totalPeers` marks. -/
def markSeen (totalPeers : Nat) (completedPeers : List InterfaceId) : List Bool :=
  completedPeers.foldl
    (fun seen (id : Int) => if 0 ≤ id ∧ id < totalPeers then seen.set id.toNat true else seen)
    (List.replicate totalPeers false)

def findMissingPeers (totalPeers : Nat) (completedPeers : List InterfaceId) : List InterfaceId :=
  ((List.range totalPeers).filter fun id => !(markSeen totalPeers completedPeers).getD id false).map
    fun id : Nat => (id : Int)

def expectedPeers (totalPeers : Nat) : List InterfaceId :=
  (List.range totalPeers).map fun id : Nat => (id : Int)

/-! ## The test loop -/

/-- A message on `mq_barrier`: an id, or a message of another size. -/
inductive ReadyMessage
  | ready (readyPeerId : InterfaceId)
  | otherSize (size : Nat)
  deriving DecidableEq, Repr

structure ReadyResult where
  readyPeerIds : List InterfaceId := []
  readyTimedOut : Bool := false
  deriving DecidableEq, Repr

/-- The ids of a `std::set`, in the order in which it is run through. -/
def ascending (ids : Finset InterfaceId) : List InterfaceId := ids.sort

theorem mem_ascending {ids : Finset InterfaceId} {id : InterfaceId} : id ∈ ascending ids ↔ id ∈ ids :=
  Finset.mem_sort _

theorem sortedLT_ascending (ids : Finset InterfaceId) : (ascending ids).SortedLT := Finset.sortedLT_sort ids

/-- `waitForAllReady` over the messages that arrive before its deadline. -/
def waitForAllReady (totalPeers : Nat) :
    List ReadyMessage → Finset InterfaceId → Except String ReadyResult
  | messages, unique =>
    if unique.card < totalPeers then
      match messages with
      | [] => .ok { readyPeerIds := ascending unique, readyTimedOut := true }
      | .otherSize size :: _ =>
        .error s!"Invalid ready message size: expected 8 bytes, received {size}"
      | .ready id :: rest =>
        if id < 0 ∨ totalPeers ≤ id.toNat then
          .error s!"Invalid ready peer ID {id}; expected 0 to {totalPeers - 1}"
        else waitForAllReady totalPeers rest (insert id unique)
    else .ok { readyPeerIds := ascending unique }

/-- What a test meets outside the leader process. `control` and `stop` are the exceptions of a control message
that cannot be sent, `outputsValid` is the result of `readPeerMetrics` for the reporting peers. -/
structure TestInput where
  readies : List ReadyMessage
  control : Option String
  completions : List DoneMessage
  stop : Option String
  outputsValid : List InterfaceId → Bool

/-- The fields of `TestReportInfo` that the verdict sets. -/
structure TestReportInfo where
  readyPeers : List InterfaceId := []
  readyTimedOut : Bool := false
  completedPeers : List InterfaceId := []
  completionTimedOut : Bool := false
  missingPeers : List InterfaceId := []
  success : Bool := false
  deriving DecidableEq, Repr

/-- One pass of the test loop: what it reported, and whether the loop goes on. `input`, `before` and `wait` are
history: the test, the coordinator at its start and what `waitForAllDone` came to. -/
structure TestRun where
  input : TestInput
  before : ProcessCoordinatorMQ
  wait : Option (DoneWait × Option String) := none
  report : Option TestReportInfo
  leaves : Bool
  after : ProcessCoordinatorMQ

def runTest (c : ProcessCoordinatorMQ) (t : TestInput) : TestRun :=
  match waitForAllReady c.totalPeers t.readies ∅ with
  -- the exception leaves the experiment
  | .error _ => { input := t, before := c, report := none, leaves := true, after := c.cleanUp }
  | .ok ready =>
    let info : TestReportInfo := { readyPeers := ready.readyPeerIds, readyTimedOut := ready.readyTimedOut }
    if ready.readyTimedOut then
      { input := t, before := c, leaves := true, after := c.cleanUp
        report := some { info with missingPeers := findMissingPeers c.totalPeers ready.readyPeerIds } }
    else if t.control.isSome then
      { input := t, before := c, report := some info, leaves := true, after := c.cleanUp }
    else
      match waitForAllDone t.stop t.completions c with
      | (w, some error) =>
        { input := t, before := c, wait := some (w, some error), report := some info, leaves := true
          after := w.coordinator.cleanUp }
      | (w, none) =>
        let result := w.result
        let missingPeers := findMissingPeers c.totalPeers result.completedPeers
        let allOutputsValid := t.outputsValid (result.completedPeers ++ result.failedPeers)
        { input := t, before := c, wait := some (w, none)
          report := some { info with
            completedPeers := result.completedPeers
            completionTimedOut := result.timedOut
            missingPeers := missingPeers
            success := !result.timedOut && result.failedPeers.isEmpty && missingPeers.isEmpty &&
              allOutputsValid }
          leaves := result.timedOut || !result.failedPeers.isEmpty || !allOutputsValid
          after := w.coordinator.cleanUp }

def runTests : ProcessCoordinatorMQ → List TestInput → List TestRun
  | _, [] => []
  | c, t :: ts => runTest c t :: if (runTest c t).leaves then [] else runTests (runTest c t).after ts

def runExperiment (totalPeers : Nat) (c : ProcessCoordinatorMQ) (tests : List TestInput) : List TestRun :=
  runTests (c.configureExperiment totalPeers) tests

end Quantas.BoostMq
