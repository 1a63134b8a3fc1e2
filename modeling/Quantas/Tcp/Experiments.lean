import Quantas.Tcp.Leader

/-!
# Processes running a list of experiments

A leader (process 0) and its followers run the same experiments in order, each at its own pace. A process
is the phase of its main loop and its coordinator; the messages that it has sent to an address and that
are not yet received form a queue. `registered_delivered` is about the runs in which no registration
reaches the leader before the leader has come to the experiment that it is for: there every registration
delivered is recorded. Without this condition the leader drops such a registration as stale, and the
follower does not send it again (`earlyRegistration_lost`).
-/

namespace Quantas.Tcp

/-- The experiments, and the addresses of the leader and its followers. -/
structure Setup where
  experiments : List Experiment
  followers : Nat
  address : Nat → ProcessKey
  distinct : ∀ i ≤ followers, ∀ j ≤ followers, address i = address j → i = j

inductive Phase
  | configuring | awaitingAssignments | awaitingStart | running | exited
  deriving DecidableEq

/-- A process; `next` is the experiment that it configures next. -/
structure Process where
  coordinator : Coordinator
  phase : Phase := .configuring
  next : Nat := 0

structure System where
  processes : Nat → Process
  /-- What a process has sent to an address and is not yet received. -/
  queue : Nat → ProcessKey → List Message
  /-- What the leader has received. -/
  delivered : List Message

inductive SystemEvent
  | configure (i : Nat) (shuffles : Shuffles)
  | takeAssignments (i : Nat)
  | acknowledgeStart (i : Nat)
  | peerStopped (i : Nat) (id : InterfaceId)
  | stopTimer
  | finish (i : Nat)
  | exit (i : Nat)
  | deliver (i j : Nat) (shuffles : Shuffles)

namespace System
variable (sys : System)

/-- Process `i` has become `p`; what its coordinator has sent is queued. -/
def after (i : Nat) (p : Process) : System :=
  { sys with
    processes := Function.update sys.processes i
      { p with coordinator := { p.coordinator with outbox := [] } }
    queue := fun i' key => sys.queue i' key ++
      if i' = i then (p.coordinator.outbox.filter fun pkt => pkt.1 = key).map Prod.snd else [] }

end System

namespace Setup
variable (setup : Setup)

/-- The coordinator of process `i` before its first experiment. -/
def coordinator (i : Nat) : Coordinator where
  experiment := { topology := { initialPeers := none, type := .other "" } }
  isLeader := i = 0
  myIp := (setup.address i).1
  myPort := (setup.address i).2
  leaderIp := (setup.address 0).1
  leaderPort := (setup.address 0).2

def start : System where
  processes i := { coordinator := setup.coordinator i }
  queue := fun _ _ => []
  delivered := []

/-- The main loop, the stop timer of the leader, and the connections. A process without peers goes on to the
next experiment at once. Its listener runs from its first experiment until it exits. -/
def step (sys : System) : SystemEvent → Option System
  | .configure i shuffles =>
    let p := sys.processes i
    if i ≤ setup.followers ∧ p.phase = .configuring then
      (setup.experiments[p.next]?).map fun experiment =>
        sys.after i
          { coordinator := p.coordinator.configureProcess shuffles experiment p.next
            phase := .awaitingAssignments
            next := p.next + 1 }
    else none
  | .takeAssignments i =>
    let p := sys.processes i
    if i ≤ setup.followers ∧ p.phase = .awaitingAssignments ∧ p.coordinator.assignmentsReady = true then
      some <| sys.after i <|
        if p.coordinator.localAssignments = [] then
          { p with coordinator := p.coordinator.cleanupExperiment, phase := .configuring }
        else { p with coordinator := p.coordinator.markReady, phase := .awaitingStart }
    else none
  | .acknowledgeStart i =>
    let p := sys.processes i
    if i ≤ setup.followers ∧ p.phase = .awaitingStart ∧ p.coordinator.startSignal = true then
      some (sys.after i { p with phase := .running })
    else none
  | .peerStopped i id =>
    let p := sys.processes i
    if i ≤ setup.followers ∧ p.phase = .running ∧ ∃ a ∈ p.coordinator.localAssignments, a.id = id then
      some (sys.after i { p with coordinator := p.coordinator.notifyPeerStopped id })
    else none
  | .stopTimer =>
    let p := sys.processes 0
    if (p.phase = .awaitingStart ∨ p.phase = .running) ∧ 0 < p.coordinator.startBroadcasts ∧
        p.coordinator.experiment.stopAfterTime = true then
      some (sys.after 0 { p with coordinator := p.coordinator.broadcastStop })
    else none
  | .finish i =>
    let p := sys.processes i
    if i ≤ setup.followers ∧ p.phase = .running ∧ p.coordinator.stopSignal = true then
      some (sys.after i { p with coordinator := p.coordinator.cleanupExperiment, phase := .configuring })
    else none
  | .exit i =>
    let p := sys.processes i
    if i ≤ setup.followers ∧ p.phase = .configuring ∧ setup.experiments.length ≤ p.next then
      some (sys.after i { p with phase := .exited })
    else none
  | .deliver i j shuffles =>
    let p := sys.processes j
    match sys.queue i (setup.address j) with
    | [] => none
    | msg :: rest =>
      if j ≤ setup.followers ∧ 0 < p.next ∧ p.phase ≠ .exited then
        let received : System :=
          { sys with
            queue := Function.update sys.queue i (Function.update (sys.queue i) (setup.address j) rest)
            delivered := if j = 0 then sys.delivered ++ [msg] else sys.delivered }
        some (received.after j { p with coordinator := p.coordinator.processMessage shuffles msg })
      else none

def machine : Lib.Machine System SystemEvent where
  initial sys := sys = setup.start
  step := setup.step

/-- A message is not a registration for a later experiment than `current`. -/
def NotEarly (current : Nat) : Message → Prop
  | .register e _ _ _ => e ≤ current
  | _ => True

instance (current : Nat) : ∀ msg, Decidable (NotEarly current msg)
  | .register e _ _ _ => inferInstanceAs (Decidable (e ≤ current))
  | .assignment .. | .ready .. | .start _ | .stop _ | .peerDone .. => inferInstanceAs (Decidable True)

/-- The condition on a run: a registration that reaches the leader is for no later experiment than the
leader's. -/
def InTime (sys : System) : SystemEvent → Prop
  | .deliver i 0 _ => ∀ msg ∈ (sys.queue i (setup.address 0)).head?,
    NotEarly (sys.processes 0).coordinator.experimentIndex msg
  | _ => True

instance (sys : System) : ∀ e, Decidable (setup.InTime sys e)
  | .deliver i 0 _ => inferInstanceAs (Decidable (∀ msg ∈ (sys.queue i (setup.address 0)).head?, _))
  | .deliver _ (_ + 1) _ | .configure .. | .takeAssignments _ | .acknowledgeStart _ | .peerStopped .. | .stopTimer
  | .finish _ | .exit _ => inferInstanceAs (Decidable True)

end Setup

/-! ## What the leader's steps keep -/

namespace Coordinator
variable {c c' : Coordinator}

/-- The tables stay sound, for the same experiment, and lose no process. -/
structure Keeps (c c' : Coordinator) : Prop where
  registered : Registered c'
  experimentIndex : c'.experimentIndex = c.experimentIndex
  listed : ∀ key ∈ c.registrationOrder, key ∈ c'.registrationOrder

theorem Keeps.refl (h : Registered c) : Keeps c c := ⟨h, rfl, fun _ => id⟩

theorem Keeps.frame {c'' : Coordinator} (h : Keeps c c') (hframe : Frame c' c'') : Keeps c c'' where
  registered := h.registered.frame hframe
  experimentIndex := hframe.experimentIndex.trans h.experimentIndex
  listed := by
    rw [hframe.registrationOrder]
    exact h.listed

theorem keeps_broadcastStartIfReady (h : Keeps c c') : Keeps c c'.broadcastStartIfReady := by
  refine ⟨h.registered.broadcastStartIfReady, ?_, ?_⟩
  · unfold broadcastStartIfReady
    split_ifs
    · exact (frame_broadcast _ frame_handleStart _).experimentIndex.trans h.experimentIndex
    · exact h.experimentIndex
  · unfold broadcastStartIfReady
    split_ifs
    · rw [(frame_broadcast _ frame_handleStart _).registrationOrder]
      exact h.listed
    · exact h.listed

theorem keeps_setReady (h : Registered c) (key : ProcessKey) : Keeps c (c.setReady key) :=
  ⟨h.setReady key, rfl, fun _ => id⟩

theorem keeps_markReady (h : Registered c) : Keeps c c.markReady := by
  rw [markReady, if_pos h.leader]
  exact keeps_broadcastStartIfReady (keeps_setReady h _)

theorem keeps_broadcastStop (h : Registered c) : Keeps c c.broadcastStop := by
  unfold broadcastStop
  split_ifs
  · exact .refl h
  · have hstop : ∀ c : Coordinator, Frame c c.handleStop := fun c => ⟨⟨rfl, rfl, rfl, rfl, rfl, rfl⟩, rfl, rfl, rfl⟩
    have hstopped : Frame c { c with stopSignal := true } := ⟨⟨rfl, rfl, rfl, rfl, rfl, rfl⟩, rfl, rfl, rfl⟩
    exact ((Keeps.refl h).frame hstopped).frame (frame_broadcast _ hstop _)

theorem keeps_handlePeerDone (h : Registered c) (peerId : InterfaceId) : Keeps c (c.handlePeerDone peerId) := by
  unfold handlePeerDone
  dsimp only
  have hdone : Frame c { c with completedPeers := insert peerId c.completedPeers } :=
    ⟨⟨rfl, rfl, rfl, rfl, rfl, rfl⟩, rfl, rfl, rfl⟩
  split_ifs
  · exact .refl h
  · have hstop := keeps_broadcastStop (h.frame hdone)
    exact ⟨hstop.registered, hstop.experimentIndex, hstop.listed⟩
  · exact (Keeps.refl h).frame hdone

theorem keeps_notifyPeerStopped (h : Registered c) (id : InterfaceId) : Keeps c (c.notifyPeerStopped id) := by
  unfold notifyPeerStopped
  rw [if_pos h.leader]
  split_ifs
  · exact .refl h
  · exact keeps_handlePeerDone h id

theorem keeps_cleanupExperiment (h : Registered c) : Keeps c c.cleanupExperiment :=
  (Keeps.refl h).frame ⟨⟨rfl, rfl, rfl, rfl, rfl, rfl⟩, rfl, rfl, rfl⟩

theorem keeps_handleRegister (h : Registered c) (shuffles : Shuffles) (ip : String) (port requestedPeers : Int) :
    Keeps c (c.handleRegister shuffles ip port requestedPeers) ∧
      processKey ip port ∈ (c.handleRegister shuffles ip port requestedPeers).registrationOrder := by
  have horder : (c.handleRegister shuffles ip port requestedPeers).registrationOrder =
      (c.enroll ip port requestedPeers).registrationOrder := by
    rw [handleRegister_eq]
    split_ifs
    · exact (frame_sendAssignmentToProcess _ _ _ _).registrationOrder
    · by_cases hassigns : (c.enroll ip port requestedPeers).Assigns
      · exact (frame_distribute hassigns shuffles).registrationOrder
      · rw [distributeAssignmentsIfReady, if_neg hassigns]
  have hmem := mem_enroll_order h ip port requestedPeers
  refine ⟨⟨h.handleRegister shuffles ip port requestedPeers,
    (setting_handleRegister c shuffles ip port requestedPeers).experimentIndex, fun key hkey => ?_⟩, ?_⟩
  · rw [horder, hmem]
    exact .inl hkey
  · rw [horder, hmem]
    exact .inr rfl

theorem keeps_processMessage (h : Registered c) (shuffles : Shuffles) (msg : Message) :
    Keeps c (c.processMessage shuffles msg) := by
  unfold processMessage
  by_cases hstale : msg.experimentIndex ≠ c.experimentIndex
  · rw [if_pos hstale]
    exact .refl h
  · rw [if_neg hstale]
    have hflag : ∀ c' : Coordinator, Frame c c' → Keeps c c' := fun c' hframe => (Keeps.refl h).frame hframe
    cases msg with
    | register e ip port requestedPeers =>
      dsimp only
      rw [if_pos h.leader]
      exact (keeps_handleRegister h shuffles ip port requestedPeers).1
    | assignment e peers peerRanges =>
      dsimp only
      rw [if_pos h.leader]
      exact .refl h
    | ready e ip port =>
      dsimp only
      rw [if_pos h.leader, handleReady]
      split_ifs
      · exact .refl h
      · exact keeps_broadcastStartIfReady (keeps_setReady h _)
    | start e => exact hflag _ c.frame_handleStart
    | stop e => exact hflag _ ⟨⟨rfl, rfl, rfl, rfl, rfl, rfl⟩, rfl, rfl, rfl⟩
    | peerDone e peerId =>
      dsimp only
      rw [if_pos h.leader]
      exact keeps_handlePeerDone h peerId

end Coordinator

/-! ## Registrations over a run -/

namespace System
variable {setup : Setup} {sys : System}

/-- The leader has recorded every registration delivered for the experiment that it is at. -/
def Recorded (sys : System) : Prop :=
  ∀ e ip port requestedPeers, .register e ip port requestedPeers ∈ sys.delivered →
    0 < (sys.processes 0).next → e = (sys.processes 0).coordinator.experimentIndex →
      processKey ip port ∈ (sys.processes 0).coordinator.registrationOrder ∧
        ∃ record, (sys.processes 0).coordinator.processes (processKey ip port) = some record ∧
          record.ip = ip ∧ record.port = port

/-- What holds of the leader `p` that has received `delivered`. -/
structure LeaderInv (p : Process) (delivered : List Message) : Prop where
  leader : p.coordinator.isLeader = true
  unconfigured : p.next = 0 → delivered = [] ∧ (p.phase = .configuring ∨ p.phase = .exited)
  configured : 0 < p.next → p.coordinator.Registered ∧ p.coordinator.experimentIndex + 1 = p.next
  past : ∀ e ip port requestedPeers, .register e ip port requestedPeers ∈ delivered → e < p.next
  listed : ∀ e ip port requestedPeers, .register e ip port requestedPeers ∈ delivered → e + 1 = p.next →
    processKey ip port ∈ p.coordinator.registrationOrder

theorem LeaderInv.recorded (h : LeaderInv (sys.processes 0) sys.delivered) : sys.Recorded := by
  intro e ip port requestedPeers hmem hconfigured he
  obtain ⟨hreg, hindex⟩ := h.configured hconfigured
  have hlisted := h.listed e ip port requestedPeers hmem (by omega)
  obtain ⟨record, hrecord⟩ := Option.isSome_iff_exists.mp ((hreg.listed _).mp hlisted)
  have hkey := Prod.mk.inj (hreg.keyed _ record hrecord)
  exact ⟨hlisted, record, hrecord, hkey.1.symm, hkey.2.symm⟩

theorem LeaderInv.keeps {p : Process} {delivered : List Message} (h : LeaderInv p delivered) {c : Coordinator}
    (hconfigured : 0 < p.next) (hkeeps : p.coordinator.Keeps c) (phase : Phase) :
    LeaderInv { coordinator := { c with outbox := [] }, phase := phase, next := p.next } delivered where
  leader := hkeeps.registered.leader
  unconfigured := fun hzero => absurd hzero hconfigured.ne'
  configured := by
    intro _
    have hreg := hkeeps.registered
    exact ⟨⟨hreg.leader, hreg.own, hreg.nodup, hreg.listed, hreg.keyed, hreg.inRange⟩,
      by rw [← (h.configured hconfigured).2, ← hkeeps.experimentIndex]⟩
  past := h.past
  listed := fun e ip port requestedPeers hmem he => hkeeps.listed _ (h.listed e ip port requestedPeers hmem he)

theorem LeaderInv.deliver {p : Process} {delivered : List Message} (h : LeaderInv p delivered)
    (hconfigured : 0 < p.next) {msg : Message} (shuffles : Shuffles)
    (hintime : ∀ e ip port requestedPeers, msg = .register e ip port requestedPeers → e ≤ p.coordinator.experimentIndex) :
    LeaderInv { p with coordinator := { p.coordinator.processMessage shuffles msg with outbox := [] } }
      (delivered ++ [msg]) := by
  obtain ⟨hreg, hindex⟩ := h.configured hconfigured
  have hstep := h.keeps hconfigured (Coordinator.keeps_processMessage hreg shuffles msg) p.phase
  refine ⟨hstep.leader, fun hzero => absurd hzero hconfigured.ne', hstep.configured, ?_, ?_⟩
  · intro e ip port requestedPeers hmem
    rcases List.mem_append.mp hmem with hmem | hmem
    · exact h.past e ip port requestedPeers hmem
    · have hle := hintime e ip port requestedPeers (List.mem_singleton.mp hmem).symm
      show e < p.next
      omega
  · intro e ip port requestedPeers hmem he
    rcases List.mem_append.mp hmem with hmem | hmem
    · exact hstep.listed e ip port requestedPeers hmem he
    · obtain rfl := List.mem_singleton.mp hmem
      have he : e + 1 = p.next := he
      have hcurrent : e = p.coordinator.experimentIndex := by omega
      have hregister : p.coordinator.processMessage shuffles (.register e ip port requestedPeers) =
          p.coordinator.handleRegister shuffles ip port requestedPeers := by
        simp [Coordinator.processMessage, Message.experimentIndex, hcurrent, hreg.leader]
      show processKey ip port ∈ (p.coordinator.processMessage shuffles _).registrationOrder
      rw [hregister]
      exact (Coordinator.keeps_handleRegister hreg shuffles ip port requestedPeers).2

theorem LeaderInv.configure {p : Process} {delivered : List Message} (h : LeaderInv p delivered) (shuffles : Shuffles)
    (experiment : Experiment) (phase : Phase) :
    LeaderInv
      { coordinator := { p.coordinator.configureProcess shuffles experiment p.next with outbox := [] }
        phase := phase
        next := p.next + 1 } delivered := by
  have hreg := Coordinator.Registered.configureProcess p.coordinator h.leader shuffles experiment p.next
  have hindex : (p.coordinator.configureProcess shuffles experiment p.next).experimentIndex = p.next := by
    unfold Coordinator.configureProcess
    dsimp only
    rw [if_pos (show (p.coordinator.reset experiment p.next).isLeader = true from h.leader)]
    exact (Coordinator.setting_distribute _ shuffles).experimentIndex
  refine ⟨hreg.leader, fun hzero => absurd hzero (Nat.succ_ne_zero _), fun _ => ?_, ?_, ?_⟩
  · exact ⟨⟨hreg.leader, hreg.own, hreg.nodup, hreg.listed, hreg.keyed, hreg.inRange⟩, by rw [hindex]⟩
  · intro e ip port requestedPeers hmem
    exact Nat.lt_succ_of_lt (h.past e ip port requestedPeers hmem)
  · intro e ip port requestedPeers hmem he
    have hlt := h.past e ip port requestedPeers hmem
    have he : e + 1 = p.next + 1 := he
    omega

theorem after_leader {i : Nat} (hi : i ≠ 0) (p : Process) : (sys.after i p).processes 0 = sys.processes 0 :=
  Function.update_of_ne hi.symm _ _

theorem after_self (i : Nat) (p : Process) :
    (sys.after i p).processes i = { p with coordinator := { p.coordinator with outbox := [] } } :=
  Function.update_self _ _ _

theorem LeaderInv.runs (h : LeaderInv (sys.processes 0) sys.delivered) {i : Nat} {c : Coordinator} {phase : Phase}
    (hphase : (sys.processes i).phase ≠ .configuring ∧ (sys.processes i).phase ≠ .exited)
    (hkeeps : (sys.processes i).coordinator.Registered → (sys.processes i).coordinator.Keeps c) :
    LeaderInv ((sys.after i { sys.processes i with coordinator := c, phase := phase }).processes 0) sys.delivered := by
  by_cases hi : i = 0
  · subst hi
    have hconfigured : 0 < (sys.processes 0).next := by
      by_contra hzero
      exact (h.unconfigured (by omega)).2.elim hphase.1 hphase.2
    rw [after_self]
    exact h.keeps hconfigured (hkeeps (h.configured hconfigured).1) phase
  · rw [after_leader hi]
    exact h

theorem leaderInv_step {sys' : System} (h : LeaderInv (sys.processes 0) sys.delivered) {e : SystemEvent}
    (hintime : setup.InTime sys e) (hstep : setup.step sys e = some sys') :
    LeaderInv (sys'.processes 0) sys'.delivered := by
  cases e with
  | configure i shuffles =>
    simp only [Setup.step] at hstep
    split_ifs at hstep with hphase
    obtain ⟨experiment, -, rfl⟩ := Option.map_eq_some_iff.mp hstep
    by_cases hi : i = 0
    · subst hi
      rw [after_self]
      exact h.configure shuffles experiment _
    · rw [after_leader hi]
      exact h
  | takeAssignments i =>
    simp only [Setup.step] at hstep
    split_ifs at hstep with hphase hnone
    · obtain rfl := Option.some.inj hstep
      exact h.runs (by simp [hphase.2.1]) Coordinator.keeps_cleanupExperiment
    · obtain rfl := Option.some.inj hstep
      exact h.runs (by simp [hphase.2.1]) Coordinator.keeps_markReady
  | acknowledgeStart i =>
    simp only [Setup.step] at hstep
    split_ifs at hstep with hphase
    obtain rfl := Option.some.inj hstep
    exact h.runs (by simp [hphase.2.1]) Coordinator.Keeps.refl
  | peerStopped i id =>
    simp only [Setup.step] at hstep
    split_ifs at hstep with hphase
    obtain rfl := Option.some.inj hstep
    exact h.runs (by simp [hphase.2.1]) fun hreg => Coordinator.keeps_notifyPeerStopped hreg id
  | stopTimer =>
    simp only [Setup.step] at hstep
    split_ifs at hstep with hphase
    obtain rfl := Option.some.inj hstep
    exact h.runs (by rcases hphase.1 with hphase | hphase <;> simp [hphase]) Coordinator.keeps_broadcastStop
  | finish i =>
    simp only [Setup.step] at hstep
    split_ifs at hstep with hphase
    obtain rfl := Option.some.inj hstep
    exact h.runs (by simp [hphase.2.1]) Coordinator.keeps_cleanupExperiment
  | exit i =>
    simp only [Setup.step] at hstep
    split_ifs at hstep with hphase
    obtain rfl := Option.some.inj hstep
    by_cases hi : i = 0
    · subst hi
      rw [after_self]
      refine ⟨h.leader, fun hzero => ⟨(h.unconfigured hzero).1, .inr rfl⟩, fun hconfigured => ?_, h.past, h.listed⟩
      obtain ⟨hreg, hindex⟩ := h.configured hconfigured
      exact ⟨⟨hreg.leader, hreg.own, hreg.nodup, hreg.listed, hreg.keyed, hreg.inRange⟩, hindex⟩
    · rw [after_leader hi]
      exact h
  | deliver i j shuffles =>
    simp only [Setup.step] at hstep
    cases hqueue : sys.queue i (setup.address j) with
    | nil =>
      rw [hqueue] at hstep
      cases hstep
    | cons msg rest =>
      rw [hqueue] at hstep
      dsimp only at hstep
      split_ifs at hstep with hlistening hleader
      · obtain rfl := Option.some.inj hstep
        subst hleader
        rw [after_self]
        apply h.deliver hlistening.2.1 shuffles
        intro e ip port requestedPeers hmsg
        have hhead : Setup.NotEarly (sys.processes 0).coordinator.experimentIndex msg :=
          hintime msg (by rw [hqueue]; rfl)
        rw [hmsg] at hhead
        exact hhead
      · obtain rfl := Option.some.inj hstep
        rw [after_leader hleader]
        exact h

end System

namespace Setup
variable {setup : Setup}

/-- **No registration is lost.** In every run in which no registration reaches the leader before the leader has
come to its experiment, each registration delivered for the leader's experiment is recorded. -/
theorem registered_delivered {sys : System} (hreached : setup.machine.ReachedUnder setup.InTime sys) : sys.Recorded := by
  have hinv : System.LeaderInv (sys.processes 0) sys.delivered := by
    refine hreached.invariant (P := fun sys : System => System.LeaderInv (sys.processes 0) sys.delivered) ?_ ?_
    · rintro sys rfl
      exact ⟨rfl, fun _ => ⟨rfl, .inl rfl⟩, fun hconfigured => absurd hconfigured (lt_irrefl 0), by simp [start],
        by simp [start]⟩
    · intro sys e sys' h hintime hstep
      exact System.leaderInv_step h hintime hstep
  exact hinv.recorded

/-! ## A leader and one follower -/

def pair : Setup where
  experiments := List.replicate 2 { topology := { initialPeers := some 2, type := .chain } }
  followers := 1
  address i := if i = 0 then ("a", 1) else ("b", 2)
  distinct := by decide

def firstExperiment : List SystemEvent :=
  [.configure 0 fun _ _ => 1, .configure 1 fun _ _ => 1, .deliver 1 0 fun _ _ => 1, .deliver 0 1 fun _ _ => 1,
    .takeAssignments 0, .takeAssignments 1, .deliver 1 0 fun _ _ => 1, .acknowledgeStart 0,
    .deliver 0 1 fun _ _ => 1, .acknowledgeStart 1, .peerStopped 1 1, .deliver 1 0 fun _ _ => 1, .peerStopped 0 0,
    .deliver 0 1 fun _ _ => 1, .finish 1]

/-- The follower registers for the second experiment when the leader has come to it. -/
theorem registered_delivered_pair :
    ∃ sys, pair.machine.Reached sys ∧ .register 1 "b" 2 1 ∈ sys.delivered ∧
      (sys.processes 0).coordinator.experimentIndex = 1 ∧
      processKey "b" 2 ∈ (sys.processes 0).coordinator.registrationOrder := by
  have hrun : (pair.machine.runUnder pair.InTime pair.start (firstExperiment ++
      [.finish 0, .configure 0 fun _ _ => 1, .configure 1 fun _ _ => 1, .deliver 1 0 fun _ _ => 1])).map (fun sys =>
      decide (.register 1 "b" 2 1 ∈ sys.delivered ∧ 0 < (sys.processes 0).next ∧
        (sys.processes 0).coordinator.experimentIndex = 1)) = some true := by
    decide +kernel
  obtain ⟨sys, hs, hobserved⟩ := Option.map_eq_some_iff.mp hrun
  obtain ⟨hmem, hconfigured, hindex⟩ := of_decide_eq_true hobserved
  have hreached : pair.machine.ReachedUnder pair.InTime sys := Lib.Machine.reachedUnder_of_runUnder (.start rfl) hs
  exact ⟨sys, hreached.mono fun _ _ _ => trivial, hmem, hindex,
    (registered_delivered hreached 1 "b" 2 1 hmem hconfigured hindex.symm).1⟩

/-- The follower registers for the second experiment while the leader is still at the first. -/
theorem earlyRegistration_lost : ∃ sys, pair.machine.Reached sys ∧ ¬ sys.Recorded := by
  have hrun : (pair.machine.run pair.start (firstExperiment ++
      [.configure 1 fun _ _ => 1, .deliver 1 0 fun _ _ => 1, .finish 0, .configure 0 fun _ _ => 1])).map (fun sys =>
      decide (.register 1 "b" 2 1 ∈ sys.delivered ∧ 0 < (sys.processes 0).next ∧
        1 = (sys.processes 0).coordinator.experimentIndex ∧
        processKey "b" 2 ∉ (sys.processes 0).coordinator.registrationOrder)) = some true := by
    decide +kernel
  obtain ⟨sys, hs, hobserved⟩ := Option.map_eq_some_iff.mp hrun
  obtain ⟨hmem, hconfigured, hindex, hnotin⟩ := of_decide_eq_true hobserved
  exact ⟨sys, Lib.Machine.reached_of_run (.start rfl) hs, fun hrecorded =>
    hnotin (hrecorded 1 "b" 2 1 hmem hconfigured hindex).1⟩

end Setup

end Quantas.Tcp
