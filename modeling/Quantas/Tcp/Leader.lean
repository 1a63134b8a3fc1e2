import Quantas.Lib.Transition
import Quantas.Tcp.Dealing

/-!
# The leader through an experiment

A run of `leader` is one experiment: from the tables as `configureProcess` leaves them, the leader takes
registrations with any contents, ready messages of processes that were sent peers, and its own
`markReady`, in any order. `Frame` says what sending leaves alone; `Registered` is what holds of the
tables in every state reached.
-/

namespace Quantas.Tcp

/-! ## What sending leaves alone -/

/-- The two are the same process at the same experiment, and have opened the start gate equally often. -/
structure Setting (c c' : Coordinator) : Prop where
  experiment : c'.experiment = c.experiment
  experimentIndex : c'.experimentIndex = c.experimentIndex
  isLeader : c'.isLeader = c.isLeader
  myIp : c'.myIp = c.myIp
  myPort : c'.myPort = c.myPort
  startBroadcasts : c'.startBroadcasts = c.startBroadcasts

/-- The two differ at most in their signals, their outbox and what they know of their own peers. -/
structure Frame (c c' : Coordinator) : Prop extends Setting c c' where
  processes : c'.processes = c.processes
  registrationOrder : c'.registrationOrder = c.registrationOrder
  peerRanges : c'.peerRanges = c.peerRanges

section same
variable {c c' c'' : Coordinator}

theorem Setting.trans (h : Setting c c') (h' : Setting c' c'') : Setting c c'' where
  experiment := h'.experiment.trans h.experiment
  experimentIndex := h'.experimentIndex.trans h.experimentIndex
  isLeader := h'.isLeader.trans h.isLeader
  myIp := h'.myIp.trans h.myIp
  myPort := h'.myPort.trans h.myPort
  startBroadcasts := h'.startBroadcasts.trans h.startBroadcasts

theorem Setting.totalPeers (h : Setting c c') : c'.totalPeers = c.totalPeers := by
  rw [Coordinator.totalPeers, h.experiment, Coordinator.totalPeers]

theorem Setting.myKey (h : Setting c c') : c'.myKey = c.myKey := by
  rw [Coordinator.myKey, h.myIp, h.myPort, Coordinator.myKey]

@[refl] theorem Frame.refl (c : Coordinator) : Frame c c := ⟨⟨rfl, rfl, rfl, rfl, rfl, rfl⟩, rfl, rfl, rfl⟩

theorem Frame.trans (h : Frame c c') (h' : Frame c' c'') : Frame c c'' where
  toSetting := h.toSetting.trans h'.toSetting
  processes := h'.processes.trans h.processes
  registrationOrder := h'.registrationOrder.trans h.registrationOrder
  peerRanges := h'.peerRanges.trans h.peerRanges

theorem Frame.records (h : Frame c c') : c'.records = c.records := by
  rw [Coordinator.records, h.registrationOrder, h.processes, Coordinator.records]

end same

theorem frame_foldl {α : Type} (f : Coordinator → α → Coordinator) (hf : ∀ c a, Frame c (f c a)) (l : List α)
    (c : Coordinator) : Frame c (l.foldl f c) := by
  induction l generalizing c with
  | nil => exact Frame.refl c
  | cons a l ih => exact (hf c a).trans (ih _)

namespace Coordinator
variable (c : Coordinator)

theorem frame_sendJson (ip : String) (port : Int) (msg : Message) : Frame c (c.sendJson ip port msg) :=
  ⟨⟨rfl, rfl, rfl, rfl, rfl, rfl⟩, rfl, rfl, rfl⟩

theorem frame_handleStart : Frame c c.handleStart := ⟨⟨rfl, rfl, rfl, rfl, rfl, rfl⟩, rfl, rfl, rfl⟩

theorem frame_sendAssignmentToProcess (order : (n : Nat) → Equiv.Perm (Fin n)) (key : ProcessKey)
    (record : ProcessRecord) : Frame c (c.sendAssignmentToProcess order key record) := by
  unfold sendAssignmentToProcess
  cases buildTopology c.experiment.topology c.experiment.identifiers (order _) with
  | none => exact Frame.refl c
  | some assignments =>
    dsimp only
    split_ifs
    · exact ⟨⟨rfl, rfl, rfl, rfl, rfl, rfl⟩, rfl, rfl, rfl⟩
    · exact c.frame_sendJson _ _ _

theorem frame_broadcast {handle : Coordinator → Coordinator} (hhandle : ∀ c, Frame c (handle c)) (msg : Message) :
    Frame c (c.broadcast handle msg) := by
  refine frame_foldl _ (fun c record => ?_) _ c
  split_ifs
  · exact hhandle c
  · exact c.frame_sendJson _ _ _

theorem frame_distribute {c : Coordinator} (hassigns : c.Assigns) (shuffles : Shuffles) :
    Frame c.assignPeers (c.distributeAssignmentsIfReady shuffles) := by
  unfold distributeAssignmentsIfReady
  rw [if_pos hassigns]
  refine frame_foldl _ (fun c' key => ?_) _ _
  cases c.dealing.snapshot key with
  | none => exact Frame.refl c'
  | some record => exact c'.frame_sendAssignmentToProcess _ _ _

/-! ## The tables -/

structure Registered (c : Coordinator) : Prop where
  leader : c.isLeader = true
  own : c.myKey ∈ c.registrationOrder
  nodup : c.registrationOrder.Nodup
  listed : ∀ key, key ∈ c.registrationOrder ↔ (c.processes key).isSome = true
  keyed : ∀ key record, c.processes key = some record → key = processKey record.ip record.port
  inRange : ∀ key record, c.processes key = some record →
    ∀ x : Int, x ∈ record.assignedPeers → 0 ≤ x ∧ x < c.totalPeers

namespace Registered
variable {c c' : Coordinator}

theorem mem_records (h : Registered c) {record : ProcessRecord} :
    record ∈ c.records ↔ ∃ key, c.processes key = some record := by
  rw [records, List.mem_filterMap]
  refine exists_congr fun key => and_iff_right_of_imp fun hrecord => ?_
  rw [h.listed, hrecord]
  rfl

theorem update (h : Registered c) (hsetting : Setting c c') (horder : c'.registrationOrder = c.registrationOrder)
    {f : ProcessKey → ProcessRecord → ProcessRecord}
    (hprocesses : ∀ key, c'.processes key = (c.processes key).map (f key))
    (hkey : ∀ key r, processKey (f key r).ip (f key r).port = processKey r.ip r.port)
    (hassigned : ∀ key r, ∀ x : Int, x ∈ (f key r).assignedPeers →
      0 ≤ x ∧ x < c.totalPeers ∨ x ∈ r.assignedPeers) : Registered c' := by
  refine ⟨hsetting.isLeader.trans h.leader, ?_, ?_, fun key => ?_, fun key r hr => ?_, fun key r hr x hx => ?_⟩
  · rw [hsetting.myKey, horder]
    exact h.own
  · rw [horder]
    exact h.nodup
  · rw [horder, h.listed, hprocesses, Option.isSome_map]
  · rw [hprocesses] at hr
    obtain ⟨r', hr', rfl⟩ := Option.map_eq_some_iff.mp hr
    rw [hkey]
    exact h.keyed key r' hr'
  · rw [hprocesses] at hr
    obtain ⟨r', hr', rfl⟩ := Option.map_eq_some_iff.mp hr
    rw [hsetting.totalPeers]
    rcases hassigned key r' x hx with hx | hx
    · exact hx
    · exact h.inRange key r' hr' x hx

theorem frame (h : Registered c) (hframe : Frame c c') : Registered c' := by
  refine h.update (f := fun _ r => r) hframe.toSetting hframe.registrationOrder (fun key => ?_) (fun _ _ => rfl)
    fun _ _ _ hx => .inr hx
  rw [hframe.processes, Option.map_id']

end Registered

section tables
variable {c}

theorem assigns_nonneg (hassigns : c.Assigns) : 0 ≤ c.totalPeers := by
  have hbuilt := hassigns.2
  unfold buildTopology at hbuilt
  split_ifs at hbuilt with hneg
  · cases hbuilt
  · exact not_lt.mp hneg

theorem dealing_snapshot (h : Registered c) (hassigns : c.Assigns) (key : ProcessKey) :
    c.dealing.snapshot key =
      (c.processes key).map fun record => { record with assignedPeers := c.peersAfter key record } := by
  obtain ⟨served, hdealt, hserved, hreached⟩ :=
    dealing_spec (assigns_nonneg hassigns) h.nodup fun key hkey => (h.listed key).mp hkey
  by_cases hmem : key ∈ served
  · obtain ⟨hkey, hroom⟩ := hserved key hmem
    obtain ⟨record, hrecord⟩ := Option.isSome_iff_exists.mp ((h.listed key).mp hkey)
    rw [hdealt.dealt key hmem record hrecord, hrecord, Option.map_some, peersAfter]
    rcases hroom with hroom | hzero
    · rw [if_pos hroom, shareOf]
    · -- without ids there is nothing to deal and nothing to keep
      have hnone : ∀ x : Int, x ∉ sharedIds c.processes c.registrationOrder c.totalPeers.toNat key := by
        intro x hx
        rw [mem_sharedIds, Lib.Allocation.mem_share] at hx
        omega
      have hold : record.assignedPeers = [] := by
        apply List.eq_nil_iff_forall_not_mem.mpr
        intro x hx
        have := h.inRange key record hrecord x hx
        omega
      rw [shareOf, List.eq_nil_iff_forall_not_mem.mpr hnone, hold, ite_self]
  · rw [hdealt.kept key hmem]
    cases hrecord : c.processes key with
    | none => rfl
    | some record =>
      have hkey : key ∈ c.registrationOrder := (h.listed key).mpr (by rw [hrecord]; rfl)
      rw [Option.map_some, peersAfter, if_neg fun hroom => hmem (hreached key hkey hroom)]

theorem assignPeers_processes (h : Registered c) (hassigns : c.Assigns) (key : ProcessKey) :
    c.assignPeers.processes key =
      (c.processes key).map fun record => { record with assignedPeers := c.peersAfter key record } := by
  cases hrecord : c.processes key with
  | none => simp only [assignPeers, hrecord, Option.map_none]
  | some record =>
    have hkey : key ∈ c.registrationOrder := (h.listed key).mpr (by rw [hrecord]; rfl)
    simp only [assignPeers, dealing_snapshot h hassigns, hrecord, Option.map_some, if_pos hkey]

theorem mem_shareOf {key : ProcessKey} {x : Int} (hx : x ∈ c.shareOf key) : 0 ≤ x ∧ x < c.totalPeers := by
  rw [shareOf, mem_sharedIds, Lib.Allocation.mem_share] at hx
  omega

theorem Registered.assignPeers (h : Registered c) (hassigns : c.Assigns) : Registered c.assignPeers := by
  refine h.update ⟨rfl, rfl, rfl, rfl, rfl, rfl⟩ rfl (assignPeers_processes h hassigns) (fun _ _ => rfl)
    fun key r x hx => ?_
  simp only [peersAfter] at hx
  split_ifs at hx
  · exact .inl (mem_shareOf hx)
  · exact .inr hx

theorem Registered.distribute (h : Registered c) (shuffles : Shuffles) :
    Registered (c.distributeAssignmentsIfReady shuffles) := by
  by_cases hassigns : c.Assigns
  · exact (h.assignPeers hassigns).frame (frame_distribute hassigns shuffles)
  · rw [distributeAssignmentsIfReady, if_neg hassigns]
    exact h

theorem setReady_processes (c : Coordinator) (key key' : ProcessKey) :
    (c.setReady key).processes key' =
      (c.processes key').map fun record => if key' = key then { record with ready := true } else record := by
  unfold Coordinator.setReady
  by_cases hkey : key' = key
  · subst hkey
    simp
  · simp [hkey, Option.map_id']

theorem Registered.setReady (h : Registered c) (key : ProcessKey) : Registered (c.setReady key) := by
  refine h.update ⟨rfl, rfl, rfl, rfl, rfl, rfl⟩ rfl (setReady_processes c key) (fun key' r => ?_)
    fun key' r x hx => .inr ?_
  · split_ifs <;> rfl
  · split_ifs at hx <;> exact hx

theorem Registered.broadcastStartIfReady (h : Registered c) : Registered c.broadcastStartIfReady := by
  unfold Coordinator.broadcastStartIfReady
  split_ifs
  · have hcounted : Registered { c with startBroadcasts := c.startBroadcasts + 1 } :=
      ⟨h.leader, h.own, h.nodup, h.listed, h.keyed, h.inRange⟩
    exact hcounted.frame (frame_broadcast _ frame_handleStart _)
  · exact h

def enrolled (existing : Option ProcessRecord) (ip : String) (port requestedPeers : Int) : ProcessRecord where
  ip := ip
  port := port
  requestedPeers := requestedPeers
  assignedPeers := (existing.map ProcessRecord.assignedPeers).getD []
  ready := (existing.map ProcessRecord.ready).getD false

theorem setting_enroll (c : Coordinator) (ip : String) (port requestedPeers : Int) :
    Setting c (c.enroll ip port requestedPeers) := by
  unfold enroll
  dsimp only
  split <;> exact ⟨rfl, rfl, rfl, rfl, rfl, rfl⟩

theorem enroll_processes (c : Coordinator) (ip : String) (port requestedPeers : Int) :
    (c.enroll ip port requestedPeers).processes = Function.update c.processes (processKey ip port)
      (some (enrolled (c.processes (processKey ip port)) ip port requestedPeers)) := by
  unfold enroll
  dsimp only
  cases hexisting : c.processes (processKey ip port) with
  | none => rfl
  | some existing => rfl

theorem mem_enroll_order (h : Registered c) (ip : String) (port requestedPeers : Int) (key : ProcessKey) :
    key ∈ (c.enroll ip port requestedPeers).registrationOrder ↔
      key ∈ c.registrationOrder ∨ key = processKey ip port := by
  unfold enroll
  dsimp only
  cases hexisting : c.processes (processKey ip port) with
  | none => simp
  | some existing =>
    rw [or_iff_left_of_imp]
    rintro rfl
    rw [h.listed, hexisting]
    rfl

theorem Registered.enroll (h : Registered c) (ip : String) (port requestedPeers : Int) :
    Registered (c.enroll ip port requestedPeers) := by
  have hsetting := setting_enroll c ip port requestedPeers
  have hprocesses := enroll_processes c ip port requestedPeers
  have horder := mem_enroll_order h ip port requestedPeers
  refine ⟨hsetting.isLeader.trans h.leader, ?_, ?_, fun key => ?_, fun key r hr => ?_, fun key r hr x hx => ?_⟩
  · rw [hsetting.myKey, horder]
    exact .inl h.own
  · unfold Coordinator.enroll
    dsimp only
    cases hexisting : c.processes (processKey ip port) with
    | none =>
      rw [List.nodup_append]
      refine ⟨h.nodup, List.nodup_singleton _, fun key hkey key' hkey' hsame => ?_⟩
      rw [hsame, List.mem_singleton.mp hkey', h.listed, hexisting] at hkey
      cases hkey
    | some existing => exact h.nodup
  · rw [horder, hprocesses, h.listed]
    by_cases hkey : key = processKey ip port
    · simp [hkey]
    · simp [hkey]
  · rw [hprocesses] at hr
    by_cases hkey : key = processKey ip port
    · rw [hkey, Function.update_self] at hr
      rw [hkey, ← Option.some.inj hr, enrolled]
    · rw [Function.update_of_ne hkey] at hr
      exact h.keyed key r hr
  · rw [hsetting.totalPeers]
    rw [hprocesses] at hr
    by_cases hkey : key = processKey ip port
    · rw [hkey, Function.update_self] at hr
      rw [← Option.some.inj hr, enrolled] at hx
      cases hexisting : c.processes (processKey ip port) with
      | none => simp [hexisting] at hx
      | some existing =>
        rw [hexisting] at hx
        exact h.inRange _ existing hexisting x hx
    · rw [Function.update_of_ne hkey] at hr
      exact h.inRange key r hr x hx

theorem handleRegister_eq (c : Coordinator) (shuffles : Shuffles) (ip : String) (port requestedPeers : Int) :
    c.handleRegister shuffles ip port requestedPeers =
      if c.CanResendAssignment (processKey ip port) then
        (c.enroll ip port requestedPeers).sendAssignmentToProcess (shuffles (processKey ip port)) (processKey ip port)
          (enrolled (c.processes (processKey ip port)) ip port requestedPeers)
      else (c.enroll ip port requestedPeers).distributeAssignmentsIfReady shuffles := by
  unfold handleRegister
  dsimp only
  rw [enroll_processes, Function.update_self]

theorem setting_distribute (c : Coordinator) (shuffles : Shuffles) :
    Setting c (c.distributeAssignmentsIfReady shuffles) := by
  by_cases hassigns : c.Assigns
  · have hwritten : Setting c c.assignPeers := ⟨rfl, rfl, rfl, rfl, rfl, rfl⟩
    exact hwritten.trans (frame_distribute hassigns shuffles).toSetting
  · rw [distributeAssignmentsIfReady, if_neg hassigns]
    exact (Frame.refl c).toSetting

theorem setting_handleRegister (c : Coordinator) (shuffles : Shuffles) (ip : String) (port requestedPeers : Int) :
    Setting c (c.handleRegister shuffles ip port requestedPeers) := by
  rw [handleRegister_eq]
  have henroll := setting_enroll c ip port requestedPeers
  split_ifs
  · exact henroll.trans (frame_sendAssignmentToProcess _ _ _ _).toSetting
  · exact henroll.trans (setting_distribute _ shuffles)

theorem Registered.handleRegister (h : Registered c) (shuffles : Shuffles) (ip : String)
    (port requestedPeers : Int) : Registered (c.handleRegister shuffles ip port requestedPeers) := by
  rw [handleRegister_eq]
  have henroll := h.enroll ip port requestedPeers
  split_ifs
  · exact henroll.frame (frame_sendAssignmentToProcess _ _ _ _)
  · exact henroll.distribute shuffles

theorem reset_processes (c : Coordinator) (experiment : Experiment) (experimentIndex : Nat) (key : ProcessKey) :
    (c.reset experiment experimentIndex).processes key = if key = c.myKey then
      some { ip := c.myIp, port := c.myPort, requestedPeers := experiment.peersPerProcess } else none := by
  show Function.update _ _ _ key = _
  rw [Function.update_apply]
  rfl

theorem Registered.reset (c : Coordinator) (hleader : c.isLeader = true) (experiment : Experiment)
    (experimentIndex : Nat) : Registered (c.reset experiment experimentIndex) where
  leader := hleader
  own := List.mem_singleton_self _
  nodup := List.nodup_singleton _
  listed key := by
    rw [reset_processes]
    show key ∈ [c.myKey] ↔ _
    split_ifs with hkey <;> simp [hkey]
  keyed key r hr := by
    rw [reset_processes] at hr
    split_ifs at hr with hkey
    rw [← Option.some.inj hr]
    exact hkey
  inRange key r hr x hx := by
    rw [reset_processes] at hr
    split_ifs at hr with hkey
    rw [← Option.some.inj hr] at hx
    cases hx

theorem Registered.configureProcess (c : Coordinator) (hleader : c.isLeader = true) (shuffles : Shuffles)
    (experiment : Experiment) (experimentIndex : Nat) :
    Registered (c.configureProcess shuffles experiment experimentIndex) := by
  have hreset := Registered.reset c hleader experiment experimentIndex
  unfold Coordinator.configureProcess
  dsimp only
  rw [if_pos hreset.leader]
  exact hreset.distribute shuffles

theorem Registered.markReady (h : Registered c) : Registered c.markReady := by
  rw [Coordinator.markReady, if_pos h.leader]
  exact (h.setReady _).broadcastStartIfReady

theorem Registered.handleReady (h : Registered c) (ip : String) (port : Int) :
    Registered (c.handleReady ip port) := by
  unfold Coordinator.handleReady
  split_ifs
  · exact h
  · exact (h.setReady _).broadcastStartIfReady

end tables

end Coordinator

/-! ## The machine -/

/-- The leader, and the processes that have reported ready in this experiment. -/
structure Leader where
  coordinator : Coordinator
  reported : List ProcessKey := []

inductive LeaderEvent
  | receive (msg : Message) (shuffles : Shuffles)
  | markReady

def Message.hasPeers : Message → Bool
  | .assignment _ peers _ => !peers.isEmpty
  | _ => false

namespace Leader
variable (s : Leader)

/-- What can happen to the leader before the experiment runs. A process has an address, or
`configureProcess` throws; it calls `markReady` only if it was given peers. -/
def Accepts : LeaderEvent → Prop
  | .receive (.register _ ip port _) _ => ip ≠ "" ∧ 0 < port
  | .receive (.assignment ..) _ => True
  | .receive (.ready _ ip port) _ =>
    ∃ pkt ∈ s.coordinator.outbox, pkt.1 = processKey ip port ∧ pkt.2.hasPeers = true
  | .receive _ _ => False
  | .markReady => s.coordinator.assignmentsReady = true ∧ s.coordinator.localAssignments ≠ []

instance : ∀ e, Decidable (s.Accepts e)
  | .receive (.register _ _ _ _) _ => inferInstanceAs (Decidable (_ ∧ _))
  | .receive (.assignment ..) _ => inferInstanceAs (Decidable True)
  | .receive (.ready ..) _ => inferInstanceAs (Decidable (∃ pkt ∈ s.coordinator.outbox, _))
  | .receive (.start _) _ | .receive (.stop _) _ | .receive (.peerDone _ _) _ => inferInstanceAs (Decidable False)
  | .markReady => inferInstanceAs (Decidable (_ ∧ _))

def react : LeaderEvent → Leader
  | .receive msg shuffles =>
    { coordinator := s.coordinator.processMessage shuffles msg
      reported := match msg with
        | .ready e ip port =>
          if e = s.coordinator.experimentIndex then s.reported ++ [processKey ip port] else s.reported
        | _ => s.reported }
  | .markReady =>
    { coordinator := s.coordinator.markReady
      reported := s.reported ++ [s.coordinator.myKey] }

def machine : Lib.Machine Leader LeaderEvent where
  initial s := ∃ (c : Coordinator) (shuffles : Shuffles) (experiment : Experiment) (experimentIndex : Nat),
    c.isLeader = true ∧ c.myIp ≠ "" ∧ 0 < c.myPort ∧ c.outbox = [] ∧
      s = { coordinator := c.configureProcess shuffles experiment experimentIndex }
  step s e := if s.Accepts e then some (s.react e) else none

variable {s}

theorem react_cases {s : Leader} (hleader : s.coordinator.isLeader = true) {e : LeaderEvent} (he : s.Accepts e) :
    s.react e = s ∨
    (∃ shuffles ip port requestedPeers, ip ≠ "" ∧ 0 < port ∧
      e = .receive (.register s.coordinator.experimentIndex ip port requestedPeers) shuffles ∧
      s.react e =
        { s with coordinator := s.coordinator.handleRegister shuffles ip port requestedPeers }) ∨
    (∃ ip port, (∃ pkt ∈ s.coordinator.outbox, pkt.1 = processKey ip port ∧ pkt.2.hasPeers = true) ∧
      s.react e =
        { coordinator := s.coordinator.handleReady ip port, reported := s.reported ++ [processKey ip port] }) ∨
    (s.coordinator.assignmentsReady = true ∧ s.coordinator.localAssignments ≠ [] ∧
      s.react e =
        { coordinator := s.coordinator.markReady, reported := s.reported ++ [s.coordinator.myKey] }) := by
  cases e with
  | markReady => exact .inr (.inr (.inr ⟨he.1, he.2, rfl⟩))
  | receive msg shuffles =>
    have hreact : s.react (.receive msg shuffles) =
        { coordinator := s.coordinator.processMessage shuffles msg
          reported := (s.react (.receive msg shuffles)).reported } := rfl
    by_cases hcurrent : msg.experimentIndex = s.coordinator.experimentIndex
    swap
    · -- a message of another experiment
      refine .inl ?_
      have hignored : s.coordinator.processMessage shuffles msg = s.coordinator := if_pos hcurrent
      rw [hreact, hignored]
      cases msg with
      | ready e ip port =>
        show { s with reported := if e = s.coordinator.experimentIndex then _ else s.reported } = s
        rw [if_neg (show ¬ e = s.coordinator.experimentIndex from hcurrent)]
      | _ => rfl
    have hprocess : s.coordinator.processMessage shuffles msg = _ := if_neg (not_not.mpr hcurrent)
    rw [hreact, hprocess]
    cases msg with
    | register e ip port requestedPeers =>
      obtain rfl : e = s.coordinator.experimentIndex := hcurrent
      refine .inr (.inl ⟨shuffles, ip, port, requestedPeers, he.1, he.2, rfl, ?_⟩)
      dsimp only
      rw [if_pos hleader]
      rfl
    | assignment e peers peerRanges =>
      refine .inl ?_
      dsimp only
      rw [if_pos hleader]
      rfl
    | ready e ip port =>
      refine .inr (.inr (.inl ⟨ip, port, he, ?_⟩))
      dsimp only [react]
      rw [if_pos hleader, if_pos (show e = s.coordinator.experimentIndex from hcurrent)]
    | start e => exact he.elim
    | stop e => exact he.elim
    | peerDone e peerId => exact he.elim

theorem of_step {s s' : Leader} {e : LeaderEvent} (hstep : machine.step s e = some s') :
    s.Accepts e ∧ s.react e = s' := by
  simp only [machine] at hstep
  split_ifs at hstep with he
  exact ⟨he, Option.some.inj hstep⟩

theorem registered {s : Leader} {guard : Leader → LeaderEvent → Prop} (h : machine.ReachedUnder guard s) :
    s.coordinator.Registered := by
  refine h.invariant (P := fun s => s.coordinator.Registered) ?_ ?_
  · rintro s ⟨c, shuffles, experiment, experimentIndex, hleader, -, -, -, rfl⟩
    exact .configureProcess c hleader shuffles experiment experimentIndex
  · intro s e s' hs _ hstep
    obtain ⟨he, rfl⟩ := of_step hstep
    rcases react_cases hs.leader he with hsame | ⟨shuffles, ip, port, requested, -, -, -, hreact⟩ |
      ⟨ip, port, -, hreact⟩ | ⟨-, -, hreact⟩
    · rw [hsame]
      exact hs
    · rw [hreact]
      exact hs.handleRegister shuffles ip port requested
    · rw [hreact]
      exact hs.handleReady ip port
    · rw [hreact]
      exact hs.markReady

end Leader

end Quantas.Tcp
