import Quantas.Tcp.Partition

/-!
# The start gate

`start_gate` is about the runs in which, until the start is broadcast, every registration leaves each
registered process with at least one peer and the requests sufficient: there the leader has broadcast the
start as soon as all owners of peers have reported ready, and never before. A process that gets no peers
leaves the experiment without reporting ready, and the gate, which waits for every registered process,
stays shut (`spareProcess_blocks`).
-/

namespace Quantas.Tcp

namespace Coordinator
variable (c : Coordinator)

/-- Every id has been given to some process. -/
def Covered : Prop := ∀ i < c.totalPeers.toNat, ∃ record ∈ c.records, (i : Int) ∈ record.assignedPeers

/-- A distribution leaves no registered process without peers: those that the loop reaches ask for one, and
those that it does not reach have some. -/
def ServesEveryone : Prop := ∀ key ∈ c.registrationOrder, ∀ record ∈ c.processes key,
  if c.Reaches key then 0 < record.requestedPeers else record.assignedPeers ≠ []

instance : Decidable c.Covered := inferInstanceAs (Decidable (∀ i < c.totalPeers.toNat, _))
instance : Decidable c.ServesEveryone := inferInstanceAs (Decidable (∀ key ∈ c.registrationOrder, _))

/-- A registration after which the requests suffice leaves no process without peers, and the requests do not
fall below the number of peers once these have been given out. -/
def KeepsEveryone (ip : String) (port requestedPeers : Int) : Prop :=
  if (c.enroll ip port requestedPeers).Assigns then
    c.CanResendAssignment (processKey ip port) ∨ (c.enroll ip port requestedPeers).ServesEveryone
  else ¬ c.Covered

instance (ip : String) (port requestedPeers : Int) : Decidable (c.KeepsEveryone ip port requestedPeers) :=
  inferInstanceAs (Decidable (ite _ _ _))

end Coordinator

namespace Leader
open Coordinator

/-- The condition on a run, for each registration before the start is broadcast. -/
def Serves (s : Leader) : LeaderEvent → Prop
  | .receive (.register e ip port requestedPeers) _ =>
    e = s.coordinator.experimentIndex → s.coordinator.startBroadcasts = 0 →
      s.coordinator.KeepsEveryone ip port requestedPeers
  | _ => True

instance (s : Leader) : ∀ e, Decidable (s.Serves e)
  | .receive (.register _ _ _ _) _ => inferInstanceAs (Decidable (_ → _ → Coordinator.KeepsEveryone _ _ _ _))
  | .receive (.assignment ..) _ | .receive (.ready ..) _ | .receive (.start _) _ | .receive (.stop _) _
  | .receive (.peerDone ..) _ | .markReady => inferInstanceAs (Decidable True)

end Leader

/-! ## What holds until the gate opens -/

namespace Coordinator
variable {c c' : Coordinator} {reported : List ProcessKey}

/-- How readiness, assignments and the tables hang together. -/
structure Consistent (c : Coordinator) (reported : List ProcessKey) : Prop where
  registered : Registered c
  /-- The flag of a process says whether it has reported. -/
  ready_iff : ∀ key record, c.processes key = some record → (record.ready = true ↔ key ∈ reported)
  reported_listed : ∀ key ∈ reported, key ∈ c.registrationOrder
  /-- A process has an address, so its ready message counts. -/
  address : ∀ key ∈ c.registrationOrder, key.1 ≠ "" ∧ 0 < key.2
  sent : ∀ pkt ∈ c.outbox, pkt.2.hasPeers = true → pkt.1 ∈ c.registrationOrder ∧ c.Covered
  own : c.localAssignments ≠ [] → c.Covered
  held : ∀ record ∈ c.records, record.assignedPeers ≠ [] → c.Covered
  /-- Somebody is waited for. -/
  waiting : c.startBroadcasts = 0 → ∃ record ∈ c.records, record.ready = false

/-- Once the peers are given out, nobody is without, and the requests suffice. -/
def Served (c : Coordinator) : Prop :=
  c.startBroadcasts = 0 → c.Covered →
    c.totalPeers ≤ c.totalRequested ∧ ∀ record ∈ c.records, record.assignedPeers ≠ []

theorem covered_frame (h : Frame c c') : c'.Covered ↔ c.Covered := by
  rw [Covered, h.records, h.totalPeers, Covered]

theorem served_frame (h : Frame c c') (hserved : c.Served) : c'.Served := by
  unfold Served
  rw [h.startBroadcasts, covered_frame h, h.totalPeers, totalRequested, h.records]
  exact hserved

theorem Consistent.frame (h : Consistent c reported) (hframe : Frame c c')
    (hsent : ∀ pkt ∈ c'.outbox, pkt.2.hasPeers = true →
      pkt ∈ c.outbox ∨ pkt.1 ∈ c.registrationOrder ∧ c.Covered)
    (hown : c'.localAssignments ≠ [] → c.localAssignments ≠ [] ∨ c.Covered) : Consistent c' reported where
  registered := h.registered.frame hframe
  ready_iff := by rw [hframe.processes]; exact h.ready_iff
  reported_listed := by rw [hframe.registrationOrder]; exact h.reported_listed
  address := by rw [hframe.registrationOrder]; exact h.address
  sent := by
    intro pkt hpkt hpeers
    rw [hframe.registrationOrder, covered_frame hframe]
    rcases hsent pkt hpkt hpeers with hold | hnew
    · exact h.sent pkt hold hpeers
    · exact hnew
  own := by
    intro hne
    rw [covered_frame hframe]
    exact (hown hne).elim h.own id
  held := by rw [hframe.records, covered_frame hframe]; exact h.held
  waiting := by rw [hframe.startBroadcasts, hframe.records]; exact h.waiting

/-! ## Sending -/

theorem mem_outbox_sendAssignment {order : (n : Nat) → Equiv.Perm (Fin n)} {key : ProcessKey}
    {record : ProcessRecord} {pkt : ProcessKey × Message}
    (hpkt : pkt ∈ (c.sendAssignmentToProcess order key record).outbox) :
    pkt ∈ c.outbox ∨ pkt.1 = processKey record.ip record.port := by
  unfold sendAssignmentToProcess at hpkt
  cases hbuilt : buildTopology c.experiment.topology c.experiment.identifiers (order _) with
  | none =>
    rw [hbuilt] at hpkt
    exact .inl hpkt
  | some assignments =>
    rw [hbuilt] at hpkt
    dsimp only at hpkt
    split_ifs at hpkt
    · exact .inl hpkt
    · rcases List.mem_append.mp hpkt with hpkt | hpkt
      · exact .inl hpkt
      · exact .inr (congrArg Prod.fst (List.mem_singleton.mp hpkt))

theorem mem_outbox_distribute (h : Registered c) (hassigns : c.Assigns) {shuffles : Shuffles}
    {pkt : ProcessKey × Message} (hpkt : pkt ∈ (c.distributeAssignmentsIfReady shuffles).outbox) :
    pkt ∈ c.outbox ∨ pkt.1 ∈ c.registrationOrder := by
  rw [distributeAssignmentsIfReady, if_pos hassigns] at hpkt
  revert hpkt
  refine List.foldlRecOn c.registrationOrder _ (motive := fun c' : Coordinator => pkt ∈ c'.outbox → _) .inl ?_
  intro c' ih key hkey hpkt
  cases hrecord : c.dealing.snapshot key with
  | none =>
    rw [hrecord] at hpkt
    exact ih hpkt
  | some record =>
    rw [hrecord] at hpkt
    rcases mem_outbox_sendAssignment hpkt with hpkt | hpkt
    · exact ih hpkt
    · rw [dealing_snapshot h hassigns] at hrecord
      obtain ⟨record', hrecord', rfl⟩ := Option.map_eq_some_iff.mp hrecord
      rw [hpkt, ← h.keyed key record' hrecord']
      exact .inr hkey

theorem broadcast_start (c : Coordinator) (msg : Message) :
    (∀ pkt ∈ (c.broadcast handleStart msg).outbox, pkt ∈ c.outbox ∨ pkt.2 = msg) ∧
      (c.broadcast handleStart msg).localAssignments = c.localAssignments := by
  unfold broadcast
  refine List.foldlRecOn c.records _ (motive := fun c' : Coordinator =>
    (∀ pkt ∈ c'.outbox, pkt ∈ c.outbox ∨ pkt.2 = msg) ∧ c'.localAssignments = c.localAssignments)
    ⟨fun _ => .inl, rfl⟩ ?_
  intro c' hc' record _
  split_ifs
  · exact hc'
  · refine ⟨fun pkt hpkt => ?_, hc'.2⟩
    rcases List.mem_append.mp hpkt with hpkt | hpkt
    · exact hc'.1 pkt hpkt
    · exact .inr (congrArg Prod.snd (List.mem_singleton.mp hpkt))

/-! ## Reporting ready -/

theorem records_map_congr {α : Type} {g : ProcessKey → ProcessRecord → ProcessRecord} {f : ProcessRecord → α}
    (horder : c'.registrationOrder = c.registrationOrder)
    (hprocesses : ∀ key, c'.processes key = (c.processes key).map (g key))
    (hf : ∀ key record, f (g key record) = f record) : c'.records.map f = c.records.map f := by
  unfold records
  rw [List.map_filterMap, List.map_filterMap, horder]
  congr 1
  funext key
  rw [hprocesses, Option.map_map]
  congr 1
  funext record
  exact hf key record

theorem records_map_setReady {α : Type} (c : Coordinator) (key : ProcessKey) {f : ProcessRecord → α}
    (hf : ∀ record : ProcessRecord, f { record with ready := true } = f record) :
    (c.setReady key).records.map f = c.records.map f := by
  have horder : (c.setReady key).registrationOrder = c.registrationOrder := rfl
  apply records_map_congr horder (setReady_processes c key)
  intro key' record
  split_ifs
  · exact hf record
  · rfl

theorem totalRequested_setReady (c : Coordinator) (key : ProcessKey) :
    (c.setReady key).totalRequested = c.totalRequested := by
  unfold totalRequested
  rw [records_map_setReady c key fun _ => rfl]

theorem assigned_setReady (c : Coordinator) (key : ProcessKey) {P : List InterfaceId → Prop} :
    (∃ record ∈ (c.setReady key).records, P record.assignedPeers) ↔ ∃ record ∈ c.records, P record.assignedPeers := by
  have hmap : (c.setReady key).records.map ProcessRecord.assignedPeers = c.records.map ProcessRecord.assignedPeers :=
    records_map_setReady c key fun _ => rfl
  have hexists : ∀ records : List ProcessRecord, (∃ record ∈ records, P record.assignedPeers) ↔
      ∃ peers ∈ records.map ProcessRecord.assignedPeers, P peers := by simp
  rw [hexists, hmap, ← hexists]

theorem covered_setReady (c : Coordinator) (key : ProcessKey) : (c.setReady key).Covered ↔ c.Covered :=
  forall₂_congr fun i _ => assigned_setReady c key (P := fun peers => (i : Int) ∈ peers)

theorem Consistent.setReady (h : Consistent c reported) {key : ProcessKey} (hkey : key ∈ c.registrationOrder) {n : Nat}
    (hwaiting : n = 0 → ∃ record ∈ (c.setReady key).records, record.ready = false) :
    Consistent { c.setReady key with startBroadcasts := n } (reported ++ [key]) where
  registered := by
    have hready := h.registered.setReady key
    exact ⟨hready.leader, hready.own, hready.nodup, hready.listed, hready.keyed, hready.inRange⟩
  ready_iff := by
    intro key' record hrecord
    have hrecord' : (c.setReady key).processes key' = some record := hrecord
    rw [setReady_processes] at hrecord'
    obtain ⟨old, hold, rfl⟩ := Option.map_eq_some_iff.mp hrecord'
    rw [List.mem_append, List.mem_singleton]
    split_ifs with hsame
    · simp [hsame]
    · rw [h.ready_iff key' old hold, or_iff_left hsame]
  reported_listed := by
    intro key' hkey'
    rcases List.mem_append.mp hkey' with hkey' | hkey'
    · exact h.reported_listed key' hkey'
    · exact List.mem_singleton.mp hkey' ▸ hkey
  address := h.address
  sent := fun pkt hpkt hpeers => (h.sent pkt hpkt hpeers).imp_right (covered_setReady c key).mpr
  own := fun hne => (covered_setReady c key).mpr (h.own hne)
  held := by
    intro record hrecord hne
    obtain ⟨old, hold, hne'⟩ := (assigned_setReady c key (P := fun peers => peers ≠ [])).mp ⟨record, hrecord, hne⟩
    exact (covered_setReady c key).mpr (h.held old hold hne')
  waiting := hwaiting

theorem Consistent.report (h : Consistent c reported) (hserved : c.Served) (hcovered : c.Covered) {key : ProcessKey}
    (hkey : key ∈ c.registrationOrder) :
    Consistent (c.setReady key).broadcastStartIfReady (reported ++ [key]) ∧
      (c.setReady key).broadcastStartIfReady.Served ∧
      (c.startBroadcasts < (c.setReady key).broadcastStartIfReady.startBroadcasts →
        ∀ key' record, (c.setReady key).broadcastStartIfReady.processes key' = some record → key' ∈ reported ++ [key]) := by
  have hreg := h.registered.setReady key
  unfold broadcastStartIfReady
  by_cases hgate : (c.setReady key).GateOpen
  · rw [if_pos ⟨hreg.leader, hgate⟩]
    set opened : Coordinator := { c.setReady key with startBroadcasts := (c.setReady key).startBroadcasts + 1 }
    have hcount : Consistent opened (reported ++ [key]) := h.setReady hkey fun hzero => absurd hzero (Nat.succ_ne_zero _)
    have hframe : Frame opened (opened.broadcast handleStart (.start (c.setReady key).experimentIndex)) :=
      frame_broadcast _ frame_handleStart _
    obtain ⟨hout, hlocal⟩ := broadcast_start opened (.start (c.setReady key).experimentIndex)
    refine ⟨hcount.frame hframe (fun pkt hpkt hpeers => ?_) (fun hne => .inl (hlocal ▸ hne)),
      served_frame hframe fun hzero => absurd hzero (Nat.succ_ne_zero _), fun _ key' record hrecord => ?_⟩
    · rcases hout pkt hpkt with hold | hmsg
      · exact .inl hold
      · rw [hmsg] at hpeers
        cases hpeers
    · rw [hframe.processes] at hrecord
      exact (hcount.ready_iff key' record hrecord).mp
        (hgate.1 record (hreg.mem_records.mpr ⟨key', hrecord⟩))
  · rw [if_neg fun hboth => hgate hboth.2]
    refine ⟨h.setReady hkey fun hzero => ?_, fun hzero _ => ?_, fun hlt => absurd hlt (lt_irrefl _)⟩
    · -- the requests suffice, so the gate is shut because of somebody
      by_contra hnone
      refine hgate ⟨fun record hrecord => ?_, ?_, ?_⟩
      · by_contra hnotready
        exact hnone ⟨record, hrecord, eq_false_of_ne_true hnotready⟩
      · rw [totalRequested_setReady]
        exact (hserved hzero hcovered).1
      · obtain ⟨record, hrecord⟩ := Option.isSome_iff_exists.mp ((hreg.listed _).mp hreg.own)
        exact List.ne_nil_of_mem (hreg.mem_records.mpr ⟨_, hrecord⟩)
    · obtain ⟨htotal, hall⟩ := hserved hzero hcovered
      refine ⟨by rw [totalRequested_setReady]; exact htotal, fun record hrecord hempty => ?_⟩
      obtain ⟨old, hold, hempty'⟩ := (assigned_setReady c key (P := fun peers => peers = [])).mp ⟨record, hrecord, hempty⟩
      exact hall old hold hempty'

/-! ## Registering -/

theorem enroll_unsent (c : Coordinator) (ip : String) (port requestedPeers : Int) :
    (c.enroll ip port requestedPeers).outbox = c.outbox ∧
      (c.enroll ip port requestedPeers).localAssignments = c.localAssignments := by
  unfold enroll
  dsimp only
  split <;> exact ⟨rfl, rfl⟩

theorem exists_enrolled (h : Registered c) (ip : String) (port requestedPeers : Int) {record : ProcessRecord}
    (hrecord : record ∈ c.records) : ∃ record' ∈ (c.enroll ip port requestedPeers).records,
      record'.assignedPeers = record.assignedPeers ∧ record'.ready = record.ready := by
  obtain ⟨key, hkey⟩ := h.mem_records.mp hrecord
  have hmem : ∀ record', (c.enroll ip port requestedPeers).processes key = some record' →
      record' ∈ (c.enroll ip port requestedPeers).records :=
    fun record' hrecord' => (h.enroll ip port requestedPeers).mem_records.mpr ⟨key, hrecord'⟩
  rw [enroll_processes] at hmem
  by_cases hsame : key = processKey ip port
  · subst hsame
    refine ⟨_, hmem _ (Function.update_self _ _ _), ?_⟩
    rw [hkey]
    exact ⟨rfl, rfl⟩
  · exact ⟨record, hmem record (by rw [Function.update_of_ne hsame, hkey]), rfl, rfl⟩

theorem enrolled_cases (h : Registered c) {ip : String} {port requestedPeers : Int} {record' : ProcessRecord}
    (hrecord' : record' ∈ (c.enroll ip port requestedPeers).records) :
    (c.processes (processKey ip port) = none ∧ record'.assignedPeers = []) ∨
      ∃ record ∈ c.records, record'.assignedPeers = record.assignedPeers := by
  obtain ⟨key, hkey⟩ := (h.enroll ip port requestedPeers).mem_records.mp hrecord'
  rw [enroll_processes] at hkey
  by_cases hsame : key = processKey ip port
  · subst hsame
    rw [Function.update_self] at hkey
    obtain rfl := Option.some.inj hkey
    cases hexisting : c.processes (processKey ip port) with
    | none => exact .inl ⟨rfl, rfl⟩
    | some existing => exact .inr ⟨existing, h.mem_records.mpr ⟨_, hexisting⟩, rfl⟩
  · rw [Function.update_of_ne hsame] at hkey
    exact .inr ⟨record', h.mem_records.mpr ⟨key, hkey⟩, rfl⟩

theorem covered_enroll (h : Registered c) (ip : String) (port requestedPeers : Int) :
    (c.enroll ip port requestedPeers).Covered ↔ c.Covered := by
  unfold Covered
  rw [(setting_enroll c ip port requestedPeers).totalPeers]
  refine forall₂_congr fun i _ => ⟨?_, ?_⟩
  · rintro ⟨record', hrecord', hi⟩
    rcases enrolled_cases h hrecord' with ⟨-, hempty⟩ | ⟨record, hrecord, hsame⟩
    · rw [hempty] at hi
      cases hi
    · exact ⟨record, hrecord, hsame ▸ hi⟩
  · rintro ⟨record, hrecord, hi⟩
    obtain ⟨record', hrecord', hsame, -⟩ := exists_enrolled h ip port requestedPeers hrecord
    exact ⟨record', hrecord', hsame ▸ hi⟩

theorem Consistent.enroll (h : Consistent c reported) {ip : String} {port : Int} (hip : ip ≠ "") (hport : 0 < port)
    (requestedPeers : Int) : Consistent (c.enroll ip port requestedPeers) reported where
  registered := h.registered.enroll ip port requestedPeers
  ready_iff := by
    intro key record hrecord
    rw [enroll_processes] at hrecord
    by_cases hsame : key = processKey ip port
    · subst hsame
      rw [Function.update_self] at hrecord
      obtain rfl := Option.some.inj hrecord
      cases hexisting : c.processes (processKey ip port) with
      | none =>
        apply iff_of_false Bool.false_ne_true
        intro hreported
        have hlisted := (h.registered.listed _).mp (h.reported_listed _ hreported)
        rw [hexisting] at hlisted
        cases hlisted
      | some existing => exact h.ready_iff _ existing hexisting
    · rw [Function.update_of_ne hsame] at hrecord
      exact h.ready_iff key record hrecord
  reported_listed := fun key hkey =>
    (mem_enroll_order h.registered ip port requestedPeers key).mpr (.inl (h.reported_listed key hkey))
  address := by
    intro key hkey
    rcases (mem_enroll_order h.registered ip port requestedPeers key).mp hkey with hkey | rfl
    · exact h.address key hkey
    · exact ⟨hip, hport⟩
  sent := by
    rw [(enroll_unsent c ip port requestedPeers).1]
    intro pkt hpkt hpeers
    rw [mem_enroll_order h.registered, covered_enroll h.registered]
    exact (h.sent pkt hpkt hpeers).imp_left .inl
  own := by
    rw [(enroll_unsent c ip port requestedPeers).2, covered_enroll h.registered]
    exact h.own
  held := by
    intro record' hrecord' hne
    rw [covered_enroll h.registered]
    rcases enrolled_cases h.registered hrecord' with ⟨-, hempty⟩ | ⟨record, hrecord, hsame⟩
    · exact absurd hempty hne
    · exact h.held record hrecord (hsame ▸ hne)
  waiting := by
    rw [(setting_enroll c ip port requestedPeers).startBroadcasts]
    intro hzero
    obtain ⟨record, hrecord, hnotready⟩ := h.waiting hzero
    obtain ⟨record', hrecord', -, hready⟩ := exists_enrolled h.registered ip port requestedPeers hrecord
    exact ⟨record', hrecord', hready.trans hnotready⟩

/-! ## Distributing -/

theorem covered_assignPeers (h : Registered c) (hassigns : c.Assigns) : c.assignPeers.Covered := by
  intro i hi
  have hi : i < c.totalPeers.toNat := hi
  obtain ⟨key, record, hrecord, hmem⟩ := exists_mem_shareOf h hassigns (x := (i : Int)) (by omega)
  have hafter := assignPeers_processes h hassigns key
  rw [hrecord, Option.map_some, peersAfter, if_pos (reaches_of_mem_shareOf hmem)] at hafter
  exact ⟨_, (h.assignPeers hassigns).mem_records.mpr ⟨key, hafter⟩, hmem⟩

theorem Consistent.assignPeers (h : Consistent c reported) (hassigns : c.Assigns) :
    Consistent c.assignPeers reported := by
  have hprocesses := assignPeers_processes h.registered hassigns
  have hcovered := covered_assignPeers h.registered hassigns
  refine ⟨h.registered.assignPeers hassigns, fun key record hrecord => ?_, h.reported_listed, h.address,
    fun pkt hpkt hpeers => ⟨(h.sent pkt hpkt hpeers).1, hcovered⟩, fun _ => hcovered, fun _ _ _ => hcovered, fun hzero => ?_⟩
  · rw [hprocesses] at hrecord
    obtain ⟨old, hold, rfl⟩ := Option.map_eq_some_iff.mp hrecord
    exact h.ready_iff key old hold
  · obtain ⟨record, hrecord, hnotready⟩ := h.waiting hzero
    obtain ⟨key, hkey⟩ := h.registered.mem_records.mp hrecord
    refine ⟨{ record with assignedPeers := c.peersAfter key record }, ?_, hnotready⟩
    exact (h.registered.assignPeers hassigns).mem_records.mpr ⟨key, by rw [hprocesses, hkey]; rfl⟩

theorem served_assignPeers (h : Registered c) (hassigns : c.Assigns)
    (hserves : c.startBroadcasts = 0 → c.ServesEveryone) : c.assignPeers.Served := by
  intro hzero _
  have hprocesses := assignPeers_processes h hassigns
  have hrequested : c.assignPeers.records.map ProcessRecord.requestedPeers = c.records.map ProcessRecord.requestedPeers :=
    records_map_congr rfl hprocesses fun _ _ => rfl
  refine ⟨by rw [totalRequested, hrequested]; exact hassigns.1, fun record' hrecord' => ?_⟩
  obtain ⟨key, hkey⟩ := (h.assignPeers hassigns).mem_records.mp hrecord'
  rw [hprocesses] at hkey
  obtain ⟨record, hrecord, rfl⟩ := Option.map_eq_some_iff.mp hkey
  have hserved := hserves hzero key ((h.listed key).mpr (by rw [hrecord]; rfl)) record hrecord
  show c.peersAfter key record ≠ []
  unfold peersAfter
  split_ifs at hserved ⊢ with hreach
  · intro hempty
    have hdemand : 0 < demand c.processes key := by
      rw [demand_eq hrecord]
      omega
    rw [shareOf, sharedIds, List.map_eq_nil_iff] at hempty
    exact Lib.Allocation.share_ne_nil hdemand hreach hempty
  · exact hserved

theorem Consistent.distribute (h : Consistent c reported) (hassigns : c.Assigns) (shuffles : Shuffles) :
    Consistent (c.distributeAssignmentsIfReady shuffles) reported := by
  have hcovered := covered_assignPeers h.registered hassigns
  refine (h.assignPeers hassigns).frame (frame_distribute hassigns shuffles) (fun pkt hpkt _ => ?_) fun _ => .inr hcovered
  rcases mem_outbox_distribute h.registered hassigns hpkt with hold | hlisted
  · exact .inl hold
  · exact .inr ⟨hlisted, hcovered⟩

theorem Consistent.handleRegister (h : Consistent c reported) (hserved : c.Served) {ip : String}
    {port requestedPeers : Int} (hip : ip ≠ "") (hport : 0 < port)
    (hkeeps : c.startBroadcasts = 0 → c.KeepsEveryone ip port requestedPeers) (shuffles : Shuffles) :
    Consistent (c.handleRegister shuffles ip port requestedPeers) reported ∧
      (c.handleRegister shuffles ip port requestedPeers).Served := by
  have henroll := h.enroll hip hport requestedPeers
  have hcovered := covered_enroll h.registered ip port requestedPeers
  have hzero := (setting_enroll c ip port requestedPeers).startBroadcasts
  rw [handleRegister_eq]
  by_cases hresend : c.CanResendAssignment (processKey ip port)
  · rw [if_pos hresend]
    obtain ⟨existing, hexisting⟩ : ∃ existing, c.processes (processKey ip port) = some existing := by
      by_contra hnone
      rw [not_exists, ← Option.eq_none_iff_forall_ne_some] at hnone
      have hheld := hresend.2.2
      rw [hnone] at hheld
      exact hheld rfl
    have hcov : c.Covered := by
      refine h.held existing (h.registered.mem_records.mpr ⟨_, hexisting⟩) ?_
      have hheld := hresend.2.2
      rwa [hexisting] at hheld
    have hframe := frame_sendAssignmentToProcess (c.enroll ip port requestedPeers) (shuffles (processKey ip port))
      (processKey ip port) (enrolled (c.processes (processKey ip port)) ip port requestedPeers)
    refine ⟨henroll.frame hframe (fun pkt hpkt _ => ?_) fun _ => .inr (hcovered.mpr hcov), served_frame hframe ?_⟩
    · rcases mem_outbox_sendAssignment hpkt with hold | hkey
      · exact .inl hold
      · exact .inr ⟨(mem_enroll_order h.registered ip port requestedPeers _).mpr (.inr hkey), hcovered.mpr hcov⟩
    · intro hstart _
      rw [hzero] at hstart
      have hkeep := hkeeps hstart
      unfold KeepsEveryone at hkeep
      split_ifs at hkeep with hassigns
      · refine ⟨hassigns.1, fun record' hrecord' => ?_⟩
        rcases enrolled_cases h.registered hrecord' with ⟨hnew, -⟩ | ⟨record, hrecord, hsame⟩
        · rw [hnew] at hexisting
          cases hexisting
        · rw [hsame]
          exact (hserved hstart hcov).2 record hrecord
      · exact absurd hcov hkeep
  · rw [if_neg hresend]
    by_cases hassigns : (c.enroll ip port requestedPeers).Assigns
    · refine ⟨henroll.distribute hassigns shuffles, served_frame (frame_distribute hassigns shuffles) ?_⟩
      apply served_assignPeers henroll.registered hassigns
      intro hstart
      rw [hzero] at hstart
      have hkeep := hkeeps hstart
      rw [KeepsEveryone, if_pos hassigns] at hkeep
      exact hkeep.resolve_left hresend
    · rw [distributeAssignmentsIfReady, if_neg hassigns]
      refine ⟨henroll, fun hstart hcov => ?_⟩
      rw [hzero] at hstart
      have hkeep := hkeeps hstart
      rw [KeepsEveryone, if_neg hassigns] at hkeep
      exact absurd (hcovered.mp hcov) hkeep

theorem reset_records (c : Coordinator) (experiment : Experiment) (experimentIndex : Nat) :
    (c.reset experiment experimentIndex).records =
      [{ ip := c.myIp, port := c.myPort, requestedPeers := experiment.peersPerProcess }] := by
  have hown := reset_processes c experiment experimentIndex c.myKey
  rw [if_pos rfl] at hown
  show [c.myKey].filterMap _ = _
  rw [List.filterMap_cons, hown, List.filterMap_nil]

theorem consistent_reset (hleader : c.isLeader = true) (hip : c.myIp ≠ "") (hport : 0 < c.myPort)
    (houtbox : c.outbox = []) (experiment : Experiment) (experimentIndex : Nat) :
    Consistent (c.reset experiment experimentIndex) [] where
  registered := .reset c hleader experiment experimentIndex
  ready_iff := by
    intro key record hrecord
    rw [reset_processes] at hrecord
    split_ifs at hrecord
    rw [← Option.some.inj hrecord]
    simp
  reported_listed := by simp
  address := by
    intro key hkey
    obtain rfl : key = c.myKey := List.mem_singleton.mp hkey
    exact ⟨hip, hport⟩
  sent := by
    intro pkt hpkt
    rw [show (c.reset experiment experimentIndex).outbox = c.outbox from rfl, houtbox] at hpkt
    cases hpkt
  own := fun hne => absurd rfl hne
  held := by
    intro record hrecord hne
    rw [reset_records, List.mem_singleton] at hrecord
    rw [hrecord] at hne
    exact absurd rfl hne
  waiting := by
    intro _
    rw [reset_records]
    exact ⟨_, List.mem_cons_self, rfl⟩

theorem consistent_configureProcess (hleader : c.isLeader = true) (hip : c.myIp ≠ "") (hport : 0 < c.myPort)
    (houtbox : c.outbox = []) (shuffles : Shuffles) {experiment : Experiment} {experimentIndex : Nat}
    (htotal : 0 < (c.reset experiment experimentIndex).totalPeers) (hown : 0 < experiment.peersPerProcess) :
    Consistent (c.configureProcess shuffles experiment experimentIndex) [] ∧
      (c.configureProcess shuffles experiment experimentIndex).Served := by
  have hreset := consistent_reset hleader hip hport houtbox experiment experimentIndex
  unfold configureProcess
  dsimp only
  rw [if_pos hreset.registered.leader]
  by_cases hassigns : (c.reset experiment experimentIndex).Assigns
  · refine ⟨hreset.distribute hassigns shuffles, served_frame (frame_distribute hassigns shuffles) ?_⟩
    apply served_assignPeers hreset.registered hassigns
    intro _ key hkey record hrecord
    obtain rfl : key = c.myKey := List.mem_singleton.mp hkey
    have hrecord : (c.reset experiment experimentIndex).processes c.myKey = some record := hrecord
    rw [reset_processes, if_pos rfl] at hrecord
    rw [← Option.some.inj hrecord, if_pos]
    · exact hown
    · show Lib.Allocation.before _ [c.myKey] c.myKey < _
      rw [Lib.Allocation.before_cons_self]
      omega
  · rw [distributeAssignmentsIfReady, if_neg hassigns]
    refine ⟨hreset, fun _ hcovered => ?_⟩
    obtain ⟨record, hrecord, hmem⟩ := hcovered 0 (by omega)
    rw [reset_records, List.mem_singleton] at hrecord
    rw [hrecord] at hmem
    cases hmem

theorem experiment_report (c : Coordinator) (key : ProcessKey) :
    (c.setReady key).broadcastStartIfReady.experiment = c.experiment := by
  unfold broadcastStartIfReady
  split_ifs
  · exact (frame_broadcast _ frame_handleStart _).experiment
  · rfl

end Coordinator

/-! ## The gate over a run -/

namespace Leader
open Coordinator

theorem gate_step {s : Leader} (h : Consistent s.coordinator s.reported) (hserved : s.coordinator.Served)
    {e : LeaderEvent} (he : s.Accepts e) (hserves : s.Serves e) :
    Consistent (s.react e).coordinator (s.react e).reported ∧ (s.react e).coordinator.Served ∧
      (s.coordinator.startBroadcasts < (s.react e).coordinator.startBroadcasts →
        ∀ key record, (s.react e).coordinator.processes key = some record → key ∈ (s.react e).reported) := by
  rcases react_cases h.registered.leader he with hsame | ⟨shuffles, ip, port, requested, hip, hport, rfl, hreact⟩ |
    ⟨ip, port, ⟨pkt, hpkt, hkey, hpeers⟩, hreact⟩ | ⟨-, hlocal, hreact⟩
  · rw [hsame]
    exact ⟨h, hserved, fun hlt => absurd hlt (lt_irrefl _)⟩
  · rw [hreact]
    obtain ⟨hcons, hserved'⟩ := h.handleRegister hserved hip hport (hserves rfl) shuffles
    refine ⟨hcons, hserved', fun hlt => ?_⟩
    rw [(setting_handleRegister _ shuffles ip port requested).startBroadcasts] at hlt
    exact absurd hlt (lt_irrefl _)
  · obtain ⟨hlisted, hcovered⟩ := h.sent pkt hpkt hpeers
    rw [hkey] at hlisted
    obtain ⟨hip, hport⟩ := h.address _ hlisted
    have hhandled : s.coordinator.handleReady ip port =
        (s.coordinator.setReady (processKey ip port)).broadcastStartIfReady :=
      if_neg (not_or.mpr ⟨hip, not_le.mpr hport⟩)
    rw [hreact, hhandled]
    exact h.report hserved hcovered hlisted
  · have hmarked : s.coordinator.markReady = (s.coordinator.setReady s.coordinator.myKey).broadcastStartIfReady :=
      if_pos h.registered.leader
    rw [hreact, hmarked]
    exact h.report hserved (h.own hlocal) h.registered.own

theorem experiment_react {s : Leader} (hleader : s.coordinator.isLeader = true) {e : LeaderEvent} (he : s.Accepts e) :
    (s.react e).coordinator.experiment = s.coordinator.experiment := by
  rcases react_cases hleader he with hsame | ⟨shuffles, ip, port, requested, -, -, -, hreact⟩ | ⟨ip, port, -, hreact⟩ |
    ⟨-, -, hreact⟩
  · rw [hsame]
  · rw [hreact]
    exact (setting_handleRegister _ shuffles ip port requested).experiment
  · rw [hreact]
    show (s.coordinator.handleReady ip port).experiment = _
    unfold handleReady
    split_ifs
    · rfl
    · exact experiment_report _ _
  · rw [hreact]
    show s.coordinator.markReady.experiment = _
    rw [markReady, if_pos hleader]
    exact experiment_report _ _

theorem serves_of_opens {s : Leader} (hleader : s.coordinator.isLeader = true) {e : LeaderEvent}
    (hlt : s.coordinator.startBroadcasts < (s.react e).coordinator.startBroadcasts) : s.Serves e := by
  cases e with
  | markReady => trivial
  | receive msg shuffles =>
    cases msg with
    | register e ip port requestedPeers =>
      intro hcurrent _
      have hregister : (s.react (.receive (.register e ip port requestedPeers) shuffles)).coordinator =
          s.coordinator.handleRegister shuffles ip port requestedPeers := by
        simp [react, processMessage, Message.experimentIndex, hcurrent, hleader]
      rw [hregister, (setting_handleRegister _ shuffles ip port requestedPeers).startBroadcasts] at hlt
      exact absurd hlt (lt_irrefl _)
    | _ => trivial

theorem consistent {s : Leader} (hreached : machine.ReachedUnder Serves s) (htotal : 0 < s.coordinator.totalPeers)
    (hown : 0 < s.coordinator.experiment.peersPerProcess) :
    Consistent s.coordinator s.reported ∧ s.coordinator.Served := by
  induction hreached with
  | start hinit =>
    obtain ⟨c, shuffles, experiment, experimentIndex, hleader, hip, hport, houtbox, rfl⟩ := hinit
    have hexperiment : (c.configureProcess shuffles experiment experimentIndex).experiment = experiment := by
      have hreset := Registered.reset c hleader experiment experimentIndex
      unfold configureProcess
      dsimp only
      rw [if_pos hreset.leader]
      exact (setting_distribute _ shuffles).experiment
    refine consistent_configureProcess hleader hip hport houtbox shuffles ?_ ?_
    · rw [totalPeers, hexperiment] at htotal
      exact htotal
    · rwa [hexperiment] at hown
  | next hr hserves hstep ih =>
    obtain ⟨he, rfl⟩ := of_step hstep
    have hexperiment := experiment_react (registered hr).leader he
    rw [totalPeers, hexperiment] at htotal
    rw [hexperiment] at hown
    obtain ⟨h, hserved⟩ := ih htotal hown
    obtain ⟨hcons, hserved', -⟩ := gate_step h hserved he hserves
    exact ⟨hcons, hserved'⟩

/-- **Start gate.** As long as every registration leaves each process with peers, the leader has broadcast the
start once the peers are given out and all their owners have reported ready; and it never does so while
an owner has not reported. -/
theorem start_gate {s : Leader} (hreached : machine.ReachedUnder Serves s) (htotal : 0 < s.coordinator.totalPeers)
    (hown : 0 < s.coordinator.experiment.peersPerProcess) :
    (s.coordinator.Covered →
      (∀ key record, s.coordinator.processes key = some record → record.assignedPeers ≠ [] → key ∈ s.reported) →
        0 < s.coordinator.startBroadcasts) ∧
    ∀ e s', machine.step s e = some s' → s.coordinator.startBroadcasts < s'.coordinator.startBroadcasts →
      ∀ key record, s'.coordinator.processes key = some record → record.assignedPeers ≠ [] → key ∈ s'.reported := by
  obtain ⟨h, hserved⟩ := consistent hreached htotal hown
  refine ⟨fun hcovered hreported => ?_, fun e s' hstep hlt key record hrecord _ => ?_⟩
  · by_contra hshut
    have hzero : s.coordinator.startBroadcasts = 0 := by omega
    obtain ⟨record, hrecord, hnotready⟩ := h.waiting hzero
    obtain ⟨key, hkey⟩ := h.registered.mem_records.mp hrecord
    have hready := (h.ready_iff key record hkey).mpr (hreported key record hkey ((hserved hzero hcovered).2 record hrecord))
    rw [hnotready] at hready
    cases hready
  · obtain ⟨he, rfl⟩ := of_step hstep
    have hserves := serves_of_opens h.registered.leader hlt
    exact (gate_step h hserved he hserves).2.2 hlt key record hrecord

/-! ## Two processes -/

def bothReady : List LeaderEvent :=
  [.receive (.register 0 "b" 2 3) fun _ _ => 1, .markReady, .receive (.ready 0 "b" 2) fun _ _ => 1]

theorem start_gate_bothReady :
    ∃ s : Leader, s.coordinator.Covered ∧ s.reported = [processKey "a" 1, processKey "b" 2] ∧
      0 < s.coordinator.startBroadcasts := by
  have hrun : (machine.runUnder Serves chainLeader bothReady).map (fun s =>
      decide (s.coordinator.Covered ∧ s.reported = [processKey "a" 1, processKey "b" 2] ∧
        s.coordinator.registrationOrder = s.reported ∧ s.coordinator.totalPeers = 4 ∧
        s.coordinator.experiment.peersPerProcess = 1)) = some true := by
    decide +kernel
  obtain ⟨s, hs, hobserved⟩ := Option.map_eq_some_iff.mp hrun
  obtain ⟨hcovered, hreported, horder, htotal, hown⟩ := of_decide_eq_true hobserved
  have hinit : machine.ReachedUnder Serves chainLeader := .start ⟨_, _, _, _, rfl, by decide, by decide, rfl, rfl⟩
  have hreached := Lib.Machine.reachedUnder_of_runUnder hinit hs
  refine ⟨s, hcovered, hreported, ?_⟩
  refine (start_gate hreached (by rw [htotal]; decide) (by rw [hown]; decide)).1 hcovered fun key record hrecord _ => ?_
  rw [← horder, (registered hreached).listed, hrecord]
  rfl

/-- A third process registers when the four peers have been given out: it gets none and never reports, so the
gate stays shut although both owners have reported. -/
def spareProcess : List LeaderEvent :=
  [.receive (.register 0 "b" 2 3) fun _ _ => 1, .receive (.register 0 "c" 3 1) fun _ _ => 1, .markReady,
    .receive (.ready 0 "b" 2) fun _ _ => 1]

theorem spareProcess_blocks :
    ∃ s : Leader, machine.Reached s ∧ s.coordinator.Covered ∧
      (∀ key record, s.coordinator.processes key = some record → record.assignedPeers ≠ [] → key ∈ s.reported) ∧
      s.coordinator.startBroadcasts = 0 := by
  have hrun : (machine.run chainLeader spareProcess).map (fun s =>
      decide (s.coordinator.Covered ∧ s.reported = [processKey "a" 1, processKey "b" 2] ∧
        s.coordinator.registrationOrder = [processKey "a" 1, processKey "b" 2, processKey "c" 3] ∧
        s.coordinator.startBroadcasts = 0 ∧
        (s.coordinator.processes (processKey "c" 3)).map ProcessRecord.assignedPeers = some [])) = some true := by
    decide +kernel
  obtain ⟨s, hs, hobserved⟩ := Option.map_eq_some_iff.mp hrun
  obtain ⟨hcovered, hreported, horder, hzero, hspare⟩ := of_decide_eq_true hobserved
  have hreached : machine.Reached s := Lib.Machine.reached_of_run chainLeader_reached hs
  refine ⟨s, hreached, hcovered, fun key record hrecord hheld => ?_, hzero⟩
  have hlisted := ((registered hreached).listed key).mpr (by rw [hrecord]; rfl)
  rw [horder] at hlisted
  rw [hreported]
  rcases List.mem_cons.mp hlisted with rfl | hlisted
  · exact List.mem_cons_self
  · rcases List.mem_cons.mp hlisted with rfl | hlisted
    · exact List.mem_cons_of_mem _ List.mem_cons_self
    · rw [List.mem_singleton.mp hlisted] at hrecord
      rw [hrecord, Option.map_some, Option.some.injEq] at hspare
      exact absurd hspare hheld

end Leader

end Quantas.Tcp
