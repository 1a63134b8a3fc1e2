import Quantas.Tcp.Leader

/-!
# Who owns which peer

`Partitioned` says that the tables of the leader deal each id to one process and route it there.
`partition_iff` tells when a distribution establishes it: exactly when every process that still holds
peers of an earlier distribution is reached by the loop, which deals it new ones. A process behind the
one that gets the last id keeps what it had, and those ids have a second owner.
-/

namespace Quantas.Tcp.Coordinator
open Lib.Allocation

variable (c : Coordinator)

def Owns (key : ProcessKey) (x : Int) : Prop :=
  ∃ record, c.processes key = some record ∧ x ∈ record.assignedPeers

/-- Each id has one owner, and is routed to it: by a range, by the map of endpoints where that has the id
(the leader's handling of its own assignment leaves only its own peers there), and by the two together. -/
structure Partitioned (c : Coordinator) : Prop where
  disjoint : ∀ key key' x, c.Owns key x → c.Owns key' x → key = key'
  covers : ∀ x, (∃ key, c.Owns key x) ↔ 0 ≤ x ∧ x < c.totalPeers
  bounded : ∀ key record, c.processes key = some record →
    record.assignedPeers.Nodup ∧ record.assignedPeers.length ≤ record.requestedPeers.toNat
  ranges : ∀ key x, (∃ range ∈ c.peerRanges, range.firstId ≤ x ∧ x ≤ range.lastId ∧
    processKey range.ip range.port = key) ↔ c.Owns key x
  peers : ∀ e ∈ c.allPeers, c.Owns (processKey e.ip e.port) e.id
  endpoint : ∀ key x, c.Owns key x →
    ∃ e, c.endpointForPeer x = some e ∧ e.id = x ∧ processKey e.ip e.port = key

/-- The states in which the leader calls `distributeAssignmentsIfReady`: the tables as it is configured,
and those of any state reached with one more registration entered. -/
inductive Distributes : Coordinator → Prop
  | configured {c : Coordinator} (hleader : c.isLeader = true) (experiment : Experiment) (experimentIndex : Nat) :
      Distributes (c.reset experiment experimentIndex)
  | registered {s : Leader} (hs : Leader.machine.Reached s) {ip : String} {port : Int}
      (hresend : ¬ s.coordinator.CanResendAssignment (processKey ip port)) (requestedPeers : Int) :
      Distributes (s.coordinator.enroll ip port requestedPeers)

section after
variable {c}

theorem Distributes.registered_tables (h : Distributes c) : Registered c := by
  cases h with
  | configured hleader experiment experimentIndex => exact .reset _ hleader experiment experimentIndex
  | registered hs _ requestedPeers => exact (Leader.registered hs).enroll _ _ requestedPeers

/-- No process behind the loop's end holds peers. -/
def NoLeftover (c : Coordinator) : Prop :=
  ∀ key record, c.processes key = some record → record.assignedPeers ≠ [] → c.Reaches key

theorem mem_shareOf_iff {key : ProcessKey} {x : Int} :
    x ∈ c.shareOf key ↔ 0 ≤ x ∧ x.toNat ∈ share (demand c.processes) c.totalPeers.toNat c.registrationOrder key := by
  rw [shareOf, mem_sharedIds]

theorem reaches_of_mem_shareOf {key : ProcessKey} {x : Int} (hx : x ∈ c.shareOf key) : c.Reaches key := by
  rw [mem_shareOf_iff, mem_share] at hx
  unfold Reaches
  omega

theorem shareOf_unique (h : Registered c) {key key' : ProcessKey} (hkey : (c.processes key).isSome = true)
    (hkey' : (c.processes key').isSome = true) {x : Int} (hx : x ∈ c.shareOf key) (hx' : x ∈ c.shareOf key') :
    key = key' := by
  by_contra hne
  exact sharedIds_disjoint ((h.listed key).mpr hkey) ((h.listed key').mpr hkey') hne hx hx'

theorem totalRequested_le_demand (c : Coordinator) :
    c.totalRequested ≤ ((c.registrationOrder.map (demand c.processes)).sum : Nat) := by
  unfold totalRequested records
  induction c.registrationOrder with
  | nil => simp
  | cons key rest ih =>
    rw [List.filterMap_cons, List.map_cons, List.sum_cons]
    cases hrecord : c.processes key with
    | none =>
      simp only [demand, hrecord, Option.map_none, Option.getD_none, Nat.zero_add]
      exact ih
    | some record =>
      rw [demand_eq hrecord, List.map_cons, List.sum_cons, Nat.cast_add]
      omega

theorem exists_mem_shareOf (h : Registered c) (hassigns : c.Assigns) {x : Int} (hx : 0 ≤ x ∧ x < c.totalPeers) :
    ∃ key record, c.processes key = some record ∧ x ∈ c.shareOf key := by
  have hsum : c.totalPeers.toNat ≤ (c.registrationOrder.map (demand c.processes)).sum := by
    have := totalRequested_le_demand c
    have := hassigns.1
    omega
  obtain ⟨key, hkey, hmem⟩ := exists_mem_share h.nodup hsum (x := x.toNat) (by omega)
  obtain ⟨record, hrecord⟩ := Option.isSome_iff_exists.mp ((h.listed key).mp hkey)
  exact ⟨key, record, hrecord, mem_shareOf_iff.mpr ⟨hx.1, hmem⟩⟩

theorem owns_assignPeers (h : Registered c) (hassigns : c.Assigns) {key : ProcessKey} {x : Int} :
    c.assignPeers.Owns key x ↔ ∃ record, c.processes key = some record ∧ x ∈ c.peersAfter key record := by
  unfold Owns
  rw [assignPeers_processes h hassigns]
  constructor
  · rintro ⟨record', hrecord', hx⟩
    obtain ⟨record, hrecord, rfl⟩ := Option.map_eq_some_iff.mp hrecord'
    exact ⟨record, hrecord, hx⟩
  · rintro ⟨record, hrecord, hx⟩
    exact ⟨_, by rw [hrecord]; rfl, hx⟩

theorem mem_peersAfter (hnone : c.NoLeftover) {key : ProcessKey} {record : ProcessRecord}
    (hrecord : c.processes key = some record) {x : Int} : x ∈ c.peersAfter key record ↔ x ∈ c.shareOf key := by
  unfold peersAfter
  split_ifs with hreach
  · rfl
  · constructor
    · intro hx
      exact absurd (hnone key record hrecord (List.ne_nil_of_mem hx)) hreach
    · intro hx
      exact absurd (reaches_of_mem_shareOf hx) hreach

theorem dealing_routes (h : Registered c) (hassigns : c.Assigns) :
    (∀ e, e ∈ c.dealing.endpoints ↔ ∃ key record, c.processes key = some record ∧ e.id ∈ c.shareOf key ∧
      processKey e.ip e.port = key) ∧
    ∀ key x, (∃ range ∈ c.dealing.ranges, range.firstId ≤ x ∧ x ≤ range.lastId ∧
      processKey range.ip range.port = key) ↔ (c.processes key).isSome = true ∧ x ∈ c.shareOf key := by
  obtain ⟨served, hdealt, hserved, hreached⟩ :=
    dealing_spec (assigns_nonneg hassigns) h.nodup fun key hkey => (h.listed key).mp hkey
  have hin : ∀ key record x, c.processes key = some record → x ∈ c.shareOf key → key ∈ served := by
    intro key record x hrecord hx
    exact hreached key ((h.listed key).mpr (by rw [hrecord]; rfl)) (reaches_of_mem_shareOf hx)
  refine ⟨fun e => ?_, fun key x => ?_⟩
  · rw [hdealt.endpoints]
    constructor
    · rintro ⟨key, -, record, hrecord, hid, hip, hport⟩
      refine ⟨key, record, hrecord, hid, ?_⟩
      rw [hip, hport, ← h.keyed key record hrecord]
    · rintro ⟨key, record, hrecord, hid, hkey⟩
      have hsame : processKey e.ip e.port = processKey record.ip record.port :=
        hkey.trans (h.keyed key record hrecord)
      exact ⟨key, hin key record _ hrecord hid, record, hrecord, hid, (Prod.mk.inj hsame).1, (Prod.mk.inj hsame).2⟩
  · constructor
    · rintro ⟨range, hrange, hlo, hhi, hkey⟩
      obtain ⟨key', -, record, hrecord, hx, hip, hport⟩ :=
        (hdealt.ranges x range.ip range.port).mp ⟨range, hrange, hlo, hhi, rfl, rfl⟩
      have hsame : key' = key := by rw [← hkey, hip, hport, ← h.keyed key' record hrecord]
      rw [← hsame, hrecord]
      exact ⟨rfl, hx⟩
    · rintro ⟨hsome, hx⟩
      obtain ⟨record, hrecord⟩ := Option.isSome_iff_exists.mp hsome
      obtain ⟨range, hrange, hlo, hhi, hip, hport⟩ := (hdealt.ranges x record.ip record.port).mpr
        ⟨key, hin key record x hrecord hx, record, hrecord, hx, rfl, rfl⟩
      refine ⟨range, hrange, hlo, hhi, ?_⟩
      rw [hip, hport, ← h.keyed key record hrecord]

def Routed (c : Coordinator) : Prop :=
  ∀ e ∈ c.allPeers, ∃ range ∈ c.peerRanges, range.firstId ≤ e.id ∧ e.id ≤ range.lastId ∧
    processKey range.ip range.port = processKey e.ip e.port

theorem routed_handleAssignment (c : Coordinator) (peers : List PeerAssignment) (ranges : List ProcessEndpointRange) :
    (c.handleAssignment peers ranges).Routed := by
  refine List.foldlRecOn peers _ (motive := fun endpoints : List PeerEndpoint => ∀ e ∈ endpoints,
    ∃ range ∈ ranges, range.firstId ≤ e.id ∧ e.id ≤ range.lastId ∧
      processKey range.ip range.port = processKey e.ip e.port) (by simp) ?_
  intro endpoints hendpoints assignment _
  cases hrange : ranges.find? fun range => range.firstId ≤ assignment.id ∧ assignment.id ≤ range.lastId with
  | none => exact hendpoints
  | some range =>
    have hin := List.mem_of_find?_eq_some hrange
    have hfound := List.find?_some hrange
    have hcontains := of_decide_eq_true hfound
    intro e he
    dsimp only at he
    unfold emplace at he
    split_ifs at he
    · exact hendpoints e he
    · rcases List.mem_append.mp he with he | he
      · exact hendpoints e he
      · obtain rfl := List.mem_singleton.mp he
        exact ⟨range, hin, hcontains.1, hcontains.2, rfl⟩

theorem routed_sendAssignmentToProcess (h : c.Routed) (order : (n : Nat) → Equiv.Perm (Fin n)) (key : ProcessKey)
    (record : ProcessRecord) : (c.sendAssignmentToProcess order key record).Routed := by
  unfold sendAssignmentToProcess
  cases buildTopology c.experiment.topology c.experiment.identifiers (order _) with
  | none => exact h
  | some assignments =>
    dsimp only
    split_ifs
    · exact routed_handleAssignment _ _ _
    · exact h

theorem routed_distribute (h : Registered c) (hassigns : c.Assigns) (shuffles : Shuffles) :
    c.assignPeers.Routed ∧ (c.distributeAssignmentsIfReady shuffles).Routed := by
  obtain ⟨hendpoints, hranges⟩ := dealing_routes h hassigns
  have hassign : c.assignPeers.Routed := by
    intro e he
    obtain ⟨key, record, hrecord, hid, hkey⟩ := (hendpoints e).mp he
    obtain ⟨range, hrange, hlo, hhi, hsame⟩ := (hranges key e.id).mpr ⟨by rw [hrecord]; rfl, hid⟩
    exact ⟨range, hrange, hlo, hhi, hsame.trans hkey.symm⟩
  refine ⟨hassign, ?_⟩
  rw [distributeAssignmentsIfReady, if_pos hassigns]
  apply List.foldlRecOn _ _ hassign
  intro c' hc' key _
  cases c.dealing.snapshot key with
  | none => exact hc'
  | some record => exact routed_sendAssignmentToProcess hc' _ _ _

/-! ## The partition -/

theorem owns_of_noLeftover (h : Registered c) (hassigns : c.Assigns) (hnone : c.NoLeftover) {key : ProcessKey} {x : Int} :
    c.assignPeers.Owns key x ↔ (c.processes key).isSome = true ∧ x ∈ c.shareOf key := by
  rw [owns_assignPeers h hassigns, Option.isSome_iff_exists]
  constructor
  · rintro ⟨record, hrecord, hx⟩
    exact ⟨⟨record, hrecord⟩, (mem_peersAfter hnone hrecord).mp hx⟩
  · rintro ⟨⟨record, hrecord⟩, hx⟩
    exact ⟨record, hrecord, (mem_peersAfter hnone hrecord).mpr hx⟩

theorem bounded_of_noLeftover (hnone : c.NoLeftover) {key : ProcessKey} {record : ProcessRecord}
    (hrecord : c.processes key = some record) : (c.peersAfter key record).Nodup ∧
      (c.peersAfter key record).length ≤ record.requestedPeers.toNat := by
  unfold peersAfter
  split_ifs with hreach
  · refine ⟨(nodup_share key).map Int.ofNat_injective, ?_⟩
    rw [shareOf, sharedIds, List.length_map, ← demand_eq hrecord]
    exact length_share_le key
  · have hempty : record.assignedPeers = [] := by
      by_contra hne
      exact hreach (hnone key record hrecord hne)
    simp [hempty]

theorem partitioned_of_routed (h : Registered c) (hassigns : c.Assigns) (hnone : c.NoLeftover) {c' : Coordinator}
    (hframe : Frame c.assignPeers c') (hrouted : c'.Routed) : c'.Partitioned := by
  have howns : ∀ key x, c'.Owns key x ↔ (c.processes key).isSome = true ∧ x ∈ c.shareOf key := by
    intro key x
    rw [← owns_of_noLeftover h hassigns hnone, Owns, hframe.processes, Owns]
  have hranges : ∀ key x, (∃ range ∈ c'.peerRanges, range.firstId ≤ x ∧ x ≤ range.lastId ∧
      processKey range.ip range.port = key) ↔ c'.Owns key x := by
    intro key x
    rw [howns, hframe.peerRanges]
    exact (dealing_routes h hassigns).2 key x
  have hdisjoint : ∀ key key' x, c'.Owns key x → c'.Owns key' x → key = key' := by
    intro key key' x hx hx'
    rw [howns] at hx hx'
    exact shareOf_unique h hx.1 hx'.1 hx.2 hx'.2
  have hbelow : ∀ key x, c'.Owns key x → 0 ≤ x ∧ x < c'.totalPeers := by
    intro key x hx
    rw [hframe.totalPeers]
    show 0 ≤ x ∧ x < c.totalPeers
    exact mem_shareOf ((howns key x).mp hx).2
  have hpeers : ∀ e ∈ c'.allPeers, c'.Owns (processKey e.ip e.port) e.id := by
    intro e he
    obtain ⟨range, hrange, hlo, hhi, hsame⟩ := hrouted e he
    exact (hranges _ _).mp ⟨range, hrange, hlo, hhi, hsame⟩
  refine ⟨hdisjoint, fun x => ⟨fun ⟨key, hx⟩ => hbelow key x hx, fun hx => ?_⟩, fun key record hrecord => ?_, hranges,
    hpeers, fun key x hx => ?_⟩
  · rw [hframe.totalPeers] at hx
    obtain ⟨key, record, hrecord, hmem⟩ := exists_mem_shareOf h hassigns hx
    exact ⟨key, (howns key x).mpr ⟨by rw [hrecord]; rfl, hmem⟩⟩
  · rw [hframe.processes, assignPeers_processes h hassigns] at hrecord
    obtain ⟨record', hrecord', rfl⟩ := Option.map_eq_some_iff.mp hrecord
    exact bounded_of_noLeftover hnone hrecord'
  · unfold endpointForPeer
    cases hdirect : c'.allPeers.find? fun e => e.id = x with
    | some e =>
      have hfound := List.find?_some hdirect
      have hid : e.id = x := of_decide_eq_true hfound
      have howner := hpeers e (List.mem_of_find?_eq_some hdirect)
      exact ⟨e, rfl, hid, hdisjoint _ _ x (hid ▸ howner) hx⟩
    | none =>
      -- no range starts or ends at the id of no peer
      have hset : ∀ range ∈ c'.peerRanges, range.firstId ≤ x → x ≤ range.lastId →
          range.firstId ≠ NO_PEER_ID ∧ range.lastId ≠ NO_PEER_ID := by
        intro range hrange hlo hhi
        have hx := hbelow key x hx
        refine ⟨fun hfirst => ?_, fun hlast => ?_⟩
        · have hminus := (hranges (processKey range.ip range.port) (-1)).mp
            ⟨range, hrange, le_of_eq hfirst, by unfold InterfaceId at *; omega, rfl⟩
          have := hbelow _ _ hminus
          omega
        · rw [hlast, NO_PEER_ID] at hhi
          unfold InterfaceId at *
          omega
      obtain ⟨range, hrange, hlo, hhi, hkey⟩ := (hranges key x).mpr hx
      have hcontains := hset range hrange hlo hhi
      cases hlookup : c'.peerRanges.find? fun range => range.firstId ≠ NO_PEER_ID ∧ range.lastId ≠ NO_PEER_ID ∧
          range.firstId ≤ x ∧ x ≤ range.lastId with
      | none =>
        have := List.find?_eq_none.mp hlookup range hrange
        exact absurd (decide_eq_true ⟨hcontains.1, hcontains.2, hlo, hhi⟩) this
      | some range' =>
        have hfound := List.find?_some hlookup
        have hcontains' := of_decide_eq_true hfound
        have howner := (hranges (processKey range'.ip range'.port) x).mp
          ⟨range', List.mem_of_find?_eq_some hlookup, hcontains'.2.2.1, hcontains'.2.2.2, rfl⟩
        exact ⟨_, rfl, rfl, hdisjoint _ _ x howner hx⟩

/-- **Partition of the peers.** After a distribution every id below `totalPeers` has exactly one owner, no
process has more peers than it asked for, and the ranges and endpoints lead to the owner, if and only if
the loop reaches every process that held peers before. -/
theorem partition_iff (h : Distributes c) (hassigns : c.Assigns) (shuffles : Shuffles) :
    (c.assignPeers.Partitioned ∧
        (∀ key x, c.assignPeers.Owns key x → ∃ e ∈ c.assignPeers.allPeers, e.id = x ∧ processKey e.ip e.port = key) ∧
        (c.distributeAssignmentsIfReady shuffles).Partitioned) ↔
      c.NoLeftover := by
  have hreg := h.registered_tables
  constructor
  · rintro ⟨hpart, -, -⟩ key record hrecord hheld
    by_contra hreach
    obtain ⟨x, hx⟩ := List.exists_mem_of_ne_nil _ hheld
    have hkeeps : c.assignPeers.Owns key x :=
      (owns_assignPeers hreg hassigns).mpr ⟨record, hrecord, by rwa [peersAfter, if_neg hreach]⟩
    -- the id is dealt again, to a process that the loop reaches
    obtain ⟨key', record', hrecord', hx'⟩ := exists_mem_shareOf hreg hassigns (hreg.inRange key record hrecord x hx)
    have hreach' := reaches_of_mem_shareOf hx'
    have hgets : c.assignPeers.Owns key' x :=
      (owns_assignPeers hreg hassigns).mpr ⟨record', hrecord', by rwa [peersAfter, if_pos hreach']⟩
    exact hreach (hpart.disjoint key key' x hkeeps hgets ▸ hreach')
  · intro hnone
    obtain ⟨hassign, hsent⟩ := routed_distribute hreg hassigns shuffles
    refine ⟨partitioned_of_routed hreg hassigns hnone (Frame.refl _) hassign, fun key x hx => ?_,
      partitioned_of_routed hreg hassigns hnone (frame_distribute hassigns shuffles) hsent⟩
    obtain ⟨hsome, hx⟩ := (owns_of_noLeftover hreg hassigns hnone).mp hx
    obtain ⟨record, hrecord⟩ := Option.isSome_iff_exists.mp hsome
    refine ⟨{ id := x, ip := record.ip, port := record.port }, ?_, rfl, (hreg.keyed key record hrecord).symm⟩
    exact ((dealing_routes hreg hassigns).1 _).mpr ⟨key, record, hrecord, hx, (hreg.keyed key record hrecord).symm⟩

theorem noLeftover_of_records (h : Registered c) (hempty : ∀ record ∈ c.records, record.assignedPeers = []) :
    c.NoLeftover := by
  intro key record hrecord hheld
  exact absurd (hempty record (h.mem_records.mpr ⟨key, hrecord⟩)) hheld

end after

/-! ## Three processes for four peers -/

def chainConfig : Coordinator where
  experiment := { topology := { initialPeers := some 4, type := .chain }, peersPerProcess := 1 }
  isLeader := true
  myIp := "a"
  myPort := 1
  leaderIp := "a"
  leaderPort := 1

def chainLeader : Leader where
  coordinator := chainConfig.configureProcess (fun _ _ => 1) chainConfig.experiment 0

theorem chainLeader_reached : Leader.machine.Reached chainLeader :=
  .start ⟨_, _, _, _, rfl, by decide, by decide, rfl, rfl⟩

theorem partition_iff_first :
    (chainLeader.coordinator.enroll "b" 2 3).Distributes ∧
      ((chainLeader.coordinator.enroll "b" 2 3).distributeAssignmentsIfReady fun _ _ => 1).Partitioned := by
  have hresend : ¬ chainLeader.coordinator.CanResendAssignment (processKey "b" 2) := by decide +kernel
  have hdistributes := Distributes.registered chainLeader_reached hresend 3
  have hassigns : (chainLeader.coordinator.enroll "b" 2 3).Assigns := by decide +kernel
  have hempty := noLeftover_of_records hdistributes.registered_tables (by decide +kernel)
  exact ⟨hdistributes, ((partition_iff hdistributes hassigns _).mpr hempty).2.2⟩

def chainRun : List LeaderEvent :=
  [.receive (.register 0 "b" 2 1) fun _ _ => 1, .receive (.register 0 "c" 3 2) fun _ _ => 1]

/-- Of two processes that have registered the second one registers again, for three peers: it is dealt the ids
of the third as well, and the loop ends before the third is reached, so both own peer 2. -/
theorem reregistered_overlap :
    ∃ c, Distributes c ∧ c.Assigns ∧ ∀ shuffles, ¬ (c.distributeAssignmentsIfReady shuffles).Partitioned := by
  have hrun : (Leader.machine.run chainLeader chainRun).map (fun s =>
      (decide (s.coordinator.CanResendAssignment (processKey "b" 2)),
        decide (s.coordinator.enroll "b" 2 3).Assigns,
        ((s.coordinator.enroll "b" 2 3).assignPeers.processes (processKey "b" 2)).map ProcessRecord.assignedPeers,
        ((s.coordinator.enroll "b" 2 3).assignPeers.processes (processKey "c" 3)).map ProcessRecord.assignedPeers)) =
      some (false, true, some [1, 2, 3], some [2, 3]) := by decide +kernel
  obtain ⟨s, hs, hobserved⟩ := Option.map_eq_some_iff.mp hrun
  obtain ⟨hresend, hassigns, hb, hc⟩ : _ ∧ _ ∧ _ ∧ _ := by simpa only [Prod.mk.injEq] using hobserved
  have hassigns := of_decide_eq_true hassigns
  refine ⟨_, .registered (Lib.Machine.reached_of_run chainLeader_reached hs) (of_decide_eq_false hresend) 3, hassigns,
    fun shuffles hpart => ?_⟩
  have howns : ∀ key peers, ((s.coordinator.enroll "b" 2 3).assignPeers.processes key).map ProcessRecord.assignedPeers =
      some peers → 2 ∈ peers → ((s.coordinator.enroll "b" 2 3).distributeAssignmentsIfReady shuffles).Owns key 2 := by
    intro key peers hpeers hmem
    obtain ⟨record, hrecord, rfl⟩ := Option.map_eq_some_iff.mp hpeers
    exact ⟨record, by rw [(frame_distribute hassigns shuffles).processes, hrecord], hmem⟩
  have hsame := hpart.disjoint _ _ 2 (howns _ _ hb (by decide)) (howns _ _ hc (by decide))
  exact absurd hsame (by decide)

end Quantas.Tcp.Coordinator
