import Quantas.Tcp.Partition

/-!
# One graph for all processes

A distribution builds the topology once for every process it sends to. With random identifiers each of
these calls shuffles anew, so two processes can be told of two graphs. `common_graph_iff` says when the
neighbour sets they get are those of one graph: when the peers of one process and the peers of another
stand at joined places in the one's shuffle exactly if they do in the other's.
-/

namespace Quantas.Tcp.Coordinator

variable {c : Coordinator}

/-! ## What each process is sent -/

/-- The assignments that the process was sent: in a message, or at the leader itself directly. -/
def SentTo (c : Coordinator) (key : ProcessKey) (a : PeerAssignment) : Prop :=
  if key = c.myKey then a ∈ c.localAssignments
  else ∃ e peers ranges, (key, .assignment e peers ranges) ∈ c.outbox ∧ a ∈ peers

/-- The peers of a message for a process, with their neighbours in the graph built for it. -/
def Tells (c : Coordinator) (shuffles : Shuffles) (key : ProcessKey) (peers : List InterfaceId)
    (a : PeerAssignment) : Prop :=
  ∃ assignments, buildTopology c.experiment.topology c.experiment.identifiers (shuffles key _) = some assignments ∧
    a.id ∈ peers ∧ a.neighbors = neighborsOf assignments a.id

theorem sentTo_handleAssignment {peers : List PeerAssignment} {ranges : List ProcessEndpointRange} {key : ProcessKey}
    {a : PeerAssignment} :
    SentTo (c.handleAssignment peers ranges) key a ↔ if key = c.myKey then a ∈ peers else SentTo c key a := by
  show (if key = c.myKey then a ∈ peers else _) ↔ _
  rw [SentTo]
  split_ifs <;> rfl

theorem sentTo_sendJson {ip : String} {port : Int} {e : Nat} {peers : List PeerAssignment}
    {ranges : List ProcessEndpointRange} {key : ProcessKey} {a : PeerAssignment} :
    SentTo (c.sendJson ip port (.assignment e peers ranges)) key a ↔
      SentTo c key a ∨ key ≠ c.myKey ∧ key = processKey ip port ∧ a ∈ peers := by
  show (if key = c.myKey then _ else _) ↔ _
  rw [SentTo]
  split_ifs with hown
  · simp [hown, sendJson]
  · constructor
    · rintro ⟨e', peers', ranges', hpkt, ha⟩
      rcases List.mem_append.mp hpkt with hpkt | hpkt
      · exact .inl ⟨e', peers', ranges', hpkt, ha⟩
      · obtain ⟨hkey, hmsg⟩ := Prod.mk.inj (List.mem_singleton.mp hpkt)
        obtain ⟨-, rfl, -⟩ := Message.assignment.inj hmsg
        exact .inr ⟨hown, hkey, ha⟩
    · rintro (⟨e', peers', ranges', hpkt, ha⟩ | ⟨-, rfl, ha⟩)
      · exact ⟨e', peers', ranges', List.mem_append_left _ hpkt, ha⟩
      · exact ⟨e, peers, ranges, List.mem_append_right _ List.mem_cons_self, ha⟩

theorem sentTo_sendAssignmentToProcess {shuffles : Shuffles} {key : ProcessKey} {record : ProcessRecord}
    (hkey : key = processKey record.ip record.port)
    (hbuilt : (buildTopology c.experiment.topology c.experiment.identifiers (shuffles key _)).isSome = true)
    (key' : ProcessKey) (a : PeerAssignment) :
    SentTo (c.sendAssignmentToProcess (shuffles key) key record) key' a ↔
      (SentTo c key' a ∧ ¬ (key' = key ∧ key = c.myKey)) ∨ key' = key ∧ Tells c shuffles key record.assignedPeers a := by
  obtain ⟨assignments, hassignments⟩ := Option.isSome_iff_exists.mp hbuilt
  have hpeers : a ∈ (record.assignedPeers.map fun id =>
      ({ id := id, neighbors := neighborsOf assignments id } : PeerAssignment)) ↔
        Tells c shuffles key record.assignedPeers a := by
    unfold Tells
    rw [hassignments, List.mem_map]
    constructor
    · rintro ⟨id, hid, rfl⟩
      exact ⟨assignments, rfl, hid, rfl⟩
    · rintro ⟨_, hsame, hid, hneighbors⟩
      obtain rfl := Option.some.inj hsame
      exact ⟨a.id, hid, by rw [← hneighbors]⟩
  unfold sendAssignmentToProcess
  rw [hassignments]
  dsimp only
  by_cases hown : key = c.myKey
  · rw [if_pos hown, sentTo_handleAssignment, hpeers, hown]
    split_ifs with hself <;> simp [hself]
  · rw [if_neg hown, sentTo_sendJson, hpeers, ← hkey]
    by_cases hself : key' = key
    · simp [hself, hown]
    · simp [hself]

/-! ## What a distribution sends -/

theorem built_of_assigns (hassigns : c.Assigns) (hundirected : Undirected c.experiment.topology)
    (order : Equiv.Perm (Fin c.experiment.topology.size)) :
    (buildTopology c.experiment.topology c.experiment.identifiers order).isSome = true := by
  have hnonneg : ¬ getInt (c.experiment.topology.initialPeers.getD 0) < 0 := not_lt.mpr (assigns_nonneg hassigns)
  rw [buildTopology, if_neg hnonneg, edges_undirected hundirected]
  rfl

theorem sentTo_foldl (shuffles : Shuffles) {records : ProcessKey → Option ProcessRecord} {keys : List ProcessKey}
    (hnodup : keys.Nodup) (hkeyed : ∀ key record, records key = some record → key = processKey record.ip record.port)
    (hbuilt : ∀ order, (buildTopology c.experiment.topology c.experiment.identifiers order).isSome = true)
    (key : ProcessKey) (a : PeerAssignment) :
    SentTo (keys.foldl (fun c' key => match records key with
        | none => c'
        | some record => c'.sendAssignmentToProcess (shuffles key) key record) c) key a ↔
      (SentTo c key a ∧ ¬ (key ∈ keys ∧ (records key).isSome = true ∧ key = c.myKey)) ∨
        key ∈ keys ∧ ∃ record, records key = some record ∧ Tells c shuffles key record.assignedPeers a := by
  induction keys generalizing c with
  | nil => simp
  | cons first keys ih =>
    obtain ⟨hnotin, hrest⟩ := List.nodup_cons.mp hnodup
    rw [List.foldl_cons]
    cases hrecord : records first with
    | none =>
      dsimp only
      rw [ih hrest hbuilt]
      by_cases hfirst : key = first
      · subst hfirst
        simp [hnotin, hrecord]
      · simp [hfirst]
    | some record =>
      dsimp only
      have hframe := c.frame_sendAssignmentToProcess (shuffles first) first record
      rw [ih hrest (by rw [hframe.experiment]; exact hbuilt),
        sentTo_sendAssignmentToProcess (hkeyed first record hrecord) (hbuilt _), hframe.myKey]
      have htells : ∀ key peers, Tells (c.sendAssignmentToProcess (shuffles first) first record) shuffles key peers a ↔
          Tells c shuffles key peers a := by
        intro key peers
        unfold Tells
        rw [hframe.experiment]
      simp only [htells]
      by_cases hfirst : key = first
      · subst hfirst
        simp [hnotin, hrecord]
      · simp [hfirst]

theorem sentTo_distribute (h : Registered c) (hassigns : c.Assigns) (hundirected : Undirected c.experiment.topology)
    (houtbox : c.outbox = []) (shuffles : Shuffles) (key : ProcessKey) (a : PeerAssignment) :
    SentTo (c.distributeAssignmentsIfReady shuffles) key a ↔
      ∃ record, c.processes key = some record ∧ Tells c shuffles key (c.peersAfter key record) a := by
  have hkeyed : ∀ key record, c.dealing.snapshot key = some record → key = processKey record.ip record.port := by
    intro key record hrecord
    rw [dealing_snapshot h hassigns] at hrecord
    obtain ⟨record', hrecord', rfl⟩ := Option.map_eq_some_iff.mp hrecord
    exact h.keyed key record' hrecord'
  have hsome : (c.dealing.snapshot c.myKey).isSome = true := by
    rw [dealing_snapshot h hassigns, Option.isSome_map]
    exact (h.listed _).mp h.own
  have hfold : SentTo (c.distributeAssignmentsIfReady shuffles) key a ↔
      (SentTo c.assignPeers key a ∧
        ¬ (key ∈ c.registrationOrder ∧ (c.dealing.snapshot key).isSome = true ∧ key = c.myKey)) ∨
        key ∈ c.registrationOrder ∧
          ∃ record, c.dealing.snapshot key = some record ∧ Tells c shuffles key record.assignedPeers a := by
    rw [distributeAssignmentsIfReady, if_pos hassigns]
    exact sentTo_foldl (c := c.assignPeers) shuffles h.nodup hkeyed (built_of_assigns (c := c) hassigns hundirected) key a
  rw [hfold, dealing_snapshot h hassigns, or_iff_right]
  · constructor
    · rintro ⟨-, record', hrecord', htells⟩
      obtain ⟨record, hrecord, rfl⟩ := Option.map_eq_some_iff.mp hrecord'
      exact ⟨record, hrecord, htells⟩
    · rintro ⟨record, hrecord, htells⟩
      refine ⟨(h.listed key).mpr (by rw [hrecord]; rfl), _, by rw [hrecord]; rfl, htells⟩
  · -- nothing was sent before, and the leader's own assignment is replaced
    rintro ⟨hsent, hnotown⟩
    by_cases hown : key = c.myKey
    · rw [hown, ← dealing_snapshot h hassigns] at hnotown
      exact hnotown ⟨h.own, hsome, rfl⟩
    · rw [SentTo, if_neg (show ¬ key = c.assignPeers.myKey from hown)] at hsent
      obtain ⟨e, peers, ranges, hpkt, -⟩ := hsent
      rw [show c.assignPeers.outbox = c.outbox from rfl, houtbox] at hpkt
      cases hpkt

/-! ## The common graph -/

/-- The neighbour sets of the peers that the processes are told of are those of one graph. -/
def OneGraph (c : Coordinator) : Prop :=
  ∀ key key' a b, c.SentTo key a → c.SentTo key' b → (b.id ∈ a.neighbors ↔ a.id ∈ b.neighbors)

/-- The order of the ids that the graph built for the process has. -/
def orderFor (c : Coordinator) (shuffles : Shuffles) (key : ProcessKey) : Equiv.Perm (Fin c.experiment.topology.size) :=
  shuffled c.experiment.topology c.experiment.identifiers (shuffles key _)

/-- A peer of one process and a peer of another stand at joined places in both their shuffles or in none. -/
def ShufflesAgree (c : Coordinator) (shuffles : Shuffles) : Prop :=
  ∀ key record key' record' p q, c.processes key = some record → c.processes key' = some record' →
    p ∈ c.peersAfter key record → q ∈ c.peersAfter key' record' →
    (Linked c.experiment.topology (standsAt (c.orderFor shuffles key) p) (standsAt (c.orderFor shuffles key) q) ↔
      Linked c.experiment.topology (standsAt (c.orderFor shuffles key') p) (standsAt (c.orderFor shuffles key') q))

theorem shufflesAgree_of_fixed (hfixed : c.experiment.identifiers ≠ "random") (shuffles : Shuffles) :
    c.ShufflesAgree shuffles := by
  intro key record key' record' p q _ _ _ _
  have hsame : ∀ key, c.orderFor shuffles key = 1 := fun key => if_neg hfixed
  rw [hsame, hsame]

theorem peersAfter_inRange (h : Registered c) {key : ProcessKey} {record : ProcessRecord}
    (hrecord : c.processes key = some record) {p : Int} (hp : p ∈ c.peersAfter key record) :
    0 ≤ p ∧ p < c.experiment.topology.size := by
  have hbelow : 0 ≤ p ∧ p < c.totalPeers := by
    unfold peersAfter at hp
    split_ifs at hp
    · exact mem_shareOf hp
    · exact h.inRange key record hrecord p hp
  have hsize : c.totalPeers ≤ c.experiment.topology.size := Int.self_le_toNat _
  omega

/-- **One graph for all processes.** The neighbour sets that a distribution sends, which are what an outbox
that was empty has afterwards, are those of one graph if and only if the shuffles of the processes agree on
which of their peers stand at joined places. -/
theorem common_graph_iff (h : Distributes c) (hassigns : c.Assigns) (hundirected : Undirected c.experiment.topology)
    (shuffles : Shuffles) :
    (({ c with outbox := [] } : Coordinator).distributeAssignmentsIfReady shuffles).OneGraph ↔
      c.ShufflesAgree shuffles := by
  have hreg := h.registered_tables
  have hempty : Registered { c with outbox := [] } :=
    ⟨hreg.leader, hreg.own, hreg.nodup, hreg.listed, hreg.keyed, hreg.inRange⟩
  have hsent := sentTo_distribute hempty hassigns hundirected rfl shuffles
  have hneighbors : ∀ key (p q : Int) assignments, 0 ≤ p ∧ p < c.experiment.topology.size →
      0 ≤ q ∧ q < c.experiment.topology.size →
      buildTopology c.experiment.topology c.experiment.identifiers (shuffles key _) = some assignments →
      (q ∈ neighborsOf assignments p ↔ Linked c.experiment.topology (standsAt (c.orderFor shuffles key) p)
        (standsAt (c.orderFor shuffles key) q)) :=
    fun key p q assignments hp hq hbuilt => mem_neighbors_iff hundirected hbuilt hp hq
  constructor
  · intro hgraph key record key' record' p q hrecord hrecord' hp hq
    obtain ⟨built, hbuilt⟩ := Option.isSome_iff_exists.mp (built_of_assigns hassigns hundirected (shuffles key _))
    obtain ⟨built', hbuilt'⟩ := Option.isSome_iff_exists.mp (built_of_assigns hassigns hundirected (shuffles key' _))
    have hp' := peersAfter_inRange hreg hrecord hp
    have hq' := peersAfter_inRange hreg hrecord' hq
    have hsym := hgraph key key' ⟨p, neighborsOf built p⟩ ⟨q, neighborsOf built' q⟩
      ((hsent _ _).mpr ⟨record, hrecord, built, hbuilt, hp, rfl⟩)
      ((hsent _ _).mpr ⟨record', hrecord', built', hbuilt', hq, rfl⟩)
    rw [← hneighbors key p q built hp' hq' hbuilt, hsym, hneighbors key' q p built' hq' hp' hbuilt', linked_comm]
  · intro hagree key key' a b ha hb
    obtain ⟨record, hrecord, built, hbuilt, hp, hn⟩ := (hsent key a).mp ha
    obtain ⟨record', hrecord', built', hbuilt', hq, hn'⟩ := (hsent key' b).mp hb
    have hp' := peersAfter_inRange hreg hrecord hp
    have hq' := peersAfter_inRange hreg hrecord' hq
    rw [hn, hn', hneighbors key _ _ built hp' hq' hbuilt, hneighbors key' _ _ built' hq' hp' hbuilt',
      hagree key record key' record' a.id b.id hrecord hrecord' hp hq, linked_comm]

/-! ## Two processes on a chain -/

/-- A leader for a chain of three peers with random identifiers, of which it takes one. -/
def randomConfig : Coordinator where
  experiment :=
    { topology := { initialPeers := some 3, type := .chain }, identifiers := "random", peersPerProcess := 1 }
  isLeader := true
  myIp := "a"
  myPort := 1
  leaderIp := "a"
  leaderPort := 1

def randomLeader : Leader where
  coordinator := randomConfig.configureProcess (fun _ _ => 1) randomConfig.experiment 0

theorem randomLeader_reached : Leader.machine.Reached randomLeader :=
  .start ⟨_, _, _, _, rfl, by decide, by decide, rfl, rfl⟩

def swapFirst : (n : Nat) → Equiv.Perm (Fin n)
  | 0 | 1 => 1
  | _ + 2 => Equiv.swap 0 1

theorem common_graph_iff_sameShuffle :
    (({ randomLeader.coordinator.enroll "b" 2 2 with outbox := [] } : Coordinator).distributeAssignmentsIfReady
      fun _ => swapFirst).OneGraph := by
  have hresend : ¬ randomLeader.coordinator.CanResendAssignment (processKey "b" 2) := by decide +kernel
  refine (common_graph_iff (.registered randomLeader_reached hresend 2) (by decide +kernel) (by decide +kernel) _).mpr ?_
  intro key record key' record' p q _ _ _ _
  rfl

/-- The leader's chain is 0, 1, 2, and that of the second process, which gets the peers 1 and 2, is 1, 0, 2:
there 0 is a neighbour of 2, but 2 is none of 0. -/
theorem twoShuffles_differ :
    ∃ c shuffles, Distributes c ∧ c.Assigns ∧ Undirected c.experiment.topology ∧
      ¬ (({ c with outbox := [] } : Coordinator).distributeAssignmentsIfReady shuffles).OneGraph := by
  have hresend : ¬ randomLeader.coordinator.CanResendAssignment (processKey "b" 2) := by decide +kernel
  refine ⟨randomLeader.coordinator.enroll "b" 2 2, fun key => if key = processKey "b" 2 then swapFirst else fun _ => 1,
    .registered randomLeader_reached hresend 2, by decide +kernel, by decide +kernel, fun hgraph => ?_⟩
  have hsent := hgraph (processKey "a" 1) (processKey "b" 2) ⟨0, {1}⟩ ⟨2, {0}⟩ ?_ ?_
  · exact absurd (hsent.mpr (by decide)) (by decide)
  · rw [SentTo, if_pos (by decide +kernel)]
    decide +kernel
  · rw [SentTo, if_neg (by decide +kernel)]
    exact ⟨0, [⟨1, {0}⟩, ⟨2, {0}⟩], [⟨0, 0, "a", 1⟩, ⟨1, 2, "b", 2⟩], by decide +kernel, by decide⟩

end Quantas.Tcp.Coordinator
