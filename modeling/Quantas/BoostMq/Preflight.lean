import Quantas.BoostMq.Completion
import Quantas.Network.Renaming

/-!
# The assignments a worker accepts

Before it starts any process the leader builds the assignments of a description, and each worker checks the one it
reads. The planner's two edge functions keep every id in range, but only `addUndirectedEdge` compares the ends of an
edge. The user list is checked by its own text; the unidirectional ring is not, and on one peer it leads back to its
start.
-/

namespace Quantas.BoostMq
open TopologyPlanner
open Network (place)

/-- The message about an id outside `0, …, totalPeers - 1`. -/
def outside (what : String) (id totalPeers : Int) : String :=
  "error: " ++ what ++ " id " ++ toString id ++ " is outside [0, " ++ toString (totalPeers - 1) ++ "]"

/-- The checks of a worker on its assignment; the neighbours are visited in ascending order. -/
def validateAssignment (assignment : PeerAssignment) (totalPeers : Int) : Except String Unit :=
  if totalPeers ≤ 0 then .error "error: totalPeers must be > 0"
  else if assignment.id < 0 ∨ totalPeers ≤ assignment.id then
    .error (outside "assigned peer" assignment.id totalPeers)
  else if assignment.id ∈ assignment.neighbors then .error "error: assignment neighbors include self"
  else
    match (ascending assignment.neighbors).find? (fun q => q < 0 ∨ totalPeers ≤ q) with
    | some neighbor => .error (outside "neighbor" neighbor totalPeers)
    | none => .ok ()

structure WellFormed (a : PeerAssignment) (n : Int) : Prop where
  id_range : 0 ≤ a.id ∧ a.id < n
  no_self : a.id ∉ a.neighbors
  neighbors_range : ∀ q ∈ a.neighbors, 0 ≤ q ∧ q < n

theorem validateAssignment_eq_ok {a : PeerAssignment} {n : Int} :
    validateAssignment a n = .ok () ↔ WellFormed a n := by
  unfold validateAssignment
  by_cases hn : n ≤ 0
  · rw [if_pos hn]
    refine ⟨fun h => (by cases h), ?_⟩
    rintro ⟨hid, -, -⟩
    unfold InterfaceId at hid
    omega
  rw [if_neg hn]
  by_cases hid : a.id < 0 ∨ n ≤ a.id
  · rw [if_pos hid]
    refine ⟨fun h => (by cases h), ?_⟩
    rintro ⟨hrange, -, -⟩
    unfold InterfaceId at hrange hid
    omega
  rw [if_neg hid]
  by_cases hself : a.id ∈ a.neighbors
  · rw [if_pos hself]
    exact ⟨fun h => (by cases h), fun h => absurd hself h.no_self⟩
  rw [if_neg hself]
  cases hfind : (ascending a.neighbors).find? (fun q => q < 0 ∨ n ≤ q) with
  | some q =>
    have hq := mem_ascending.mp (List.mem_of_find?_eq_some hfind)
    have hout : q < 0 ∨ n ≤ q := by simpa using List.find?_some hfind
    refine ⟨fun h => (by cases h), ?_⟩
    rintro ⟨-, -, hrange⟩
    have hin := hrange q hq
    unfold InterfaceId at hout hin
    omega
  | none =>
    refine ⟨fun _ => ⟨?_, hself, ?_⟩, fun _ => rfl⟩
    · unfold InterfaceId at hid ⊢
      omega
    · intro q hq
      have hout := List.find?_eq_none.mp hfind q (mem_ascending.mpr hq)
      simp only [decide_eq_true_eq] at hout
      unfold InterfaceId
      omega

section loops
variable {t : TopologyConfig}

theorem self_edge_iff {order : Equiv.Perm (Fin t.size)} {edges : List (InterfaceId × InterfaceId)}
    (h : plannedEdges t (fun k => place order k) = .ok edges) :
    (∃ i < t.size, ((i : Int), (i : Int)) ∈ edges) ↔ t.type = .unidirectionalRing ∧ t.size = 1 := by
  have hinj := place_injective order
  by_cases hring : t.type = .unidirectionalRing
  · obtain ⟨hpos, -, hedges⟩ := plannedEdges_eq_ok h
    simp only [hring] at hedges
    rw [hedges]
    simp only [List.mem_map, List.mem_range, Prod.mk.injEq, Nat.cast_inj, hring, true_and]
    constructor
    · rintro ⟨i, -, k, hk, rfl, hnext⟩
      have hsame := hinj hnext
      rcases Nat.lt_or_ge (k + 1) t.size with hlt | hge
      · rw [Nat.mod_eq_of_lt hlt] at hsame
        omega
      · rw [show k + 1 = t.size by omega, Nat.mod_self] at hsame
        omega
    · intro hone
      have hback : (0 + 1) % t.size = 0 := by rw [hone]
      exact ⟨place order 0, Network.place_lt order hpos, 0, hpos, rfl, by rw [hback]⟩
  · simp only [hring, false_and, iff_false]
    rintro ⟨i, -, hself⟩
    by_cases hlist : t.type = .userList
    · obtain ⟨-, -, hedges⟩ := plannedEdges_eq_ok h
      simp only [hlist] at hedges
      obtain ⟨list, -, hlisted⟩ := hedges
      obtain ⟨hall, hmem⟩ := listEdges_eq_ok hlisted
      obtain ⟨e, he, j, -, hkey, d, hd, hj, hd'⟩ := (hmem _ _).mp hself
      obtain ⟨j', -, hkey', hdests⟩ := hall e he
      obtain rfl : j = j' := Nat.repr_injective (hkey.symm.trans hkey')
      have hsame : j = d.toNat := hinj (by exact_mod_cast hj.symm.trans hd')
      have hrange := hdests d hd
      omega
    · exact (plannedEdges_bothWays h hring hlist _ _ hself).1 rfl

end loops

/-- **The workers accept what the leader's preflight accepts, except a ring of one.** Whatever description the
planner accepts and whatever order the ids have, every worker accepts its assignment exactly when the description is
not a unidirectional ring of one peer. -/
theorem workers_accept_iff {t : TopologyConfig} {identifiers : String} {order : Equiv.Perm (Fin t.size)}
    {assignments : List PeerAssignment} (h : buildTopology t identifiers order = .ok assignments) :
    (∀ a ∈ assignments, validateAssignment a t.size = .ok ()) ↔
      ¬(t.type = .unidirectionalRing ∧ t.size = 1) := by
  obtain ⟨edges, hedges, hassignments⟩ := buildTopology_eq_ok h
  rw [← self_edge_iff hedges, hassignments]
  simp only [List.mem_map, List.mem_range, validateAssignment_eq_ok, forall_exists_index, and_imp,
    forall_apply_eq_imp_iff₂, not_exists, not_and]
  constructor
  · intro hall i hi hself
    apply (hall i hi).no_self
    apply mem_neighbors_of_edges.mpr
    refine ⟨hself, ?_⟩
    show InRange t ((i : Int), (i : Int))
    unfold InRange InterfaceId
    omega
  · intro hnone i hi
    constructor
    · show 0 ≤ (i : Int) ∧ (i : Int) < t.size
      omega
    · intro hself
      exact hnone i hi (mem_neighbors_of_edges.mp hself).1
    · intro q hq
      have hrange := (mem_neighbors_of_edges.mp hq).2
      unfold InRange InterfaceId at hrange
      unfold InterfaceId
      omega

theorem workers_accept_star :
    let t : TopologyConfig := { initialPeers := some 3, type := .star }
    ∃ assignments, buildTopology t "" 1 = .ok assignments ∧
      ∀ a ∈ assignments, validateAssignment a t.size = .ok () := by
  intro t
  obtain ⟨assignments, hbuilt⟩ : ∃ assignments, buildTopology t "" 1 = .ok assignments := ⟨_, rfl⟩
  exact ⟨assignments, hbuilt, (workers_accept_iff hbuilt).mpr (by decide)⟩

/-- The planner returns the ring of one, and its worker refuses it. -/
theorem worker_refuses_ring_of_one :
    let t : TopologyConfig := { initialPeers := some 1, type := .unidirectionalRing }
    ∃ assignments, buildTopology t "" 1 = .ok assignments ∧
      ∃ a ∈ assignments, validateAssignment a t.size = .error "error: assignment neighbors include self" := by
  intro t
  exact ⟨_, rfl, _, List.mem_cons_self, by decide +kernel⟩

end Quantas.BoostMq
