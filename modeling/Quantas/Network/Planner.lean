import Quantas.Network.Wiring

/-!
# The planner's assignments

`buildTopology` of the runtime turns an accepted description into one assignment for each peer. Without random
identifiers it gives every peer the neighbours that `initNetwork` gives it, except on a unidirectional ring of one
peer: the ring's last edge goes back to the first position, `addDirectedEdge` does not compare its two ends as
`addUndirectedEdge` does, and the one peer becomes its own neighbour.
-/

namespace Quantas
open Network (place place_lt)

/-- `PeerAssignment`: a peer, the name of the topology and the peer's neighbours, a `std::set`. -/
structure PeerAssignment where
  id : InterfaceId := NO_PEER_ID
  topologyType : TopologyType
  neighbors : Finset InterfaceId := ∅
  deriving DecidableEq

namespace TopologyPlanner
variable (t : TopologyConfig)

def InRange (e : InterfaceId × InterfaceId) : Prop :=
  ¬(e.1 < 0 ∨ e.2 < 0 ∨ t.size ≤ e.1 ∨ t.size ≤ e.2)

instance (e : InterfaceId × InterfaceId) : Decidable (InRange t e) := inferInstanceAs (Decidable (¬ _))

/-- The order of the ids after the shuffle, which draws `order` and is made only for random identifiers. -/
def shuffledIds (identifiers : String) (order : Equiv.Perm (Fin t.size)) : Equiv.Perm (Fin t.size) :=
  if identifiers = "random" then order else 1

def buildTopology (identifiers : String) (order : Equiv.Perm (Fin t.size)) :
    Except String (List PeerAssignment) := do
  let edges ← plannedEdges t fun k => place (shuffledIds t identifiers order) k
  let inserted := edges.filter fun e => InRange t e
  .ok <| (List.range t.size).map fun i : Nat =>
    { id := (i : Int)
      topologyType := t.type
      neighbors := ((inserted.filter fun e => e.1 = (i : Int)).map Prod.snd).toFinset }

end TopologyPlanner

/-- The keys of the user list are different, as in every JSON object. -/
def TopologyConfig.DistinctKeys (t : TopologyConfig) : Prop := ((t.list.getD []).map Prod.fst).Nodup

instance (t : TopologyConfig) : Decidable t.DistinctKeys := inferInstanceAs (Decidable (List.Nodup _))

namespace TopologyPlanner
variable {t : TopologyConfig} {ids : Nat → InterfaceId}

/-! ## Planned edges by type -/

theorem mem_undirected {a b p q : InterfaceId} :
    (p, q) ∈ undirected a b ↔ a ≠ b ∧ (p = a ∧ q = b ∨ p = b ∧ q = a) := by
  unfold undirected
  split_ifs with hab
  · simp [hab]
  · simp [hab]

theorem validateDimensions_eq_ok {n : Int} {dims : Int × Int} (h : validateDimensions t n = .ok dims) :
    dims.1.toNat = t.rows ∧ dims.2.toNat = t.columns := by
  unfold validateDimensions at h
  obtain ⟨height, hheight, h⟩ := bind_ok h
  obtain ⟨width, hwidth, h⟩ := bind_ok h
  obtain ⟨h', hh, rfl, -⟩ := requirePositiveInteger_ok hheight
  obtain ⟨w', hw, rfl, -⟩ := requirePositiveInteger_ok hwidth
  split_ifs at h
  obtain rfl := Except.ok.inj h
  simp [TopologyConfig.rows, TopologyConfig.columns, hh, hw]

theorem plannedEdges_eq_ok {edges : List (InterfaceId × InterfaceId)} (h : plannedEdges t ids = .ok edges) :
    0 < t.size ∧ getInt (t.initialPeers.getD 0) = t.size ∧
      match t.type with
      | .complete => edges = (List.range t.size).flatMap fun i =>
          (List.range' (i + 1) (t.size - (i + 1))).flatMap fun j => undirected (ids i) (ids j)
      | .star => edges = (List.range' 1 (t.size - 1)).flatMap fun i => undirected (ids 0) (ids i)
      | .grid => 0 < t.columns ∧ (t.rows * t.columns : Int) = t.size ∧
          edges = (List.range t.rows).flatMap fun i => (List.range t.columns).flatMap fun j =>
            let idx := i * t.columns + j
            (if j + 1 < t.columns then undirected (ids idx) (ids (idx + 1)) else []) ++
              (if i + 1 < t.rows then undirected (ids idx) (ids (idx + t.columns)) else [])
      | .torus => (2 ≤ t.rows ∧ 2 ≤ t.columns) ∧ (t.rows * t.columns : Int) = t.size ∧
          edges = (List.range t.rows).flatMap fun i => (List.range t.columns).flatMap fun j =>
            let idx := i * t.columns + j
            undirected (ids idx) (ids (i * t.columns + (j + 1) % t.columns)) ++
              undirected (ids idx) (ids ((i + 1) % t.rows * t.columns + j))
      | .chain => edges = (List.range (t.size - 1)).flatMap fun i => undirected (ids i) (ids (i + 1))
      | .ring => edges = (List.range t.size).flatMap fun i => undirected (ids i) (ids ((i + 1) % t.size))
      | .unidirectionalRing => edges = (List.range t.size).map fun i => (ids i, ids ((i + 1) % t.size))
      | .userList => ∃ list, t.list = some list ∧ listEdges ids t.size list = .ok edges
      | .other _ => False := by
  unfold plannedEdges at h
  obtain ⟨n, hn, h⟩ := bind_ok h
  obtain ⟨w, hw, rfl, hpos⟩ := requirePositiveInteger_ok hn
  have hsize : getInt w = t.size := by
    simp only [TopologyConfig.size, hw, Option.getD_some]
    omega
  rw [hsize] at h hpos
  refine ⟨by omega, by rw [hw, Option.getD_some, hsize], ?_⟩
  simp only [Int.toNat_natCast] at h
  cases htype : t.type with
  | complete | star | chain | ring | unidirectionalRing =>
    rw [htype] at h
    exact (Except.ok.inj h).symm
  | grid =>
    rw [htype] at h
    obtain ⟨dims, hdims, h⟩ := bind_ok h
    obtain ⟨hrows, hcolumns⟩ := validateDimensions_eq_ok hdims
    obtain ⟨-, hpos, harea, -⟩ := validateDimensions_ok hdims
    rw [← hrows, ← hcolumns] at *
    exact ⟨hpos, harea, (Except.ok.inj h).symm⟩
  | torus =>
    rw [htype] at h
    obtain ⟨dims, hdims, h⟩ := bind_ok h
    obtain ⟨hrows, hcolumns⟩ := validateDimensions_eq_ok hdims
    obtain ⟨-, -, harea, htorus⟩ := validateDimensions_ok hdims
    have htwo := htorus htype
    rw [← hrows, ← hcolumns] at *
    exact ⟨htwo, harea, (Except.ok.inj h).symm⟩
  | userList =>
    rw [htype] at h
    cases hlist : t.list with
    | none =>
      rw [hlist] at h
      cases h
    | some list =>
      rw [hlist] at h
      exact ⟨list, rfl, h⟩
  | other name =>
    rw [htype] at h
    cases h

/-! ## The user list -/

theorem parsePeerId_eq_ok {value : String} {n : Nat} {k : Int} (h : parsePeerId value n = .ok k) :
    ∃ i < n, k = (i : Int) ∧ value = toString i := by
  unfold parsePeerId at h
  cases hv : value.toInt? with
  | none => simp [hv] at h
  | some peerId =>
    simp only [hv] at h
    split_ifs at h with hbad
    obtain rfl := Except.ok.inj h
    push Not at hbad
    obtain ⟨heq, hnonneg, hlt⟩ := hbad
    obtain ⟨i, rfl⟩ := Int.eq_ofNat_of_zero_le hnonneg
    exact ⟨i, by omega, rfl, heq.symm⟩

theorem parsePeerId_toString {n i : Nat} (hi : i < n) : parsePeerId (toString i) n = .ok (i : Int) := by
  have hparse : (toString i).toInt? = some (i : Int) := Nat.toInt?_repr i
  unfold parsePeerId
  simp only [hparse]
  rw [if_neg]
  push Not
  exact ⟨rfl, by omega, by omega⟩

theorem destinationEdges_eq_ok {n : Nat} {key : String} {source : Int} {dests : List Int}
    {edges : List (InterfaceId × InterfaceId)} (h : destinationEdges ids n key source dests = .ok edges) :
    (∀ d ∈ dests, 0 ≤ d ∧ d < n ∧ d ≠ source) ∧ edges = dests.map fun d => (ids source.toNat, ids d.toNat) := by
  induction dests generalizing edges with
  | nil =>
    rw [destinationEdges] at h
    exact ⟨by simp, (Except.ok.inj h).symm⟩
  | cons d rest ih =>
    rw [destinationEdges] at h
    split_ifs at h with hrange hself
    obtain ⟨edges', hrest, h⟩ := bind_ok h
    obtain rfl := Except.ok.inj h
    obtain ⟨hall, rfl⟩ := ih hrest
    refine ⟨?_, rfl⟩
    intro d' hd'
    rcases List.mem_cons.mp hd' with rfl | hd'
    · exact ⟨by omega, by omega, hself⟩
    · exact hall d' hd'

theorem listEdges_eq_ok {n : Nat} {list : List (String × List Int)}
    {edges : List (InterfaceId × InterfaceId)} (h : listEdges ids n list = .ok edges) :
    (∀ e ∈ list, ∃ i < n, e.1 = toString i ∧ ∀ d ∈ e.2, 0 ≤ d ∧ d < n ∧ d ≠ (i : Int)) ∧
      ∀ p q, (p, q) ∈ edges ↔
        ∃ e ∈ list, ∃ i < n, e.1 = toString i ∧ ∃ d ∈ e.2, p = ids i ∧ q = ids d.toNat := by
  induction list generalizing edges with
  | nil =>
    rw [listEdges] at h
    obtain rfl := Except.ok.inj h
    simp
  | cons entry rest ih =>
    obtain ⟨key, value⟩ := entry
    rw [listEdges] at h
    obtain ⟨source, hsource, h⟩ := bind_ok h
    obtain ⟨here, hvalue, h⟩ := bind_ok h
    obtain ⟨others, hrest, h⟩ := bind_ok h
    obtain rfl := Except.ok.inj h
    obtain ⟨i, hi, rfl, hkey⟩ := parsePeerId_eq_ok hsource
    obtain ⟨hdests, rfl⟩ := destinationEdges_eq_ok hvalue
    obtain ⟨hall, hmem⟩ := ih hrest
    constructor
    · intro e he
      rcases List.mem_cons.mp he with rfl | he
      · exact ⟨i, hi, hkey, hdests⟩
      · exact hall e he
    · intro p q
      rw [List.mem_append, hmem]
      simp only [List.mem_map, Prod.mk.injEq, Int.toNat_natCast]
      constructor
      · rintro (⟨d, hd, rfl, rfl⟩ | ⟨e, he, hrest⟩)
        · exact ⟨_, List.mem_cons_self, i, hi, hkey, d, hd, rfl, rfl⟩
        · exact ⟨e, List.mem_cons_of_mem _ he, hrest⟩
      · rintro ⟨e, he, j, hj, hkeyj, d, hd, hp, hq⟩
        rcases List.mem_cons.mp he with rfl | he
        · obtain rfl : i = j := Nat.repr_injective (hkey.symm.trans hkeyj)
          exact Or.inl ⟨d, hd, hp.symm, hq.symm⟩
        · exact Or.inr ⟨e, he, j, hj, hkeyj, d, hd, hp, hq⟩

/-! ## The two builders -/

theorem undirected_of_ne {i j : Nat} (h : i ≠ j) :
    undirected (i : Int) (j : Int) =
      [(i, (j : InterfaceId)), (j, (i : InterfaceId))].map fun c => ((c.1 : Int), c.2) := by
  have hcast : (i : Int) ≠ j := by exact_mod_cast h
  simp [undirected, hcast]

theorem edges_eq_map_builderCalls {edges : List (InterfaceId × InterfaceId)}
    (h : plannedEdges t (fun k => (k : Int)) = .ok edges)
    (htype : t.type ≠ .ring ∧ t.type ≠ .unidirectionalRing ∧ t.type ≠ .userList) :
    edges = (Network.builderCalls (fun k => (k : Int)) t).map fun c => ((c.1 : Int), c.2) := by
  obtain ⟨-, -, h⟩ := plannedEdges_eq_ok h
  unfold Network.builderCalls
  cases ht : t.type with
  | complete =>
    simp only [ht] at h ⊢
    rw [h, Network.fullyConnect, List.map_flatMap]
    apply List.flatMap_congr
    intro i hi
    rw [List.map_flatMap]
    apply List.flatMap_congr
    intro j hj
    have hne : i ≠ j := by
      have := (List.mem_range'_1.mp hj).1
      omega
    rw [if_pos hne, undirected_of_ne hne]
  | star =>
    simp only [ht] at h ⊢
    rw [h, Network.star, List.map_flatMap]
    apply List.flatMap_congr
    intro i hi
    have hne : 0 ≠ i := by
      have := (List.mem_range'_1.mp hi).1
      omega
    exact undirected_of_ne hne
  | grid =>
    simp only [ht] at h ⊢
    obtain ⟨hcolumns, -, h⟩ := h
    rw [h, Network.grid, List.map_flatMap]
    apply List.flatMap_congr
    intro i hi
    rw [List.map_flatMap]
    apply List.flatMap_congr
    intro j hj
    rw [List.map_append]
    congr 1
    · split_ifs
      · exact undirected_of_ne (by omega)
      · rfl
    · split_ifs
      · exact undirected_of_ne (by omega)
      · rfl
  | torus =>
    simp only [ht] at h ⊢
    obtain ⟨⟨hrows, hcolumns⟩, -, h⟩ := h
    rw [h, Network.torus, List.map_flatMap]
    apply List.flatMap_congr
    intro i hi
    rw [List.map_flatMap]
    apply List.flatMap_congr
    intro j hj
    have hi := List.mem_range.mp hi
    have hj := List.mem_range.mp hj
    -- with two rows and two columns the next position on a cycle is another one
    have hright : i * t.columns + j ≠ i * t.columns + (j + 1) % t.columns := by
      rcases Nat.lt_or_ge (j + 1) t.columns with hlt | hge
      · rw [Nat.mod_eq_of_lt hlt]
        omega
      · rw [show j + 1 = t.columns by omega, Nat.mod_self]
        omega
    have hnext : i ≠ (i + 1) % t.rows := by
      rcases Nat.lt_or_ge (i + 1) t.rows with hlt | hge
      · rw [Nat.mod_eq_of_lt hlt]
        omega
      · rw [show i + 1 = t.rows by omega, Nat.mod_self]
        omega
    have hdown : i * t.columns + j ≠ (i + 1) % t.rows * t.columns + j := by
      intro heq
      exact hnext (Nat.eq_of_mul_eq_mul_right (by omega) (Nat.add_right_cancel heq))
    rw [undirected_of_ne hright, undirected_of_ne hdown]
    rfl
  | chain =>
    simp only [ht] at h ⊢
    rw [h, Network.chain, List.map_flatMap]
    apply List.flatMap_congr
    intro i hi
    exact undirected_of_ne (by omega)
  | ring => exact absurd ht htype.1
  | unidirectionalRing => exact absurd ht htype.2.1
  | userList => exact absurd ht htype.2.2
  | other name => simp only [ht] at h

theorem mem_ringEdges {n i : Nat} {q : InterfaceId} :
    ((i : Int), q) ∈ (List.range n).flatMap (fun k : Nat => undirected (k : Int) (((k + 1) % n : Nat) : Int)) ↔
      i < n ∧ ∃ j < n, (i ≠ j ∧ (j = (i + 1) % n ∨ i = (j + 1) % n)) ∧ q = (j : Int) := by
  simp only [List.mem_flatMap, List.mem_range, mem_undirected, ne_eq, Nat.cast_inj]
  constructor
  · rintro ⟨k, hk, hne, ⟨rfl, rfl⟩ | ⟨rfl, rfl⟩⟩
    · exact ⟨hk, _, Nat.mod_lt _ (by omega), ⟨hne, Or.inl rfl⟩, rfl⟩
    · exact ⟨Nat.mod_lt _ (by omega), k, hk, ⟨fun heq => hne heq.symm, Or.inr rfl⟩, rfl⟩
  · rintro ⟨hi, j, hj, ⟨hne, rfl | rfl⟩, rfl⟩
    · exact ⟨i, hi, hne, Or.inl ⟨rfl, rfl⟩⟩
    · exact ⟨j, hj, fun heq => hne heq.symm, Or.inr ⟨rfl, rfl⟩⟩

theorem mem_unidirectionalRingEdges {n i : Nat} (hn : n ≠ 1) {q : InterfaceId} :
    ((i : Int), q) ∈ (List.range n).map (fun k : Nat => ((k : Int), (((k + 1) % n : Nat) : Int))) ↔
      i < n ∧ ∃ j < n, (i ≠ j ∧ j = (i + 1) % n) ∧ q = (j : Int) := by
  simp only [List.mem_map, List.mem_range, Prod.mk.injEq, Nat.cast_inj]
  constructor
  · rintro ⟨k, hk, rfl, rfl⟩
    refine ⟨hk, _, Nat.mod_lt _ (by omega), ⟨?_, rfl⟩, rfl⟩
    rcases Nat.lt_or_ge (k + 1) n with hlt | hge
    · rw [Nat.mod_eq_of_lt hlt]
      omega
    · rw [show k + 1 = n by omega, Nat.mod_self]
      omega
  · rintro ⟨hi, j, -, ⟨-, rfl⟩, rfl⟩
    exact ⟨i, hi, rfl, rfl⟩

theorem mem_listed_iff (hkeys : t.DistinctKeys) {list : List (String × List Int)} (hlist : t.list = some list)
    {i : Nat} {d : Int} : d ∈ t.listed i ↔ ∃ e ∈ list, e.1 = toString i ∧ d ∈ e.2 := by
  unfold TopologyConfig.DistinctKeys at hkeys
  unfold TopologyConfig.listed
  rw [hlist, Option.getD_some] at hkeys ⊢
  generalize toString i = key
  clear hlist
  induction list with
  | nil => simp
  | cons e rest ih =>
    obtain ⟨name, value⟩ := e
    rw [List.map_cons, List.nodup_cons] at hkeys
    rw [List.lookup_cons]
    by_cases hname : key = name
    · subst hname
      have hother : ∀ e ∈ rest, e.1 ≠ key := by
        intro e he heq
        exact hkeys.1 (List.mem_map.mpr ⟨e, he, heq⟩)
      simp only [beq_self_eq_true, Option.getD_some, List.mem_cons, exists_eq_or_imp, true_and]
      constructor
      · exact Or.inl
      · rintro (hd | ⟨e, he, heq, -⟩)
        · exact hd
        · exact absurd heq (hother e he)
    · have hne : (key == name) = false := beq_eq_false_iff_ne.mpr hname
      simp only [hne, List.mem_cons, exists_eq_or_imp, ih hkeys.2]
      constructor
      · exact Or.inr
      · rintro (⟨heq, -⟩ | h)
        · exact absurd heq.symm hname
        · exact h

theorem mem_edges_iff {edges : List (InterfaceId × InterfaceId)}
    (h : plannedEdges t (fun k => (k : Int)) = .ok edges) (hkeys : t.DistinctKeys)
    (hring : ¬(t.type = .unidirectionalRing ∧ t.size = 1)) {i : Nat} {q : InterfaceId} :
    ((i : Int), q) ∈ edges ↔ (i, q) ∈ Network.builderCalls (fun k => (k : Int)) t := by
  by_cases htype : t.type ≠ .ring ∧ t.type ≠ .unidirectionalRing ∧ t.type ≠ .userList
  · rw [edges_eq_map_builderCalls h htype]
    simp only [List.mem_map, Prod.mk.injEq, Nat.cast_inj]
    constructor
    · rintro ⟨⟨j, p⟩, hmem, rfl, rfl⟩
      exact hmem
    · intro hmem
      exact ⟨(i, q), hmem, rfl, rfl⟩
  · obtain ⟨-, -, h⟩ := plannedEdges_eq_ok h
    unfold Network.builderCalls
    cases ht : t.type with
    | ring =>
      simp only [ht] at h ⊢
      rw [h, Network.mem_ring]
      exact mem_ringEdges
    | unidirectionalRing =>
      simp only [ht] at h ⊢
      rw [h, Network.mem_unidirectionalRing]
      exact mem_unidirectionalRingEdges fun hn => hring ⟨ht, hn⟩
    | userList =>
      simp only [ht] at h ⊢
      obtain ⟨list, hlist, h⟩ := h
      obtain ⟨hall, hmem⟩ := listEdges_eq_ok h
      rw [hmem]
      simp only [Network.userList, List.mem_flatMap, List.mem_range, List.mem_map, Prod.mk.injEq,
        mem_listed_iff hkeys hlist]
      constructor
      · rintro ⟨e, he, j, hj, hkey, d, hd, hij, rfl⟩
        obtain rfl : i = j := by exact_mod_cast hij
        obtain ⟨_, _, _, hrange⟩ := hall e he
        exact ⟨i, hj, d, ⟨e, he, hkey, hd⟩, rfl, (Int.toNat_of_nonneg (hrange d hd).1).symm⟩
      · rintro ⟨j, hj, d, ⟨e, he, hkey, hd⟩, rfl, rfl⟩
        obtain ⟨_, _, _, hrange⟩ := hall e he
        exact ⟨e, he, j, hj, hkey, d, hd, rfl, (Int.toNat_of_nonneg (hrange d hd).1).symm⟩
    | complete | star | grid | torus | chain | other => simp [ht] at htype

/-! ## The assignments -/

theorem buildTopology_eq_ok {identifiers : String} {order : Equiv.Perm (Fin t.size)}
    {assignments : List PeerAssignment} (h : buildTopology t identifiers order = .ok assignments) :
    ∃ edges, plannedEdges t (fun k => place (shuffledIds t identifiers order) k) = .ok edges ∧
      assignments = (List.range t.size).map fun i : Nat =>
        { id := (i : Int)
          topologyType := t.type
          neighbors := (((edges.filter fun e => InRange t e).filter fun e => e.1 = (i : Int)).map
            Prod.snd).toFinset } := by
  unfold buildTopology at h
  obtain ⟨edges, hedges, h⟩ := bind_ok h
  exact ⟨edges, hedges, (Except.ok.inj h).symm⟩

theorem mem_neighbors_of_edges {edges : List (InterfaceId × InterfaceId)} {i : Nat} {q : InterfaceId} :
    q ∈ (((edges.filter fun e => InRange t e).filter fun e => e.1 = (i : Int)).map Prod.snd).toFinset ↔
      ((i : Int), q) ∈ edges ∧ InRange t ((i : Int), q) := by
  simp only [List.mem_toFinset, List.mem_map, List.mem_filter, decide_eq_true_eq]
  constructor
  · rintro ⟨⟨p, q⟩, ⟨⟨hmem, hrange⟩, rfl⟩, rfl⟩
    exact ⟨hmem, hrange⟩
  · rintro ⟨hmem, hrange⟩
    exact ⟨_, ⟨⟨hmem, hrange⟩, rfl⟩, rfl⟩

theorem place_one {n : Nat} (k : Nat) : place (1 : Equiv.Perm (Fin n)) k = k := by
  unfold place
  split_ifs <;> rfl

/-- **The two topology builders agree exactly off the ring of one.** Without random identifiers, and for every
description that the planner accepts, the peers of `initNetwork` have the ids and the neighbours of the planner's
assignments, unless the description is a unidirectional ring of one peer. -/
theorem neighbors_agree_iff {identifiers : String} {order : Equiv.Perm (Fin t.size)}
    {assignments : List PeerAssignment} (hid : identifiers ≠ "random") (hkeys : t.DistinctKeys)
    (h : buildTopology t identifiers order = .ok assignments) :
    (assignments.map (fun a => (a.id, a.neighbors)) =
      (List.range t.size).map fun k =>
        (((Network.initNetwork t 1).peers k).publicId,
          ((Network.initNetwork t 1).peers k).neighbors.toFinset)) ↔
      ¬(t.type = .unidirectionalRing ∧ t.size = 1) := by
  obtain ⟨edges, hedges, rfl⟩ := buildTopology_eq_ok h
  have hids : (fun k => (place (shuffledIds t identifiers order) k : InterfaceId)) = fun k : Nat => (k : Int) := by
    funext k
    rw [shuffledIds, if_neg hid, place_one]
  rw [hids] at hedges
  have hnetwork : ∀ k q, q ∈ ((Network.initNetwork t 1).peers k).neighbors ↔
      (k, q) ∈ Network.builderCalls (fun j => (j : Int)) t := by
    intro k q
    have hinternal : (fun j => (Network.makePeer (place (1 : Equiv.Perm (Fin t.size)) j)).internalId) =
        fun j : Nat => (j : InterfaceId) := by
      funext j
      rw [Network.makePeer_internalId, place_one]
    rw [((Network.samePeers_initNetwork 1).2 k).2.2, Network.bare, Network.linkedPeers,
      (Network.link_foldl _ _ k).2.2.2.2.1 q, hinternal]
    simp [Network.makePeer]
  constructor
  · rintro heq ⟨htype, hsize⟩
    -- the planner has the edge from the peer to itself, the network has no edge at all
    obtain ⟨-, -, hring⟩ := plannedEdges_eq_ok hedges
    simp only [htype, hsize] at hring
    rw [List.map_map] at heq
    have hzero := List.map_inj_left.mp heq 0 (List.mem_range.mpr (by omega))
    simp only [Function.comp_apply, Prod.mk.injEq] at hzero
    have hself : (0 : Int) ∈ ((Network.initNetwork t 1).peers 0).neighbors.toFinset := by
      rw [← hzero.2, mem_neighbors_of_edges, hring]
      simp [InRange, hsize]
    rw [List.mem_toFinset, hnetwork] at hself
    simp [Network.builderCalls, htype, hsize, Network.unidirectionalRing] at hself
  · intro hring
    rw [List.map_map]
    apply List.map_congr_left
    intro k hk
    simp only [Function.comp_apply, Network.initNetwork_publicId, place_one, Prod.mk.injEq, true_and]
    ext q
    rw [mem_neighbors_of_edges, List.mem_toFinset, hnetwork, mem_edges_iff hedges hkeys hring]
    apply and_iff_left_of_imp
    intro hmem
    have hvalid : Valid t := by
      apply valid_of_accepts
      have hcast : plannedEdges t Int.ofNat = .ok edges := hedges
      unfold Accepts
      rw [hcast]
      rfl
    obtain ⟨hk, j, hj, -, rfl⟩ := (Network.mem_builderCalls_iff hvalid).mp hmem
    have hlinked : Network.linkedId t (fun j => (j : Int)) j = (j : Int) := by
      unfold Network.linkedId
      split_ifs <;> rfl
    rw [hlinked, InRange]
    unfold InterfaceId
    omega

theorem neighbors_agree_torus :
    let t : TopologyConfig :=
      { initialPeers := some 6, type := .torus, height := some 2, width := some 3 }
    ∃ assignments, buildTopology t "" 1 = .ok assignments ∧
      assignments.map (fun a => (a.id, a.neighbors)) =
        (List.range t.size).map fun k =>
          (((Network.initNetwork t 1).peers k).publicId,
            ((Network.initNetwork t 1).peers k).neighbors.toFinset) := by
  intro t
  obtain ⟨assignments, hbuilt⟩ : ∃ assignments, buildTopology t "" 1 = .ok assignments := ⟨_, rfl⟩
  exact ⟨assignments, hbuilt, (neighbors_agree_iff (by decide) (by decide) hbuilt).mpr (by decide)⟩

/-- On a unidirectional ring of one peer the planner makes the peer its own neighbour. -/
theorem ring_of_one_disagrees :
    let t : TopologyConfig := { initialPeers := some 1, type := .unidirectionalRing }
    buildTopology t "" 1 = .ok [{ id := 0, topologyType := .unidirectionalRing, neighbors := {0} }] ∧
      ((Network.initNetwork t 1).peers 0).publicId = 0 ∧
      ((Network.initNetwork t 1).peers 0).neighbors.toFinset = ∅ := by
  decide

end TopologyPlanner

end Quantas
