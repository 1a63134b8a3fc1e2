import Quantas.Network.Planner

/-!
# Random identifiers rename the graph

The builders of the planner name the two ends of an edge by positions and read the ids at these positions. So the
edges planned under a shuffle are the edges planned without one, each end replaced by the id that stands at its
position, and the shuffled graph is the plain one with its peers renamed.
-/

namespace Quantas
open Network (place place_lt place_inj)

namespace TopologyPlanner

def neighborsAt (assignments : List PeerAssignment) (i : Nat) : Finset InterfaceId :=
  ((assignments[i]?).map PeerAssignment.neighbors).getD ∅

/-- The peer that stands at the position of `p` after the shuffle. -/
def renamed {n : Nat} (order : Equiv.Perm (Fin n)) (p : InterfaceId) : InterfaceId := place order p.toNat

def renameEdge (ids : Nat → InterfaceId) (e : InterfaceId × InterfaceId) : InterfaceId × InterfaceId :=
  (ids e.1.toNat, ids e.2.toNat)

variable {t : TopologyConfig} {ids : Nat → InterfaceId}

/-! ## The planned edges under other ids -/

theorem undirected_rename (hinj : Function.Injective ids) (i j : Nat) :
    undirected (ids i) (ids j) = (undirected (i : Int) (j : Int)).map (renameEdge ids) := by
  unfold undirected
  by_cases hij : i = j
  · subst hij
    simp
  · have hids : ids i ≠ ids j := fun heq => hij (hinj heq)
    have hcast : (i : Int) ≠ j := by exact_mod_cast hij
    rw [if_neg hids, if_neg hcast]
    rfl

theorem destinationEdges_rename (n source : Int) (key : String) (dests : List Int) :
    destinationEdges ids n key source dests =
      (destinationEdges (fun k => (k : Int)) n key source dests).map (List.map (renameEdge ids)) := by
  induction dests with
  | nil => rfl
  | cons d rest ih =>
    simp only [destinationEdges]
    split_ifs
    · rfl
    · rfl
    · rw [ih]
      cases destinationEdges (fun k => (k : Int)) n key source rest <;> rfl

theorem listEdges_rename (n : Int) (list : List (String × List Int)) :
    listEdges ids n list = (listEdges (fun k => (k : Int)) n list).map (List.map (renameEdge ids)) := by
  induction list with
  | nil => rfl
  | cons entry rest ih =>
    obtain ⟨key, value⟩ := entry
    simp only [listEdges]
    cases parsePeerId key n with
    | error message => rfl
    | ok source =>
      simp only [bind, Except.bind]
      rw [destinationEdges_rename, ih]
      cases destinationEdges (fun k => (k : Int)) n key source value with
      | error message => rfl
      | ok here =>
        cases listEdges (fun k => (k : Int)) n rest with
        | error message => rfl
        | ok others => simp [Except.map]

theorem plannedEdges_rename (hinj : Function.Injective ids) :
    plannedEdges t ids =
      (plannedEdges t fun k => (k : Int)).map (List.map (renameEdge ids)) := by
  unfold plannedEdges
  cases requirePositiveInteger t.initialPeers "topology.initialPeers" with
  | error message => rfl
  | ok n =>
    simp only [bind, Except.bind]
    cases t.type with
    | complete | star | chain | ring =>
      simp only [Except.map, List.map_flatMap, undirected_rename hinj]
    | unidirectionalRing =>
      simp only [Except.map, List.map_map]
      congr 1
    | grid =>
      cases validateDimensions t n with
      | error message => rfl
      | ok dims =>
        simp only [Except.map, List.map_flatMap, List.map_append, apply_ite (List.map (renameEdge ids)),
          List.map_nil, undirected_rename hinj]
    | torus =>
      cases validateDimensions t n with
      | error message => rfl
      | ok dims => simp only [Except.map, List.map_flatMap, List.map_append, undirected_rename hinj]
    | userList =>
      cases t.list with
      | none => rfl
      | some list => exact listEdges_rename n list
    | other name => rfl

theorem plannedEdges_ends {edges : List (InterfaceId × InterfaceId)}
    (h : plannedEdges t (fun k => (k : Int)) = .ok edges) : ∀ e ∈ edges, 0 ≤ e.1 ∧ 0 ≤ e.2 := by
  -- renaming every position by itself changes no edge
  have hsame : plannedEdges t (fun k => (k : Int)) = _ := plannedEdges_rename Nat.cast_injective
  rw [h] at hsame
  have hmap : edges = edges.map (renameEdge fun k => (k : Int)) := Except.ok.inj hsame
  intro e he
  rw [hmap] at he
  obtain ⟨e', -, rfl⟩ := List.mem_map.mp he
  exact ⟨Int.natCast_nonneg _, Int.natCast_nonneg _⟩

/-! ## Edges that go both ways -/

def BothWays (edges : List (InterfaceId × InterfaceId)) : Prop :=
  ∀ p q, (p, q) ∈ edges → p ≠ q ∧ (q, p) ∈ edges

theorem BothWays.nil : BothWays [] := fun _ _ h => absurd h List.not_mem_nil

theorem bothWays_undirected (a b : InterfaceId) : BothWays (undirected a b) := by
  intro p q h
  obtain ⟨hne, ⟨rfl, rfl⟩ | ⟨rfl, rfl⟩⟩ := mem_undirected.mp h
  · exact ⟨hne, mem_undirected.mpr ⟨hne, .inr ⟨rfl, rfl⟩⟩⟩
  · exact ⟨hne.symm, mem_undirected.mpr ⟨hne, .inl ⟨rfl, rfl⟩⟩⟩

theorem BothWays.flatMap {α : Type} {l : List α} {f : α → List (InterfaceId × InterfaceId)}
    (h : ∀ x ∈ l, BothWays (f x)) : BothWays (l.flatMap f) := by
  intro p q hpq
  obtain ⟨x, hx, hpq⟩ := List.mem_flatMap.mp hpq
  obtain ⟨hne, hqp⟩ := h x hx p q hpq
  exact ⟨hne, List.mem_flatMap.mpr ⟨x, hx, hqp⟩⟩

theorem BothWays.append {l l' : List (InterfaceId × InterfaceId)} (h : BothWays l) (h' : BothWays l') :
    BothWays (l ++ l') := by
  intro p q hpq
  rcases List.mem_append.mp hpq with hpq | hpq
  · exact ⟨(h p q hpq).1, List.mem_append.mpr (.inl (h p q hpq).2)⟩
  · exact ⟨(h' p q hpq).1, List.mem_append.mpr (.inr (h' p q hpq).2)⟩

theorem BothWays.ite {c : Prop} [Decidable c] {l : List (InterfaceId × InterfaceId)} (h : BothWays l) :
    BothWays (if c then l else []) := by
  split_ifs
  · exact h
  · exact .nil

theorem plannedEdges_bothWays {edges : List (InterfaceId × InterfaceId)} (h : plannedEdges t ids = .ok edges)
    (hring : t.type ≠ .unidirectionalRing) (hlist : t.type ≠ .userList) : BothWays edges := by
  obtain ⟨-, -, h⟩ := plannedEdges_eq_ok h
  cases htype : t.type with
  | complete =>
    simp only [htype] at h
    rw [h]
    apply BothWays.flatMap
    intro i _
    apply BothWays.flatMap
    intro j _
    apply bothWays_undirected
  | star | chain | ring =>
    simp only [htype] at h
    rw [h]
    apply BothWays.flatMap
    intro i _
    apply bothWays_undirected
  | grid =>
    simp only [htype] at h
    obtain ⟨-, -, rfl⟩ := h
    apply BothWays.flatMap
    intro i _
    apply BothWays.flatMap
    intro j _
    apply BothWays.append
    · exact (bothWays_undirected _ _).ite
    · exact (bothWays_undirected _ _).ite
  | torus =>
    simp only [htype] at h
    obtain ⟨-, -, rfl⟩ := h
    apply BothWays.flatMap
    intro i _
    apply BothWays.flatMap
    intro j _
    apply BothWays.append
    · apply bothWays_undirected
    · apply bothWays_undirected
  | unidirectionalRing => exact absurd htype hring
  | userList => exact absurd htype hlist
  | other name => simp only [htype] at h

/-! ## The assignments of a shuffled graph -/

theorem place_injective (order : Equiv.Perm (Fin t.size)) : Function.Injective (place order) := by
  intro a b heq
  by_cases ha : a < t.size <;> by_cases hb : b < t.size
  · exact place_inj order ha hb heq
  · have hlt := place_lt order ha
    rw [heq, place, dif_neg hb] at hlt
    exact absurd hlt hb
  · have hlt := place_lt order hb
    rw [← heq, place, dif_neg ha] at hlt
    exact absurd hlt ha
  · simpa [place, ha, hb] using heq

theorem place_lt_iff (order : Equiv.Perm (Fin t.size)) {k : Nat} : place order k < t.size ↔ k < t.size := by
  constructor
  · intro h
    by_contra hk
    rw [place, dif_neg hk] at h
    exact hk h
  · exact place_lt order

theorem inRange_renameEdge {order : Equiv.Perm (Fin t.size)} {e : InterfaceId × InterfaceId} (h₁ : 0 ≤ e.1)
    (h₂ : 0 ≤ e.2) : InRange t (renameEdge (fun k => (place order k : Int)) e) ↔ InRange t e := by
  obtain ⟨p, q⟩ := e
  obtain ⟨a, rfl⟩ := Int.eq_ofNat_of_zero_le h₁
  obtain ⟨b, rfl⟩ := Int.eq_ofNat_of_zero_le h₂
  have ha := place_lt_iff order (k := a)
  have hb := place_lt_iff order (k := b)
  simp only [InRange, renameEdge, Int.toNat_natCast]
  unfold InterfaceId
  omega

theorem neighborsAt_map {f : Nat → Finset InterfaceId} {n i : Nat} (hi : i < n) :
    neighborsAt ((List.range n).map fun i : Nat => { id := (i : Int), topologyType := t.type, neighbors := f i }) i =
      f i := by
  simp [neighborsAt, hi]

theorem neighborsAt_of_ge {assignments : List PeerAssignment} {i : Nat} (hi : assignments.length ≤ i) :
    neighborsAt assignments i = ∅ := by
  simp [neighborsAt, hi]

theorem mem_neighborsAt {identifiers : String} {order : Equiv.Perm (Fin t.size)}
    {edges : List (InterfaceId × InterfaceId)} {assignments : List PeerAssignment}
    (h : buildTopology t identifiers order = .ok assignments)
    (hedges : plannedEdges t (fun k => place (shuffledIds t identifiers order) k) = .ok edges) {i : Nat}
    (hi : i < t.size) {q : InterfaceId} :
    q ∈ neighborsAt assignments i ↔ ((i : Int), q) ∈ edges ∧ InRange t ((i : Int), q) := by
  obtain ⟨edges', hedges', rfl⟩ := buildTopology_eq_ok h
  obtain rfl : edges = edges' := Except.ok.inj (hedges.symm.trans hedges')
  rw [neighborsAt_map hi, mem_neighbors_of_edges]

theorem neighborsAt_bothWays {identifiers : String} {order : Equiv.Perm (Fin t.size)}
    {assignments : List PeerAssignment} (h : buildTopology t identifiers order = .ok assignments)
    (hring : t.type ≠ .unidirectionalRing) (hlist : t.type ≠ .userList) {i j : Nat}
    (hij : (j : Int) ∈ neighborsAt assignments i) : (i : Int) ∈ neighborsAt assignments j := by
  obtain ⟨edges, hedges, hassignments⟩ := buildTopology_eq_ok h
  have hi : i < t.size := by
    by_contra hge
    rw [neighborsAt_of_ge (by rw [hassignments]; simpa using hge)] at hij
    simp at hij
  obtain ⟨hmem, hrange⟩ := (mem_neighborsAt h hedges hi).mp hij
  have hj : j < t.size := by
    unfold InRange InterfaceId at hrange
    omega
  apply (mem_neighborsAt h hedges hj).mpr
  refine ⟨(plannedEdges_bothWays hedges hring hlist _ _ hmem).2, ?_⟩
  unfold InRange InterfaceId at hrange ⊢
  omega

/-- **Random identifiers only rename the graph.** For every accepted description and every order that the shuffle
draws: peer `i` is assignment `i`, the neighbours of peer `order i` are the neighbours of peer `i` without the
shuffle, renamed, and for the undirected types the relation goes both ways. -/
theorem random_identifiers_rename {identifiers : String} {any : Equiv.Perm (Fin t.size)} {plain : List PeerAssignment}
    (hplain : identifiers ≠ "random") (h : buildTopology t identifiers any = .ok plain)
    (order : Equiv.Perm (Fin t.size)) :
    ∃ shuffled, buildTopology t "random" order = .ok shuffled ∧ shuffled.length = t.size ∧
      (∀ (i : Nat) a, shuffled[i]? = some a → a.id = (i : Int)) ∧
      (∀ i : Fin t.size,
        neighborsAt shuffled (order i) = (neighborsAt plain i).image (renamed order)) ∧
      (t.type ≠ .unidirectionalRing → t.type ≠ .userList →
        ∀ i j : Nat, (j : Int) ∈ neighborsAt shuffled i ↔ (i : Int) ∈ neighborsAt shuffled j) := by
  obtain ⟨edges, hedges, -⟩ := buildTopology_eq_ok h
  have hpositions : (fun k => (place (shuffledIds t identifiers any) k : InterfaceId)) = fun k : Nat => (k : Int) := by
    funext k
    rw [shuffledIds, if_neg hplain, place_one]
  have hedges' := hedges
  rw [hpositions] at hedges'
  have hinj : Function.Injective fun k => (place order k : InterfaceId) :=
    Nat.cast_injective.comp (place_injective order)
  have hshuffled : plannedEdges t (fun k => place (shuffledIds t "random" order) k) =
      .ok (edges.map (renameEdge fun k => (place order k : Int))) := by
    rw [shuffledIds, if_pos rfl, plannedEdges_rename hinj, hedges']
    rfl
  obtain ⟨shuffled, hbuilt⟩ : ∃ shuffled, buildTopology t "random" order = .ok shuffled := by
    unfold buildTopology
    rw [hshuffled]
    exact ⟨_, rfl⟩
  obtain ⟨_, _, hassignments⟩ := buildTopology_eq_ok hbuilt
  refine ⟨shuffled, hbuilt, ?_, ?_, ?_, ?_⟩
  · rw [hassignments, List.length_map, List.length_range]
  · intro i a ha
    rw [hassignments, List.getElem?_map] at ha
    obtain ⟨k, hk, rfl⟩ := Option.map_eq_some_iff.mp ha
    obtain ⟨_, rfl⟩ := List.getElem?_eq_some_iff.mp hk
    rw [List.getElem_range]
  · intro i
    have hi : place order i = order i := by simp [place]
    ext q
    rw [mem_neighborsAt hbuilt hshuffled (order i).isLt, Finset.mem_image]
    simp only [mem_neighborsAt h hedges i.isLt]
    constructor
    · rintro ⟨hmem, hrange⟩
      obtain ⟨e, he, heq⟩ := List.mem_map.mp hmem
      obtain ⟨h₁, h₂⟩ := plannedEdges_ends hedges' e he
      rw [← heq, inRange_renameEdge h₁ h₂] at hrange
      obtain ⟨p, q'⟩ := e
      obtain ⟨a, rfl⟩ := Int.eq_ofNat_of_zero_le h₁
      simp only [renameEdge, Int.toNat_natCast, Prod.mk.injEq, Nat.cast_inj] at heq
      -- the first end stands at the position of `order i`
      obtain rfl : a = i := place_injective order (heq.1.trans hi.symm)
      exact ⟨q', ⟨he, hrange⟩, heq.2⟩
    · rintro ⟨q', ⟨he, hrange⟩, rfl⟩
      obtain ⟨h₁, h₂⟩ := plannedEdges_ends hedges' _ he
      have hname : renameEdge (fun k => (place order k : Int)) ((i : Nat), q') =
          (((order i : Nat) : Int), renamed order q') := by
        simp only [renameEdge, renamed, Int.toNat_natCast, hi]
      rw [← hname]
      exact ⟨List.mem_map.mpr ⟨_, he, rfl⟩, (inRange_renameEdge h₁ h₂).mpr hrange⟩
  · intro hring hlist i j
    exact ⟨neighborsAt_bothWays hbuilt hring hlist, neighborsAt_bothWays hbuilt hring hlist⟩

theorem random_identifiers_rename_chain :
    let t : TopologyConfig := { initialPeers := some 3, type := .chain }
    ∃ plain shuffled, buildTopology t "" 1 = .ok plain ∧
      buildTopology t "random" (finRotate t.size) = .ok shuffled ∧
      ∀ i : Fin t.size, neighborsAt shuffled (finRotate t.size i) =
        (neighborsAt plain i).image (renamed (finRotate t.size)) := by
  intro t
  obtain ⟨plain, hbuilt⟩ : ∃ plain, buildTopology t "" 1 = .ok plain := ⟨_, rfl⟩
  obtain ⟨shuffled, hshuffled, -, -, hneighbors, -⟩ :=
    random_identifiers_rename (by decide) hbuilt (finRotate t.size)
  exact ⟨plain, shuffled, hbuilt, hshuffled, hneighbors⟩

end TopologyPlanner

end Quantas
