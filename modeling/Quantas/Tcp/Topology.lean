import Quantas.Network.Wiring

/-!
# The coordinator's own topology builder

The TCP backend does not call the planner: `ProcessCoordinator.cpp` has a `buildTopology` of its own,
which validates nothing. It shuffles the ids itself when the identifiers are random, so two calls on one
description can return two graphs. `mem_neighbors_iff` reads a neighbour set off the shuffle that the call
drew: two peers are neighbours when the places where they stand are joined.
-/

namespace Quantas.Tcp
open Network (place place_lt place_inj)

/-- `PeerAssignment`: a peer and its neighbours, a `std::set`. -/
structure PeerAssignment where
  id : InterfaceId := NO_PEER_ID
  neighbors : Finset InterfaceId := ∅
  deriving DecidableEq

/-- `std::stoi`: white space, an optional sign and the longest run of digits; the rest is ignored. `none` is
an exception, for no digit or a value outside `int`. -/
def stoi (key : String) : Option Int :=
  let chars := key.toList.dropWhile fun c => c = ' ' ∨ (9 ≤ c.toNat ∧ c.toNat ≤ 13)
  let negative := chars.head? = some '-'
  let digits := (if negative ∨ chars.head? = some '+' then chars.tail else chars).takeWhile Char.isDigit
  let value : Int := digits.foldl (fun v d => 10 * v + (d.toNat - '0'.toNat)) 0
  let signed := if negative then -value else value
  if digits = [] ∨ getInt signed ≠ signed then none else some signed

section builder
variable (t : TopologyConfig)

/-- Height and width as the grid and torus branches use them: one row of all the peers unless they
multiply to the number of peers. -/
def dimensions : Nat × Nat :=
  if getInt (t.height.getD 1) * getInt (t.width.getD 1) ≠ t.size then (1, t.size) else (t.rows, t.columns)

/-- The places that the undirected branches join, in the order of their loops. -/
def joins : List (Nat × Nat) :=
  let initialPeers := t.size
  let (height, width) := dimensions t
  match t.type with
  | .complete => (List.range initialPeers).flatMap fun i =>
      (List.range' (i + 1) (initialPeers - (i + 1))).map fun j => (i, j)
  | .star => (List.range' 1 (initialPeers - 1)).map fun i => (0, i)
  | .grid => (List.range height).flatMap fun i => (List.range width).flatMap fun j =>
      let idx := i * width + j
      (if j + 1 < width then [(idx, idx + 1)] else []) ++
        (if i + 1 < height then [(idx, idx + width)] else [])
  | .torus => (List.range height).flatMap fun i => (List.range width).flatMap fun j =>
      let idx := i * width + j
      [(idx, i * width + (j + 1) % width), (idx, (i + 1) % height * width + j)]
  | .chain => (List.range (initialPeers - 1)).map fun i => (i, i + 1)
  | .ring => (List.range initialPeers).map fun i => (i, (i + 1) % initialPeers)
  | .unidirectionalRing | .userList | .other _ => []

variable (ids : Nat → InterfaceId)

/-- The neighbours that `addUndirectedEdge(a, b)` inserts, as pairs of a peer and its new neighbour. -/
def addUndirectedEdge (a b : InterfaceId) : List (InterfaceId × InterfaceId) :=
  if a = b ∨ a < 0 ∨ b < 0 ∨ t.size ≤ a ∨ t.size ≤ b then [] else [(a, b), (b, a)]

/-- The neighbour that `addDirectedEdge(from, to)` inserts. -/
def addDirectedEdge (source dest : InterfaceId) : List (InterfaceId × InterfaceId) :=
  if source < 0 ∨ dest < 0 ∨ t.size ≤ source ∨ t.size ≤ dest then [] else [(source, dest)]

/-- The edges of the user list; an entry or a neighbour out of range is skipped. -/
def listedEdges : List (String × List Int) → Option (List (InterfaceId × InterfaceId))
  | [] => some []
  | (key, value) :: rest => do
    let idx ← stoi key
    let others ← listedEdges rest
    if idx < 0 ∨ t.size ≤ idx then some others
    else
      let edges := (value.map getInt).flatMap fun neighborIndex : Int =>
        if neighborIndex < 0 ∨ t.size ≤ neighborIndex then []
        else addDirectedEdge t (ids idx.toNat) (ids neighborIndex.toNat)
      some (edges ++ others)

/-- The neighbours that the call inserts, where `ids` is the list of ids after the shuffle. -/
def edges : Option (List (InterfaceId × InterfaceId)) :=
  match t.type with
  | .unidirectionalRing =>
    some <| (List.range t.size).flatMap fun i => addDirectedEdge t (ids i) (ids ((i + 1) % t.size))
  | .userList => listedEdges t ids (t.list.getD [])
  | _ => some <| (joins t).flatMap fun e => addUndirectedEdge t (ids e.1) (ids e.2)

/-- The order of the ids after the shuffle, which draws `order` and is made only for random identifiers. -/
def shuffled (identifiers : String) (order : Equiv.Perm (Fin t.size)) : Equiv.Perm (Fin t.size) :=
  if identifiers = "random" then order else 1

/-- `buildTopology`. `none` is an exception: a negative number of peers, or a key that is no number. -/
def buildTopology (identifiers : String) (order : Equiv.Perm (Fin t.size)) : Option (List PeerAssignment) :=
  if getInt (t.initialPeers.getD 0) < 0 then none
  else (edges t fun k => place (shuffled t identifiers order) k).map fun inserted =>
    (List.range t.size).map fun i : Nat =>
      { id := (i : Int)
        neighbors := ((inserted.filter fun e => e.1 = (i : Int)).map Prod.snd).toFinset }

end builder

/-- `topology.assignments[id].neighbors`. -/
def neighborsOf (assignments : List PeerAssignment) (id : InterfaceId) : Finset InterfaceId :=
  (assignments.getD id.toNat {}).neighbors

/-! ## Neighbours stand at joined places -/

def Linked (t : TopologyConfig) (i j : Nat) : Prop := i ≠ j ∧ ((i, j) ∈ joins t ∨ (j, i) ∈ joins t)

instance (t : TopologyConfig) (i j : Nat) : Decidable (Linked t i j) := inferInstanceAs (Decidable (_ ∧ _))

theorem Linked.symm {t : TopologyConfig} {i j : Nat} (h : Linked t i j) : Linked t j i :=
  ⟨h.1.symm, h.2.symm⟩

theorem linked_comm {t : TopologyConfig} {i j : Nat} : Linked t i j ↔ Linked t j i := ⟨Linked.symm, Linked.symm⟩

def Undirected (t : TopologyConfig) : Prop := t.type ≠ .unidirectionalRing ∧ t.type ≠ .userList

instance (t : TopologyConfig) : Decidable (Undirected t) := inferInstanceAs (Decidable (_ ∧ _))

/-- Where the peer stands in the order of the ids. -/
def standsAt {n : Nat} (order : Equiv.Perm (Fin n)) (p : InterfaceId) : Nat := place order.symm p.toNat

section neighbours
variable {t : TopologyConfig} {identifiers : String} {order : Equiv.Perm (Fin t.size)}

theorem place_eq_iff {n : Nat} {order : Equiv.Perm (Fin n)} {k p : Nat} (hp : p < n) :
    place order k = p ↔ k = place order.symm p := by
  constructor
  · rintro rfl
    by_cases hk : k < n
    · simp [place, hk]
    · simp [place, hk] at hp
  · rintro rfl
    simp [place, hp]

theorem edges_undirected (hundirected : Undirected t) (ids : Nat → InterfaceId) :
    edges t ids = some ((joins t).flatMap fun e => addUndirectedEdge t (ids e.1) (ids e.2)) := by
  unfold edges
  split
  · next h => exact absurd h hundirected.1
  · next h => exact absurd h hundirected.2
  · rfl

theorem mem_addUndirectedEdge {a b p q : Int} (hp : 0 ≤ p ∧ p < t.size) (hq : 0 ≤ q ∧ q < t.size) :
    (p, q) ∈ addUndirectedEdge t a b ↔ p ≠ q ∧ (a = p ∧ b = q ∨ a = q ∧ b = p) := by
  unfold addUndirectedEdge InterfaceId
  split_ifs with hskip
  · simp only [List.not_mem_nil, false_iff]
    omega
  · simp only [List.mem_cons, Prod.mk.injEq, List.not_mem_nil, or_false]
    omega

theorem neighborsOf_map {f : Nat → Finset InterfaceId} {n : Nat} {p : Int} (hp : 0 ≤ p ∧ p < n) :
    neighborsOf ((List.range n).map fun i : Nat => { id := (i : Int), neighbors := f i }) p = f p.toNat := by
  have hlt : p.toNat < n := by omega
  simp [neighborsOf, List.getD_eq_getElem?_getD, hlt]

theorem mem_neighbors_iff (hundirected : Undirected t) {assignments : List PeerAssignment}
    (hbuilt : buildTopology t identifiers order = some assignments) {p q : Int}
    (hp : 0 ≤ p ∧ p < t.size) (hq : 0 ≤ q ∧ q < t.size) :
    q ∈ neighborsOf assignments p ↔
      Linked t (standsAt (shuffled t identifiers order) p) (standsAt (shuffled t identifiers order) q) := by
  unfold buildTopology at hbuilt
  split_ifs at hbuilt
  rw [edges_undirected hundirected, Option.map_some] at hbuilt
  obtain rfl := Option.some.inj hbuilt
  generalize shuffled t identifiers order = used
  rw [neighborsOf_map hp, Int.toNat_of_nonneg hp.1]
  have hmem : q ∈ ((((joins t).flatMap fun e => addUndirectedEdge t (place used e.1) (place used e.2)).filter
      fun e => e.1 = p).map Prod.snd).toFinset ↔
        ∃ e ∈ joins t, (p, q) ∈ addUndirectedEdge t (place used e.1) (place used e.2) := by
    simp [List.mem_flatMap]
  rw [hmem]
  obtain ⟨a, rfl⟩ := Int.eq_ofNat_of_zero_le hp.1
  obtain ⟨b, rfl⟩ := Int.eq_ofNat_of_zero_le hq.1
  have ha : a < t.size := by omega
  have hb : b < t.size := by omega
  have hsame : place used.symm a = place used.symm b ↔ a = b :=
    ⟨fun h => place_inj used.symm ha hb h, fun h => by rw [h]⟩
  simp only [mem_addUndirectedEdge hp hq, Nat.cast_inj, place_eq_iff ha, place_eq_iff hb, Linked, standsAt,
    Int.toNat_natCast, ne_eq, hsame]
  constructor
  · rintro ⟨⟨i, j⟩, he, hne, ⟨rfl, rfl⟩ | ⟨rfl, rfl⟩⟩
    · exact ⟨hne, .inl he⟩
    · exact ⟨hne, .inr he⟩
  · rintro ⟨hne, he | he⟩
    · exact ⟨_, he, hne, .inl ⟨rfl, rfl⟩⟩
    · exact ⟨_, he, hne, .inr ⟨rfl, rfl⟩⟩

end neighbours

end Quantas.Tcp
