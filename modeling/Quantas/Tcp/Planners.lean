import Quantas.Network.Planner
import Quantas.Tcp.Topology

/-!
# The two planners

The coordinator's `buildTopology` and the runtime's are separate copies. The coordinator's validates nothing: it
reshapes a grid that does not fit, reads a key of the user list as far as its digits go and skips what is out of
range. On a description that the runtime's planner accepts none of this happens, and both return the same
assignments for the same order of the ids.
-/

namespace Quantas.Tcp
open Network (place)
open TopologyPlanner (InRange undirected plannedEdges plannedEdges_eq_ok)

/-! ## The keys of the user list -/

theorem getInt_of_lt {d : Int} (hd : 0 ≤ d) (hlt : d < 2 ^ 31) : getInt d = d := by
  unfold getInt
  apply Int.bmod_eq_of_le
  · omega
  · omega

theorem isDigit_bounds {d : Char} (h : d.isDigit = true) : 48 ≤ d.toNat ∧ d.toNat ≤ 57 := by
  simp only [Char.isDigit, Bool.and_eq_true, decide_eq_true_eq] at h
  exact ⟨h.1, h.2⟩

theorem foldl_digits (digits : List Char) (start : Nat) (h : ∀ d ∈ digits, d.isDigit = true) :
    digits.foldl (fun (v : Int) d => 10 * v + (d.toNat - '0'.toNat)) start =
      (Nat.ofDigitChars 10 digits start : Int) := by
  induction digits generalizing start with
  | nil => simp
  | cons d rest ih =>
    have hd := isDigit_bounds (h d List.mem_cons_self)
    have hstep : 10 * (start : Int) + (d.toNat - '0'.toNat) = ((10 * start + (d.toNat - '0'.toNat) : Nat) : Int) := by
      have hzero : '0'.toNat = 48 := rfl
      rw [hzero]
      omega
    rw [List.foldl_cons, hstep, ih _ fun d' hd' => h d' (List.mem_cons_of_mem d hd'), Nat.ofDigitChars_cons]

theorem stoi_toString {i : Nat} (hi : i < 2 ^ 31) : stoi (toString i) = some (i : Int) := by
  have hdigits : ∀ d ∈ Nat.toDigits 10 i, d.isDigit = true := by
    intro d hd
    exact Nat.isDigit_of_mem_toDigits (by omega) (by omega) hd
  have hchars : (toString i).toList = Nat.toDigits 10 i := Nat.toList_repr
  obtain ⟨first, rest, hcons⟩ := List.exists_cons_of_ne_nil (Nat.toDigits_ne_nil (n := i) (b := 10))
  have hfirst := isDigit_bounds (hdigits first (hcons ▸ List.mem_cons_self))
  have hsign : ∀ sign : Char, sign.toNat < 48 → first ≠ sign := by
    intro sign hlt heq
    rw [← heq] at hlt
    omega
  have hspace : first ≠ ' ' := hsign ' ' (by decide)
  have hminus : first ≠ '-' := hsign '-' (by decide)
  have hplus : first ≠ '+' := hsign '+' (by decide)
  have hdrop : (Nat.toDigits 10 i).dropWhile (fun c => c = ' ' ∨ (9 ≤ c.toNat ∧ c.toNat ≤ 13)) =
      Nat.toDigits 10 i := by
    rw [hcons, List.dropWhile_cons_of_neg]
    simp only [hspace, false_or, decide_eq_true_eq]
    omega
  have htake : (Nat.toDigits 10 i).takeWhile Char.isDigit = Nat.toDigits 10 i :=
    List.takeWhile_eq_self_iff.mpr hdigits
  have hvalue := foldl_digits (Nat.toDigits 10 i) 0 hdigits
  rw [Nat.ofDigitChars_ten_toDigits] at hvalue
  have hint : getInt (i : Int) = i := getInt_of_lt (by omega) (by omega)
  have hhead : (Nat.toDigits 10 i).head? = some first := by
    rw [hcons]
    rfl
  simp only [stoi, hchars, hdrop, hhead, Option.some.injEq, hminus, hplus, or_self, if_false, htake]
  rw [show ((0 : Nat) : Int) = 0 from rfl] at hvalue
  simp only [hvalue, hint, Nat.toDigits_ne_nil, ne_eq, not_true_eq_false, or_self, if_false]

/-! ## Edges -/

section edges
variable {t : TopologyConfig} {ids : Nat → InterfaceId}

theorem inRange_comm {a b : InterfaceId} : InRange t (a, b) ↔ InRange t (b, a) := by
  unfold InRange
  tauto

theorem filter_undirected (a b : InterfaceId) :
    ((undirected a b).filter fun e => InRange t e) = addUndirectedEdge t a b := by
  unfold undirected addUndirectedEdge
  by_cases hab : a = b
  · simp [hab]
  · by_cases hin : InRange t (a, b)
    · rw [if_neg hab, if_neg (not_or.mpr ⟨hab, hin⟩)]
      simp [hin, inRange_comm.mp hin]
    · have hback : ¬InRange t (b, a) := fun h => hin (inRange_comm.mp h)
      rw [if_neg hab, if_pos (Or.inr (not_not.mp hin))]
      simp [hin, hback]

theorem filter_directed (a b : InterfaceId) :
    ([(a, b)].filter fun e => InRange t e) = addDirectedEdge t a b := by
  unfold addDirectedEdge
  by_cases hin : InRange t (a, b)
  · rw [if_neg hin]
    simp [hin]
  · rw [if_pos (not_not.mp hin)]
    simp [hin]

theorem dimensions_of_area (hrows : 0 < t.rows) (hcolumns : 0 < t.columns)
    (harea : (t.rows * t.columns : Int) = t.size) : dimensions t = (t.rows, t.columns) := by
  have hheight : getInt (t.height.getD 1) = t.rows := by
    have : 0 < (getInt (t.height.getD 1)).toNat := hrows
    unfold TopologyConfig.rows
    omega
  have hwidth : getInt (t.width.getD 1) = t.columns := by
    have : 0 < (getInt (t.width.getD 1)).toNat := hcolumns
    unfold TopologyConfig.columns
    omega
  rw [dimensions, hheight, hwidth, if_neg (not_not.mpr harea)]

theorem edges_eq_flatMap_joins {edges : List (InterfaceId × InterfaceId)} (h : plannedEdges t ids = .ok edges)
    (hundirected : Undirected t) : edges = (joins t).flatMap fun e => undirected (ids e.1) (ids e.2) := by
  obtain ⟨hsize, -, h⟩ := plannedEdges_eq_ok h
  unfold joins
  cases ht : t.type with
  | complete =>
    simp only [ht] at h
    simp only [h, List.flatMap_assoc, List.flatMap_map]
  | star =>
    simp only [ht] at h
    simp only [h, List.flatMap_map]
  | chain =>
    simp only [ht] at h
    simp only [h, List.flatMap_map]
  | ring =>
    simp only [ht] at h
    simp only [h, List.flatMap_map]
  | grid =>
    simp only [ht] at h
    obtain ⟨hcolumns, harea, h⟩ := h
    have hrows : 0 < t.rows := by
      apply Nat.pos_of_ne_zero
      intro hzero
      rw [hzero] at harea
      omega
    rw [dimensions_of_area hrows hcolumns harea, h]
    simp only [List.flatMap_assoc, List.flatMap_append]
    apply List.flatMap_congr
    intro i _
    apply List.flatMap_congr
    intro j _
    congr 1
    · split_ifs <;> simp
    · split_ifs <;> simp
  | torus =>
    simp only [ht] at h
    obtain ⟨⟨hrows, hcolumns⟩, harea, h⟩ := h
    rw [dimensions_of_area (by omega) (by omega) harea, h]
    simp only [List.flatMap_assoc, List.flatMap_cons, List.flatMap_nil, List.append_nil]
  | unidirectionalRing => exact absurd ht hundirected.1
  | userList => exact absurd ht hundirected.2
  | other name => simp only [ht] at h

theorem mem_listedEdges (ids : Nat → InterfaceId) (hsize : t.size < 2 ^ 31) {list : List (String × List Int)}
    (hall : ∀ e ∈ list, ∃ i < t.size, e.1 = toString i ∧ ∀ d ∈ e.2, 0 ≤ d ∧ d < t.size ∧ d ≠ (i : Int)) :
    ∃ edges, listedEdges t ids list = some edges ∧
      ∀ p q, (p, q) ∈ edges ↔ ∃ e ∈ list, ∃ i < t.size, e.1 = toString i ∧
        ∃ d ∈ e.2, (p, q) ∈ addDirectedEdge t (ids i) (ids d.toNat) := by
  induction list with
  | nil => exact ⟨[], rfl, by simp⟩
  | cons entry rest ih =>
    obtain ⟨key, value⟩ := entry
    obtain ⟨others, hothers, hmem⟩ := ih fun e he => hall e (List.mem_cons_of_mem _ he)
    obtain ⟨i, hi, hkey, hdests⟩ := hall _ List.mem_cons_self
    simp only at hkey hdests
    have hstoi : stoi key = some (i : Int) := by
      rw [hkey]
      exact stoi_toString (by omega)
    have hskip : ¬((i : Int) < 0 ∨ (t.size : Int) ≤ i) := by omega
    refine ⟨_, by simp only [listedEdges, hstoi, hothers, Option.bind_eq_bind, Option.bind_some, if_neg hskip]; rfl,
      ?_⟩
    intro p q
    have hhere : (p, q) ∈ (value.map getInt).flatMap (fun neighborIndex : Int =>
        if neighborIndex < 0 ∨ t.size ≤ neighborIndex then []
        else addDirectedEdge t (ids (i : Int).toNat) (ids neighborIndex.toNat)) ↔
          ∃ d ∈ value, (p, q) ∈ addDirectedEdge t (ids i) (ids d.toNat) := by
      rw [List.flatMap_map, List.mem_flatMap]
      apply exists_congr
      intro d
      apply and_congr_right
      intro hd
      obtain ⟨hnonneg, hlt, -⟩ := hdests d hd
      rw [getInt_of_lt hnonneg (by omega), if_neg (by omega), Int.toNat_natCast]
    rw [List.mem_append, hhere, hmem]
    constructor
    · rintro (⟨d, hd, hedge⟩ | ⟨e, he, hrest⟩)
      · exact ⟨_, List.mem_cons_self, i, hi, hkey, d, hd, hedge⟩
      · exact ⟨e, List.mem_cons_of_mem _ he, hrest⟩
    · rintro ⟨e, he, j, hj, hkeyj, d, hd, hedge⟩
      rcases List.mem_cons.mp he with rfl | he
      · obtain rfl : i = j := Nat.repr_injective (hkey.symm.trans hkeyj)
        exact Or.inl ⟨d, hd, hedge⟩
      · exact Or.inr ⟨e, he, j, hj, hkeyj, d, hd, hedge⟩

theorem mem_edges_iff {planned : List (InterfaceId × InterfaceId)} (h : plannedEdges t ids = .ok planned) :
    ∃ inserted, edges t ids = some inserted ∧
      ∀ p q, (p, q) ∈ inserted ↔ (p, q) ∈ planned ∧ InRange t (p, q) := by
  have hmem : ∀ (l : List (InterfaceId × InterfaceId)) (p q : InterfaceId),
      (p, q) ∈ (l.filter fun e => InRange t e) ↔ (p, q) ∈ l ∧ InRange t (p, q) := by
    intro l p q
    rw [List.mem_filter, decide_eq_true_eq]
  by_cases hundirected : Undirected t
  · refine ⟨_, edges_undirected hundirected ids, ?_⟩
    intro p q
    rw [← hmem, edges_eq_flatMap_joins h hundirected, List.filter_flatMap]
    simp only [filter_undirected]
  · obtain ⟨-, hint, h⟩ := plannedEdges_eq_ok h
    have hsize : t.size < 2 ^ 31 := by
      have hlt : getInt (t.initialPeers.getD 0) < 2 ^ 31 := by
        have := Int.bmod_lt (x := t.initialPeers.getD 0) (m := 2 ^ 32) (by norm_num)
        unfold getInt
        omega
      omega
    unfold edges
    cases ht : t.type with
    | unidirectionalRing =>
      simp only [ht] at h ⊢
      refine ⟨_, rfl, ?_⟩
      intro p q
      rw [h]
      simp only [List.mem_flatMap, List.mem_map, ← filter_directed, hmem, List.mem_singleton]
      constructor
      · rintro ⟨i, hi, hpq, hin⟩
        exact ⟨⟨i, hi, hpq.symm⟩, hin⟩
      · rintro ⟨⟨i, hi, hpq⟩, hin⟩
        exact ⟨i, hi, hpq.symm, hin⟩
    | userList =>
      simp only [ht] at h ⊢
      obtain ⟨list, hlist, h⟩ := h
      obtain ⟨hall, hplanned⟩ := TopologyPlanner.listEdges_eq_ok h
      obtain ⟨inserted, hinserted, hcoordinator⟩ := mem_listedEdges ids hsize hall
      refine ⟨inserted, by rw [hlist, Option.getD_some, hinserted], ?_⟩
      intro p q
      rw [hcoordinator, hplanned]
      simp only [← filter_directed, hmem, List.mem_singleton, Prod.mk.injEq]
      constructor
      · rintro ⟨e, he, i, hi, hkey, d, hd, hpq, hin⟩
        exact ⟨⟨e, he, i, hi, hkey, d, hd, hpq⟩, hin⟩
      · rintro ⟨⟨e, he, i, hi, hkey, d, hd, hpq⟩, hin⟩
        exact ⟨e, he, i, hi, hkey, d, hd, hpq, hin⟩
    | complete | star | grid | torus | chain | ring | other => simp [Undirected, ht] at hundirected

end edges

/-- **The planners agree.** Whatever the runtime's planner accepts, the coordinator's own builder returns the same
ids with the same neighbours for the same order of the ids. -/
theorem planners_agree {t : TopologyConfig} {identifiers : String} {order : Equiv.Perm (Fin t.size)}
    {planned : List Quantas.PeerAssignment}
    (h : TopologyPlanner.buildTopology t identifiers order = .ok planned) :
    buildTopology t identifiers order =
      some (planned.map fun a => { id := a.id, neighbors := a.neighbors }) := by
  obtain ⟨edges, hedges, rfl⟩ := TopologyPlanner.buildTopology_eq_ok h
  obtain ⟨hpos, hint, -⟩ := plannedEdges_eq_ok hedges
  obtain ⟨inserted, hinserted, hmem⟩ := mem_edges_iff hedges
  have hsame : shuffled t identifiers order = TopologyPlanner.shuffledIds t identifiers order := rfl
  unfold buildTopology
  rw [if_neg (by omega), hsame, hinserted, Option.map_some, List.map_map]
  congr 1
  apply List.map_congr_left
  intro i _
  simp only [Function.comp_apply, PeerAssignment.mk.injEq, true_and]
  ext q
  rw [TopologyPlanner.mem_neighbors_of_edges, ← hmem]
  simp

/-- A user list of three peers under the order that exchanges the first two. -/
theorem planners_agree_userList :
    let t : TopologyConfig :=
      { initialPeers := some 3, type := .userList, list := some [("0", [1, 2]), ("2", [0])] }
    let order : Equiv.Perm (Fin t.size) := Equiv.swap ⟨0, by decide⟩ ⟨1, by decide⟩
    ∃ planned, TopologyPlanner.buildTopology t "random" order = .ok planned ∧
      buildTopology t "random" order =
        some (planned.map fun a => { id := a.id, neighbors := a.neighbors }) := by
  intro t order
  have hfirst : TopologyPlanner.parsePeerId "0" 3 = .ok 0 := TopologyPlanner.parsePeerId_toString (i := 0) (by decide)
  have hlast : TopologyPlanner.parsePeerId "2" 3 = .ok 2 := TopologyPlanner.parsePeerId_toString (i := 2) (by decide)
  have hbuilt : ∃ planned, TopologyPlanner.buildTopology t "random" order = .ok planned := by
    unfold TopologyPlanner.buildTopology
    generalize (fun k => (place (TopologyPlanner.shuffledIds t "random" order) k : InterfaceId)) = ids
    have hedges : ∃ edges, plannedEdges t ids = .ok edges := by
      refine ⟨[(ids 0, ids 1), (ids 0, ids 2), (ids 2, ids 0)], ?_⟩
      have hpeers : getInt 3 = 3 := by decide
      simp [plannedEdges, TopologyPlanner.requirePositiveInteger, TopologyPlanner.listEdges, t, hpeers, hfirst,
        hlast, TopologyPlanner.destinationEdges, bind, Except.bind]
    obtain ⟨edges, hedges⟩ := hedges
    rw [hedges]
    exact ⟨_, rfl⟩
  obtain ⟨planned, hplanned⟩ := hbuilt
  exact ⟨planned, hplanned, planners_agree hplanned⟩

end Quantas.Tcp
