import Quantas.Common.Packet

/-!
# Topologies

`TopologyConfig` holds the fields of a topology description that the program reads. Two parts of the
program turn it into neighbour sets: the planner `buildTopology`, which first validates it, and the
builders of `Network`, which do not. Both are written here as the list of neighbours they add, in
order. `Adjacent` is the shape that the documentation gives for each type, as a relation on positions,
and `mem_builderCalls_iff` says that for an accepted description the builders link exactly the adjacent
positions.
-/

namespace Quantas

/-- `topology.type`; `other` is any unknown name. -/
inductive TopologyType
  | complete | star | grid | torus | chain | ring | unidirectionalRing | userList
  | other (name : String)
  deriving DecidableEq, Repr

/-- A topology description. A numeric field is `none` when it is absent or not an integer; `list` maps
peer indices, written in decimal, to their neighbours. -/
structure TopologyConfig where
  initialPeers : Option Int
  type : TopologyType
  height : Option Int := none
  width : Option Int := none
  list : Option (List (String × List Int)) := none
  deriving DecidableEq, Repr

/-- `get<int>()` of a JSON integer: a narrowing conversion. -/
def getInt (v : Int) : Int := v.bmod (2 ^ 32)

namespace TopologyConfig
variable (t : TopologyConfig)

/-- `topology.value("initialPeers", 0)`, as a loop bound. -/
def size : Nat := (getInt (t.initialPeers.getD 0)).toNat

/-- `topology.value("height", 1)`, as a loop bound. -/
def rows : Nat := (getInt (t.height.getD 1)).toNat

/-- `topology.value("width", 1)`, as a loop bound. -/
def columns : Nat := (getInt (t.width.getD 1)).toNat

/-- The neighbours listed for index `i`. -/
def listed (i : Nat) : List Int := ((t.list.getD []).lookup (toString i)).getD []

end TopologyConfig

/-! ## The planner -/

namespace TopologyPlanner

def requirePositiveInteger (v : Option Int) (path : String) : Except String Int :=
  match v with
  | none => .error ("error: " ++ path ++ " must be a positive integer")
  | some v =>
    if getInt v ≤ 0 then .error ("error: " ++ path ++ " must be > 0") else .ok (getInt v)

def validateDimensions (t : TopologyConfig) (initialPeers : Int) : Except String (Int × Int) := do
  let height ← requirePositiveInteger t.height "topology.height"
  let width ← requirePositiveInteger t.width "topology.width"
  if t.type = .torus ∧ (height < 2 ∨ width < 2) then
    .error "error: torus height and width must both be at least 2"
  else if height * width ≠ initialPeers then
    .error "error: topology.height * topology.width must equal topology.initialPeers"
  else .ok (height, width)

/-- `parsePeerId`: the decimal numeral of an id, written as `std::to_string` writes it. -/
def parsePeerId (value : String) (initialPeers : Int) : Except String Int :=
  match value.toInt? with
  | none => .error ("error: topology.list contains invalid peer ID '" ++ value ++ "'")
  | some peerId =>
    if toString peerId ≠ value ∨ peerId < 0 ∨ initialPeers ≤ peerId then
      .error ("error: topology.list contains invalid peer ID '" ++ value ++ "'")
    else .ok peerId

def destinationEdges (ids : Nat → InterfaceId) (initialPeers : Int) (key : String)
    (sourceIndex : Int) : List Int → Except String (List (InterfaceId × InterfaceId))
  | [] => .ok []
  | destinationIndex :: rest =>
    if destinationIndex < 0 ∨ initialPeers ≤ destinationIndex then
      .error ("error: topology.list['" ++ key ++ "'] contains an out-of-range neighbour ID")
    else if destinationIndex = sourceIndex then
      .error ("error: topology.list['" ++ key ++ "'] contains its own peer ID")
    else do
      let edges ← destinationEdges ids initialPeers key sourceIndex rest
      .ok ((ids sourceIndex.toNat, ids destinationIndex.toNat) :: edges)

def listEdges (ids : Nat → InterfaceId) (initialPeers : Int) :
    List (String × List Int) → Except String (List (InterfaceId × InterfaceId))
  | [] => .ok []
  | (key, value) :: rest => do
    let sourceIndex ← parsePeerId key initialPeers
    let edges ← destinationEdges ids initialPeers key sourceIndex value
    let others ← listEdges ids initialPeers rest
    .ok (edges ++ others)

def undirected (a b : InterfaceId) : List (InterfaceId × InterfaceId) :=
  if a = b then [] else [(a, b), (b, a)]

/-- The directed edges that `buildTopology` inserts, in order, where `ids` is the list of ids after the
optional shuffle. -/
def plannedEdges (t : TopologyConfig) (ids : Nat → InterfaceId) :
    Except String (List (InterfaceId × InterfaceId)) := do
  let initialPeers ← requirePositiveInteger t.initialPeers "topology.initialPeers"
  let n := initialPeers.toNat
  match t.type with
  | .complete =>
    .ok <| (List.range n).flatMap fun i =>
      (List.range' (i + 1) (n - (i + 1))).flatMap fun j => undirected (ids i) (ids j)
  | .star => .ok <| (List.range' 1 (n - 1)).flatMap fun i => undirected (ids 0) (ids i)
  | .grid => do
    let (height, width) ← validateDimensions t initialPeers
    .ok <| (List.range height.toNat).flatMap fun i => (List.range width.toNat).flatMap fun j =>
      let idx := i * width.toNat + j
      (if j + 1 < width.toNat then undirected (ids idx) (ids (idx + 1)) else []) ++
        (if i + 1 < height.toNat then undirected (ids idx) (ids (idx + width.toNat)) else [])
  | .torus => do
    let (height, width) ← validateDimensions t initialPeers
    .ok <| (List.range height.toNat).flatMap fun i => (List.range width.toNat).flatMap fun j =>
      let idx := i * width.toNat + j
      undirected (ids idx) (ids (i * width.toNat + (j + 1) % width.toNat)) ++
        undirected (ids idx) (ids ((i + 1) % height.toNat * width.toNat + j))
  | .chain => .ok <| (List.range (n - 1)).flatMap fun i => undirected (ids i) (ids (i + 1))
  | .ring => .ok <| (List.range n).flatMap fun i => undirected (ids i) (ids ((i + 1) % n))
  | .unidirectionalRing => .ok <| (List.range n).map fun i => (ids i, ids ((i + 1) % n))
  | .userList =>
    match t.list with
    | none => .error "error: topology.list must be an object for userList"
    | some list => listEdges ids initialPeers list
  | .other name => .error ("error: missing or unknown topology.type '" ++ name ++ "'")

/-- The planner accepts the description (its verdict does not depend on the order of the ids). -/
def Accepts (t : TopologyConfig) : Prop := (plannedEdges t Int.ofNat).isOk = true

instance (t : TopologyConfig) : Decidable (Accepts t) := inferInstanceAs (Decidable (_ = true))

end TopologyPlanner

/-! ## The builders of `Network` -/

namespace Network
variable (internalId : Nat → InterfaceId)

/-- The calls `_peers[i]->addNeighbor(q)` that `fullyConnect` makes, as pairs `(i, q)`, where
`internalId j` is `_peers[j]->internalId()`. So too for the other builders. -/
def fullyConnect (numberOfPeers : Nat) : List (Nat × InterfaceId) :=
  (List.range numberOfPeers).flatMap fun i =>
    (List.range' (i + 1) (numberOfPeers - (i + 1))).flatMap fun j =>
      if i ≠ j then [(i, internalId j), (j, internalId i)] else []

def star (numberOfPeers : Nat) : List (Nat × InterfaceId) :=
  (List.range' 1 (numberOfPeers - 1)).flatMap fun i => [(0, internalId i), (i, internalId 0)]

def grid (height width : Nat) : List (Nat × InterfaceId) :=
  (List.range height).flatMap fun i => (List.range width).flatMap fun j =>
    let idx := i * width + j
    (if j + 1 < width then [(idx, internalId (idx + 1)), (idx + 1, internalId idx)] else []) ++
      (if i + 1 < height then
        [(idx, internalId (idx + width)), (idx + width, internalId idx)] else [])

def torus (height width : Nat) : List (Nat × InterfaceId) :=
  (List.range height).flatMap fun i => (List.range width).flatMap fun j =>
    let idx := i * width + j
    let rightIdx := i * width + (j + 1) % width
    let downIdx := (i + 1) % height * width + j
    [(idx, internalId rightIdx), (rightIdx, internalId idx),
      (idx, internalId downIdx), (downIdx, internalId idx)]

def chain (numberOfPeers : Nat) : List (Nat × InterfaceId) :=
  (List.range (numberOfPeers - 1)).flatMap fun i => [(i, internalId (i + 1)), (i + 1, internalId i)]

def ring (numberOfPeers : Nat) : List (Nat × InterfaceId) :=
  chain internalId numberOfPeers ++
    if numberOfPeers > 1 then
      [(numberOfPeers - 1, internalId 0), (0, internalId (numberOfPeers - 1))] else []

def unidirectionalRing (numberOfPeers : Nat) : List (Nat × InterfaceId) :=
  ((List.range (numberOfPeers - 1)).map fun i => (i, internalId (i + 1))) ++
    if numberOfPeers > 1 then [(numberOfPeers - 1, internalId 0)] else []

/-- `userList` adds the listed numbers as they are. -/
def userList (t : TopologyConfig) : List (Nat × InterfaceId) :=
  (List.range t.size).flatMap fun i => (t.listed i).map fun dest => (i, dest)

/-- The calls that `initNetwork` makes for the topology's type. -/
def builderCalls (t : TopologyConfig) : List (Nat × InterfaceId) :=
  match t.type with
  | .complete => fullyConnect internalId t.size
  | .star => star internalId t.size
  | .grid => grid internalId t.rows t.columns
  | .torus => torus internalId t.rows t.columns
  | .chain => chain internalId t.size
  | .ring => ring internalId t.size
  | .unidirectionalRing => unidirectionalRing internalId t.size
  | .userList => userList t
  | .other _ => []

end Network

/-! ## The shapes -/

/-- The documented shape of a topology, on positions below `t.size`: position `j` is a neighbour of
position `i`. A grid numbers its positions row by row. -/
def Adjacent (t : TopologyConfig) (i j : Nat) : Prop :=
  match t.type with
  | .complete => i ≠ j
  | .star => i ≠ j ∧ (i = 0 ∨ j = 0)
  | .grid =>
    (i / t.columns = j / t.columns ∧
      (i % t.columns + 1 = j % t.columns ∨ j % t.columns + 1 = i % t.columns)) ∨
    (i % t.columns = j % t.columns ∧
      (i / t.columns + 1 = j / t.columns ∨ j / t.columns + 1 = i / t.columns))
  | .torus =>
    (i / t.columns = j / t.columns ∧
      (j % t.columns = (i % t.columns + 1) % t.columns ∨
        i % t.columns = (j % t.columns + 1) % t.columns)) ∨
    (i % t.columns = j % t.columns ∧
      (j / t.columns = (i / t.columns + 1) % t.rows ∨ i / t.columns = (j / t.columns + 1) % t.rows))
  | .chain => i + 1 = j ∨ j + 1 = i
  | .ring => i ≠ j ∧ (j = (i + 1) % t.size ∨ i = (j + 1) % t.size)
  | .unidirectionalRing => i ≠ j ∧ j = (i + 1) % t.size
  | .userList => (j : Int) ∈ t.listed i
  | .other _ => False

instance (t : TopologyConfig) (i j : Nat) : Decidable (Adjacent t i j) := by
  unfold Adjacent
  cases t.type <;> infer_instance

/-! ## Accepted descriptions -/

theorem bind_ok {ε α β : Type} {x : Except ε α} {f : α → Except ε β} {b : β}
    (h : (x >>= f) = .ok b) : ∃ a, x = .ok a ∧ f a = .ok b := by
  cases x with
  | error e => cases h
  | ok a => exact ⟨a, rfl, h⟩

namespace TopologyPlanner

theorem requirePositiveInteger_ok {v : Option Int} {path : String} {n : Int}
    (h : requirePositiveInteger v path = .ok n) : ∃ w, v = some w ∧ n = getInt w ∧ 0 < n := by
  unfold requirePositiveInteger at h
  split at h
  · cases h
  · next w =>
    split_ifs at h with hpos
    obtain rfl := Except.ok.inj h
    exact ⟨w, rfl, rfl, not_le.mp hpos⟩

theorem validateDimensions_ok {t : TopologyConfig} {n : Int} {dims : Int × Int}
    (h : validateDimensions t n = .ok dims) :
    0 < t.rows ∧ 0 < t.columns ∧ (t.rows * t.columns : Int) = n ∧
      (t.type = .torus → 2 ≤ t.rows ∧ 2 ≤ t.columns) := by
  unfold validateDimensions at h
  obtain ⟨height, hheight, h⟩ := bind_ok h
  obtain ⟨width, hwidth, h⟩ := bind_ok h
  obtain ⟨h', hh, rfl, hhpos⟩ := requirePositiveInteger_ok hheight
  obtain ⟨w', hw, rfl, hwpos⟩ := requirePositiveInteger_ok hwidth
  split_ifs at h with htorus hsize
  have hrows : (t.rows : Int) = getInt h' := by
    simp only [TopologyConfig.rows, hh, Option.getD_some]; omega
  have hcolumns : (t.columns : Int) = getInt w' := by
    simp only [TopologyConfig.columns, hw, Option.getD_some]; omega
  rw [hrows, hcolumns]
  refine ⟨by omega, by omega, not_not.mp hsize, fun ht => ?_⟩
  have := not_and.mp htorus ht
  omega

theorem destinationEdges_ok {ids : Nat → InterfaceId} {n : Int} {key : String} {source : Int}
    {dests : List Int} {edges : List (InterfaceId × InterfaceId)}
    (h : destinationEdges ids n key source dests = .ok edges) : ∀ q ∈ dests, 0 ≤ q ∧ q < n := by
  induction dests generalizing edges with
  | nil => simp
  | cons d rest ih =>
    rw [destinationEdges] at h
    split_ifs at h with hrange hself
    obtain ⟨edges', hrest, -⟩ := bind_ok h
    intro q hq
    rcases List.mem_cons.mp hq with rfl | hq
    · omega
    · exact ih hrest q hq

theorem listEdges_ok {ids : Nat → InterfaceId} {n : Int} {list : List (String × List Int)}
    {edges : List (InterfaceId × InterfaceId)} (h : listEdges ids n list = .ok edges) :
    ∀ e ∈ list, ∀ q ∈ e.2, 0 ≤ q ∧ q < n := by
  induction list generalizing edges with
  | nil => simp
  | cons e rest ih =>
    obtain ⟨key, value⟩ := e
    rw [listEdges] at h
    obtain ⟨source, -, h⟩ := bind_ok h
    obtain ⟨edges', hvalue, h⟩ := bind_ok h
    obtain ⟨others, hrest, -⟩ := bind_ok h
    intro e he
    rcases List.mem_cons.mp he with rfl | he
    · exact destinationEdges_ok hvalue
    · exact ih hrest e he

theorem mem_listed {t : TopologyConfig} {i : Nat} {q : Int} (h : q ∈ t.listed i) :
    ∃ list, t.list = some list ∧ ∃ e ∈ list, q ∈ e.2 := by
  unfold TopologyConfig.listed at h
  cases hlist : t.list with
  | none => simp [hlist] at h
  | some list =>
    rw [hlist, Option.getD_some] at h
    cases hlookup : list.lookup (toString i) with
    | none => exact absurd (hlookup ▸ h) List.not_mem_nil
    | some value =>
      rw [hlookup, Option.getD_some] at h
      obtain ⟨l₁, l₂, heq, -⟩ := List.lookup_eq_some_iff.mp hlookup
      exact ⟨list, rfl, (toString i, value), by simp [heq], h⟩

/-- What the validation establishes. -/
structure Valid (t : TopologyConfig) : Prop where
  size_pos : 0 < t.size
  rows_pos : t.type = .grid ∨ t.type = .torus → 0 < t.rows
  columns_pos : t.type = .grid ∨ t.type = .torus → 0 < t.columns
  area : t.type = .grid ∨ t.type = .torus → t.rows * t.columns = t.size
  listed_lt : t.type = .userList → ∀ i, ∀ q ∈ t.listed i, 0 ≤ q ∧ q < t.size
  known : ∀ name, t.type ≠ .other name

theorem valid_of_accepts {t : TopologyConfig} (h : Accepts t) : Valid t := by
  obtain ⟨edges, h⟩ : ∃ edges, plannedEdges t Int.ofNat = .ok edges := by
    unfold Accepts at h
    cases hedges : plannedEdges t Int.ofNat with
    | error e => simp [hedges, Except.isOk, Except.toBool] at h
    | ok edges => exact ⟨edges, rfl⟩
  unfold plannedEdges at h
  obtain ⟨n, hn, h⟩ := bind_ok h
  obtain ⟨w, hw, rfl, hpos⟩ := requirePositiveInteger_ok hn
  have hsize : (t.size : Int) = getInt w := by
    simp only [TopologyConfig.size, hw, Option.getD_some]; omega
  have hdims : t.type = .grid ∨ t.type = .torus →
      0 < t.rows ∧ 0 < t.columns ∧ t.rows * t.columns = t.size := by
    intro htype
    have hval : ∃ dims, validateDimensions t (getInt w) = .ok dims := by
      rcases htype with htype | htype <;>
      · simp only [htype] at h
        obtain ⟨dims, hdims, -⟩ := bind_ok h
        exact ⟨dims, hdims⟩
    obtain ⟨dims, hdims⟩ := hval
    obtain ⟨hrows, hcolumns, harea, -⟩ := validateDimensions_ok hdims
    exact ⟨hrows, hcolumns, by rw [← hsize] at harea; exact_mod_cast harea⟩
  refine ⟨by omega, fun ht => (hdims ht).1, fun ht => (hdims ht).2.1, fun ht => (hdims ht).2.2,
    ?_, ?_⟩
  · intro htype i q hq
    obtain ⟨list, hlist, e, he, hq⟩ := mem_listed hq
    simp only [htype, hlist] at h
    rw [hsize]
    exact listEdges_ok h e he q hq
  · intro name htype
    simp only [htype] at h
    cases h

end TopologyPlanner

/-! ## The builders link the adjacent positions -/

namespace Network
variable {internalId : Nat → InterfaceId} {n h w : Nat} {i : Nat} {q : InterfaceId}

theorem mem_fullyConnect :
    (i, q) ∈ fullyConnect internalId n ↔ i < n ∧ ∃ j < n, i ≠ j ∧ q = internalId j := by
  simp only [fullyConnect, List.mem_flatMap, List.mem_range, List.mem_range'_1]
  constructor
  · rintro ⟨a, ha, b, hb, hmem⟩
    rw [if_pos (by omega)] at hmem
    simp only [List.mem_cons, Prod.mk.injEq, List.not_mem_nil, or_false] at hmem
    rcases hmem with ⟨rfl, rfl⟩ | ⟨rfl, rfl⟩
    · exact ⟨ha, b, by omega, by omega, rfl⟩
    · exact ⟨by omega, a, ha, by omega, rfl⟩
  · rintro ⟨hi, j, hj, hne, rfl⟩
    rcases Nat.lt_or_gt_of_ne hne with hlt | hlt
    · exact ⟨i, hi, j, by omega, by simp [hne]⟩
    · exact ⟨j, hj, i, by omega, by simp [hne.symm]⟩

theorem mem_star (hn : 0 < n) :
    (i, q) ∈ star internalId n ↔
      i < n ∧ ∃ j < n, (i ≠ j ∧ (i = 0 ∨ j = 0)) ∧ q = internalId j := by
  simp only [star, List.mem_flatMap, List.mem_range'_1, List.mem_cons, Prod.mk.injEq,
    List.not_mem_nil, or_false]
  constructor
  · rintro ⟨a, ha, ⟨rfl, rfl⟩ | ⟨rfl, rfl⟩⟩
    · exact ⟨hn, a, by omega, by omega, rfl⟩
    · exact ⟨by omega, 0, hn, by omega, rfl⟩
  · rintro ⟨hi, j, hj, ⟨hne, rfl | rfl⟩, rfl⟩
    · exact ⟨j, by omega, .inl ⟨rfl, rfl⟩⟩
    · exact ⟨i, by omega, .inr ⟨rfl, rfl⟩⟩

theorem mem_chain :
    (i, q) ∈ chain internalId n ↔
      i < n ∧ ∃ j < n, (i + 1 = j ∨ j + 1 = i) ∧ q = internalId j := by
  simp only [chain, List.mem_flatMap, List.mem_range, List.mem_cons, Prod.mk.injEq,
    List.not_mem_nil, or_false]
  constructor
  · rintro ⟨a, ha, ⟨rfl, rfl⟩ | ⟨rfl, rfl⟩⟩
    · exact ⟨by omega, i + 1, by omega, .inl rfl, rfl⟩
    · exact ⟨by omega, a, by omega, .inr rfl, rfl⟩
  · rintro ⟨hi, j, hj, rfl | rfl, rfl⟩
    · exact ⟨i, by omega, .inl ⟨rfl, rfl⟩⟩
    · exact ⟨j, by omega, .inr ⟨rfl, rfl⟩⟩

theorem succ_mod_eq_iff {i j : Nat} (hi : i < n) (hj : j < n) :
    j = (i + 1) % n ↔ i + 1 = j ∨ (i + 1 = n ∧ j = 0) := by
  rcases Nat.lt_or_ge (i + 1) n with hlt | hge
  · rw [Nat.mod_eq_of_lt hlt]; omega
  · obtain rfl : n = i + 1 := by omega
    rw [Nat.mod_self]; omega

theorem mem_ring :
    (i, q) ∈ ring internalId n ↔
      i < n ∧ ∃ j < n, (i ≠ j ∧ (j = (i + 1) % n ∨ i = (j + 1) % n)) ∧ q = internalId j := by
  rw [ring, List.mem_append, mem_chain]
  constructor
  · rintro (⟨hi, j, hj, hij, rfl⟩ | hmem)
    · refine ⟨hi, j, hj, ⟨by omega, ?_⟩, rfl⟩
      rw [succ_mod_eq_iff hi hj, succ_mod_eq_iff hj hi]
      omega
    · split_ifs at hmem with hn
      · simp only [List.mem_cons, Prod.mk.injEq, List.not_mem_nil, or_false] at hmem
        rcases hmem with ⟨rfl, rfl⟩ | ⟨rfl, rfl⟩
        · refine ⟨by omega, 0, by omega, ⟨by omega, .inl ?_⟩, rfl⟩
          rw [Nat.sub_add_cancel (by omega), Nat.mod_self]
        · refine ⟨by omega, n - 1, by omega, ⟨by omega, .inr ?_⟩, rfl⟩
          rw [Nat.sub_add_cancel (by omega), Nat.mod_self]
      · exact absurd hmem List.not_mem_nil
  · rintro ⟨hi, j, hj, ⟨hne, hij⟩, rfl⟩
    rw [succ_mod_eq_iff hi hj, succ_mod_eq_iff hj hi] at hij
    by_cases hstep : i + 1 = j ∨ j + 1 = i
    · exact .inl ⟨hi, j, hj, hstep, rfl⟩
    · refine .inr ?_
      rw [if_pos (by omega)]
      simp only [List.mem_cons, Prod.mk.injEq, List.not_mem_nil, or_false]
      rcases hij with (hij | ⟨hlast, rfl⟩) | hij | ⟨hlast, rfl⟩
      · omega
      · exact .inl ⟨by omega, rfl⟩
      · omega
      · exact .inr ⟨rfl, by congr 1; omega⟩

theorem mem_unidirectionalRing :
    (i, q) ∈ unidirectionalRing internalId n ↔
      i < n ∧ ∃ j < n, (i ≠ j ∧ j = (i + 1) % n) ∧ q = internalId j := by
  simp only [unidirectionalRing, List.mem_append, List.mem_map, List.mem_range, Prod.mk.injEq]
  constructor
  · rintro (⟨a, ha, rfl, rfl⟩ | hmem)
    · refine ⟨by omega, a + 1, by omega, ⟨by omega, ?_⟩, rfl⟩
      rw [Nat.mod_eq_of_lt (by omega)]
    · split_ifs at hmem with hn
      · obtain ⟨rfl, rfl⟩ := Prod.mk.inj (List.mem_singleton.mp hmem)
        refine ⟨by omega, 0, by omega, ⟨by omega, ?_⟩, rfl⟩
        rw [Nat.sub_add_cancel (by omega), Nat.mod_self]
      · exact absurd hmem List.not_mem_nil
  · rintro ⟨hi, j, hj, ⟨hne, hij⟩, rfl⟩
    rw [succ_mod_eq_iff hi hj] at hij
    rcases hij with rfl | ⟨hlast, rfl⟩
    · exact .inl ⟨i, by omega, rfl, rfl⟩
    · rw [if_pos (by omega)]
      exact .inr (List.mem_singleton.mpr (by congr 1; omega))

theorem cell_lt {r c : Nat} (hr : r < h) (hc : c < w) : r * w + c < h * w :=
  calc r * w + c < (r + 1) * w := by rw [Nat.add_mul, Nat.one_mul]; omega
    _ ≤ h * w := Nat.mul_le_mul_right w hr

theorem cell_div {r c : Nat} (hc : c < w) : (r * w + c) / w = r := by
  rw [Nat.mul_comm, Nat.mul_add_div (by omega), Nat.div_eq_of_lt hc, Nat.add_zero]

theorem cell_mod {r c : Nat} (hc : c < w) : (r * w + c) % w = c := by
  rw [Nat.mul_comm, Nat.mul_add_mod, Nat.mod_eq_of_lt hc]

theorem cell_of_lt (hi : i < h * w) : i / w < h ∧ i % w < w ∧ i / w * w + i % w = i := by
  have hw : 0 < w := Nat.pos_of_ne_zero (by rintro rfl; simp at hi)
  exact ⟨Nat.div_lt_of_lt_mul (by rwa [Nat.mul_comm]), Nat.mod_lt i hw, Nat.div_add_mod' i w⟩

theorem mem_grid :
    (i, q) ∈ grid internalId h w ↔
      i < h * w ∧ ∃ j < h * w,
        ((i / w = j / w ∧ (i % w + 1 = j % w ∨ j % w + 1 = i % w)) ∨
          (i % w = j % w ∧ (i / w + 1 = j / w ∨ j / w + 1 = i / w))) ∧ q = internalId j := by
  simp only [grid, List.mem_flatMap, List.mem_range, List.mem_append]
  constructor
  · rintro ⟨r, hr, c, hc, hmem | hmem⟩
    · split_ifs at hmem with hc'
      · simp only [List.mem_cons, Prod.mk.injEq, List.not_mem_nil, or_false, Nat.add_assoc] at hmem
        have hleft := cell_lt hr hc
        have hright := cell_lt hr hc'
        rcases hmem with ⟨rfl, rfl⟩ | ⟨rfl, rfl⟩
        · refine ⟨hleft, _, hright, .inl ?_, rfl⟩
          simp [cell_div hc, cell_div hc', cell_mod hc, cell_mod hc']
        · refine ⟨hright, _, hleft, .inl ?_, rfl⟩
          simp [cell_div hc, cell_div hc', cell_mod hc, cell_mod hc']
      · exact absurd hmem List.not_mem_nil
    · split_ifs at hmem with hr'
      · rw [show r * w + c + w = (r + 1) * w + c by ring] at hmem
        simp only [List.mem_cons, Prod.mk.injEq, List.not_mem_nil, or_false] at hmem
        have hup := cell_lt hr hc
        have hdown := cell_lt hr' hc
        rcases hmem with ⟨rfl, rfl⟩ | ⟨rfl, rfl⟩
        · refine ⟨hup, _, hdown, .inr ?_, rfl⟩
          simp [cell_div hc, cell_mod hc]
        · refine ⟨hdown, _, hup, .inr ?_, rfl⟩
          simp [cell_div hc, cell_mod hc]
      · exact absurd hmem List.not_mem_nil
  · rintro ⟨hi, j, hj, hadj, rfl⟩
    obtain ⟨hir, hic, hieq⟩ := cell_of_lt hi
    obtain ⟨hjr, hjc, hjeq⟩ := cell_of_lt hj
    rcases hadj with ⟨hrow, hcol | hcol⟩ | ⟨hcol, hrow | hrow⟩
    · -- `j` is the right neighbour of `i`
      refine ⟨i / w, hir, i % w, hic, .inl ?_⟩
      rw [if_pos (by omega), hieq, show i + 1 = j by rw [← hieq, ← hjeq, ← hrow, ← hcol]; ring]
      simp
    · refine ⟨j / w, hjr, j % w, hjc, .inl ?_⟩
      rw [if_pos (by omega), hjeq, show j + 1 = i by rw [← hieq, ← hjeq, hrow, ← hcol]; ring]
      simp
    · -- `j` is below `i`
      refine ⟨i / w, hir, i % w, hic, .inr ?_⟩
      rw [if_pos (by omega), hieq, show i + w = j by rw [← hieq, ← hjeq, ← hrow, hcol]; ring]
      simp
    · refine ⟨j / w, hjr, j % w, hjc, .inr ?_⟩
      rw [if_pos (by omega), hjeq, show j + w = i by rw [← hieq, ← hjeq, ← hrow, hcol]; ring]
      simp

theorem mem_torus (hh : 0 < h) (hw : 0 < w) :
    (i, q) ∈ torus internalId h w ↔
      i < h * w ∧ ∃ j < h * w,
        ((i / w = j / w ∧ (j % w = (i % w + 1) % w ∨ i % w = (j % w + 1) % w)) ∨
          (i % w = j % w ∧ (j / w = (i / w + 1) % h ∨ i / w = (j / w + 1) % h))) ∧
        q = internalId j := by
  simp only [torus, List.mem_flatMap, List.mem_range, List.mem_cons, Prod.mk.injEq,
    List.not_mem_nil, or_false]
  constructor
  · rintro ⟨r, hr, c, hc, hmem⟩
    have hc' : (c + 1) % w < w := Nat.mod_lt _ hw
    have hr' : (r + 1) % h < h := Nat.mod_lt _ hh
    have hhere := cell_lt hr hc
    have hright := cell_lt hr hc'
    have hdown := cell_lt hr' hc
    rcases hmem with ⟨rfl, rfl⟩ | ⟨rfl, rfl⟩ | ⟨rfl, rfl⟩ | ⟨rfl, rfl⟩
    · refine ⟨hhere, _, hright, .inl ?_, rfl⟩
      simp [cell_div hc, cell_div hc', cell_mod hc, cell_mod hc']
    · refine ⟨hright, _, hhere, .inl ?_, rfl⟩
      simp [cell_div hc, cell_div hc', cell_mod hc, cell_mod hc']
    · refine ⟨hhere, _, hdown, .inr ?_, rfl⟩
      simp [cell_div hc, cell_mod hc]
    · refine ⟨hdown, _, hhere, .inr ?_, rfl⟩
      simp [cell_div hc, cell_mod hc]
  · rintro ⟨hi, j, hj, hadj, rfl⟩
    obtain ⟨hir, hic, hieq⟩ := cell_of_lt hi
    obtain ⟨hjr, hjc, hjeq⟩ := cell_of_lt hj
    rcases hadj with ⟨hrow, hcol | hcol⟩ | ⟨hcol, hrow | hrow⟩
    · refine ⟨i / w, hir, i % w, hic, .inl ⟨hieq.symm, ?_⟩⟩
      rw [← hcol, hrow, hjeq]
    · refine ⟨j / w, hjr, j % w, hjc, .inr (.inl ⟨?_, by rw [hjeq]⟩)⟩
      rw [← hcol, ← hrow, hieq]
    · refine ⟨i / w, hir, i % w, hic, .inr (.inr (.inl ⟨hieq.symm, ?_⟩))⟩
      rw [← hrow, hcol, hjeq]
    · refine ⟨j / w, hjr, j % w, hjc, .inr (.inr (.inr ⟨?_, by rw [hjeq]⟩))⟩
      rw [← hrow, ← hcol, hieq]

theorem mem_userList {t : TopologyConfig}
    (hlisted : ∀ i, ∀ q ∈ t.listed i, 0 ≤ q ∧ q < t.size) :
    (i, q) ∈ userList t ↔
      i < t.size ∧ ∃ j < t.size, ((j : Int) ∈ t.listed i) ∧ q = (j : Int) := by
  simp only [userList, List.mem_flatMap, List.mem_range, List.mem_map, Prod.mk.injEq]
  constructor
  · rintro ⟨a, ha, dest, hdest, rfl, rfl⟩
    obtain ⟨hnonneg, hlt⟩ := hlisted a dest hdest
    have hcast : ((dest.toNat : Nat) : Int) = dest := Int.toNat_of_nonneg hnonneg
    exact ⟨ha, dest.toNat, by omega, by rwa [hcast], hcast.symm⟩
  · rintro ⟨hi, j, hj, hmem, rfl⟩
    exact ⟨i, hi, j, hmem, rfl, rfl⟩

/-- The id under which a builder adds the peer at position `j`: a user list adds the position itself. -/
def linkedId (t : TopologyConfig) (internalId : Nat → InterfaceId) (j : Nat) : InterfaceId :=
  if t.type = .userList then j else internalId j

/-- **The builders draw the documented shape.** For an accepted description the peer at position `i`
gets the ids of the positions adjacent to `i`, and no others. -/
theorem mem_builderCalls_iff {t : TopologyConfig} (hv : TopologyPlanner.Valid t) :
    (i, q) ∈ builderCalls internalId t ↔
      i < t.size ∧ ∃ j < t.size, Adjacent t i j ∧ q = linkedId t internalId j := by
  have hid : t.type ≠ .userList → linkedId t internalId = internalId := by
    intro htype
    funext j
    rw [linkedId, if_neg htype]
  unfold builderCalls Adjacent
  cases htype : t.type with
  | complete => rw [hid (by simp [htype])]; exact mem_fullyConnect
  | star => rw [hid (by simp [htype])]; exact mem_star hv.size_pos
  | grid => rw [hid (by simp [htype]), ← hv.area (.inl htype)]; exact mem_grid
  | torus =>
    rw [hid (by simp [htype]), ← hv.area (.inr htype)]
    exact mem_torus (hv.rows_pos (.inr htype)) (hv.columns_pos (.inr htype))
  | chain => rw [hid (by simp [htype])]; exact mem_chain
  | ring => rw [hid (by simp [htype])]; exact mem_ring
  | unidirectionalRing => rw [hid (by simp [htype])]; exact mem_unidirectionalRing
  | userList =>
    simp only [linkedId, if_pos htype]
    exact mem_userList (hv.listed_lt htype)
  | other name => exact absurd htype (hv.known name)

end Network

end Quantas
