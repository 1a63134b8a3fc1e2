import Quantas.Network.Planner
import Quantas.Network.Channel

/-!
# The counts of an experiment

`parseRuntimeExperiment` reads how many peers, rounds and tests an experiment has, and `buildTopology` how many peers,
rows and columns its graph has. Both check that a count is a positive integer after `get<int>`, which keeps the low
32 bits of a JSON integer. So a number beyond `int` is refused only when its low bits are no positive `int`; otherwise
the experiment runs with these bits as its count. A height or a width is not read at all unless the type has one.
-/

namespace Quantas

/-- An experiment of the configuration file. `initialPeerType` is a member of its topology. -/
structure Experiment where
  topology : Option TopologyConfig
  initialPeerType : String := ""
  rounds : Option Int
  tests : Option Int
  doneTimeoutMs : Option Int := none

structure RuntimeExperimentConfig where
  initialPeers : Int := 0
  initialPeerType : String
  topology : TopologyConfig
  rounds : Int := 0
  tests : Int := 1
  doneTimeoutMs : Int := 30000
  deriving DecidableEq

namespace RuntimeConfig
open TopologyPlanner (requirePositiveInteger requirePositiveInteger_ok validateDimensions plannedEdges buildTopology
  buildTopology_eq_ok plannedEdges_eq_ok)
open Abstract (getInt_eq isInt_getInt)

/-- The same check as the planner's `requirePositiveInteger`. -/
def requiredPositiveInteger (v : Option Int) (path : String) : Except String Int := requirePositiveInteger v path

def parseRuntimeExperiment (experiments : List Experiment) (expIndex : Nat) :
    Except String RuntimeExperimentConfig :=
  match experiments[expIndex]? with
  | none => .error s!"[json.exception.out_of_range.401] array index {expIndex} is out of range"
  | some experiment =>
    match experiment.topology with
    | none => .error "error: experiment missing 'topology'"
    | some topology => do
      let initialPeers ← requiredPositiveInteger topology.initialPeers "topology.initialPeers"
      let rounds ← requiredPositiveInteger experiment.rounds "rounds"
      let tests ← requiredPositiveInteger experiment.tests "tests"
      let doneTimeoutMs := getInt (experiment.doneTimeoutMs.getD 30000)
      if experiment.initialPeerType = "" then .error "error: topology.initialPeerType is empty"
      else if doneTimeoutMs ≤ 0 then .error "error: doneTimeoutMs must be > 0"
      else .ok { initialPeers, initialPeerType := experiment.initialPeerType, topology, rounds, tests, doneTimeoutMs }

/-! ## Counts -/

inductive Count
  | initialPeers
  | rounds
  | tests
  | height
  | width
  deriving DecidableEq, Repr

namespace Count

def given (e : Experiment) : Count → Option Int
  | initialPeers => e.topology.bind (·.initialPeers)
  | rounds => e.rounds
  | tests => e.tests
  | height => e.topology.bind (·.height)
  | width => e.topology.bind (·.width)

def parsed (out : RuntimeExperimentConfig) : Count → Option Int
  | initialPeers => some out.initialPeers
  | rounds => some out.rounds
  | tests => some out.tests
  | height | width => none

/-- The number that the graph is built with; only a grid and a torus have a height and a width. -/
def built (t : TopologyConfig) (assignments : List PeerAssignment) : Count → Option Int
  | initialPeers => some assignments.length
  | rounds | tests => none
  | height =>
    if t.type = .grid ∨ t.type = .torus then (validateDimensions t t.size).toOption.map Prod.fst else none
  | width =>
    if t.type = .grid ∨ t.type = .torus then (validateDimensions t t.size).toOption.map Prod.snd else none

end Count

def HasDimensions (t : TopologyConfig) : Prop := t.type = .grid ∨ t.type = .torus

def Count.IsDimension (c : Count) : Prop := c = .height ∨ c = .width

/-- A positive `int`. -/
def IsCount (v : Int) : Prop := 1 ≤ v ∧ v < 2 ^ 31

instance (v : Int) : Decidable (IsCount v) := inferInstanceAs (Decidable (_ ∧ _))

/-- In every description whose type has dimensions, or has none, and that gives `v` as the count: the number that a
call reads or builds with is `v`, and no experiment is accepted unless `v` is a positive `int`. -/
structure TakenAtFaceValue (dimensions : Bool) (c : Count) (v : Int) : Prop where
  parsed : ∀ (experiments : List Experiment) (expIndex : Nat) e t out n, experiments[expIndex]? = some e →
    e.topology = some t → (HasDimensions t ↔ dimensions = true) → c.given e = some v →
    parseRuntimeExperiment experiments expIndex = .ok out → c.parsed out = some n → n = v ∧ IsCount v
  built : ∀ (e : Experiment) t identifiers order assignments n, e.topology = some t →
    (HasDimensions t ↔ dimensions = true) → c.given e = some v →
    buildTopology t identifiers order = .ok assignments → c.built t assignments = some n → n = v ∧ IsCount v
  refused : ∀ (experiments : List Experiment) (expIndex : Nat) e out identifiers order assignments,
    experiments[expIndex]? = some e → (HasDimensions out.topology ↔ dimensions = true) → c.given e = some v →
    parseRuntimeExperiment experiments expIndex = .ok out →
    buildTopology out.topology identifiers order = .ok assignments → IsCount v

/-- An accepted experiment of these descriptions has a number for the count. -/
def UsedWhereAccepted (dimensions : Bool) (c : Count) (v : Int) : Prop :=
  ∀ (experiments : List Experiment) (expIndex : Nat) e out identifiers order assignments,
    experiments[expIndex]? = some e → (HasDimensions out.topology ↔ dimensions = true) → c.given e = some v →
    parseRuntimeExperiment experiments expIndex = .ok out →
    buildTopology out.topology identifiers order = .ok assignments →
    ∃ n, c.parsed out = some n ∨ c.built out.topology assignments = some n

/-! ## What is read -/

theorem requiredPositiveInteger_ok {v : Option Int} {path : String} {n : Int}
    (h : requiredPositiveInteger v path = .ok n) : ∃ w, v = some w ∧ n = getInt w ∧ 0 < n :=
  requirePositiveInteger_ok h

theorem requiredPositiveInteger_some {v : Int} (h : 0 < getInt v) (path : String) :
    requiredPositiveInteger (some v) path = .ok (getInt v) := by
  show (if getInt v ≤ 0 then _ else Except.ok (getInt v)) = Except.ok (getInt v)
  rw [if_neg (by omega)]

theorem parseRuntimeExperiment_ok {experiments : List Experiment} {expIndex : Nat} {out : RuntimeExperimentConfig}
    (h : parseRuntimeExperiment experiments expIndex = .ok out) :
    ∃ e t, experiments[expIndex]? = some e ∧ e.topology = some t ∧ out.topology = t ∧
      (∃ w, t.initialPeers = some w ∧ out.initialPeers = getInt w ∧ 0 < out.initialPeers) ∧
      (∃ w, e.rounds = some w ∧ out.rounds = getInt w ∧ 0 < out.rounds) ∧
      ∃ w, e.tests = some w ∧ out.tests = getInt w ∧ 0 < out.tests := by
  unfold parseRuntimeExperiment at h
  cases he : experiments[expIndex]? with
  | none =>
    rw [he] at h
    cases h
  | some e =>
    rw [he] at h
    dsimp only at h
    cases ht : e.topology with
    | none =>
      rw [ht] at h
      cases h
    | some t =>
      rw [ht] at h
      obtain ⟨initialPeers, hpeers, h⟩ := bind_ok h
      obtain ⟨rounds, hrounds, h⟩ := bind_ok h
      obtain ⟨tests, htests, h⟩ := bind_ok h
      split_ifs at h
      obtain rfl := Except.ok.inj h
      exact ⟨e, t, rfl, ht, rfl, requiredPositiveInteger_ok hpeers, requiredPositiveInteger_ok hrounds,
        requiredPositiveInteger_ok htests⟩

theorem getInt_getInt (v : Int) : getInt (getInt v) = getInt v := getInt_eq (isInt_getInt v)

theorem read_exactly {v n : Int} (h : n = getInt v) (hpos : 0 < n) (hv : IsCount v ∨ getInt v ≤ 0) :
    n = v ∧ IsCount v := by
  rcases hv with hv | hv
  · have hsame : getInt v = v := by
      apply getInt_eq
      unfold IsCount at hv
      unfold Abstract.IsInt Abstract.INT_MAX
      omega
    exact ⟨h.trans hsame, hv⟩
  · omega

theorem validateDimensions_read {t : TopologyConfig} {n : Int} {dims : Int × Int}
    (h : validateDimensions t n = .ok dims) :
    (∃ w, t.height = some w ∧ dims.1 = getInt w ∧ 0 < dims.1) ∧
      ∃ w, t.width = some w ∧ dims.2 = getInt w ∧ 0 < dims.2 := by
  unfold validateDimensions at h
  obtain ⟨height, hheight, h⟩ := bind_ok h
  obtain ⟨width, hwidth, h⟩ := bind_ok h
  split_ifs at h
  obtain rfl := Except.ok.inj h
  exact ⟨requirePositiveInteger_ok hheight, requirePositiveInteger_ok hwidth⟩

theorem used_dimension {t : TopologyConfig} {f : Int × Int → Int} {n : Int}
    (h : (if t.type = .grid ∨ t.type = .torus then (validateDimensions t t.size).toOption.map f else none) =
      some n) : ∃ dims, validateDimensions t t.size = .ok dims ∧ n = f dims := by
  split_ifs at h
  cases hdims : validateDimensions t t.size with
  | error message =>
    rw [hdims] at h
    cases h
  | ok dims =>
    rw [hdims] at h
    exact ⟨dims, rfl, (Option.some.inj h).symm⟩

theorem dimensions_of_built {t : TopologyConfig} {identifiers : String} {order : Equiv.Perm (Fin t.size)}
    {assignments : List PeerAssignment} (h : buildTopology t identifiers order = .ok assignments)
    (ht : HasDimensions t) : ∃ dims, validateDimensions t t.size = .ok dims := by
  obtain ⟨edges, hedges, -⟩ := buildTopology_eq_ok h
  obtain ⟨hsize, hread, -⟩ := plannedEdges_eq_ok hedges
  unfold plannedEdges at hedges
  obtain ⟨n, hn, hedges⟩ := bind_ok hedges
  obtain ⟨w, hw, rfl, -⟩ := requirePositiveInteger_ok hn
  rw [hw, Option.getD_some] at hread
  rw [hread] at hedges
  rcases ht with htype | htype
  · rw [htype] at hedges
    obtain ⟨dims, hdims, -⟩ := bind_ok hedges
    exact ⟨dims, hdims⟩
  · rw [htype] at hedges
    obtain ⟨dims, hdims, -⟩ := bind_ok hedges
    exact ⟨dims, hdims⟩

theorem Count.built_some {c : Count} (hc : c.IsDimension) {t : TopologyConfig} {identifiers : String}
    {order : Equiv.Perm (Fin t.size)} {assignments : List PeerAssignment}
    (h : buildTopology t identifiers order = .ok assignments) (ht : HasDimensions t) :
    ∃ n, c.built t assignments = some n := by
  obtain ⟨dims, hdims⟩ := dimensions_of_built h ht
  unfold HasDimensions at ht
  rcases hc with rfl | rfl
  · exact ⟨dims.1, by simp only [Count.built]; rw [if_pos ht, hdims]; rfl⟩
  · exact ⟨dims.2, by simp only [Count.built]; rw [if_pos ht, hdims]; rfl⟩

/-! ## Counts beyond an int -/

def runOn (topology : TopologyConfig) (rounds tests : Int) : Experiment where
  topology := some topology
  initialPeerType := "ExamplePeer"
  rounds := some rounds
  tests := some tests

theorem parse_runOn (topology : TopologyConfig) {peers : Int} (rounds tests : Int)
    (hgiven : topology.initialPeers = some peers) (hpeers : 0 < getInt peers)
    (hrounds : 0 < getInt rounds) (htests : 0 < getInt tests) :
    ∃ out, parseRuntimeExperiment [runOn topology rounds tests] 0 = .ok out ∧ out.topology = topology ∧
      out.initialPeers = getInt peers ∧ out.rounds = getInt rounds ∧ out.tests = getInt tests := by
  refine ⟨{ initialPeers := getInt peers, initialPeerType := "ExamplePeer", topology,
            rounds := getInt rounds, tests := getInt tests, doneTimeoutMs := getInt 30000 }, ?_, rfl, rfl, rfl, rfl⟩
  simp only [parseRuntimeExperiment, runOn, List.getElem?_cons_zero, hgiven, requiredPositiveInteger_some hpeers,
    requiredPositiveInteger_some hrounds, requiredPositiveInteger_some htests, bind, Except.bind]
  rfl

def described (dimensions : Bool) (peers : Int) : TopologyConfig where
  initialPeers := some peers
  type := if dimensions then .grid else .star

theorem hasDimensions_described (dimensions : Bool) (peers : Int) :
    HasDimensions (described dimensions peers) ↔ dimensions = true := by
  cases dimensions with
  | false => simp [HasDimensions, described]
  | true => simp [HasDimensions, described]

def starOf (height width : Int) : TopologyConfig where
  initialPeers := some 1
  type := .star
  height := some height
  width := some width

theorem starOf_accepted (height width : Int) : ∃ out assignments,
    parseRuntimeExperiment [runOn (starOf height width) 1 1] 0 = .ok out ∧ out.topology = starOf height width ∧
      buildTopology (starOf height width) "" 1 = .ok assignments := by
  obtain ⟨out, hparse, htopology, -⟩ := parse_runOn (starOf height width) 1 1 rfl (by decide) (by decide)
    (by decide)
  exact ⟨out, _, hparse, htopology, rfl⟩

/-- A grid of the given dimensions with as many peers as their low bits ask for. -/
def gridOf (height width : Int) : TopologyConfig where
  initialPeers := some (getInt height * getInt width)
  type := .grid
  height := some height
  width := some width

theorem build_gridOf {height width : Int} (hheight : 0 < getInt height) (hwidth : 0 < getInt width)
    (hint : getInt (getInt height * getInt width) = getInt height * getInt width) :
    ∃ assignments, buildTopology (gridOf height width) "" 1 = .ok assignments ∧
      (validateDimensions (gridOf height width) (gridOf height width).size) = .ok (getInt height, getInt width) := by
  have hmul : 0 < getInt height * getInt width := Int.mul_pos hheight hwidth
  have hdims : ∀ n, n = getInt height * getInt width →
      validateDimensions (gridOf height width) n = .ok (getInt height, getInt width) := by
    rintro n rfl
    have hh : requirePositiveInteger (some height) "topology.height" = .ok (getInt height) :=
      requiredPositiveInteger_some hheight _
    have hw : requirePositiveInteger (some width) "topology.width" = .ok (getInt width) :=
      requiredPositiveInteger_some hwidth _
    simp only [validateDimensions, gridOf, hh, hw, bind, Except.bind]
    simp
  have hsize : ((gridOf height width).size : Int) = getInt height * getInt width := by
    simp only [TopologyConfig.size, gridOf, Option.getD_some, hint]
    omega
  have hpeers : requirePositiveInteger (some (getInt height * getInt width)) "topology.initialPeers" =
      .ok (getInt height * getInt width) := by
    have := requiredPositiveInteger_some (by rw [hint]; exact hmul) "topology.initialPeers"
    rwa [hint] at this
  have hplanned : ∀ ids, ∃ edges, plannedEdges (gridOf height width) ids = .ok edges := by
    intro ids
    unfold plannedEdges
    rw [show (gridOf height width).initialPeers = some (getInt height * getInt width) from rfl, hpeers]
    show ∃ edges, (validateDimensions (gridOf height width) (getInt height * getInt width) >>= _) = .ok edges
    rw [hdims _ rfl]
    exact ⟨_, rfl⟩
  unfold buildTopology
  obtain ⟨edges, hedges⟩ := hplanned _
  rw [hedges]
  exact ⟨_, rfl, hdims _ hsize⟩

theorem getInt_one : getInt 1 = 1 := by decide

theorem count_of_faceValue {dimensions : Bool} {c : Count} {v : Int} (h : TakenAtFaceValue dimensions c v)
    (hc : c.IsDimension → dimensions = true) (hpos : 0 < getInt v) : IsCount v := by
  have hone : 0 < getInt 1 := by rw [getInt_one]; decide
  have hkind := hasDimensions_described dimensions
  cases c with
  | initialPeers =>
    obtain ⟨out, hparse, -, hread, -, -⟩ := parse_runOn (described dimensions v) 1 1 rfl hpos hone hone
    exact (h.parsed _ 0 _ _ out _ rfl rfl (hkind v) rfl hparse rfl).2
  | rounds =>
    obtain ⟨out, hparse, -, -, hread, -⟩ := parse_runOn (described dimensions 1) v 1 rfl hone hpos hone
    exact (h.parsed _ 0 _ _ out _ rfl rfl (hkind 1) rfl hparse rfl).2
  | tests =>
    obtain ⟨out, hparse, -, -, -, hread⟩ := parse_runOn (described dimensions 1) 1 v rfl hone hone hpos
    exact (h.parsed _ 0 _ _ out _ rfl rfl (hkind 1) rfl hparse rfl).2
  | height =>
    obtain rfl := hc (.inl rfl)
    obtain ⟨assignments, hbuilt, hdims⟩ := build_gridOf hpos hone (by rw [getInt_one, mul_one, getInt_getInt])
    refine (h.built (runOn (gridOf v 1) 1 1) _ "" 1 assignments (getInt v) rfl (iff_of_true (.inl rfl) rfl) rfl
      hbuilt ?_).2
    simp only [Count.built]
    rw [if_pos (.inl rfl), hdims]
    rfl
  | width =>
    obtain rfl := hc (.inr rfl)
    obtain ⟨assignments, hbuilt, hdims⟩ := build_gridOf hone hpos (by rw [getInt_one, one_mul, getInt_getInt])
    refine (h.built (runOn (gridOf 1 v) 1 1) _ "" 1 assignments (getInt v) rfl (iff_of_true (.inl rfl) rfl) rfl
      hbuilt ?_).2
    simp only [Count.built]
    rw [if_pos (.inl rfl), hdims]
    rfl

theorem accepted_without_dimensions {c : Count} (hc : c.IsDimension) (v : Int) : ∃ t out assignments,
    c.given (runOn t 1 1) = some v ∧ ¬ HasDimensions t ∧ out.topology = t ∧
      parseRuntimeExperiment [runOn t 1 1] 0 = .ok out ∧ buildTopology t "" 1 = .ok assignments := by
  have hplain : ¬ HasDimensions (starOf v v) := by simp [HasDimensions, starOf]
  obtain ⟨out, assignments, hparse, htopology, hbuilt⟩ := starOf_accepted v v
  refine ⟨starOf v v, out, assignments, ?_, hplain, htopology, hparse, hbuilt⟩
  rcases hc with rfl | rfl
  · rfl
  · rfl

theorem parsed_exactly {c : Count} {v : Int} (hv : IsCount v ∨ getInt v ≤ 0) {experiments : List Experiment}
    {expIndex : Nat} {e : Experiment} {out : RuntimeExperimentConfig} {n : Int}
    (he : experiments[expIndex]? = some e) (hgiven : c.given e = some v)
    (hparse : parseRuntimeExperiment experiments expIndex = .ok out) (hused : c.parsed out = some n) :
    n = v ∧ IsCount v := by
  obtain ⟨e', t, he', ht, -, ⟨w, hw, hpeers⟩, ⟨r, hr, hrounds⟩, ⟨s, hs, htests⟩⟩ :=
    parseRuntimeExperiment_ok hparse
  obtain rfl : e' = e := Option.some.inj (he'.symm.trans he)
  cases c with
  | initialPeers =>
    simp only [Count.given, ht, Option.bind_some, hw, Option.some.injEq] at hgiven
    obtain rfl : out.initialPeers = n := Option.some.inj hused
    rw [hgiven] at hpeers
    exact read_exactly hpeers.1 hpeers.2 hv
  | rounds =>
    simp only [Count.given, hr, Option.some.injEq] at hgiven
    obtain rfl : out.rounds = n := Option.some.inj hused
    rw [hgiven] at hrounds
    exact read_exactly hrounds.1 hrounds.2 hv
  | tests =>
    simp only [Count.given, hs, Option.some.injEq] at hgiven
    obtain rfl : out.tests = n := Option.some.inj hused
    rw [hgiven] at htests
    exact read_exactly htests.1 htests.2 hv
  | height => cases hused
  | width => cases hused

theorem built_exactly {c : Count} {v : Int} (hv : IsCount v ∨ getInt v ≤ 0) {e : Experiment} {t : TopologyConfig}
    {identifiers : String} {order : Equiv.Perm (Fin t.size)} {assignments : List PeerAssignment} {n : Int}
    (ht : e.topology = some t) (hgiven : c.given e = some v)
    (hbuilt : buildTopology t identifiers order = .ok assignments) (hused : c.built t assignments = some n) :
    n = v ∧ IsCount v := by
  cases c with
  | initialPeers =>
    obtain ⟨edges, hedges, rfl⟩ := buildTopology_eq_ok hbuilt
    obtain ⟨hsize, hread, -⟩ := plannedEdges_eq_ok hedges
    simp only [Count.given, ht, Option.bind_some] at hgiven
    rw [hgiven, Option.getD_some] at hread
    simp only [Count.built, List.length_map, List.length_range, Option.some.injEq] at hused
    exact read_exactly (by omega) (by omega) hv
  | rounds => cases hused
  | tests => cases hused
  | height =>
    obtain ⟨dims, hdims, rfl⟩ := used_dimension hused
    obtain ⟨⟨w, hw, hread⟩, -⟩ := validateDimensions_read hdims
    simp only [Count.given, ht, Option.bind_some, hw, Option.some.injEq] at hgiven
    rw [hgiven] at hread
    exact read_exactly hread.1 hread.2 hv
  | width =>
    obtain ⟨dims, hdims, rfl⟩ := used_dimension hused
    obtain ⟨-, w, hw, hread⟩ := validateDimensions_read hdims
    simp only [Count.given, ht, Option.bind_some, hw, Option.some.injEq] at hgiven
    rw [hgiven] at hread
    exact read_exactly hread.1 hread.2 hv

theorem used_where_accepted {dimensions : Bool} {c : Count} (hc : c.IsDimension → dimensions = true) (v : Int) :
    UsedWhereAccepted dimensions c v := by
  intro experiments expIndex e out identifiers order assignments he hkind hgiven hparse hbuilt
  cases c with
  | initialPeers => exact ⟨_, .inl rfl⟩
  | rounds => exact ⟨_, .inl rfl⟩
  | tests => exact ⟨_, .inl rfl⟩
  | height =>
    obtain ⟨n, hn⟩ := Count.built_some (.inl rfl) hbuilt (hkind.mpr (hc (.inl rfl)))
    exact ⟨n, .inr hn⟩
  | width =>
    obtain ⟨n, hn⟩ := Count.built_some (.inr rfl) hbuilt (hkind.mpr (hc (.inr rfl)))
    exact ⟨n, .inr hn⟩

theorem faceValue_of {dimensions : Bool} {c : Count} {v : Int}
    (hv : IsCount v ∨ getInt v ≤ 0 ∧ (c.IsDimension → dimensions = true)) : TakenAtFaceValue dimensions c v := by
  have hread : IsCount v ∨ getInt v ≤ 0 := hv.imp_right And.left
  refine ⟨fun _ _ _ _ _ _ he _ _ hgiven hparse hused => parsed_exactly hread he hgiven hparse hused,
    fun _ _ _ _ _ _ ht _ hgiven hbuilt hused => built_exactly hread ht hgiven hbuilt hused, ?_⟩
  intro experiments expIndex e out identifiers order assignments he hkind hgiven hparse hbuilt
  rcases hv with hcount | ⟨-, hc⟩
  · exact hcount
  obtain ⟨e', t, he', ht, rfl, -⟩ := parseRuntimeExperiment_ok hparse
  obtain rfl : e' = e := Option.some.inj (he'.symm.trans he)
  obtain ⟨n, hn | hn⟩ := used_where_accepted hc v experiments expIndex e' out identifiers order assignments he
    hkind hgiven hparse hbuilt
  · exact (parsed_exactly hread he hgiven hparse hn).2
  · exact (built_exactly hread ht hgiven hbuilt hn).2

/-- **When a count is taken at face value.** Given as the peers, the rounds, the tests, the height or the width, an
integer is refused or no other number takes its place, and refused unless it is a positive `int`, exactly when it is
a positive `int` or its low 32 bits, as an `int`, are not positive and the type has the dimension, if it is one.
And it is then moreover used, in each experiment that is accepted, exactly when the type has the dimension, if it is
one. -/
theorem face_value_iff (dimensions : Bool) (c : Count) (v : Int) :
    (TakenAtFaceValue dimensions c v ↔ IsCount v ∨ getInt v ≤ 0 ∧ (c.IsDimension → dimensions = true)) ∧
      (TakenAtFaceValue dimensions c v ∧ UsedWhereAccepted dimensions c v ↔
        (IsCount v ∨ getInt v ≤ 0) ∧ (c.IsDimension → dimensions = true)) := by
  have hface : TakenAtFaceValue dimensions c v ↔
      IsCount v ∨ getInt v ≤ 0 ∧ (c.IsDimension → dimensions = true) := by
    refine ⟨fun h => ?_, faceValue_of⟩
    by_cases hc : c.IsDimension → dimensions = true
    · rcases lt_or_ge 0 (getInt v) with hpos | hle
      · exact .inl (count_of_faceValue h hc hpos)
      · exact .inr ⟨hle, hc⟩
    · obtain ⟨hdim, hplain⟩ := Classical.not_imp.mp hc
      obtain ⟨t, out, assignments, hgiven, hno, rfl, hparse, hbuilt⟩ := accepted_without_dimensions hdim v
      exact .inl (h.refused _ 0 _ out "" 1 assignments rfl (iff_of_false hno hplain) hgiven hparse hbuilt)
  refine ⟨hface, ?_⟩
  rw [hface]
  constructor
  · rintro ⟨hv, hused⟩
    refine ⟨hv.imp_right And.left, fun hdim => ?_⟩
    by_contra hplain
    obtain ⟨t, out, assignments, hgiven, hno, rfl, hparse, hbuilt⟩ := accepted_without_dimensions hdim v
    obtain ⟨n, hn⟩ := hused _ 0 _ out "" 1 assignments rfl (iff_of_false hno hplain) hgiven hparse hbuilt
    unfold HasDimensions at hno
    rcases hdim with rfl | rfl
    · simp [Count.parsed, Count.built, hno] at hn
    · simp [Count.parsed, Count.built, hno] at hn
  · rintro ⟨hv, hc⟩
    exact ⟨hv.imp_right fun hle => ⟨hle, hc⟩, used_where_accepted hc v⟩

/-- `2^32 + 2` rounds are run as 2 rounds, a grid of `2^32 + 2` rows is built with 2 rows, and a star is accepted
with a height of 0. -/
theorem counts_misread :
    let v : Int := 2 ^ 32 + 2
    ¬ IsCount v ∧ ¬ IsCount 0 ∧
      (∃ out, parseRuntimeExperiment [runOn (described false 2) v 1] 0 = .ok out ∧ out.rounds = 2) ∧
      (∃ assignments, buildTopology (gridOf v 3) "" 1 = .ok assignments ∧ assignments.length = 6) ∧
      ∃ out assignments, parseRuntimeExperiment [runOn (starOf 0 1) 1 1] 0 = .ok out ∧
        out.topology = starOf 0 1 ∧ buildTopology (starOf 0 1) "" 1 = .ok assignments := by
  intro v
  refine ⟨by decide, by decide, ?_, ⟨_, rfl, by decide +kernel⟩, starOf_accepted 0 1⟩
  obtain ⟨out, hparse, -, -, hrounds, -⟩ := parse_runOn (described false 2) v 1 rfl (by decide) (by decide)
    (by decide)
  exact ⟨out, hparse, hrounds⟩

end RuntimeConfig

end Quantas
