import Quantas.Chord.GridWalks
import Quantas.Chord.Lookup
import Quantas.Network.Planner

/-!
# LinearChord on the topologies of the simulator

The peers of `initNetwork` with fixed identifiers, under the neighbours that the builder of a topology gives them. On
a complete graph and on a ring every peer has its successor, and lookups arrive. The other shapes lack it somewhere;
there a hop past the target may be undone by the next finger, and the lookup goes on for ever. `Clear` says for which
sources and targets it does not.
-/

namespace Quantas.Chord
open Network (place)
open Lib (clockwise)

def relayOf (ring : Committee) (neighbors : InterfaceId → List InterfaceId) :
    Lib.Relay InterfaceId LinearChordPeer LookupMessage Draws where
  parties := ring.members
  start i := LinearChordPeer.buildFingerTable
    { publicId := i, neighbors := neighbors i, ringOrder := ring.members, selfIndex := ring.members.idxOf i }
  tick _ p _ := p
  submit _ p serial d := p.submitLookup (serial + 1) d
  handle _ p msg d := p.handleLookup msg d

theorem relay_eq (net : ChordNetwork) : net.relay = relayOf net.ring net.neighbors := rfl

/-- The neighbours of a peer after `initNetwork`, without random identifiers. -/
def topologyNeighbors (t : TopologyConfig) (i : InterfaceId) : List InterfaceId :=
  ((Network.initNetwork t 1).peers i.toNat).neighbors

def topologyRelay (t : TopologyConfig) : Lib.Relay InterfaceId LinearChordPeer LookupMessage Draws :=
  relayOf (Committee.ofSize t.size) (topologyNeighbors t)

/-! ## The neighbours -/

theorem sorted_topologyNeighbors (t : TopologyConfig) (i : InterfaceId) :
    (topologyNeighbors t i).Pairwise (· < ·) := by
  unfold topologyNeighbors
  rw [((Network.samePeers_initNetwork 1).2 i.toNat).2.2]
  exact Network.sorted_linkedPeers_neighbors 1 i.toNat

theorem mem_topologyNeighbors {t : TopologyConfig} (hv : TopologyPlanner.Valid t) (hlist : t.type ≠ .userList)
    {i j : Nat} (hi : i < t.size) (hj : j < t.size) :
    (j : InterfaceId) ∈ topologyNeighbors t i ↔ Adjacent t i j := by
  unfold topologyNeighbors
  rw [((Network.samePeers_initNetwork 1).2 _).2.2, Network.bare, Int.toNat_natCast,
    Network.mem_linkedPeers_neighbors 1 hv]
  unfold Network.linkedId
  simp only [if_neg hlist, TopologyPlanner.place_one]
  constructor
  · rintro ⟨-, k, -, hadj, hk⟩
    obtain rfl : j = k := by exact_mod_cast hk
    exact hadj
  · exact fun hadj => ⟨hi, j, hj, hadj, rfl⟩

def topologyNetwork (t : TopologyConfig) (h : 2 ≤ t.size) : ChordNetwork where
  ring := Committee.ofSize t.size
  two_le := by rw [Committee.size_ofSize]; exact h
  neighbors := topologyNeighbors t
  sorted := sorted_topologyNeighbors t

section network
variable {t : TopologyConfig} {h : 2 ≤ t.size}

theorem size_topologyNetwork : (topologyNetwork t h).ring.size = t.size := Committee.size_ofSize t.size

theorem peerAt_topologyNetwork {k : Nat} (hk : k < t.size) : peerAt (topologyNetwork t h) k = (k : InterfaceId) := by
  have hlength : k < ((List.range t.size).map Int.ofNat).length := by simpa using hk
  show ((List.range t.size).map Int.ofNat).getD k NO_PEER_ID = (k : InterfaceId)
  rw [List.getD_eq_getElem _ _ hlength, List.getElem_map, List.getElem_range]
  rfl

theorem mem_topologyNetwork {k : Nat} (hk : k < t.size) : (k : InterfaceId) ∈ (topologyNetwork t h).ring.members := by
  have hmem : peerAt (topologyNetwork t h) k ∈ (topologyNetwork t h).ring.members :=
    peerAt_mem (by rwa [size_topologyNetwork])
  rwa [peerAt_topologyNetwork hk] at hmem

theorem index_topologyNetwork {k : Nat} (hk : k < t.size) : (topologyNetwork t h).index (k : InterfaceId) = k := by
  have hindex : (topologyNetwork t h).index (peerAt (topologyNetwork t h) k) = k :=
    index_peerAt (by rwa [size_topologyNetwork])
  rwa [peerAt_topologyNetwork hk] at hindex

theorem near_topologyNetwork (hv : TopologyPlanner.Valid t) (hlist : t.type ≠ .userList) {i x : Nat}
    (hi : i < t.size) :
    near (topologyNetwork t h) i x ↔ 0 < x ∧ x < t.size ∧ Adjacent t i ((i + x) % t.size) := by
  have hplace := Lib.step_lt (s := x) hi
  unfold near
  rw [size_topologyNetwork, peerAt_topologyNetwork hplace, peerAt_topologyNetwork hi]
  exact and_congr_right fun _ => and_congr_right fun _ => mem_topologyNeighbors hv hlist hi hplace

theorem simple_iff_of_basin {s d : Nat} (hs : s < t.size) (hd : d < t.size) {P : Nat → Prop}
    (hsome : ∀ i < t.size, ∃ x, near (topologyNetwork t h) i x)
    (hbasin : ∃ B : Lib.Basin (Lib.Hop t.size (near (topologyNetwork t h)) d) d, ∀ v, B.inside v ↔ P v) :
    Simple (topologyRelay t) s d ↔ P s := by
  have hbasin' : ∃ B : Lib.Basin (hop (topologyNetwork t h) d) ((topologyNetwork t h).index d),
      ∀ v, B.inside v ↔ P v := by
    unfold hop
    rw [size_topologyNetwork, index_topologyNetwork hd]
    exact hbasin
  obtain ⟨B, hinside⟩ := hbasin'
  have hsome' : ∀ i ∈ (topologyNetwork t h).ring.members, ∃ x,
      near (topologyNetwork t h) ((topologyNetwork t h).index i) x := by
    intro i hi
    have hlt := index_lt hi
    rw [size_topologyNetwork] at hlt
    exact hsome _ hlt
  have hsimple := simple_iff_inside B hsome' (mem_topologyNetwork hs) (mem_topologyNetwork hd)
  rw [index_topologyNetwork hs, hinside, relay_eq] at hsimple
  exact hsimple

theorem simple_of_successors {s d : Nat} (hs : s < t.size) (hd : d < t.size)
    (hnear : ∀ i < t.size, near (topologyNetwork t h) i 1) : Simple (topologyRelay t) s d := by
  have hbasin : ∃ B : Lib.Basin (Lib.Hop t.size (near (topologyNetwork t h)) d) d, ∀ v, B.inside v ↔ True :=
    ⟨Lib.Basin.ofSuccessors hd hnear, fun v => Iff.rfl⟩
  exact (simple_iff_of_basin hs hd (fun i hi => ⟨1, hnear i hi⟩) hbasin).mpr trivial

end network

/-! ## A peer alone -/

/-- The lookups of a peer alone end where they start. -/
def alone : Lib.Relay.Contract InterfaceId LinearChordPeer LookupMessage where
  party i p := p.publicId = i ∧ p.ringOrder = [0]
  inFlight _ _ _ := False
  satisfied visited m := visited.Nodup ∧ m.hops = 0
  dropped _ _ := False

theorem kept_alone (neighbors : InterfaceId → List InterfaceId) :
    alone.Kept (relayOf (Committee.ofSize 1) neighbors) := by
  refine ⟨fun i => ⟨rfl, rfl⟩, fun _ _ _ _ h => h, ?_, fun _ _ _ _ _ _ h => absurd h id⟩
  intro i hi p k d hp
  obtain rfl : i = 0 := List.mem_singleton.mp hi
  have htarget : p.pickRandomTarget d = 0 := by
    unfold LinearChordPeer.pickRandomTarget
    rw [hp.2, if_neg (List.cons_ne_nil _ _)]
    simp [Nat.mod_one]
  have hsubmit : p.submitLookup (k + 1) d = ({ p with requestsSatisfied := p.requestsSatisfied + 1 },
      .satisfied ⟨k + 1, p.publicId, 0, d.currentRound, 0, none⟩) := by
    unfold LinearChordPeer.submitLookup
    simp only [htarget, hp.1, if_true]
  show alone.party 0 (p.submitLookup (k + 1) d).1 ∧ alone.admits [0] (p.submitLookup (k + 1) d).2
  rw [hsubmit]
  exact ⟨hp, List.nodup_singleton 0, rfl⟩

theorem simple_alone (neighbors : InterfaceId → List InterfaceId) (o d : InterfaceId) :
    Simple (relayOf (Committee.ofSize 1) neighbors) o d := by
  intro s hr e he _ _
  have hall := Lib.Relay.reached_rule (kept_alone neighbors) hr
  rcases List.mem_append.mp he with he | he
  · obtain ⟨f, hf, rfl⟩ := List.mem_map.mp he
    exact absurd (hall.inFlight f hf) id
  · obtain ⟨j, hj, rfl⟩ := List.mem_map.mp he
    rcases List.mem_append.mp hj with hj | hj
    · obtain ⟨hnodup, hops⟩ := hall.satisfied j hj
      exact ⟨hnodup, by rw [hops]; exact Nat.zero_le _⟩
    · exact absurd (hall.dropped j hj) id

/-! ## Adjacent cells -/

theorem eq_succ_mod_iff {a b h : Nat} (ha : a < h) (hb : b < h) :
    b = (a + 1) % h ↔ a + 1 = b ∨ (a + 1 = h ∧ b = 0) := by
  by_cases hlast : a + 1 = h
  · rw [hlast, Nat.mod_self]
    omega
  · rw [Nat.mod_eq_of_lt (by omega)]
    omega

section cells
variable {n w v j R c R' c' : Nat}

theorem Cell.rowStart_div (h : Cell n w v R c) : w * (v / w) = R := by
  have hsum := Nat.div_add_mod v w
  rw [h.mod] at hsum
  have heq := h.eq
  omega

theorem row_succ (hw : 0 < w) (hv : Cell n w v R c) (hj : Cell n w j R' c') : v / w + 1 = j / w ↔ R + w = R' := by
  rw [← hv.rowStart_div, ← hj.rowStart_div, ← Nat.mul_succ]
  exact (Nat.mul_right_inj (by omega)).symm

theorem row_eq (hw : 0 < w) (hv : Cell n w v R c) (hj : Cell n w j R' c') : v / w = j / w ↔ R = R' := by
  rw [← hv.rowStart_div, ← hj.rowStart_div]
  exact (Nat.mul_right_inj (by omega)).symm

theorem row_zero (hw : 0 < w) (hv : Cell n w v R c) : v / w = 0 ↔ R = 0 := by
  rw [← hv.rowStart_div, Nat.mul_eq_zero]
  omega

theorem row_last {h : Nat} (hw : 0 < w) (hn : h * w = n) (hv : Cell n w v R c) : v / w + 1 = h ↔ R + w = n := by
  rw [← hv.rowStart_div, ← Nat.mul_succ, ← hn, Nat.mul_comm h w]
  exact (Nat.mul_right_inj (by omega)).symm

theorem row_lt {h : Nat} (hw : 0 < w) (hn : h * w = n) (hv : Cell n w v R c) : v / w < h := by
  rw [Nat.div_lt_iff_lt_mul hw, hn]
  have heq := hv.eq
  have hcol := hv.col
  have hle := hv.row_le
  omega

theorem grid_adjacent (hw : 0 < w) (hv : Cell n w v R c) (hj : Cell n w j R' c') :
    ((v / w = j / w ∧ (v % w + 1 = j % w ∨ j % w + 1 = v % w)) ∨
      (v % w = j % w ∧ (v / w + 1 = j / w ∨ j / w + 1 = v / w))) ↔ ∃ y, GridStride n w R c y R' c' := by
  rw [row_eq hw hv hj, row_succ hw hv hj, row_succ hw hj hv, hv.mod, hj.mod]
  have hcol := hj.col
  have hle := hj.row_le
  constructor
  · rintro (⟨rfl, rfl | rfl⟩ | ⟨rfl, rfl | rfl⟩)
    · exact ⟨_, .right hcol⟩
    · exact ⟨_, .left (Nat.succ_pos c')⟩
    · exact ⟨_, .down (by omega)⟩
    · have hup : GridStride n w (R' + w) c (n - w) (R' + w - w) c := .up (by omega)
      rw [Nat.add_sub_cancel] at hup
      exact ⟨_, hup⟩
  · rintro ⟨y, hy⟩
    have hfirst := dvd_gap hv.row (Nat.dvd_zero w)
    cases hy with
    | right h => omega
    | left h => omega
    | down h => omega
    | up h => omega

theorem torus_adjacent {h : Nat} (hw : 0 < w) (hn : h * w = n) (hv : Cell n w v R c) (hj : Cell n w j R' c') :
    ((v / w = j / w ∧ (j % w = (v % w + 1) % w ∨ v % w = (j % w + 1) % w)) ∨
      (v % w = j % w ∧ (j / w = (v / w + 1) % h ∨ v / w = (j / w + 1) % h))) ↔
        ∃ y, TorusStride n w R c y R' c' := by
  have hlt := row_lt hw hn hv
  have hlt' := row_lt hw hn hj
  rw [eq_succ_mod_iff hlt hlt', eq_succ_mod_iff hlt' hlt, row_eq hw hv hj, row_succ hw hv hj, row_succ hw hj hv,
    row_zero hw hv, row_zero hw hj, row_last hw hn hv, row_last hw hn hj, hv.mod, hj.mod,
    eq_succ_mod_iff hv.col hj.col, eq_succ_mod_iff hj.col hv.col]
  have hcol := hj.col
  have hle := hj.row_le
  constructor
  · rintro (⟨rfl, (rfl | ⟨hlast, rfl⟩) | rfl | ⟨hlast, rfl⟩⟩ | ⟨rfl, (rfl | ⟨hlast, rfl⟩) | rfl | ⟨hlast, rfl⟩⟩)
    · exact ⟨_, .right hcol⟩
    · exact ⟨_, .wrapRight hlast⟩
    · exact ⟨_, .left (Nat.succ_pos c')⟩
    · have hleft : TorusStride n w R 0 (w - 1) R (w - 1) := .wrapLeft rfl
      rw [show w - 1 = c' by omega] at hleft
      exact ⟨_, hleft⟩
    · exact ⟨_, .down (by omega)⟩
    · exact ⟨_, .wrapDown hlast⟩
    · have hup : TorusStride n w (R' + w) c (n - w) (R' + w - w) c := .up (by omega)
      rw [Nat.add_sub_cancel] at hup
      exact ⟨_, hup⟩
    · have hup : TorusStride n w 0 c (n - w) (n - w) c := .wrapUp rfl
      rw [show n - w = R' by omega] at hup
      exact ⟨_, hup⟩
  · rintro ⟨y, hy⟩
    have hfirst := dvd_gap hv.row (Nat.dvd_zero w)
    cases hy <;> omega

theorem strides_iff {Adj : Nat → Nat → Prop} {Stride : Nat → Nat → Nat → Nat → Nat → Prop} {x : Nat} (hw : 2 ≤ w)
    (hn : 2 * w ≤ n) (hdvd : w ∣ n) (htorus : ∀ {R c x R' c'}, Stride R c x R' c' → TorusStride n w R c x R' c')
    (hadj : ∀ {v j R c R' c'}, Cell n w v R c → Cell n w j R' c' → (Adj v j ↔ ∃ y, Stride R c y R' c'))
    (hv : v < n) : 0 < x ∧ x < n ∧ Adj v ((v + x) % n) ↔ ∃ R' c', Stride (rowStart w v) (v % w) x R' c' := by
  have hcell := cell_of_lt (by omega) hdvd hv
  constructor
  · rintro ⟨hpos, hlt, h⟩
    have hcell' := cell_of_lt (by omega) hdvd (Lib.step_lt (s := x) hv)
    obtain ⟨y, hy⟩ := (hadj hcell hcell').mp h
    obtain ⟨-, hylt, hcell''⟩ := (htorus hy).cell hw hn hdvd hcell
    obtain rfl : x = y := Lib.step_inj hv hlt hylt (hcell'.eq.trans hcell''.eq.symm)
    exact ⟨_, _, hy⟩
  · rintro ⟨R', c', hx⟩
    obtain ⟨hpos, hlt, hcell'⟩ := (htorus hx).cell hw hn hdvd hcell
    exact ⟨hpos, hlt, (hadj hcell hcell').mpr ⟨x, hx⟩⟩

end cells

/-! ## Lines and stars -/

theorem line_strides {n v x : Nat} (hn : 2 ≤ n) (hv : v < n) :
    0 < x ∧ x < n ∧ (v + 1 = (v + x) % n ∨ (v + x) % n + 1 = v) ↔ (x = 1 ∧ v + 1 < n) ∨ (x + 1 = n ∧ 0 < v) := by
  by_cases hx : x < n
  · rw [Lib.step_eq hv hx]
    split_ifs <;> omega
  · omega

theorem star_strides {n v x : Nat} (hv : v < n) :
    0 < x ∧ x < n ∧ (v ≠ (v + x) % n ∧ (v = 0 ∨ (v + x) % n = 0)) ↔
      (v = 0 ∧ 0 < x ∧ x < n) ∨ (0 < v ∧ v + x = n) := by
  by_cases hx : x < n
  · rw [Lib.step_eq hv hx]
    split_ifs <;> omega
  · omega

/-! ## Which lookups are simple -/

def Undirected (t : TopologyConfig) : Prop := t.type ≠ .unidirectionalRing ∧ t.type ≠ .userList

/-- From which sources the lookups for a target are simple. -/
def Clear (t : TopologyConfig) (source target : Nat) : Prop :=
  match t.type with
  | .star => StarClear source target
  | .chain => LineClear t.size source target
  | .grid =>
    if t.rows = 1 ∨ t.columns = 1 then LineClear t.size source target
    else GridClear t.size t.columns (rowStart t.columns source) (source % t.columns)
      (rowStart t.columns target) (target % t.columns)
  | .torus =>
    if t.rows = 1 ∨ t.columns = 1 then True
    else TorusClear t.size t.columns (rowStart t.columns source) (source % t.columns)
      (rowStart t.columns target) (target % t.columns)
  | _ => True

theorem clear_alone {t : TopologyConfig} (hv : TopologyPlanner.Valid t) (hone : t.size = 1) : Clear t 0 0 := by
  unfold Clear
  cases ht : t.type with
  | star => exact Or.inl rfl
  | chain => exact Or.inl (Nat.zero_le _)
  | grid =>
    have hrows := Nat.eq_one_of_mul_eq_one_right ((hv.area (Or.inl ht)).trans hone)
    simp only [hrows, true_or, if_true]
    exact Or.inl (Nat.zero_le _)
  | torus =>
    have hrows := Nat.eq_one_of_mul_eq_one_right ((hv.area (Or.inr ht)).trans hone)
    simp only [hrows, true_or, if_true]
  | _ => trivial

section shapes
variable {t : TopologyConfig} {h : 2 ≤ t.size} {s d : Nat}

theorem simple_iff_line (hs : s < t.size) (hd : d < t.size) (hn : 2 ≤ t.size)
    (hnear : ∀ v < t.size, ∀ x, near (topologyNetwork t h) v x ↔
      0 < x ∧ x < t.size ∧ (v + 1 = (v + x) % t.size ∨ (v + x) % t.size + 1 = v)) :
    Simple (topologyRelay t) s d ↔ LineClear t.size s d := by
  have hstrides : ∀ v < t.size, ∀ x, near (topologyNetwork t h) v x ↔
      (x = 1 ∧ v + 1 < t.size) ∨ (x + 1 = t.size ∧ 0 < v) :=
    fun v hv x => (hnear v hv x).trans (line_strides hn hv)
  refine simple_iff_of_basin hs hd (fun v hv => ?_) (line_basin hn hd hstrides)
  by_cases hlast : v + 1 < t.size
  · exact ⟨1, (hstrides v hv 1).mpr (Or.inl ⟨rfl, hlast⟩)⟩
  · exact ⟨t.size - 1, (hstrides v hv _).mpr (Or.inr ⟨by omega, by omega⟩)⟩

theorem simple_iff_star (hs : s < t.size) (hd : d < t.size) (hn : 2 ≤ t.size)
    (hnear : ∀ v < t.size, ∀ x, near (topologyNetwork t h) v x ↔
      0 < x ∧ x < t.size ∧ (v ≠ (v + x) % t.size ∧ (v = 0 ∨ (v + x) % t.size = 0))) :
    Simple (topologyRelay t) s d ↔ StarClear s d := by
  have hstrides : ∀ v < t.size, ∀ x, near (topologyNetwork t h) v x ↔
      (v = 0 ∧ 0 < x ∧ x < t.size) ∨ (0 < v ∧ v + x = t.size) :=
    fun v hv x => (hnear v hv x).trans (star_strides hv)
  refine simple_iff_of_basin hs hd (fun v hv => ?_) (star_basin hn hd hstrides)
  by_cases hmiddle : v = 0
  · exact ⟨1, (hstrides v hv 1).mpr (Or.inl ⟨hmiddle, by omega, by omega⟩)⟩
  · exact ⟨t.size - v, (hstrides v hv _).mpr (Or.inr ⟨by omega, by omega⟩)⟩

theorem simple_iff_grid (ht : t.type = .grid) (hs : s < t.size) (hd : d < t.size)
    (hw : 2 ≤ t.columns) (hn : 2 * t.columns ≤ t.size) (hdvd : t.columns ∣ t.size)
    (hnear : ∀ v < t.size, ∀ x, near (topologyNetwork t h) v x ↔
      0 < x ∧ x < t.size ∧ Adjacent t v ((v + x) % t.size)) :
    Simple (topologyRelay t) s d ↔ GridClear t.size t.columns (rowStart t.columns s) (s % t.columns)
      (rowStart t.columns d) (d % t.columns) := by
  have hadj : ∀ {v j R c R' c'}, Cell t.size t.columns v R c → Cell t.size t.columns j R' c' →
      (Adjacent t v j ↔ ∃ y, GridStride t.size t.columns R c y R' c') := by
    intro v j R c R' c' hcell hcell'
    unfold Adjacent
    rw [ht]
    exact grid_adjacent (by omega) hcell hcell'
  have hstrides : ∀ v < t.size, ∀ x, near (topologyNetwork t h) v x ↔
      gridNear t.size t.columns (rowStart t.columns v) (v % t.columns) x :=
    fun v hv x => (hnear v hv x).trans (strides_iff hw hn hdvd GridStride.torus hadj hv)
  refine simple_iff_of_basin hs hd (fun v hv => ?_) (grid_basin hw hn hdvd hd hstrides)
  by_cases hlast : v % t.columns + 1 < t.columns
  · exact ⟨1, (hstrides v hv 1).mpr ⟨_, _, .right hlast⟩⟩
  · exact ⟨t.size - 1, (hstrides v hv _).mpr ⟨_, _, .left (by omega)⟩⟩

theorem simple_iff_torus (hv : TopologyPlanner.Valid t) (ht : t.type = .torus) (hs : s < t.size) (hd : d < t.size)
    (hw : 2 ≤ t.columns) (hn : 2 * t.columns ≤ t.size) (hdvd : t.columns ∣ t.size)
    (hnear : ∀ v < t.size, ∀ x, near (topologyNetwork t h) v x ↔
      0 < x ∧ x < t.size ∧ Adjacent t v ((v + x) % t.size)) :
    Simple (topologyRelay t) s d ↔ TorusClear t.size t.columns (rowStart t.columns s) (s % t.columns)
      (rowStart t.columns d) (d % t.columns) := by
  have hadj : ∀ {v j R c R' c'}, Cell t.size t.columns v R c → Cell t.size t.columns j R' c' →
      (Adjacent t v j ↔ ∃ y, TorusStride t.size t.columns R c y R' c') := by
    intro v j R c R' c' hcell hcell'
    unfold Adjacent
    rw [ht]
    exact torus_adjacent (by omega) (hv.area (Or.inr ht)) hcell hcell'
  have hstrides : ∀ v < t.size, ∀ x, near (topologyNetwork t h) v x ↔
      torusNear t.size t.columns (rowStart t.columns v) (v % t.columns) x :=
    fun v hv x => (hnear v hv x).trans (strides_iff hw hn hdvd id hadj hv)
  exact simple_iff_of_basin hs hd (fun v hv => ⟨_, (hstrides v hv _).mpr (torusNear_up _ _ _ _)⟩)
    (torus_basin hw hn hdvd hd hstrides)

theorem grid_adjacent_line (hv : TopologyPlanner.Valid t) (ht : t.type = .grid) (hone : t.rows = 1 ∨ t.columns = 1)
    {i j : Nat} (hi : i < t.size) (hj : j < t.size) : Adjacent t i j ↔ i + 1 = j ∨ j + 1 = i := by
  have harea := hv.area (Or.inl ht)
  unfold Adjacent
  rw [ht]
  rcases hone with hrows | hcolumns
  · rw [hrows, Nat.one_mul] at harea
    simp only [harea, Nat.div_eq_of_lt hi, Nat.div_eq_of_lt hj, Nat.mod_eq_of_lt hi, Nat.mod_eq_of_lt hj, true_and]
    omega
  · simp only [hcolumns, Nat.div_one, Nat.mod_one, true_and]
    omega

theorem torus_adjacent_succ (hv : TopologyPlanner.Valid t) (ht : t.type = .torus)
    (hone : t.rows = 1 ∨ t.columns = 1) {i : Nat} (hi : i < t.size) : Adjacent t i ((i + 1) % t.size) := by
  have harea := hv.area (Or.inr ht)
  have hplace := Lib.step_lt (s := 1) hi
  unfold Adjacent
  rw [ht]
  rcases hone with hrows | hcolumns
  · rw [hrows, Nat.one_mul] at harea
    rw [harea, Nat.div_eq_of_lt hi, Nat.div_eq_of_lt hplace, Nat.mod_eq_of_lt hi, Nat.mod_mod]
    exact Or.inl ⟨rfl, Or.inl rfl⟩
  · rw [hcolumns, Nat.mul_one] at harea
    rw [hcolumns, harea, Nat.div_one, Nat.div_one, Nat.mod_one, Nat.mod_one]
    exact Or.inr ⟨rfl, Or.inl rfl⟩

end shapes

theorem two_le_of_ne_one {t : TopologyConfig} (hv : TopologyPlanner.Valid t) (ht : t.type = .grid ∨ t.type = .torus)
    (hone : ¬ (t.rows = 1 ∨ t.columns = 1)) :
    2 ≤ t.columns ∧ 2 * t.columns ≤ t.size ∧ t.columns ∣ t.size := by
  have hrows := hv.rows_pos ht
  have hcolumns := hv.columns_pos ht
  have harea := hv.area ht
  refine ⟨by omega, ?_, ⟨t.rows, by rw [← harea, Nat.mul_comm]⟩⟩
  rw [← harea]
  exact Nat.mul_le_mul_right _ (by omega)

/-- **Simple lookups.** In an undirected topology the lookups of a source for a target come to no peer twice if and only
if the source is clear of the target. -/
theorem lookups_simple_iff {t : TopologyConfig} (hv : TopologyPlanner.Valid t) (hund : Undirected t) {s d : Nat}
    (hs : s < t.size) (hd : d < t.size) : Simple (topologyRelay t) s d ↔ Clear t s d := by
  by_cases hone : t.size = 1
  · obtain ⟨rfl, rfl⟩ : s = 0 ∧ d = 0 := by omega
    have hsimple : Simple (topologyRelay t) (0 : Nat) (0 : Nat) := by
      unfold topologyRelay
      rw [hone]
      exact simple_alone _ _ _
    exact iff_of_true hsimple (clear_alone hv hone)
  have h : 2 ≤ t.size := by omega
  have hnear : ∀ v < t.size, ∀ x, near (topologyNetwork t h) v x ↔
      0 < x ∧ x < t.size ∧ Adjacent t v ((v + x) % t.size) :=
    fun v hi x => near_topologyNetwork hv hund.2 hi
  have hsuccessor : (∀ i < t.size, Adjacent t i ((i + 1) % t.size)) → Simple (topologyRelay t) s d := by
    intro hadj
    exact simple_of_successors hs hd fun i hi => (hnear i hi 1).mpr ⟨Nat.one_pos, h, hadj i hi⟩
  have hmove : ∀ i < t.size, i ≠ (i + 1) % t.size := by
    intro i hi
    rw [Lib.step_eq hi h]
    split_ifs <;> omega
  unfold Clear
  cases ht : t.type with
  | complete =>
    refine iff_of_true (hsuccessor fun i hi => ?_) trivial
    unfold Adjacent
    rw [ht]
    exact hmove i hi
  | ring =>
    refine iff_of_true (hsuccessor fun i hi => ?_) trivial
    unfold Adjacent
    rw [ht]
    exact ⟨hmove i hi, Or.inl rfl⟩
  | star =>
    apply simple_iff_star hs hd h
    intro v hi x
    rw [hnear v hi x]
    unfold Adjacent
    rw [ht]
  | chain =>
    apply simple_iff_line hs hd h
    intro v hi x
    rw [hnear v hi x]
    unfold Adjacent
    rw [ht]
  | grid =>
    by_cases hthin : t.rows = 1 ∨ t.columns = 1
    · simp only [if_pos hthin]
      apply simple_iff_line hs hd h
      intro v hi x
      rw [hnear v hi x, grid_adjacent_line hv ht hthin hi (Lib.step_lt hi)]
    · obtain ⟨hw, hn, hdvd⟩ := two_le_of_ne_one hv (Or.inl ht) hthin
      simp only [if_neg hthin]
      exact simple_iff_grid ht hs hd hw hn hdvd hnear
  | torus =>
    by_cases hthin : t.rows = 1 ∨ t.columns = 1
    · simp only [if_pos hthin]
      exact iff_of_true (hsuccessor fun i hi => torus_adjacent_succ hv ht hthin hi) trivial
    · obtain ⟨hw, hn, hdvd⟩ := two_le_of_ne_one hv (Or.inr ht) hthin
      simp only [if_neg hthin]
      exact simple_iff_torus hv ht hs hd hw hn hdvd hnear
  | unidirectionalRing => exact absurd ht hund.1
  | userList => exact absurd ht hund.2
  | other name => exact absurd ht (hv.known name)

def chainOfFour : TopologyConfig := { initialPeers := some 4, type := .chain }

theorem valid_chainOfFour : TopologyPlanner.Valid chainOfFour := by
  apply TopologyPlanner.valid_of_accepts
  unfold TopologyPlanner.Accepts
  decide

/-- From the first peer of the line the lookups for the last are simple. -/
theorem lookups_simple_chainOfFour : Simple (topologyRelay chainOfFour) (0 : Nat) (3 : Nat) :=
  (lookups_simple_iff valid_chainOfFour ⟨by decide, by decide⟩ (by decide) (by decide)).mpr (Or.inl (Nat.zero_le _))

/-- From the last peer a lookup for the first goes back and forth. -/
theorem lookups_not_simple : ¬ ∀ t, TopologyPlanner.Valid t → Undirected t → ∀ s < t.size, ∀ d < t.size,
    Simple (topologyRelay t) (s : Nat) (d : Nat) := by
  intro hsimple
  have hrun : ((topologyRelay chainOfFour).machine.run { party := (topologyRelay chainOfFour).start }
      [.submit 3 { target := 0 }, .deliver 0 {}, .deliver 0 {}]).map
        (fun s => decide (s.inFlight.map (fun f => (f.2.visited, f.1, f.2.message.originId, f.2.message.targetId)) =
          [([3, 2, 3], 2, 3, 0)])) = some true := by
    decide +kernel
  obtain ⟨s, hs, hfacts⟩ := Option.map_eq_some_iff.mp hrun
  have hvisited := of_decide_eq_true hfacts
  have hmem : ([3, 2, 3], 2, 3, 0) ∈
      s.inFlight.map (fun f => (f.2.visited, f.1, f.2.message.originId, f.2.message.targetId)) := by
    rw [hvisited]
    exact List.mem_singleton_self _
  obtain ⟨f, hf, heq⟩ := List.mem_map.mp hmem
  obtain ⟨hpath, hnext, horigin, htarget⟩ :
      f.2.visited = [3, 2, 3] ∧ f.1 = 2 ∧ f.2.message.originId = 3 ∧ f.2.message.targetId = 0 := by
    simpa using heq
  have htrail : (f.2.visited ++ [f.1], f.2.message) ∈ trails s :=
    List.mem_append_left _ (List.mem_map.mpr ⟨f, hf, rfl⟩)
  have hchain := hsimple chainOfFour valid_chainOfFour ⟨by decide, by decide⟩ 3 (by decide) 0 (by decide)
  have hnodup : (f.2.visited ++ [f.1]).Nodup :=
    (hchain s (Lib.Machine.reached_of_run (.start rfl) hs) _ htrail horigin htarget).1
  rw [hpath, hnext] at hnodup
  exact absurd hnodup (by decide)

end Quantas.Chord
