import Quantas.Chord.Routing
import Quantas.Lib.Greedy

/-!
# The way of a lookup

Whatever its neighbours are, a peer sends a lookup on as a greedy walker goes on the ring: over its longest finger that
is a neighbour and does not pass the target, and without one to the neighbour that is nearest in clockwise order. The
two loops of `chooseClockwiseNeighbor` say the same: when a neighbour lies before the target, the nearest one does.

A basin of these walks decides whether the lookups of a peer for a target are simple. From inside they are; from
outside a lookup never arrives, and as every peer has a neighbour it goes on until it comes to a peer again.
-/

namespace Quantas.Chord
open LinearChordPeer (nearerOf)

section lookup
variable {net : ChordNetwork}

def near (net : ChordNetwork) (k x : Nat) : Prop :=
  0 < x ∧ x < net.ring.size ∧ peerAt net ((k + x) % net.ring.size) ∈ net.neighbors (peerAt net k)

abbrev hop (net : ChordNetwork) (target : InterfaceId) : Nat → Nat → Prop :=
  Lib.Hop net.ring.size (near net) (net.index target)

variable {i q t : InterfaceId} {p : LinearChordPeer}

theorem peerAt_distance (hi : i ∈ net.ring.members) (hq : q ∈ net.ring.members) :
    peerAt net ((net.index i + net.distance i q) % net.ring.size) = q := by
  unfold ChordNetwork.distance
  rw [Lib.step_clockwise (index_lt hi) (index_lt hq), peerAt_index hq]

theorem near_distance (hi : i ∈ net.ring.members) (hq : q ∈ net.ring.members) (hmem : q ∈ net.neighbors i)
    (hne : net.distance i q ≠ 0) : near net (net.index i) (net.distance i q) := by
  refine ⟨Nat.pos_of_ne_zero hne, distance_lt hi, ?_⟩
  rw [peerAt_distance hi hq, peerAt_index hi]
  exact hmem

theorem distance_peerAt {x : Nat} (hi : i ∈ net.ring.members) (hx : x < net.ring.size) :
    net.distance i (peerAt net ((net.index i + x) % net.ring.size)) = x := by
  unfold ChordNetwork.distance
  rw [index_peerAt (Lib.step_lt (index_lt hi)), Lib.clockwise_step (index_lt hi) hx]

/-! ## The next peer -/

theorem foldl_nearerOf (h : Sound net i p) (limit : Option Nat) (l : List InterfaceId) (best : InterfaceId × Nat) :
    (l.foldl (p.nearerOf limit) best = best ∨
      ∃ q ∈ l, q ∈ net.ring.members ∧ net.distance i q ≠ 0 ∧ (∀ d ∈ limit, net.distance i q ≤ d) ∧
        l.foldl (p.nearerOf limit) best = (q, net.distance i q)) ∧
      (l.foldl (p.nearerOf limit) best).2 ≤ best.2 ∧
      ∀ q ∈ l, q ∈ net.ring.members → net.distance i q ≠ 0 → (∀ d ∈ limit, net.distance i q ≤ d) →
        (l.foldl (p.nearerOf limit) best).2 ≤ net.distance i q := by
  induction l generalizing best with
  | nil => exact ⟨Or.inl rfl, le_refl _, fun q hq => absurd hq List.not_mem_nil⟩
  | cons a l ih =>
    rw [List.foldl_cons]
    obtain ⟨hcases, hle, hall⟩ := ih (p.nearerOf limit best a)
    have hstep : (p.nearerOf limit best a = best ∧ (a ∈ net.ring.members → net.distance i a ≠ 0 →
          (∀ d ∈ limit, net.distance i a ≤ d) → best.2 ≤ net.distance i a)) ∨
        (a ∈ net.ring.members ∧ net.distance i a ≠ 0 ∧ (∀ d ∈ limit, net.distance i a ≤ d) ∧
          net.distance i a < best.2 ∧ p.nearerOf limit best a = (a, net.distance i a)) := by
      unfold LinearChordPeer.nearerOf LinearChordPeer.indexById
      rw [h.ringOrder]
      by_cases hmem : a ∈ net.ring.members
      · have hlimit : (limit.all fun d => decide (net.distance i a ≤ d)) = true ↔
            ∀ d ∈ limit, net.distance i a ≤ d := by
          cases limit <;> simp
        have hdistance : p.distanceTo (net.ring.members.idxOf a) = net.distance i a := h.distanceTo a
        rw [if_pos hmem]
        simp only [hdistance]
        split_ifs with hzero htake
        · exact Or.inl ⟨rfl, fun _ hne => absurd hzero hne⟩
        · exact Or.inr ⟨hmem, hzero, hlimit.mp htake.1, htake.2, rfl⟩
        · refine Or.inl ⟨rfl, fun _ _ hwithin => ?_⟩
          exact not_lt.mp fun hlt => htake ⟨hlimit.mpr hwithin, hlt⟩
      · rw [if_neg hmem]
        exact Or.inl ⟨rfl, fun h => absurd h hmem⟩
    generalize p.nearerOf limit best a = next at hcases hle hall hstep
    generalize l.foldl (p.nearerOf limit) next = last at hcases hle hall
    rcases hstep with ⟨rfl, hskip⟩ | ⟨hmem, hne, hwithin, hlt, rfl⟩
    · refine ⟨?_, hle, ?_⟩
      · rcases hcases with heq | ⟨q, hq, hrest⟩
        · exact Or.inl heq
        · exact Or.inr ⟨q, List.mem_cons_of_mem a hq, hrest⟩
      · intro q hq hring hne hwithin
        rcases List.mem_cons.mp hq with rfl | hq
        · exact le_trans hle (hskip hring hne hwithin)
        · exact hall q hq hring hne hwithin
    · simp only at hle
      refine ⟨Or.inr ?_, by omega, ?_⟩
      · rcases hcases with heq | ⟨q, hq, hrest⟩
        · exact ⟨a, List.mem_cons_self, hmem, hne, hwithin, heq⟩
        · exact ⟨q, List.mem_cons_of_mem a hq, hrest⟩
      · intro q hq hring hne' hwithin'
        rcases List.mem_cons.mp hq with rfl | hq
        · exact hle
        · exact hall q hq hring hne' hwithin'

theorem chooseClockwiseNeighbor_cases (h : Sound net i p) (hi : i ∈ net.ring.members)
    (ht : t ∈ net.ring.members) (hne : t ≠ i) :
    (p.chooseClockwiseNeighbor t p.neighbors = NO_PEER_ID ∧ ∀ x, ¬ near net (net.index i) x) ∨
    ∃ x, near net (net.index i) x ∧
      p.chooseClockwiseNeighbor t p.neighbors = peerAt net ((net.index i + x) % net.ring.size) ∧
      ∀ y, near net (net.index i) y → x ≤ y := by
  have htwo := net.two_le
  have hneighbor : ∀ y, near net (net.index i) y → ∃ q ∈ net.neighbors i, q ∈ net.ring.members ∧
      net.distance i q ≠ 0 ∧ net.distance i q = y := by
    intro y hy
    obtain ⟨hypos, hylt, hmem⟩ := hy
    rw [peerAt_index hi] at hmem
    refine ⟨_, hmem, peerAt_mem (Lib.step_lt (index_lt hi)), ?_, distance_peerAt hi hylt⟩
    rw [distance_peerAt hi hylt]
    omega
  unfold LinearChordPeer.chooseClockwiseNeighbor
  by_cases hnone : p.neighbors = []
  · rw [if_pos (Or.inr hnone)]
    refine Or.inl ⟨rfl, ?_⟩
    intro x hx
    obtain ⟨q, hq, -⟩ := hneighbor x hx
    rw [← h.neighbors, hnone] at hq
    exact List.not_mem_nil hq
  · rw [if_neg (not_or.mpr ⟨by rw [h.ringOrder, size_eq]; omega, hnone⟩), h.indexById ht]
    simp only [h.distanceTo, if_neg (distance_ne_zero hi ht hne)]
    rw [h.neighbors, h.ringOrder, size_eq]
    obtain ⟨hcases, -, hall⟩ := foldl_nearerOf h (some (net.distance i t)) (net.neighbors i)
      (NO_PEER_ID, net.ring.size)
    rcases hcases with heq | ⟨q, hq, hring, hzero, hwithin, heq⟩
    · -- no neighbour lies before the target
      rw [heq]
      simp only [ne_eq, not_true_eq_false, if_false]
      obtain ⟨hcases', -, hall'⟩ := foldl_nearerOf h none (net.neighbors i) (NO_PEER_ID, net.ring.size)
      rcases hcases' with heq' | ⟨q, hq, hring, hzero, -, heq'⟩
      · refine Or.inl ⟨by rw [heq'], ?_⟩
        intro x hx
        obtain ⟨q, hq, hring, hzero, -⟩ := hneighbor x hx
        have hle := hall' q hq hring hzero (by simp)
        have hlt := distance_lt (t := q) hi
        rw [heq'] at hle
        simp only at hle
        omega
      · refine Or.inr ⟨net.distance i q, near_distance hi hring hq hzero, ?_, ?_⟩
        · rw [heq', peerAt_distance hi hring]
        · intro y hy
          obtain ⟨q', hq', hring', hzero', rfl⟩ := hneighbor y hy
          have hle := hall' q' hq' hring' hzero' (by simp)
          rwa [heq'] at hle
    · rw [heq]
      simp only [ne_eq, net.ring.ne_noPeer hring, not_false_eq_true, if_true]
      refine Or.inr ⟨net.distance i q, near_distance hi hring hq hzero, (peerAt_distance hi hring).symm, ?_⟩
      intro y hy
      obtain ⟨q', hq', hring', hzero', rfl⟩ := hneighbor y hy
      by_cases hbefore : net.distance i q' ≤ net.distance i t
      · have hle := hall q' hq' hring' hzero' (by simpa using hbefore)
        rwa [heq] at hle
      · have hle := hwithin _ rfl
        omega

theorem near_two_pow (hi : i ∈ net.ring.members) {k : Nat} (hk : 2 ^ k ≤ net.distance i t) :
    near net (net.index i) (2 ^ k) ↔ strideTo net i k ∈ net.neighbors i := by
  have hlt := distance_lt (t := t) hi
  have hpow : 0 < 2 ^ k := by positivity
  unfold near
  rw [peerAt_index hi]
  exact ⟨fun h => h.2.2, fun h => ⟨hpow, by omega, h⟩⟩

/-- **A lookup takes the greedy stride.** A peer that is not the target sends it on so, or has no neighbour. -/
theorem forward_cases (h : Sound net i p) (hi : i ∈ net.ring.members) (m : LookupMessage)
    (ht : m.targetId ∈ net.ring.members) (hne : m.targetId ≠ i) :
    (p.forward m = .dropped m ∧ ∀ x, ¬ near net (net.index i) x) ∨
    ∃ x, Lib.Takes net.ring.size (near net) (net.index m.targetId) (net.index i) x ∧
      p.forward m = .forwarded (peerAt net ((net.index i + x) % net.ring.size))
        { m with hops := m.hops + 1, lastHop := some p.publicId } := by
  have hplace : net.index i ≠ net.index m.targetId := fun heq => hne (index_inj hi heq).symm
  have hring : ∀ x, peerAt net ((net.index i + x) % net.ring.size) ∈ net.ring.members :=
    fun x => peerAt_mem (Lib.step_lt (index_lt hi))
  have hsend : ∀ x, near net (net.index i) x →
      p.dispatchLookup m (peerAt net ((net.index i + x) % net.ring.size)) p.neighbors =
        .forwarded (peerAt net ((net.index i + x) % net.ring.size))
          { m with hops := m.hops + 1, lastHop := some p.publicId } := by
    intro x hx
    obtain ⟨hpos, hlt, hmem⟩ := hx
    rw [peerAt_index hi] at hmem
    have hother : peerAt net ((net.index i + x) % net.ring.size) ≠ p.publicId := by
      rw [h.publicId]
      intro heq
      have hzero := distance_peerAt hi hlt
      rw [heq, (distance_eq_zero_iff hi hi).mpr rfl] at hzero
      omega
    unfold LinearChordPeer.dispatchLookup
    rw [if_neg (not_or.mpr ⟨net.ring.ne_noPeer (hring x), hother⟩),
      if_neg (by rw [h.neighbors]; exact not_not.mpr hmem)]
  unfold LinearChordPeer.forward
  rcases selectFinger_cases h hi ht hne with ⟨hselect, hnone⟩ | ⟨k, hk, hmem, hselect, hlongest⟩
  · simp only [hselect, if_true]
    have hnofinger : ∀ y, near net (net.index i) y → ¬ Lib.IsFinger (net.distance i m.targetId) y := by
      intro y hy hfinger
      obtain ⟨⟨k, rfl⟩, hle⟩ := hfinger
      exact hnone k hle ((near_two_pow hi hle).mp hy)
    rcases chooseClockwiseNeighbor_cases h hi ht hne with ⟨hchoose, hall⟩ | ⟨x, hx, hchoose, hall⟩
    · rw [hchoose, if_pos rfl]
      exact Or.inl ⟨rfl, hall⟩
    · rw [hchoose, if_neg (net.ring.ne_noPeer (hring x)), hsend x hx]
      refine Or.inr ⟨x, ⟨index_lt hi, hplace, hx.1, hx.2.1, hx, ?_, fun _ => hall⟩, rfl⟩
      intro y hy hfinger
      exact absurd hfinger (hnofinger y hy)
  · have hx := (near_two_pow hi hk).mpr hmem
    have hnoPeer : strideTo net i k ≠ NO_PEER_ID := net.ring.ne_noPeer (hring (2 ^ k))
    simp only [hselect, if_neg hnoPeer]
    refine Or.inr ⟨2 ^ k, ⟨index_lt hi, hplace, hx.1, hx.2.1, hx, ?_, ?_⟩, hsend _ hx⟩
    · intro y hy hfinger
      obtain ⟨⟨k', rfl⟩, hle⟩ := hfinger
      have hk' := hlongest k' hle ((near_two_pow hi hle).mp hy)
      exact ⟨⟨⟨k, rfl⟩, hk⟩, Nat.pow_le_pow_right (by omega) hk'⟩
    · intro hnot
      exact absurd ⟨⟨k, rfl⟩, hk⟩ hnot

/-! ## The way in a run -/

/-- A lookup and the peers that it has come to, in order. -/
structure Came (net : ChordNetwork) (path : List InterfaceId) (m : LookupMessage) : Prop where
  peers : ∀ i ∈ path, i ∈ net.ring.members
  target : m.targetId ∈ net.ring.members
  origin : path.head? = some m.originId
  hops : m.hops + 1 = path.length
  walk : (path.map net.index).IsChain (hop net m.targetId)

def walks (net : ChordNetwork) : Lib.Relay.Contract InterfaceId LinearChordPeer LookupMessage where
  party := Sound net
  inFlight visited next := Came net (visited ++ [next])
  satisfied := Came net
  dropped := Came net

theorem Came.next {path : List InterfaceId} {m : LookupMessage} (h : Came net (path ++ [i]) m) {x : Nat}
    (hx : Lib.Takes net.ring.size (near net) (net.index m.targetId) (net.index i) x) :
    Came net (path ++ [i] ++ [peerAt net ((net.index i + x) % net.ring.size)])
      { m with hops := m.hops + 1, lastHop := some i } := by
  have hplace := Lib.step_lt (s := x) hx.lt
  refine ⟨?_, h.target, ?_, ?_, ?_⟩
  · intro j hj
    rcases List.mem_append.mp hj with hj | hj
    · exact h.peers j hj
    · rw [List.mem_singleton.mp hj]
      exact peerAt_mem hplace
  · rw [List.head?_append, h.origin, Option.some_or]
  · have hops := h.hops
    simp only [List.length_append, List.length_cons, List.length_nil] at hops ⊢
    omega
  · have hwalk := h.walk
    rw [List.map_append, List.map_cons, List.map_nil] at hwalk ⊢
    rw [List.map_append, List.map_cons, List.map_nil, index_peerAt hplace]
    exact Lib.Relay.isChain_concat hwalk ⟨x, hx, rfl⟩

theorem admits_walk (h : Sound net i p) {visited : List InterfaceId} {m : LookupMessage}
    (hm : Came net (visited ++ [i]) m) (hne : m.targetId ≠ i) :
    (walks net).admits (visited ++ [i]) (p.forward m) := by
  have hi := hm.peers i (List.mem_append_right _ (List.mem_singleton_self i))
  rcases forward_cases h hi m hm.target hne with ⟨heq, -⟩ | ⟨x, hx, heq⟩
  · rw [heq]
    exact hm
  · rw [heq, h.publicId]
    exact hm.next hx

theorem kept_walks : (walks net).Kept net.relay := by
  refine ⟨sound_initialPeer, fun _ _ _ _ h => h, ?_, ?_⟩
  · intro i hi p k d h
    have htarget := mem_ring_of_draw h d
    simp only [ChordNetwork.relay, LinearChordPeer.submitLookup]
    generalize p.pickRandomTarget d = target at htarget
    have hstart : Came net ([] ++ [i]) ⟨k + 1, p.publicId, target, d.currentRound, 0, none⟩ := by
      refine ⟨?_, htarget, by simp [h.publicId], rfl, List.isChain_singleton _⟩
      intro j hj
      rw [List.mem_singleton.mp hj]
      exact hi
    split_ifs with hself
    · exact ⟨⟨h.publicId, h.neighbors, h.ringOrder, h.selfIndex, h.fingers⟩, hstart⟩
    · exact ⟨h, admits_walk h hstart fun heq => hself (heq.trans h.publicId.symm)⟩
  · intro i p m visited d h hm
    simp only [ChordNetwork.relay, LinearChordPeer.handleLookup]
    rw [if_neg (net.ring.ne_noPeer hm.target)]
    split_ifs with hself
    · exact ⟨⟨h.publicId, h.neighbors, h.ringOrder, h.selfIndex, h.fingers⟩, hm⟩
    · exact ⟨h, admits_walk h hm fun heq => hself (heq.trans h.publicId.symm)⟩

end lookup

/-! ## Simple lookups -/

def trails (s : Lib.RelayState InterfaceId LinearChordPeer LookupMessage) :
    List (List InterfaceId × LookupMessage) :=
  s.inFlight.map (fun f => (f.2.visited ++ [f.1], f.2.message)) ++
    (s.satisfied ++ s.dropped).map fun j => (j.visited, j.message)

/-- In every run the lookups of `origin` for `target` come to no peer twice, and so make at most `n - 1` hops. -/
def Simple (R : Lib.Relay InterfaceId LinearChordPeer LookupMessage Draws) (origin target : InterfaceId) : Prop :=
  ∀ s, R.machine.Reached s → ∀ e ∈ trails s, e.2.originId = origin → e.2.targetId = target →
    e.1.Nodup ∧ e.2.hops ≤ R.parties.length - 1

section simple
variable {net : ChordNetwork} {o t : InterfaceId}

theorem came_of_mem_trails {s : Lib.RelayState InterfaceId LinearChordPeer LookupMessage}
    (hr : net.relay.machine.Reached s) {e : List InterfaceId × LookupMessage} (he : e ∈ trails s) :
    Came net e.1 e.2 := by
  have hall : (walks net).Holds s := Lib.Relay.reached_rule kept_walks hr
  rcases List.mem_append.mp he with he | he
  · obtain ⟨f, hf, rfl⟩ := List.mem_map.mp he
    exact hall.inFlight f hf
  · obtain ⟨j, hj, rfl⟩ := List.mem_map.mp he
    rcases List.mem_append.mp hj with hj | hj
    · exact hall.satisfied j hj
    · exact hall.dropped j hj

theorem Came.head_index {path : List InterfaceId} {m : LookupMessage} (h : Came net path m) :
    (path.map net.index).head? = some (net.index m.originId) := by
  rw [List.head?_map, h.origin, Option.map_some]

theorem Came.length_le {path : List InterfaceId} {m : LookupMessage} (h : Came net path m) (hnodup : path.Nodup) :
    path.length ≤ net.ring.size :=
  (List.subperm_of_subset hnodup h.peers).length_le

theorem exists_long (B : Lib.Basin (hop net t) (net.index t))
    (hnear : ∀ i ∈ net.ring.members, ∃ x, near net (net.index i) x) (ho : o ∈ net.ring.members)
    (ht : t ∈ net.ring.members) (houtside : ¬ B.inside (net.index o)) (k : Nat) :
    ∃ s, net.relay.machine.Reached s ∧ ∃ next j, s.inFlight = [(next, j)] ∧ j.visited.length = k + 1 ∧
      j.message.originId = o ∧ j.message.targetId = t := by
  have hgoes : ∀ i p m, Sound net i p → i ∈ net.ring.members → m.targetId = t → t ≠ i → ∃ next,
      p.forward m = .forwarded next { m with hops := m.hops + 1, lastHop := some p.publicId } := by
    intro i p m h hi hm hne
    rcases forward_cases h hi m (hm ▸ ht) (hm ▸ hne) with ⟨-, hnone⟩ | ⟨x, -, heq⟩
    · obtain ⟨x, hx⟩ := hnear i hi
      exact absurd hx (hnone x)
    · exact ⟨_, heq⟩
  induction k with
  | zero =>
    have hne : t ≠ o := by
      rintro rfl
      exact houtside B.target_inside
    have hsound : Sound net o (net.initialPeer o) := sound_initialPeer o
    have hdraw : (net.initialPeer o).pickRandomTarget { target := net.index t } = t := by
      unfold LinearChordPeer.pickRandomTarget
      rw [hsound.ringOrder, if_neg (List.ne_nil_of_mem ht)]
      simp only [size_eq, Nat.mod_eq_of_lt (index_lt ht)]
      rw [show net.ring.members.getD (net.index t) NO_PEER_ID = t from peerAt_index ht, hsound.publicId,
        if_neg fun h => hne h.1]
    obtain ⟨next, hnext⟩ := hgoes o (net.initialPeer o)
      ⟨1, (net.initialPeer o).publicId, t, 0, 0, none⟩ hsound ho rfl hne
    have hsubmit : (net.initialPeer o).submitLookup 1 { target := net.index t } = (net.initialPeer o,
        .forwarded next ⟨1, (net.initialPeer o).publicId, t, 0, 1, some (net.initialPeer o).publicId⟩) := by
      unfold LinearChordPeer.submitLookup
      simp only [hdraw]
      rw [if_neg (by rw [hsound.publicId]; exact hne), hnext]
    have hstart : net.relay.machine.Reached { party := net.relay.start } := .start rfl
    obtain ⟨s, hs, hinFlight⟩ := Lib.Relay.exists_submit hstart ho hsubmit
    exact ⟨s, hs, next, _, hinFlight, rfl, hsound.publicId, rfl⟩
  | succ k ih =>
    obtain ⟨s, hs, next, j, hinFlight, hlength, horigin, htarget⟩ := ih
    have hall : (walks net).Holds s := Lib.Relay.reached_rule kept_walks hs
    have hcame : Came net (j.visited ++ [next]) j.message :=
      hall.inFlight (next, j) (by rw [hinFlight]; exact List.mem_singleton_self _)
    have hnext := hcame.peers next (List.mem_append_right _ (List.mem_singleton_self next))
    -- the lookup has not come to the target
    have hne : t ≠ next := by
      rintro rfl
      have hhead := hcame.head_index
      rw [horigin] at hhead
      apply B.target_notMem (htarget ▸ hcame.walk) hhead houtside
      exact List.mem_map_of_mem (List.mem_append_right _ (List.mem_singleton_self _))
    obtain ⟨next', hforward⟩ := hgoes next (s.party next) j.message (hall.party next) hnext htarget hne
    have hhandle : (s.party next).handleLookup j.message {} = (s.party next, .forwarded next'
        { j.message with hops := j.message.hops + 1, lastHop := some (s.party next).publicId }) := by
      unfold LinearChordPeer.handleLookup
      rw [if_neg (by rw [htarget]; exact net.ring.ne_noPeer ht),
        if_neg (by rw [htarget, (hall.party next).publicId]; exact hne), hforward]
    obtain ⟨s', hs', hinFlight'⟩ := Lib.Relay.exists_deliver (n := 0) hs (by rw [hinFlight]; rfl) hhandle
    rw [hinFlight] at hinFlight'
    exact ⟨s', hs', next', _, hinFlight', by simp [hlength], horigin, htarget⟩

theorem simple_iff_inside (B : Lib.Basin (hop net t) (net.index t))
    (hnear : ∀ i ∈ net.ring.members, ∃ x, near net (net.index i) x) (ho : o ∈ net.ring.members)
    (ht : t ∈ net.ring.members) : Simple net.relay o t ↔ B.inside (net.index o) := by
  constructor
  · intro hsimple
    by_contra houtside
    obtain ⟨s, hs, next, j, hinFlight, hlength, horigin, htarget⟩ := exists_long B hnear ho ht houtside net.ring.size
    have hmem : (j.visited ++ [next], j.message) ∈ trails s := by
      unfold trails
      rw [hinFlight]
      exact List.mem_append_left _ (List.mem_singleton_self _)
    have hle := (came_of_mem_trails hs hmem).length_le (hsimple s hs _ hmem horigin htarget).1
    simp only [List.length_append, List.length_cons, List.length_nil] at hle
    omega
  · intro hinside s hs e he horigin htarget
    have hcame := came_of_mem_trails hs he
    have hhead := hcame.head_index
    rw [horigin] at hhead
    have hnodup : e.1.Nodup := List.Nodup.of_map _ (B.nodup (htarget ▸ hcame.walk) hhead hinside)
    have hle := hcame.length_le hnodup
    have hops := hcame.hops
    refine ⟨hnodup, ?_⟩
    show e.2.hops ≤ net.ring.size - 1
    omega

end simple

end Quantas.Chord
