import Quantas.Chord.Peer

/-!
# LinearChord routing

The finger table of a peer has an entry for every power of two below the size of the ring, under the peer that many
steps ahead. A lookup takes the longest stride that a neighbour allows without passing the target; the successor
always allows one of one step. So each hop shortens the way by the length of its stride, and where all peers are
neighbours the strides are the ones of the distance in binary.
-/

namespace Quantas.Chord
open Lib (clockwise)
open LinearChordPeer (fartherOf)

/-! ## The finger table -/

theorem countBits_eq {maxSkip fuel bits : Nat} (hbits : bits ≤ Nat.size maxSkip)
    (hfuel : Nat.size maxSkip ≤ bits + fuel) : countBits maxSkip fuel bits = Nat.size maxSkip := by
  induction fuel generalizing bits with
  | zero =>
    rw [countBits]
    omega
  | succ fuel ih =>
    rw [countBits]
    split_ifs with hle
    · have hlt : bits < Nat.size maxSkip := Nat.lt_size.mpr hle
      exact ih (by omega) (by omega)
    · have hge : Nat.size maxSkip ≤ bits := Nat.size_le.mpr (not_le.mp hle)
      omega

theorem buildFingerTable_fingers {p : LinearChordPeer} (h : 1 < p.ringOrder.length) :
    p.buildFingerTable.fingers =
      (List.range (countBits (p.ringOrder.length - 1) (p.ringOrder.length - 1 + 1) 0)).foldl p.addFinger [] := by
  unfold LinearChordPeer.buildFingerTable
  simp only [if_neg (not_le.mpr h)]

section table
variable {net : ChordNetwork}

theorem size_eq : net.ring.members.length = net.ring.size := rfl

theorem index_lt {i : InterfaceId} (hi : i ∈ net.ring.members) : net.index i < net.ring.size :=
  List.idxOf_lt_length_of_mem hi

theorem index_inj {i j : InterfaceId} (hi : i ∈ net.ring.members) (h : net.index i = net.index j) : i = j :=
  (List.idxOf_inj hi).mp h

def peerAt (net : ChordNetwork) (k : Nat) : InterfaceId := net.ring.members.getD k NO_PEER_ID

theorem peerAt_mem {k : Nat} (hk : k < net.ring.size) : peerAt net k ∈ net.ring.members := by
  unfold peerAt
  rw [List.getD_eq_getElem _ _ hk]
  exact List.getElem_mem hk

theorem index_peerAt {k : Nat} (hk : k < net.ring.size) : net.index (peerAt net k) = k := by
  unfold peerAt ChordNetwork.index
  rw [List.getD_eq_getElem _ _ hk]
  exact net.ring.nodup.idxOf_getElem k hk

theorem peerAt_index {i : InterfaceId} (hi : i ∈ net.ring.members) : peerAt net (net.index i) = i := by
  apply index_inj (peerAt_mem (index_lt hi))
  exact index_peerAt (index_lt hi)

def fingerAt (net : ChordNetwork) (i : InterfaceId) (k : Nat) : FingerEntry where
  nodeId := peerAt net ((net.index i + 2 ^ k) % net.ring.size)
  ringIndex := (net.index i + 2 ^ k) % net.ring.size
  skip := 2 ^ k
  skipNormalized := 2 ^ k

theorem foldl_addFinger {i : InterfaceId} (hi : i ∈ net.ring.members) {p : LinearChordPeer}
    (hring : p.ringOrder = net.ring.members) (hself : p.selfIndex = net.index i) (hid : p.publicId = i)
    {bits : Nat} (hbits : ∀ k < bits, 2 ^ k < net.ring.size) :
    (List.range bits).foldl p.addFinger [] = (List.range bits).map (fingerAt net i) := by
  induction bits with
  | zero => rfl
  | succ bits ih =>
    have hlt := hbits bits (by omega)
    have hpos : 0 < 2 ^ bits := by positivity
    rw [List.range_succ, List.foldl_append, ih fun k hk => hbits k (by omega), List.map_append]
    simp only [List.foldl_cons, List.foldl_nil, List.map_cons, List.map_nil]
    have hplace := Lib.step_lt (n := net.ring.size) (s := 2 ^ bits) (index_lt hi)
    have hother : ∀ s, s ≠ 2 ^ bits → s < net.ring.size →
        peerAt net ((net.index i + 2 ^ bits) % net.ring.size) ≠ peerAt net ((net.index i + s) % net.ring.size) := by
      intro s hs hsn heq
      have hplaces := congrArg net.index heq
      rw [index_peerAt hplace, index_peerAt (Lib.step_lt (index_lt hi))] at hplaces
      exact hs (Lib.step_inj (index_lt hi) hlt hsn hplaces).symm
    have hnotself : peerAt net ((net.index i + 2 ^ bits) % net.ring.size) ≠ i := by
      have := hother 0 (by omega) (by omega)
      rwa [Nat.add_zero, Nat.mod_eq_of_lt (index_lt hi), peerAt_index hi] at this
    have hnotlast : (((List.range bits).map (fingerAt net i)).getLast?.map (·.nodeId)) ≠
        some (peerAt net ((net.index i + 2 ^ bits) % net.ring.size)) := by
      rcases bits with _ | bits
      · simp
      · rw [List.range_succ, List.map_append, List.map_cons, List.map_nil, List.getLast?_concat]
        simp only [fingerAt, Option.map_some, ne_eq, Option.some.injEq]
        intro heq
        have hless : 2 ^ bits < 2 ^ (bits + 1) := Nat.pow_lt_pow_right (by omega) (by omega)
        exact hother (2 ^ bits) (by omega) (by omega) heq.symm
    unfold LinearChordPeer.addFinger
    simp only [hring, hself, hid, size_eq]
    rw [Nat.mod_eq_of_lt hlt, if_neg (by omega)]
    unfold peerAt at hnotself hnotlast
    rw [if_neg hnotself, if_neg hnotlast]
    rfl

theorem lt_size_iff {k : Nat} : k < Nat.size (net.ring.size - 1) ↔ 2 ^ k < net.ring.size := by
  have := net.two_le
  rw [Nat.lt_size]
  omega

theorem initialPeer_fingers {i : InterfaceId} (hi : i ∈ net.ring.members) :
    (net.initialPeer i).fingers = (List.range (Nat.size (net.ring.size - 1))).map (fingerAt net i) := by
  have htwo := net.two_le
  have hsize : Nat.size (net.ring.size - 1) ≤ net.ring.size - 1 := by
    rw [Nat.size_le]
    exact Nat.lt_two_pow_self
  unfold ChordNetwork.initialPeer
  rw [buildFingerTable_fingers (show 1 < net.ring.members.length by rw [size_eq]; omega)]
  simp only [size_eq]
  rw [countBits_eq (by omega) (by omega)]
  exact foldl_addFinger hi rfl rfl rfl fun k hk => lt_size_iff.mp hk

/-! ## The stride of a hop -/

theorem foldl_fartherOf (neighborSet : List InterfaceId) (d : Nat) (l : List FingerEntry) (best : InterfaceId × Nat) :
    (l.foldl (fartherOf neighborSet d) best = best ∨
      ∃ entry ∈ l, entry.nodeId ∈ neighborSet ∧ entry.skipNormalized ≤ d ∧ best.2 < entry.skipNormalized ∧
        l.foldl (fartherOf neighborSet d) best = (entry.nodeId, entry.skipNormalized)) ∧
      best.2 ≤ (l.foldl (fartherOf neighborSet d) best).2 ∧
      ∀ entry ∈ l, entry.nodeId ∈ neighborSet → entry.skipNormalized ≤ d →
        entry.skipNormalized ≤ (l.foldl (fartherOf neighborSet d) best).2 := by
  induction l generalizing best with
  | nil => simp
  | cons a l ih =>
    rw [List.foldl_cons]
    obtain ⟨hcases, hge, hall⟩ := ih (fartherOf neighborSet d best a)
    have hstep : (fartherOf neighborSet d best a = best ∧
          (a.nodeId ∈ neighborSet → a.skipNormalized ≤ d → a.skipNormalized ≤ best.2)) ∨
        (a.nodeId ∈ neighborSet ∧ a.skipNormalized ≤ d ∧ best.2 < a.skipNormalized ∧
          fartherOf neighborSet d best a = (a.nodeId, a.skipNormalized)) := by
      unfold fartherOf
      by_cases hmem : a.nodeId ∈ neighborSet
      · rw [if_neg (not_not.mpr hmem)]
        split_ifs with hzero htake
        · exact Or.inl ⟨rfl, fun _ _ => by omega⟩
        · exact Or.inr ⟨hmem, htake.1, htake.2, rfl⟩
        · exact Or.inl ⟨rfl, fun _ hle => by omega⟩
      · rw [if_pos hmem]
        exact Or.inl ⟨rfl, fun h => absurd h hmem⟩
    generalize fartherOf neighborSet d best a = next at hcases hge hall hstep
    generalize l.foldl (fartherOf neighborSet d) next = last at hcases hge hall
    rcases hstep with ⟨rfl, hskip⟩ | ⟨hmem, hle, hlt, rfl⟩
    · refine ⟨?_, hge, ?_⟩
      · rcases hcases with heq | ⟨entry, hentry, hrest⟩
        · exact Or.inl heq
        · exact Or.inr ⟨entry, List.mem_cons_of_mem a hentry, hrest⟩
      · intro entry hentry hmem hle
        rcases List.mem_cons.mp hentry with rfl | hentry
        · exact le_trans (hskip hmem hle) hge
        · exact hall entry hentry hmem hle
    · simp only at hge hcases
      refine ⟨Or.inr ?_, by omega, ?_⟩
      · rcases hcases with heq | ⟨entry, hentry, hmem', hle', hlt', heq⟩
        · exact ⟨a, List.mem_cons_self, hmem, hle, hlt, heq⟩
        · exact ⟨entry, List.mem_cons_of_mem a hentry, hmem', hle', by omega, heq⟩
      · intro entry hentry hmem' hle'
        rcases List.mem_cons.mp hentry with rfl | hentry
        · exact hge
        · exact hall entry hentry hmem' hle'

/-- The peer is as `initParameters` made it. -/
structure Sound (net : ChordNetwork) (i : InterfaceId) (p : LinearChordPeer) : Prop where
  publicId : p.publicId = i
  neighbors : p.neighbors = net.neighbors i
  ringOrder : p.ringOrder = net.ring.members
  selfIndex : p.selfIndex = net.index i
  fingers : p.fingers = (net.initialPeer i).fingers

theorem sound_initialPeer (i : InterfaceId) : Sound net i (net.initialPeer i) := by
  have hfields : ∀ p : LinearChordPeer, p.buildFingerTable.publicId = p.publicId ∧
      p.buildFingerTable.neighbors = p.neighbors ∧ p.buildFingerTable.ringOrder = p.ringOrder ∧
      p.buildFingerTable.selfIndex = p.selfIndex := by
    intro p
    unfold LinearChordPeer.buildFingerTable
    simp only
    split_ifs <;> exact ⟨rfl, rfl, rfl, rfl⟩
  obtain ⟨hid, hneighbors, hring, hself⟩ := hfields
    { publicId := i, neighbors := net.neighbors i, ringOrder := net.ring.members, selfIndex := net.index i }
  exact ⟨hid, hneighbors, hring, hself, rfl⟩

/-- The peer `2 ^ k` steps ahead of `i` on the ring, on the way to the target. -/
def strideTo (net : ChordNetwork) (i : InterfaceId) (k : Nat) : InterfaceId :=
  peerAt net ((net.index i + 2 ^ k) % net.ring.size)

variable {i t : InterfaceId} {p : LinearChordPeer}

theorem distance_lt (hi : i ∈ net.ring.members) : net.distance i t < net.ring.size :=
  Lib.clockwise_lt (index_lt hi)

theorem distance_eq_zero_iff (hi : i ∈ net.ring.members) (ht : t ∈ net.ring.members) :
    net.distance i t = 0 ↔ i = t := by
  unfold ChordNetwork.distance
  rw [Lib.clockwise_eq_zero_iff (index_lt hi) (index_lt ht)]
  constructor
  · exact index_inj hi
  · intro h
    rw [h]

theorem distance_ne_zero (hi : i ∈ net.ring.members) (ht : t ∈ net.ring.members) (hne : t ≠ i) :
    net.distance i t ≠ 0 := by
  intro hzero
  exact hne ((distance_eq_zero_iff hi ht).mp hzero).symm

theorem Sound.indexById (h : Sound net i p) (ht : t ∈ net.ring.members) : p.indexById t = some (net.index t) := by
  unfold LinearChordPeer.indexById
  rw [h.ringOrder, if_pos ht]
  rfl

theorem Sound.distanceTo (h : Sound net i p) (t : InterfaceId) : p.distanceTo (net.index t) = net.distance i t := by
  unfold LinearChordPeer.distanceTo
  rw [h.ringOrder, h.selfIndex]
  rfl

theorem distance_strideTo (hi : i ∈ net.ring.members) (ht : t ∈ net.ring.members) {k : Nat}
    (hk : 2 ^ k ≤ net.distance i t) :
    strideTo net i k ∈ net.ring.members ∧ net.distance i (strideTo net i k) = 2 ^ k ∧
      net.distance (strideTo net i k) t = net.distance i t - 2 ^ k := by
  have hlt := distance_lt (t := t) hi
  have hplace := Lib.step_lt (n := net.ring.size) (s := 2 ^ k) (index_lt hi)
  refine ⟨peerAt_mem hplace, ?_, ?_⟩
  · unfold ChordNetwork.distance strideTo
    rw [index_peerAt hplace]
    exact Lib.clockwise_step (index_lt hi) (by omega)
  · unfold ChordNetwork.distance strideTo
    rw [index_peerAt hplace]
    exact Lib.clockwise_of_step (index_lt hi) (index_lt ht) hk

theorem selectFinger_cases (h : Sound net i p) (hi : i ∈ net.ring.members) (ht : t ∈ net.ring.members)
    (hne : t ≠ i) :
    (p.selectFinger t p.neighbors = NO_PEER_ID ∧
      ∀ k, 2 ^ k ≤ net.distance i t → strideTo net i k ∉ net.neighbors i) ∨
    ∃ k, 2 ^ k ≤ net.distance i t ∧ strideTo net i k ∈ net.neighbors i ∧
      p.selectFinger t p.neighbors = strideTo net i k ∧
      ∀ k', 2 ^ k' ≤ net.distance i t → strideTo net i k' ∈ net.neighbors i → k' ≤ k := by
  have hlt := distance_lt (t := t) hi
  have htwo := net.two_le
  have hselect : p.selectFinger t p.neighbors =
      (((List.range (Nat.size (net.ring.size - 1))).map (fingerAt net i)).foldl
        (fartherOf (net.neighbors i) (net.distance i t)) (NO_PEER_ID, 0)).1 := by
    unfold LinearChordPeer.selectFinger
    rw [if_neg (by rw [h.ringOrder, size_eq]; omega), h.indexById ht]
    simp only [h.distanceTo, if_neg (distance_ne_zero hi ht hne)]
    rw [h.fingers, initialPeer_fingers hi, h.neighbors]
  obtain ⟨hcases, -, hall⟩ := foldl_fartherOf (net.neighbors i) (net.distance i t)
    ((List.range (Nat.size (net.ring.size - 1))).map (fingerAt net i)) (NO_PEER_ID, 0)
  rw [hselect]
  generalize ((List.range (Nat.size (net.ring.size - 1))).map (fingerAt net i)).foldl
    (fartherOf (net.neighbors i) (net.distance i t)) (NO_PEER_ID, 0) = last at hcases hall
  have hall : ∀ k, 2 ^ k ≤ net.distance i t → strideTo net i k ∈ net.neighbors i → 2 ^ k ≤ last.2 := by
    intro k hk hmem
    exact hall (fingerAt net i k) (List.mem_map_of_mem (List.mem_range.mpr (lt_size_iff.mpr (by omega)))) hmem hk
  rcases hcases with rfl | ⟨entry, hentry, hmem, hle, -, rfl⟩
  · refine Or.inl ⟨rfl, ?_⟩
    intro k hk hmem
    have hle := hall k hk hmem
    have : 0 < 2 ^ k := by positivity
    simp only at hle
    omega
  · obtain ⟨k, -, rfl⟩ := List.mem_map.mp hentry
    refine Or.inr ⟨k, hle, hmem, rfl, ?_⟩
    intro k' hk' hmem'
    exact (Nat.pow_le_pow_iff_right (by omega)).mp (hall k' hk' hmem')

/-! ## Lookups -/

/-- A hop to a neighbour that is nearer to the target and not past it. -/
def Ahead (net : ChordNetwork) (target a b : InterfaceId) : Prop :=
  b ∈ net.neighbors a ∧ net.distance b target < net.distance a target ∧
    net.distance a b + net.distance b target = net.distance a target

structure Underway (net : ChordNetwork) (visited : List InterfaceId) (next : InterfaceId)
    (m : LookupMessage) : Prop where
  peer : next ∈ net.ring.members
  target : m.targetId ∈ net.ring.members
  origin : visited.head? = some m.originId
  hops : m.hops = visited.length
  path : (visited ++ [next]).IsChain (Ahead net m.targetId)
  bound : m.hops + net.distance next m.targetId ≤ net.ring.size - 1
  ones : net.Complete → m.hops + Lib.oneBits (net.distance next m.targetId) =
    Lib.oneBits (net.distance m.originId m.targetId)

structure Answered (net : ChordNetwork) (visited : List InterfaceId) (m : LookupMessage) : Prop where
  last : visited.getLast? = some m.targetId
  origin : visited.head? = some m.originId
  hops : m.hops + 1 = visited.length
  path : visited.IsChain (Ahead net m.targetId)
  bound : m.hops ≤ net.ring.size - 1
  ones : net.Complete → m.hops = Lib.oneBits (net.distance m.originId m.targetId)

def contract (net : ChordNetwork) : Lib.Relay.Contract InterfaceId LinearChordPeer LookupMessage where
  party := Sound net
  inFlight := Underway net
  satisfied := Answered net
  dropped _ _ := False

theorem strideTo_zero (net : ChordNetwork) (i : InterfaceId) : strideTo net i 0 = net.successor i := rfl

theorem admits_forward (hsucc : net.HasSuccessors) (h : Sound net i p) (hi : i ∈ net.ring.members)
    (visited : List InterfaceId) {m : LookupMessage} (ht : m.targetId ∈ net.ring.members) (hne : m.targetId ≠ i)
    (horigin : (visited ++ [i]).head? = some m.originId) (hops : m.hops = visited.length)
    (hpath : (visited ++ [i]).IsChain (Ahead net m.targetId))
    (hbound : m.hops + net.distance i m.targetId ≤ net.ring.size - 1)
    (hones : net.Complete → m.hops + Lib.oneBits (net.distance i m.targetId) =
      Lib.oneBits (net.distance m.originId m.targetId)) :
    (contract net).admits (visited ++ [i]) (p.forward m) := by
  have hpos := distance_ne_zero hi ht hne
  rcases selectFinger_cases h hi ht hne with ⟨-, hnone⟩ | ⟨k, hk, hmem, hselect, hlongest⟩
  · exact absurd (strideTo_zero net i ▸ hsucc i hi) (hnone 0 (by rw [pow_zero]; omega))
  · obtain ⟨hring, hstride, hrest⟩ := distance_strideTo hi ht hk
    have hpow : 0 < 2 ^ k := by positivity
    have hnoPeer : strideTo net i k ≠ NO_PEER_ID := net.ring.ne_noPeer hring
    have hself : strideTo net i k ≠ p.publicId := by
      rw [h.publicId]
      intro heq
      rw [heq] at hrest
      omega
    have hahead : Ahead net m.targetId i (strideTo net i k) := ⟨hmem, by omega, by omega⟩
    unfold LinearChordPeer.forward LinearChordPeer.dispatchLookup
    simp only [hselect, if_neg hnoPeer]
    rw [if_neg (not_or.mpr ⟨hnoPeer, hself⟩), if_neg (by rw [h.neighbors]; exact not_not.mpr hmem)]
    refine ⟨hring, ht, horigin, by simp [hops], ?_, ?_, ?_⟩
    · exact Lib.Relay.isChain_concat hpath hahead
    · simp only
      omega
    · intro hcomplete
      -- the next power of two is too long, or it would have been taken
      have hlt : net.distance i m.targetId < 2 ^ (k + 1) := by
        by_contra hge
        obtain ⟨hring', hstride', -⟩ := distance_strideTo hi ht (not_lt.mp hge)
        have hpow' : 0 < 2 ^ (k + 1) := by positivity
        have hother : strideTo net i (k + 1) ≠ i := by
          intro heq
          rw [heq, (distance_eq_zero_iff hi hi).mpr rfl] at hstride'
          omega
        have := hlongest (k + 1) (not_lt.mp hge) (hcomplete i hi _ hring' hother)
        omega
      have hbits := Lib.oneBits_sub_two_pow hk hlt
      have hold := hones hcomplete
      simp only [hrest]
      omega

theorem mem_ring_of_draw (h : Sound net i p) (d : Draws) : p.pickRandomTarget d ∈ net.ring.members := by
  have htwo := net.two_le
  have hlength : 0 < p.ringOrder.length := by
    rw [h.ringOrder, size_eq]
    omega
  have hat : ∀ k, p.ringOrder.getD (k % p.ringOrder.length) NO_PEER_ID ∈ net.ring.members := by
    intro k
    have hlt : k % p.ringOrder.length < p.ringOrder.length := Nat.mod_lt _ hlength
    rw [List.getD_eq_getElem _ _ hlt, ← h.ringOrder]
    exact List.getElem_mem hlt
  unfold LinearChordPeer.pickRandomTarget
  rw [if_neg (List.ne_nil_of_length_pos hlength)]
  simp only
  split_ifs
  · exact hat _
  · exact hat _

theorem kept (hsucc : net.HasSuccessors) : (contract net).Kept net.relay := by
  refine ⟨sound_initialPeer, fun _ _ _ _ h => h, ?_, ?_⟩
  · intro i hi p k d h
    have htarget := mem_ring_of_draw h d
    simp only [ChordNetwork.relay, LinearChordPeer.submitLookup]
    generalize p.pickRandomTarget d = target at htarget
    split_ifs with hself
    · have heq : target = i := hself.trans h.publicId
      refine ⟨⟨h.publicId, h.neighbors, h.ringOrder, h.selfIndex, h.fingers⟩, ?_⟩
      refine ⟨by simp [heq], by simp [h.publicId], rfl, List.isChain_singleton i, Nat.zero_le _, ?_⟩
      intro _
      simp only [heq, h.publicId, (distance_eq_zero_iff hi hi).mpr rfl, Lib.oneBits_zero]
    · refine ⟨h, ?_⟩
      have hne : target ≠ i := h.publicId ▸ hself
      have hlt := distance_lt (t := target) hi
      exact admits_forward hsucc h hi [] (m := ⟨k + 1, p.publicId, target, d.currentRound, 0, none⟩) htarget hne
        (by simp [h.publicId]) rfl (List.isChain_singleton i) (by simp only; omega)
        (fun _ => by simp only [h.publicId, Nat.zero_add])
  · intro i p m visited d h hm
    have hi := hm.peer
    have horigin : (visited ++ [i]).head? = some m.originId := by
      rw [List.head?_append, hm.origin, Option.some_or]
    simp only [ChordNetwork.relay, LinearChordPeer.handleLookup]
    rw [if_neg (net.ring.ne_noPeer hm.target)]
    split_ifs with hself
    · have heq : m.targetId = i := hself.trans h.publicId
      have hbound := hm.bound
      refine ⟨⟨h.publicId, h.neighbors, h.ringOrder, h.selfIndex, h.fingers⟩, ?_⟩
      refine ⟨by rw [List.getLast?_concat, heq], horigin, by simp [hm.hops], hm.path, by omega, ?_⟩
      intro hcomplete
      have hones := hm.ones hcomplete
      rwa [heq, (distance_eq_zero_iff hi hi).mpr rfl, Lib.oneBits_zero, Nat.add_zero, ← heq] at hones
    · exact ⟨h, admits_forward hsucc h hi visited hm.target (h.publicId ▸ hself) horigin hm.hops hm.path hm.bound
        hm.ones⟩

end table

/-- **Greedy routing on a ring with successors.** In every run each hop of a lookup goes to a neighbour that is
nearer to the target, clockwise, and not past it; no lookup is dropped, none makes more than `n - 1` hops, and one
that makes so many is sent to its target with the last of them. On the complete topology a lookup has taken as many
hops, when it reaches its target, as the first distance has ones in binary. Without loss every lookup that was
submitted has reached its target or is on its way. -/
theorem ring_routing (net : ChordNetwork) (hsucc : net.HasSuccessors) :
    (∀ s, net.relay.machine.Reached s →
      s.dropped = [] ∧
      (∀ f ∈ s.inFlight, (f.2.visited ++ [f.1]).IsChain (Ahead net f.2.message.targetId) ∧
        f.2.message.hops = f.2.visited.length ∧ f.2.message.hops ≤ net.ring.size - 1 ∧
        (f.2.message.hops = net.ring.size - 1 → f.1 = f.2.message.targetId)) ∧
      ∀ j ∈ s.satisfied, j.visited.IsChain (Ahead net j.message.targetId) ∧
        j.visited.head? = some j.message.originId ∧ j.visited.getLast? = some j.message.targetId ∧
        j.message.hops + 1 = j.visited.length ∧ j.message.hops ≤ net.ring.size - 1 ∧
        (net.Complete → j.message.hops = Lib.oneBits (net.distance j.message.originId j.message.targetId))) ∧
    ∀ s, net.relay.ReachedLossless s → ∀ k < s.issued, k ∈ s.serials := by
  constructor
  · intro s hr
    have h := Lib.Relay.reached_rule (kept hsucc) hr
    refine ⟨?_, ?_, ?_⟩
    · apply List.eq_nil_iff_forall_not_mem.mpr
      intro j hj
      exact h.dropped j hj
    · intro f hf
      have hm := h.inFlight f hf
      have hbound := hm.bound
      refine ⟨hm.path, hm.hops, by omega, ?_⟩
      intro hlast
      exact (distance_eq_zero_iff hm.peer hm.target).mp (by omega)
    · intro j hj
      have hm := h.satisfied j hj
      exact ⟨hm.path, hm.origin, hm.last, hm.hops, hm.bound, hm.ones⟩
  · intro s hr k hk
    exact Lib.Relay.mem_serials hr hk

def completeSix : ChordNetwork where
  ring := Committee.ofSize 6
  two_le := by decide
  neighbors i := [0, 1, 2, 3, 4, 5].filter fun q => q ≠ i
  sorted i := List.Pairwise.filter _ (by decide)

/-- A lookup of peer 4 for peer 1, three steps ahead, over peer 0. -/
theorem ring_routing_completeSix : ∃ s, completeSix.relay.ReachedLossless s ∧ ∃ j ∈ s.satisfied,
    j.visited = [4, 0, 1] ∧ j.message.hops = Lib.oneBits 3 := by
  have hsucc : completeSix.HasSuccessors := by
    unfold ChordNetwork.HasSuccessors
    decide
  have hcomplete : completeSix.Complete := by
    unfold ChordNetwork.Complete
    decide
  have hrun : (completeSix.relay.machine.runUnder (fun _ e => e.lossless = true)
      { party := completeSix.relay.start } [.submit 4 { target := 1 }, .deliver 0 {}, .deliver 0 {}]).map
      (fun s => decide (s.satisfied.map (fun j => (j.visited, j.message.originId, j.message.targetId)) =
        [([4, 0, 1], 4, 1)])) = some true := by
    decide +kernel
  obtain ⟨s, hs, hfacts⟩ := Option.map_eq_some_iff.mp hrun
  have hvisited := of_decide_eq_true hfacts
  have hreached : completeSix.relay.ReachedLossless s := Lib.Machine.reachedUnder_of_runUnder (.start rfl) hs
  have hanswered : ([4, 0, 1], 4, 1) ∈
      s.satisfied.map (fun j => (j.visited, j.message.originId, j.message.targetId)) := by
    rw [hvisited]
    exact List.mem_singleton_self _
  obtain ⟨j, hj, heq⟩ := List.mem_map.mp hanswered
  obtain ⟨hpath, horigin, htarget⟩ : j.visited = [4, 0, 1] ∧ j.message.originId = 4 ∧ j.message.targetId = 1 := by
    simpa using heq
  obtain ⟨hall, -⟩ := ring_routing completeSix hsucc
  have hones := ((hall s (hreached.mono fun _ _ _ => trivial)).2.2 j hj).2.2.2.2.2 hcomplete
  have hdistance : completeSix.distance 4 1 = 3 := by decide
  rw [horigin, htarget, hdistance] at hones
  exact ⟨s, hreached, j, hj, hpath, hones⟩

end Quantas.Chord
