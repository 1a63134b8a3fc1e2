import Quantas.Kademlia.Peer

/-!
# Kademlia routing makes progress

A finger of the group in which the target lies first differs from the peer where the target does, so it shares one
more bit with the target than the peer; the fallback compares distances. Either way a lookup comes strictly closer
to its target with every hop and never returns to a peer. Where every peer knows all others, the group of the target
has a finger as soon as there are fingers, a hop settles at least one more bit, and no lookup is dropped.
-/

namespace Quantas.Kademlia
open Lib (TopDifference msbFirst)

/-! ## Identifiers as bits -/

theorem toUInt64_natCast {x : Nat} (hx : x < 2 ^ 31) : toUInt64 (x : Int) = x := by
  unfold toUInt64
  omega

theorem binaryIdSize_eq {n : Nat} (h2 : 2 ≤ n) (hn : n < 2 ^ 31) :
    binaryIdSize n = Nat.clog 2 n ∧ 1 ≤ Nat.clog 2 n ∧ Nat.clog 2 n ≤ 31 := by
  have hpos : 0 < Nat.clog 2 n := Nat.clog_pos (by omega) h2
  have hle : Nat.clog 2 n ≤ 31 := (Nat.clog_le_iff_le_pow (by omega)).mpr (by omega)
  refine ⟨?_, hpos, hle⟩
  have hmax : max 1 n = n := by omega
  simp only [binaryIdSize, hmax]
  rw [if_neg (by omega)]
  omega

theorem getBinaryId_natCast {b x : Nat} (hb : b ≤ 31) (hx : x < 2 ^ 31) : getBinaryId b (x : Int) = msbFirst b x := by
  unfold getBinaryId msbFirst
  rw [toUInt64_natCast hx]
  apply List.map_congr_left
  intro bit hbit
  have hlt : bit < b := by simpa using hbit
  rw [if_neg (by omega)]

theorem firstDifferentBit_msbFirst {b x y : Nat} (hx : x < 2 ^ b) (hy : y < 2 ^ b) :
    (x = y ∧ firstDifferentBit (msbFirst b x) (msbFirst b y) = -1) ∨
      ∃ i < b, firstDifferentBit (msbFirst b x) (msbFirst b y) = (i : Int) ∧ TopDifference x y (b - 1 - i) := by
  unfold firstDifferentBit
  simp only [Lib.length_msbFirst, min_self]
  have hat : ∀ {z i : Nat}, i < b → (msbFirst b z)[i]? = some (z.testBit (b - 1 - i)) := by
    intro z i hi
    rw [List.getElem?_eq_getElem (by simpa using hi), Lib.getElem_msbFirst]
  have hhigh : ∀ j, b ≤ j → x.testBit j = y.testBit j := by
    intro j hj
    rw [Nat.testBit_lt_two_pow (lt_of_lt_of_le hx (Nat.pow_le_pow_right (by omega) hj)),
      Nat.testBit_lt_two_pow (lt_of_lt_of_le hy (Nat.pow_le_pow_right (by omega) hj))]
  rcases hfind : (List.range b).find? fun idx => (msbFirst b x)[idx]? ≠ (msbFirst b y)[idx]? with _ | i
  · refine Or.inl ⟨?_, by rw [hfind]⟩
    apply Nat.eq_of_testBit_eq
    intro j
    by_cases hj : j < b
    · have hsame := List.find?_eq_none.mp hfind (b - 1 - j) (List.mem_range.mpr (by omega))
      rw [hat (by omega), hat (by omega), show b - 1 - (b - 1 - j) = j by omega] at hsame
      simpa using hsame
    · exact hhigh j (by omega)
  · obtain ⟨hdiff, before, after, hsplit, hbefore⟩ := List.find?_eq_some_iff_append.mp hfind
    have hi : i < b := by
      have : i ∈ List.range b := by
        rw [hsplit]
        simp
      exact List.mem_range.mp this
    refine Or.inr ⟨i, hi, by rw [hfind], ?_, ?_⟩
    · rw [hat hi, hat hi] at hdiff
      simpa using hdiff
    · intro j hj
      by_cases hjb : j < b
      · have hmem : b - 1 - j ∈ before := by
          have hall : b - 1 - j ∈ List.range b := List.mem_range.mpr (by omega)
          have hsorted := List.pairwise_lt_range (n := b)
          rw [hsplit] at hall hsorted
          rcases List.mem_append.mp hall with h | h
          · exact h
          · exfalso
            rcases List.mem_cons.mp h with h | h
            · omega
            · have hlt := (List.pairwise_cons.mp (List.pairwise_append.mp hsorted).2.1).1 _ h
              omega
        have hsame := hbefore _ hmem
        rw [hat (by omega), hat (by omega), show b - 1 - (b - 1 - j) = j by omega] at hsame
        simpa using hsame
      · exact hhigh j (by omega)

/-! ## Next hops -/

section hops
variable {net : KademliaNetwork}

theorem mem_peerIds {i : InterfaceId} : i ∈ net.peerIds ↔ ∃ x < net.peerCount, i = (x : Int) := by
  simp [KademliaNetwork.peerIds, eq_comm]

theorem mem_peerIds_of_neighbor {i q : InterfaceId} (hq : q ∈ net.neighbors i) : q ∈ net.peerIds := by
  obtain ⟨hnonneg, hlt⟩ := net.within i q hq
  obtain ⟨x, rfl⟩ := Int.eq_ofNat_of_zero_le hnonneg
  exact mem_peerIds.mpr ⟨x, by exact_mod_cast hlt, rfl⟩

theorem ne_noPeer {i : InterfaceId} (hi : i ∈ net.peerIds) : i ≠ NO_PEER_ID := by
  obtain ⟨x, -, rfl⟩ := mem_peerIds.mp hi
  intro h
  have hneg : (x : Int) = -1 := h
  omega

def groupOf (net : KademliaNetwork) (i j : InterfaceId) : Int :=
  firstDifferentBit (getBinaryId (binaryIdSize net.peerCount) j) (getBinaryId (binaryIdSize net.peerCount) i)

theorem peerCount_le_two_pow (net : KademliaNetwork) : net.peerCount ≤ 2 ^ binaryIdSize net.peerCount := by
  rw [(binaryIdSize_eq net.two_le net.fits).1]
  exact Nat.le_pow_clog (by omega) _

theorem groupOf_eq {i j : InterfaceId} (hi : i ∈ net.peerIds) (hj : j ∈ net.peerIds) (hne : j ≠ i) :
    ∃ g < binaryIdSize net.peerCount, groupOf net i j = (g : Int) ∧
      TopDifference (toUInt64 j) (toUInt64 i) (binaryIdSize net.peerCount - 1 - g) := by
  obtain ⟨x, hx, rfl⟩ := mem_peerIds.mp hi
  obtain ⟨y, hy, rfl⟩ := mem_peerIds.mp hj
  have hfits := net.fits
  have hpow := peerCount_le_two_pow net
  obtain ⟨hsize, -, hle⟩ := binaryIdSize_eq net.two_le net.fits
  unfold groupOf
  rw [getBinaryId_natCast (by omega) (by omega), getBinaryId_natCast (by omega) (by omega),
    toUInt64_natCast (by omega), toUInt64_natCast (by omega)]
  rcases firstDifferentBit_msbFirst (b := binaryIdSize net.peerCount) (x := y) (y := x) (by omega) (by omega)
    with ⟨rfl, -⟩ | ⟨g, hg, heq, htop⟩
  · exact absurd rfl hne
  · exact ⟨g, hg, heq, htop⟩

theorem closer_of_groupOf {i j t : InterfaceId} (hi : i ∈ net.peerIds) (hj : j ∈ net.peerIds)
    (ht : t ∈ net.peerIds) (hne : j ≠ i) (hti : t ≠ i) (hgroup : groupOf net i j = groupOf net i t) :
    xorDistance j t < xorDistance i t ∧ Nat.size (xorDistance j t) < Nat.size (xorDistance i t) := by
  obtain ⟨g, -, hg, hj⟩ := groupOf_eq hi hj hne
  obtain ⟨g', -, hg', ht⟩ := groupOf_eq hi ht hti
  obtain rfl : g = g' := by
    have := hg.symm.trans (hgroup.trans hg')
    exact_mod_cast this
  obtain ⟨hle, hlt⟩ := hj.size_lt ht
  exact ⟨hj.xor_lt_xor ht, by unfold xorDistance; omega⟩

/-- The peer is as `initParameters` made it, with fingers that are neighbours, each with the group it belongs to;
once there are fingers every group in which there is a neighbour has one. -/
structure Sound (net : KademliaNetwork) (i : InterfaceId) (p : KademliaPeer) : Prop where
  publicId : p.publicId = i
  neighbors : p.neighbors = net.neighbors i
  binaryIdSize : p.binaryIdSize = binaryIdSize net.peerCount
  binaryId : p.binaryId = getBinaryId (Kademlia.binaryIdSize net.peerCount) i
  allPeerIds : p.allPeerIds = net.peerIds
  fingers : ∀ f ∈ p.fingers, f.id ∈ net.neighbors i ∧ f.id ≠ i ∧ f.group = groupOf net i f.id
  covered : p.fingers ≠ [] → ∀ q ∈ net.neighbors i, q ≠ i → i ∈ net.peerIds →
    ∃ f ∈ p.fingers, f.group = groupOf net i q

theorem sound_initialPeer (i : InterfaceId) : Sound net i (net.initialPeer i) :=
  ⟨rfl, rfl, rfl, rfl, rfl, by simp [KademliaNetwork.initialPeer], by simp [KademliaNetwork.initialPeer]⟩

variable {i t : InterfaceId} {p : KademliaPeer}

-- From here on only `groupOf_eq` and `closer_of_groupOf` matter.
attribute [irreducible] groupOf

def fingerOf (net : KademliaNetwork) (i q : InterfaceId) : KademliaFinger where
  id := q
  binId := getBinaryId (binaryIdSize net.peerCount) q
  group := groupOf net i q

@[simp] theorem fingerOf_id (q : InterfaceId) : (fingerOf net i q).id = q := rfl

@[simp] theorem fingerOf_group (q : InterfaceId) : (fingerOf net i q).group = groupOf net i q := rfl

theorem grouped_eq (h : Sound net i p) (group : Nat) :
    p.grouped p.neighbors group = (((net.neighbors i).filter fun q => q ≠ i).map (fingerOf net i)).filter
      fun entry : KademliaFinger => entry.group = (group : Int) := by
  have hfinger : fingerOf net i = fun neighbor =>
      { id := neighbor
        binId := getBinaryId (binaryIdSize net.peerCount) neighbor
        group := firstDifferentBit (getBinaryId (binaryIdSize net.peerCount) neighbor)
          (getBinaryId (binaryIdSize net.peerCount) i) } := by
    funext q
    simp only [fingerOf, groupOf]
  unfold KademliaPeer.grouped
  rw [h.publicId, h.neighbors, h.binaryIdSize, h.binaryId, hfinger]

theorem mem_grouped (h : Sound net i p) {group : Nat} {f : KademliaFinger} :
    f ∈ p.grouped p.neighbors group ↔
      ∃ q ∈ net.neighbors i, q ≠ i ∧ f = fingerOf net i q ∧ groupOf net i q = (group : Int) := by
  rw [grouped_eq h]
  simp only [List.mem_filter, List.mem_map, decide_eq_true_eq]
  constructor
  · rintro ⟨⟨q, ⟨hq, hne⟩, rfl⟩, hgroup⟩
    rw [fingerOf_group] at hgroup
    exact ⟨q, hq, hne, rfl, hgroup⟩
  · rintro ⟨q, hq, hne, rfl, hgroup⟩
    rw [fingerOf_group]
    exact ⟨⟨q, ⟨hq, hne⟩, rfl⟩, hgroup⟩

theorem Sound.rebuildFingerTable (h : Sound net i p) (draw : Nat → Nat) :
    Sound net i (p.rebuildFingerTable p.neighbors draw) := by
  refine ⟨h.publicId, h.neighbors, h.binaryIdSize, h.binaryId, h.allPeerIds, ?_, ?_⟩
  · intro f hf
    simp only [KademliaPeer.rebuildFingerTable, List.mem_filterMap] at hf
    obtain ⟨group, -, hget⟩ := hf
    obtain ⟨q, hq, hne, rfl, -⟩ := (mem_grouped h).mp (List.mem_of_getElem? hget)
    rw [fingerOf_group, fingerOf_id]
    exact ⟨hq, hne, rfl⟩
  · intro _ q hq hne hi
    obtain ⟨g, hg, hgroup, -⟩ := groupOf_eq hi (mem_peerIds_of_neighbor hq) hne
    have hmem : fingerOf net i q ∈ p.grouped p.neighbors g := (mem_grouped h).mpr ⟨q, hq, hne, rfl, hgroup⟩
    -- whatever the draw, it picks an entry of the bucket
    have hlt : (if 1 < (p.grouped p.neighbors g).length then draw g % (p.grouped p.neighbors g).length else 0) <
        (p.grouped p.neighbors g).length := by
      have hpos := List.length_pos_of_mem hmem
      split_ifs
      · exact Nat.mod_lt _ hpos
      · exact hpos
    have hget := List.getElem?_eq_getElem hlt
    obtain ⟨q', -, -, heq, hchosen⟩ := (mem_grouped h).mp (List.getElem_mem hlt)
    rw [heq] at hget
    refine ⟨fingerOf net i q', ?_, by rw [fingerOf_group, hchosen, hgroup]⟩
    simp only [KademliaPeer.rebuildFingerTable, List.mem_filterMap]
    exact ⟨g, List.mem_range.mpr (h.binaryIdSize ▸ hg), hget⟩

theorem Sound.refreshFingers (h : Sound net i p) (d : Draws) : Sound net i (p.refreshFingers d) := by
  unfold KademliaPeer.refreshFingers
  split_ifs
  · exact h.rebuildFingerTable d.bucket
  · exact h

theorem selectFingerForGroup_cases (h : Sound net i p) (group : Int) (draw : Nat) :
    (p.selectFingerForGroup group p.neighbors draw = NO_PEER_ID ∧
      ∀ f ∈ p.fingers, f.group ≠ group) ∨
    ∃ f ∈ p.fingers, f.group = group ∧ p.selectFingerForGroup group p.neighbors draw = f.id := by
  unfold KademliaPeer.selectFingerForGroup
  simp only
  generalize hc : (p.fingers.filter fun finger => finger.group = group ∧ finger.id ∈ p.neighbors).map (·.id) =
    candidates
  rcases candidates with _ | ⟨first, rest⟩
  · refine Or.inl ⟨by simp, ?_⟩
    intro f hf hgroup
    have hmem : f.id ∈ (p.fingers.filter fun finger => finger.group = group ∧ finger.id ∈ p.neighbors).map (·.id) := by
      refine List.mem_map.mpr ⟨f, List.mem_filter.mpr ⟨hf, ?_⟩, rfl⟩
      rw [decide_eq_true_eq, h.neighbors]
      exact ⟨hgroup, (h.fingers f hf).1⟩
    rw [hc] at hmem
    exact absurd hmem List.not_mem_nil
  · right
    generalize hidx : (if 1 < (first :: rest).length then draw % (first :: rest).length else 0) = idx
    have hlt : idx < (first :: rest).length := by
      rw [← hidx]
      split_ifs
      · exact Nat.mod_lt _ (by simp)
      · simp
    have hmem : (first :: rest).getD idx NO_PEER_ID ∈ first :: rest := by
      rw [List.getD_eq_getElem _ _ hlt]
      exact List.getElem_mem hlt
    rw [← hc] at hmem ⊢
    obtain ⟨f, hf, heq⟩ := List.mem_map.mp hmem
    obtain ⟨hf, hgroup⟩ := List.mem_filter.mp hf
    rw [decide_eq_true_eq] at hgroup
    exact ⟨f, hf, hgroup.1, heq.symm⟩

theorem foldl_closerOf (p : KademliaPeer) (t : InterfaceId) (l : List InterfaceId) (best : Nat × InterfaceId) :
    (l.foldl (p.closerOf t) best = best ∨
      ((l.foldl (p.closerOf t) best).2 ∈ l ∧ (l.foldl (p.closerOf t) best).2 ≠ p.publicId ∧
        (l.foldl (p.closerOf t) best).1 = xorDistance (l.foldl (p.closerOf t) best).2 t ∧
        (l.foldl (p.closerOf t) best).1 < best.1)) ∧
      (l.foldl (p.closerOf t) best).1 ≤ best.1 ∧
      ∀ q ∈ l, q ≠ p.publicId → (l.foldl (p.closerOf t) best).1 ≤ xorDistance q t := by
  induction l generalizing best with
  | nil => simp
  | cons a l ih =>
    rw [List.foldl_cons]
    obtain ⟨hcases, hle, hall⟩ := ih (p.closerOf t best a)
    have hstep : (p.closerOf t best a = best ∧ (a = p.publicId ∨ best.1 ≤ xorDistance a t)) ∨
        (a ≠ p.publicId ∧ p.closerOf t best a = (xorDistance a t, a) ∧ xorDistance a t < best.1) := by
      unfold KademliaPeer.closerOf
      split_ifs with hself hlt
      · exact Or.inl ⟨rfl, Or.inl hself⟩
      · exact Or.inr ⟨hself, rfl, hlt⟩
      · exact Or.inl ⟨rfl, Or.inr (not_lt.mp hlt)⟩
    generalize p.closerOf t best a = next at hcases hle hall hstep
    generalize l.foldl (p.closerOf t) next = last at hcases hle hall
    rcases hstep with ⟨rfl, hskip⟩ | ⟨hself, rfl, hlt⟩
    · refine ⟨?_, hle, ?_⟩
      · rcases hcases with heq | ⟨hmem, hrest⟩
        · exact Or.inl heq
        · exact Or.inr ⟨List.mem_cons_of_mem a hmem, hrest⟩
      · intro q hq hne
        rcases List.mem_cons.mp hq with rfl | hq
        · rcases hskip with heq | hge
          · exact absurd heq hne
          · exact le_trans hle hge
        · exact hall q hq hne
    · simp only at hle
      refine ⟨Or.inr ?_, by omega, ?_⟩
      · rcases hcases with rfl | ⟨hmem, hne, heq, hless⟩
        · exact ⟨List.mem_cons_self, hself, rfl, hlt⟩
        · exact ⟨List.mem_cons_of_mem a hmem, hne, heq, lt_trans hless hlt⟩
      · intro q hq hne
        rcases List.mem_cons.mp hq with rfl | hq
        · exact hle
        · exact hall q hq hne

theorem selectClosestByDistance_cases (p : KademliaPeer) (t : InterfaceId) :
    (p.selectClosestByDistance t p.neighbors = NO_PEER_ID ∧
      ∀ q ∈ p.neighbors, q ≠ p.publicId → xorDistance p.publicId t ≤ xorDistance q t) ∨
    (p.selectClosestByDistance t p.neighbors ∈ p.neighbors ∧
      p.selectClosestByDistance t p.neighbors ≠ p.publicId ∧
      xorDistance (p.selectClosestByDistance t p.neighbors) t < xorDistance p.publicId t ∧
      ∀ q ∈ p.neighbors, q ≠ p.publicId →
        xorDistance (p.selectClosestByDistance t p.neighbors) t ≤ xorDistance q t) := by
  obtain ⟨hcases, -, hall⟩ := foldl_closerOf p t p.neighbors (xorDistance p.publicId t, NO_PEER_ID)
  unfold KademliaPeer.selectClosestByDistance
  generalize p.neighbors.foldl (p.closerOf t) (xorDistance p.publicId t, NO_PEER_ID) = last at hcases hall
  rcases hcases with rfl | ⟨hmem, hne, heq, hlt⟩
  · exact Or.inl ⟨rfl, hall⟩
  · refine Or.inr ⟨hmem, hne, heq ▸ hlt, ?_⟩
    intro q hq hq'
    exact heq ▸ hall q hq hq'

theorem findRoute_eq (h : Sound net i p) (hi : i ∈ net.peerIds) (ht : t ∈ net.peerIds) (hne : t ≠ i) (draw : Nat) :
    p.findRoute (getBinaryId p.binaryIdSize t) t p.neighbors draw =
      if p.selectFingerForGroup (groupOf net i t) p.neighbors draw ≠ NO_PEER_ID then
        p.selectFingerForGroup (groupOf net i t) p.neighbors draw
      else p.selectClosestByDistance t p.neighbors := by
  have hbits := (binaryIdSize_eq net.two_le net.fits).2.1
  have hnonempty : ∀ id, getBinaryId (binaryIdSize net.peerCount) id ≠ [] := by
    intro id hnil
    have hlength := congrArg List.length hnil
    simp only [getBinaryId, List.length_map, List.length_reverse, List.length_range, List.length_nil] at hlength
    rw [(binaryIdSize_eq net.two_le net.fits).1] at hlength
    omega
  obtain ⟨g, -, hgroup, -⟩ := groupOf_eq hi ht hne
  have hdiff : firstDifferentBit (getBinaryId p.binaryIdSize t) p.binaryId = groupOf net i t := by
    rw [h.binaryIdSize, h.binaryId]
    simp only [groupOf]
  unfold KademliaPeer.findRoute
  rw [if_neg (by rw [h.binaryIdSize, h.binaryId]; exact not_or.mpr ⟨hnonempty t, hnonempty i⟩)]
  simp only [hdiff]
  rw [if_neg (by rw [hgroup]; omega)]

theorem findRoute_closer (h : Sound net i p) (hi : i ∈ net.peerIds) (ht : t ∈ net.peerIds) (hne : t ≠ i)
    (draw : Nat) :
    p.findRoute (getBinaryId p.binaryIdSize t) t p.neighbors draw = NO_PEER_ID ∨
      (p.findRoute (getBinaryId p.binaryIdSize t) t p.neighbors draw ∈ net.neighbors i ∧
        xorDistance (p.findRoute (getBinaryId p.binaryIdSize t) t p.neighbors draw) t < xorDistance i t) := by
  rw [findRoute_eq h hi ht hne]
  split_ifs with hfinger
  · rcases selectFingerForGroup_cases h (groupOf net i t) draw with ⟨hnone, -⟩ | ⟨f, hf, hgroup, heq⟩
    · exact absurd hnone hfinger
    · obtain ⟨hmem, hself, hown⟩ := h.fingers f hf
      rw [heq]
      exact Or.inr ⟨hmem, (closer_of_groupOf hi (mem_peerIds_of_neighbor hmem) ht hself hne
        (hown.symm.trans hgroup)).1⟩
  · rcases selectClosestByDistance_cases p t with ⟨hnone, -⟩ | ⟨hmem, -, hlt, -⟩
    · exact Or.inl hnone
    · rw [h.publicId] at hlt
      exact Or.inr ⟨by rw [← h.neighbors]; exact hmem, hlt⟩

theorem toUInt64_inj {i j : InterfaceId} (hi : i ∈ net.peerIds) (hj : j ∈ net.peerIds)
    (h : toUInt64 i = toUInt64 j) : i = j := by
  obtain ⟨x, hx, rfl⟩ := mem_peerIds.mp hi
  obtain ⟨y, hy, rfl⟩ := mem_peerIds.mp hj
  have hfits := net.fits
  rw [toUInt64_natCast (by omega), toUInt64_natCast (by omega)] at h
  rw [h]

theorem findRoute_complete (hcomplete : net.Complete) (h : Sound net i p) (hi : i ∈ net.peerIds)
    (ht : t ∈ net.peerIds) (hne : t ≠ i) (draw : Nat) :
    p.findRoute (getBinaryId p.binaryIdSize t) t p.neighbors draw ≠ NO_PEER_ID ∧
      Nat.size (xorDistance (p.findRoute (getBinaryId p.binaryIdSize t) t p.neighbors draw) t) <
        Nat.size (xorDistance i t) := by
  have htarget : t ∈ net.neighbors i := hcomplete i hi t ht hne
  rw [findRoute_eq h hi ht hne]
  split_ifs with hfinger
  · refine ⟨hfinger, ?_⟩
    rcases selectFingerForGroup_cases h (groupOf net i t) draw with ⟨hnone, -⟩ | ⟨f, hf, hgroup, heq⟩
    · exact absurd hnone hfinger
    · obtain ⟨hmem, hself, hown⟩ := h.fingers f hf
      rw [heq]
      exact (closer_of_groupOf hi (mem_peerIds_of_neighbor hmem) ht hself hne (hown.symm.trans hgroup)).2
  · -- without a finger for the target's group there are no fingers yet, and the target itself is the closest
    have hzero : xorDistance t t = 0 := Nat.xor_self _
    have hpos : 0 < xorDistance i t := by
      apply Nat.pos_of_ne_zero
      intro hx
      exact hne (toUInt64_inj hi ht (Nat.xor_eq_zero_iff.mp hx)).symm
    rcases selectClosestByDistance_cases p t with ⟨-, hall⟩ | ⟨hmem, -, -, hall⟩
    · have := hall t (h.neighbors ▸ htarget) (h.publicId ▸ hne)
      rw [h.publicId] at this
      omega
    · have hneighbor : p.selectClosestByDistance t p.neighbors ∈ net.neighbors i := by
        rw [← h.neighbors]
        exact hmem
      refine ⟨ne_noPeer (mem_peerIds_of_neighbor hneighbor), ?_⟩
      have hleast := hall t (h.neighbors ▸ htarget) (h.publicId ▸ hne)
      have hdistance : xorDistance (p.selectClosestByDistance t p.neighbors) t = 0 := by omega
      rw [hdistance, Nat.size_zero]
      exact Nat.size_pos.mpr hpos

/-! ## Lookups -/

/-- A hop to a neighbour that is closer to the target. -/
def Closer (net : KademliaNetwork) (target a b : InterfaceId) : Prop :=
  b ∈ net.neighbors a ∧ xorDistance b target < xorDistance a target

structure Underway (net : KademliaNetwork) (visited : List InterfaceId) (next : InterfaceId)
    (m : LookupMessage) : Prop where
  peer : next ∈ net.peerIds
  target : m.targetId ∈ net.peerIds
  binary : m.targetBinaryId = getBinaryId (binaryIdSize net.peerCount) m.targetId
  hops : m.hops = visited.length
  path : (visited ++ [next]).IsChain (Closer net m.targetId)
  bound : net.Complete → m.hops + Nat.size (xorDistance next m.targetId) ≤ Nat.clog 2 net.peerCount

structure Answered (net : KademliaNetwork) (visited : List InterfaceId) (m : LookupMessage) : Prop where
  last : visited.getLast? = some m.targetId
  hops : m.hops + 1 = visited.length
  path : visited.IsChain (Closer net m.targetId)
  bound : net.Complete → m.hops ≤ Nat.clog 2 net.peerCount

def contract (net : KademliaNetwork) : Lib.Relay.Contract InterfaceId KademliaPeer LookupMessage where
  party := Sound net
  inFlight := Underway net
  satisfied := Answered net
  dropped _ _ := ¬net.Complete

theorem neighbors_ne_nil (hcomplete : net.Complete) (hi : i ∈ net.peerIds) : net.neighbors i ≠ [] := by
  obtain ⟨x, hx, rfl⟩ := mem_peerIds.mp hi
  have htwo := net.two_le
  have hother : ∃ y < net.peerCount, y ≠ x := by
    by_cases hzero : x = 0
    · exact ⟨1, by omega, by omega⟩
    · exact ⟨0, by omega, fun h => hzero h.symm⟩
  obtain ⟨y, hy, hne⟩ := hother
  apply List.ne_nil_of_mem (a := (y : Int))
  exact hcomplete x hi y (mem_peerIds.mpr ⟨y, hy, rfl⟩) (by exact_mod_cast hne)

theorem size_xorDistance_le {a b : InterfaceId} (ha : a ∈ net.peerIds) (hb : b ∈ net.peerIds) :
    Nat.size (xorDistance a b) ≤ Nat.clog 2 net.peerCount := by
  obtain ⟨x, hx, rfl⟩ := mem_peerIds.mp ha
  obtain ⟨y, hy, rfl⟩ := mem_peerIds.mp hb
  have hfits := net.fits
  have hpow : net.peerCount ≤ 2 ^ Nat.clog 2 net.peerCount := Nat.le_pow_clog (by omega) _
  unfold xorDistance
  rw [toUInt64_natCast (by omega), toUInt64_natCast (by omega)]
  exact Nat.size_le.mpr (Nat.xor_lt_two_pow (by omega) (by omega))

theorem admits_forward (h : Sound net i p) (hi : i ∈ net.peerIds) (visited : List InterfaceId) {m : LookupMessage}
    (ht : m.targetId ∈ net.peerIds) (hne : m.targetId ≠ i)
    (hbinary : m.targetBinaryId = getBinaryId (binaryIdSize net.peerCount) m.targetId)
    (hops : m.hops = visited.length) (hpath : (visited ++ [i]).IsChain (Closer net m.targetId))
    (hbound : net.Complete → m.hops + Nat.size (xorDistance i m.targetId) ≤ Nat.clog 2 net.peerCount) (draw : Nat) :
    (contract net).admits (visited ++ [i])
      (p.forward m (p.findRoute m.targetBinaryId m.targetId p.neighbors draw)) := by
  have hcloser := findRoute_closer h hi ht hne draw
  have hcomplete := fun hc => findRoute_complete hc h hi ht hne draw
  rw [hbinary, ← h.binaryIdSize]
  generalize p.findRoute (getBinaryId p.binaryIdSize m.targetId) m.targetId p.neighbors draw = r at hcloser hcomplete
  unfold KademliaPeer.forward
  by_cases hnone : r = NO_PEER_ID
  · rw [if_pos (Or.inl hnone)]
    exact fun hc => (hcomplete hc).1 hnone
  · obtain ⟨hneighbor, hlt⟩ := hcloser.resolve_left hnone
    have hself : r ≠ p.publicId := by
      rw [h.publicId]
      rintro rfl
      exact lt_irrefl _ hlt
    rw [if_neg (not_or.mpr ⟨hnone, hself⟩)]
    simp only
    rw [if_pos (by rw [h.neighbors]; exact hneighbor)]
    refine ⟨mem_peerIds_of_neighbor hneighbor, ht, hbinary, by simp [hops], ?_, ?_⟩
    · exact Lib.Relay.isChain_concat hpath ⟨hneighbor, hlt⟩
    · intro hc
      have hsmaller := (hcomplete hc).2
      have hold := hbound hc
      simp only
      omega

theorem kept : (contract net).Kept net.relay := by
  refine ⟨sound_initialPeer, ?_, ?_, ?_⟩
  · intro i _ p d h
    exact Sound.refreshFingers h d
  · intro i hi p k d h
    have hne : p.allPeerIds ≠ [] := by
      rw [h.allPeerIds]
      exact List.ne_nil_of_mem hi
    have htarget : p.allPeerIds.getD (d.target % p.allPeerIds.length) NO_PEER_ID ∈ net.peerIds := by
      have hlt : d.target % p.allPeerIds.length < p.allPeerIds.length :=
        Nat.mod_lt _ (List.length_pos_of_ne_nil hne)
      rw [List.getD_eq_getElem _ _ hlt, ← h.allPeerIds]
      exact List.getElem_mem hlt
    simp only [KademliaNetwork.relay, KademliaPeer.submitLookup, if_neg hne]
    generalize p.allPeerIds.getD (d.target % p.allPeerIds.length) NO_PEER_ID = target at htarget
    split_ifs with hself hempty
    · refine ⟨⟨h.publicId, h.neighbors, h.binaryIdSize, h.binaryId, h.allPeerIds, h.fingers, h.covered⟩, ?_⟩
      refine ⟨?_, rfl, List.isChain_singleton i, fun _ => Nat.zero_le _⟩
      simp only [List.getLast?_singleton]
      rw [hself, h.publicId]
    · exact ⟨h, fun hc => neighbors_ne_nil hc hi (h.neighbors ▸ hempty)⟩
    · refine ⟨h, ?_⟩
      have hbound : 0 + Nat.size (xorDistance i target) ≤ Nat.clog 2 net.peerCount := by
        rw [Nat.zero_add]
        exact size_xorDistance_le hi htarget
      have hne : target ≠ i := h.publicId ▸ hself
      exact admits_forward h hi [] (m := ⟨k + 1, p.publicId, target, getBinaryId p.binaryIdSize target,
        d.currentRound, 0, none⟩) htarget hne (by simp only [h.binaryIdSize]) rfl (List.isChain_singleton i)
        (fun _ => hbound) d.candidate
  · intro i p m visited d h hm
    have hi := hm.peer
    simp only [KademliaNetwork.relay, KademliaPeer.handleLookup]
    rw [if_neg (ne_noPeer hm.target)]
    have hlength : getBinaryId (binaryIdSize net.peerCount) m.targetId ≠ [] := by
      intro hnil
      have hlen := congrArg List.length hnil
      simp only [getBinaryId, List.length_map, List.length_reverse, List.length_range, List.length_nil] at hlen
      have hbits := (binaryIdSize_eq net.two_le net.fits).2.1
      rw [(binaryIdSize_eq net.two_le net.fits).1] at hlen
      omega
    split_ifs with hself hempty hbinary
    · refine ⟨⟨h.publicId, h.neighbors, h.binaryIdSize, h.binaryId, h.allPeerIds, h.fingers, h.covered⟩, ?_⟩
      refine ⟨?_, by simp [hm.hops], hm.path, ?_⟩
      · rw [List.getLast?_concat, hself, h.publicId]
      · intro hc
        have := hm.bound hc
        omega
    · exact ⟨h, fun hc => neighbors_ne_nil hc hi (h.neighbors ▸ hempty)⟩
    · exact absurd (hm.binary ▸ hbinary) hlength
    · refine ⟨h, ?_⟩
      exact admits_forward h hi visited hm.target (h.publicId ▸ hself) hm.binary hm.hops hm.path hm.bound d.candidate

end hops

/-- **Routing makes progress.** In every run, with any delay, order, loss and duplication of lookups, any draws and
any neighbour sets, each hop that a lookup has made went to a neighbour closer to its target, so it has visited no
peer twice. On the complete topology no lookup is dropped, none makes more than `⌈log₂ n⌉` hops, and one that makes
so many is sent to its target with the last of them; without loss every lookup that was submitted has reached its
target or is on its way. -/
theorem routing_progress (net : KademliaNetwork) :
    (∀ s, net.relay.machine.Reached s →
      (∀ f ∈ s.inFlight, (f.2.visited ++ [f.1]).IsChain (Closer net f.2.message.targetId) ∧
        (f.2.visited ++ [f.1]).Nodup) ∧
      ∀ j ∈ s.satisfied, j.visited.IsChain (Closer net j.message.targetId) ∧ j.visited.Nodup) ∧
    (net.Complete → ∀ s, net.relay.ReachedLossless s →
      s.dropped = [] ∧ (∀ k < s.issued, k ∈ s.serials) ∧
      (∀ f ∈ s.inFlight, f.2.message.hops = f.2.visited.length ∧ f.2.message.hops ≤ Nat.clog 2 net.peerCount ∧
        (f.2.message.hops = Nat.clog 2 net.peerCount → f.1 = f.2.message.targetId)) ∧
      ∀ j ∈ s.satisfied, j.visited.getLast? = some j.message.targetId ∧
        j.message.hops + 1 = j.visited.length ∧ j.message.hops ≤ Nat.clog 2 net.peerCount) := by
  have hsimple : ∀ {target : InterfaceId} {path : List InterfaceId}, path.IsChain (Closer net target) →
      path.Nodup := by
    intro target path hpath
    exact Lib.Relay.nodup_of_rank (fun i => xorDistance i target) (hpath.imp fun _ _ hcloser => hcloser.2)
  constructor
  · intro s hr
    have h := Lib.Relay.reached_rule kept hr
    constructor
    · intro f hf
      exact ⟨(h.inFlight f hf).path, hsimple (h.inFlight f hf).path⟩
    · intro j hj
      exact ⟨(h.satisfied j hj).path, hsimple (h.satisfied j hj).path⟩
  · intro hcomplete s hr
    have h := Lib.Relay.reached_rule kept hr
    refine ⟨?_, fun k hk => Lib.Relay.mem_serials hr hk, ?_, ?_⟩
    · apply List.eq_nil_iff_forall_not_mem.mpr
      intro j hj
      exact h.dropped j hj hcomplete
    · intro f hf
      have hm := h.inFlight f hf
      have hbound := hm.bound hcomplete
      refine ⟨hm.hops, by omega, ?_⟩
      intro hlast
      have hzero : xorDistance f.1 f.2.message.targetId = 0 := Nat.size_eq_zero.mp (by omega)
      exact toUInt64_inj hm.peer hm.target (Nat.xor_eq_zero_iff.mp hzero)
    · intro j hj
      exact ⟨(h.satisfied j hj).last, (h.satisfied j hj).hops, (h.satisfied j hj).bound hcomplete⟩

def completeFour : KademliaNetwork where
  peerCount := 4
  two_le := by decide
  fits := by decide
  neighbors i := [0, 1, 2, 3].filter fun q => q ≠ i
  sorted i := List.Pairwise.filter _ (by decide)
  within i q hq := by
    have hmem : q ∈ [(0 : InterfaceId), 1, 2, 3] := (List.mem_filter.mp hq).1
    clear hq
    revert q
    decide

theorem completeFour_complete : completeFour.Complete := by
  intro i _ q hq hne
  have hq : q ∈ [0, 1, 2, 3] := hq
  exact List.mem_filter.mpr ⟨hq, by simpa using hne⟩

/-- A lookup of peer 0 for peer 3 that the draws lead over peer 2. -/
theorem routing_progress_completeFour : ∃ s, completeFour.relay.ReachedLossless s ∧ ∃ j ∈ s.satisfied,
    j.visited = [0, 2, 3] ∧ j.visited.Nodup ∧ j.message.hops ≤ Nat.clog 2 completeFour.peerCount := by
  have hrun : (completeFour.relay.machine.runUnder (fun _ e => e.lossless = true)
      { party := completeFour.relay.start }
      [.tick 0 {}, .submit 0 { target := 3 }, .tick 2 {}, .deliver 0 {}, .tick 3 {}, .deliver 0 {}]).map
      (fun s => decide (s.satisfied.map (·.visited) = [[0, 2, 3]])) = some true := by
    decide +kernel
  obtain ⟨s, hs, hfacts⟩ := Option.map_eq_some_iff.mp hrun
  have hvisited := of_decide_eq_true hfacts
  have hreached : completeFour.relay.ReachedLossless s := Lib.Machine.reachedUnder_of_runUnder (.start rfl) hs
  have hanswered : ∃ j ∈ s.satisfied, j.visited = [0, 2, 3] := by
    have hmem : [0, 2, 3] ∈ s.satisfied.map (·.visited) := by
      rw [hvisited]
      exact List.mem_singleton_self _
    exact List.mem_map.mp hmem
  obtain ⟨j, hj, hj'⟩ := hanswered
  obtain ⟨hall, hcomplete⟩ := routing_progress completeFour
  refine ⟨s, hreached, j, hj, hj', ?_, ?_⟩
  · exact ((hall s (hreached.mono fun _ _ _ => trivial)).2 j hj).2
  · exact ((hcomplete completeFour_complete s hreached).2.2.2 j hj).2.2

end Quantas.Kademlia
