import Quantas.Network.Topology

/-!
# Channel wiring

`initNetwork` makes peers `0, …, n - 1`, whose public and internal ids both are their number, shuffles
the vector `_peers` when identifiers are random, lets a builder add neighbours, and then creates a
channel for every neighbour of every peer. `createInitialChannels` reads a neighbour, which is an id,
as an index into the shuffled vector.

`Wired` is the wiring that the neighbour relation asks for. `wired_iff_order_keeps_neighbours`: for an
accepted topology the channels are wired so exactly when the shuffle maps the positions adjacent to each
position onto themselves.
-/

namespace Quantas

/-- A channel between two peers; `handle` tells channels with equal ends apart. -/
structure Channel where
  handle : Nat
  targetId : InterfaceId
  targetInternalId : InterfaceId
  sourceId : InterfaceId
  sourceInternalId : InterfaceId
  deriving DecidableEq, Repr

/-- A peer's network interface. The channel maps list their entries in the order of insertion. -/
structure Peer where
  publicId : InterfaceId
  internalId : InterfaceId
  neighbors : List InterfaceId := []
  inBoundChannels : List (InterfaceId × Channel) := []
  outBoundChannels : List (InterfaceId × Channel) := []
  deriving DecidableEq, Repr

namespace Peer

/-- Insertion into the ordered set of neighbours. -/
def addNeighbor (p : Peer) (nbr : InterfaceId) : Peer :=
  { p with neighbors :=
      if nbr ∈ p.neighbors then p.neighbors else p.neighbors.orderedInsert (· ≤ ·) nbr }

def addInboundChannel (p : Peer) (srcPubId : InterfaceId) (ch : Channel) : Peer :=
  { p with inBoundChannels := p.inBoundChannels ++ [(srcPubId, ch)] }

def addOutboundChannel (p : Peer) (tPubId : InterfaceId) (ch : Channel) : Peer :=
  { p with outBoundChannels := p.outBoundChannels ++ [(tPubId, ch)] }

theorem mem_addNeighbor {p : Peer} {nbr q : InterfaceId} :
    q ∈ (p.addNeighbor nbr).neighbors ↔ q = nbr ∨ q ∈ p.neighbors := by
  unfold addNeighbor
  by_cases h : nbr ∈ p.neighbors
  · rw [if_pos h]
    exact ⟨.inr, fun hq => hq.elim (fun hq => hq ▸ h) id⟩
  · rw [if_neg h, List.mem_orderedInsert]

theorem nodup_addNeighbor {p : Peer} (hp : p.neighbors.Nodup) (nbr : InterfaceId) :
    (p.addNeighbor nbr).neighbors.Nodup := by
  unfold addNeighbor
  split_ifs with h
  · exact hp
  · exact (List.perm_orderedInsert _ nbr p.neighbors).nodup_iff.mpr (List.nodup_cons.mpr ⟨h, hp⟩)

theorem sorted_addNeighbor {p : Peer} (hp : p.neighbors.Pairwise (· < ·)) (nbr : InterfaceId) :
    (p.addNeighbor nbr).neighbors.Pairwise (· < ·) := by
  have hle : (p.addNeighbor nbr).neighbors.Pairwise (· ≤ ·) := by
    unfold addNeighbor
    split_ifs
    · exact hp.imp le_of_lt
    · exact (hp.imp le_of_lt).orderedInsert nbr _
  have hnodup := nodup_addNeighbor (hp.imp ne_of_lt) nbr
  exact hle.imp₂ (fun _ _ hab hne => lt_of_le_of_ne hab hne) hnodup

end Peer

/-- The vector of peers; `made` counts the channels created so far. -/
structure Network where
  size : Nat
  peers : Nat → Peer
  made : Nat := 0

namespace Network

/-- `PeerRegistry::makePeer(type, i)`: the public id is `i`, and the internal id is the next value of a
counter that starts at `NO_PEER_ID`. -/
def makePeer (i : Nat) : Peer where
  publicId := i
  internalId := NO_PEER_ID + (i + 1)

/-- The number of the peer at position `k` of the vector that `order` has permuted. -/
def place {n : Nat} (order : Equiv.Perm (Fin n)) (k : Nat) : Nat :=
  if h : k < n then order ⟨k, h⟩ else k

/-- One `addNeighbor` call of a builder. -/
def link (peers : Nat → Peer) (call : Nat × InterfaceId) : Nat → Peer :=
  Function.update peers call.1 ((peers call.1).addNeighbor call.2)

/-- The body of `createInitialChannels`: a channel from the peer at position `i` to `_peers[nbr]`. -/
def connect (net : Network) (i : Nat) (nbr : InterfaceId) : Network :=
  let j := nbr.toNat
  let channelPtr : Channel :=
    { handle := net.made
      targetId := (net.peers j).publicId
      targetInternalId := (net.peers j).internalId
      sourceId := (net.peers i).publicId
      sourceInternalId := (net.peers i).internalId }
  let peers := Function.update net.peers j
    ((net.peers j).addInboundChannel (net.peers i).publicId channelPtr)
  { net with
    peers := Function.update peers i ((peers i).addOutboundChannel (peers j).publicId channelPtr)
    made := net.made + 1 }

def createInitialChannels (net : Network) : Network :=
  (List.range net.size).foldl
    (fun net i => (net.peers i).neighbors.foldl (fun net nbr => net.connect i nbr) net) net

def linkedPeers (t : TopologyConfig) (order : Equiv.Perm (Fin t.size)) : Nat → Peer :=
  let peers := fun k => makePeer (place order k)
  (builderCalls (fun j => (peers j).internalId) t).foldl link peers

/-- `initNetwork`, where `order` is the permutation that the shuffle of `_peers` drew (the identity
unless identifiers are random). -/
def initNetwork (t : TopologyConfig) (order : Equiv.Perm (Fin t.size)) : Network :=
  createInitialChannels { size := t.size, peers := linkedPeers t order }

/-- The channels into which `unicastTo(msg, nbr)` pushes the message. -/
def unicastTo (p : Peer) (nbr : InterfaceId) : List Channel :=
  if nbr ∈ p.neighbors then (p.outBoundChannels.filter (·.1 = nbr)).map (·.2) else []

/-- A message that the peer at position `i` unicasts to `nbr`, if no channel drops it, reaches the peer
at position `j`. -/
def Reaches (net : Network) (i : Nat) (nbr : InterfaceId) (j : Nat) : Prop :=
  ∃ ch ∈ unicastTo (net.peers i) nbr, ∃ src, (src, ch) ∈ (net.peers j).inBoundChannels

/-- The channels match the neighbour relation. -/
structure Wired (net : Network) : Prop where
  /-- Every neighbour has exactly one outbound channel under its id, to the peer with that id, which
  has the same channel inbound. -/
  outbound : ∀ i < net.size, ∀ q ∈ (net.peers i).neighbors, ∃ ch,
    (net.peers i).outBoundChannels.filter (·.1 = q) = [(q, ch)] ∧ ch.targetId = q ∧
      ∃ j < net.size, (net.peers j).publicId = q ∧
        ((net.peers i).publicId, ch) ∈ (net.peers j).inBoundChannels
  /-- There are no other outbound channels. -/
  outbound_only : ∀ i < net.size, ∀ e ∈ (net.peers i).outBoundChannels,
    e.1 ∈ (net.peers i).neighbors
  /-- There are no other inbound channels. -/
  inbound_only : ∀ j < net.size, ∀ e ∈ (net.peers j).inBoundChannels, ∃ i < net.size,
    e.1 = (net.peers i).publicId ∧ ((net.peers j).publicId, e.2) ∈ (net.peers i).outBoundChannels
  /-- A unicast to a neighbour reaches it and nobody else. -/
  unicast : ∀ i < net.size, ∀ q ∈ (net.peers i).neighbors, ∀ j < net.size,
    net.Reaches i q j ↔ (net.peers j).publicId = q

/-! ## What a network keeps while channels are created -/

/-- The neighbour pairs in the order in which `createInitialChannels` visits them. -/
def pairs (net : Network) : List (Nat × InterfaceId) :=
  (List.range net.size).flatMap fun i => (net.peers i).neighbors.map fun nbr => (i, nbr)

def SamePeers (net net' : Network) : Prop :=
  net'.size = net.size ∧ ∀ k, (net'.peers k).publicId = (net.peers k).publicId ∧
    (net'.peers k).internalId = (net.peers k).internalId ∧
    (net'.peers k).neighbors = (net.peers k).neighbors

theorem SamePeers.refl (net : Network) : SamePeers net net := ⟨rfl, fun _ => ⟨rfl, rfl, rfl⟩⟩

theorem SamePeers.trans {a b c : Network} (hab : SamePeers a b) (hbc : SamePeers b c) :
    SamePeers a c :=
  ⟨hbc.1.trans hab.1, fun k => ⟨(hbc.2 k).1.trans (hab.2 k).1,
    (hbc.2 k).2.1.trans (hab.2 k).2.1, (hbc.2 k).2.2.trans (hab.2 k).2.2⟩⟩

/-- The channel that the `handle`-th visit of a neighbour pair creates. -/
def channelOf (net : Network) (e : (Nat × InterfaceId) × Nat) : Channel where
  handle := e.2
  targetId := (net.peers e.1.2.toNat).publicId
  targetInternalId := (net.peers e.1.2.toNat).internalId
  sourceId := (net.peers e.1.1).publicId
  sourceInternalId := (net.peers e.1.1).internalId

theorem SamePeers.channelOf_eq {net net' : Network} (h : SamePeers net net') (e) :
    net'.channelOf e = net.channelOf e := by
  simp only [channelOf, (h.2 _).1, (h.2 _).2.1]

theorem samePeers_connect (net : Network) (i : Nat) (nbr : InterfaceId) :
    SamePeers net (net.connect i nbr) := by
  refine ⟨rfl, fun k => ?_⟩
  unfold connect
  by_cases hi : k = i <;> by_cases hj : k = nbr.toNat <;>
    by_cases hij : i = nbr.toNat <;>
    simp_all [Function.update_apply, Peer.addInboundChannel, Peer.addOutboundChannel]

theorem connect_outBound (net : Network) (i : Nat) (nbr : InterfaceId) (k : Nat) :
    ((net.connect i nbr).peers k).outBoundChannels = (net.peers k).outBoundChannels ++
      if i = k then
        [((net.peers nbr.toNat).publicId, net.channelOf ((i, nbr), net.made))] else [] := by
  unfold connect channelOf
  by_cases hi : i = k <;> by_cases hj : k = nbr.toNat <;>
    by_cases hij : i = nbr.toNat <;>
    simp_all [Function.update_apply, Peer.addInboundChannel, Peer.addOutboundChannel, eq_comm]

theorem connect_inBound (net : Network) (i : Nat) (nbr : InterfaceId) (k : Nat) :
    ((net.connect i nbr).peers k).inBoundChannels = (net.peers k).inBoundChannels ++
      if nbr.toNat = k then
        [((net.peers i).publicId, net.channelOf ((i, nbr), net.made))] else [] := by
  unfold connect channelOf
  by_cases hi : i = k <;> by_cases hj : nbr.toNat = k <;>
    by_cases hij : i = nbr.toNat <;>
    simp_all [Function.update_apply, Peer.addInboundChannel, Peer.addOutboundChannel, eq_comm]

/-! ## The channels of the finished network -/

def wire (net : Network) (ps : List (Nat × InterfaceId)) : Network :=
  ps.foldl (fun net p => net.connect p.1 p.2) net

theorem samePeers_wire (net : Network) (ps : List (Nat × InterfaceId)) :
    SamePeers net (net.wire ps) := by
  induction ps generalizing net with
  | nil => exact .refl net
  | cons p ps ih => exact (samePeers_connect net p.1 p.2).trans (ih _)

theorem wire_outBound (net : Network) (ps : List (Nat × InterfaceId)) (k : Nat) :
    ((net.wire ps).peers k).outBoundChannels = (net.peers k).outBoundChannels ++
      ((ps.zipIdx net.made).filter (·.1.1 = k)).map
        fun e => ((net.peers e.1.2.toNat).publicId, net.channelOf e) := by
  induction ps generalizing net with
  | nil => simp [wire]
  | cons p ps ih =>
    have hsame := samePeers_connect net p.1 p.2
    rw [wire, List.foldl_cons, ← wire, ih, connect_outBound, List.append_assoc, List.zipIdx_cons]
    simp only [hsame.channelOf_eq, (hsame.2 _).1, List.filter_cons]
    congr 1
    by_cases hk : p.1 = k
    · subst hk
      simp [connect]
    · simp [hk, connect]

theorem wire_inBound (net : Network) (ps : List (Nat × InterfaceId)) (k : Nat) :
    ((net.wire ps).peers k).inBoundChannels = (net.peers k).inBoundChannels ++
      ((ps.zipIdx net.made).filter (·.1.2.toNat = k)).map
        fun e => ((net.peers e.1.1).publicId, net.channelOf e) := by
  induction ps generalizing net with
  | nil => simp [wire]
  | cons p ps ih =>
    have hsame := samePeers_connect net p.1 p.2
    rw [wire, List.foldl_cons, ← wire, ih, connect_inBound, List.append_assoc, List.zipIdx_cons]
    simp only [hsame.channelOf_eq, (hsame.2 _).1, List.filter_cons]
    congr 1
    by_cases hk : p.2.toNat = k
    · simp [hk, connect]
    · simp [hk, connect]

theorem createInitialChannels_eq_wire (net : Network) :
    net.createInitialChannels = net.wire net.pairs := by
  suffices h : ∀ (is : List Nat) (net' : Network), SamePeers net net' →
      is.foldl (fun net i => (net.peers i).neighbors.foldl (fun net nbr => net.connect i nbr) net)
        net' = net'.wire (is.flatMap fun i => (net.peers i).neighbors.map fun nbr => (i, nbr)) from
    h _ net (.refl net)
  intro is
  induction is with
  | nil => exact fun _ _ => rfl
  | cons i is ih =>
    intro net' hsame
    have hbody : (net'.peers i).neighbors.foldl (fun net nbr => net.connect i nbr) net' =
        net'.wire ((net.peers i).neighbors.map fun nbr => (i, nbr)) := by
      rw [wire, List.foldl_map, (hsame.2 i).2.2]
    rw [List.foldl_cons, hbody, ih _ (hsame.trans (samePeers_wire _ _)), List.flatMap_cons]
    simp only [wire, List.foldl_append]

theorem filter_key_eq {α β : Type} [DecidableEq α] {l : List (α × β)} (hl : (l.map (·.1)).Nodup)
    {k : α} {v : β} (h : (k, v) ∈ l) : l.filter (·.1 = k) = [(k, v)] := by
  induction l with
  | nil => exact absurd h List.not_mem_nil
  | cons e l ih =>
    obtain ⟨hnotMem, hl⟩ := List.nodup_cons.mp (List.map_cons ▸ hl)
    rcases List.mem_cons.mp h with rfl | h
    · have hrest : l.filter (·.1 = k) = [] := by
        refine List.filter_eq_nil_iff.mpr fun e he hek => hnotMem ?_
        exact List.mem_map.mpr ⟨e, he, by simpa using hek⟩
      simp [hrest]
    · have hne : e.1 ≠ k := fun hek => hnotMem (hek ▸ List.mem_map_of_mem h)
      simp [hne, ih hl h]

section finished
variable {t : TopologyConfig} (order : Equiv.Perm (Fin t.size))

theorem place_lt {k : Nat} (hk : k < t.size) : place order k < t.size := by
  rw [place, dif_pos hk]
  exact (order ⟨k, hk⟩).isLt

theorem place_inj {j k : Nat} (hj : j < t.size) (hk : k < t.size)
    (h : place order j = place order k) : j = k := by
  rw [place, dif_pos hj, place, dif_pos hk] at h
  exact congrArg Fin.val (order.injective (Fin.ext h))

theorem link_foldl (calls : List (Nat × InterfaceId)) (peers : Nat → Peer) (k : Nat) :
    (calls.foldl link peers k).publicId = (peers k).publicId ∧
      (calls.foldl link peers k).internalId = (peers k).internalId ∧
      (calls.foldl link peers k).inBoundChannels = (peers k).inBoundChannels ∧
      (calls.foldl link peers k).outBoundChannels = (peers k).outBoundChannels ∧
      (∀ q, q ∈ (calls.foldl link peers k).neighbors ↔ q ∈ (peers k).neighbors ∨ (k, q) ∈ calls) ∧
      ((peers k).neighbors.Nodup → (calls.foldl link peers k).neighbors.Nodup) := by
  induction calls generalizing peers with
  | nil => simp
  | cons c calls ih =>
    obtain ⟨hpub, hint, hin, hout, hnbr, hnodup⟩ := ih (link peers c)
    rw [List.foldl_cons, hpub, hint, hin, hout]
    by_cases hk : k = c.1
    · have hlink : link peers c k = (peers k).addNeighbor c.2 := by
        rw [link, hk, Function.update_self]
      rw [hlink] at hnbr hnodup ⊢
      refine ⟨rfl, rfl, rfl, rfl, fun q => ?_, fun hp => hnodup (Peer.nodup_addNeighbor hp c.2)⟩
      rw [hnbr, Peer.mem_addNeighbor, List.mem_cons, hk, Prod.ext_iff]
      simp only [true_and]
      tauto
    · have hlink : link peers c k = peers k := Function.update_of_ne hk _ _
      rw [hlink] at hnbr hnodup ⊢
      refine ⟨rfl, rfl, rfl, rfl, fun q => ?_, hnodup⟩
      rw [hnbr, List.mem_cons, Prod.ext_iff]
      simp [hk]

theorem linkedPeers_publicId (k : Nat) : (linkedPeers t order k).publicId = place order k :=
  (link_foldl _ _ k).1

theorem makePeer_internalId (i : Nat) : (makePeer i).internalId = i := by
  simp [makePeer, NO_PEER_ID]

theorem mem_linkedPeers_neighbors (hv : TopologyPlanner.Valid t) {i : Nat} {q : InterfaceId} :
    q ∈ (linkedPeers t order i).neighbors ↔
      i < t.size ∧ ∃ j < t.size, Adjacent t i j ∧
        q = linkedId t (fun j => (place order j : Int)) j := by
  have hid : (fun j => (makePeer (place order j)).internalId) =
      fun j => (place order j : InterfaceId) := funext fun j => makePeer_internalId _
  rw [linkedPeers, (link_foldl _ _ i).2.2.2.2.1 q, hid]
  simp only [makePeer, List.not_mem_nil, false_or]
  exact mem_builderCalls_iff hv

theorem nodup_linkedPeers_neighbors (i : Nat) : (linkedPeers t order i).neighbors.Nodup :=
  (link_foldl _ _ i).2.2.2.2.2 List.nodup_nil

theorem sorted_linkedPeers_neighbors (i : Nat) : (linkedPeers t order i).neighbors.Pairwise (· < ·) := by
  unfold linkedPeers
  suffices h : ∀ (calls : List (Nat × InterfaceId)) (peers : Nat → Peer),
      (∀ k, (peers k).neighbors.Pairwise (· < ·)) →
        ∀ k, ((calls.foldl link peers) k).neighbors.Pairwise (· < ·) from
    h _ _ (fun k => List.Pairwise.nil) _
  intro calls
  induction calls with
  | nil => exact fun peers h => h
  | cons c calls ih =>
    intro peers h
    apply ih
    intro k
    unfold link
    by_cases hk : k = c.1
    · rw [hk, Function.update_self]
      exact Peer.sorted_addNeighbor (h c.1) c.2
    · rw [Function.update_of_ne hk]
      exact h k

def bare : Network := { size := t.size, peers := linkedPeers t order }

/-- The position that the neighbour drawn from position `j` names. -/
def linkedPlace (j : Nat) : Nat := if t.type = .userList then j else place order j

theorem linkedId_eq (j : Nat) :
    linkedId t (fun j => (place order j : Int)) j = (linkedPlace order j : Int) := by
  unfold linkedId linkedPlace
  split_ifs <;> rfl

theorem linkedPlace_lt {j : Nat} (hj : j < t.size) : linkedPlace order j < t.size := by
  unfold linkedPlace
  split_ifs
  · exact hj
  · exact place_lt order hj

theorem linkedPlace_inj {j k : Nat} (hj : j < t.size) (hk : k < t.size)
    (h : linkedPlace order j = linkedPlace order k) : j = k := by
  unfold linkedPlace at h
  split_ifs at h
  · exact h
  · exact place_inj order hj hk h

theorem place_linkedPlace (j : Nat) :
    place order (linkedPlace order j) = linkedPlace order (place order j) := by
  unfold linkedPlace
  split_ifs <;> rfl

theorem initNetwork_eq : initNetwork t order = (bare order).wire (bare order).pairs :=
  createInitialChannels_eq_wire _

theorem samePeers_initNetwork : SamePeers (bare order) (initNetwork t order) :=
  initNetwork_eq order ▸ samePeers_wire _ _

theorem initNetwork_size : (initNetwork t order).size = t.size := (samePeers_initNetwork order).1

theorem initNetwork_publicId (k : Nat) :
    ((initNetwork t order).peers k).publicId = place order k :=
  ((samePeers_initNetwork order).2 k).1.trans (linkedPeers_publicId order k)

variable (hv : TopologyPlanner.Valid t)
include hv

theorem mem_neighbors {i : Nat} {q : InterfaceId} :
    q ∈ ((initNetwork t order).peers i).neighbors ↔
      i < t.size ∧ ∃ j < t.size, Adjacent t i j ∧ q = (linkedPlace order j : Int) := by
  rw [((samePeers_initNetwork order).2 i).2.2]
  simp only [← linkedId_eq]
  exact mem_linkedPeers_neighbors order hv

theorem mem_pairs {e : Nat × InterfaceId} :
    e ∈ (bare order).pairs ↔
      e.1 < t.size ∧ ∃ j < t.size, Adjacent t e.1 j ∧ e.2 = (linkedPlace order j : Int) := by
  simp only [pairs, bare, List.mem_flatMap, List.mem_range, List.mem_map]
  constructor
  · rintro ⟨i, -, q, hq, rfl⟩
    rw [mem_linkedPeers_neighbors order hv] at hq
    simpa only [linkedId_eq] using hq
  · intro he
    refine ⟨e.1, he.1, e.2, ?_, rfl⟩
    rw [mem_linkedPeers_neighbors order hv]
    simpa only [linkedId_eq] using he

omit hv in
theorem nodup_pairs : (bare order).pairs.Nodup := by
  rw [pairs, List.nodup_flatMap]
  refine ⟨fun i _ => ?_, ?_⟩
  · exact (nodup_linkedPeers_neighbors order i).map fun _ _ h => (Prod.mk.inj h).2
  · refine List.nodup_range.imp fun {i j} hne => ?_
    simp only [Function.onFun, List.disjoint_left, List.mem_map, not_exists, not_and]
    rintro e ⟨q, -, rfl⟩ q' - h
    exact hne (Prod.mk.inj h).1.symm

omit hv in
theorem zipIdx_inj {e e' : (Nat × InterfaceId) × Nat} (he : e ∈ (bare order).pairs.zipIdx)
    (he' : e' ∈ (bare order).pairs.zipIdx) (h : e.1 = e'.1) : e = e' := by
  have hnodup : ((bare order).pairs.zipIdx.map Prod.fst).Nodup := by
    rw [List.zipIdx_map_fst]
    exact nodup_pairs order
  exact List.inj_on_of_nodup_map hnodup he he' h

omit hv in
theorem mem_outBound {i : Nat} {x : InterfaceId × Channel} :
    x ∈ ((initNetwork t order).peers i).outBoundChannels ↔
      ∃ e ∈ (bare order).pairs.zipIdx, e.1.1 = i ∧
        x = ((place order e.1.2.toNat : Int), (bare order).channelOf e) := by
  rw [initNetwork_eq, wire_outBound]
  have hempty : ((bare order).peers i).outBoundChannels = [] := (link_foldl _ _ i).2.2.2.1
  rw [hempty, List.nil_append, List.mem_map]
  simp only [List.mem_filter, decide_eq_true_eq, and_assoc, bare, linkedPeers_publicId]
  exact ⟨fun ⟨e, he, hi, hx⟩ => ⟨e, he, hi, hx.symm⟩, fun ⟨e, he, hi, hx⟩ => ⟨e, he, hi, hx.symm⟩⟩

omit hv in
theorem mem_inBound {j : Nat} {x : InterfaceId × Channel} :
    x ∈ ((initNetwork t order).peers j).inBoundChannels ↔
      ∃ e ∈ (bare order).pairs.zipIdx, e.1.2.toNat = j ∧
        x = ((place order e.1.1 : Int), (bare order).channelOf e) := by
  rw [initNetwork_eq, wire_inBound]
  have hempty : ((bare order).peers j).inBoundChannels = [] := (link_foldl _ _ j).2.2.1
  rw [hempty, List.nil_append, List.mem_map]
  simp only [List.mem_filter, decide_eq_true_eq, and_assoc, bare, linkedPeers_publicId]
  exact ⟨fun ⟨e, he, hi, hx⟩ => ⟨e, he, hi, hx.symm⟩, fun ⟨e, he, hi, hx⟩ => ⟨e, he, hi, hx.symm⟩⟩

theorem nodup_outBound_keys (i : Nat) :
    (((initNetwork t order).peers i).outBoundChannels.map (·.1)).Nodup := by
  rw [initNetwork_eq, wire_outBound]
  have hempty : ((bare order).peers i).outBoundChannels = [] := (link_foldl _ _ i).2.2.2.1
  rw [hempty, List.nil_append, List.map_map]
  have hzip : (bare order).pairs.zipIdx.Nodup := by
    apply List.Nodup.of_map Prod.fst
    rw [List.zipIdx_map_fst]
    exact nodup_pairs order
  refine (hzip.filter _).map_on fun e he e' he' h => ?_
  simp only [List.mem_filter, decide_eq_true_eq] at he he'
  simp only [Function.comp_apply, bare, linkedPeers_publicId, Nat.cast_inj] at h
  obtain ⟨-, k, hk, -, hq⟩ := (mem_pairs order hv).mp (List.fst_mem_of_mem_zipIdx he.1)
  obtain ⟨-, k', hk', -, hq'⟩ := (mem_pairs order hv).mp (List.fst_mem_of_mem_zipIdx he'.1)
  rw [hq, hq', Int.toNat_natCast, Int.toNat_natCast] at h
  have hkk := place_inj order (linkedPlace_lt order hk) (linkedPlace_lt order hk') h
  exact zipIdx_inj order he.1 he'.1 (Prod.ext (he.2.trans he'.2.symm) (by rw [hq, hq', hkk]))

theorem mem_outBound_keys {i : Nat} {q : InterfaceId} :
    (∃ ch, (q, ch) ∈ ((initNetwork t order).peers i).outBoundChannels) ↔
      i < t.size ∧ ∃ j < t.size, Adjacent t i j ∧
        q = (linkedPlace order (place order j) : Int) := by
  simp only [mem_outBound, Prod.mk.injEq]
  constructor
  · rintro ⟨ch, e, he, rfl, rfl, -⟩
    obtain ⟨hi, j, hj, hadj, hq⟩ := (mem_pairs order hv).mp (List.fst_mem_of_mem_zipIdx he)
    exact ⟨hi, j, hj, hadj, by rw [hq, Int.toNat_natCast, place_linkedPlace]⟩
  · rintro ⟨hi, j, hj, hadj, rfl⟩
    have hmem : (i, (linkedPlace order j : Int)) ∈ (bare order).pairs :=
      (mem_pairs order hv).mpr ⟨hi, j, hj, hadj, rfl⟩
    rw [← List.zipIdx_map_fst 0 (bare order).pairs, List.mem_map] at hmem
    obtain ⟨e, he, heq⟩ := hmem
    refine ⟨_, e, he, by rw [heq], ?_, rfl⟩
    rw [heq, Int.toNat_natCast, place_linkedPlace]

omit hv in
theorem targetId_of_mem_inBound {j : Nat} {x : InterfaceId × Channel}
    (hx : x ∈ ((initNetwork t order).peers j).inBoundChannels) :
    x.2.targetId = ((initNetwork t order).peers j).publicId := by
  obtain ⟨e, -, hj, rfl⟩ := (mem_inBound order).mp hx
  simp only [channelOf, bare, linkedPeers_publicId, initNetwork_publicId, hj]

theorem outBound_key_iff_of_keeps
    (hkeep : ∀ i < t.size, ∀ j < t.size, Adjacent t i j ↔ Adjacent t i (place order j)) {i : Nat}
    {q : InterfaceId} :
    (∃ ch, (q, ch) ∈ ((initNetwork t order).peers i).outBoundChannels) ↔
      q ∈ ((initNetwork t order).peers i).neighbors := by
  rw [mem_outBound_keys order hv, mem_neighbors order hv]
  refine and_congr_right fun hi => ⟨?_, ?_⟩
  · rintro ⟨j, hj, hadj, rfl⟩
    exact ⟨place order j, place_lt order hj, (hkeep i hi j hj).mp hadj, rfl⟩
  · rintro ⟨j, hj, hadj, rfl⟩
    obtain ⟨k, hk⟩ := order.surjective ⟨j, hj⟩
    have hplace : place order k = j := by rw [place, dif_pos k.isLt, hk]
    exact ⟨k, k.isLt, (hkeep i hi k k.isLt).mpr (hplace ▸ hadj), by rw [hplace]⟩

theorem wired_of_keeps
    (hkeep : ∀ i < t.size, ∀ j < t.size, Adjacent t i j ↔ Adjacent t i (place order j)) :
    Wired (initNetwork t order) := by
  have hkeys := @outBound_key_iff_of_keeps t order hv hkeep
  have houtbound : ∀ i < (initNetwork t order).size,
      ∀ q ∈ ((initNetwork t order).peers i).neighbors, ∃ ch,
        ((initNetwork t order).peers i).outBoundChannels.filter (·.1 = q) = [(q, ch)] ∧
        ch.targetId = q ∧ ∃ j < (initNetwork t order).size,
          ((initNetwork t order).peers j).publicId = q ∧
          (((initNetwork t order).peers i).publicId, ch) ∈
            ((initNetwork t order).peers j).inBoundChannels := by
    intro i _ q hq
    obtain ⟨ch, hch⟩ := hkeys.mpr hq
    obtain ⟨e, he, hei, hx⟩ := (mem_outBound order).mp hch
    obtain ⟨rfl, rfl⟩ := Prod.mk.inj hx
    obtain ⟨-, k, hk, -, hek⟩ := (mem_pairs order hv).mp (List.fst_mem_of_mem_zipIdx he)
    refine ⟨_, filter_key_eq (nodup_outBound_keys order hv i) hch, ?_, e.1.2.toNat, ?_, ?_, ?_⟩
    · simp only [channelOf, bare, linkedPeers_publicId]
    · rw [initNetwork_size, hek, Int.toNat_natCast]
      exact linkedPlace_lt order hk
    · rw [initNetwork_publicId]
    · rw [mem_inBound]
      exact ⟨e, he, rfl, by rw [initNetwork_publicId, hei]⟩
  refine ⟨houtbound, ?_, ?_, ?_⟩
  · intro i _ x hx
    exact hkeys.mp ⟨x.2, hx⟩
  · intro j _ x hx
    obtain ⟨e, he, hj, rfl⟩ := (mem_inBound order).mp hx
    obtain ⟨hi, -⟩ := (mem_pairs order hv).mp (List.fst_mem_of_mem_zipIdx he)
    refine ⟨e.1.1, by rwa [initNetwork_size], by rw [initNetwork_publicId], ?_⟩
    rw [mem_outBound]
    exact ⟨e, he, rfl, by rw [initNetwork_publicId, hj]⟩
  · intro i hi q hq j hj
    obtain ⟨ch, hfilter, htarget, j', hj', hpub, hin⟩ := houtbound i hi q hq
    simp only [Reaches, unicastTo, if_pos hq, hfilter, List.map_cons, List.map_nil,
      List.mem_singleton, exists_eq_left]
    constructor
    · rintro ⟨src, hsrc⟩
      rw [← targetId_of_mem_inBound order hsrc, htarget]
    · intro hpubj
      rw [← hpubj, initNetwork_publicId, initNetwork_publicId, Nat.cast_inj] at hpub
      rw [initNetwork_size] at hj hj'
      obtain rfl := place_inj order hj' hj hpub
      exact ⟨_, hin⟩

theorem keeps_of_wired (hw : Wired (initNetwork t order)) :
    ∀ i < t.size, ∀ j < t.size, Adjacent t i j ↔ Adjacent t i (place order j) := by
  intro i hi j hj
  constructor
  · intro hadj
    -- the channel made for the neighbour from position `j` is under a key that is a neighbour too
    obtain ⟨ch, hch⟩ := (mem_outBound_keys order hv).mpr ⟨hi, j, hj, hadj, rfl⟩
    have hnbr := hw.outbound_only i (by rwa [initNetwork_size]) _ hch
    obtain ⟨-, k, hk, hadjk, heq⟩ := (mem_neighbors order hv).mp hnbr
    rw [Nat.cast_inj] at heq
    rwa [linkedPlace_inj order (place_lt order hj) hk heq]
  · intro hadj
    -- the neighbour from position `order j` has a channel under its id
    have hnbr : (linkedPlace order (place order j) : Int) ∈
        ((initNetwork t order).peers i).neighbors :=
      (mem_neighbors order hv).mpr ⟨hi, _, place_lt order hj, hadj, rfl⟩
    obtain ⟨ch, hfilter, -⟩ := hw.outbound i (by rwa [initNetwork_size]) _ hnbr
    have hch : ((linkedPlace order (place order j) : Int), ch) ∈
        ((initNetwork t order).peers i).outBoundChannels :=
      List.mem_of_mem_filter (hfilter ▸ List.mem_singleton_self _)
    obtain ⟨-, k, hk, hadjk, heq⟩ := (mem_outBound_keys order hv).mp ⟨ch, hch⟩
    rw [Nat.cast_inj] at heq
    have hplace := linkedPlace_inj order (place_lt order hj) (place_lt order hk) heq
    rwa [place_inj order hj hk hplace]

end finished

/-- **When the channels match the neighbours.** For a topology that the planner accepts and a shuffle of
the peers, the channels are wired as the neighbour relation asks exactly when the shuffle maps the set of
positions adjacent to each position onto itself. -/
theorem wired_iff_order_keeps_neighbours (t : TopologyConfig) (haccepts : TopologyPlanner.Accepts t)
    (order : Equiv.Perm (Fin t.size)) :
    Wired (initNetwork t order) ↔
      ∀ i j : Fin t.size, Adjacent t i j ↔ Adjacent t i (order j) := by
  have hv := TopologyPlanner.valid_of_accepts haccepts
  have hplace : ∀ j : Fin t.size, place order j = order j := fun j => by
    rw [place, dif_pos j.isLt]
  constructor
  · intro hw i j
    rw [← hplace]
    exact keeps_of_wired order hv hw i i.isLt j j.isLt
  · intro hkeep
    apply wired_of_keeps order hv
    intro i hi j hj
    rw [hplace ⟨j, hj⟩]
    exact hkeep ⟨i, hi⟩ ⟨j, hj⟩

def ringOfFour : TopologyConfig := { initialPeers := some 4, type := .ring }

def triangle : TopologyConfig := { initialPeers := some 3, type := .complete }

/-- Exchanging two opposite peers of a ring of four keeps the wiring right. -/
theorem ringOfFour_wired :
    Wired (initNetwork ringOfFour (Equiv.swap ⟨0, by decide⟩ ⟨2, by decide⟩)) :=
  (wired_iff_order_keeps_neighbours ringOfFour (by decide) _).mpr (by decide)

/-- Rotating the three peers of a complete graph breaks it: the peer at position 0 has id 1 and
neighbours 0 and 2, but its channels are under the keys 1 and 0. -/
theorem triangle_not_wired : ¬ Wired (initNetwork triangle (finRotate 3)) := by
  intro hw
  have hkey := hw.outbound_only 0 (by decide) (1, ⟨0, 1, 1, 1, 1⟩) (by decide)
  exact absurd hkey (by decide)

end Network

end Quantas
