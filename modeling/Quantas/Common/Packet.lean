import Mathlib

/-!
# Peers' identifiers, packets and committees

`InterfaceId` is the id of a network interface; `NO_PEER_ID` marks an unset one. A committee is the
ordered set of its members' ids; that it is sorted and free of `NO_PEER_ID` is part of the type.
-/

namespace Quantas

abbrev InterfaceId := Int

def NO_PEER_ID : InterfaceId := -1

/-- A message on its way from `source` to `target`. -/
structure Packet (μ : Type*) where
  source : InterfaceId
  target : InterfaceId
  message : μ
  deriving DecidableEq, Repr

/-- A group of members, in the order in which `std::set` lists them. -/
structure Committee where
  members : List InterfaceId
  sorted : members.Pairwise (· < ·)
  noPeer : NO_PEER_ID ∉ members

namespace Committee
variable (c : Committee)

def size : Nat := c.members.length

theorem nodup : c.members.Nodup := c.sorted.imp fun h => ne_of_lt h

theorem card_toFinset : c.members.toFinset.card = c.size :=
  List.toFinset_card_of_nodup c.nodup

theorem ne_noPeer {p : InterfaceId} (hp : p ∈ c.members) : p ≠ NO_PEER_ID := by
  rintro rfl
  exact c.noPeer hp

/-- The committee of peers `0, …, n - 1`, which `makePeer(type, i)` numbers. -/
def ofSize (n : Nat) : Committee where
  members := (List.range n).map Int.ofNat
  sorted := by
    rw [List.pairwise_map]
    exact List.pairwise_lt_range.imp fun h => Int.ofNat_lt.mpr h
  noPeer := by
    simp only [List.mem_map, List.mem_range, NO_PEER_ID, not_exists, not_and]
    intro k _ h
    exact absurd (h ▸ Int.natCast_nonneg k : (0 : Int) ≤ -1) (by decide)

@[simp] theorem size_ofSize (n : Nat) : (ofSize n).size = n := by simp [size, ofSize]

end Committee

end Quantas
