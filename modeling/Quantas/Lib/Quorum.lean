import Mathlib

/-!
# Quorum intersection

Two sets of members whose sizes together exceed the membership by more than the number of faulty
members share a member that is not faulty. The bound is sharp: sets of any two sizes can be chosen to share
no more members than their sizes force them to (`exists_card_inter`).
-/

namespace Lib

variable {α : Type*} [DecidableEq α]

theorem card_add_card_le {members A B : Finset α} (hA : A ⊆ members) (hB : B ⊆ members) :
    A.card + B.card ≤ members.card + (A ∩ B).card := by
  have hunion : (A ∪ B).card ≤ members.card := Finset.card_le_card (Finset.union_subset hA hB)
  have hsum := Finset.card_union_add_card_inter A B
  omega

theorem exists_card_inter (members : Finset α) {a b : ℕ} (ha : a ≤ members.card) (hb : b ≤ members.card) :
    ∃ A ⊆ members, ∃ B ⊆ members, A.card = a ∧ B.card = b ∧ (A ∩ B).card = a + b - members.card := by
  obtain ⟨A, hA, hcardA⟩ := Finset.exists_subset_card_eq ha
  have hrest : (members \ A).card = members.card - a := by
    rw [Finset.card_sdiff_of_subset hA, hcardA]
  refine ⟨A, hA, ?_⟩
  by_cases hfits : b ≤ members.card - a
  · -- there is room for `B` beside `A`
    obtain ⟨B, hB, hcardB⟩ := Finset.exists_subset_card_eq (hrest ▸ hfits)
    refine ⟨B, hB.trans Finset.sdiff_subset, hcardA, hcardB, ?_⟩
    have hdisjoint : Disjoint A B := Finset.disjoint_sdiff.mono_right hB
    rw [Finset.disjoint_iff_inter_eq_empty.mp hdisjoint, Finset.card_empty]
    omega
  · -- `B` holds everything beside `A`
    have hle : (members \ A).card ≤ b := by omega
    obtain ⟨B, hrestB, hB, hcardB⟩ := Finset.exists_subsuperset_card_eq Finset.sdiff_subset hle hb
    refine ⟨B, hB, hcardA, hcardB, ?_⟩
    have hall : A ∪ B = members := by
      apply Finset.Subset.antisymm (Finset.union_subset hA hB)
      rw [← Finset.union_sdiff_of_subset hA]
      exact Finset.union_subset_union_right hrestB
    have hsum := Finset.card_union_add_card_inter A B
    rw [hall, hcardA, hcardB] at hsum
    omega

theorem exists_mem_inter_notMem {members faulty A B : Finset α} (hA : A ⊆ members)
    (hB : B ⊆ members) (h : members.card + faulty.card < A.card + B.card) :
    ∃ x ∈ A, x ∈ B ∧ x ∉ faulty := by
  have hshared := card_add_card_le hA hB
  have hlarge : faulty.card < (A ∩ B).card := by omega
  obtain ⟨x, hx, hfaulty⟩ := Finset.exists_mem_notMem_of_card_lt_card hlarge
  rw [Finset.mem_inter] at hx
  exact ⟨x, hx.1, hx.2, hfaulty⟩

theorem exists_mem_inter_of_majority {members A B : Finset α} (hA : A ⊆ members) (hB : B ⊆ members)
    (hA' : members.card / 2 < A.card) (hB' : members.card / 2 < B.card) : ∃ x ∈ A, x ∈ B := by
  have hcard : members.card + (∅ : Finset α).card < A.card + B.card := by
    rw [Finset.card_empty]
    omega
  obtain ⟨x, hx, hx', -⟩ := exists_mem_inter_notMem hA hB hcard
  exact ⟨x, hx, hx'⟩

end Lib
