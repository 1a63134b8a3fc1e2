import Mathlib

/-!
# Prefixes and the XOR distance

Numbers as strings of bits, the most significant bit first. Where two numbers first differ decides how far apart
they are: the distance is at least the power of two of that bit. Two numbers that both first differ from a third one
at the same bit agree up to that bit, so each is closer to the other than the third one is.
-/

namespace Lib

/-- `k` is the highest bit at which the two numbers differ. -/
structure TopDifference (x y k : Nat) : Prop where
  differ : x.testBit k ≠ y.testBit k
  agree : ∀ j, k < j → x.testBit j = y.testBit j

namespace TopDifference
variable {x y z k : Nat}

theorem symm (h : TopDifference x y k) : TopDifference y x k :=
  ⟨h.differ.symm, fun j hj => (h.agree j hj).symm⟩

theorem two_pow_le (h : TopDifference x y k) : 2 ^ k ≤ x ^^^ y := by
  apply Nat.ge_two_pow_of_testBit
  rw [Nat.testBit_xor]
  have := h.differ
  cases hx : x.testBit k <;> cases hy : y.testBit k <;> simp_all

theorem xor_lt (hy : TopDifference y x k) (hz : TopDifference z x k) : y ^^^ z < 2 ^ k := by
  apply Nat.lt_pow_two_of_testBit
  intro j hj
  rw [Nat.testBit_xor]
  rcases Nat.eq_or_lt_of_le hj with rfl | hlt
  · have hdy := hy.differ
    have hdz := hz.differ
    cases hyk : y.testBit k <;> cases hzk : z.testBit k <;> cases hxk : x.testBit k <;> simp_all
  · rw [hy.agree j hlt, hz.agree j hlt, Bool.xor_self]

theorem size_lt (hy : TopDifference y x k) (hz : TopDifference z x k) :
    Nat.size (y ^^^ z) ≤ k ∧ k < Nat.size (x ^^^ z) :=
  ⟨Nat.size_le.mpr (xor_lt hy hz), Nat.lt_size.mpr hz.symm.two_pow_le⟩

theorem xor_lt_xor (hy : TopDifference y x k) (hz : TopDifference z x k) : y ^^^ z < x ^^^ z :=
  lt_of_lt_of_le (xor_lt hy hz) hz.symm.two_pow_le

end TopDifference

/-- The lowest `b` bits of a number, the most significant one first. -/
def msbFirst (b x : Nat) : List Bool := (List.range b).reverse.map x.testBit

@[simp] theorem length_msbFirst (b x : Nat) : (msbFirst b x).length = b := by simp [msbFirst]

theorem getElem_msbFirst {b x i : Nat} (hi : i < (msbFirst b x).length) :
    (msbFirst b x)[i] = x.testBit (b - 1 - i) := by
  simp only [msbFirst, List.getElem_map, List.getElem_reverse, List.getElem_range, List.length_range]

end Lib
