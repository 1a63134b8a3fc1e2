import Mathlib

/-!
# Distances on a ring

Positions `0, …, n - 1` in a circle, with the number of steps from one to another in the direction of growing
positions. A walk of `s` steps towards a position that is not nearer than that shortens the distance by `s`. Walks in
strides of powers of two, each as long as fits, take as many strides as the distance has ones in binary.
-/

namespace Lib

/-- The steps from position `i` to position `j` of `n`. -/
def clockwise (n i j : Nat) : Nat := (j + n - i) % n

section clockwise
variable {n i j s : Nat}

theorem clockwise_eq (hi : i < n) (hj : j < n) : clockwise n i j = if i ≤ j then j - i else j + n - i := by
  unfold clockwise
  split_ifs with hle
  · rw [show j + n - i = j - i + n by omega, Nat.add_mod_right, Nat.mod_eq_of_lt (by omega)]
  · exact Nat.mod_eq_of_lt (by omega)

theorem clockwise_lt (hi : i < n) : clockwise n i j < n := Nat.mod_lt _ (by omega)

theorem clockwise_eq_zero_iff (hi : i < n) (hj : j < n) : clockwise n i j = 0 ↔ i = j := by
  rw [clockwise_eq hi hj]
  split_ifs <;> omega

theorem step_eq (hi : i < n) (hs : s < n) : (i + s) % n = if i + s < n then i + s else i + s - n := by
  split_ifs with hlt
  · exact Nat.mod_eq_of_lt hlt
  · rw [Nat.mod_eq_sub_mod (by omega), Nat.mod_eq_of_lt (by omega)]

theorem step_lt (hi : i < n) : (i + s) % n < n := Nat.mod_lt _ (by omega)

theorem clockwise_step (hi : i < n) (hs : s < n) : clockwise n i ((i + s) % n) = s := by
  rw [clockwise_eq hi (step_lt hi), step_eq hi hs]
  split_ifs <;> omega

theorem step_clockwise (hi : i < n) (hj : j < n) : (i + clockwise n i j) % n = j := by
  rw [step_eq hi (clockwise_lt hi), clockwise_eq hi hj]
  split_ifs <;> omega

theorem clockwise_of_step (hi : i < n) (hj : j < n) (hs : s ≤ clockwise n i j) :
    clockwise n ((i + s) % n) j = clockwise n i j - s := by
  have hlt := clockwise_lt (n := n) (j := j) hi
  rw [clockwise_eq (step_lt hi) hj, step_eq hi (by omega)]
  rw [clockwise_eq hi hj] at hs ⊢
  split_ifs at hs ⊢ <;> omega

theorem clockwise_past (hi : i < n) (hj : j < n) (hs : s < n) (hpast : clockwise n i j < s) :
    clockwise n ((i + s) % n) j = clockwise n i j + n - s := by
  rw [clockwise_eq (step_lt hi) hj, step_eq hi hs]
  rw [clockwise_eq hi hj] at hpast ⊢
  split_ifs at hpast ⊢ <;> omega

theorem step_inj {s' : Nat} (hi : i < n) (hs : s < n) (hs' : s' < n) (h : (i + s) % n = (i + s') % n) : s = s' := by
  have := congrArg (clockwise n i) h
  rwa [clockwise_step hi hs, clockwise_step hi hs'] at this

end clockwise

/-! ## Ones in binary -/

/-- How many binary digits of `d` are one. -/
def oneBits (d : Nat) : Nat := (Nat.digits 2 d).count 1

@[simp] theorem oneBits_zero : oneBits 0 = 0 := rfl

theorem oneBits_eq (d : Nat) : oneBits d = d % 2 + oneBits (d / 2) := by
  rcases Nat.eq_zero_or_pos d with rfl | hpos
  · rfl
  · unfold oneBits
    rw [Nat.digits_def' (by omega) hpos, List.count_cons]
    rcases Nat.mod_two_eq_zero_or_one d with h | h
    · simp [h]
    · simp [h, Nat.add_comm]

theorem oneBits_sub_two_pow {k d : Nat} (hle : 2 ^ k ≤ d) (hlt : d < 2 ^ (k + 1)) :
    oneBits (d - 2 ^ k) + 1 = oneBits d := by
  induction k generalizing d with
  | zero =>
    obtain rfl : d = 1 := by omega
    rfl
  | succ k ih =>
    have hpow : 2 ^ (k + 1) = 2 * 2 ^ k := by ring
    have hpow' : 2 ^ (k + 1 + 1) = 2 * 2 ^ (k + 1) := by ring
    have hhalf := ih (d := d / 2) (by omega) (by omega)
    rw [oneBits_eq (d - 2 ^ (k + 1)), oneBits_eq d, ← hhalf]
    have hmod : (d - 2 ^ (k + 1)) % 2 = d % 2 := by omega
    have hdiv : (d - 2 ^ (k + 1)) / 2 = d / 2 - 2 ^ k := by omega
    rw [hmod, hdiv]
    omega

end Lib
