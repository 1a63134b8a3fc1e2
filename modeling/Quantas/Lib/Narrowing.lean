import Mathlib

/-!
# Numbers read through a narrower signed type

A signed type of `2 * k` values reads a number `x` as `x.bmod (2 * k)`: it takes away the multiple of `2 * k` that is
nearest to `x`. One number is read as itself when the nearest multiple is zero. A sum of numbers so read can still be
right although none of its terms is, when the multiples taken away add up to a whole turn of the wider type in which
the sum is formed.
-/

namespace Lib.Narrowing
variable {k : Nat}

/-- How many times `2 * k` goes into the multiple nearest to `x`. -/
def turns (k x : Nat) : Nat := (x + k) / (2 * k)

theorem turns_mul_le (k x : Nat) : turns k x * (2 * k) ≤ x + k := Nat.div_mul_le_self _ _

theorem lt_turns_succ_mul (hk : 0 < k) (x : Nat) : x + k < (turns k x + 1) * (2 * k) :=
  (Nat.div_lt_iff_lt_mul (by omega)).mp (Nat.lt_succ_self _)

theorem bmod_eq_sub_turns (hk : 0 < k) (x : Nat) : (x : Int).bmod (2 * k) = x - (2 * k) * turns k x := by
  have hle := turns_mul_le k x
  have hlt := lt_turns_succ_mul hk x
  have hcast : ((2 * k : Nat) : Int) = 2 * k := by push_cast; rfl
  have hturn : (x : Int) = (x - (2 * k) * turns k x) + ((2 * k : Nat) : Int) * turns k x := by
    rw [hcast]
    ring
  have hle' : (turns k x : Int) * (2 * k) ≤ x + k := by exact_mod_cast hle
  have hlt' : (x : Int) + k < (turns k x + 1) * (2 * k) := by exact_mod_cast hlt
  calc (x : Int).bmod (2 * k)
      = ((x - (2 * k) * turns k x : Int) + ((2 * k : Nat) : Int) * turns k x).bmod (2 * k) := by rw [← hturn]
    _ = (x - (2 * k) * turns k x : Int).bmod (2 * k) := Int.add_mul_bmod_self_left _ _ _
    _ = x - (2 * k) * turns k x := by
      apply Int.bmod_eq_of_le_mul_two
      · rw [hcast]
        linarith
      · rw [hcast]
        linarith

theorem turns_eq_zero_iff (hk : 0 < k) {x : Nat} : turns k x = 0 ↔ x < k := by
  rw [turns, Nat.div_eq_zero_iff]
  omega

theorem turns_mul_half_le (hk : 0 < k) (x : Nat) : turns k x * k ≤ x := by
  rcases Nat.lt_or_ge x k with hlt | hge
  · rw [(turns_eq_zero_iff hk).mpr hlt]
    omega
  · have hle := turns_mul_le k x
    have hdouble : turns k x * (2 * k) = 2 * (turns k x * k) := by ring
    omega

/-! ## Sums -/

theorem sum_bmod (hk : 0 < k) (xs : List Nat) :
    (xs.map fun x : Nat => (x : Int).bmod (2 * k)).sum = xs.sum - (2 * k) * (xs.map (turns k)).sum := by
  induction xs with
  | nil => simp
  | cons x xs ih =>
    rw [List.map_cons, List.sum_cons, ih, bmod_eq_sub_turns hk, List.sum_cons, List.map_cons, List.sum_cons,
      Nat.cast_add, Nat.cast_add]
    ring

theorem sum_turns_mul_half_le (hk : 0 < k) (xs : List Nat) : (xs.map (turns k)).sum * k ≤ xs.sum := by
  induction xs with
  | nil => simp
  | cons x xs ih =>
    have hx := turns_mul_half_le hk x
    simp only [List.map_cons, List.sum_cons, Nat.add_mul]
    omega

theorem sum_turns_eq_zero_iff (hk : 0 < k) (xs : List Nat) :
    (xs.map (turns k)).sum = 0 ↔ ∀ x ∈ xs, x < k := by
  rw [List.sum_eq_zero_iff]
  simp [turns_eq_zero_iff hk]

/-- A sum formed in a type of `(2 * k) * (2 * k)` values from numbers read through one of `2 * k` is right when each
number was read as itself, or when the multiples taken away add up to one turn of the wider type. -/
theorem sum_bmod_emod_eq_iff (hk : 0 < k) {xs : List Nat} (hxs : xs.sum < 2 * k * (2 * k)) :
    (xs.map fun x : Nat => (x : Int).bmod (2 * k)).sum % (2 * k * (2 * k) : Nat) = xs.sum ↔
      (∀ x ∈ xs, x < k) ∨ (xs.map (turns k)).sum = 2 * k := by
  rw [sum_bmod hk, ← sum_turns_eq_zero_iff hk]
  have hhalf := sum_turns_mul_half_le hk xs
  generalize (xs.map (turns k)).sum = t at hhalf ⊢
  generalize xs.sum = s at hhalf hxs ⊢
  have htop : t < 2 * (2 * k) := by
    have hlt : t * k < 2 * (2 * k) * k := by
      calc t * k ≤ s := hhalf
        _ < 2 * k * (2 * k) := hxs
        _ = 2 * (2 * k) * k := by ring
    exact Nat.lt_of_mul_lt_mul_right hlt
  have hself : (s : Int) % (2 * k * (2 * k) : Nat) = s := Int.emod_eq_of_lt (by omega) (by exact_mod_cast hxs)
  have hcongr : ((s : Int) - (2 * k) * t) % (2 * k * (2 * k) : Nat) = s ↔ 2 * k ∣ t := by
    nth_rewrite 2 [← hself]
    rw [Int.emod_eq_emod_iff_emod_sub_eq_zero, ← Int.dvd_iff_emod_eq_zero]
    have hdiff : (s : Int) - 2 * k * t - s = -(((2 * k) * t : Nat) : Int) := by
      push_cast
      ring
    rw [hdiff, Int.dvd_neg, Int.natCast_dvd_natCast]
    exact Nat.mul_dvd_mul_iff_left (by omega)
  rw [hcongr]
  constructor
  · rintro ⟨c, rfl⟩
    have hc : c < 2 := by
      rw [Nat.mul_comm (2 * k) c] at htop
      exact Nat.lt_of_mul_lt_mul_right htop
    interval_cases c
    · left; simp
    · right; simp
  · rintro (rfl | rfl)
    · exact dvd_zero _
    · exact dvd_rfl

end Lib.Narrowing
