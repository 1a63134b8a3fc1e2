import Quantas.Lib.Greedy

/-!
# Greedy walks on grids

The places of a grid are numbered row by row. A walker in a grid or a torus of width `w` knows four strides: to the
right and to the left, down and up. Those to the right are of one step, which is a power of two, so it only leaves the
last column of a row over another finger or for want of one. Which places it comes from to its target is a question of
which strides are powers of two: up, down, or to the left neighbour.
-/

namespace Quantas.Chord
open Lib (clockwise Takes)

/-! ## Cells -/

theorem dvd_gap {w a b : Nat} (ha : w ∣ a) (hb : w ∣ b) : a + w ≤ b ∨ a = b ∨ b + w ≤ a := by
  obtain ⟨i, rfl⟩ := ha
  obtain ⟨j, rfl⟩ := hb
  rcases Nat.lt_trichotomy i j with hlt | rfl | hlt
  · left
    calc w * i + w = w * (i + 1) := by ring
      _ ≤ w * j := Nat.mul_le_mul_left w hlt
  · exact Or.inr (Or.inl rfl)
  · right; right
    calc w * j + w = w * (j + 1) := by ring
      _ ≤ w * i := Nat.mul_le_mul_left w hlt

def rowStart (w v : Nat) : Nat := v - v % w

/-- Place `v` of `n` is in the row that starts at `R`, in column `c`. -/
structure Cell (n w v R c : Nat) : Prop where
  eq : v = R + c
  col : c < w
  row : w ∣ R
  row_le : R + w ≤ n

section cells
variable {n w v t R c T K : Nat}

theorem cell_of_lt (hw : 0 < w) (hdvd : w ∣ n) (hv : v < n) : Cell n w v (rowStart w v) (v % w) := by
  have hcol := Nat.mod_lt v hw
  have hle := Nat.mod_le v w
  have hrow : w ∣ rowStart w v := Nat.dvd_sub_mod v
  refine ⟨by unfold rowStart; omega, hcol, hrow, ?_⟩
  unfold rowStart at hrow ⊢
  rcases dvd_gap hrow hdvd with h | h | h <;> omega

theorem Cell.mod (h : Cell n w v R c) : v % w = c := by
  obtain ⟨r, hr⟩ := h.row
  rw [h.eq, hr, Nat.mul_add_mod, Nat.mod_eq_of_lt h.col]

theorem Cell.rowStart_eq (h : Cell n w v R c) : rowStart w v = R := by
  unfold rowStart
  rw [h.mod, h.eq, Nat.add_sub_cancel]

/-- What a walker at column `c` of row `R` can tell of a target at column `K` of row `T`, `D` steps ahead. -/
structure Sight (n w R c T K D : Nat) : Prop where
  col : c < w
  goal : K < w
  row_le : R + w ≤ n
  goal_le : T + w ≤ n
  last : R + w = n ∨ R + 2 * w ≤ n
  first : T = 0 ∨ w ≤ T
  pos : 0 < D
  lt : D < n
  ne : R = T → c ≠ K
  apart : R + w ≤ T ∨ R = T ∨ T + w ≤ R
  below : R + w ≤ T → T = R + w ∨ R + 2 * w ≤ T
  above : T + w ≤ R → R = T + w ∨ T + 2 * w ≤ R
  ahead : R ≤ T → (R = T → c ≤ K) → D + R + c = T + K
  behind : T ≤ R → (R = T → K < c) → D + R + c = T + K + n

theorem Cell.sight (hdvd : w ∣ n) (hv : Cell n w v R c) (ht : Cell n w t T K) (hne : v ≠ t) :
    Sight n w R c T K (clockwise n v t) := by
  obtain ⟨rfl, hcol, hrow, hle⟩ := hv
  obtain ⟨rfl, hcol', hrow', hle'⟩ := ht
  have heq := Lib.clockwise_eq (n := n) (i := R + c) (j := T + K) (by omega) (by omega)
  have hapart := dvd_gap hrow hrow'
  have hbelow := dvd_gap (Nat.dvd_add hrow (dvd_refl w)) hrow'
  have habove := dvd_gap (Nat.dvd_add hrow' (dvd_refl w)) hrow
  have hlast := dvd_gap (Nat.dvd_add hrow (dvd_refl w)) hdvd
  have hfirst := dvd_gap hrow' (Nat.dvd_zero w)
  refine ⟨hcol, hcol', hle, hle', by omega, by omega, ?_, Lib.clockwise_lt (by omega), by omega, hapart, by omega,
    by omega, ?_, ?_⟩
  · rw [heq]
    split_ifs <;> omega
  · intro hR hc
    rw [heq, if_pos (by omega)]
    omega
  · intro hR hc
    rw [heq, if_neg (by omega)]
    omega

section sight
variable {D : Nat} (h : Sight n w R c T K D)
include h

theorem Sight.column (hc : c = K) : w ≤ D := by
  have hne := h.ne
  have hle := h.row_le
  have hgoal := h.goal_le
  rcases h.apart with hlt | heq | hlt
  · have := h.ahead (by omega) (by omega)
    omega
  · exact absurd hc (hne heq)
  · have := h.behind (by omega) (by omega)
    omega

theorem Sight.next (hc : c + 1 = w) (hD : D < w) : K < c ∧ (R + w < n → T = R + w) ∧ (R + w = n → T = 0) := by
  have hgoal := h.goal
  have hne := h.ne
  have hle := h.goal_le
  have hK : c ≠ K := fun heq => by
    have := h.column heq
    omega
  refine ⟨by omega, ?_, ?_⟩
  · intro hR
    rcases h.apart with hlt | heq | hlt
    · have := h.ahead (by omega) (by omega)
      rcases h.below hlt with heq | hge <;> omega
    · have := h.behind (by omega) (by omega)
      rcases h.last with hlast | hge <;> omega
    · have := h.behind (by omega) (by omega)
      rcases h.last with hlast | hge <;> omega
  · intro hR
    rcases h.first with heq | hge
    · exact heq
    · have := h.behind (by omega) (by omega)
      omega

theorem Sight.left (hc : 0 < c) : n ≤ D + 1 ↔ R = T ∧ K + 1 = c := by
  have hcol := h.col
  have hgoal := h.goal
  have hlt := h.lt
  have hle := h.row_le
  have hle' := h.goal_le
  constructor
  · intro hD
    rcases h.apart with hbefore | heq | hafter
    · have := h.ahead (by omega) (by omega)
      omega
    · refine ⟨heq, ?_⟩
      have hne := h.ne heq
      by_cases hK : c ≤ K
      · have := h.ahead (by omega) (fun _ => hK)
        omega
      · have := h.behind (by omega) (by omega)
        omega
    · have := h.behind (by omega) (by omega)
      omega
  · rintro ⟨heq, hK⟩
    have := h.behind (by omega) (by omega)
    omega

end sight

end cells

/-! ## Strides -/

/-- The strides of a torus, from a place at column `c` of row `R`, with the row and the column that they lead to. -/
inductive TorusStride (n w R c : Nat) : Nat → Nat → Nat → Prop
  | right (h : c + 1 < w) : TorusStride n w R c 1 R (c + 1)
  | wrapRight (h : c + 1 = w) : TorusStride n w R c (n - w + 1) R 0
  | left (h : 0 < c) : TorusStride n w R c (n - 1) R (c - 1)
  | wrapLeft (h : c = 0) : TorusStride n w R c (w - 1) R (w - 1)
  | down (h : R + w < n) : TorusStride n w R c w (R + w) c
  | wrapDown (h : R + w = n) : TorusStride n w R c w 0 c
  | up (h : 0 < R) : TorusStride n w R c (n - w) (R - w) c
  | wrapUp (h : R = 0) : TorusStride n w R c (n - w) (n - w) c

inductive GridStride (n w R c : Nat) : Nat → Nat → Nat → Prop
  | right (h : c + 1 < w) : GridStride n w R c 1 R (c + 1)
  | left (h : 0 < c) : GridStride n w R c (n - 1) R (c - 1)
  | down (h : R + w < n) : GridStride n w R c w (R + w) c
  | up (h : 0 < R) : GridStride n w R c (n - w) (R - w) c

section strides
variable {n w v R c x R' c' : Nat}

theorem GridStride.torus (h : GridStride n w R c x R' c') : TorusStride n w R c x R' c' := by
  cases h with
  | right h => exact .right h
  | left h => exact .left h
  | down h => exact .down h
  | up h => exact .up h

theorem TorusStride.cell (hw : 2 ≤ w) (hrows : 2 * w ≤ n) (hdvd : w ∣ n) (h : TorusStride n w R c x R' c')
    (hv : Cell n w v R c) : 0 < x ∧ x < n ∧ Cell n w ((v + x) % n) R' c' := by
  obtain ⟨rfl, hcol, hrow, hle⟩ := hv
  have hback : w ∣ R - w := Nat.dvd_sub hrow (dvd_refl w)
  have hfirst := dvd_gap hrow (Nat.dvd_zero w)
  have hlast := dvd_gap (Nat.dvd_add hrow (dvd_refl w)) hdvd
  suffices hcell : 0 < x ∧ x < n ∧ c' < w ∧ w ∣ R' ∧ R' + w ≤ n ∧
      (R + c + x = R' + c' ∨ R + c + x = R' + c' + n) by
    obtain ⟨hpos, hlt, hcol', hrow', hle', hsum⟩ := hcell
    refine ⟨hpos, hlt, ?_, hcol', hrow', hle'⟩
    rw [Lib.step_eq (by omega) hlt]
    split_ifs <;> omega
  cases h with
  | right h => exact ⟨by omega, by omega, by omega, hrow, by omega, by omega⟩
  | wrapRight h => exact ⟨by omega, by omega, by omega, hrow, by omega, by omega⟩
  | left h => exact ⟨by omega, by omega, by omega, hrow, by omega, by omega⟩
  | wrapLeft h => exact ⟨by omega, by omega, by omega, hrow, by omega, by omega⟩
  | down h => exact ⟨by omega, by omega, by omega, Nat.dvd_add hrow (dvd_refl w), by omega, by omega⟩
  | wrapDown h => exact ⟨by omega, by omega, by omega, Nat.dvd_zero w, by omega, by omega⟩
  | up h => exact ⟨by omega, by omega, by omega, hback, by omega, by omega⟩
  | wrapUp h => exact ⟨by omega, by omega, by omega, Nat.dvd_sub hdvd (dvd_refl w), by omega, by omega⟩

end strides

/-! ## Progress -/

/-- A hop of stride `x`, made `D` steps before the target, from column `c` of row `R` to column `c'` of row `R'`: it
neither enters nor leaves the cells inside; from a direct cell it leads to one without passing the target; and where it
passes the target it leads to a direct cell. -/
structure Advances (inside direct : Nat → Nat → Prop) (D x R c R' c' : Nat) : Prop where
  inside_iff : inside R c ↔ inside R' c'
  straight : direct R c → x ≤ D ∧ direct R' c'
  other : inside R c → x ≤ D ∨ direct R' c'

section progress
variable {n w R c T K D x R' c' : Nat}

/-! ## Only the strides along the row are fingers

The walker goes to the right until it comes to the last column, and from there row by row. A target to its left is an
exception when the stride to the left neighbour is a power of two: from the left neighbour's row it is found, and so it
is in the last column but one. `e` is one in this case. `Below` holds of the rows from which the walker comes to
row `T`. -/

def edge (w e T K : Nat) (Below : Nat → Prop) (R c : Nat) : Prop :=
  (R = T ∧ c ≤ K + e) ∨ (w ≤ K + 1 + e ∧ Below R)

def edgeDirect (w e T K : Nat) (Below : Nat → Prop) (R c : Nat) : Prop :=
  (R = T ∧ c ≤ K + e) ∨ (w ≤ K + 1 ∧ Below R)

variable {e : Nat} {Below : Nat → Prop}

theorem advances_along (hle : x ≤ D) (hiff : R = T → (c ≤ K + e ↔ c' ≤ K + e)) :
    Advances (edge w e T K Below) (edgeDirect w e T K Below) D x R c R c' := by
  have hrow : R = T ∧ c ≤ K + e ↔ R = T ∧ c' ≤ K + e := and_congr_right hiff
  refine ⟨or_congr hrow Iff.rfl, fun hd => ⟨hle, ?_⟩, fun _ => Or.inl hle⟩
  exact (or_congr hrow Iff.rfl).mp hd

theorem advances_across (hc : c + 1 = w) (hself : Below T) (hout : R = T → K + e < c)
    (hbelow : R ≠ T → (Below R ↔ Below R')) (hlevel : c ≤ K → Below R → x ≤ D)
    (hpast : c ≤ K + e → Below R → x ≤ D ∨ R' = T) :
    Advances (edge w e T K Below) (edgeDirect w e T K Below) D x R c R' c := by
  have hfar : ¬ (R = T ∧ c ≤ K + e) := fun h => absurd (hout h.1) (by omega)
  have hin : edge w e T K Below R c ↔ c ≤ K + e ∧ Below R :=
    (or_iff_right hfar).trans (and_congr_left' (by omega))
  have hdirect : edgeDirect w e T K Below R c ↔ c ≤ K ∧ Below R :=
    (or_iff_right hfar).trans (and_congr_left' (by omega))
  have hoff : c ≤ K + e → R ≠ T := fun hK hR => absurd (hout hR) (by omega)
  refine ⟨?_, ?_, ?_⟩
  · rw [hin]
    constructor
    · rintro ⟨hK, hB⟩
      exact Or.inr ⟨by omega, (hbelow (hoff hK)).mp hB⟩
    · rintro (⟨hR, hK⟩ | ⟨hK, hB⟩)
      · exact ⟨hK, (hbelow (hoff hK)).mpr (hR ▸ hself)⟩
      · exact ⟨by omega, (hbelow (hoff (by omega))).mpr hB⟩
  · intro hd
    obtain ⟨hK, hB⟩ := hdirect.mp hd
    exact ⟨hlevel hK hB, Or.inr ⟨by omega, (hbelow (hoff (by omega))).mp hB⟩⟩
  · intro hi
    obtain ⟨hK, hB⟩ := hin.mp hi
    rcases hpast hK hB with hle | hR
    · exact Or.inl hle
    · exact Or.inr (Or.inl ⟨hR, hK⟩)

end progress

end Quantas.Chord
