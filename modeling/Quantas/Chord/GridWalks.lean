import Quantas.Chord.Grid

/-!
# Greedy walks on grids, by the powers of two

In a torus or a grid of width `w` on `n` places the stride to the right is always a finger; which others may be one is
a question of which of `w`, `n - w`, `n - w + 1` and `n - 1` are powers of two. Each case has its own set of cells from
which the walker comes to the target, and `TorusClear` and `GridClear` put them together.
-/

namespace Quantas.Chord
open Lib (Greedy IsFinger)

section regimes
variable {n w R c T K D x R' c' : Nat}

def torusNear (n w R c x : Nat) : Prop := ∃ R' c', TorusStride n w R c x R' c'

def gridNear (n w R c x : Nat) : Prop := ∃ R' c', GridStride n w R c x R' c'

theorem last_column {near : Nat → Prop} (hs : Sight n w R c T K D) (hright : c + 1 < w → near 1)
    (hnone : ∀ y, near y → ¬ IsFinger D y) : c + 1 = w := by
  have hcol := hs.col
  by_contra hne
  exact hnone 1 (hright (by omega)) ⟨Nat.isPowerOfTwo_one, hs.pos⟩

/-! ## Tori -/

theorem torusNear_down (hs : Sight n w R c T K D) : torusNear n w R c w := by
  rcases hs.last with h | h
  · exact ⟨_, _, .wrapDown h⟩
  · exact ⟨_, _, .down (by have := hs.col; omega)⟩

theorem torusNear_up (n w R c : Nat) : torusNear n w R c (n - w) := by
  rcases Nat.eq_zero_or_pos R with h | h
  · exact ⟨_, _, .wrapUp h⟩
  · exact ⟨_, _, .up h⟩

theorem torus_shortest (hw : 2 ≤ w) (hn : 2 * w ≤ n) (hs : Sight n w R c T K D) (hc : c + 1 = w)
    (hshort : ∀ y, torusNear n w R c y → x ≤ y) (hstride : TorusStride n w R c x R' c') :
    x = w ∧ c' = c ∧ (D < w → R' = T) := by
  have hdown := hshort w (torusNear_down hs)
  have hup := hshort (n - w) (torusNear_up n w R c)
  have hlast := hs.last
  have hnext := hs.next hc
  cases hstride with
  | right h => omega
  | wrapRight h => omega
  | left h => omega
  | wrapLeft h => omega
  | down h => exact ⟨rfl, rfl, fun hD => ((hnext hD).2.1 h).symm⟩
  | wrapDown h => exact ⟨rfl, rfl, fun hD => ((hnext hD).2.2 h).symm⟩
  | up h =>
    refine ⟨by omega, rfl, fun hD => ?_⟩
    have := (hnext hD).2.2 (by omega)
    omega
  | wrapUp h =>
    refine ⟨by omega, rfl, fun hD => ?_⟩
    have := (hnext hD).2.1 (by omega)
    omega

def slack (n : Nat) : Nat := if (n - 1).isPowerOfTwo then 1 else 0

theorem slack_of_isPowerOfTwo (h : (n - 1).isPowerOfTwo) : slack n = 1 := if_pos h

theorem slack_cases (n : Nat) : slack n = 0 ∨ (slack n = 1 ∧ (n - 1).isPowerOfTwo) := by
  unfold slack
  split_ifs with h
  · exact Or.inr ⟨rfl, h⟩
  · exact Or.inl rfl

/-- From the place to the right of the target the left neighbour is a finger where it may be one, so the walker goes
there before it goes anywhere else. -/
theorem left_of_slack {near : Nat → Prop} (hs : Sight n w R c T K D) (hleft : 0 < c → near (n - 1))
    (hslack : slack n ≠ 0) (hR : R = T) (hK : K + 1 = c) : near (n - 1) ∧ IsFinger D (n - 1) := by
  rcases slack_cases n with h | ⟨-, hpow⟩
  · exact absurd h hslack
  · have hD := (hs.left (by omega)).mpr ⟨hR, hK⟩
    exact ⟨hleft (by omega), hpow, by omega⟩

theorem right_of_slack {near : Nat → Prop} (hn : 3 ≤ n) (hs : Sight n w R c T K D) (hleft : 0 < c → near (n - 1))
    (hlongest : ∀ y, near y → IsFinger D y → y ≤ 1) (hR : R = T) : c ≤ K + slack n ↔ c + 1 ≤ K + slack n := by
  have hne := hs.ne hR
  have hslack := slack_cases n
  by_cases hK : K + 1 = c
  · by_cases he : slack n = 0
    · omega
    · obtain ⟨hnear, hfinger⟩ := left_of_slack hs hleft he hR hK
      have := hlongest _ hnear hfinger
      omega
  · omega

theorem out_of_slack {near : Nat → Prop} (hs : Sight n w R c T K D) (hleft : 0 < c → near (n - 1))
    (hnone : ∀ y, near y → ¬ IsFinger D y) (hc : c + 1 = w) (hR : R = T) : K + slack n < c := by
  have hne := hs.ne hR
  have hgoal := hs.goal
  have hslack := slack_cases n
  by_cases hK : K + 1 = c
  · by_cases he : slack n = 0
    · omega
    · obtain ⟨hnear, hfinger⟩ := left_of_slack hs hleft he hR hK
      exact absurd hfinger (hnone _ hnear)
  · omega

theorem torus_edge (hw : 3 ≤ w) (hn : 2 * w ≤ n) (hdown : ¬ w.isPowerOfTwo) (hup : ¬ (n - w).isPowerOfTwo)
    (hwrap : ¬ (n - w + 1).isPowerOfTwo) (hs : Sight n w R c T K D) (hx : Greedy (torusNear n w R c) D x)
    (hstride : TorusStride n w R c x R' c') :
    Advances (edge w (slack n) T K fun _ => True) (edgeDirect w (slack n) T K fun _ => True) D x R c R' c' := by
  have hcol := hs.col
  have hleft : 0 < c → torusNear n w R c (n - 1) := fun hc => ⟨_, _, .left hc⟩
  rcases hx.cases with ⟨⟨hpow, hle⟩, hlongest⟩ | ⟨hnone, hshort⟩
  · cases hstride with
    | right h => exact advances_along hle (right_of_slack (by omega) hs hleft hlongest)
    | wrapRight h => exact absurd hpow hwrap
    | left h =>
      obtain ⟨hR, hK⟩ := (hs.left h).mp (by omega)
      rw [slack_of_isPowerOfTwo hpow]
      exact advances_along hle fun _ => by omega
    | wrapLeft h =>
      refine advances_along hle fun hR => ?_
      have := hs.ahead (by omega) (fun _ => by omega)
      have hgoal := hs.goal
      omega
    | down h => exact absurd hpow hdown
    | wrapDown h => exact absurd hpow hdown
    | up h => exact absurd hpow hup
    | wrapUp h => exact absurd hpow hup
  · have hc := last_column hs (fun h => ⟨_, _, .right h⟩) hnone
    obtain ⟨rfl, rfl, hnext⟩ := torus_shortest (by omega) hn hs hc hshort hstride
    have hout : R = T → K + slack n < c' := out_of_slack hs hleft hnone hc
    refine advances_across hc trivial hout (fun _ => Iff.rfl) (fun hK _ => ?_) fun hK _ => ?_
    · have hgoal := hs.goal
      exact hs.column (by omega)
    · by_cases hD : x ≤ D
      · exact Or.inl hD
      · exact Or.inr (hnext (by omega))

theorem torus_wrap (hw : 3 ≤ w) (hn : 2 * w ≤ n) (hdown : ¬ w.isPowerOfTwo) (hup : ¬ (n - w).isPowerOfTwo)
    (hwrap : (n - w + 1).isPowerOfTwo) (hs : Sight n w R c T K D)
    (hx : Greedy (torusNear n w R c) D x) (hstride : TorusStride n w R c x R' c') :
    Advances (fun _ _ => True) (fun R _ => R = T ∨ K + 1 = w) D x R c R' c' := by
  have hcol := hs.col
  have hgoal := hs.goal
  rcases hx.cases with ⟨⟨hpow, hle⟩, hlongest⟩ | ⟨hnone, hshort⟩
  · have hrow : R' = R := by
      cases hstride with
      | right h => rfl
      | wrapRight h => rfl
      | left h => rfl
      | wrapLeft h => rfl
      | down h => exact absurd hpow hdown
      | wrapDown h => exact absurd hpow hdown
      | up h => exact absurd hpow hup
      | wrapUp h => exact absurd hpow hup
    rw [hrow]
    exact ⟨Iff.rfl, fun hd => ⟨hle, hd⟩, fun _ => Or.inl hle⟩
  · have hc := last_column hs (fun h => ⟨_, _, .right h⟩) hnone
    obtain ⟨rfl, rfl, hnext⟩ := torus_shortest (by omega) hn hs hc hshort hstride
    have hD : D < n - x + 1 := by
      by_contra hge
      exact hnone _ ⟨_, _, .wrapRight hc⟩ ⟨hwrap, by omega⟩
    refine ⟨Iff.rfl, fun hd => ?_, fun _ => ?_⟩
    · rcases hd with hR | hK
      · have hne := hs.ne hR
        have := hs.behind (by omega) (by omega)
        omega
      · exact ⟨hs.column (by omega), Or.inr hK⟩
    · by_cases hle : x ≤ D
      · exact Or.inl hle
      · exact Or.inr (Or.inl (hnext (by omega)))

theorem torus_level (hw : 2 ≤ w) (hn : 2 * w ≤ n) (hdown : w.isPowerOfTwo) (hback : ¬ (n - 1).isPowerOfTwo)
    (hwrap : ¬ (n - w + 1).isPowerOfTwo) (hs : Sight n w R c T K D) (hx : Greedy (torusNear n w R c) D x)
    (hstride : TorusStride n w R c x R' c') :
    Advances (fun _ c => c ≤ K) (fun _ c => c ≤ K) D x R c R' c' := by
  have hcol := hs.col
  have hgoal := hs.goal
  have hcolumn := hs.column
  rcases hx.cases with ⟨⟨hpow, hle⟩, hlongest⟩ | ⟨hnone, hshort⟩
  · suffices hiff : c ≤ K ↔ c' ≤ K from ⟨hiff, fun hd => ⟨hle, hiff.mp hd⟩, fun _ => Or.inl hle⟩
    have hfar : w ≤ D → w ≤ x := fun hD => hlongest w (torusNear_down hs) ⟨hdown, hD⟩
    cases hstride with
    | right h => omega
    | wrapRight h => exact absurd hpow hwrap
    | left h => exact absurd hpow hback
    | wrapLeft h =>
      have heven := Lib.eq_one_or_even hdown
      have hodd := Lib.eq_one_or_even hpow
      omega
    | down h => rfl
    | wrapDown h => rfl
    | up h => rfl
    | wrapUp h => rfl
  · have hc := last_column hs (fun h => ⟨_, _, .right h⟩) hnone
    obtain ⟨rfl, rfl, -⟩ := torus_shortest hw hn hs hc hshort hstride
    have hD : D < x := by
      by_contra hge
      exact hnone _ (torusNear_down hs) ⟨hdown, by omega⟩
    have hleft := (hs.next hc hD).1
    exact ⟨Iff.rfl, fun hd => absurd hd (by omega), fun hd => absurd hd (by omega)⟩

/-! ## Grids -/

theorem grid_shortest (hw : 2 ≤ w) (hn : 2 * w ≤ n) (hs : Sight n w R c T K D) (hc : c + 1 = w)
    (hshort : ∀ y, gridNear n w R c y → x ≤ y) (hstride : GridStride n w R c x R' c') :
    c' = c ∧ ((R + w < n ∧ x = w ∧ R' = R + w) ∨ (R + w = n ∧ x = n - w ∧ R' = R - w)) := by
  have hlast := hs.last
  have hdown : R + w < n → x ≤ w := fun h => hshort w ⟨_, _, .down h⟩
  have hup : 0 < R → x ≤ n - w := fun h => hshort (n - w) ⟨_, _, .up h⟩
  cases hstride with
  | right h => omega
  | left h => omega
  | down h => exact ⟨rfl, Or.inl ⟨h, rfl, rfl⟩⟩
  | up h => exact ⟨rfl, Or.inr ⟨by omega, rfl, rfl⟩⟩

theorem grid_edge (hw : 3 ≤ w) (hn : 2 * w ≤ n) (hdown : ¬ w.isPowerOfTwo) (hup : ¬ (n - w).isPowerOfTwo)
    (hs : Sight n w R c T K D) (hx : Greedy (gridNear n w R c) D x) (hstride : GridStride n w R c x R' c') :
    Advances (edge w (slack n) T K fun R => R ≤ T ∨ (R + w = n ∧ T + w = R))
      (edgeDirect w (slack n) T K fun R => R ≤ T ∨ (R + w = n ∧ T + w = R)) D x R c R' c' := by
  have hcol := hs.col
  have hleft : 0 < c → gridNear n w R c (n - 1) := fun hc => ⟨_, _, .left hc⟩
  rcases hx.cases with ⟨⟨hpow, hle⟩, hlongest⟩ | ⟨hnone, hshort⟩
  · cases hstride with
    | right h => exact advances_along hle (right_of_slack (by omega) hs hleft hlongest)
    | left h =>
      obtain ⟨hR, hK⟩ := (hs.left h).mp (by omega)
      rw [slack_of_isPowerOfTwo hpow]
      exact advances_along hle fun _ => by omega
    | down h => exact absurd hpow hdown
    | up h => exact absurd hpow hup
  · have hc := last_column hs (fun h => ⟨_, _, .right h⟩) hnone
    obtain ⟨rfl, hwhere⟩ := grid_shortest (by omega) hn hs hc hshort hstride
    have hout : R = T → K + slack n < c' := out_of_slack hs hleft hnone hc
    have hgoal := hs.goal
    have hgoal_le := hs.goal_le
    have hapart := hs.apart
    have hnext := hs.next hc
    rcases hwhere with ⟨hrow, rfl, rfl⟩ | ⟨hrow, rfl, rfl⟩
    · refine advances_across hc (Or.inl le_rfl) hout (fun hR => ?_) (fun hK _ => hs.column (by omega)) fun hK hB => ?_
      · have hbelow := hs.below
        omega
      · by_cases hD : x ≤ D
        · exact Or.inl hD
        · exact Or.inr ((hnext (by omega)).2.1 hrow).symm
    · -- from the last row only the one above it is come to
      have hstart : R ≠ T → (R ≤ T ∨ (R + w = n ∧ T + w = R)) → T + w = R := by omega
      refine advances_across hc (Or.inl le_rfl) hout (fun hR => ?_) (fun hK hB => ?_) fun hK hB => ?_
      · have habove := hs.above
        omega
      · have hgap := hstart (fun hR => absurd (hout hR) (by omega)) hB
        have hway := hs.behind (by omega) (by omega)
        omega
      · have hgap := hstart (fun hR => absurd (hout hR) (by omega)) hB
        exact Or.inr (by omega)

theorem short_of_down (hdown : w.isPowerOfTwo) (hnone : ∀ y, gridNear n w R c y → ¬ IsFinger D y)
    (hR : R + w < n) : D < w := by
  by_contra hge
  exact hnone _ ⟨_, _, .down hR⟩ ⟨hdown, by omega⟩

def level (n w T K R c : Nat) : Prop := c ≤ K ∧ (R ≤ T ∨ (K + 1 = w ∧ R + w = n ∧ T + w = R))

theorem grid_level (hw : 2 ≤ w) (hn : 2 * w ≤ n) (hdown : w.isPowerOfTwo) (hup : ¬ (n - w).isPowerOfTwo)
    (hback : ¬ (n - 1).isPowerOfTwo) (hs : Sight n w R c T K D) (hx : Greedy (gridNear n w R c) D x)
    (hstride : GridStride n w R c x R' c') :
    Advances (level n w T K) (level n w T K) D x R c R' c' := by
  have hcol := hs.col
  have hgoal := hs.goal
  have hgoal_le := hs.goal_le
  have hcolumn := hs.column
  have hne := hs.ne
  have hapart := hs.apart
  have habove := hs.above
  have hlast := hs.last
  have hahead := hs.ahead
  have hbehind := hs.behind
  unfold level
  rcases hx.cases with ⟨⟨hpow, hle⟩, hlongest⟩ | ⟨hnone, hshort⟩
  · suffices hiff : level n w T K R c ↔ level n w T K R' c' from
      ⟨hiff, fun hd => ⟨hle, hiff.mp hd⟩, fun _ => Or.inl hle⟩
    have hfar : R + w < n → w ≤ D → w ≤ x := fun hR hD => hlongest w ⟨_, _, .down hR⟩ ⟨hdown, hD⟩
    unfold level
    cases hstride with
    | right h => omega
    | left h => exact absurd hpow hback
    | down h => omega
    | up h => exact absurd hpow hup
  · have hc := last_column hs (fun h => ⟨_, _, .right h⟩) hnone
    obtain ⟨rfl, hwhere⟩ := grid_shortest hw hn hs hc hshort hstride
    have hfar : R + w < n → D < w := short_of_down hdown hnone
    have hnext := hs.next hc
    refine ⟨?_, fun hd => ?_, fun hd => ?_⟩
    · omega
    · omega
    · omega

def jump (n w T K R c : Nat) : Prop :=
  c ≤ K ∧ (R ≤ T ∨ T + w = R ∨ (K + 1 = w ∧ R + w = n ∧ T + 2 * w = R))

def jumpDirect (w T K R c : Nat) : Prop := c ≤ K ∧ (R ≤ T ∨ T + w = R)

theorem grid_jump (hw : 2 ≤ w) (hn : 2 * w ≤ n) (hdown : w.isPowerOfTwo) (hup : (n - w).isPowerOfTwo)
    (hback : ¬ (n - 1).isPowerOfTwo) (hs : Sight n w R c T K D) (hx : Greedy (gridNear n w R c) D x)
    (hstride : GridStride n w R c x R' c') :
    Advances (jump n w T K) (jumpDirect w T K) D x R c R' c' := by
  have hcol := hs.col
  have hgoal := hs.goal
  have hgoal_le := hs.goal_le
  have hcolumn := hs.column
  have hne := hs.ne
  have hapart := hs.apart
  have habove := hs.above
  have hbelow := hs.below
  have hlast := hs.last
  have hahead := hs.ahead
  have hbehind := hs.behind
  unfold jump jumpDirect
  rcases hx.cases with ⟨⟨hpow, hle⟩, hlongest⟩ | ⟨hnone, hshort⟩
  · have hfar : R + w < n → w ≤ D → w ≤ x := fun hR hD => hlongest w ⟨_, _, .down hR⟩ ⟨hdown, hD⟩
    have hfar' : 0 < R → n - w ≤ D → n - w ≤ x := fun hR hD => hlongest (n - w) ⟨_, _, .up hR⟩ ⟨hup, hD⟩
    suffices hiff : (jump n w T K R c ↔ jump n w T K R' c') ∧ (jumpDirect w T K R c → jumpDirect w T K R' c') from
      ⟨hiff.1, fun hd => ⟨hle, hiff.2 hd⟩, fun _ => Or.inl hle⟩
    unfold jump jumpDirect
    cases hstride with
    | right h => omega
    | left h => exact absurd hpow hback
    | down h => omega
    | up h => omega
  · have hc := last_column hs (fun h => ⟨_, _, .right h⟩) hnone
    obtain ⟨rfl, hwhere⟩ := grid_shortest hw hn hs hc hshort hstride
    have hfar : R + w < n → D < w := short_of_down hdown hnone
    have hfar' : 0 < R → D < n - w := by
      intro hR
      by_contra hge
      exact hnone _ ⟨_, _, .up hR⟩ ⟨hup, by omega⟩
    have hnext := hs.next hc
    refine ⟨?_, fun hd => ?_, fun hd => ?_⟩
    · omega
    · omega
    · omega

end regimes

/-! ## The cells from which a walker comes to the target -/

section clear
variable {n w t : Nat} {near : Nat → Nat → Prop}

/-- In a torus, from column `c` of row `R` to column `K` of row `T`. -/
def TorusClear (n w R c T K : Nat) : Prop :=
  if (n - w + 1).isPowerOfTwo then True
  else if w.isPowerOfTwo then c ≤ K
  else edge w (slack n) T K (fun _ => True) R c

def GridClear (n w R c T K : Nat) : Prop :=
  if (n - w).isPowerOfTwo then jump n w T K R c
  else if w.isPowerOfTwo then level n w T K R c
  else edge w (slack n) T K (fun R => R ≤ T ∨ (R + w = n ∧ T + w = R)) R c

def onCells (w : Nat) (cells : Nat → Nat → Prop) (v : Nat) : Prop := cells (rowStart w v) (v % w)

noncomputable def gridBasin {Stride : Nat → Nat → Nat → Nat → Nat → Prop}
    (htorus : ∀ {R c x R' c'}, Stride R c x R' c' → TorusStride n w R c x R' c') (hw : 2 ≤ w) (hn : 2 * w ≤ n)
    (hdvd : w ∣ n) (ht : t < n)
    (hnear : ∀ v < n, ∀ x, near v x ↔ ∃ R' c', Stride (rowStart w v) (v % w) x R' c') (inside direct : Nat → Nat → Prop)
    (htarget : inside (rowStart w t) (t % w))
    (hadvances : ∀ {R c D x R' c'}, Sight n w R c (rowStart w t) (t % w) D →
      Greedy (fun y => ∃ R' c', Stride R c y R' c') D x → Stride R c x R' c' →
        Advances inside direct D x R c R' c') : Lib.Basin (Lib.Hop n near t) t :=
  .ofDirect ht (onCells w inside) (onCells w direct) htarget <| by
    intro v x hx
    have hcell := cell_of_lt (by omega) hdvd hx.lt
    have hs := hcell.sight hdvd (cell_of_lt (by omega) hdvd ht) hx.ne
    obtain ⟨R', c', hstride⟩ := (hnear v hx.lt x).mp hx.greedy.known
    have heq : near v = fun y => ∃ R' c', Stride (rowStart w v) (v % w) y R' c' := by
      funext y
      exact propext (hnear v hx.lt y)
    have hgreedy := hx.greedy
    rw [heq] at hgreedy
    obtain ⟨-, -, hcell'⟩ := (htorus hstride).cell hw hn hdvd hcell
    have hhop := hadvances hs hgreedy hstride
    unfold onCells
    rw [hcell'.rowStart_eq, hcell'.mod]
    exact ⟨hhop.inside_iff, hhop.straight, hhop.other⟩

theorem mod_two_of_dvd {a b : Nat} (hab : a ∣ b) (ha : a % 2 = 0) : b % 2 = 0 := by
  obtain ⟨k, rfl⟩ := hab
  rw [Nat.mul_mod, ha, Nat.zero_mul, Nat.zero_mod]

theorem odd_of_wrap (hw : 2 ≤ w) (hn : 2 * w ≤ n) (hdvd : w ∣ n) (hwrap : (n - w + 1).isPowerOfTwo) :
    3 ≤ w ∧ ¬ w.isPowerOfTwo ∧ ¬ (n - w).isPowerOfTwo := by
  have heven := Lib.eq_one_or_even hwrap
  have hodd : w % 2 ≠ 0 := by
    intro h
    have := mod_two_of_dvd (Nat.dvd_sub hdvd (dvd_refl w)) h
    omega
  refine ⟨by omega, fun h => ?_, fun h => ?_⟩
  · have := Lib.eq_one_or_even h
    omega
  · have := Lib.eq_one_or_even h
    omega

theorem even_of_down (hw : 2 ≤ w) (hn : 2 * w ≤ n) (hdvd : w ∣ n) (hdown : w.isPowerOfTwo) :
    ¬ (n - 1).isPowerOfTwo ∧ ¬ (n - w + 1).isPowerOfTwo := by
  have hw' := Lib.eq_one_or_even hdown
  have hn' := mod_two_of_dvd hdvd (by omega)
  refine ⟨fun h => ?_, fun h => ?_⟩
  · have := Lib.eq_one_or_even h
    omega
  · have := Lib.eq_one_or_even h
    omega

theorem three_le_of_not_isPowerOfTwo (hw : 2 ≤ w) (h : ¬ w.isPowerOfTwo) : 3 ≤ w := by
  by_contra hlt
  obtain rfl : w = 2 := by omega
  exact h ⟨1, rfl⟩

theorem not_up_of_not_down (hdvd : w ∣ n) (h : ¬ w.isPowerOfTwo) : ¬ (n - w).isPowerOfTwo := by
  intro hup
  exact h (Lib.isPowerOfTwo_of_dvd (Nat.dvd_sub hdvd (dvd_refl w)) hup)

theorem torus_basin (hw : 2 ≤ w) (hn : 2 * w ≤ n) (hdvd : w ∣ n) (ht : t < n)
    (hnear : ∀ v < n, ∀ x, near v x ↔ torusNear n w (rowStart w v) (v % w) x) :
    ∃ B : Lib.Basin (Lib.Hop n near t) t,
      ∀ v, B.inside v ↔ TorusClear n w (rowStart w v) (v % w) (rowStart w t) (t % w) := by
  unfold TorusClear
  by_cases hwrap : (n - w + 1).isPowerOfTwo
  · obtain ⟨hthree, hdown, hup⟩ := odd_of_wrap hw hn hdvd hwrap
    refine ⟨gridBasin id hw hn hdvd ht hnear _ _ trivial (torus_wrap hthree hn hdown hup hwrap), fun v => ?_⟩
    rw [if_pos hwrap]
    exact Iff.rfl
  by_cases hdown : w.isPowerOfTwo
  · obtain ⟨hback, -⟩ := even_of_down hw hn hdvd hdown
    refine ⟨gridBasin id hw hn hdvd ht hnear _ _ le_rfl (torus_level hw hn hdown hback hwrap), fun v => ?_⟩
    rw [if_neg hwrap, if_pos hdown]
    exact Iff.rfl
  · have hthree := three_le_of_not_isPowerOfTwo hw hdown
    have hup := not_up_of_not_down hdvd hdown
    refine ⟨gridBasin id hw hn hdvd ht hnear _ _ (Or.inl ⟨rfl, Nat.le_add_right _ _⟩)
      (torus_edge hthree hn hdown hup hwrap), fun v => ?_⟩
    rw [if_neg hwrap, if_neg hdown]
    exact Iff.rfl

theorem grid_basin (hw : 2 ≤ w) (hn : 2 * w ≤ n) (hdvd : w ∣ n) (ht : t < n)
    (hnear : ∀ v < n, ∀ x, near v x ↔ gridNear n w (rowStart w v) (v % w) x) :
    ∃ B : Lib.Basin (Lib.Hop n near t) t,
      ∀ v, B.inside v ↔ GridClear n w (rowStart w v) (v % w) (rowStart w t) (t % w) := by
  unfold GridClear
  by_cases hdown : w.isPowerOfTwo
  · obtain ⟨hback, -⟩ := even_of_down hw hn hdvd hdown
    by_cases hup : (n - w).isPowerOfTwo
    · refine ⟨gridBasin GridStride.torus hw hn hdvd ht hnear _ _ ⟨le_rfl, Or.inl le_rfl⟩
        (grid_jump hw hn hdown hup hback), fun v => ?_⟩
      rw [if_pos hup]
      exact Iff.rfl
    · refine ⟨gridBasin GridStride.torus hw hn hdvd ht hnear _ _ ⟨le_rfl, Or.inl le_rfl⟩
        (grid_level hw hn hdown hup hback), fun v => ?_⟩
      rw [if_neg hup, if_pos hdown]
      exact Iff.rfl
  · have hthree := three_le_of_not_isPowerOfTwo hw hdown
    have hup := not_up_of_not_down hdvd hdown
    refine ⟨gridBasin GridStride.torus hw hn hdvd ht hnear _ _ (Or.inl ⟨rfl, Nat.le_add_right _ _⟩)
      (grid_edge hthree hn hdown hup), fun v => ?_⟩
    rw [if_neg hup, if_neg hdown]
    exact Iff.rfl

/-! ## Lines and stars -/

def LineClear (n v t : Nat) : Prop := v ≤ t + slack n ∨ (v + 1 = n ∧ n ≤ t + 2 + slack n)

/-- A walker on a line knows the next place and the one before it, and comes to the target from its left; from its right
it does so from the next place, where the way back is a finger, or when the last hop to the end is undone before the
target. -/
theorem line_basin (hn : 2 ≤ n) (ht : t < n)
    (hnear : ∀ v < n, ∀ x, near v x ↔ (x = 1 ∧ v + 1 < n) ∨ (x + 1 = n ∧ 0 < v)) :
    ∃ B : Lib.Basin (Lib.Hop n near t) t, ∀ v, B.inside v ↔ LineClear n v t := by
  refine ⟨.ofDirect ht (fun v => LineClear n v t) (fun v => v ≤ t + slack n) (Or.inl (Nat.le_add_right _ _)) ?_,
    fun v => Iff.rfl⟩
  intro i x hx
  have hlt := hx.lt
  have hne := hx.ne
  have hD := Lib.clockwise_eq hlt ht
  have hstep := Lib.step_eq hlt hx.stride_lt
  have hslack := slack_cases n
  have hright : i + 1 < n → IsFinger (Lib.clockwise n i t) x := by
    intro hi
    refine (hx.greedy.longest 1 ((hnear i hlt 1).mpr (Or.inl ⟨rfl, hi⟩)) ⟨Nat.isPowerOfTwo_one, ?_⟩).1
    rw [hD]
    split_ifs <;> omega
  have hleft : i = t + 1 → slack n ≠ 0 → n ≤ x + 1 := by
    intro hi he
    obtain ⟨-, hpow⟩ : slack n = 1 ∧ (n - 1).isPowerOfTwo := by tauto
    have := (hx.greedy.longest (n - 1) ((hnear i hlt _).mpr (Or.inr ⟨by omega, by omega⟩)) ⟨hpow, by
      rw [hD, if_neg (by omega)]
      omega⟩).2
    omega
  unfold LineClear
  rcases (hnear i hlt x).mp hx.greedy.known with ⟨rfl, hi⟩ | ⟨hx', hi⟩
  · rw [if_pos (by omega)] at hstep
    rw [hstep, hD]
    split_ifs <;> omega
  · rw [if_neg (by omega)] at hstep
    have hend : i + 1 < n → slack n = 1 ∧ n ≤ Lib.clockwise n i t + 1 := by
      intro hi'
      obtain ⟨hpow, hle⟩ := hright hi'
      rw [show x = n - 1 by omega] at hpow hle
      exact ⟨slack_of_isPowerOfTwo hpow, by omega⟩
    rw [hD] at hend ⊢
    rw [hstep]
    split_ifs at hend ⊢ <;> omega

/-- At the middle of a star of `n` places or on its way there. -/
def StarClear (v t : Nat) : Prop := v = t ∨ t = 0 ∨ t.isPowerOfTwo

theorem star_basin (hn : 2 ≤ n) (ht : t < n)
    (hnear : ∀ v < n, ∀ x, near v x ↔ (v = 0 ∧ 0 < x ∧ x < n) ∨ (0 < v ∧ v + x = n)) :
    ∃ B : Lib.Basin (Lib.Hop n near t) t, ∀ v, B.inside v ↔ StarClear v t := by
  refine ⟨.ofDirect ht (fun v => StarClear v t) (fun v => StarClear v t ∧ (v = 0 ∨ v = t)) (Or.inl rfl) ?_,
    fun v => Iff.rfl⟩
  intro i x hx
  have hlt := hx.lt
  have hne := hx.ne
  have hD := Lib.clockwise_eq hlt ht
  have hstep := Lib.step_eq hlt hx.stride_lt
  have hinside : StarClear i t ↔ t = 0 ∨ t.isPowerOfTwo := or_iff_right hne
  rw [hinside]
  rcases (hnear i hlt x).mp hx.greedy.known with ⟨rfl, -⟩ | ⟨hi, hx'⟩
  · -- at the middle: the target itself is near
    have hxn := hx.stride_lt
    rw [if_pos (by omega)] at hstep
    rw [if_pos (by omega), Nat.sub_zero] at hD
    have hpos : 0 < t := by omega
    have hone : IsFinger (Lib.clockwise n 0 t) x := by
      refine (hx.greedy.longest 1 ((hnear 0 hlt 1).mpr (Or.inl ⟨rfl, by omega, by omega⟩))
        ⟨Nat.isPowerOfTwo_one, by omega⟩).1
    have hgoal : t.isPowerOfTwo → x = t := by
      intro hpow
      have hle := (hx.greedy.longest t ((hnear 0 hlt t).mpr (Or.inl ⟨rfl, hpos, ht⟩)) ⟨hpow, by omega⟩).2
      have := hone.2
      omega
    have hiff : t = 0 ∨ t.isPowerOfTwo ↔ StarClear x t := by
      constructor
      · rintro (h | h)
        · omega
        · exact Or.inl (hgoal h)
      · rintro (rfl | h)
        · exact Or.inr hone.1
        · exact h
    have hle : x ≤ Lib.clockwise n 0 t := hone.2
    rw [hstep, Nat.zero_add]
    refine ⟨hiff, fun hd => ⟨hle, hiff.mp hd.1, Or.inr ?_⟩, fun _ => Or.inl hle⟩
    rcases hd.1 with h | h
    · omega
    · exact hgoal h
  · rw [if_neg (by omega)] at hstep
    have hzero : i + x - n = 0 := by omega
    rw [hstep, hzero]
    have hiff : t = 0 ∨ t.isPowerOfTwo ↔ StarClear 0 t := by
      refine ⟨Or.inr, ?_⟩
      rintro (rfl | h)
      · exact Or.inl rfl
      · exact h
    refine ⟨hiff, fun hd => ?_, fun hd => Or.inr ⟨hiff.mp hd, Or.inl rfl⟩⟩
    rcases hd.2 with h | h
    · omega
    · exact absurd h hne

end clear

end Quantas.Chord
