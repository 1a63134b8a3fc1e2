import Quantas.Lib.Relay
import Quantas.Lib.Ring

/-!
# Greedy walks on a ring

A walker on a ring of `n` places wants to come to a target. From each place it knows strides of some lengths. It takes
the longest one that is a power of two and does not pass the target; where there is none, it takes the shortest one,
past the target if it must. The second kind of hop can undo the first, so a walk may run in a circle.

A `Basin` of a relation is a set that the relation neither leaves nor enters from outside, with a rank that falls
inside. Walks from inside are simple; walks from outside never come to the target. On a ring it is enough to find the
places from which the walker gets to the target, and among them those from which it never passes it.
-/

namespace Lib

/-! ## Basins -/

structure Basin {ι : Type*} (hop : ι → ι → Prop) (target : ι) where
  inside : ι → Prop
  rank : ι → Nat
  target_inside : inside target
  inside_iff : ∀ {a b}, hop a b → (inside a ↔ inside b)
  falls : ∀ {a b}, hop a b → inside a → rank b < rank a

namespace Basin
variable {ι : Type*} {hop : ι → ι → Prop} {target a : ι} (B : Basin hop target)

theorem inside_iff_of_mem {path : List ι} (h : path.IsChain hop) (ha : path.head? = some a) {b : ι}
    (hb : b ∈ path) : B.inside a ↔ B.inside b := by
  induction path generalizing a with
  | nil => exact absurd hb List.not_mem_nil
  | cons c path ih =>
    obtain rfl : c = a := by simpa using ha
    rcases List.mem_cons.mp hb with rfl | hb
    · exact Iff.rfl
    · cases path with
      | nil => exact absurd hb List.not_mem_nil
      | cons d path =>
        obtain ⟨hcd, htail⟩ := List.isChain_cons_cons.mp h
        exact (B.inside_iff hcd).trans (ih htail rfl hb)

theorem nodup {path : List ι} (h : path.IsChain hop) (ha : path.head? = some a) (hinside : B.inside a) :
    path.Nodup := by
  apply Relay.nodup_of_rank B.rank
  have hall : ∀ b ∈ path, B.inside b := fun b hb => (B.inside_iff_of_mem h ha hb).mp hinside
  clear ha
  induction path with
  | nil => exact List.isChain_nil
  | cons c path ih =>
    cases path with
    | nil => exact List.isChain_singleton c
    | cons d path =>
      obtain ⟨hcd, htail⟩ := List.isChain_cons_cons.mp h
      refine List.isChain_cons_cons.mpr ⟨B.falls hcd (hall c List.mem_cons_self), ih htail ?_⟩
      intro b hb
      exact hall b (List.mem_cons_of_mem c hb)

theorem target_notMem {path : List ι} (h : path.IsChain hop) (ha : path.head? = some a) (houtside : ¬ B.inside a) :
    target ∉ path := by
  intro hmem
  exact houtside ((B.inside_iff_of_mem h ha hmem).mpr B.target_inside)

end Basin

/-! ## Strides -/

def IsFinger (d x : Nat) : Prop := x.isPowerOfTwo ∧ x ≤ d

/-- The stride that a walker takes who knows the strides `near` and is `d` steps before the target. -/
structure Greedy (near : Nat → Prop) (d x : Nat) : Prop where
  known : near x
  longest : ∀ y, near y → IsFinger d y → IsFinger d x ∧ y ≤ x
  shortest : ¬ IsFinger d x → ∀ y, near y → x ≤ y

theorem Greedy.cases {near : Nat → Prop} {d x : Nat} (h : Greedy near d x) :
    (IsFinger d x ∧ ∀ y, near y → IsFinger d y → y ≤ x) ∨
      ((∀ y, near y → ¬ IsFinger d y) ∧ ∀ y, near y → x ≤ y) := by
  by_cases hx : IsFinger d x
  · exact Or.inl ⟨hx, fun y hy hfinger => (h.longest y hy hfinger).2⟩
  · exact Or.inr ⟨fun y hy hfinger => hx (h.longest y hy hfinger).1, h.shortest hx⟩

theorem eq_one_or_even {x : Nat} (h : x.isPowerOfTwo) : x = 1 ∨ x % 2 = 0 := by
  obtain ⟨k, rfl⟩ := h
  rcases k with _ | k
  · exact Or.inl (pow_zero 2)
  · right
    rw [pow_succ]
    omega

theorem isPowerOfTwo_of_dvd {x y : Nat} (hxy : x ∣ y) (hy : y.isPowerOfTwo) : x.isPowerOfTwo := by
  obtain ⟨k, rfl⟩ := hy
  obtain ⟨j, -, rfl⟩ := (Nat.dvd_prime_pow Nat.prime_two).mp hxy
  exact ⟨j, rfl⟩

/-- At place `i` the walker takes a stride of `x` steps. -/
structure Takes (n : Nat) (near : Nat → Nat → Prop) (target i x : Nat) : Prop where
  lt : i < n
  ne : i ≠ target
  pos : 0 < x
  stride_lt : x < n
  greedy : Greedy (near i) (clockwise n i target) x

/-- A hop of the walker from `i` to `j`. -/
def Hop (n : Nat) (near : Nat → Nat → Prop) (target i j : Nat) : Prop :=
  ∃ x, Takes n near target i x ∧ j = (i + x) % n

section strides
variable {n : Nat} {near : Nat → Nat → Prop} {target i j x : Nat}

theorem clockwise_hop (hi : i < n) (ht : target < n) (hx : x < n) :
    clockwise n ((i + x) % n) target =
      if x ≤ clockwise n i target then clockwise n i target - x else clockwise n i target + n - x := by
  split_ifs with hle
  · exact clockwise_of_step hi ht hle
  · exact clockwise_past hi ht hx (not_le.mp hle)

open Classical in
/-- A basin on a ring: from the places in `direct` no hop passes the target, and a hop that passes it, from another
place inside, leads to one in `direct`. -/
noncomputable def Basin.ofDirect (ht : target < n) (inside direct : Nat → Prop) (htarget : inside target)
    (hstep : ∀ i x, Takes n near target i x → (inside i ↔ inside ((i + x) % n)) ∧
      (direct i → x ≤ clockwise n i target ∧ direct ((i + x) % n)) ∧
      (inside i → x ≤ clockwise n i target ∨ direct ((i + x) % n))) :
    Basin (Hop n near target) target where
  inside := inside
  rank i := if direct i then clockwise n i target else n + clockwise n i target
  target_inside := htarget
  inside_iff := by
    rintro i j ⟨x, hx, rfl⟩
    exact (hstep i x hx).1
  falls := by
    rintro i j ⟨x, hx, rfl⟩ hin
    have hlt := clockwise_lt (j := target) hx.lt
    have hlt' := clockwise_lt (j := target) (step_lt (s := x) hx.lt)
    have hhop := clockwise_hop hx.lt ht hx.stride_lt
    have hpos := hx.pos
    by_cases hd : direct i
    · obtain ⟨hle, hd'⟩ := (hstep i x hx).2.1 hd
      rw [if_pos hle] at hhop
      rw [if_pos hd, if_pos hd']
      omega
    · rw [if_neg hd]
      rcases (hstep i x hx).2.2 hin with hle | hd'
      · rw [if_pos hle] at hhop
        split_ifs <;> omega
      · rw [if_pos hd']
        omega

noncomputable def Basin.ofSuccessors (ht : target < n) (hnear : ∀ i < n, near i 1) : Basin (Hop n near target) target :=
  .ofDirect ht (fun _ => True) (fun _ => True) trivial <| by
    intro i x hx
    have hpos : clockwise n i target ≠ 0 := fun hzero => hx.ne ((clockwise_eq_zero_iff hx.lt ht).mp hzero)
    have hfinger := hx.greedy.longest 1 (hnear i hx.lt) ⟨Nat.isPowerOfTwo_one, by omega⟩
    exact ⟨Iff.rfl, fun _ => ⟨hfinger.1.2, trivial⟩, fun _ => Or.inr trivial⟩

theorem Hop.congr {near' : Nat → Nat → Prop} (h : ∀ i < n, ∀ x, near i x ↔ near' i x) :
    Hop n near target = Hop n near' target := by
  funext i j
  apply propext
  have htakes : ∀ x, Takes n near target i x ↔ Takes n near' target i x := by
    intro x
    by_cases hi : i < n
    · have heq : near i = near' i := funext fun x => propext (h i hi x)
      exact ⟨fun hx => ⟨hi, hx.ne, hx.pos, hx.stride_lt, heq ▸ hx.greedy⟩,
        fun hx => ⟨hi, hx.ne, hx.pos, hx.stride_lt, heq ▸ hx.greedy⟩⟩
    · exact ⟨fun hx => absurd hx.lt hi, fun hx => absurd hx.lt hi⟩
  unfold Hop
  simp only [htakes]

end strides

end Lib
