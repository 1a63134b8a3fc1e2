import Quantas.Lib.Footprint

/-!
# Programs that run next to each other

A program takes atomic steps on a shared world; which step comes next may depend on the world that the step
before it met. Every program ends, since it is a well-founded tree, however many branches it has.

A program is local to a set of cells if all its steps read and change these cells only. Programs local to
disjoint sets may be interleaved in any way: one step of one of them does not change the world that is left
when all have run to their ends one after the other (`finish_step`).
-/

namespace Lib

/-- A program in atomic steps. `next` reads the world that the step meets, before it acts. -/
inductive Prog (W : Type*) where
  | done
  | step (act : W → W) (next : W → Prog W)

namespace Prog
variable {W κ : Type*} {ν : κ → Type*}

def run : Prog W → W → W
  | done, w => w
  | step act next, w => (next w).run (act w)

/-- All steps of the program stay within `S`, and so does what they choose. -/
inductive Local (read : (k : κ) → W → ν k) (S : Set κ) : Prog W → Prop
  | done : Local read S done
  | step {act : W → W} {next : W → Prog W} (hact : Within read S act) (hnext : DependsOn read S next)
      (hrest : ∀ w, Local read S (next w)) : Local read S (step act next)

variable {read : (k : κ) → W → ν k} {S T : Set κ}

theorem Local.mono {p : Prog W} (h : p.Local read S) (hsub : S ⊆ T) : p.Local read T := by
  induction h with
  | done => exact .done
  | step hact hnext _ ih => exact .step (hact.mono hsub) (hnext.mono hsub) ih

theorem Local.within_run {p : Prog W} (h : p.Local read S) : Within read S p.run := by
  induction h with
  | done => exact .id
  | @step act next hact hnext _ ih =>
    exact Within.choose (fun p w => p.run (act w)) hnext fun w => (ih w).comp hact

def Next (p q : Prog W) : Prop := ∃ act next w, q = step act next ∧ p = next w

theorem wellFounded_next : WellFounded (Next : Prog W → Prog W → Prop) := by
  refine ⟨fun p => ?_⟩
  induction p with
  | done =>
    apply Acc.intro
    rintro p ⟨act, next, w, h, -⟩
    cases h
  | step act next ih =>
    apply Acc.intro
    rintro p ⟨act', next', w, h, rfl⟩
    obtain ⟨-, rfl⟩ := step.inj h
    exact ih w

/-! ## Several programs -/

variable {ι : Type*}

def finish (l : List ι) (ps : ι → Prog W) (w : W) : W := l.foldl (fun w i => (ps i).run w) w

theorem finish_done {l : List ι} {ps : ι → Prog W} (h : ∀ i ∈ l, ps i = done) (w : W) : finish l ps w = w := by
  induction l generalizing w with
  | nil => rfl
  | cons i l ih =>
    rw [finish, List.foldl_cons, h i List.mem_cons_self]
    exact ih (fun j hj => h j (List.mem_cons_of_mem i hj)) w

theorem finish_congr {l : List ι} {ps ps' : ι → Prog W} (h : ∀ i ∈ l, ps i = ps' i) (w : W) :
    finish l ps w = finish l ps' w := by
  induction l generalizing w with
  | nil => rfl
  | cons i l ih =>
    rw [finish, finish, List.foldl_cons, List.foldl_cons, h i List.mem_cons_self]
    exact ih (fun j hj => h j (List.mem_cons_of_mem i hj)) _

theorem finish_perm {foot : ι → Set κ} (hext : ∀ w w', (∀ k, read k w = read k w') → w = w')
    (hdisj : ∀ i j, i ≠ j → Disjoint (foot i) (foot j)) {ps : ι → Prog W}
    (hlocal : ∀ i, (ps i).Local read (foot i)) {l l' : List ι} (h : l.Perm l') (w : W) :
    finish l ps w = finish l' ps w :=
  foldl_perm hext (fun i => (hlocal i).within_run) hdisj h w

/-- **A step of one program does not matter to the end.** It may be taken at any time. -/
theorem finish_step [DecidableEq ι] {foot : ι → Set κ}
    (hext : ∀ w w', (∀ k, read k w = read k w') → w = w')
    (hdisj : ∀ i j, i ≠ j → Disjoint (foot i) (foot j)) {ps : ι → Prog W}
    (hlocal : ∀ i, (ps i).Local read (foot i)) {l : List ι} (hnodup : l.Nodup) {i : ι} (hi : i ∈ l)
    {act : W → W} {next : W → Prog W} (hp : ps i = step act next) (w : W) :
    finish l (Function.update ps i (next w)) (act w) = finish l ps w := by
  have hlocal' : ∀ j, (Function.update ps i (next w) j).Local read (foot j) := by
    intro j
    by_cases hj : j = i
    · subst hj
      rw [Function.update_self]
      have h := hlocal j
      rw [hp] at h
      cases h with
      | step _ _ hrest => exact hrest w
    · rw [Function.update_of_ne hj]
      exact hlocal j
  have hfront : l.Perm (i :: l.erase i) := List.perm_cons_erase hi
  have hothers : ∀ j ∈ l.erase i, Function.update ps i (next w) j = ps j := fun j hj =>
    Function.update_of_ne (hnodup.mem_erase_iff.mp hj).1 _ _
  calc finish l (Function.update ps i (next w)) (act w)
      = finish (i :: l.erase i) (Function.update ps i (next w)) (act w) :=
        finish_perm hext hdisj hlocal' hfront _
    _ = finish (l.erase i) (Function.update ps i (next w)) ((next w).run (act w)) := by
        rw [finish, List.foldl_cons, Function.update_self]
        rfl
    _ = finish (l.erase i) ps ((ps i).run w) := by
        rw [finish_congr hothers, hp]
        rfl
    _ = finish l ps w := (finish_perm hext hdisj hlocal hfront w).symm

end Prog

end Lib
