import Mathlib

/-!
# Footprints

A state is looked at through a family of cells: `read k` is the content of cell `k`. A step stays within a
set of cells if it changes no cell outside, and if what it leaves in the set depends on the set only.

Such steps compose, and a step may be chosen by a value that depends on the set. Steps within disjoint sets
commute (`Within.comm`); so, where distinct parties have disjoint footprints, their steps may be taken in any
order (`foldl_perm`).
-/

namespace Lib

variable {W κ : Type*} {ν : κ → Type*} (read : (k : κ) → W → ν k)

/-- The two states have the same cells in `S`. -/
def AgreeOn (S : Set κ) (w w' : W) : Prop := ∀ k ∈ S, read k w = read k w'

/-- The value is a function of the cells in `S`. -/
def DependsOn {α : Type*} (S : Set κ) (v : W → α) : Prop := ∀ w w', AgreeOn read S w w' → v w = v w'

/-- The step reads and changes cells in `S` only. -/
structure Within (S : Set κ) (f : W → W) : Prop where
  frame : ∀ w, ∀ k ∉ S, read k (f w) = read k w
  effect : ∀ w w', AgreeOn read S w w' → AgreeOn read S (f w) (f w')

structure Returns {α : Type*} (S : Set κ) (f : W → W × α) : Prop where
  within : Within read S fun w => (f w).1
  result : DependsOn read S fun w => (f w).2

variable {read} {S T : Set κ} {f g : W → W}

theorem AgreeOn.mono {w w' : W} (h : AgreeOn read T w w') (hsub : S ⊆ T) : AgreeOn read S w w' :=
  fun k hk => h k (hsub hk)

theorem DependsOn.mono {α : Type*} {v : W → α} (h : DependsOn read S v) (hsub : S ⊆ T) :
    DependsOn read T v :=
  fun w w' hagree => h w w' (hagree.mono hsub)

theorem Within.mono (h : Within read S f) (hsub : S ⊆ T) : Within read T f where
  frame w k hk := h.frame w k fun hS => hk (hsub hS)
  effect w w' hagree k hk := by
    by_cases hS : k ∈ S
    · exact h.effect w w' (hagree.mono hsub) k hS
    · rw [h.frame w k hS, h.frame w' k hS]
      exact hagree k hk

theorem Within.id : Within read S fun w => w :=
  ⟨fun _ _ _ => rfl, fun _ _ h => h⟩

theorem Within.comp (hg : Within read S g) (hf : Within read S f) : Within read S fun w => g (f w) where
  frame w k hk := by rw [hg.frame _ k hk, hf.frame w k hk]
  effect w w' h := hg.effect _ _ (hf.effect w w' h)

theorem Within.write {k : κ} (hk : k ∈ S) (a : ν k) (hself : ∀ w, read k (f w) = a)
    (hother : ∀ w, ∀ l ≠ k, read l (f w) = read l w) : Within read S f where
  frame w l hl := hother w l fun heq => hl (heq ▸ hk)
  effect w w' h l hl := by
    by_cases heq : l = k
    · subst heq
      rw [hself, hself]
    · rw [hother w l heq, hother w' l heq]
      exact h l hl

theorem Within.choose {α : Type*} {v : W → α} (step : α → W → W) (hv : DependsOn read S v)
    (hstep : ∀ w, Within read S (step (v w))) : Within read S fun w => step (v w) w where
  frame w k hk := (hstep w).frame w k hk
  effect w w' h := by
    rw [← hv w w' h]
    exact (hstep w).effect w w' h

theorem Within.foldl {α : Type*} {step : α → W → W} {l : List α} (h : ∀ a ∈ l, Within read S (step a)) :
    Within read S fun w => l.foldl (fun w a => step a w) w := by
  induction l with
  | nil => exact .id
  | cons a l ih =>
    have hrest := ih fun b hb => h b (List.mem_cons_of_mem a hb)
    exact hrest.comp (h a List.mem_cons_self)

theorem DependsOn.comp {α : Type*} {v : W → α} (hv : DependsOn read S v) (hf : Within read S f) :
    DependsOn read S fun w => v (f w) :=
  fun w w' h => hv _ _ (hf.effect w w' h)

theorem Returns.pure {α : Type*} (a : α) : Returns read S fun w => (w, a) :=
  ⟨.id, fun _ _ _ => rfl⟩

theorem Returns.choose {α β : Type*} {v : W → α} (call : α → W → W × β) (hv : DependsOn read S v)
    (hcall : ∀ w, Returns read S (call (v w))) : Returns read S fun w => call (v w) w where
  within := Within.choose (fun a w => (call a w).1) hv fun w => (hcall w).within
  result w w' h := by
    show (call (v w) w).2 = (call (v w') w').2
    rw [← hv w w' h]
    exact (hcall w).result w w' h

theorem Returns.after {α : Type*} {call : W → W × α} (hcall : Returns read S call) (hf : Within read S f) :
    Returns read S fun w => call (f w) :=
  ⟨hcall.within.comp hf, hcall.result.comp hf⟩

theorem Returns.andThen {α : Type*} {call : W → W × α} (next : α → W → W) (hcall : Returns read S call)
    (hnext : ∀ a, Within read S (next a)) : Within read S fun w => next (call w).2 (call w).1 :=
  Within.choose (fun a w => next a (call w).1) hcall.result fun _ => (hnext _).comp hcall.within

theorem Returns.bind {α β : Type*} {call : W → W × α} (next : α → W → W × β) (hcall : Returns read S call)
    (hnext : ∀ a, Returns read S (next a)) : Returns read S fun w => next (call w).2 (call w).1 where
  within := hcall.andThen (fun a w => (next a w).1) fun a => (hnext a).within
  result w w' h := by
    have hres : (call w).2 = (call w').2 := hcall.result w w' h
    show (next (call w).2 (call w).1).2 = (next (call w').2 (call w').1).2
    rw [hres]
    exact (hnext _).result.comp hcall.within w w' h

/-- **Steps within disjoint sets commute**, if the cells are all there is to a state. -/
theorem Within.comm (hext : ∀ w w', (∀ k, read k w = read k w') → w = w') (hdisj : Disjoint S T)
    (hf : Within read S f) (hg : Within read T g) (w : W) : f (g w) = g (f w) := by
  have hS : AgreeOn read S (g w) w := fun k hk => hg.frame w k (hdisj.notMem_of_mem_left hk)
  have hT : AgreeOn read T (f w) w := fun k hk => hf.frame w k (hdisj.notMem_of_mem_right hk)
  apply hext
  intro k
  by_cases hk : k ∈ S
  · rw [hf.effect _ _ hS k hk, hg.frame _ k (hdisj.notMem_of_mem_left hk)]
  · rw [hf.frame _ k hk]
    by_cases hk' : k ∈ T
    · exact (hg.effect _ _ hT k hk').symm
    · rw [hg.frame _ k hk', hg.frame _ k hk', hf.frame _ k hk]

/-- **Any order.** Parties whose footprints are disjoint may take their steps in any order. -/
theorem foldl_perm {ι : Type*} {step : ι → W → W} {foot : ι → Set κ}
    (hext : ∀ w w', (∀ k, read k w = read k w') → w = w') (hstep : ∀ i, Within read (foot i) (step i))
    (hdisj : ∀ i j, i ≠ j → Disjoint (foot i) (foot j)) {l l' : List ι} (h : l.Perm l') (w : W) :
    l.foldl (fun w i => step i w) w = l'.foldl (fun w i => step i w) w := by
  apply h.foldl_eq'
  intro i _ j _ w
  by_cases hij : i = j
  · rw [hij]
  · exact (hstep j).comm hext (hdisj j i (Ne.symm hij)) (hstep i) w

end Lib
