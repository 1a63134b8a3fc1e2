import Mathlib

/-!
# Rooted trees given by parents

A tree on a type is a parent function by which every element reaches the root. `Anc a b` says that `a` lies
on the way from `b` to the root, `b` included; `depth b` is the length of that way. `Rooted R b` says that
the whole way lies in the set `R`, which is how a part of a tree that is known only in pieces looks from the
root.
-/

namespace Lib

/-- A parent function by which everything reaches the root. -/
structure RootedTree {α : Type*} (root : α) where
  parent : α → α
  acyclic : ∀ b, ∃ n, parent^[n] b = root

namespace RootedTree
variable {α : Type*} {root : α} (t : RootedTree root)

/-- `a` lies on the way from `b` to the root. -/
inductive Anc : α → α → Prop
  | refl (b : α) : Anc b b
  | step {a b : α} (hb : b ≠ root) (h : Anc a (t.parent b)) : Anc a b

/-- The way from `b` to the root lies in `R`. -/
def Rooted (R : Finset α) (b : α) : Prop := ∀ a, t.Anc a b → a ∈ R

variable {t}

theorem induction_on {motive : α → Prop} (b : α) (hroot : motive root)
    (hstep : ∀ b, b ≠ root → motive (t.parent b) → motive b) : motive b := by
  obtain ⟨n, hn⟩ := t.acyclic b
  induction n generalizing b with
  | zero =>
    have hb : b = root := hn
    exact hb ▸ hroot
  | succ n ih =>
    by_cases hb : b = root
    · exact hb ▸ hroot
    · exact hstep b hb (ih (t.parent b) hn)

/-! ## Ancestors -/

theorem Anc.trans {a b c : α} (hab : t.Anc a b) (hbc : t.Anc b c) : t.Anc a c := by
  induction hbc with
  | refl => exact hab
  | step hc _ ih => exact .step hc ih

theorem anc_parent {b : α} (hb : b ≠ root) : t.Anc (t.parent b) b := .step hb (.refl _)

theorem root_anc (b : α) : t.Anc root b :=
  induction_on (t := t) b (.refl root) fun _ hb ih => .step hb ih

theorem anc_root_iff {a : α} : t.Anc a root ↔ a = root := by
  constructor
  · intro h
    cases h with
    | refl => rfl
    | step hb _ => exact absurd rfl hb
  · rintro rfl
    exact .refl a

theorem anc_iff {a b : α} (hb : b ≠ root) : t.Anc a b ↔ a = b ∨ t.Anc a (t.parent b) := by
  constructor
  · intro h
    cases h with
    | refl => exact .inl rfl
    | step _ h => exact .inr h
  · rintro (rfl | h)
    · exact .refl a
    · exact .step hb h

theorem Anc.comparable {a b c : α} (ha : t.Anc a c) (hb : t.Anc b c) : t.Anc a b ∨ t.Anc b a := by
  induction ha with
  | refl => exact .inr hb
  | step hc ha ih =>
    rcases (anc_iff hc).mp hb with rfl | hb
    · exact .inl (.step hc ha)
    · exact ih hb

theorem Anc.exists_child {a b : α} (h : t.Anc a b) (hab : a ≠ b) :
    ∃ c, c ≠ root ∧ t.parent c = a ∧ t.Anc c b := by
  induction h with
  | refl => exact absurd rfl hab
  | @step b hb h ih =>
    by_cases ha : a = t.parent b
    · exact ⟨b, hb, ha.symm, .refl b⟩
    · obtain ⟨c, hc, hparent, hanc⟩ := ih ha
      exact ⟨c, hc, hparent, .step hb hanc⟩

/-! ## Depth -/

section Depth
variable [DecidableEq α]

def depth (t : RootedTree root) (b : α) : Nat := Nat.find (t.acyclic b)

@[simp] theorem depth_root : t.depth root = 0 := (Nat.find_eq_zero _).mpr rfl

theorem depth_of_ne {b : α} (hb : b ≠ root) : t.depth b = t.depth (t.parent b) + 1 := by
  rw [depth, Nat.find_eq_iff]
  refine ⟨Nat.find_spec (t.acyclic (t.parent b)), fun n hn => ?_⟩
  cases n with
  | zero => exact hb
  | succ n =>
    rw [Function.iterate_succ_apply]
    exact Nat.find_min (t.acyclic (t.parent b)) (by exact Nat.lt_of_succ_lt_succ hn)

theorem Anc.depth_le {a b : α} (h : t.Anc a b) : t.depth a ≤ t.depth b := by
  induction h with
  | refl => exact le_rfl
  | step hb _ ih =>
    rw [depth_of_ne hb]
    omega

theorem Anc.eq_of_depth_le {a b : α} (h : t.Anc a b) (hdepth : t.depth b ≤ t.depth a) : a = b := by
  cases h with
  | refl => rfl
  | step hb h =>
    have hle := h.depth_le
    rw [depth_of_ne hb] at hdepth
    omega

theorem Anc.antisymm {a b : α} (hab : t.Anc a b) (hba : t.Anc b a) : a = b :=
  hab.eq_of_depth_le hba.depth_le

theorem Anc.depth_lt {a b : α} (h : t.Anc a b) (hab : a ≠ b) : t.depth a < t.depth b := by
  by_contra hle
  exact hab (h.eq_of_depth_le (by omega))

theorem not_anc_parent {b : α} (hb : b ≠ root) : ¬ t.Anc b (t.parent b) := by
  intro h
  have hle := h.depth_le
  rw [depth_of_ne hb] at hle
  omega

end Depth

/-! ## What is connected to the root -/

variable {R : Finset α}

theorem Rooted.mem {b : α} (h : t.Rooted R b) : b ∈ R := h b (.refl b)

theorem Rooted.of_anc {a b : α} (h : t.Rooted R b) (hab : t.Anc a b) : t.Rooted R a :=
  fun _ hc => h _ (hc.trans hab)

theorem Rooted.mono {R' : Finset α} (hR : R ⊆ R') {b : α} (h : t.Rooted R b) : t.Rooted R' b :=
  fun a ha => hR (h a ha)

theorem rooted_root : t.Rooted R root ↔ root ∈ R := by
  refine ⟨fun h => h.mem, fun h a ha => ?_⟩
  rw [anc_root_iff.mp ha]
  exact h

theorem rooted_iff {b : α} (hb : b ≠ root) : t.Rooted R b ↔ b ∈ R ∧ t.Rooted R (t.parent b) := by
  constructor
  · exact fun h => ⟨h.mem, h.of_anc (anc_parent hb)⟩
  · rintro ⟨hmem, hparent⟩ a ha
    rcases (anc_iff hb).mp ha with rfl | ha
    · exact hmem
    · exact hparent a ha

theorem rooted_insert [DecidableEq α] {h b : α} (hb : t.Rooted (insert h R) b) :
    t.Rooted R b ∨ t.Anc h b := by
  by_cases hh : t.Anc h b
  · exact .inr hh
  · refine .inl fun a ha => ?_
    rcases Finset.mem_insert.mp (hb a ha) with rfl | hmem
    · exact absurd ha hh
    · exact hmem

theorem Rooted.not_anc_of_notMem {h b : α} (hb : t.Rooted R b) (hh : h ∉ R) : ¬ t.Anc h b :=
  fun hanc => hh (hb h hanc)

theorem Rooted.depth_lt_card [DecidableEq α] {b : α} (hb : t.Rooted R b) : t.depth b < R.card := by
  suffices h : ∀ b, t.Rooted R b → ∃ S ⊆ R, S.card = t.depth b + 1 ∧ ∀ a ∈ S, t.Anc a b by
    obtain ⟨S, hS, hcard, -⟩ := h b hb
    have hle := Finset.card_le_card hS
    omega
  intro b
  refine induction_on (t := t) (motive := fun b => t.Rooted R b →
    ∃ S ⊆ R, S.card = t.depth b + 1 ∧ ∀ a ∈ S, t.Anc a b) b ?_ ?_
  · intro hroot
    refine ⟨{root}, Finset.singleton_subset_iff.mpr hroot.mem, by simp, fun a ha => ?_⟩
    rw [Finset.mem_singleton.mp ha]
    exact .refl root
  · intro b hne ih hrooted
    obtain ⟨S, hS, hcard, hanc⟩ := ih (hrooted.of_anc (anc_parent hne))
    have hfresh : b ∉ S := fun hmem => not_anc_parent hne (hanc b hmem)
    refine ⟨insert b S, Finset.insert_subset hrooted.mem hS, ?_, fun a ha => ?_⟩
    · rw [Finset.card_insert_of_notMem hfresh, hcard, depth_of_ne hne]
    · rcases Finset.mem_insert.mp ha with rfl | ha
      · exact .refl a
      · exact .step hne (hanc a ha)

/-! ## Growth -/

section Graft
variable [DecidableEq α]

theorem exists_iterate_update_of_not_anc {b a x : α} (h : ¬ t.Anc b x) :
    ∃ n, (Function.update t.parent b a)^[n] x = root := by
  induction x using induction_on (t := t) with
  | hroot => exact ⟨0, rfl⟩
  | hstep x hx ih =>
    obtain ⟨n, hn⟩ := ih fun hanc => h (.step hx hanc)
    have hne : x ≠ b := fun heq => h (heq ▸ .refl x)
    refine ⟨n + 1, ?_⟩
    rw [Function.iterate_succ_apply, Function.update_of_ne hne]
    exact hn

/-- The tree with `b`, and what lies below it, below `a`. -/
def graft (t : RootedTree root) (b a : α) (h : ¬ t.Anc b a) : RootedTree root where
  parent := Function.update t.parent b a
  acyclic := by
    intro x
    induction x using induction_on (t := t) with
    | hroot => exact ⟨0, rfl⟩
    | hstep x hx ih =>
      by_cases hxb : x = b
      · obtain ⟨n, hn⟩ := exists_iterate_update_of_not_anc (a := a) h
        refine ⟨n + 1, ?_⟩
        rw [Function.iterate_succ_apply, hxb, Function.update_self]
        exact hn
      · obtain ⟨n, hn⟩ := ih
        refine ⟨n + 1, ?_⟩
        rw [Function.iterate_succ_apply, Function.update_of_ne hxb]
        exact hn

end Graft

end RootedTree

end Lib
