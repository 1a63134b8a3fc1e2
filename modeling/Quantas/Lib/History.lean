import Mathlib

/-!
# Causal histories

A history is the list of what happened, oldest first. It is causal when each entry was justified by the part
of the history before it.
-/

namespace Lib
variable {E : Type*}

inductive Causal (cause : List E → E → Prop) : List E → Prop
  | nil : Causal cause []
  | snoc {history : List E} {entry : E} (h : Causal cause history) (hcause : cause history entry) :
      Causal cause (history ++ [entry])

namespace Causal
variable {cause : List E → E → Prop} {history : List E}

theorem append_iff {entry : E} :
    Causal cause (history ++ [entry]) ↔ Causal cause history ∧ cause history entry := by
  constructor
  · intro h
    generalize hlist : history ++ [entry] = list at h
    cases h with
    | nil => simp at hlist
    | snoc h hcause =>
      obtain ⟨rfl, hentry⟩ := List.append_inj' hlist rfl
      obtain rfl := List.singleton_inj.mp hentry
      exact ⟨h, hcause⟩
  · rintro ⟨h, hcause⟩
    exact h.snoc hcause

theorem before {l₁ l₂ : List E} {entry : E} (h : Causal cause (l₁ ++ entry :: l₂)) :
    Causal cause l₁ ∧ cause l₁ entry := by
  induction l₂ using List.reverseRecOn with
  | nil => exact append_iff.mp h
  | append_singleton l₂ e ih =>
    rw [← List.cons_append, ← List.append_assoc] at h
    exact ih (append_iff.mp h).1

end Causal

end Lib
