import Quantas.Lib.Transition

/-!
# Runs that come to an end

A potential that each event drains by one, apart from what the event costs, counts the events of a run. If in
every state of a class there is something to do for free that stays in the class, unless the state is final, the
runs that have come to such a state can be brought to an end.
-/

namespace Lib.Machine

variable {σ ε : Type*} {M : Machine σ ε} {potential : σ → Nat} {cost : ε → Nat} {Inside Final : σ → Prop}

/-- Every step of a run takes one from the potential and adds what its event costs. -/
def Drains (M : Machine σ ε) (potential : σ → Nat) (cost : ε → Nat) : Prop :=
  ∀ s e s', M.Reached s → M.step s e = some s' → potential s' + 1 = potential s + cost e

/-- Unless a state inside is final, some event that costs nothing leads to another state inside. -/
def Progresses (M : Machine σ ε) (cost : ε → Nat) (Inside Final : σ → Prop) : Prop :=
  ∀ s, M.Reached s → Inside s → Final s ∨ ∃ e s', cost e = 0 ∧ M.step s e = some s' ∧ Inside s'

theorem Drains.run (h : M.Drains potential cost) {s s' : σ} (hs : M.Reached s) {es : List ε}
    (hrun : M.run s es = some s') : es.length + potential s' = potential s + (es.map cost).sum := by
  induction es generalizing s with
  | nil =>
    obtain rfl := Option.some.inj hrun
    simp
  | cons e es ih =>
    obtain ⟨t, ht, hrest⟩ := Option.bind_eq_some_iff.mp hrun
    have hstep := h s e t hs ht
    have htail := ih (.next hs trivial ht) hrest
    rw [List.length_cons, List.map_cons, List.sum_cons]
    omega

theorem Progresses.exists_run (h : M.Progresses cost Inside Final) (hdrains : M.Drains potential cost) {s : σ}
    (hs : M.Reached s) (hinside : Inside s) :
    ∃ es s', M.run s es = some s' ∧ (∀ e ∈ es, cost e = 0) ∧ Final s' := by
  induction hn : potential s using Nat.strong_induction_on generalizing s with
  | _ n ih =>
    rcases h s hs hinside with hfinal | ⟨e, t, hfree, ht, hkept⟩
    · exact ⟨[], s, rfl, fun _ he => absurd he List.not_mem_nil, hfinal⟩
    · have hstep := hdrains s e t hs ht
      obtain ⟨es, s', hrun, hcost, hfinal⟩ := ih (potential t) (by omega) (.next hs trivial ht) hkept rfl
      refine ⟨e :: es, s', ?_, ?_, hfinal⟩
      · rw [Machine.run, ht]
        exact hrun
      · intro e' he'
        rcases List.mem_cons.mp he' with rfl | he'
        · exact hfree
        · exact hcost e' he'

end Lib.Machine
