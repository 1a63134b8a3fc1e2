import Mathlib

/-!
# Machines, runs and invariants

A machine is a set of initial states and a partial step function: `step s e` is the state that event
`e` leads to, and `none` when `s` does not allow `e`. All the nondeterminism of a system (which party
moves, which message it takes, what a random draw returns) sits in the event.

`ReachedUnder guard` is reachability by runs all of whose steps meet `guard`, a condition on the event
and the state before it; `Reached` puts no condition. `ReachedUnder.invariant` is the one induction on
runs; `runUnder` executes a list of events, and `reachedUnder_of_runUnder` turns such an execution
into reachability. `PassesUnder` and `Passes` keep all states of a run, for what is said about several of
them.
-/

namespace Lib

structure Machine (σ ε : Type*) where
  initial : σ → Prop
  step : σ → ε → Option σ

namespace Machine
variable {σ ε : Type*} (M : Machine σ ε)

/-- The states reached by runs whose steps all meet `guard`. -/
inductive ReachedUnder (guard : σ → ε → Prop) : σ → Prop
  | start {s : σ} (hs : M.initial s) : ReachedUnder guard s
  | next {s s' : σ} {e : ε} (hr : ReachedUnder guard s) (hg : guard s e) (he : M.step s e = some s') :
      ReachedUnder guard s'

abbrev Reached : σ → Prop := M.ReachedUnder fun _ _ => True

variable {M}

theorem ReachedUnder.mono {guard guard' : σ → ε → Prop} (h : ∀ s e, guard s e → guard' s e) {s : σ}
    (hr : M.ReachedUnder guard s) : M.ReachedUnder guard' s := by
  induction hr with
  | start hs => exact .start hs
  | next _ hg he ih => exact .next ih (h _ _ hg) he

theorem ReachedUnder.invariant {guard : σ → ε → Prop} {P : σ → Prop}
    (hinit : ∀ s, M.initial s → P s)
    (hstep : ∀ s e s', P s → guard s e → M.step s e = some s' → P s') {s : σ}
    (hr : M.ReachedUnder guard s) : P s := by
  induction hr with
  | start hs => exact hinit _ hs
  | next _ hg he ih => exact hstep _ _ _ ih hg he

variable (M)

/-- The states that a run goes through whose steps all meet `guard`, the last one first. -/
inductive PassesUnder (guard : σ → ε → Prop) : List σ → Prop
  | start {s : σ} (hs : M.initial s) : PassesUnder guard [s]
  | next {s s' : σ} {ss : List σ} {e : ε} (hr : PassesUnder guard (s :: ss)) (hg : guard s e)
      (he : M.step s e = some s') : PassesUnder guard (s' :: s :: ss)

abbrev Passes : List σ → Prop := M.PassesUnder fun _ _ => True

variable {M}

theorem PassesUnder.reached {guard : σ → ε → Prop} {ss : List σ} (h : M.PassesUnder guard ss) :
    ∀ s ∈ ss, M.ReachedUnder guard s := by
  induction h with
  | start hs =>
    intro s hmem
    obtain rfl := List.mem_singleton.mp hmem
    exact .start hs
  | next hr hg he ih =>
    intro s hmem
    rcases List.mem_cons.mp hmem with rfl | hmem
    · exact .next (ih _ List.mem_cons_self) hg he
    · exact ih s hmem

theorem ReachedUnder.exists_passes {guard : σ → ε → Prop} {s : σ} (h : M.ReachedUnder guard s) :
    ∃ ss, M.PassesUnder guard (s :: ss) := by
  induction h with
  | start hs => exact ⟨[], .start hs⟩
  | next _ hg he ih =>
    obtain ⟨ss, hpasses⟩ := ih
    exact ⟨_, .next hpasses hg he⟩

theorem PassesUnder.carried {guard : σ → ε → Prop} {Q : σ → Prop}
    (hkeep : ∀ s e s', M.step s e = some s' → Q s → Q s') {ss : List σ} (h : M.PassesUnder guard ss) :
    ∀ last ∈ ss.head?, ∀ s ∈ ss, Q s → Q last := by
  induction h with
  | start hs =>
    intro last hlast s hmem hq
    obtain rfl := Option.some.inj hlast
    obtain rfl := List.mem_singleton.mp hmem
    exact hq
  | next hr hg he ih =>
    intro last hlast s hmem hq
    obtain rfl := Option.some.inj hlast
    rcases List.mem_cons.mp hmem with rfl | hmem
    · exact hq
    · exact hkeep _ _ _ he (ih _ rfl s hmem hq)

variable (M)

/-- Executes a list of events, stopping at the first one that is not allowed or misses the guard. -/
def runUnder (guard : σ → ε → Prop) [∀ s e, Decidable (guard s e)] (s : σ) : List ε → Option σ
  | [] => some s
  | e :: es => if guard s e then (M.step s e).bind fun s' => runUnder guard s' es else none

def run (s : σ) : List ε → Option σ
  | [] => some s
  | e :: es => (M.step s e).bind fun s' => run s' es

variable {M}

theorem reachedUnder_of_runUnder {guard : σ → ε → Prop} [∀ s e, Decidable (guard s e)] {s : σ}
    (hs : M.ReachedUnder guard s) {es : List ε} {s' : σ} (h : M.runUnder guard s es = some s') :
    M.ReachedUnder guard s' := by
  induction es generalizing s with
  | nil => exact Option.some.inj h ▸ hs
  | cons e es ih =>
    rw [runUnder] at h
    split_ifs at h with hg
    obtain ⟨t, ht, hrest⟩ := Option.bind_eq_some_iff.mp h
    exact ih (.next hs hg ht) hrest

theorem passesUnder_of_runUnder {guard : σ → ε → Prop} [∀ s e, Decidable (guard s e)] {s : σ}
    {ss : List σ} (hs : M.PassesUnder guard (s :: ss)) {es : List ε} {s' : σ}
    (h : M.runUnder guard s es = some s') : ∃ ss', M.PassesUnder guard (s' :: ss') := by
  induction es generalizing s ss with
  | nil => exact ⟨ss, Option.some.inj h ▸ hs⟩
  | cons e es ih =>
    rw [runUnder] at h
    split_ifs at h with hg
    obtain ⟨t, ht, hrest⟩ := Option.bind_eq_some_iff.mp h
    exact ih (.next hs hg ht) hrest

theorem reached_of_run {s : σ} (hs : M.Reached s) {es : List ε} {s' : σ}
    (h : M.run s es = some s') : M.Reached s' := by
  induction es generalizing s with
  | nil => exact Option.some.inj h ▸ hs
  | cons e es ih =>
    rw [run] at h
    obtain ⟨t, ht, hrest⟩ := Option.bind_eq_some_iff.mp h
    exact ih (.next hs trivial ht) hrest

theorem run_append (s : σ) (es es' : List ε) : M.run s (es ++ es') = (M.run s es).bind fun s' => M.run s' es' := by
  induction es generalizing s with
  | nil => rfl
  | cons e es ih =>
    rw [List.cons_append, run, run, Option.bind_assoc]
    congr 1
    funext t
    exact ih t

end Machine

end Lib
