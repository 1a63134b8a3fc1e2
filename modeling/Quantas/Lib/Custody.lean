import Mathlib

/-!
# Custody of keys

A party takes keys into its custody and keeps each one in exactly one place until it is done: waiting,
ready, held (one key at most), or done. `Custody` has these places, and the operations that move keys
between them; `Sound` says that every known key is in exactly one place and every other key in no queue.

A key may be done before the party knows it, so accepting such a key puts it in two places. `Loose` allows
for that, and the two operations that empty the waiting place (`promote`, `sweep`) drop what is done and
lead back to `Sound`.
-/

namespace Lib

structure Custody (κ : Type*) where
  known : Finset κ
  done : Finset κ
  waiting : List κ
  ready : List κ
  held : Option κ

namespace Custody
variable {κ : Type*} [DecidableEq κ] (valid : κ → Bool) (c : Custody κ)

def queued (k : κ) : Nat :=
  c.waiting.count k + c.ready.count k + if c.held = some k then 1 else 0

def places (k : κ) : Nat := (if k ∈ c.done then 1 else 0) + c.queued k

def live (k : κ) : Bool := valid k ∧ k ∉ c.done

def accept (k : κ) : Custody κ :=
  if valid k ∧ k ∉ c.known then { c with known := insert k c.known, waiting := c.waiting ++ [k] } else c

def promote : Custody κ :=
  { c with waiting := [], ready := c.ready ++ c.waiting.filter (c.live valid) }

def sweep : Custody κ := { c with waiting := c.waiting.filter (c.live valid) }

def start : Custody κ :=
  match c.ready.dropWhile fun k => !c.live valid k with
  | [] => { c with ready := [] }
  | k :: rest => { c with ready := rest, held := some k }

def requeue : Custody κ :=
  match c.held with
  | none => c
  | some k => { c with ready := if c.live valid k then k :: c.ready else c.ready, held := none }

def release : Custody κ := { c with held := none }

def finish (k : κ) : Custody κ :=
  { c with
    done := insert k c.done
    waiting := c.waiting.filter (· ≠ k)
    ready := c.ready.filter (· ≠ k) }

/-- Every known key is valid and in exactly one place, and an unknown key is in no queue. -/
structure Sound : Prop where
  one : ∀ k ∈ c.known, c.places k = 1
  nowhere : ∀ k ∉ c.known, c.queued k = 0
  valid : ∀ k ∈ c.known, valid k = true

/-- As `Sound`, but a key that is done may still wait. -/
structure Loose : Prop where
  one : ∀ k ∈ c.known, k ∉ c.done → c.queued k = 1
  dead : ∀ k ∈ c.known, k ∈ c.done → c.ready.count k = 0 ∧ c.held ≠ some k
  nowhere : ∀ k ∉ c.known, c.queued k = 0
  valid : ∀ k ∈ c.known, valid k = true

variable {valid c}

theorem Sound.loose (h : Sound valid c) : Loose valid c := by
  refine ⟨fun k hk hdone => ?_, fun k hk hdone => ?_, h.nowhere, h.valid⟩
  · have := h.one k hk
    rwa [places, if_neg hdone, Nat.zero_add] at this
  · have hone := h.one k hk
    rw [places, if_pos hdone, queued] at hone
    refine ⟨by omega, fun hheld => ?_⟩
    rw [if_pos hheld] at hone
    omega

theorem Sound.live_of_queued (h : Sound valid c) {k : κ} (hk : 0 < c.queued k) :
    k ∈ c.known ∧ c.live valid k = true := by
  have hknown : k ∈ c.known := by
    by_contra hunknown
    have := h.nowhere k hunknown
    omega
  have hone := h.one k hknown
  have hdone : k ∉ c.done := by
    intro hdone
    rw [places, if_pos hdone] at hone
    omega
  exact ⟨hknown, by simp [live, h.valid k hknown, hdone]⟩

theorem Sound.live_of_ready (h : Sound valid c) {k : κ} (hk : k ∈ c.ready) : c.live valid k = true := by
  have := List.count_pos_iff.mpr hk
  exact (h.live_of_queued (by rw [queued]; omega)).2

theorem Sound.live_of_held (h : Sound valid c) {k : κ} (hk : c.held = some k) :
    c.live valid k = true :=
  (h.live_of_queued (by rw [queued, if_pos hk]; omega)).2

theorem Sound.valid_of_held (h : Sound valid c) {k : κ} (hheld : c.held = some k) : valid k = true :=
  h.valid k (h.live_of_queued (by rw [queued, if_pos hheld]; omega)).1

theorem Sound.notMem_ready_of_held (h : Sound valid c) {k : κ} (hheld : c.held = some k) :
    k ∉ c.ready := by
  intro hready
  have hcount := List.count_pos_iff.mpr hready
  have hone := h.one k (h.live_of_queued (by rw [queued, if_pos hheld]; omega)).1
  rw [places, queued, if_pos hheld] at hone
  omega

/-! ## Accepting -/

theorem Sound.accept_loose (h : Sound valid c) (k : κ) : Loose valid (c.accept valid k) := by
  unfold accept
  split_ifs with hnew
  swap
  · exact h.loose
  obtain ⟨hvalid, hunknown⟩ := hnew
  have hnone := h.nowhere k hunknown
  rw [queued] at hnone
  refine ⟨fun k' hk' hdone => ?_, fun k' hk' hdone => ?_, fun k' hk' => ?_, fun k' hk' => ?_⟩
  · rw [queued, List.count_append, List.count_singleton]
    rcases Finset.mem_insert.mp hk' with rfl | hk'
    · rw [beq_self_eq_true, if_pos rfl]
      dsimp only
      omega
    · have hne : k ≠ k' := fun he => hunknown (he ▸ hk')
      have hone := h.loose.one k' hk' hdone
      rw [queued] at hone
      rw [if_neg (by simpa using hne)]
      exact hone
  · rcases Finset.mem_insert.mp hk' with rfl | hk'
    · refine ⟨show c.ready.count k' = 0 by omega, fun hheld => ?_⟩
      rw [if_pos hheld] at hnone
      omega
    · exact h.loose.dead k' hk' hdone
  · rw [Finset.mem_insert, not_or] at hk'
    have hzero := h.nowhere k' hk'.2
    rw [queued] at hzero
    rw [queued, List.count_append, List.count_singleton, if_neg (by simpa using Ne.symm hk'.1)]
    exact hzero
  · rcases Finset.mem_insert.mp hk' with rfl | hk'
    · exact hvalid
    · exact h.valid k' hk'

theorem Sound.accept (h : Sound valid c) {k : κ} (hdone : valid k → k ∈ c.done → k ∈ c.known) :
    Sound valid (c.accept valid k) := by
  have hloose := h.accept_loose k
  have hwaiting : ∀ k' ∈ (c.accept valid k).known, k' ∈ (c.accept valid k).done →
      (c.accept valid k).waiting.count k' = 0 := by
    unfold Custody.accept
    split_ifs with hnew
    · intro k' hk' hdone'
      have hne : k ≠ k' := by
        rintro rfl
        exact hnew.2 (hdone hnew.1 hdone')
      have hold := h.one k' (Finset.mem_of_mem_insert_of_ne hk' hne.symm)
      rw [places, if_pos hdone', queued] at hold
      rw [List.count_append, List.count_singleton, if_neg (by simpa using hne)]
      omega
    · intro k' hk' hdone'
      have hold := h.one k' hk'
      rw [places, if_pos hdone', queued] at hold
      omega
  refine ⟨fun k' hk' => ?_, hloose.nowhere, hloose.valid⟩
  by_cases hdone' : k' ∈ (c.accept valid k).done
  · obtain ⟨hready, hheld⟩ := hloose.dead k' hk' hdone'
    rw [places, if_pos hdone', queued, hwaiting k' hk' hdone', hready, if_neg hheld]
  · rw [places, if_neg hdone', hloose.one k' hk' hdone']

theorem count_filter_live (k : κ) (l : List κ) :
    (l.filter (c.live valid)).count k = if c.live valid k then l.count k else 0 := by
  by_cases hlive : c.live valid k = true
  · rw [if_pos hlive, List.count_filter hlive]
  · rw [if_neg hlive, List.count_eq_zero]
    intro hk
    exact hlive (List.mem_filter.mp hk).2

theorem Loose.live_iff (h : Loose valid c) {k : κ} (hk : k ∈ c.known) :
    c.live valid k = true ↔ k ∉ c.done := by
  simp [live, h.valid k hk]

theorem Loose.promote (h : Loose valid c) : Sound valid (c.promote valid) := by
  refine ⟨fun k hk => ?_, fun k hk => ?_, h.valid⟩
  · rw [places, queued, Custody.promote]
    simp only [List.count_nil, List.count_append, count_filter_live, h.live_iff hk]
    by_cases hdone : k ∈ c.done
    · obtain ⟨hready, hheld⟩ := h.dead k hk hdone
      simp [hdone, hready, hheld]
    · have hone := h.one k hk hdone
      rw [queued] at hone
      simp only [hdone, not_false_eq_true, if_true, if_false]
      omega
  · have hzero := h.nowhere k hk
    rw [queued] at hzero
    rw [queued, Custody.promote]
    simp only [List.count_nil, List.count_append, count_filter_live]
    split_ifs at hzero ⊢ <;> omega

theorem Loose.sweep (h : Loose valid c) : Sound valid (c.sweep valid) := by
  refine ⟨fun k hk => ?_, fun k hk => ?_, h.valid⟩
  · rw [places, queued, Custody.sweep]
    simp only [count_filter_live, h.live_iff hk]
    by_cases hdone : k ∈ c.done
    · obtain ⟨hready, hheld⟩ := h.dead k hk hdone
      simp [hdone, hready, hheld]
    · have hone := h.one k hk hdone
      rw [queued] at hone
      simp only [hdone, not_false_eq_true, if_true, if_false]
      omega
  · have hzero := h.nowhere k hk
    rw [queued] at hzero
    rw [queued, Custody.sweep]
    simp only [count_filter_live]
    split_ifs at hzero ⊢ <;> omega

/-! ## Holding, giving back and finishing -/

theorem Sound.of_queued {c' : Custody κ} (h : Sound valid c) (hknown : c'.known = c.known)
    (hdone : c'.done = c.done) (hqueued : ∀ k, c'.queued k = c.queued k) : Sound valid c' := by
  refine ⟨fun k hk => ?_, fun k hk => ?_, fun k hk => h.valid k (hknown ▸ hk)⟩
  · rw [places, hdone, hqueued]
    exact h.one k (hknown ▸ hk)
  · rw [hqueued]
    exact h.nowhere k (hknown ▸ hk)

theorem Sound.start_eq (h : Sound valid c) : c.start valid = match c.ready with
    | [] => c
    | k :: rest => { c with ready := rest, held := some k } := by
  unfold Custody.start
  cases hready : c.ready with
  | nil =>
    change { c with ready := [] } = c
    rw [← hready]
  | cons k rest =>
    have hlive := h.live_of_ready (hready ▸ List.mem_cons_self : k ∈ c.ready)
    rw [List.dropWhile_cons, hlive]
    rfl

theorem Sound.start (h : Sound valid c) (hheld : c.held = none) : Sound valid (c.start valid) := by
  rw [h.start_eq]
  cases hready : c.ready with
  | nil => exact h
  | cons k rest =>
    refine h.of_queued rfl rfl fun k' => ?_
    rw [queued, queued, hheld, hready, List.count_cons]
    by_cases hk : k = k' <;> simp [hk, Nat.add_assoc]

theorem Sound.requeue (h : Sound valid c) : Sound valid (c.requeue valid) := by
  unfold Custody.requeue
  cases hheld : c.held with
  | none => exact h
  | some k =>
    refine h.of_queued rfl rfl fun k' => ?_
    simp only [queued, hheld, h.live_of_held hheld, if_true, List.count_cons]
    by_cases hk : k = k' <;> simp [hk, Nat.add_assoc]

theorem count_filter_ne (k k' : κ) (l : List κ) :
    (l.filter (· ≠ k)).count k' = if k' = k then 0 else l.count k' := by
  by_cases hk : k' = k
  · subst hk
    rw [if_pos rfl, List.count_eq_zero]
    intro hmem
    simpa using (List.mem_filter.mp hmem).2
  · rw [if_neg hk, List.count_filter (by simpa using hk)]

theorem Sound.finish (h : Sound valid c) {k : κ} (hheld : c.held ≠ some k) :
    Sound valid (c.finish k) := by
  refine ⟨fun k' hk' => ?_, fun k' hk' => ?_, h.valid⟩
  · rw [places, queued, Custody.finish]
    simp only [count_filter_ne, Finset.mem_insert]
    by_cases hk : k' = k
    · subst hk
      simp [hheld]
    · have hone := h.one k' hk'
      rw [places, queued] at hone
      simpa [hk] using hone
  · have hzero := h.nowhere k' hk'
    rw [queued] at hzero
    rw [queued, Custody.finish]
    simp only [count_filter_ne]
    split_ifs at hzero ⊢ <;> omega

theorem Sound.finish_held (h : Sound valid c) {k : κ} (hheld : c.held = some k) :
    Sound valid (c.finish k).release := by
  have hfree : ∀ k', k' ≠ k → (c.finish k).release.queued k' = c.queued k' := by
    intro k' hk
    simp only [queued, Custody.finish, Custody.release, count_filter_ne, hheld]
    simp [hk, Ne.symm hk]
  refine ⟨fun k' hk' => ?_, fun k' hk' => ?_, h.valid⟩
  · by_cases hk : k' = k
    · subst hk
      simp only [places, queued, Custody.finish, Custody.release, count_filter_ne]
      simp
    · rw [places, hfree k' hk]
      have hone := h.one k' hk'
      rw [places] at hone
      simpa [Custody.finish, Custody.release, hk] using hone
  · have hk : k' ≠ k := by
      rintro rfl
      exact hk' (h.live_of_queued (by rw [queued, if_pos hheld]; omega)).1
    rw [hfree k' hk]
    exact h.nowhere k' hk'

end Custody

end Lib
