import Mathlib

/-!
# Serving demands in order

The keys of a list ask for numbers below `total`, each for `demand k` of them, and are served in order:
`share k` starts where the demands listed before `k` end, and is cut at `total`. The shares are disjoint,
none exceeds its demand, and they cover all the numbers as soon as the demands do.
-/

namespace Lib.Allocation
variable {κ : Type*} [DecidableEq κ] (demand : κ → Nat)

/-- What the keys listed before `k` ask for. -/
def before : List κ → κ → Nat
  | [], _ => 0
  | k' :: rest, k => if k' = k then 0 else demand k' + before rest k

@[simp] theorem before_cons_self (k : κ) (rest : List κ) : before demand (k :: rest) k = 0 := by
  simp [before]

theorem before_cons_of_ne {k k' : κ} (h : k' ≠ k) (rest : List κ) :
    before demand (k' :: rest) k = demand k' + before demand rest k := by
  simp [before, h]

theorem before_append {k : κ} {served : List κ} (h : k ∉ served) (rest : List κ) :
    before demand (served ++ rest) k = (served.map demand).sum + before demand rest k := by
  induction served with
  | nil => simp
  | cons a served ih =>
    obtain ⟨hne, hnotin⟩ := not_or.mp (mt List.mem_cons.mpr h)
    rw [List.cons_append, before_cons_of_ne demand (Ne.symm hne), ih hnotin, List.map_cons, List.sum_cons]
    omega

theorem before_add_le {order : List κ} {k k' : κ} (hk : k ∈ order) (hk' : k' ∈ order) (hne : k ≠ k') :
    before demand order k + demand k ≤ before demand order k' ∨
      before demand order k' + demand k' ≤ before demand order k := by
  induction order with
  | nil => cases hk
  | cons a rest ih =>
    by_cases ha : a = k
    · subst ha
      rw [before_cons_self, before_cons_of_ne demand hne]
      omega
    · by_cases ha' : a = k'
      · subst ha'
        rw [before_cons_self, before_cons_of_ne demand hne.symm]
        omega
      · rw [before_cons_of_ne demand ha, before_cons_of_ne demand ha']
        have := ih (List.mem_of_ne_of_mem (Ne.symm ha) hk) (List.mem_of_ne_of_mem (Ne.symm ha') hk')
        omega

theorem exists_within {order : List κ} (hnodup : order.Nodup) {x : Nat} (hx : x < (order.map demand).sum) :
    ∃ k ∈ order, before demand order k ≤ x ∧ x < before demand order k + demand k := by
  induction order generalizing x with
  | nil => simp at hx
  | cons a rest ih =>
    rw [List.map_cons, List.sum_cons] at hx
    by_cases hfirst : x < demand a
    · exact ⟨a, List.mem_cons_self, by simp, by simpa using hfirst⟩
    · obtain ⟨hnotin, hrest⟩ := List.nodup_cons.mp hnodup
      obtain ⟨k, hk, hlo, hhi⟩ := ih hrest (x := x - demand a) (by omega)
      have hne : a ≠ k := by
        intro h
        exact hnotin (h ▸ hk)
      refine ⟨k, List.mem_cons_of_mem _ hk, ?_⟩
      rw [before_cons_of_ne demand hne]
      omega

variable (total : Nat) (order : List κ)

def share (k : κ) : List Nat :=
  List.range' (before demand order k) (min (demand k) (total - before demand order k))

variable {demand total order}

theorem mem_share {k : κ} {x : Nat} :
    x ∈ share demand total order k ↔
      before demand order k ≤ x ∧ x < before demand order k + demand k ∧ x < total := by
  rw [share, List.mem_range'_1]
  omega

theorem length_share_le (k : κ) : (share demand total order k).length ≤ demand k := by
  rw [share, List.length_range']
  exact Nat.min_le_left _ _

theorem nodup_share (k : κ) : (share demand total order k).Nodup := List.nodup_range'

theorem share_disjoint {k k' : κ} (hk : k ∈ order) (hk' : k' ∈ order) (hne : k ≠ k') :
    (share demand total order k).Disjoint (share demand total order k') := by
  intro x hx hx'
  rw [mem_share] at hx hx'
  have := before_add_le demand hk hk' hne
  omega

theorem exists_mem_share (hnodup : order.Nodup) (hsum : total ≤ (order.map demand).sum) {x : Nat}
    (hx : x < total) : ∃ k ∈ order, x ∈ share demand total order k := by
  obtain ⟨k, hk, hlo, hhi⟩ := exists_within demand hnodup (lt_of_lt_of_le hx hsum)
  exact ⟨k, hk, mem_share.mpr ⟨hlo, hhi, hx⟩⟩

theorem share_ne_nil {k : κ} (hdemand : 0 < demand k) (hroom : before demand order k < total) :
    share demand total order k ≠ [] := by
  have : before demand order k ∈ share demand total order k := mem_share.mpr ⟨le_rfl, by omega, hroom⟩
  exact List.ne_nil_of_mem this

end Lib.Allocation
