import Mathlib

/-!
# Worklist traversals

`visitAll succ add` takes entries from the front of a worklist, skips those visited before, and visits the
others, adding their successors to the list with `add`: at the front it is a depth-first search with a
stack, at the back a breadth-first search with a queue. It returns the entries in the order of their visits.

Every entry visited is a start or a successor of an earlier one (`visitAll_order`). With more fuel than
entries and edges in a set that the successors do not leave, all that can be reached is visited
(`mem_visitAll`).
-/

namespace Lib

variable {α : Type*} [DecidableEq α]

/-- Visits what is reached from the worklist `todo`, in the order `add` asks for. -/
def visitAll (succ : α → List α) (add : List α → List α → List α) :
    Nat → List α → List α → List α
  | 0, _, visited => visited
  | _ + 1, [], visited => visited
  | fuel + 1, x :: rest, visited =>
    if x ∈ visited then visitAll succ add fuel rest visited
    else visitAll succ add fuel (add (succ x) rest) (visited ++ [x])

variable {succ : α → List α} {add : List α → List α → List α}

theorem visitAll_shape (succ : α → List α) (hadd : ∀ s r, (add s r).Perm (s ++ r)) (fuel : Nat)
    (todo visited : List α) :
    ∃ l, visitAll succ add fuel todo visited = visited ++ l ∧ l.Nodup ∧ (∀ x ∈ l, x ∉ visited) ∧
      ∀ l₁ x l₂, l = l₁ ++ x :: l₂ → x ∈ todo ∨ ∃ y ∈ l₁, x ∈ succ y := by
  induction fuel generalizing todo visited with
  | zero => exact ⟨[], by simp [visitAll]⟩
  | succ fuel ih =>
    cases todo with
    | nil => exact ⟨[], by simp [visitAll]⟩
    | cons x rest =>
      rw [visitAll]
      by_cases hx : x ∈ visited
      · obtain ⟨l, hl, hnodup, hnew, horder⟩ := ih rest visited
        rw [if_pos hx]
        refine ⟨l, hl, hnodup, hnew, fun l₁ y l₂ hsplit => ?_⟩
        exact (horder l₁ y l₂ hsplit).imp_left (List.mem_cons_of_mem x)
      · obtain ⟨l, hl, hnodup, hnew, horder⟩ := ih (add (succ x) rest) (visited ++ [x])
        rw [if_neg hx]
        refine ⟨x :: l, by rw [hl, List.append_assoc, List.singleton_append], ?_, ?_, ?_⟩
        · exact List.nodup_cons.mpr ⟨fun hmem => hnew x hmem (by simp), hnodup⟩
        · intro y hy
          rcases List.mem_cons.mp hy with rfl | hy
          · exact hx
          · exact fun hvisited => hnew y hy (List.mem_append_left _ hvisited)
        · intro l₁ y l₂ hsplit
          cases l₁ with
          | nil =>
            rw [List.nil_append, List.cons.injEq] at hsplit
            exact .inl (hsplit.1 ▸ List.mem_cons_self)
          | cons z l₁ =>
            rw [List.cons_append, List.cons.injEq] at hsplit
            obtain ⟨rfl, hsplit⟩ := hsplit
            rcases horder l₁ y l₂ hsplit with hy | ⟨w, hw, hy⟩
            · rcases List.mem_append.mp ((hadd _ _).mem_iff.mp hy) with hy | hy
              · exact .inr ⟨x, List.mem_cons_self, hy⟩
              · exact .inl (List.mem_cons_of_mem x hy)
            · exact .inr ⟨w, List.mem_cons_of_mem x hw, hy⟩

theorem visitAll_closed (hadd : ∀ s r, (add s r).Perm (s ++ r)) {U : Finset α}
    (hU : ∀ x ∈ U, ∀ y ∈ succ x, y ∈ U) (fuel : Nat) (todo visited : List α) (htodo : ∀ x ∈ todo, x ∈ U)
    (hfuel : todo.length + ∑ x ∈ U.filter (· ∉ visited), (succ x).length < fuel) :
    (∀ x ∈ todo, x ∈ visitAll succ add fuel todo visited) ∧
    ∀ x ∈ visitAll succ add fuel todo visited, x ∉ visited →
      ∀ y ∈ succ x, y ∈ visitAll succ add fuel todo visited := by
  induction fuel generalizing todo visited with
  | zero => omega
  | succ fuel ih =>
    cases todo with
    | nil => exact ⟨by simp, fun x hx hnew => absurd hx hnew⟩
    | cons x rest =>
      rw [visitAll]
      rw [List.length_cons] at hfuel
      by_cases hx : x ∈ visited
      · rw [if_pos hx]
        obtain ⟨hall, hclosed⟩ := ih rest visited (fun y hy => htodo y (List.mem_cons_of_mem x hy))
          (by omega)
        obtain ⟨l, hl, -⟩ := visitAll_shape succ hadd fuel rest visited
        refine ⟨fun y hy => ?_, hclosed⟩
        rcases List.mem_cons.mp hy with rfl | hy
        · rw [hl]
          exact List.mem_append_left _ hx
        · exact hall y hy
      · rw [if_neg hx]
        have hxU := htodo x List.mem_cons_self
        -- a visit trades the successors of `x` for entries of the worklist
        have hunvisited : U.filter (· ∉ visited ++ [x]) = (U.filter (· ∉ visited)).erase x := by
          ext y
          simp only [Finset.mem_filter, Finset.mem_erase, List.mem_append, List.mem_singleton]
          tauto
        have hsum := Finset.add_sum_erase (U.filter (· ∉ visited)) (fun y => (succ y).length)
          (Finset.mem_filter.mpr ⟨hxU, hx⟩)
        have hlength : (add (succ x) rest).length = (succ x).length + rest.length := by
          rw [(hadd _ _).length_eq, List.length_append]
        obtain ⟨hall, hclosed⟩ := ih (add (succ x) rest) (visited ++ [x]) (fun y hy => by
          rcases List.mem_append.mp ((hadd _ _).mem_iff.mp hy) with hy | hy
          · exact hU x hxU y hy
          · exact htodo y (List.mem_cons_of_mem x hy)) (by rw [hunvisited, hlength]; omega)
        obtain ⟨l, hl, -⟩ :=
          visitAll_shape succ hadd fuel (add (succ x) rest) (visited ++ [x])
        have hxout : x ∈ visitAll succ add fuel (add (succ x) rest) (visited ++ [x]) := by
          rw [hl]
          simp
        refine ⟨fun y hy => ?_, fun y hy hnew z hz => ?_⟩
        · rcases List.mem_cons.mp hy with rfl | hy
          · exact hxout
          · exact hall y ((hadd _ _).mem_iff.mpr (List.mem_append_right _ hy))
        · by_cases hyx : y = x
          · subst hyx
            exact hall z ((hadd _ _).mem_iff.mpr (List.mem_append_left _ hz))
          · exact hclosed y hy (by simp [hnew, hyx]) z hz

theorem nodup_visitAll (hadd : ∀ s r, (add s r).Perm (s ++ r)) (fuel : Nat) (todo : List α) :
    (visitAll succ add fuel todo []).Nodup := by
  obtain ⟨l, hl, hnodup, -⟩ := visitAll_shape succ hadd fuel todo []
  rw [hl]
  exact hnodup

theorem visitAll_order (hadd : ∀ s r, (add s r).Perm (s ++ r)) {fuel : Nat} {todo l₁ l₂ : List α} {x : α}
    (h : visitAll succ add fuel todo [] = l₁ ++ x :: l₂) : x ∈ todo ∨ ∃ y ∈ l₁, x ∈ succ y := by
  obtain ⟨l, hl, -, -, horder⟩ := visitAll_shape succ hadd fuel todo []
  exact horder l₁ x l₂ ((List.nil_append l ▸ hl.symm).trans h)

theorem mem_visitAll (hadd : ∀ s r, (add s r).Perm (s ++ r)) {U : Finset α}
    (hU : ∀ x ∈ U, ∀ y ∈ succ x, y ∈ U) {fuel : Nat} {s : α} (hs : s ∈ U)
    (hfuel : 1 + ∑ x ∈ U, (succ x).length < fuel) {x : α} :
    x ∈ visitAll succ add fuel [s] [] ↔ Relation.ReflTransGen (fun a b => b ∈ succ a) s x := by
  obtain ⟨hstart, hclosed⟩ := visitAll_closed hadd hU fuel [s] []
    (fun y hy => List.mem_singleton.mp hy ▸ hs) (by simpa using hfuel)
  constructor
  · intro hx
    -- by induction on the position of the visit
    obtain ⟨l₁, l₂, hsplit⟩ := List.append_of_mem hx
    induction hn : l₁.length using Nat.strong_induction_on generalizing x l₁ l₂ with
    | _ n ih =>
      rcases visitAll_order hadd hsplit with hx | ⟨y, hy, hxy⟩
      · rw [List.mem_singleton.mp hx]
      · obtain ⟨k₁, k₂, hk⟩ := List.append_of_mem hy
        have hshorter : k₁.length < n := by
          rw [← hn, hk, List.length_append, List.length_cons]
          omega
        have hsplit' : visitAll succ add fuel [s] [] = k₁ ++ y :: (k₂ ++ x :: l₂) := by
          rw [hsplit, hk, List.append_assoc, List.cons_append]
        have hy' : y ∈ visitAll succ add fuel [s] [] := by
          rw [hsplit']
          simp
        exact (ih k₁.length hshorter hy' k₁ _ hsplit' rfl).tail hxy
  · intro hreach
    induction hreach with
    | refl => exact hstart s List.mem_cons_self
    | tail _ hstep ih => exact hclosed _ ih List.not_mem_nil _ hstep

end Lib
