import Mathlib

/-!
# Finite graphs without cycles

A `Dag` has finitely many vertices, and every edge ends in one. `rank` counts what can be reached from a
vertex; it falls along every edge, so paths are bounded and a longest one exists (`exists_longest`,
`exists_deepest`). `paths` counts the paths that begin at a vertex. There are at least as many as vertices
that can be reached, and as many only if each of these can be reached in one way (`paths_eq_iff`).
-/

namespace Lib

structure Dag (α : Type*) where
  Edge : α → α → Prop
  vertices : Finset α
  mem : ∀ x y, Edge x y → y ∈ vertices
  acyclic : ∀ x, ¬ Relation.TransGen Edge x x

namespace Dag
variable {α : Type*} (G : Dag α)

abbrev Reach (x y : α) : Prop := Relation.ReflTransGen G.Edge x y

inductive Steps (Edge : α → α → Prop) : Nat → α → α → Prop
  | refl (x : α) : Steps Edge 0 x x
  | tail {n : Nat} {x y z : α} (hsteps : Steps Edge n x y) (hedge : Edge y z) : Steps Edge (n + 1) x z

/-- The longest path from `x` to `y` has `n` edges. -/
def Longest (Edge : α → α → Prop) (x y : α) (n : Nat) : Prop := Steps Edge n x y ∧ ∀ m, Steps Edge m x y → m ≤ n

/-- The longest path that begins at `x` has `n` edges. -/
def Deepest (Edge : α → α → Prop) (x : α) (n : Nat) : Prop :=
  (∃ y, Steps Edge n x y) ∧ ∀ m y, Steps Edge m x y → m ≤ n

open Classical in
noncomputable def rank (x : α) : Nat := (G.vertices.filter fun y => Relation.TransGen G.Edge x y).card

open Classical in
noncomputable def succ (x : α) : Finset α := G.vertices.filter fun y => G.Edge x y

variable {G} {x y z : α} {n m : Nat}

theorem mem_succ : y ∈ G.succ x ↔ G.Edge x y := by
  classical
  rw [succ, Finset.mem_filter]
  exact ⟨And.right, fun h => ⟨G.mem x y h, h⟩⟩

theorem mem_vertices (h : Relation.TransGen G.Edge x y) : y ∈ G.vertices := by
  obtain ⟨w, -, hedge⟩ := Relation.TransGen.tail'_iff.mp h
  exact G.mem w y hedge

theorem not_reach_of_edge (h : G.Edge x y) : ¬ G.Reach y x := fun hback =>
  G.acyclic x (Relation.TransGen.head' h hback)

/-! ## Ranks -/

theorem acyclic_of_rank {Edge : α → α → Prop} (rank : α → Nat) (hrank : ∀ x y, Edge x y → rank x < rank y) (x : α) :
    ¬ Relation.TransGen Edge x x := by
  have hlt : ∀ y, Relation.TransGen Edge x y → rank x < rank y := by
    intro y h
    induction h with
    | single hedge => exact hrank _ _ hedge
    | tail _ hedge ih => exact ih.trans (hrank _ _ hedge)
  exact fun h => lt_irrefl _ (hlt x h)

theorem rank_lt (h : G.Edge x y) : G.rank y < G.rank x := by
  classical
  apply Finset.card_lt_card
  rw [Finset.ssubset_iff_of_subset]
  · refine ⟨y, ?_, ?_⟩
    · rw [Finset.mem_filter]
      exact ⟨G.mem x y h, .single h⟩
    · rw [Finset.mem_filter]
      exact fun hy => G.acyclic y hy.2
  · intro z hz
    rw [Finset.mem_filter] at hz ⊢
    exact ⟨hz.1, Relation.TransGen.head h hz.2⟩

theorem rank_le (x : α) : G.rank x ≤ G.vertices.card := by
  classical
  exact Finset.card_filter_le _ _

theorem rank_lt_card (hx : x ∈ G.vertices) : G.rank x < G.vertices.card := by
  classical
  apply Finset.card_lt_card
  rw [Finset.ssubset_iff_of_subset (Finset.filter_subset _ _)]
  refine ⟨x, hx, ?_⟩
  rw [Finset.mem_filter]
  exact fun h => G.acyclic x h.2

theorem induction {motive : α → Prop} (h : ∀ x, (∀ y, G.Edge x y → motive y) → motive x) (x : α) :
    motive x := by
  induction hn : G.rank x using Nat.strong_induction_on generalizing x with
  | _ n ih =>
    refine h x fun y hedge => ih (G.rank y) ?_ y rfl
    rw [← hn]
    exact rank_lt hedge

/-! ## Paths -/

namespace Steps

theorem rank_add_le (h : Steps G.Edge n x y) : G.rank y + n ≤ G.rank x := by
  induction h with
  | refl x => exact le_rfl
  | tail _ hedge ih =>
    have := rank_lt hedge
    omega

theorem reach (h : Steps G.Edge n x y) : G.Reach x y := by
  induction h with
  | refl x => exact .refl
  | tail _ hedge ih => exact ih.tail hedge

theorem head (hedge : G.Edge x y) (h : Steps G.Edge n y z) : Steps G.Edge (n + 1) x z := by
  induction h with
  | refl y => exact .tail (.refl x) hedge
  | tail _ hlast ih => exact .tail (ih hedge) hlast

theorem eq_of_zero {Edge : α → α → Prop} (h : Steps Edge 0 x y) : x = y := by
  cases h with
  | refl => rfl

theorem exists_head (h : Steps G.Edge (n + 1) x z) : ∃ y, G.Edge x y ∧ Steps G.Edge n y z := by
  induction n generalizing z with
  | zero =>
    cases h with
    | tail hsteps hedge =>
      cases hsteps with
      | refl => exact ⟨z, hedge, .refl z⟩
  | succ n ih =>
    cases h with
    | tail hsteps hedge =>
      obtain ⟨y, hfirst, hrest⟩ := ih hsteps
      exact ⟨y, hfirst, .tail hrest hedge⟩

end Steps

theorem Reach.exists_steps (h : G.Reach x y) : ∃ n, Steps G.Edge n x y := by
  induction h with
  | refl => exact ⟨0, .refl x⟩
  | tail _ hedge ih =>
    obtain ⟨n, hn⟩ := ih
    exact ⟨n + 1, .tail hn hedge⟩

/-! ## Longest paths -/

theorem exists_greatest {P : Nat → Prop} (hsome : ∃ n, P n) (bound : Nat) (hbound : ∀ n, P n → n ≤ bound) :
    ∃ n, P n ∧ ∀ m, P m → m ≤ n := by
  classical
  obtain ⟨n, hn⟩ := hsome
  refine ⟨Nat.findGreatest P bound, Nat.findGreatest_spec (hbound n hn) hn, fun m hm => ?_⟩
  exact Nat.le_findGreatest (hbound m hm) hm

theorem exists_longest (h : G.Reach x y) : ∃ n, Longest G.Edge x y n := by
  refine exists_greatest (Reach.exists_steps h) (G.rank x) fun n hn => ?_
  have := hn.rank_add_le
  omega

theorem exists_deepest (x : α) : ∃ n, Deepest G.Edge x n := by
  obtain ⟨n, hn, hmax⟩ := exists_greatest (P := fun n => ∃ y, Steps G.Edge n x y) ⟨0, x, .refl x⟩
    (G.rank x) fun n hn => by
      obtain ⟨y, hy⟩ := hn
      have := hy.rank_add_le
      omega
  exact ⟨n, hn, fun m y hm => hmax m ⟨y, hm⟩⟩

theorem Longest.unique (h : Longest G.Edge x y n) (h' : Longest G.Edge x y m) : n = m :=
  le_antisymm (h'.2 n h.1) (h.2 m h'.1)

theorem Deepest.unique (h : Deepest G.Edge x n) (h' : Deepest G.Edge x m) : n = m := by
  obtain ⟨y, hy⟩ := h.1
  obtain ⟨z, hz⟩ := h'.1
  exact le_antisymm (h'.2 n y hy) (h.2 m z hz)

theorem Longest.self (x : α) : Longest G.Edge x x 0 := by
  refine ⟨.refl x, fun m hm => ?_⟩
  have := hm.rank_add_le
  omega

theorem Longest.exists_pred (h : Longest G.Edge x z (n + 1)) : ∃ y, G.Edge y z ∧ Longest G.Edge x y n := by
  cases h.1 with
  | tail hsteps hedge =>
    refine ⟨_, hedge, hsteps, fun m hm => ?_⟩
    have := h.2 (m + 1) (.tail hm hedge)
    omega

variable (G) in
/-- The length of the longest path that begins at a vertex. -/
noncomputable def depth (x : α) : Nat := (exists_deepest (G := G) x).choose

theorem deepest_depth (x : α) : Deepest G.Edge x (G.depth x) := (exists_deepest x).choose_spec

theorem foldl_max_spec {ι : Type*} (f : ι → Nat) (l : List ι) (start : Nat) :
    start ≤ l.foldl (fun best i => max best (f i)) start ∧
      (∀ i ∈ l, f i ≤ l.foldl (fun best i => max best (f i)) start) ∧
      (l.foldl (fun best i => max best (f i)) start = start ∨
        ∃ i ∈ l, l.foldl (fun best i => max best (f i)) start = f i) := by
  induction l generalizing start with
  | nil => exact ⟨le_rfl, by simp, .inl rfl⟩
  | cons i l ih =>
    obtain ⟨hstart, hall, hattained⟩ := ih (max start (f i))
    rw [List.foldl_cons]
    refine ⟨(le_max_left _ _).trans hstart, ?_, ?_⟩
    · intro j hj
      rcases List.mem_cons.mp hj with rfl | hj
      · exact (le_max_right _ _).trans hstart
      · exact hall j hj
    · rcases hattained with heq | ⟨j, hj, heq⟩
      · rw [heq]
        rcases max_choice start (f i) with h | h
        · exact .inl h
        · exact .inr ⟨i, List.mem_cons_self, h⟩
      · exact .inr ⟨j, List.mem_cons_of_mem _ hj, heq⟩

theorem foldl_depth {l : List α} (hl : ∀ y, y ∈ l ↔ G.Edge x y) :
    l.foldl (fun best y => max best (1 + G.depth y)) 0 = G.depth x := by
  obtain ⟨-, hall, hattained⟩ := foldl_max_spec (fun y => 1 + G.depth y) l 0
  refine Deepest.unique (G := G) (x := x) ⟨?_, fun m z hm => ?_⟩ (deepest_depth x)
  · rcases hattained with heq | ⟨y, hy, heq⟩
    · rw [heq]
      exact ⟨x, .refl x⟩
    · obtain ⟨z, hz⟩ := (deepest_depth (G := G) y).1
      rw [heq, add_comm]
      exact ⟨z, hz.head ((hl y).mp hy)⟩
  · cases m with
    | zero => exact Nat.zero_le _
    | succ m =>
      obtain ⟨y, hedge, hrest⟩ := hm.exists_head
      have := (deepest_depth y).2 m z hrest
      have := hall y ((hl y).mpr hedge)
      omega

/-! ## Counting paths -/

variable (G)

/-- How many paths of less than `n` edges begin at a vertex. -/
noncomputable def pathsBelow : Nat → α → Nat
  | 0, _ => 0
  | n + 1, x => 1 + ∑ y ∈ G.succ x, pathsBelow n y

noncomputable def paths (x : α) : Nat := G.pathsBelow (G.rank x + 1) x

open Classical in
noncomputable def reached (x : α) : Finset α :=
  insert x (G.vertices.filter fun y => Relation.TransGen G.Edge x y)

variable {G}

theorem pathsBelow_eq (x : α) (hn : G.rank x < n) (hm : G.rank x < m) : G.pathsBelow n x = G.pathsBelow m x := by
  induction n generalizing x m with
  | zero => omega
  | succ n ih =>
    obtain ⟨m, rfl⟩ : ∃ k, m = k + 1 := ⟨m - 1, by omega⟩
    rw [pathsBelow, pathsBelow]
    congr 1
    refine Finset.sum_congr rfl fun y hy => ?_
    have := rank_lt (mem_succ.mp hy)
    exact ih y (by omega) (by omega)

theorem paths_eq (x : α) : G.paths x = 1 + ∑ y ∈ G.succ x, G.paths y := by
  rw [paths, pathsBelow]
  congr 1
  refine Finset.sum_congr rfl fun y hy => ?_
  have := rank_lt (mem_succ.mp hy)
  exact pathsBelow_eq y (by omega) (by omega)

theorem mem_reached : y ∈ G.reached x ↔ G.Reach x y := by
  classical
  unfold reached Reach
  rw [Finset.mem_insert, Finset.mem_filter, Relation.reflTransGen_iff_eq_or_transGen]
  exact or_congr_right ⟨And.right, fun h => ⟨mem_vertices h, h⟩⟩

open Classical in
theorem reached_eq (x : α) : G.reached x = insert x ((G.succ x).biUnion G.reached) := by
  ext y
  rw [Finset.mem_insert, Finset.mem_biUnion, mem_reached]
  unfold Reach
  rw [Relation.ReflTransGen.cases_head_iff]
  simp only [mem_succ, mem_reached, eq_comm]

open Classical in
theorem card_reached_eq (x : α) : (G.reached x).card = 1 + ((G.succ x).biUnion G.reached).card := by
  rw [reached_eq, Finset.card_insert_of_notMem, add_comm]
  intro hmem
  obtain ⟨y, hy, hback⟩ := Finset.mem_biUnion.mp hmem
  exact not_reach_of_edge (mem_succ.mp hy) (mem_reached.mp hback)

theorem card_biUnion_lt {ι : Type*} [DecidableEq ι] [DecidableEq α] {s : Finset ι} {f : ι → Finset α} {i j : ι}
    (hi : i ∈ s) (hj : j ∈ s) (hij : i ≠ j) {a : α} (hai : a ∈ f i) (haj : a ∈ f j) :
    (s.biUnion f).card < ∑ k ∈ s, (f k).card := by
  have hsplit : s.biUnion f = f i ∪ (s.erase i).biUnion f := by
    rw [← Finset.biUnion_insert, Finset.insert_erase hi]
  have hboth : 0 < (f i ∩ (s.erase i).biUnion f).card := by
    refine Finset.card_pos.mpr ⟨a, Finset.mem_inter.mpr ⟨hai, ?_⟩⟩
    exact Finset.mem_biUnion.mpr ⟨j, Finset.mem_erase.mpr ⟨Ne.symm hij, hj⟩, haj⟩
  have hunion := Finset.card_union_add_card_inter (f i) ((s.erase i).biUnion f)
  have hrest : ((s.erase i).biUnion f).card ≤ ∑ k ∈ s.erase i, (f k).card := Finset.card_biUnion_le
  have hsum := Finset.add_sum_erase s (fun k => (f k).card) hi
  rw [hsplit]
  omega

theorem card_reached_le_paths (x : α) : (G.reached x).card ≤ G.paths x := by
  classical
  refine G.induction (motive := fun x => (G.reached x).card ≤ G.paths x) (fun x ih => ?_) x
  rw [card_reached_eq, paths_eq]
  apply Nat.add_le_add_left
  refine Finset.card_biUnion_le.trans (Finset.sum_le_sum fun y hy => ?_)
  exact ih y (mem_succ.mp hy)

variable (G) in
/-- Everything that can be reached from `x`, other than `x` itself, is reached by one edge only. -/
def OneWay (x : α) : Prop :=
  ∀ y u v, G.Reach x u → G.Edge u y → G.Reach x v → G.Edge v y → u = v

theorem OneWay.disjoint (h : G.OneWay x) {c d : α} (hc : G.Edge x c) (hd : G.Edge x d) (hcy : G.Reach c y)
    (hdy : G.Reach d y) : c = d := by
  have hxc : G.Reach x c := .single hc
  have hxd : G.Reach x d := .single hd
  -- neither of the two leads to the other, unless they are the same
  have hnext : ∀ {c d : α}, G.Edge x c → G.Edge x d → G.Reach d c → c = d := by
    intro c d hc hd hdc
    rcases hdc.cases_tail with heq | ⟨w, hdw, hwc⟩
    · exact heq
    · have hwx := h c w x ((Relation.ReflTransGen.single hd).trans hdw) hwc .refl hc
      exact absurd (hwx ▸ hdw) (not_reach_of_edge hd)
  induction hcy with
  | refl => exact hnext hc hd hdy
  | tail hcw hwz ih =>
    rcases hdy.cases_tail with rfl | ⟨v, hdv, hvz⟩
    · exact (hnext hd hc (hcw.tail hwz)).symm
    · apply ih
      rw [h _ _ _ (hxc.trans hcw) hwz (hxd.trans hdv) hvz]
      exact hdv

theorem oneWay_iff : G.OneWay x ↔ (∀ c, G.Edge x c → G.OneWay c) ∧
    ∀ c d y, G.Edge x c → G.Edge x d → G.Reach c y → G.Reach d y → c = d := by
  constructor
  · intro h
    refine ⟨fun c hc y u v hu huy hv hvy => ?_, fun c d y hc hd hcy hdy => h.disjoint hc hd hcy hdy⟩
    have hxc : G.Reach x c := .single hc
    exact h y u v (hxc.trans hu) huy (hxc.trans hv) hvy
  · rintro ⟨hbelow, hdisjoint⟩ y u v hu huy hv hvy
    rcases hu.cases_head with rfl | ⟨c, hxc, hcu⟩
    · rcases hv.cases_head with rfl | ⟨d, hxd, hdv⟩
      · rfl
      · have hyd := hdisjoint y d y huy hxd .refl (hdv.tail hvy)
        exact absurd (hyd ▸ hdv) (not_reach_of_edge hvy)
    · rcases hv.cases_head with rfl | ⟨d, hxd, hdv⟩
      · have hyc := hdisjoint y c y hvy hxc .refl (hcu.tail huy)
        exact absurd (hyc ▸ hcu) (not_reach_of_edge huy)
      · have hcd := hdisjoint c d y hxc hxd (hcu.tail huy) (hdv.tail hvy)
        subst hcd
        exact hbelow c hxc y u v hcu huy hdv hvy

theorem paths_eq_iff (x : α) : G.paths x = (G.reached x).card ↔ G.OneWay x := by
  classical
  refine G.induction (motive := fun x => G.paths x = (G.reached x).card ↔ G.OneWay x) (fun x ih => ?_) x
  have hle : ∀ y ∈ G.succ x, (G.reached y).card ≤ G.paths y := fun y _ => card_reached_le_paths y
  rw [oneWay_iff, card_reached_eq, paths_eq, Nat.add_left_cancel_iff]
  constructor
  · intro heq
    have hunion : ((G.succ x).biUnion G.reached).card ≤ ∑ y ∈ G.succ x, (G.reached y).card :=
      Finset.card_biUnion_le
    have hsum := Finset.sum_le_sum hle
    refine ⟨fun c hc => (ih c hc).mp ?_, fun c d y hc hd hcy hdy => ?_⟩
    · have hall := (Finset.sum_eq_sum_iff_of_le hle).mp (le_antisymm hsum (heq ▸ hunion))
      exact (hall c (mem_succ.mpr hc)).symm
    · by_contra hcd
      have hlt := card_biUnion_lt (mem_succ.mpr hc) (mem_succ.mpr hd) hcd (mem_reached.mpr hcy)
        (mem_reached.mpr hdy)
      omega
  · rintro ⟨hbelow, hdisjoint⟩
    rw [Finset.card_biUnion]
    · exact Finset.sum_congr rfl fun y hy => (ih y (mem_succ.mp hy)).mpr (hbelow y (mem_succ.mp hy))
    · intro c hc d hd hcd
      apply Finset.disjoint_left.mpr
      intro y hcy hdy
      exact hcd (hdisjoint c d y (mem_succ.mp hc) (mem_succ.mp hd) (mem_reached.mp hcy) (mem_reached.mp hdy))

end Dag

end Lib
