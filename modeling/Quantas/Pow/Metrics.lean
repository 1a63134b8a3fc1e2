import Quantas.Pow.Calls
import Quantas.Pow.Weights

/-!
# The chain metrics at the end of a round

The worklist of `endOfRound` corrects labels until none is too small. `Labels` says that every label is the
length of some path from GENESIS; a relaxation keeps this, and what it adds to the queue it takes from the
slack of a label (`Relabels`), so the loop ends, and then every label is the length of a longest path. The walk
back from the common root and `longestDepthFrom` rely on these labels. All of it is a function of the graph
alone: the orders of the hash maps do not matter (`endOfRound_metrics`).
-/

namespace Quantas

open Lib.Dag (Steps Longest Deepest)

variable {a : Aggregated} {rs : List BlockRecord} {G : Lib.Dag String}

/-! ## Labels -/

/-- A label is the length of a path, and what waits in the queue has one. -/
structure Labels (G : Lib.Dag String) (h : String → Option Nat) (queue : List String) : Prop where
  sound : ∀ x n, h x = some n → Steps G.Edge n GENESIS x
  queued : ∀ x ∈ queue, (h x).isSome

def slack (G : Lib.Dag String) : Option Nat → Nat
  | none => G.vertices.card + 1
  | some n => G.vertices.card - n

theorem slack_none (G : Lib.Dag String) : slack G none = G.vertices.card + 1 := rfl

theorem slack_some (G : Lib.Dag String) (n : Nat) : slack G (some n) = G.vertices.card - n := rfl

def pendingLabels (G : Lib.Dag String) (h : String → Option Nat) (queue : List String) : Nat :=
  queue.length + ∑ x ∈ G.vertices, slack G (h x)

/-- Labels have grown, and the blocks whose labels have are in the queue. -/
structure Relabels (G : Lib.Dag String) (h : String → Option Nat) (queue : List String)
    (h' : String → Option Nat) (queue' : List String) : Prop where
  labels : Labels G h' queue'
  mono : ∀ x n, h x = some n → ∃ n', h' x = some n' ∧ n ≤ n'
  kept : ∀ x ∈ queue, x ∈ queue'
  changed : ∀ x, h' x = h x ∨ x ∈ queue'
  pending : pendingLabels G h' queue' ≤ pendingLabels G h queue

namespace Relabels
variable {h h₁ h₂ : String → Option Nat} {queue queue₁ queue₂ : List String}

theorem refl (hl : Labels G h queue) : Relabels G h queue h queue where
  labels := hl
  mono _ n hn := ⟨n, hn, le_rfl⟩
  kept _ hx := hx
  changed _ := .inl rfl
  pending := le_rfl

theorem trans (h₁₂ : Relabels G h queue h₁ queue₁) (h₂₃ : Relabels G h₁ queue₁ h₂ queue₂) :
    Relabels G h queue h₂ queue₂ where
  labels := h₂₃.labels
  mono := by
    intro x n hn
    obtain ⟨n₁, hn₁, hle₁⟩ := h₁₂.mono x n hn
    obtain ⟨n₂, hn₂, hle₂⟩ := h₂₃.mono x n₁ hn₁
    exact ⟨n₂, hn₂, hle₁.trans hle₂⟩
  kept x hx := h₂₃.kept x (h₁₂.kept x hx)
  changed := by
    intro x
    rcases h₂₃.changed x with hx | hx
    · rcases h₁₂.changed x with hx' | hx'
      · exact .inl (hx.trans hx')
      · exact .inr (h₂₃.kept x hx')
    · exact .inr hx
  pending := h₂₃.pending.trans h₁₂.pending

theorem update (hl : Labels G h queue) {c : String} {n : Nat} (hc : Steps G.Edge (n + 1) GENESIS c)
    (hless : ∀ m, h c = some m → m < n + 1) :
    Relabels G h queue (Function.update h c (some (n + 1))) (queue ++ [c]) where
  labels := by
    refine ⟨fun x m hx => ?_, fun x hx => ?_⟩
    · by_cases hxc : x = c
      · rw [hxc, Function.update_self, Option.some_inj] at hx
        rw [hxc, ← hx]
        exact hc
      · rw [Function.update_of_ne hxc] at hx
        exact hl.sound x m hx
    · by_cases hxc : x = c
      · rw [hxc, Function.update_self]
        rfl
      · rw [Function.update_of_ne hxc]
        exact hl.queued x ((List.mem_append.mp hx).resolve_right fun hmem => hxc (List.mem_singleton.mp hmem))
  mono := by
    intro x m hm
    by_cases hxc : x = c
    · subst hxc
      exact ⟨n + 1, Function.update_self .., (hless m hm).le⟩
    · exact ⟨m, by rw [Function.update_of_ne hxc, hm], le_rfl⟩
  kept x hx := List.mem_append_left _ hx
  changed := by
    intro x
    by_cases hxc : x = c
    · subst hxc
      exact .inr (List.mem_append_right _ (List.mem_singleton_self x))
    · exact .inl (Function.update_of_ne hxc ..)
  pending := by
    have hbound : n + 1 ≤ G.vertices.card := by
      have := hc.rank_add_le
      have := Lib.Dag.rank_le (G := G) GENESIS
      omega
    have hmem : c ∈ G.vertices := by
      cases hc with
      | tail _ hedge => exact G.mem _ _ hedge
    have hdrop : slack G (some (n + 1)) + 1 ≤ slack G (h c) := by
      cases hlabel : h c with
      | none =>
        rw [slack_some, slack_none]
        omega
      | some m =>
        have := hless m hlabel
        rw [slack_some, slack_some]
        omega
    have hrest : ∑ x ∈ G.vertices.erase c, slack G (Function.update h c (some (n + 1)) x) =
        ∑ x ∈ G.vertices.erase c, slack G (h x) := by
      refine Finset.sum_congr rfl fun x hx => ?_
      rw [Function.update_of_ne (Finset.ne_of_mem_erase hx)]
    have hnew := Finset.add_sum_erase G.vertices (fun x => slack G (Function.update h c (some (n + 1)) x)) hmem
    have hold := Finset.add_sum_erase G.vertices (fun x => slack G (h x)) hmem
    rw [Function.update_self] at hnew
    unfold pendingLabels
    rw [List.length_append, List.length_singleton]
    omega

end Relabels

def Labelled (G : Lib.Dag String) (h : String → Option Nat) : Prop :=
  ∀ x n, h x = some n ↔ Longest G.Edge GENESIS x n

theorem label_genesis {h : String → Option Nat} (hl : Labelled G h) : h GENESIS = some 0 :=
  (hl GENESIS 0).mpr (.self GENESIS)

theorem exists_label {h : String → Option Nat} (hl : Labelled G h) {x : String} {n : Nat}
    (hsteps : Steps G.Edge n GENESIS x) : ∃ m, h x = some m ∧ n ≤ m := by
  obtain ⟨m, hm⟩ := Lib.Dag.exists_longest (G := G) hsteps.reach
  exact ⟨m, (hl x m).mpr hm, hm.2 n hsteps⟩

/-! ## The higher of two blocks -/

def CommonBlock (a : Aggregated) (ledgerCount : Nat) (h : String → Option Nat) (x : String) (n : Nat) : Prop :=
  (∃ b, a.findBlock x = some b ∧ b.seen = ledgerCount) ∧ h x = some n

/-- The first pair is a higher block, or one as high with a hash that is not greater. -/
def Above (best other : String × Nat) : Prop := other.2 < best.2 ∨ other.2 = best.2 ∧ best.1 ≤ other.1

theorem Above.refl (x : String × Nat) : Above x x := .inr ⟨rfl, le_rfl⟩

theorem Above.trans {x y z : String × Nat} (h : Above x y) (h' : Above y z) : Above x z := by
  rcases h with h | ⟨h, hle⟩ <;> rcases h' with h' | ⟨h', hle'⟩
  · exact .inl (h'.trans h)
  · exact .inl (h' ▸ h)
  · exact .inl (h ▸ h')
  · exact .inr ⟨h'.trans h, hle.trans hle'⟩

theorem Above.antisymm {x y : String × Nat} (h : Above x y) (h' : Above y x) : x = y := by
  have hheight : x.2 = y.2 := by
    unfold Above at h h'
    omega
  exact Prod.ext (eq_of_ties h h') hheight

/-! ## The worklist -/

namespace Collects

section Heights
variable (ha : Collects rs a) (hacyclic : Acyclic a.children)

theorem relaxChild_grows {h : String → Option Nat} {queue : List String}
    (hl : Labels (ha.dag hacyclic) h queue) {current c : String} {n : Nat}
    (hcurrent : Steps (ha.dag hacyclic).Edge n GENESIS current) (hc : c ∈ a.children current) :
    ∃ h' queue', a.relaxChild n (h, queue) c = (h', queue') ∧ Relabels (ha.dag hacyclic) h queue h' queue' ∧
      ∃ m, h' c = some m ∧ n < m := by
  have hsteps : Steps (ha.dag hacyclic).Edge (n + 1) GENESIS c := hcurrent.tail hc
  unfold Aggregated.relaxChild
  rw [if_neg (not_not.mpr (ha.count_of_child hc))]
  dsimp only
  cases hlabel : h c with
  | none =>
    refine ⟨_, _, rfl, Relabels.update hl hsteps fun m hm => ?_, n + 1, Function.update_self .., by omega⟩
    rw [hlabel] at hm
    cases hm
  | some m =>
    dsimp only
    by_cases hless : m < n + 1
    · rw [if_pos hless]
      refine ⟨_, _, rfl, Relabels.update hl hsteps fun m' hm => ?_, n + 1, Function.update_self .., by omega⟩
      rw [hlabel, Option.some_inj] at hm
      omega
    · rw [if_neg hless]
      exact ⟨h, queue, rfl, .refl hl, m, hlabel, by omega⟩

theorem foldl_relaxChild_grows {current : String} {n : Nat}
    (hcurrent : Steps (ha.dag hacyclic).Edge n GENESIS current) {cs : List String}
    (hcs : ∀ c ∈ cs, c ∈ a.children current) {h : String → Option Nat} {queue : List String}
    (hl : Labels (ha.dag hacyclic) h queue) :
    ∃ h' queue', cs.foldl (a.relaxChild n) (h, queue) = (h', queue') ∧
      Relabels (ha.dag hacyclic) h queue h' queue' ∧ ∀ c ∈ cs, ∃ m, h' c = some m ∧ n < m := by
  induction cs generalizing h queue with
  | nil => exact ⟨h, queue, rfl, .refl hl, by simp⟩
  | cons c cs ih =>
    obtain ⟨h₁, queue₁, heq₁, hgrows₁, m, hm, hlt⟩ :=
      ha.relaxChild_grows hacyclic hl hcurrent (hcs c List.mem_cons_self)
    obtain ⟨h₂, queue₂, heq₂, hgrows₂, hcs₂⟩ := ih (fun c hc => hcs c (List.mem_cons_of_mem _ hc)) hgrows₁.labels
    refine ⟨h₂, queue₂, by rw [List.foldl_cons, heq₁, heq₂], hgrows₁.trans hgrows₂, fun x hx => ?_⟩
    rcases List.mem_cons.mp hx with rfl | hx
    · obtain ⟨m₂, hm₂, hle⟩ := hgrows₂.mono x m hm
      exact ⟨m₂, hm₂, hlt.trans_le hle⟩
    · exact hcs₂ x hx

theorem label_iff_longest {h : String → Option Nat} (hl : Labels (ha.dag hacyclic) h [])
    (hroot : (h GENESIS).isSome)
    (hclosed : ∀ x n, h x = some n → ∀ c ∈ a.children x, ∃ m, h c = some m ∧ n < m) (x : String) (n : Nat) :
    h x = some n ↔ Longest (ha.dag hacyclic).Edge GENESIS x n := by
  have hall : ∀ y m, Steps (ha.dag hacyclic).Edge m GENESIS y → ∃ k, h y = some k ∧ m ≤ k := by
    intro y m hm
    generalize hstart : GENESIS = start at hm
    induction hm with
    | refl =>
      obtain ⟨k, hk⟩ := Option.isSome_iff_exists.mp hroot
      exact ⟨k, hstart ▸ hk, Nat.zero_le k⟩
    | tail _ hedge ih =>
      obtain ⟨k, hk, hle⟩ := ih hstart
      obtain ⟨k', hk', hlt⟩ := hclosed _ k hk _ hedge
      exact ⟨k', hk', by omega⟩
  constructor
  · intro hx
    refine ⟨hl.sound x n hx, fun m hm => ?_⟩
    obtain ⟨k, hk, hle⟩ := hall x m hm
    rw [hx, Option.some_inj] at hk
    omega
  · rintro ⟨hsteps, hmax⟩
    obtain ⟨k, hk, hle⟩ := hall x n hsteps
    have := hmax k (hl.sound x k hk)
    rw [hk, Option.some_inj]
    omega

theorem heightLoop_longest (iter : IterationOrder) (fuel : Nat) {h : String → Option Nat} {queue : List String}
    (hl : Labels (ha.dag hacyclic) h queue) (hroot : (h GENESIS).isSome)
    (hrelaxed : ∀ x n, h x = some n → x ∈ queue ∨ ∀ c ∈ a.children x, ∃ m, h c = some m ∧ n < m)
    (hfuel : pendingLabels (ha.dag hacyclic) h queue ≤ fuel) :
    ∃ h', a.heightLoop iter fuel h queue = some h' ∧
      ∀ x n, h' x = some n ↔ Longest (ha.dag hacyclic).Edge GENESIS x n := by
  induction fuel generalizing h queue with
  | zero =>
    have hnil : queue = [] := by
      unfold pendingLabels at hfuel
      exact List.length_eq_zero_iff.mp (by omega)
    subst hnil
    exact ⟨h, rfl, ha.label_iff_longest hacyclic hl hroot fun x n hx =>
      (hrelaxed x n hx).resolve_left List.not_mem_nil⟩
  | succ fuel ih =>
    cases queue with
    | nil =>
      exact ⟨h, rfl, ha.label_iff_longest hacyclic hl hroot fun x n hx =>
        (hrelaxed x n hx).resolve_left List.not_mem_nil⟩
    | cons current queue =>
      obtain ⟨n, hn⟩ := Option.isSome_iff_exists.mp (hl.queued current List.mem_cons_self)
      have hl' : Labels (ha.dag hacyclic) h queue :=
        ⟨hl.sound, fun x hx => hl.queued x (List.mem_cons_of_mem _ hx)⟩
      have horder : ∀ c ∈ iter.order (a.children current), c ∈ a.children current :=
        fun c hc => (iter.perm _).mem_iff.mp hc
      obtain ⟨h', queue', heq, hgrows, hcs⟩ :=
        ha.foldl_relaxChild_grows hacyclic (hl.sound current n hn) horder hl'
      rw [Aggregated.heightLoop, hn, Option.getD_some, heq]
      refine ih hgrows.labels ?_ (fun x m hm => ?_) ?_
      · obtain ⟨k, hk⟩ := Option.isSome_iff_exists.mp hroot
        obtain ⟨k', hk', -⟩ := hgrows.mono GENESIS k hk
        rw [hk']
        rfl
      · rcases hgrows.changed x with hsame | hqueued
        · rw [hsame] at hm
          by_cases hx : x = current
          · subst hx
            rw [hn, Option.some_inj] at hm
            subst hm
            exact .inr fun c hc => hcs c ((iter.perm _).mem_iff.mpr hc)
          · rcases hrelaxed x m hm with hmem | hclosed
            · exact .inl (hgrows.kept x ((List.mem_cons.mp hmem).resolve_left hx))
            · refine .inr fun c hc => ?_
              obtain ⟨k, hk, hlt⟩ := hclosed c hc
              obtain ⟨k', hk', hle⟩ := hgrows.mono c k hk
              exact ⟨k', hk', hlt.trans_le hle⟩
        · exact .inl hqueued
      · have := hgrows.pending
        unfold pendingLabels at hfuel this ⊢
        rw [List.length_cons] at hfuel
        omega

theorem computedHeight_longest (iter : IterationOrder) {fuel : Nat}
    (hfuel : (a.blocks.length + 1) * (a.blocks.length + 1) ≤ fuel) :
    ∃ h, a.computedHeight iter fuel = some h ∧
      ∀ x n, h x = some n ↔ Longest (ha.dag hacyclic).Edge GENESIS x n := by
  have hstart : ∀ x, (Function.update (fun _ => none) GENESIS (some 0) : String → Option Nat) x =
      if x = GENESIS then some 0 else none := fun x => by rw [Function.update_apply]
  refine ha.heightLoop_longest hacyclic iter fuel ⟨fun x n hx => ?_, fun x hx => ?_⟩ (by simp)
    (fun x n hx => ?_) ?_
  · rw [hstart] at hx
    split_ifs at hx with hroot
    obtain rfl := Option.some_inj.mp hx
    rw [hroot]
    exact .refl GENESIS
  · simp [List.mem_singleton.mp hx]
  · rw [hstart] at hx
    split_ifs at hx with hroot
    exact .inl (hroot ▸ List.mem_singleton_self x)
  · have hslack : ∀ label, slack (ha.dag hacyclic) label ≤ a.blocks.length + 1 := by
      intro label
      rw [← ha.card_vertices hacyclic]
      cases label with
      | none => exact le_rfl
      | some n =>
        rw [slack_some]
        omega
    have hsum := Finset.sum_le_card_nsmul (ha.dag hacyclic).vertices
      (fun x => slack (ha.dag hacyclic) ((Function.update (fun _ => none) GENESIS (some 0) :
        String → Option Nat) x)) (a.blocks.length + 1) fun x _ => hslack _
    rw [ha.card_vertices hacyclic, smul_eq_mul] at hsum
    unfold pendingLabels
    rw [List.length_singleton]
    have hsquare : (a.blocks.length + 1) * (a.blocks.length + 1) =
        a.blocks.length * (a.blocks.length + 1) + (a.blocks.length + 1) := by ring
    omega

end Heights

/-! ## The longest chain -/

theorem genesis_mem_hashes (ha : Collects rs a) (hgenesis : ∃ r ∈ rs, r.hash = GENESIS) : GENESIS ∈ a.hashes := by
  obtain ⟨r, hr, heq⟩ := hgenesis
  obtain ⟨b, hb, hhash⟩ := ha.known r hr
  exact List.mem_map.mpr ⟨b, hb, hhash.trans heq⟩

theorem longestChain_deepest (ha : Collects rs a) (hacyclic : Acyclic a.children)
    (hgenesis : ∃ r ∈ rs, r.hash = GENESIS) {h : String → Option Nat} (hl : Labelled (ha.dag hacyclic) h)
    (iter : IterationOrder) : Deepest (ha.dag hacyclic).Edge GENESIS (a.longestChain iter h) := by
  obtain ⟨-, hall, hattained⟩ := Lib.Dag.foldl_max_spec id ((iter.order a.hashes).filterMap h) 0
  have hmem : ∀ n, n ∈ (iter.order a.hashes).filterMap h ↔ ∃ x ∈ a.hashes, h x = some n := by
    intro n
    rw [List.mem_filterMap]
    simp only [(iter.perm a.hashes).mem_iff]
  constructor
  · rcases hattained with heq | ⟨n, hn, heq⟩
    · refine ⟨GENESIS, ?_⟩
      rw [show a.longestChain iter h = 0 from heq]
      exact .refl GENESIS
    · obtain ⟨x, -, hx⟩ := (hmem n).mp hn
      refine ⟨x, ?_⟩
      rw [show a.longestChain iter h = n from heq]
      exact ((hl x n).mp hx).1
  · intro m y hm
    obtain ⟨n, hn, hle⟩ := exists_label hl hm
    refine hle.trans (hall n ((hmem n).mpr ⟨y, ?_, hn⟩))
    cases hm with
    | refl => exact ha.genesis_mem_hashes hgenesis
    | tail _ hedge => exact (count_iff y).mp (ha.count_of_child hedge)

/-! ## The common root -/

theorem findBlock_eq_some (ha : Collects rs a) {x : String} {b : BlockAggregate} :
    a.findBlock x = some b ↔ b ∈ a.blocks ∧ b.hash = x := by
  unfold Aggregated.findBlock
  constructor
  · intro h
    exact ⟨List.mem_of_find?_eq_some h, by simpa using List.find?_some h⟩
  · rintro ⟨hb, rfl⟩
    obtain ⟨b', hb'⟩ := Option.isSome_iff_exists.mp
      (List.find?_isSome (p := fun b' => decide (b'.hash = b.hash)).mpr ⟨b, hb, by simp⟩)
    have hhash : b'.hash = b.hash := by simpa using List.find?_some hb'
    rw [hb', List.inj_on_of_nodup_map ha.nodup (List.mem_of_find?_eq_some hb') hb hhash]

theorem commonRootStep_spec (ledgerCount : Nat) (h : String → Option Nat) (best : String × Nat) (x : String) :
    (a.commonRootStep ledgerCount h best x = best ∨
      CommonBlock a ledgerCount h x (a.commonRootStep ledgerCount h best x).2 ∧
        (a.commonRootStep ledgerCount h best x).1 = x) ∧
      Above (a.commonRootStep ledgerCount h best x) best ∧
      ∀ n, CommonBlock a ledgerCount h x n → Above (a.commonRootStep ledgerCount h best x) (x, n) := by
  unfold Aggregated.commonRootStep
  cases hfind : a.findBlock x with
  | none =>
    refine ⟨.inl rfl, .refl best, ?_⟩
    rintro n ⟨⟨b, hb, -⟩, -⟩
    rw [hfind] at hb
    cases hb
  | some b =>
    dsimp only
    by_cases hseen : b.seen = ledgerCount
    swap
    · rw [if_pos hseen]
      refine ⟨.inl rfl, .refl best, ?_⟩
      rintro n ⟨⟨b', hb', hseen'⟩, -⟩
      rw [hfind, Option.some_inj] at hb'
      exact absurd (hb' ▸ hseen') hseen
    rw [if_neg (not_not.mpr hseen)]
    cases hheight : h x with
    | none =>
      refine ⟨.inl rfl, .refl best, ?_⟩
      rintro n ⟨-, hn⟩
      rw [hheight] at hn
      cases hn
    | some height =>
      dsimp only
      by_cases hbetter : best.2 < height ∨ height = best.2 ∧ x < best.1
      · rw [if_pos hbetter]
        refine ⟨.inr ⟨⟨⟨b, hfind, hseen⟩, hheight⟩, rfl⟩, ?_, ?_⟩
        · exact hbetter.imp_right fun h => ⟨h.1.symm, h.2.le⟩
        · rintro n ⟨-, hn⟩
          rw [hheight, Option.some_inj] at hn
          rw [hn]
          exact .refl _
      · rw [if_neg hbetter]
        refine ⟨.inl rfl, .refl best, ?_⟩
        rintro n ⟨-, hn⟩
        rw [hheight, Option.some_inj] at hn
        subst hn
        rw [not_or, not_lt] at hbetter
        obtain ⟨hle, hhash⟩ := hbetter
        rcases hle.lt_or_eq with hlt | heq
        · exact .inl hlt
        · exact .inr ⟨heq, not_lt.mp fun hlt => hhash ⟨heq, hlt⟩⟩

theorem commonRoot_spec (iter : IterationOrder) {ledgerCount : Nat} {h : String → Option Nat}
    (hgenesis : CommonBlock a ledgerCount h GENESIS 0) (hhashes : ∀ x b, a.findBlock x = some b → x ∈ a.hashes) :
    CommonBlock a ledgerCount h (a.commonRoot iter ledgerCount h).1 (a.commonRoot iter ledgerCount h).2 ∧
      ∀ x n, CommonBlock a ledgerCount h x n → Above (a.commonRoot iter ledgerCount h) (x, n) := by
  have hloop : ∀ (l : List String) (best : String × Nat), CommonBlock a ledgerCount h best.1 best.2 →
      CommonBlock a ledgerCount h (l.foldl (a.commonRootStep ledgerCount h) best).1
          (l.foldl (a.commonRootStep ledgerCount h) best).2 ∧
        Above (l.foldl (a.commonRootStep ledgerCount h) best) best ∧
        ∀ x ∈ l, ∀ n, CommonBlock a ledgerCount h x n →
          Above (l.foldl (a.commonRootStep ledgerCount h) best) (x, n) := by
    intro l
    induction l with
    | nil => exact fun best hbest => ⟨hbest, .refl best, by simp⟩
    | cons x l ih =>
      intro best hbest
      obtain ⟨hstep, hold, hnew⟩ := commonRootStep_spec (a := a) ledgerCount h best x
      have hcommon : CommonBlock a ledgerCount h (a.commonRootStep ledgerCount h best x).1
          (a.commonRootStep ledgerCount h best x).2 := by
        rcases hstep with heq | ⟨hcommon, heq⟩
        · rw [heq]
          exact hbest
        · rw [heq]
          exact hcommon
      obtain ⟨hlast, habove, hall⟩ := ih _ hcommon
      rw [List.foldl_cons]
      refine ⟨hlast, habove.trans hold, fun y hy n hn => ?_⟩
      rcases List.mem_cons.mp hy with rfl | hy
      · exact habove.trans (hnew n hn)
      · exact hall y hy n hn
  obtain ⟨hcommon, -, hall⟩ := hloop (iter.order a.hashes) (GENESIS, 0) hgenesis
  refine ⟨hcommon, fun x n hn => hall x ?_ n hn⟩
  obtain ⟨⟨b, hb, -⟩, -⟩ := hn
  exact (iter.perm a.hashes).mem_iff.mpr (hhashes x b hb)

/-! ## The walk -/

theorem walkLoop_step (ha : Collects rs a) (hacyclic : Acyclic a.children) {h : String → Option Nat}
    (hl : Labelled (ha.dag hacyclic) h) (hnamed : h "" = none) (fuel : Nat) (walk : Aggregated.Walk) {n : Nat}
    (hn : h walk.current = some (n + 1)) :
    ∃ b next, a.findBlock walk.current = some b ∧ next ∈ b.parents ∧ h next = some n ∧
      a.walkLoop h (fuel + 1) walk =
        a.walkLoop h fuel ⟨next, walk.steps + 1, if b.parasite then walk.parasites + 1 else walk.parasites⟩ := by
  have hne : walk.current ≠ GENESIS := by
    intro heq
    rw [heq, label_genesis hl] at hn
    cases hn
  obtain ⟨y, hedge, hy⟩ := ((hl _ _).mp hn).exists_pred
  obtain ⟨r, hr, hhash, hyr⟩ := (ha.children y walk.current).mp hedge
  obtain ⟨b, hb, hbhash⟩ := ha.known r hr
  have hfind : a.findBlock walk.current = some b := ha.findBlock_eq_some.mpr ⟨hb, hbhash.trans hhash⟩
  have hyparent : y ∈ b.parents := (ha.parents b hb y).mpr ⟨r, hr, hbhash.symm, hyr⟩
  -- the first parent that is one lower
  have hlower : Aggregated.oneLower h (some (n + 1)) y = true := by
    unfold Aggregated.oneLower
    rw [(hl y n).mpr hy]
    simp
  obtain ⟨next, hnext⟩ := Option.isSome_iff_exists.mp (List.find?_isSome.mpr ⟨y, hyparent, hlower⟩)
  have hheight : h next = some n := by
    have hfits := List.find?_some hnext
    unfold Aggregated.oneLower at hfits
    cases hlabel : h next with
    | none =>
      rw [hlabel] at hfits
      cases hfits
    | some m =>
      rw [hlabel] at hfits
      simp only [decide_eq_true_eq] at hfits
      rw [Option.some_inj]
      omega
  have hnonempty : next ≠ "" := by
    rintro rfl
    rw [hnamed] at hheight
    cases hheight
  have hchosen : Aggregated.nextParent h b.parents (h walk.current) = next := by
    unfold Aggregated.nextParent
    rw [hn, hnext, Option.getD_some]
  refine ⟨b, next, hfind, List.mem_of_find?_eq_some hnext, hheight, ?_⟩
  rw [Aggregated.walkLoop, if_neg hne, hfind]
  dsimp only
  rw [hchosen, if_neg hnonempty]

theorem walkLoop_spec (ha : Collects rs a) (hacyclic : Acyclic a.children) {h : String → Option Nat}
    (hl : Labelled (ha.dag hacyclic) h) (hnamed : h "" = none) (fuel : Nat) (walk : Aggregated.Walk) {n : Nat}
    (hn : h walk.current = some n) (hfuel : n ≤ fuel) :
    ∃ parasites, a.walkLoop h fuel walk = some ⟨GENESIS, walk.steps + n, walk.parasites + parasites⟩ ∧
      parasites ≤ n := by
  induction n generalizing fuel walk with
  | zero =>
    have hroot : walk.current = GENESIS := ((hl _ _).mp hn).1.eq_of_zero.symm
    obtain ⟨current, steps, parasites⟩ := walk
    dsimp only at hroot
    subst hroot
    refine ⟨0, ?_, le_rfl⟩
    cases fuel with
    | zero => rw [Aggregated.walkLoop, if_pos rfl, Nat.add_zero, Nat.add_zero]
    | succ fuel => rw [Aggregated.walkLoop, if_pos rfl, Nat.add_zero, Nat.add_zero]
  | succ n ih =>
    obtain ⟨fuel, rfl⟩ : ∃ k, fuel = k + 1 := ⟨fuel - 1, by omega⟩
    obtain ⟨b, next, -, -, hnext, hstep⟩ := ha.walkLoop_step hacyclic hl hnamed fuel walk hn
    obtain ⟨parasites, hwalk, hle⟩ := ih fuel ⟨next, walk.steps + 1,
      if b.parasite then walk.parasites + 1 else walk.parasites⟩ hnext (by omega)
    rw [hstep, hwalk]
    refine ⟨(if b.parasite then 1 else 0) + parasites, ?_, ?_⟩
    · dsimp only
      split_ifs
      · rw [show walk.steps + 1 + n = walk.steps + (n + 1) by omega,
          show walk.parasites + 1 + parasites = walk.parasites + (1 + parasites) by omega]
      · rw [show walk.steps + 1 + n = walk.steps + (n + 1) by omega, Nat.zero_add]
    · split_ifs <;> omega

/-! ## The depth below a block -/

def Plumbs (G : Lib.Dag String) (memo : String → Option Nat) : Prop := ∀ x n, memo x = some n → n = G.depth x

theorem Plumbs.update {memo : String → Option Nat} (hm : Plumbs G memo) (x : String) :
    Plumbs G (Function.update memo x (some (G.depth x))) := by
  intro y n hy
  by_cases hyx : y = x
  · rw [hyx, Function.update_self, Option.some_inj] at hy
    rw [hyx, hy]
  · rw [Function.update_of_ne hyx] at hy
    exact hm y n hy

theorem foldlM_longestDepthFrom {iter : IterationOrder} {h : String → Option Nat} {fuel : Nat}
    {active cs : List String} (hcs : ∀ c ∈ cs, (h c).isSome ∧ ∀ memo, Plumbs G memo →
      ∃ memo', a.longestDepthFrom iter h fuel active memo c = some (G.depth c, memo') ∧ Plumbs G memo')
    (best : Nat) {memo : String → Option Nat} (hm : Plumbs G memo) :
    ∃ memo', cs.foldlM (fun (best, depthMemo) child =>
        if (h child).isNone then some (best, depthMemo)
        else do
          let (depth, depthMemo) ← a.longestDepthFrom iter h fuel active depthMemo child
          some (max best (1 + depth), depthMemo)) (best, memo) =
      some (cs.foldl (fun best c => max best (1 + G.depth c)) best, memo') ∧ Plumbs G memo' := by
  induction cs generalizing best memo with
  | nil => exact ⟨memo, rfl, hm⟩
  | cons c cs ih =>
    obtain ⟨hc, hdepth⟩ := hcs c List.mem_cons_self
    obtain ⟨memo₁, heq₁, hm₁⟩ := hdepth memo hm
    obtain ⟨memo₂, heq₂, hm₂⟩ := ih (fun c hc => hcs c (List.mem_cons_of_mem _ hc)) (max best (1 + G.depth c)) hm₁
    have hsome : ¬ (h c).isNone = true := by
      rw [Option.isNone_iff_eq_none]
      exact Option.isSome_iff_ne_none.mp hc
    refine ⟨memo₂, ?_, hm₂⟩
    rw [List.foldlM_cons]
    dsimp only
    rw [if_neg hsome, heq₁]
    exact heq₂

/-- `longestDepthFrom` is the length of the longest path down from a block with a height. What is active lies
above, so it is never met again. -/
theorem longestDepthFrom_depth (ha : Collects rs a) (hacyclic : Acyclic a.children) {h : String → Option Nat}
    (hl : Labelled (ha.dag hacyclic) h) (iter : IterationOrder) (fuel : Nat) (active : List String)
    {memo : String → Option Nat} {x : String} (hx : (h x).isSome)
    (hactive : ∀ y ∈ active, Relation.TransGen (fun u c => c ∈ a.children u) y x)
    (hm : Plumbs (ha.dag hacyclic) memo) (hfuel : (ha.dag hacyclic).rank x < fuel) :
    ∃ memo', a.longestDepthFrom iter h fuel active memo x = some ((ha.dag hacyclic).depth x, memo') ∧
      Plumbs (ha.dag hacyclic) memo' := by
  induction fuel generalizing active memo x with
  | zero => omega
  | succ fuel ih =>
    rw [Aggregated.longestDepthFrom, if_neg fun hmem => hacyclic x (hactive x hmem)]
    cases hmemo : memo x with
    | some n =>
      rw [hm x n hmemo]
      exact ⟨memo, rfl, hm⟩
    | none =>
      have hchildren : ∀ c ∈ iter.order (a.children x), (h c).isSome ∧ ∀ memo,
          Plumbs (ha.dag hacyclic) memo → ∃ memo', a.longestDepthFrom iter h fuel (x :: active) memo c =
            some ((ha.dag hacyclic).depth c, memo') ∧ Plumbs (ha.dag hacyclic) memo' := by
        intro c hc
        have hedge : c ∈ a.children x := (iter.perm _).mem_iff.mp hc
        have hrank : (ha.dag hacyclic).rank c < (ha.dag hacyclic).rank x := Lib.Dag.rank_lt hedge
        obtain ⟨n, hn⟩ := Option.isSome_iff_exists.mp hx
        obtain ⟨m, hm', -⟩ := exists_label hl (((hl x n).mp hn).1.tail hedge)
        have hlabelled : (h c).isSome := by
          rw [hm']
          rfl
        refine ⟨hlabelled, fun memo hm => ih (x :: active) hlabelled (fun y hy => ?_) hm (by omega)⟩
        rcases List.mem_cons.mp hy with rfl | hy
        · exact .single hedge
        · exact (hactive y hy).tail hedge
      obtain ⟨memo', heq, hm'⟩ := foldlM_longestDepthFrom hchildren 0 hm
      have hdepth : (iter.order (a.children x)).foldl (fun best c => max best (1 + (ha.dag hacyclic).depth c)) 0 =
          (ha.dag hacyclic).depth x := Lib.Dag.foldl_depth fun c => (iter.perm _).mem_iff
      rw [hdepth] at heq
      refine ⟨_, ?_, hm'.update x⟩
      dsimp only
      rw [heq]
      rfl

end Collects

/-- The memos that calls of `longestDepthFrom` leave, each for a block with a height. -/
inductive Aggregated.DepthMemo (a : Aggregated) (iter : IterationOrder) (height : String → Option Nat)
    (fuel : Nat) : (String → Option Nat) → Prop
  | start : a.DepthMemo iter height fuel fun _ => none
  | call {memo memo' : String → Option Nat} {hash : String} {depth : Nat}
      (hmemo : a.DepthMemo iter height fuel memo) (hhash : (height hash).isSome)
      (hcall : a.longestDepthFrom iter height fuel [] memo hash = some (depth, memo')) :
      a.DepthMemo iter height fuel memo'

namespace Collects

theorem plumbs (ha : Collects rs a) (hacyclic : Acyclic a.children) {h : String → Option Nat}
    (hl : Labelled (ha.dag hacyclic) h) {iter : IterationOrder} {fuel : Nat} (hfuel : a.blocks.length < fuel)
    {memo : String → Option Nat} (hm : a.DepthMemo iter h fuel memo) : Plumbs (ha.dag hacyclic) memo := by
  induction hm with
  | start => exact fun x n hx => by cases hx
  | @call memo memo' x depth _ hhash hcall ih =>
    have hrank := Lib.Dag.rank_le (G := ha.dag hacyclic) x
    rw [ha.card_vertices hacyclic] at hrank
    obtain ⟨memo'', heq, hm'⟩ := ha.longestDepthFrom_depth hacyclic hl iter fuel [] hhash (by simp) ih (by omega)
    rw [heq, Option.some_inj, Prod.mk.injEq] at hcall
    rw [← hcall.2]
    exact hm'

/-! ## The order of the records -/

theorem perm (ha : Collects rs a) {rs' : List BlockRecord} (hrs : rs.Perm rs') : Collects rs' a where
  nodup := ha.nodup
  known r hr := ha.known r (hrs.mem_iff.mpr hr)
  found b hb := by
    simp only [← hrs.mem_iff]
    exact ha.found b hb
  parents b hb x := by
    simp only [← hrs.mem_iff]
    exact ha.parents b hb x
  parasite b hb := by
    simp only [← hrs.mem_iff]
    exact ha.parasite b hb
  seen b hb := (ha.seen b hb).trans (hrs.countP_eq _)
  children x c := by
    simp only [← hrs.mem_iff]
    exact ha.children x c
  nodupChildren := ha.nodupChildren

theorem dag_congr {a' : Aggregated} (ha : Collects rs a) (ha' : Collects rs a') (hacyclic : Acyclic a.children)
    (hacyclic' : Acyclic a'.children) : ha.dag hacyclic = ha'.dag hacyclic' := by
  have hedge : (fun x c => c ∈ a.children x) = fun x c => c ∈ a'.children x := by
    funext x c
    rw [ha.children, ha'.children]
  have hvertices : (a.blocks.map BlockAggregate.hash).toFinset = (a'.blocks.map BlockAggregate.hash).toFinset := by
    ext x
    rw [List.mem_toFinset, List.mem_toFinset, List.mem_map, List.mem_map]
    constructor
    · rintro ⟨b, hb, rfl⟩
      obtain ⟨r, hr, heq⟩ := ha.found b hb
      obtain ⟨b', hb', heq'⟩ := ha'.known r hr
      exact ⟨b', hb', heq'.trans heq⟩
    · rintro ⟨b, hb, rfl⟩
      obtain ⟨r, hr, heq⟩ := ha'.found b hb
      obtain ⟨b', hb', heq'⟩ := ha.known r hr
      exact ⟨b', hb', heq'.trans heq⟩
  unfold dag
  congr 1

theorem acyclic_congr {a' : Aggregated} (ha : Collects rs a) (ha' : Collects rs a') (hacyclic : Acyclic a.children) :
    Acyclic a'.children := by
  have hedge : (fun x c => c ∈ a.children x) = fun x c => c ∈ a'.children x := by
    funext x c
    rw [ha.children, ha'.children]
  unfold Acyclic
  rw [← hedge]
  exact hacyclic

end Collects

/-! ## The end of the round -/

/-- Ledgers that differ in the order in which `allBlocks` gives the records of each. -/
abbrev SameLedgers : List PoW → List PoW → Prop := List.Forall₂ fun p p' => p.blocks.Perm p'.blocks

theorem SameLedgers.perm {ledgers ledgers' : List PoW} (h : SameLedgers ledgers ledgers') :
    (ledgers.flatMap PoW.blocks).Perm (ledgers'.flatMap PoW.blocks) := by
  induction h with
  | nil => exact .refl _
  | cons hp _ ih =>
    rw [List.flatMap_cons, List.flatMap_cons]
    exact hp.append ih

theorem SameLedgers.refl (ledgers : List PoW) : SameLedgers ledgers ledgers :=
  List.forall₂_same.mpr fun p _ => .refl p.blocks

section Runs
variable {prefer : PreferCandidate} {runs : List (List LedgerCall)}

theorem linked_runs : ∀ p ∈ runs.map (PoW.called prefer), p.Linked := by
  intro p hp
  obtain ⟨run, -, rfl⟩ := List.mem_map.mp hp
  exact PoW.Linked.fresh.registerAll _

theorem records_named : ∀ r ∈ (runs.map (PoW.called prefer)).flatMap PoW.blocks, r.hash ≠ "" := by
  intro r hr
  obtain ⟨p, hp, hr⟩ := List.mem_flatMap.mp hr
  obtain ⟨run, -, rfl⟩ := List.mem_map.mp hp
  exact PoW.named_of_calls hr

end Runs

theorem PoW.Linked.countP_blocks {p : PoW} (hp : p.Linked) (x : String) :
    p.blocks.countP (fun r => r.hash = x) = if (p.findBlock x).isSome then 1 else 0 := by
  have hcount : (p.links.map Prod.fst).count x = p.blocks.countP fun r => r.hash = x := by
    unfold PoW.links
    rw [List.map_map, List.count, List.countP_map]
    exact List.countP_congr fun r _ => by simp
  rw [← hcount]
  by_cases hknown : (p.findBlock x).isSome
  · rw [if_pos hknown]
    exact List.count_eq_one_of_mem hp.nodup ((PoW.findBlock_isSome_iff x).mp hknown)
  · rw [if_neg hknown]
    exact List.count_eq_zero.mpr fun hmem => hknown ((PoW.findBlock_isSome_iff x).mpr hmem)

theorem countP_records {ledgers : List PoW} (hledgers : ∀ p ∈ ledgers, p.Linked) (x : String) :
    (ledgers.flatMap PoW.blocks).countP (fun r => r.hash = x) =
      ledgers.countP fun p => (p.findBlock x).isSome := by
  induction ledgers with
  | nil => rfl
  | cons p ledgers ih =>
    rw [List.flatMap_cons, List.countP_append, ih fun q hq => hledgers q (List.mem_cons_of_mem p hq),
      (hledgers p List.mem_cons_self).countP_blocks, List.countP_cons, add_comm]

theorem countP_genesis {ledgers : List PoW} (hledgers : ∀ p ∈ ledgers, p.Linked) :
    (ledgers.flatMap PoW.blocks).countP (fun r => r.hash = GENESIS) = ledgers.length := by
  rw [countP_records hledgers, List.countP_eq_length]
  intro p hp
  exact (PoW.findBlock_isSome_iff GENESIS).mpr (List.mem_map.mpr ⟨_, (hledgers p hp).genesis, rfl⟩)

theorem SameLedgers.collects {ledgers ledgers' : List PoW} (h : SameLedgers ledgers ledgers')
    (hledgers : ∀ p ∈ ledgers, p.Linked) (hpos : 0 < ledgers.length) :
    Collects (ledgers.flatMap PoW.blocks) (.ofLedgers ledgers') := by
  refine (Collects.ofLedgers ?_).perm h.perm.symm
  rw [← countP_genesis hledgers, List.countP_pos_iff] at hpos
  obtain ⟨r, hr, heq⟩ := hpos
  obtain ⟨p, hp, hr⟩ := List.mem_flatMap.mp (h.perm.mem_iff.mp hr)
  exact ⟨p, hp, r, hr, by simpa using heq⟩

theorem Aggregated.metrics_eq_some {children blocks heights : IterationOrder} {ledgerCount fuel : Nat}
    {m : Aggregated.Metrics} (h : a.metrics children blocks heights ledgerCount fuel = some m) :
    a.computedHeight children fuel = some m.computedHeight ∧
      a.walkLoop m.computedHeight fuel { current := m.commonRoot } = some m.walk := by
  unfold metrics at h
  rw [Option.bind_eq_bind, Option.bind_eq_some_iff] at h
  obtain ⟨height, hheight, h⟩ := h
  dsimp only at h
  rw [Option.bind_eq_bind, Option.bind_eq_some_iff] at h
  obtain ⟨walk, hwalk, h⟩ := h
  rw [Option.some_inj] at h
  subst h
  exact ⟨hheight, hwalk⟩

/-- What the metrics of a graph are. -/
structure Measures (a : Aggregated) (ledgerCount : Nat) (m : Aggregated.Metrics) (depth : String → Nat) :
    Prop where
  height : ∀ x n, m.computedHeight x = some n ↔ Longest (fun u c => c ∈ a.children u) GENESIS x n
  reached : ∀ x, Relation.ReflTransGen (fun u c => c ∈ a.children u) GENESIS x → (m.computedHeight x).isSome
  attained : ∃ x, m.computedHeight x = some m.longestChain
  greatest : ∀ x n, m.computedHeight x = some n → n ≤ m.longestChain
  root : CommonBlock a ledgerCount m.computedHeight m.commonRoot m.commonRootHeight
  highest : ∀ x n, CommonBlock a ledgerCount m.computedHeight x n → Above (m.commonRoot, m.commonRootHeight) (x, n)
  deepest : ∀ x, (m.computedHeight x).isSome → Deepest (fun u c => c ∈ a.children u) x (depth x)
  arrived : m.walk.current = GENESIS
  steps : m.walk.steps = m.commonRootHeight

namespace Collects

theorem label_unnamed (ha : Collects rs a) (hacyclic : Acyclic a.children) {h : String → Option Nat}
    (hl : Labelled (ha.dag hacyclic) h) (hnamed : ∀ r ∈ rs, r.hash ≠ "") : h "" = none := by
  by_contra hsome
  obtain ⟨n, hn⟩ := Option.ne_none_iff_exists'.mp hsome
  cases n with
  | zero => exact absurd ((hl "" 0).mp hn).1.eq_of_zero (by decide)
  | succ n =>
    obtain ⟨y, hedge, -⟩ := ((hl "" (n + 1)).mp hn).exists_pred
    obtain ⟨r, hr, heq, -⟩ := (ha.children y "").mp hedge
    exact hnamed r hr heq

theorem measures (ha : Collects rs a) (hacyclic : Acyclic a.children) (hnamed : ∀ r ∈ rs, r.hash ≠ "")
    {ledgerCount : Nat} (hroot : rs.countP (fun r => r.hash = GENESIS) = ledgerCount) (hpos : 0 < ledgerCount)
    (children blocks heights : IterationOrder) {fuel : Nat}
    (hfuel : (a.blocks.length + 1) * (a.blocks.length + 1) ≤ fuel) :
    ∃ m, a.metrics children blocks heights ledgerCount fuel = some m ∧
      Measures a ledgerCount m (ha.dag hacyclic).depth ∧
      ∀ (depths : IterationOrder) memo, a.DepthMemo depths m.computedHeight fuel memo →
        ∀ x, (m.computedHeight x).isSome → ∃ memo',
          a.longestDepthFrom depths m.computedHeight fuel [] memo x = some ((ha.dag hacyclic).depth x, memo') := by
  have hsquare : a.blocks.length < fuel := by nlinarith
  obtain ⟨h, hrun, hl⟩ := ha.computedHeight_longest hacyclic children hfuel
  have hgenesis : ∃ r ∈ rs, r.hash = GENESIS := by
    rw [← hroot, List.countP_pos_iff] at hpos
    simpa using hpos
  have hcommon : CommonBlock a ledgerCount h GENESIS 0 := by
    obtain ⟨r, hr, heq⟩ := hgenesis
    obtain ⟨b, hb, hhash⟩ := ha.known r hr
    refine ⟨⟨b, ha.findBlock_eq_some.mpr ⟨hb, hhash.trans heq⟩, ?_⟩, label_genesis hl⟩
    rw [ha.seen b hb, hhash, heq, hroot]
  obtain ⟨hrootCommon, hhighest⟩ := commonRoot_spec (a := a) blocks hcommon fun x b hb =>
    List.mem_map.mpr ⟨b, (ha.findBlock_eq_some.mp hb).1, (ha.findBlock_eq_some.mp hb).2⟩
  have hlow : (a.commonRoot blocks ledgerCount h).2 ≤ fuel := by
    have hsteps := ((hl _ _).mp hrootCommon.2).1.rank_add_le
    have hrank := Lib.Dag.rank_le (G := ha.dag hacyclic) GENESIS
    rw [ha.card_vertices hacyclic] at hrank
    omega
  obtain ⟨parasites, hwalk, -⟩ := ha.walkLoop_spec hacyclic hl (ha.label_unnamed hacyclic hl hnamed) fuel
    { current := (a.commonRoot blocks ledgerCount h).1 } hrootCommon.2 hlow
  obtain ⟨⟨x, hx⟩, hlongest⟩ := ha.longestChain_deepest hacyclic hgenesis hl heights
  have hmetrics : a.metrics children blocks heights ledgerCount fuel = some {
      computedHeight := h
      longestChain := a.longestChain heights h
      commonRoot := (a.commonRoot blocks ledgerCount h).1
      commonRootHeight := (a.commonRoot blocks ledgerCount h).2
      walk := ⟨GENESIS, 0 + (a.commonRoot blocks ledgerCount h).2, 0 + parasites⟩ } := by
    rw [Aggregated.metrics, hrun]
    dsimp only [Option.bind_eq_bind, Option.bind_some]
    rw [hwalk]
    rfl
  refine ⟨_, hmetrics, ?_, ?_⟩
  · refine ⟨hl, fun y hy => ?_, ⟨x, ?_⟩, fun y n hy => ?_, hrootCommon, hhighest,
      fun y _ => Lib.Dag.deepest_depth (G := ha.dag hacyclic) y,
      rfl, Nat.zero_add _⟩
    · obtain ⟨n, hn⟩ := Lib.Dag.exists_longest (G := ha.dag hacyclic) hy
      exact Option.isSome_iff_exists.mpr ⟨n, (hl y n).mpr hn⟩
    · exact (hl _ _).mpr ⟨hx, fun m hm => hlongest m x hm⟩
    · exact hlongest n y ((hl y n).mp hy).1
  · intro depths memo hmemo x hx
    have hrank := Lib.Dag.rank_le (G := ha.dag hacyclic) x
    rw [ha.card_vertices hacyclic] at hrank
    obtain ⟨memo', heq, -⟩ := ha.longestDepthFrom_depth hacyclic hl depths fuel [] hx (by simp)
      (ha.plumbs hacyclic hl hsquare hmemo) (by omega)
    exact ⟨memo', heq⟩

theorem commonBlock_iff (ha : Collects rs a) {ledgerCount : Nat} {h : String → Option Nat} {x : String} {n : Nat} :
    CommonBlock a ledgerCount h x n ↔
      ((∃ r ∈ rs, r.hash = x) ∧ rs.countP (fun r => r.hash = x) = ledgerCount) ∧ h x = some n := by
  refine and_congr_left fun _ => ⟨?_, ?_⟩
  · rintro ⟨b, hb, rfl⟩
    obtain ⟨hmem, rfl⟩ := ha.findBlock_eq_some.mp hb
    exact ⟨ha.found b hmem, (ha.seen b hmem).symm⟩
  · rintro ⟨⟨r, hr, rfl⟩, rfl⟩
    obtain ⟨b, hb, heq⟩ := ha.known r hr
    refine ⟨b, ha.findBlock_eq_some.mpr ⟨hb, heq⟩, ?_⟩
    rw [ha.seen b hb, heq]

theorem measures_unique {a' : Aggregated} (ha : Collects rs a) (ha' : Collects rs a') {ledgerCount : Nat}
    {m m' : Aggregated.Metrics} {depth depth' : String → Nat} (hm : Measures a ledgerCount m depth)
    (hm' : Measures a' ledgerCount m' depth') : m' = { m with walk := m'.walk } := by
  have hedge : (fun x c => c ∈ a.children x) = fun x c => c ∈ a'.children x := by
    funext x c
    rw [ha.children, ha'.children]
  have hheight : m'.computedHeight = m.computedHeight := by
    funext x
    apply Option.ext
    intro n
    rw [hm.height, hm'.height, hedge]
  have hchain : m'.longestChain = m.longestChain := by
    obtain ⟨x, hx⟩ := hm.attained
    obtain ⟨x', hx'⟩ := hm'.attained
    apply le_antisymm
    · exact hm.greatest x' _ (hheight ▸ hx')
    · exact hm'.greatest x _ (hheight ▸ hx)
  have hcommon : ∀ x n, CommonBlock a' ledgerCount m'.computedHeight x n ↔
      CommonBlock a ledgerCount m.computedHeight x n := by
    intro x n
    rw [ha.commonBlock_iff, ha'.commonBlock_iff, hheight]
  have hroot := Above.antisymm (hm'.highest _ _ ((hcommon _ _).mpr hm.root))
    (hm.highest _ _ ((hcommon _ _).mp hm'.root))
  obtain ⟨h', longest', root', rootHeight', walk'⟩ := m'
  dsimp only at hheight hchain hroot ⊢
  obtain ⟨hhash, hnumber⟩ := Prod.mk.inj hroot
  rw [hheight, hchain, hhash, hnumber]

end Collects

/-- **The chain metrics.** The ledgers have been merged into a graph without cycles. The worklist terminates
with the length of the longest path to every block that can be reached from GENESIS, `longestChain` is the
greatest of these, `longestDepthFrom` returns the length of the longest path down from its block whatever was
asked before, and the walk back from the common root arrives at GENESIS after as many steps as that block is
high. None of these depends on the order in which the hash maps and sets are run through. -/
theorem endOfRound_metrics (prefer : PreferCandidate) (runs : List (List LedgerCall)) (hruns : runs ≠ [])
    (hacyclic : Acyclic (Aggregated.ofLedgers (runs.map (PoW.called prefer))).children) :
    ∃ (m : Aggregated.Metrics) (depth : String → Nat) (bound : Nat),
      Measures (.ofLedgers (runs.map (PoW.called prefer))) runs.length m depth ∧
      ∀ ledgers, SameLedgers (runs.map (PoW.called prefer)) ledgers →
        ∀ (children blocks heights depths : IterationOrder) (fuel : Nat), bound ≤ fuel →
          ∃ walk, (Aggregated.ofLedgers ledgers).metrics children blocks heights runs.length fuel =
              some { m with walk := walk } ∧
            walk.current = GENESIS ∧ walk.steps = m.commonRootHeight ∧
            ∀ memo, (Aggregated.ofLedgers ledgers).DepthMemo depths m.computedHeight fuel memo →
              ∀ x, (m.computedHeight x).isSome → ∃ memo', (Aggregated.ofLedgers ledgers).longestDepthFrom depths
                m.computedHeight fuel [] memo x = some (depth x, memo') := by
  obtain ⟨ledgers, hledgers⟩ : ∃ ledgers, ledgers = runs.map (PoW.called prefer) := ⟨_, rfl⟩
  have hlength : ledgers.length = runs.length := by rw [hledgers, List.length_map]
  have hlinked : ∀ p ∈ ledgers, p.Linked := hledgers ▸ linked_runs
  have hrecords : ∀ r ∈ ledgers.flatMap PoW.blocks, r.hash ≠ "" := hledgers ▸ records_named
  have hroot := countP_genesis hlinked
  rw [hlength] at hroot
  have hpos : 0 < runs.length := List.length_pos_iff.mpr hruns
  have hcollects : ∀ ledgers', SameLedgers ledgers ledgers' →
      Collects (ledgers.flatMap PoW.blocks) (.ofLedgers ledgers') :=
    fun ledgers' hsame => hsame.collects hlinked (hlength ▸ hpos)
  rw [← hledgers] at hacyclic ⊢
  have ha := hcollects ledgers (.refl ledgers)
  obtain ⟨m, -, hm, -⟩ := ha.measures hacyclic hrecords hroot hpos .insertion .insertion .insertion le_rfl
  refine ⟨m, (ha.dag hacyclic).depth,
    ((ha.dag hacyclic).vertices.card + 1) * ((ha.dag hacyclic).vertices.card + 1), hm, ?_⟩
  intro ledgers' hsame children blocks heights depths fuel hfuel
  have ha' := hcollects ledgers' hsame
  have hacyclic' := ha.acyclic_congr ha' hacyclic
  rw [ha.dag_congr ha' hacyclic hacyclic'] at hfuel ⊢
  rw [ha'.card_vertices hacyclic'] at hfuel
  obtain ⟨m', hrun, hm', hdepth⟩ := ha'.measures hacyclic' hrecords hroot hpos children blocks heights hfuel
  have heq := ha.measures_unique ha' hm hm'
  have hheight : m'.computedHeight = m.computedHeight := by rw [heq]
  have hheight' : m'.commonRootHeight = m.commonRootHeight := by rw [heq]
  rw [hheight] at hdepth
  exact ⟨m'.walk, heq ▸ hrun, hm'.arrived, hm'.steps.trans hheight', hdepth depths⟩

def announce (hash : String) (parents : List String) (parasite : Bool) : LedgerCall :=
  .announced
    { hash, parents, miner := NO_PEER_ID, length := 0, parasite, tx := {}, roundMined := 0 }

/-- Two ledgers: one knows a diamond, the other one side of it and a block that was announced without a hash. -/
def diamondRuns : List (List LedgerCall) :=
  [[announce "a" [GENESIS] false, announce "b" [GENESIS] false, announce "c" ["a", "b"] false],
    [announce "a" [GENESIS] false, announce "" ["a"] false]]

theorem diamondRuns_acyclic :
    Acyclic (Aggregated.ofLedgers (diamondRuns.map (PoW.called PoWBitcoin.preferCandidate))).children := by
  refine (Collects.ofLedgers ?_).acyclic
    (fun h => if h = GENESIS then 0 else if h = "a" ∨ h = "b" then 1 else 2) ?_
  · decide +kernel
  · decide +kernel

theorem endOfRound_metrics_diamond :
    ∃ (m : Aggregated.Metrics) (depth : String → Nat) (bound : Nat),
      Measures (.ofLedgers (diamondRuns.map (PoW.called PoWBitcoin.preferCandidate))) 2 m depth ∧
      ∀ (children blocks heights : IterationOrder) (fuel : Nat), bound ≤ fuel →
        ∃ walk, (Aggregated.ofLedgers (diamondRuns.map (PoW.called PoWBitcoin.preferCandidate))).metrics
            children blocks heights 2 fuel = some { m with walk := walk } ∧
          walk.current = GENESIS ∧ walk.steps = m.commonRootHeight := by
  obtain ⟨m, depth, bound, hm, hall⟩ := endOfRound_metrics PoWBitcoin.preferCandidate diamondRuns
    (by decide) diamondRuns_acyclic
  refine ⟨m, depth, bound, hm, fun children blocks heights fuel hfuel => ?_⟩
  obtain ⟨walk, hrun, hcurrent, hsteps, -⟩ := hall _ (.refl _) children blocks heights .insertion fuel
    hfuel
  exact ⟨walk, hrun, hcurrent, hsteps⟩

end Quantas
