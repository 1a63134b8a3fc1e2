import Quantas.Lib.Lossy

/-!
# Rounds over a lossy network

A run of a lossy protocol in rounds: in a round every node reacts once, in some order, to packets of earlier
rounds. What the nodes make of a round depends only on the states in which they enter it. `Timely` says that for
some time nothing is lost and nothing comes later than some number of rounds after it was sent; `LockStep` that
every packet comes once, in the next round.
-/

namespace Lib.Lossy

variable {ι σ μ : Type*} [DecidableEq ι] [DecidableEq μ]

def roundEvents (order : List ι) (inStream : ι → List μ) : List (Event ι μ) :=
  order.map (fun i => .react i (inStream i)) ++ [.tick]

/-- A run in rounds: `net r` is the state in which round `r` begins. -/
structure Rounds (P : Protocol ι σ μ) [∀ i m, Decidable (P.accepts i m)] where
  order : Nat → List ι
  inStream : Nat → ι → List μ
  net : Nat → Net ι σ μ
  fits : ∀ r, (order r).Perm P.members
  starts : P.machine.initial (net 0)
  next : ∀ r, P.machine.run (net r) (roundEvents (order r) (inStream r)) = some (net (r + 1))
  earlier : ∀ r, ∀ i ∈ P.members, ∀ m ∈ inStream r i, m ∈ (net r).sent

namespace Rounds
variable {P : Protocol ι σ μ} [∀ i m, Decidable (P.accepts i m)]

theorem run_reactions {inStream : ι → List μ} {l : List ι} (hl : l.Nodup) {net net' : Net ι σ μ}
    (hrun : P.machine.run net (l.map fun i => .react i (inStream i)) = some net') :
    net'.time = net.time ∧
      (∀ i, net'.nodes i = if i ∈ l then (P.react i net.time (inStream i) (net.nodes i)).1 else net.nodes i) ∧
      net'.sent = net.sent ++ l.flatMap (fun i => (P.react i net.time (inStream i) (net.nodes i)).2) ∧
      ∀ i ∈ l, ∀ m ∈ inStream i, P.accepts i m := by
  induction l generalizing net with
  | nil =>
    obtain rfl := Option.some.inj hrun
    simp
  | cons j l ih =>
    obtain ⟨hj, hl⟩ := List.nodup_cons.mp hl
    rw [List.map_cons] at hrun
    obtain ⟨t, ht, hrest⟩ := Option.bind_eq_some_iff.mp hrun
    obtain ⟨hevent, -⟩ | ⟨i, stream, hevent, -, hmem, rfl⟩ := Protocol.step_cases ht
    · cases hevent
    obtain ⟨rfl, rfl⟩ := Event.react.inj hevent
    obtain ⟨htime, hnodes, hsent, haccepts⟩ := ih hl hrest
    have hothers : ∀ i ∈ l, (net.after j (P.react j net.time (inStream j) (net.nodes j))).nodes i = net.nodes i := by
      intro i hi
      apply Net.after_other
      intro hij
      exact hj (hij ▸ hi)
    refine ⟨htime, fun i => ?_, ?_, fun i hi => ?_⟩
    · rw [hnodes i]
      by_cases hi : i ∈ l
      · rw [if_pos hi, if_pos (List.mem_cons_of_mem _ hi), hothers i hi]
        rfl
      · rw [if_neg hi]
        by_cases hij : i = j
        · rw [hij, Net.after_self, if_pos List.mem_cons_self]
        · rw [Net.after_other hij, if_neg (by simp [hi, hij])]
    · have hlater : l.flatMap (fun i => (P.react i net.time (inStream i)
          ((net.after j (P.react j net.time (inStream j) (net.nodes j))).nodes i)).2) =
          l.flatMap fun i => (P.react i net.time (inStream i) (net.nodes i)).2 :=
        List.flatMap_congr fun i hi => by rw [hothers i hi]
      rw [hsent, List.flatMap_cons, ← List.append_assoc]
      exact congrArg _ hlater
    · rcases List.mem_cons.mp hi with rfl | hi
      · exact fun m hm => (hmem m hm).2
      · exact haccepts i hi

variable (R : Rounds P)

/-- The packets that node `i` sends in round `r`. -/
def sends (r : Nat) (i : ι) : List μ := (P.react i r (R.inStream r i) ((R.net r).nodes i)).2

/-- For the rounds from `a` to `b`, every packet sent comes within `delay` rounds. -/
def Timely (delay a b : Nat) : Prop :=
  ∀ r, a ≤ r → r < b → ∀ j ∈ P.members, ∀ m ∈ R.sends r j, ∀ i ∈ P.members, P.accepts i m →
    ∃ r', r < r' ∧ r' ≤ r + delay ∧ m ∈ R.inStream r' i

/-- What has been sent in a round is what comes in the next. -/
structure LockStep : Prop where
  first : ∀ i ∈ P.members, R.inStream 0 i = []
  next : ∀ r, ∀ i ∈ P.members,
    (R.inStream (r + 1) i).Perm ((P.members.flatMap (R.sends r)).filter fun m => decide (P.accepts i m))

theorem LockStep.mem_inStream {R : Rounds P} (h : R.LockStep) {r : Nat} {i : ι} (hi : i ∈ P.members) {m : μ} :
    m ∈ R.inStream (r + 1) i ↔ (∃ j ∈ P.members, m ∈ R.sends r j) ∧ P.accepts i m := by
  rw [(h.next r i hi).mem_iff, List.mem_filter, List.mem_flatMap, decide_eq_true_iff]

theorem LockStep.timely {R : Rounds P} (h : R.LockStep) (a b : Nat) : R.Timely 1 a b := by
  intro r _ _ j hj m hm i hi haccepts
  exact ⟨r + 1, Nat.lt_succ_self r, le_rfl, (h.mem_inStream hi).mpr ⟨⟨j, hj, hm⟩, haccepts⟩⟩

theorem LockStep.inStream_of_one {R : Rounds P} (h : R.LockStep) (hnodup : P.members.Nodup) {r : Nat} {i j : ι}
    (hi : i ∈ P.members) (hj : j ∈ P.members)
    (hone : ∀ k ∈ P.members, k ≠ j → ∀ m ∈ R.sends r k, ¬ P.accepts i m) :
    (R.inStream (r + 1) i).Perm ((R.sends r j).filter fun m => decide (P.accepts i m)) := by
  refine (h.next r i hi).trans ?_
  have hothers : (P.members.erase j).flatMap (fun k => (R.sends r k).filter fun m => decide (P.accepts i m)) = [] := by
    apply List.flatMap_eq_nil_iff.mpr
    intro k hk
    obtain ⟨hkj, hk⟩ := hnodup.mem_erase_iff.mp hk
    apply List.filter_eq_nil_iff.mpr
    intro m hm
    rw [decide_eq_true_iff]
    exact hone k hk hkj m hm
  rw [List.filter_flatMap]
  refine ((List.perm_cons_erase hj).flatMap_right _).trans ?_
  rw [List.flatMap_cons, hothers, List.append_nil]

theorem reached (r : Nat) : P.machine.Reached (R.net r) := by
  induction r with
  | zero => exact .start R.starts
  | succ r ih => exact Machine.reached_of_run ih (R.next r)

section Round
variable (hnodup : P.members.Nodup)
include hnodup

theorem round (r : Nat) : (R.net (r + 1)).time = (R.net r).time + 1 ∧
    (∀ i ∈ P.members, (R.net (r + 1)).nodes i =
      (P.react i (R.net r).time (R.inStream r i) ((R.net r).nodes i)).1) ∧
    (R.net (r + 1)).sent = (R.net r).sent ++
      (R.order r).flatMap (fun i => (P.react i (R.net r).time (R.inStream r i) ((R.net r).nodes i)).2) ∧
    ∀ i ∈ P.members, ∀ m ∈ R.inStream r i, P.accepts i m := by
  have hrun := R.next r
  rw [roundEvents, Machine.run_append] at hrun
  obtain ⟨t, ht, htick⟩ := Option.bind_eq_some_iff.mp hrun
  obtain ⟨htime, hnodes, hsent, haccepts⟩ := run_reactions ((R.fits r).nodup_iff.mpr hnodup) ht
  have hnext : { t with time := t.time + 1 } = R.net (r + 1) := Option.some.inj htick
  have hmem : ∀ i, i ∈ R.order r ↔ i ∈ P.members := fun i => (R.fits r).mem_iff
  rw [← hnext]
  refine ⟨congrArg (· + 1) htime, fun i hi => ?_, hsent, fun i hi => haccepts i ((hmem i).mpr hi)⟩
  have hnode := hnodes i
  rw [if_pos ((hmem i).mpr hi)] at hnode
  exact hnode

theorem time (r : Nat) : (R.net r).time = r := by
  induction r with
  | zero => rw [show R.net 0 = ⟨0, P.initial, []⟩ from R.starts]
  | succ r ih => rw [(R.round hnodup r).1, ih]

theorem node {i : ι} (hi : i ∈ P.members) (r : Nat) :
    (R.net (r + 1)).nodes i = (P.react i r (R.inStream r i) ((R.net r).nodes i)).1 := by
  rw [(R.round hnodup r).2.1 i hi, R.time hnodup]

theorem sent_succ (r : Nat) : (R.net (r + 1)).sent = (R.net r).sent ++ (R.order r).flatMap (R.sends r) := by
  rw [(R.round hnodup r).2.2.1, R.time hnodup]
  rfl

theorem accepted {r : Nat} {i : ι} (hi : i ∈ P.members) {m : μ} (hm : m ∈ R.inStream r i) : P.accepts i m :=
  (R.round hnodup r).2.2.2 i hi m hm

end Round

/-! ## Lock-step in the order of the members -/

section InStep
variable (P)

def inStepNet : Nat → Net ι σ μ × List μ
  | 0 => (⟨0, P.initial, []⟩, [])
  | r + 1 =>
    let last := inStepNet r
    let net := (P.machine.run last.1
      (roundEvents P.members fun i => last.2.filter fun m => decide (P.accepts i m))).getD last.1
    (net, net.sent.drop last.1.sent.length)

variable {P}

theorem run_reactions_isSome {inStream : ι → List μ} {l : List ι} (hl : ∀ i ∈ l, i ∈ P.members) {net : Net ι σ μ}
    (hstream : ∀ i ∈ l, ∀ m ∈ inStream i, m ∈ net.sent ∧ P.accepts i m) :
    ∃ net', P.machine.run net (l.map fun i => .react i (inStream i)) = some net' := by
  induction l generalizing net with
  | nil => exact ⟨net, rfl⟩
  | cons j l ih =>
    have hstep : P.machine.step net (.react j (inStream j)) =
        some (net.after j (P.react j net.time (inStream j) (net.nodes j))) :=
      if_pos ⟨hl j List.mem_cons_self, hstream j List.mem_cons_self⟩
    have hlater : ∀ i ∈ l, ∀ m ∈ inStream i,
        m ∈ (net.after j (P.react j net.time (inStream j) (net.nodes j))).sent ∧ P.accepts i m := by
      intro i hi m hm
      obtain ⟨hsent, haccepts⟩ := hstream i (List.mem_cons_of_mem _ hi) m hm
      exact ⟨Net.mem_after_sent.mpr (.inl hsent), haccepts⟩
    obtain ⟨net', hnet'⟩ := ih (fun i hi => hl i (List.mem_cons_of_mem _ hi)) hlater
    refine ⟨net', ?_⟩
    rw [List.map_cons, Machine.run, hstep]
    exact hnet'

theorem inStepNet_earlier (r : Nat) : ∀ m ∈ (inStepNet P r).2, m ∈ (inStepNet P r).1.sent := by
  intro m hm
  cases r with
  | zero => exact absurd hm List.not_mem_nil
  | succ r => exact List.mem_of_mem_drop hm

theorem inStepNet_next (r : Nat) : P.machine.run (inStepNet P r).1
    (roundEvents P.members fun i => (inStepNet P r).2.filter fun m => decide (P.accepts i m)) =
      some (inStepNet P (r + 1)).1 := by
  have hstream : ∀ i ∈ P.members, ∀ m ∈ (inStepNet P r).2.filter (fun m => decide (P.accepts i m)),
      m ∈ (inStepNet P r).1.sent ∧ P.accepts i m := by
    intro i _ m hm
    obtain ⟨hsent, haccepts⟩ := List.mem_filter.mp hm
    exact ⟨inStepNet_earlier r m hsent, of_decide_eq_true haccepts⟩
  obtain ⟨t, ht⟩ := run_reactions_isSome (fun _ hi => hi) hstream
  have hrun : P.machine.run (inStepNet P r).1
      (roundEvents P.members fun i => (inStepNet P r).2.filter fun m => decide (P.accepts i m)) =
        some { t with time := t.time + 1 } := by
    rw [roundEvents, Machine.run_append, ht]
    rfl
  rw [hrun, inStepNet]
  dsimp only
  rw [hrun, Option.getD_some]

variable (P)

def inStep : Rounds P where
  order := fun _ => P.members
  inStream := fun r i => (inStepNet P r).2.filter fun m => decide (P.accepts i m)
  net := fun r => (inStepNet P r).1
  fits := fun _ => .refl _
  starts := rfl
  next := inStepNet_next
  earlier := fun r _ _ m hm => inStepNet_earlier r m (List.mem_filter.mp hm).1

variable {P}

theorem inStep_lockStep (hnodup : P.members.Nodup) : (inStep P).LockStep where
  first := fun _ _ => rfl
  next := by
    intro r i _
    have hsent := (inStep P).sent_succ hnodup r
    have hfresh : (inStepNet P (r + 1)).2 = P.members.flatMap ((inStep P).sends r) := by
      change (inStepNet P (r + 1)).1.sent.drop (inStepNet P r).1.sent.length = _
      change (inStepNet P (r + 1)).1.sent = (inStepNet P r).1.sent ++ _ at hsent
      rw [hsent, List.drop_left]
      rfl
    change ((inStepNet P (r + 1)).2.filter _).Perm _
    rw [hfresh]

end InStep

end Rounds

end Lib.Lossy
