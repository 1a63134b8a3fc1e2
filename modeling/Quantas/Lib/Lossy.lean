import Quantas.Lib.Transition

/-!
# Nodes over a lossy network

A node reacts to the packets that it takes from the network with a new state and packets for others. The
network keeps every packet that was ever sent, and any node may take any packets that it accepts, at any
later time, in any order and any number of times, or never: this is loss, duplication, delay and reordering.

`logged` lets every node write down something about each of its reactions. The runs stay the same
(`reached_logged_iff`); a condition on the reactions or a result may then speak of the past.
-/

namespace Lib.Lossy

/-- `react i t inStream s` is what node `i`, in state `s`, makes of the packets `inStream` at time `t`: its new
state and the packets that it sends. -/
structure Protocol (ι σ μ : Type*) where
  members : List ι
  initial : ι → σ
  accepts : ι → μ → Prop
  react : ι → Nat → List μ → σ → σ × List μ

/-- A global state: the time, the states of the nodes and all packets sent so far. -/
structure Net (ι σ μ : Type*) where
  time : Nat
  nodes : ι → σ
  sent : List μ

inductive Event (ι μ : Type*)
  | tick
  | react (i : ι) (inStream : List μ)

variable {ι σ μ : Type*} [DecidableEq ι]

namespace Net

/-- Node `i` has reacted with the state and the packets `r`. -/
def after (net : Net ι σ μ) (i : ι) (r : σ × List μ) : Net ι σ μ where
  time := net.time
  nodes := Function.update net.nodes i r.1
  sent := net.sent ++ r.2

variable {net : Net ι σ μ} {i j : ι} {r : σ × List μ}

@[simp] theorem after_self : (net.after i r).nodes i = r.1 := Function.update_self ..

theorem after_other (h : j ≠ i) : (net.after i r).nodes j = net.nodes j := Function.update_of_ne h ..

theorem forall_after {Q : ι → σ → Prop} (hself : Q i r.1) (hother : ∀ j, j ≠ i → Q j (net.nodes j)) (j : ι) :
    Q j ((net.after i r).nodes j) := by
  by_cases hj : j = i
  · subst hj
    rw [after_self]
    exact hself
  · rw [after_other hj]
    exact hother j hj

theorem mem_after_sent {m : μ} : m ∈ (net.after i r).sent ↔ m ∈ net.sent ∨ m ∈ r.2 := List.mem_append

def forget {κ : Type*} (net : Net ι (σ × List κ) μ) : Net ι σ μ where
  time := net.time
  nodes := fun i => (net.nodes i).1
  sent := net.sent

theorem forget_after {κ : Type*} (net : Net ι (σ × List κ) μ) (i : ι) (r : σ × List μ) (l : List κ) :
    forget (net.after i ((r.1, l), r.2)) = (forget net).after i r := by
  have hnodes : (fun j => (Function.update net.nodes i (r.1, l) j).1) =
      Function.update (fun j => (net.nodes j).1) i r.1 := by
    funext j
    by_cases hj : j = i
    · subst hj
      rw [Function.update_self, Function.update_self]
    · rw [Function.update_of_ne hj, Function.update_of_ne hj]
  unfold forget after
  rw [hnodes]

end Net

namespace Protocol
variable [DecidableEq μ] (P : Protocol ι σ μ) [∀ i m, Decidable (P.accepts i m)]

def step (net : Net ι σ μ) : Event ι μ → Option (Net ι σ μ)
  | .tick => some { net with time := net.time + 1 }
  | .react i inStream =>
    if i ∈ P.members ∧ ∀ m ∈ inStream, m ∈ net.sent ∧ P.accepts i m then
      some (net.after i (P.react i net.time inStream (net.nodes i)))
    else none

def machine : Machine (Net ι σ μ) (Event ι μ) where
  initial := fun net => net = ⟨0, P.initial, []⟩
  step := P.step

variable {P} {net net' : Net ι σ μ}

theorem step_cases {e : Event ι μ} (h : P.machine.step net e = some net') :
    (e = .tick ∧ net' = { net with time := net.time + 1 }) ∨
    ∃ i inStream, e = .react i inStream ∧ i ∈ P.members ∧ (∀ m ∈ inStream, m ∈ net.sent ∧ P.accepts i m) ∧
      net' = net.after i (P.react i net.time inStream (net.nodes i)) := by
  cases e with
  | tick => exact .inl ⟨rfl, (Option.some.inj h).symm⟩
  | react i inStream =>
    change (if _ then some _ else none) = _ at h
    split_ifs at h with hmem
    exact .inr ⟨i, inStream, rfl, hmem.1, hmem.2, (Option.some.inj h).symm⟩

/-- What holds initially, does not mention the time and is kept by every reaction holds in every net reached;
`guard` is a condition on the reactions. -/
theorem invariant {guard : Net ι σ μ → Event ι μ → Prop} {I : Net ι σ μ → Prop}
    (hinit : I ⟨0, P.initial, []⟩) (htime : ∀ net t, I net → I { net with time := t })
    (hreact : ∀ net i inStream, I net → guard net (.react i inStream) → i ∈ P.members →
      (∀ m ∈ inStream, m ∈ net.sent ∧ P.accepts i m) →
      I (net.after i (P.react i net.time inStream (net.nodes i))))
    (h : P.machine.ReachedUnder guard net) : I net := by
  refine h.invariant (fun s hs => ?_) fun s e s' hs hguard hstep => ?_
  · rw [show s = _ from hs]
    exact hinit
  · rcases step_cases hstep with ⟨-, rfl⟩ | ⟨i, inStream, rfl, hi, hmem, rfl⟩
    · exact htime s _ hs
    · exact hreact s i inStream hs hguard hi hmem

/-! ## Histories -/

section Logged
variable {κ : Type*} (P) (log : ι → Nat → List μ → σ → κ)

/-- The protocol whose nodes also write down what `log` says of each reaction. -/
def logged : Protocol ι (σ × List κ) μ where
  members := P.members
  initial := fun i => (P.initial i, [])
  accepts := P.accepts
  react := fun i time inStream s =>
    (((P.react i time inStream s.1).1, s.2 ++ [log i time inStream s.1]), (P.react i time inStream s.1).2)

instance (i : ι) (m : μ) : Decidable ((P.logged log).accepts i m) :=
  inferInstanceAs (Decidable (P.accepts i m))

end Logged

theorem reached_logged_iff {κ : Type*} (log : ι → Nat → List μ → σ → κ) (net : Net ι σ μ) :
    P.machine.Reached net ↔ ∃ net', (P.logged log).machine.Reached net' ∧ net'.forget = net := by
  constructor
  · intro h
    induction h with
    | start hs => exact ⟨⟨0, (P.logged log).initial, []⟩, .start rfl, hs.symm⟩
    | next _ _ he ih =>
      obtain ⟨net', hreached, rfl⟩ := ih
      rcases step_cases he with ⟨rfl, rfl⟩ | ⟨i, inStream, rfl, hi, hmem, rfl⟩
      · exact ⟨_, .next (e := .tick) hreached trivial rfl, rfl⟩
      · exact ⟨_, .next (e := .react i inStream) hreached trivial (if_pos ⟨hi, hmem⟩),
          net'.forget_after i _ _⟩
  · rintro ⟨net', h, rfl⟩
    induction h with
    | start hs =>
      refine .start ?_
      rw [show _ = _ from hs]
      rfl
    | @next net' _ _ _ _ he ih =>
      rcases step_cases he with ⟨rfl, rfl⟩ | ⟨i, inStream, rfl, hi, hmem, rfl⟩
      · exact .next (e := .tick) ih trivial rfl
      · have hafter : (net'.after i ((P.logged log).react i net'.time inStream (net'.nodes i))).forget =
            net'.forget.after i (P.react i net'.time inStream (net'.nodes i).1) :=
          net'.forget_after i _ _
        rw [hafter]
        exact .next (e := .react i inStream) ih trivial (if_pos ⟨hi, hmem⟩)

end Protocol

end Lib.Lossy
