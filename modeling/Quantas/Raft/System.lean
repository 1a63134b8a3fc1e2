import Quantas.Lib.Transition
import Quantas.Raft.Frame

/-!
# Raft: the system of peers

The peers of one committee on a complete network, and the packets sent so far. An event lets one peer
pop a packet from its in-stream and handle it, or run its `tick`, or advances the round. A packet may be
handled at any later round, any number of times and in any order, or never: that covers delay,
duplication, reordering and loss, and a peer that takes no step is crashed or slow. `performComputation`
of a peer is some receptions followed by a `tick`.
-/

namespace Quantas.Raft

structure Config where
  committee : Committee
  submitRate : Int := 20
  timeoutSpacing : Int := 100
  timeoutJitter : Int := 5

/-- A global state: the round, the peers' states and all packets sent so far. -/
structure System where
  round : Nat
  peers : InterfaceId → RaftConsensus
  sent : List (Packet Message)

/-- An event, with the random draws that its handler makes. -/
inductive Event
  | nextRound
  | receive (p : InterfaceId) (pkt : Packet Message) (draws : List Nat)
  | tick (p : InterfaceId) (draws : List Nat)
  deriving DecidableEq, Repr

/-- The state that the constructor and `initParameters` give a peer, where `jitter` is the draw of the
constructor's `resetTimer`. -/
def initialPeer (cfg : Config) (jitter : Int) : RaftConsensus where
  timeOutRound := 0 + 100 + jitter
  submitRate := cfg.submitRate
  timeOutSpacing := cfg.timeoutSpacing
  timeOutRandom := cfg.timeoutJitter

namespace System
variable (cfg : Config) (sys : System)

def ctx (p : InterfaceId) : Ctx where
  self := p
  neighbors := cfg.committee.members.filter (· ≠ p)
  members := cfg.committee.members
  round := sys.round

/-- The local state in which a handler of peer `p` starts. -/
def start (p : InterfaceId) (draws : List Nat) : Local :=
  { sys.peers p with outbox := [], draws := draws }

/-- Peer `p` has run a handler that ended in `r`. -/
def after (p : InterfaceId) (r : Local) : System where
  round := sys.round
  peers := Function.update sys.peers p r.toRaftConsensus
  sent := sys.sent ++ r.outbox

def step : Event → Option System
  | .nextRound => some { sys with round := sys.round + 1 }
  | .receive p pkt draws =>
    if p ∈ cfg.committee.members ∧ pkt ∈ sys.sent ∧ pkt.target = p then
      some (sys.after p (onMessage (sys.ctx cfg p) pkt.message (sys.start p draws)))
    else none
  | .tick p draws =>
    if p ∈ cfg.committee.members then
      some (sys.after p (Raft.tick (sys.ctx cfg p) (sys.start p draws)))
    else none

/-- Before the first round nothing has been sent, and every peer is as constructed. -/
def Initial : Prop :=
  sys.round = 0 ∧ sys.sent = [] ∧
    ∀ p, ∃ jitter, 0 ≤ jitter ∧ jitter < 5 ∧ sys.peers p = initialPeer cfg jitter

/-- The first state, where the constructors have drawn `jitter`. -/
def fresh (cfg : Config) (jitter : InterfaceId → Int) : System where
  round := 0
  peers := fun p => initialPeer cfg (jitter p)
  sent := []

end System

def machine (cfg : Config) : Lib.Machine System Event where
  initial := System.Initial cfg
  step := System.step cfg

namespace System
variable {cfg : Config} {sys : System}

theorem initial_fresh {jitter : InterfaceId → Int} (h : ∀ p, 0 ≤ jitter p ∧ jitter p < 5) :
    (machine cfg).initial (fresh cfg jitter) :=
  ⟨rfl, rfl, fun p => ⟨jitter p, (h p).1, (h p).2, rfl⟩⟩

@[simp] theorem ctx_self (p : InterfaceId) : (sys.ctx cfg p).self = p := rfl

@[simp] theorem ctx_members (p : InterfaceId) : (sys.ctx cfg p).members = cfg.committee.members := rfl

theorem mem_neighbors {p q : InterfaceId} :
    q ∈ (sys.ctx cfg p).neighbors ↔ q ∈ cfg.committee.members ∧ q ≠ p := by
  simp [ctx, List.mem_filter]

theorem after_self {p : InterfaceId} {r : Local} : (sys.after p r).peers p = r.toRaftConsensus :=
  Function.update_self ..

theorem after_other {p q : InterfaceId} {r : Local} (h : q ≠ p) :
    (sys.after p r).peers q = sys.peers q :=
  Function.update_of_ne h _ _

theorem step_cases {e : Event} {sys' : System} (h : step cfg sys e = some sys') :
    (e = .nextRound ∧ sys' = { sys with round := sys.round + 1 }) ∨
    (∃ p pkt draws, e = .receive p pkt draws ∧ p ∈ cfg.committee.members ∧ pkt ∈ sys.sent ∧
      pkt.target = p ∧
      sys' = sys.after p (onMessage (sys.ctx cfg p) pkt.message (sys.start p draws))) ∨
    (∃ p draws, e = .tick p draws ∧ p ∈ cfg.committee.members ∧
      sys' = sys.after p (Raft.tick (sys.ctx cfg p) (sys.start p draws))) := by
  cases e with
  | nextRound => exact .inl ⟨rfl, (Option.some.inj h).symm⟩
  | receive p pkt draws =>
    rw [step] at h
    split_ifs at h with hp
    exact .inr (.inl ⟨p, pkt, draws, rfl, hp.1, hp.2.1, hp.2.2, (Option.some.inj h).symm⟩)
  | tick p draws =>
    rw [step] at h
    split_ifs at h with hp
    exact .inr (.inr ⟨p, draws, rfl, hp, (Option.some.inj h).symm⟩)

theorem peers_invariant {guard : System → Event → Prop} {P : InterfaceId → RaftConsensus → Prop}
    (hinit : ∀ p jitter, P p (initialPeer cfg jitter))
    (hreceive : ∀ (sys : System) p pkt draws, P p (sys.peers p) → guard sys (.receive p pkt draws) →
      P p (onMessage (sys.ctx cfg p) pkt.message (sys.start p draws)).toRaftConsensus)
    (htick : ∀ (sys : System) p draws, P p (sys.peers p) →
      P p (Raft.tick (sys.ctx cfg p) (sys.start p draws)).toRaftConsensus)
    (h : (machine cfg).ReachedUnder guard sys) : ∀ p, P p (sys.peers p) := by
  have hafter : ∀ (sys : System) (p : InterfaceId) (r : Local), (∀ q, P q (sys.peers q)) →
      P p r.toRaftConsensus → ∀ q, P q ((sys.after p r).peers q) := by
    intro sys p r inv hr q
    by_cases hq : q = p
    · subst hq
      rw [after_self]
      exact hr
    · rw [after_other hq]
      exact inv q
  refine h.invariant (P := fun sys => ∀ p, P p (sys.peers p)) ?_ ?_
  · intro sys hinitial p
    obtain ⟨jitter, -, -, hp⟩ := hinitial.2.2 p
    rw [hp]
    exact hinit p jitter
  · intro sys e sys' inv hguard hstep
    rcases step_cases hstep with ⟨-, rfl⟩ | ⟨p, pkt, draws, rfl, -, -, -, rfl⟩ |
      ⟨p, draws, rfl, -, rfl⟩
    · exact inv
    · exact hafter sys p _ inv (hreceive sys p pkt draws (inv p) hguard)
    · exact hafter sys p _ inv (htick sys p draws (inv p))

end System

end Quantas.Raft
