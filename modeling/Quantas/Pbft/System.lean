import Quantas.Lib.Transition
import Quantas.Pbft.Consensus

/-!
# PBFT: the system of replicas

The replicas of one committee on a complete network, and the packets sent so far. An event advances the
round, lets a replica take a packet from its in-stream, or makes one call of `runPhase`; the call at the end
of a phase is an event of its own. A packet may be taken at any later round, any number of times and in any
order, or never.
-/

namespace Quantas.Pbft

structure Config where
  committee : Committee
  fault : InterfaceId → Option EquivocateFault := fun _ => none
  digestOf : ClientRequest → String
  computeStateDigest : List ClientRequest → String

/-- A global state: the round, the states of the replicas and all packets sent so far. -/
structure System where
  round : Nat
  peers : InterfaceId → PBFTConsensus
  sent : List (Packet Message)

inductive Event
  | nextRound
  | receive (p : InterfaceId) (pkt : Packet Message)
  | call (p : InterfaceId)
  deriving DecidableEq, Repr

namespace System
variable (cfg : Config) (sys : System)

def ctx (p : InterfaceId) : Ctx where
  self := p
  members := cfg.committee.members
  round := sys.round
  fault := cfg.fault p
  digestOf := cfg.digestOf
  computeStateDigest := cfg.computeStateDigest

/-- The local state in which a call of replica `p` starts. -/
def start (p : InterfaceId) : Local := { sys.peers p with outbox := [] }

/-- Replica `p` has made a call that ended in `r`. -/
def after (p : InterfaceId) (r : Local) : System where
  round := sys.round
  peers := Function.update sys.peers p r.toPBFTConsensus
  sent := sys.sent ++ r.outbox

def step : Event → Option System
  | .nextRound => some { sys with round := sys.round + 1 }
  | .receive p pkt =>
    if p ∈ cfg.committee.members ∧ pkt ∈ sys.sent ∧ pkt.target = p ∧ pkt.source ≠ p then
      some (sys.after p (onMessage (sys.ctx cfg p) pkt.message (sys.start p)))
    else none
  | .call p =>
    if p ∈ cfg.committee.members then some (sys.after p (Pbft.call (sys.ctx cfg p) (sys.start p)).1)
    else none

/-- Before the first round nothing has been sent, and every replica is as constructed. -/
def initial : System where
  round := 0
  peers := fun _ => {}
  sent := []

end System

def machine (cfg : Config) : Lib.Machine System Event where
  initial := fun sys => sys = System.initial
  step := System.step cfg

namespace System
variable {cfg : Config} {sys : System}

@[simp] theorem ctx_self (p : InterfaceId) : (sys.ctx cfg p).self = p := rfl

@[simp] theorem ctx_members (p : InterfaceId) : (sys.ctx cfg p).members = cfg.committee.members := rfl

@[simp] theorem ctx_round (p : InterfaceId) : (sys.ctx cfg p).round = sys.round := rfl

@[simp] theorem ctx_fault (p : InterfaceId) : (sys.ctx cfg p).fault = cfg.fault p := rfl

@[simp] theorem ctx_digestOf (p : InterfaceId) : (sys.ctx cfg p).digestOf = cfg.digestOf := rfl

theorem after_self {p : InterfaceId} {r : Local} : (sys.after p r).peers p = r.toPBFTConsensus :=
  Function.update_self ..

theorem after_other {p q : InterfaceId} {r : Local} (h : q ≠ p) :
    (sys.after p r).peers q = sys.peers q :=
  Function.update_of_ne h _ _

theorem step_cases {e : Event} {sys' : System} (h : step cfg sys e = some sys') :
    (e = .nextRound ∧ sys' = { sys with round := sys.round + 1 }) ∨
    (∃ p pkt, e = .receive p pkt ∧ p ∈ cfg.committee.members ∧ pkt ∈ sys.sent ∧ pkt.target = p ∧
      pkt.source ≠ p ∧ sys' = sys.after p (onMessage (sys.ctx cfg p) pkt.message (sys.start p))) ∨
    (∃ p, e = .call p ∧ p ∈ cfg.committee.members ∧
      sys' = sys.after p (Pbft.call (sys.ctx cfg p) (sys.start p)).1) := by
  cases e with
  | nextRound => exact .inl ⟨rfl, (Option.some.inj h).symm⟩
  | receive p pkt =>
    rw [step] at h
    split_ifs at h with hp
    exact .inr (.inl ⟨p, pkt, rfl, hp.1, hp.2.1, hp.2.2.1, hp.2.2.2, (Option.some.inj h).symm⟩)
  | call p =>
    rw [step] at h
    split_ifs at h with hp
    exact .inr (.inr ⟨p, rfl, hp, (Option.some.inj h).symm⟩)

end System

end Quantas.Pbft
