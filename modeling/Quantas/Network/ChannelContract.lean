import Quantas.Lib.Conduit
import Quantas.Lib.Transition
import Quantas.Network.Channel

/-!
# The contract of a channel

The life of one channel: rounds pass, its source pushes packets, its target receives. `Life` keeps, beside
the channel, the copies that the pushes accepted and what each receive moved, so the channel and its history
are a conduit (`Life.conduit`). `channel_contract` says what every such life keeps.
-/

namespace Quantas.Abstract

open Lib

/-- A `receive` call: its round, and the packets it moved. -/
structure Delivery (μ : Type) where
  round : Nat
  moved : List (Packet μ)

/-- A channel with its history. -/
structure Life (μ : Type) where
  channel : Channel μ
  currentRound : Nat
  accepted : List (Packet μ) := []
  deliveries : List (Delivery μ) := []

inductive ChannelEvent (μ : Type)
  | incrementRound
  | pushPacket (pkt : Packet μ) (draws : PushDraws)
  | receive (draws : ShuffleDraws)

namespace Life
variable {μ : Type} (s : Life μ)

def delivered : List (Packet μ) := s.deliveries.flatMap (·.moved)

def conduit : Conduit (Packet μ) where
  entered := s.accepted
  held := s.channel.packetQueue
  left := s.delivered

/-- One event. A packet's `_round` is an `int`; a push that throws leads nowhere. -/
def step (s : Life μ) : ChannelEvent μ → Option (Life μ)
  | .incrementRound => some { s with currentRound := s.currentRound + 1 }
  | .pushPacket pkt draws =>
    if IsInt pkt.round then
      match s.channel.pushPacket pkt draws with
      | .ok (channel, copies) => some { s with channel, accepted := s.accepted ++ copies }
      | .error _ => none
    else none
  | .receive draws =>
    let (channel, moved) := s.channel.receive s.currentRound draws
    some { s with channel, deliveries := s.deliveries ++ [⟨s.currentRound, moved⟩] }

/-- The lives of a channel that is created in round `created` of `lastRound`. -/
def machine (μ : Type) (params : ChannelParams) (created lastRound : Nat) :
    Machine (Life μ) (ChannelEvent μ) where
  initial s := s = { channel := .setParameters params created lastRound, currentRound := created }
  step := step

end Life

/-- The configurations that the contract is about. -/
structure Sane (p : ChannelProperties) : Prop extends Channel.Drawable p where
  size : 0 < p.size
  maxMsgsRec : 0 < p.maxMsgsRec

/-- The budget of a channel is an `int`. A channel is created no later than in the last round: `run` sets the
round to 0 before it makes the network. -/
structure BudgetFits (p : ChannelProperties) (created lastRound : Nat) : Prop where
  created_le : created ≤ lastRound
  fits : p.maxMsgsRec * (lastRound - created) ≤ INT_MAX

structure Contract (p : ChannelProperties) (created lastRound : Nat) {μ : Type} (s : Life μ) : Prop where
  /-- No call throws. -/
  returns : ∀ pkt draws, ∃ r, s.channel.pushPacket pkt draws = .ok r
  /-- What was delivered and what is queued are the copies accepted, each once. -/
  conserved : (s.delivered ++ s.channel.packetQueue).Perm s.accepted
  /-- They are so in the order of acceptance if nothing is reordered. -/
  inOrder : p.reorderProbability = 0 → s.delivered ++ s.channel.packetQueue = s.accepted
  /-- Nothing is early. -/
  onTime : ∀ d ∈ s.deliveries, ∀ pkt ∈ d.moved, 1 ≤ pkt.delay ∧ pkt.round + pkt.delay ≤ d.round
  /-- A receive moves at most `maxMsgsRec` packets. -/
  rate : ∀ d ∈ s.deliveries, (d.moved.length : Int) ≤ p.maxMsgsRec
  size : (s.channel.packetQueue.length : Int) ≤ p.size
  /-- The budget is for the rounds that were left at the creation. -/
  budget : (s.accepted.length : Int) ≤ p.maxMsgsRec * (lastRound - created)

/-! ## The invariant -/

def Waits {μ : Type} (pkt : Packet μ) : Prop := 1 ≤ pkt.delay ∧ pkt.delay ≤ INT_MAX ∧ IsInt pkt.round

structure Life.Sound (p : ChannelProperties) (created lastRound : Nat) {μ : Type} (s : Life μ) : Prop where
  properties : s.channel.properties = p
  funded : 0 ≤ s.channel.throughputLeft
  budget : s.channel.throughputLeft + s.accepted.length = p.maxMsgsRec * (lastRound - created)
  size : s.channel.packetQueue.length ≤ toSizeT p.size
  waits : ∀ pkt ∈ s.channel.packetQueue, Waits pkt
  conserved : s.conduit.Conserved
  inOrder : p.reorderProbability ≤ 0 → s.conduit.InOrder
  onTime : ∀ d ∈ s.deliveries, ∀ pkt ∈ d.moved, 1 ≤ pkt.delay ∧ pkt.round + pkt.delay ≤ d.round
  rate : ∀ d ∈ s.deliveries, (d.moved.length : Int) ≤ p.maxMsgsRec

section life
variable {μ : Type} {params : ChannelParams} {created lastRound : Nat}

theorem ints_ofParams (params : ChannelParams) {ch : Channel μ}
    (h : ch.properties = ChannelProperties.ofParams params) : ch.Ints := by
  unfold Channel.Ints
  rw [h]
  exact ⟨isInt_getInt _, isInt_getInt _, isInt_getInt _⟩

theorem budget_eq {m r : Int} (hm : 0 < m) (hr : 0 ≤ r) (h : m * r ≤ INT_MAX) (hmax : m ≤ INT_MAX) :
    getInt (toSizeT (toSizeT m * toSizeT r)) = m * r := by
  have hbound : INT_MAX < 2 ^ 64 := by decide
  have hnonneg : 0 ≤ m * r := mul_nonneg hm.le hr
  have hle : r ≤ m * r := le_mul_of_one_le_left hr hm
  rw [toSizeT_eq hm.le (by omega), toSizeT_eq hr (by omega), toSizeT_eq hnonneg (by omega)]
  apply getInt_eq
  exact ⟨le_trans (by norm_num) hnonneg, h⟩

theorem setParameters_throughputLeft (hsane : Sane (ChannelProperties.ofParams params))
    (hfits : BudgetFits (ChannelProperties.ofParams params) created lastRound) :
    (Channel.setParameters params created lastRound : Channel μ).throughputLeft =
      (ChannelProperties.ofParams params).maxMsgsRec * (lastRound - created) := by
  have hle : (0 : Int) ≤ lastRound - created := by
    have hcreated := hfits.created_le
    omega
  have hmax : (ChannelProperties.ofParams params).maxMsgsRec ≤ INT_MAX := (isInt_getInt _).2
  unfold Channel.setParameters
  dsimp only
  exact budget_eq hsane.maxMsgsRec hle hfits.fits hmax

theorem Life.Sound.start (hsane : Sane (ChannelProperties.ofParams params))
    (hfits : BudgetFits (ChannelProperties.ofParams params) created lastRound) :
    Life.Sound (ChannelProperties.ofParams params) created lastRound
      { channel := Channel.setParameters (μ := μ) params created lastRound, currentRound := created } := by
  have hbudget := setParameters_throughputLeft (μ := μ) hsane hfits
  refine ⟨rfl, ?_, ?_, Nat.zero_le _, fun _ h => absurd h List.not_mem_nil, .nil, fun _ => rfl,
    fun _ h => absurd h List.not_mem_nil, fun _ h => absurd h List.not_mem_nil⟩
  · rw [hbudget]
    exact mul_nonneg hsane.maxMsgsRec.le (by have hcreated := hfits.created_le; omega)
  · rw [hbudget]
    exact add_zero _

theorem Life.Sound.pushPacket {s : Life μ} (h : s.Sound (ChannelProperties.ofParams params) created lastRound)
    {pkt : Packet μ} (hround : IsInt pkt.round) {draws : PushDraws} {ch : Channel μ}
    {copies : List (Packet μ)} (hpush : s.channel.pushPacket pkt draws = .ok (ch, copies)) :
    Life.Sound (ChannelProperties.ofParams params) created lastRound
      { s with channel := ch, accepted := s.accepted ++ copies } := by
  have hpushed := Channel.pushPacket_spec (ints_ofParams params h.properties) hpush
  obtain ⟨hfunded, hspent⟩ := hpushed.budget h.funded
  refine ⟨hpushed.properties.trans h.properties, hfunded, ?_, ?_, ?_, ?_, ?_, h.onTime, h.rate⟩
  · rw [← h.budget, ← hspent, List.length_append]
    push_cast
    ring
  · by_cases hnil : copies = []
    · rw [hpushed.queue, hnil, List.append_nil]
      exact h.size
    · rw [← h.properties]
      exact hpushed.size hnil
  · intro p hp
    rw [hpushed.queue, List.mem_append] at hp
    rcases hp with hp | hp
    · exact h.waits p hp
    · obtain ⟨hdelay, hmax, hcopy⟩ := hpushed.isCopy p hp
      refine ⟨hdelay, hmax, ?_⟩
      rw [hcopy]
      exact hround
  · have henter := h.conserved.enter copies
    unfold Conduit.enter conduit at henter
    rwa [← hpushed.queue] at henter
  · intro hzero
    have henter := (h.inOrder hzero).enter copies
    unfold Conduit.enter conduit at henter
    rwa [← hpushed.queue] at henter

theorem Life.Sound.receive {s : Life μ} (hsane : Sane (ChannelProperties.ofParams params))
    (h : s.Sound (ChannelProperties.ofParams params) created lastRound) (draws : ShuffleDraws) :
    Life.Sound (ChannelProperties.ofParams params) created lastRound
      { s with
        channel := (s.channel.receive s.currentRound draws).1
        deliveries := s.deliveries ++ [⟨s.currentRound, (s.channel.receive s.currentRound draws).2⟩] } := by
  have hreceived := s.channel.receive_spec s.currentRound draws
  have hprops := hreceived.properties.trans h.properties
  have hperm := hreceived.perm
  have hwaits : ∀ p ∈ (s.channel.receive s.currentRound draws).2 ++
      (s.channel.receive s.currentRound draws).1.packetQueue, Waits p := fun p hp =>
    h.waits p (hperm.mem_iff.mp hp)
  refine ⟨hprops, hreceived.throughputLeft ▸ h.funded, hreceived.throughputLeft ▸ h.budget, ?_, ?_, ?_, ?_,
    ?_, ?_⟩
  · refine le_trans ?_ h.size
    rw [← hperm.length_eq, List.length_append]
    exact Nat.le_add_left _ _
  · exact fun p hp => hwaits p (List.mem_append_right _ hp)
  · have hleave := (h.conserved.rearrange hperm).leave rfl
    simpa [Conduit.leave, Conduit.rearrange, conduit, delivered] using hleave
  · intro hzero
    have hleave := (h.inOrder hzero).leave (hreceived.inOrder (h.properties ▸ hzero))
    simpa [Conduit.leave, conduit, delivered] using hleave
  · intro d hd p hp
    rcases List.mem_append.mp hd with hd | hd
    · exact h.onTime d hd p hp
    · obtain rfl := List.mem_singleton.mp hd
      obtain ⟨hdelay, hmax, hround⟩ := hwaits p (List.mem_append_left _ hp)
      refine ⟨hdelay, Packet.le_of_hasArrived hround ⟨le_trans (by norm_num) hdelay, hmax⟩ ?_⟩
      exact hreceived.hasArrived p hp
  · intro d hd
    rcases List.mem_append.mp hd with hd | hd
    · exact h.rate d hd
    · obtain rfl := List.mem_singleton.mp hd
      have hrate := hreceived.rate (h.properties ▸ hsane.maxMsgsRec.le)
      rwa [h.properties] at hrate

theorem Life.Sound.step (hsane : Sane (ChannelProperties.ofParams params)) {s s' : Life μ}
    (h : s.Sound (ChannelProperties.ofParams params) created lastRound) {e : ChannelEvent μ}
    (hstep : s.step e = some s') : s'.Sound (ChannelProperties.ofParams params) created lastRound := by
  cases e with
  | incrementRound =>
    obtain rfl := Option.some.inj hstep
    exact ⟨h.properties, h.funded, h.budget, h.size, h.waits, h.conserved, h.inOrder, h.onTime, h.rate⟩
  | pushPacket pkt draws =>
    rw [Life.step] at hstep
    split_ifs at hstep with hround
    cases hpush : s.channel.pushPacket pkt draws with
    | error e =>
      rw [hpush] at hstep
      cases hstep
    | ok r =>
      rw [hpush] at hstep
      obtain rfl := Option.some.inj hstep
      exact h.pushPacket hround hpush
  | receive draws =>
    obtain rfl := Option.some.inj hstep
    exact h.receive hsane draws

/-- **The contract of a channel.** Whatever is drawn, and in whatever order its source pushes and its target
receives as the rounds pass: a channel whose budget fits keeps the contract in every state of its life. -/
theorem channel_contract (params : ChannelParams) (created lastRound : Nat)
    (hsane : Sane (ChannelProperties.ofParams params))
    (hfits : BudgetFits (ChannelProperties.ofParams params) created lastRound) {s : Life μ}
    (hs : (Life.machine μ params created lastRound).Reached s) :
    Contract (ChannelProperties.ofParams params) created lastRound s := by
  have h : s.Sound (ChannelProperties.ofParams params) created lastRound := by
    refine hs.invariant (fun s hinit => ?_) fun s e s' hsound _ hstep => hsound.step hsane hstep
    rw [show s = _ from hinit]
    exact .start hsane hfits
  have hint : ((toSizeT (ChannelProperties.ofParams params).size : Nat) : Int) =
      (ChannelProperties.ofParams params).size :=
    toSizeT_eq hsane.size.le ((isInt_getInt _).2.trans_lt (by decide))
  refine ⟨fun pkt draws => ?_, h.conserved, fun hzero => h.inOrder hzero.le, h.onTime, h.rate, ?_, ?_⟩
  · exact Channel.pushPacket_ok (h.properties ▸ hsane.toDrawable) pkt draws
  · rw [← hint]
    exact Int.ofNat_le.mpr h.size
  · have hbudget := h.budget
    have hfunded := h.funded
    omega

end life

/-- A channel of size 2 that duplicates and reorders. -/
def duplicating : ChannelParams where
  reorderProbability := some (1 / 2)
  duplicateProbability := some (1 / 2)
  size := some 2
  maxDelay := some 3

/-- A packet is pushed twice, for the queue has no room for a third copy; the second copy overtakes the
first and is delivered when its delay of 2 rounds is over. -/
def overtaking : List (ChannelEvent String) :=
  [.incrementRound,
    .pushPacket (.make 1 0 1 "m") { drop := 0, copy := fun k => { delay := k, setDelay := 0, duplicate := 0 } },
    .incrementRound, .receive { reorder := 0, places := id },
    .incrementRound, .receive { reorder := 1, places := id }]

theorem channel_contract_overtaking : ∃ s : Life String,
    Contract (ChannelProperties.ofParams duplicating) 0 3 s ∧
      s.delivered.map (·.delay) = [2] ∧ s.channel.packetQueue.map (·.delay) = [1] := by
  have hsane : Sane (ChannelProperties.ofParams duplicating) :=
    { avgDelay := by decide, delays := by decide, size := by decide, maxMsgsRec := by decide }
  have hrun : ((Life.machine String duplicating 0 3).run
      { channel := .setParameters duplicating 0 3, currentRound := 0 } overtaking).map
        (fun s => decide (s.delivered.map (·.delay) = [2] ∧ s.channel.packetQueue.map (·.delay) = [1])) =
      some true := by decide +kernel
  obtain ⟨s, hs, hdelays⟩ := Option.map_eq_some_iff.mp hrun
  have hreached := Machine.reached_of_run (.start rfl) hs
  exact ⟨s, channel_contract duplicating 0 3 hsane ⟨by decide, by decide⟩ hreached, of_decide_eq_true hdelays⟩

end Quantas.Abstract
