import Quantas.Chord.Lookup
import Quantas.Lib.RelayDelays

/-!
# What LinearChord reports

The counters that `endOfRound` adds up are exact accounts of the lookups on any neighbour relation, also where lookups
are dropped or go round. Where every peer has its successor as a neighbour, the satisfied lookups and those on their
way are all that were submitted, if the network loses and doubles nothing, and deliveries alone bring them to their
targets. The latency is the mean of the delays that are read off the run. The values are those of the source up to the
rounding of `double` and the range of `int`.
-/

namespace Quantas.Chord

/-- The values that `endOfRound` pushes; the averages only once a lookup is satisfied. -/
structure Metrics where
  averageHops : Option ℚ
  averageLatency : Option ℚ
  requestsSatisfied : ℚ

/-- `endOfRound` behind the lookup that it lets a peer submit. -/
def endOfRound (peers : List LinearChordPeer) : Metrics :=
  let totalSatisfied : Nat := (peers.map (·.requestsSatisfied)).sum
  let totalHops : Nat := (peers.map (·.totalHops)).sum
  let totalLatency : Int := (peers.map (·.totalLatency)).sum
  { averageHops := if 0 < totalSatisfied then some (totalHops / totalSatisfied) else none
    averageLatency := if 0 < totalSatisfied then some (totalLatency / totalSatisfied) else none
    requestsSatisfied := totalSatisfied }

/-! ## The counters -/

def satisfactions : Lib.Account LinearChordPeer LookupMessage where
  held := LinearChordPeer.requestsSatisfied
  due _ := 1

def hopCount : Lib.Account LinearChordPeer LookupMessage where
  held := LinearChordPeer.totalHops
  due m := m.hops

/-- What a peer counts of a lookup that it submits or is handed: its hops if it is the target, and else nothing. -/
inductive Counted (p : LinearChordPeer) : LinearChordPeer × Lib.Verdict InterfaceId LookupMessage → Prop
  | satisfied {p' : LinearChordPeer} {m : LookupMessage} (hsatisfied : p'.requestsSatisfied = p.requestsSatisfied + 1)
      (hhops : p'.totalHops = p.totalHops + m.hops) : Counted p (p', .satisfied m)
  | forwarded {next : InterfaceId} {m : LookupMessage} : Counted p (p, .forwarded next m)
  | dropped {m : LookupMessage} : Counted p (p, .dropped m)

theorem counted_forward (p : LinearChordPeer) (m : LookupMessage) : Counted p (p, p.forward m) := by
  unfold LinearChordPeer.forward
  dsimp only
  generalize (if p.selectFinger m.targetId p.neighbors = NO_PEER_ID then
    p.chooseClockwiseNeighbor m.targetId p.neighbors else p.selectFinger m.targetId p.neighbors) = nextHop
  unfold LinearChordPeer.dispatchLookup
  split_ifs
  · exact .dropped
  · exact .dropped
  · exact .forwarded
  · exact .dropped

theorem handleLookup_counted (p : LinearChordPeer) (m : LookupMessage) (d : Draws) :
    Counted p (p.handleLookup m d) := by
  unfold LinearChordPeer.handleLookup
  split_ifs
  · exact .dropped
  · exact .satisfied rfl rfl
  · exact counted_forward p m

theorem submitLookup_counted (p : LinearChordPeer) (transactionId : Nat) (d : Draws) :
    Counted p (p.submitLookup transactionId d) := by
  unfold LinearChordPeer.submitLookup
  dsimp only
  split_ifs
  · exact .satisfied rfl rfl
  · exact counted_forward p _

theorem counter_kept {A : Lib.Account LinearChordPeer LookupMessage} {net : ChordNetwork}
    (hstart : ∀ i, A.held (net.initialPeer i) = 0)
    (hcount : ∀ (p p' : LinearChordPeer) (m : LookupMessage), p'.requestsSatisfied = p.requestsSatisfied + 1 →
      p'.totalHops = p.totalHops + m.hops → A.held p' = A.held p + A.due m) : A.Kept net.relay := by
  have hbooked : ∀ p r, Counted p r → A.held r.1 = A.held p + A.booked r.2 := by
    intro p r h
    cases h with
    | satisfied hsatisfied hhops => exact hcount p _ _ hsatisfied hhops
    | forwarded => rfl
    | dropped => rfl
  exact ⟨hstart, fun _ _ _ => rfl, fun _ p k d => hbooked p _ (submitLookup_counted p (k + 1) d),
    fun _ p m d => hbooked p _ (handleLookup_counted p m d)⟩

theorem initialPeer_counters (net : ChordNetwork) (i : InterfaceId) :
    (net.initialPeer i).requestsSatisfied = 0 ∧ (net.initialPeer i).totalHops = 0 := by
  unfold ChordNetwork.initialPeer LinearChordPeer.buildFingerTable
  dsimp only
  split_ifs <;> exact ⟨rfl, rfl⟩

/-! ## The latency -/

def latencies : Lib.Delays LinearChordPeer LookupMessage Draws where
  held := LinearChordPeer.totalLatency
  now := Draws.currentRound
  made := LookupMessage.roundSubmitted

theorem forward_latency (p : LinearChordPeer) (m : LookupMessage) (d : Draws) :
    (latencies.ofVerdict d (p.forward m)).sum = 0 ∧ latencies.MadeAt m.roundSubmitted (p.forward m) := by
  unfold LinearChordPeer.forward
  dsimp only
  generalize (if p.selectFinger m.targetId p.neighbors = NO_PEER_ID then
    p.chooseClockwiseNeighbor m.targetId p.neighbors else p.selectFinger m.targetId p.neighbors) = nextHop
  unfold LinearChordPeer.dispatchLookup
  split_ifs
  · exact ⟨rfl, trivial⟩
  · exact ⟨rfl, trivial⟩
  · exact ⟨rfl, rfl⟩
  · exact ⟨rfl, trivial⟩

theorem submitLookup_latency (p : LinearChordPeer) (transactionId : Nat) (d : Draws) :
    (p.submitLookup transactionId d).1.totalLatency =
        p.totalLatency + (latencies.ofVerdict d (p.submitLookup transactionId d).2).sum ∧
      latencies.MadeAt d.currentRound (p.submitLookup transactionId d).2 := by
  unfold LinearChordPeer.submitLookup
  dsimp only
  split_ifs
  · -- a peer that looks itself up counts no latency, and none has passed
    refine ⟨?_, rfl⟩
    show p.totalLatency = p.totalLatency + (d.currentRound - d.currentRound + 0)
    omega
  · refine ⟨?_, (forward_latency p _ d).2⟩
    rw [(forward_latency p _ d).1]
    exact (add_zero _).symm

theorem handleLookup_latency (p : LinearChordPeer) (m : LookupMessage) (d : Draws) :
    (p.handleLookup m d).1.totalLatency = p.totalLatency + (latencies.ofVerdict d (p.handleLookup m d).2).sum ∧
      latencies.MadeAt m.roundSubmitted (p.handleLookup m d).2 := by
  unfold LinearChordPeer.handleLookup
  split_ifs
  · exact ⟨(add_zero _).symm, trivial⟩
  · refine ⟨?_, rfl⟩
    show p.totalLatency + (d.currentRound - m.roundSubmitted) =
      p.totalLatency + (d.currentRound - m.roundSubmitted + 0)
    omega
  · refine ⟨?_, (forward_latency p m d).2⟩
    rw [(forward_latency p m d).1]
    exact (add_zero _).symm

theorem initialPeer_latency (net : ChordNetwork) (i : InterfaceId) : (net.initialPeer i).totalLatency = 0 := by
  unfold ChordNetwork.initialPeer LinearChordPeer.buildFingerTable
  dsimp only
  split_ifs <;> rfl

theorem latencies_kept (net : ChordNetwork) : latencies.Kept net.relay where
  start := initialPeer_latency net
  tick := fun _ _ _ => rfl
  submit := fun _ p k d => submitLookup_latency p (k + 1) d
  handle := fun _ => handleLookup_latency

/-! ## The account -/

section account
variable {net : ChordNetwork} {s : Lib.RelayState InterfaceId LinearChordPeer LookupMessage}

theorem counters_balanced (hr : net.relay.machine.Reached s) :
    ((net.ring.members.map s.party).map (·.requestsSatisfied)).sum = s.satisfied.length ∧
      ((net.ring.members.map s.party).map (·.totalHops)).sum = (s.satisfied.map fun j => j.message.hops).sum := by
  have hmember : ∀ visited i m, (walks net).inFlight visited i m → i ∈ net.relay.parties :=
    fun visited i _ h => h.peers i (List.mem_append_right visited (List.mem_singleton_self i))
  have hsatisfied : satisfactions.Kept net.relay :=
    counter_kept (fun i => (initialPeer_counters net i).1) fun _ _ _ h _ => h
  have hhops : hopCount.Kept net.relay :=
    counter_kept (fun i => (initialPeer_counters net i).2) fun _ _ _ _ h => h
  rw [List.map_map, List.map_map]
  refine ⟨(hsatisfied.balanced kept_walks hmember net.ring.nodup hr).trans ?_,
    hhops.balanced kept_walks hmember net.ring.nodup hr⟩
  have hone : s.satisfied.map (fun j => satisfactions.due j.message) = List.replicate s.satisfied.length 1 :=
    List.map_const'
  unfold Lib.Account.earned
  rw [hone, List.sum_replicate, smul_eq_mul, mul_one]

theorem endOfRound_eq (hr : net.relay.machine.Reached s) :
    (endOfRound (net.ring.members.map s.party)).requestsSatisfied = s.satisfied.length ∧
      (endOfRound (net.ring.members.map s.party)).averageHops =
        if 0 < s.satisfied.length then
          some (((s.satisfied.map fun j => j.message.hops).sum : Nat) / s.satisfied.length : ℚ)
        else none := by
  obtain ⟨hsatisfied, hhops⟩ := counters_balanced hr
  unfold endOfRound
  dsimp only
  rw [hsatisfied, hhops]
  exact ⟨rfl, rfl⟩

end account

/-- **The latency that is reported** is the mean, over the lookups that a run satisfies, of the rounds since they were
submitted; so where no step is in an earlier round than the one before, it lies between 0 and the last round. -/
theorem ring_latency_exact (net : ChordNetwork) {es : List (Lib.RelayEvent InterfaceId Draws)}
    {s : Lib.RelayState InterfaceId LinearChordPeer LookupMessage}
    (hrun : net.relay.machine.run { party := net.relay.start } es = some s) :
    (endOfRound (net.ring.members.map s.party)).averageLatency =
        Lib.mean (latencies.ofRun net.relay { party := net.relay.start } es) ∧
      ∀ last : Int, (latencies.clock es).Pairwise (· ≤ ·) → (∀ r ∈ latencies.clock es, 0 ≤ r ∧ r ≤ last) → 0 ≤ last →
        ∀ average ∈ (endOfRound (net.ring.members.map s.party)).averageLatency, 0 ≤ average ∧ average ≤ last := by
  have hmember : ∀ visited i m, (walks net).inFlight visited i m → i ∈ net.relay.parties :=
    fun visited i _ h => h.peers i (List.mem_append_right visited (List.mem_singleton_self i))
  obtain ⟨hlatency, hlength⟩ := (latencies_kept net).balanced kept_walks net.ring.nodup hmember hrun
  have hsatisfied := (counters_balanced (Lib.Machine.reached_of_run (.start rfl) hrun)).1.trans hlength
  have htotal : ((net.ring.members.map s.party).map (·.totalLatency)).sum =
      (latencies.ofRun net.relay { party := net.relay.start } es).sum := by
    rw [List.map_map]
    exact hlatency
  have hreport : (endOfRound (net.ring.members.map s.party)).averageLatency =
      Lib.mean (latencies.ofRun net.relay { party := net.relay.start } es) := by
    unfold endOfRound Lib.mean
    dsimp only
    rw [hsatisfied, htotal]
  refine ⟨hreport, fun last hsorted hclock hlast => ?_⟩
  rw [hreport]
  exact (latencies_kept net).mean_within hsorted hclock hlast

/-- **What is reported is what happened.** In every run, with any delay, order, loss and duplication of lookups and any
neighbour relation, the reported number of satisfied requests is the number of lookups that have reached their
targets, and the reported average of hops is the average number of peers that these went on to. Where every peer has
its successor as a neighbour, the average is at most `n - 1`, and on the complete topology it is the average number of
ones of the distances in binary; without loss and duplication the satisfied lookups and those on their way are all
that were submitted; and if no more are submitted, at most `n - 1` deliveries for each lookup on its way bring all of them
to their targets. -/
theorem ring_metrics_exact (net : ChordNetwork) :
    (∀ s, net.relay.machine.Reached s →
      (endOfRound (net.ring.members.map s.party)).requestsSatisfied = s.satisfied.length ∧
      ∀ average ∈ (endOfRound (net.ring.members.map s.party)).averageHops,
        average * s.satisfied.length = ((s.satisfied.map fun j => j.visited.length - 1).sum : Nat)) ∧
    (net.HasSuccessors →
      (∀ s, net.relay.machine.ReachedUnder (fun _ e => e.faultless = true) s →
        s.satisfied.length + s.inFlight.length = s.issued) ∧
      ∀ s, net.relay.machine.Reached s →
        (∀ average ∈ (endOfRound (net.ring.members.map s.party)).averageHops,
          average ≤ (net.ring.size - 1 : Nat) ∧ (net.Complete → average * s.satisfied.length =
            ((s.satisfied.map fun j =>
              Lib.oneBits (net.distance j.message.originId j.message.targetId)).sum : Nat))) ∧
        (∀ es s', (∀ e ∈ es, e.onward = true) → net.relay.machine.run s es = some s' →
          es.countP Lib.RelayEvent.delivers ≤ s.inFlight.length * (net.ring.size - 1) ∧
          s'.satisfied.length + s'.inFlight.length = s.satisfied.length + s.inFlight.length) ∧
        ∃ es s', (∀ e ∈ es, e.onward = true) ∧ net.relay.machine.run s es = some s' ∧ s'.inFlight = []) := by
  have haverage : ∀ s, net.relay.machine.Reached s →
      ∀ average ∈ (endOfRound (net.ring.members.map s.party)).averageHops, 0 < s.satisfied.length ∧
        average * s.satisfied.length = ((s.satisfied.map fun j => j.message.hops).sum : Nat) := by
    intro s hr average h
    rw [(endOfRound_eq hr).2] at h
    split_ifs at h with hpos
    · obtain rfl := Option.some.inj h
      exact ⟨hpos, div_mul_cancel₀ _ (Nat.cast_ne_zero.mpr (Nat.pos_iff_ne_zero.mp hpos))⟩
    · cases h
  constructor
  · intro s hr
    refine ⟨(endOfRound_eq hr).1, fun average h => (haverage s hr average h).2.trans ?_⟩
    have hholds : (walks net).Holds s := Lib.Relay.reached_rule kept_walks hr
    have hpaths : (s.satisfied.map fun j => j.message.hops) = s.satisfied.map fun j => j.visited.length - 1 := by
      apply List.map_congr_left
      intro j hj
      have hlength := (hholds.satisfied j hj).hops
      omega
    rw [hpaths]
  · intro hsucc
    have hdropped : ∀ s, (contract net).Holds s → s.dropped = [] := by
      intro s h
      apply List.eq_nil_iff_forall_not_mem.mpr
      intro j hj
      exact h.dropped j hj
    have hlength : ∀ visited i m, (contract net).inFlight visited i m → visited.length ≤ net.ring.size - 1 := by
      intro visited i m h
      have hbound := Underway.bound h
      rw [Underway.hops h] at hbound
      omega
    constructor
    · intro s hr
      have hcount := Lib.Relay.count_eq hr
      unfold Lib.Relay.count at hcount
      rw [hdropped s (Lib.Relay.reached_rule (kept hsucc) hr), List.length_nil] at hcount
      omega
    · intro s hr
      have h := Lib.Relay.reached_rule (kept hsucc) hr
      refine ⟨fun average hmem => ?_, fun es s' honward hrun => ?_, Lib.Relay.exists_drained (kept hsucc) hlength {} h⟩
      · obtain ⟨hpos, hsum⟩ := haverage s hr average hmem
        refine ⟨?_, fun hcomplete => hsum.trans ?_⟩
        · have hle : (s.satisfied.map fun j => j.message.hops).sum ≤
              (s.satisfied.map fun j => j.message.hops).length • (net.ring.size - 1) := by
            apply List.sum_le_card_nsmul
            intro x hx
            obtain ⟨j, hj, rfl⟩ := List.mem_map.mp hx
            exact (h.satisfied j hj).bound
          rw [List.length_map, smul_eq_mul, Nat.mul_comm] at hle
          have hpos' : (0 : ℚ) < s.satisfied.length := Nat.cast_pos.mpr hpos
          apply le_of_mul_le_mul_right _ hpos'
          rw [hsum]
          exact_mod_cast hle
        · have hones : (s.satisfied.map fun j => j.message.hops) = s.satisfied.map fun j =>
              Lib.oneBits (net.distance j.message.originId j.message.targetId) := by
            apply List.map_congr_left
            intro j hj
            exact (h.satisfied j hj).ones hcomplete
          rw [hones]
      · have hdelivers := Lib.Relay.deliveries_le (kept hsucc) hlength h honward hrun
        have hload := Lib.Relay.load_le (net.ring.size - 1) hr
        have hcount := Lib.Relay.count_run honward hrun
        unfold Lib.Relay.count at hcount
        rw [hdropped s h, hdropped s' (Lib.Relay.Contract.Holds.run (kept hsucc) h hrun), List.length_nil] at hcount
        exact ⟨by omega, by omega⟩

/-- A lookup of peer 4 for peer 1 that has got there over peer 0, and another on its way. -/
theorem ring_metrics_exact_completeSix :
    ∃ s, completeSix.relay.machine.ReachedUnder (fun _ e => e.faultless = true) s ∧ s.issued = 2 ∧
      (endOfRound (completeSix.ring.members.map s.party)).requestsSatisfied = 1 ∧ s.inFlight.length = 1 ∧
      ∀ average ∈ (endOfRound (completeSix.ring.members.map s.party)).averageHops, average ≤ 5 := by
  have hsucc : completeSix.HasSuccessors := by
    unfold ChordNetwork.HasSuccessors
    decide
  have hrun : (completeSix.relay.machine.runUnder (fun _ e => e.faultless = true)
      { party := completeSix.relay.start }
      [.submit 4 { target := 1 }, .submit 4 { target := 1 }, .deliver 0 {}, .deliver 1 {}]).map
      (fun s => decide (s.issued = 2 ∧ s.satisfied.length = 1)) = some true := by
    decide +kernel
  obtain ⟨s, hs, hfacts⟩ := Option.map_eq_some_iff.mp hrun
  obtain ⟨hissued, hsatisfied⟩ := of_decide_eq_true hfacts
  have hreached : completeSix.relay.machine.ReachedUnder (fun _ e => e.faultless = true) s :=
    Lib.Machine.reachedUnder_of_runUnder (.start rfl) hs
  have hany : completeSix.relay.machine.Reached s := hreached.mono fun _ _ _ => trivial
  obtain ⟨hall, hring⟩ := ring_metrics_exact completeSix
  obtain ⟨hplaces, hbounds⟩ := hring hsucc
  have hrequests := (hall s hany).1
  have hplaces := hplaces s hreached
  rw [hsatisfied] at hrequests
  exact ⟨s, hreached, hissued, hrequests.trans Nat.cast_one, by omega,
    fun average h => ((hbounds s hany).1 average h).1⟩

end Quantas.Chord
