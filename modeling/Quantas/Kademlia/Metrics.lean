import Quantas.Kademlia.Routing
import Quantas.Lib.RelayDelays

/-!
# What Kademlia reports

`endOfRound` reports the sums of the peers' counters and their averages. The counters are exact accounts of the
lookups: as many are reported satisfied as have reached their targets, and the average number of hops is the average
number of peers that they went on to. On a complete network that loses and doubles nothing the satisfied lookups and
those on their way are all that were submitted, and deliveries alone bring all of them to their targets. The latency
is the mean of the delays that are read off the run. The values are those of the source up to the rounding of `double`
and the range of `int`.
-/

namespace Quantas.Kademlia

/-- The values that `endOfRound` pushes; the averages only once a lookup is satisfied. -/
structure Metrics where
  averageHops : Option ℚ
  averageLatency : Option ℚ
  requestsSatisfied : ℚ

/-- `endOfRound` behind the lookup that it lets a peer submit. -/
def endOfRound (peers : List KademliaPeer) : Metrics :=
  let satisfied : Nat := (peers.map (·.requestsSatisfied)).sum
  let hops : Nat := (peers.map (·.totalHops)).sum
  let latency : Int := (peers.map (·.latency)).sum
  { averageHops := if 0 < satisfied then some (hops / satisfied) else none
    averageLatency := if 0 < satisfied then some (latency / satisfied) else none
    requestsSatisfied := satisfied }

/-! ## The counters -/

def satisfactions : Lib.Account KademliaPeer LookupMessage where
  held := KademliaPeer.requestsSatisfied
  due _ := 1

def hopCount : Lib.Account KademliaPeer LookupMessage where
  held := KademliaPeer.totalHops
  due m := m.hops

theorem refreshFingers_counters (p : KademliaPeer) (d : Draws) :
    (p.refreshFingers d).requestsSatisfied = p.requestsSatisfied ∧ (p.refreshFingers d).totalHops = p.totalHops := by
  unfold KademliaPeer.refreshFingers
  split_ifs <;> exact ⟨rfl, rfl⟩

/-- What a peer counts of a lookup that it submits or is handed: its hops if it is the target, and else nothing. -/
inductive Counted (p : KademliaPeer) : KademliaPeer × Lib.Verdict InterfaceId LookupMessage → Prop
  | satisfied {p' : KademliaPeer} {m : LookupMessage} (hsatisfied : p'.requestsSatisfied = p.requestsSatisfied + 1)
      (hhops : p'.totalHops = p.totalHops + m.hops) : Counted p (p', .satisfied m)
  | forwarded {next : InterfaceId} {m : LookupMessage} : Counted p (p, .forwarded next m)
  | dropped {m : LookupMessage} : Counted p (p, .dropped m)

theorem counted_forward (p : KademliaPeer) (m : LookupMessage) (next : InterfaceId) :
    Counted p (p, p.forward m next) := by
  unfold KademliaPeer.forward
  dsimp only
  split_ifs
  · exact .dropped
  · exact .forwarded
  · exact .dropped

theorem handleLookup_counted (p : KademliaPeer) (m : LookupMessage) (d : Draws) : Counted p (p.handleLookup m d) := by
  unfold KademliaPeer.handleLookup
  dsimp only
  split_ifs
  · exact .dropped
  · exact .satisfied rfl rfl
  · exact .dropped
  · exact counted_forward p _ _
  · exact counted_forward p _ _

theorem submitLookup_counted (p : KademliaPeer) (transactionId : Nat) (d : Draws) :
    Counted p (p.submitLookup transactionId d) := by
  unfold KademliaPeer.submitLookup
  generalize (if p.allPeerIds = [] then p.publicId
    else p.allPeerIds.getD (d.target % p.allPeerIds.length) NO_PEER_ID) = target
  dsimp only
  split_ifs
  · exact .satisfied rfl rfl
  · exact .dropped
  · exact counted_forward p _ _

theorem counter_kept {A : Lib.Account KademliaPeer LookupMessage} {net : KademliaNetwork}
    (hstart : ∀ i, A.held (net.initialPeer i) = 0) (htick : ∀ p d, A.held (KademliaPeer.refreshFingers p d) = A.held p)
    (hcount : ∀ (p p' : KademliaPeer) (m : LookupMessage), p'.requestsSatisfied = p.requestsSatisfied + 1 →
      p'.totalHops = p.totalHops + m.hops → A.held p' = A.held p + A.due m) : A.Kept net.relay := by
  have hbooked : ∀ p r, Counted p r → A.held r.1 = A.held p + A.booked r.2 := by
    intro p r h
    cases h with
    | satisfied hsatisfied hhops => exact hcount p _ _ hsatisfied hhops
    | forwarded => rfl
    | dropped => rfl
  exact ⟨hstart, fun _ => htick, fun _ p k d => hbooked p _ (submitLookup_counted p (k + 1) d),
    fun _ p m d => hbooked p _ (handleLookup_counted p m d)⟩

theorem satisfactions_kept (net : KademliaNetwork) : satisfactions.Kept net.relay :=
  counter_kept (fun _ => rfl) (fun p d => (refreshFingers_counters p d).1) fun _ _ _ h _ => h

theorem hopCount_kept (net : KademliaNetwork) : hopCount.Kept net.relay :=
  counter_kept (fun _ => rfl) (fun p d => (refreshFingers_counters p d).2) fun _ _ _ _ h => h

/-! ## The latency -/

def latencies : Lib.Delays KademliaPeer LookupMessage Draws where
  held := KademliaPeer.latency
  now := Draws.currentRound
  made := LookupMessage.roundSubmitted

theorem refreshFingers_latency (p : KademliaPeer) (d : Draws) : (p.refreshFingers d).latency = p.latency := by
  unfold KademliaPeer.refreshFingers
  split_ifs <;> rfl

theorem forward_latency (p : KademliaPeer) (m : LookupMessage) (next : InterfaceId) (d : Draws) :
    (latencies.ofVerdict d (p.forward m next)).sum = 0 ∧ latencies.MadeAt m.roundSubmitted (p.forward m next) := by
  unfold KademliaPeer.forward
  dsimp only
  split_ifs
  · exact ⟨rfl, trivial⟩
  · exact ⟨rfl, rfl⟩
  · exact ⟨rfl, trivial⟩

theorem submitLookup_latency (p : KademliaPeer) (transactionId : Nat) (d : Draws) :
    (p.submitLookup transactionId d).1.latency =
        p.latency + (latencies.ofVerdict d (p.submitLookup transactionId d).2).sum ∧
      latencies.MadeAt d.currentRound (p.submitLookup transactionId d).2 := by
  unfold KademliaPeer.submitLookup
  generalize (if p.allPeerIds = [] then p.publicId
    else p.allPeerIds.getD (d.target % p.allPeerIds.length) NO_PEER_ID) = target
  dsimp only
  split_ifs
  · -- a peer that looks itself up counts no latency, and none has passed
    refine ⟨?_, rfl⟩
    show p.latency = p.latency + (d.currentRound - d.currentRound + 0)
    omega
  · exact ⟨(add_zero _).symm, trivial⟩
  · refine ⟨?_, (forward_latency p _ _ d).2⟩
    rw [(forward_latency p _ _ d).1]
    exact (add_zero _).symm

theorem handleLookup_latency (p : KademliaPeer) (m : LookupMessage) (d : Draws) :
    (p.handleLookup m d).1.latency = p.latency + (latencies.ofVerdict d (p.handleLookup m d).2).sum ∧
      latencies.MadeAt m.roundSubmitted (p.handleLookup m d).2 := by
  unfold KademliaPeer.handleLookup
  dsimp only
  split_ifs
  · exact ⟨(add_zero _).symm, trivial⟩
  · refine ⟨?_, rfl⟩
    show p.latency + (d.currentRound - m.roundSubmitted) = p.latency + (d.currentRound - m.roundSubmitted + 0)
    omega
  · exact ⟨(add_zero _).symm, trivial⟩
  all_goals
    refine ⟨?_, (forward_latency p _ _ d).2⟩
    rw [(forward_latency p _ _ d).1]
    exact (add_zero _).symm

theorem latencies_kept (net : KademliaNetwork) : latencies.Kept net.relay where
  start := fun _ => rfl
  tick := fun _ => refreshFingers_latency
  submit := fun _ p k d => submitLookup_latency p (k + 1) d
  handle := fun _ => handleLookup_latency

/-! ## The account -/

section account
variable {net : KademliaNetwork} {s : Lib.RelayState InterfaceId KademliaPeer LookupMessage}

theorem nodup_peerIds (net : KademliaNetwork) : net.peerIds.Nodup :=
  List.nodup_range.map Int.ofNat_injective

theorem counters_balanced (hr : net.relay.machine.Reached s) :
    ((net.peerIds.map s.party).map (·.requestsSatisfied)).sum = s.satisfied.length ∧
      ((net.peerIds.map s.party).map (·.totalHops)).sum = (s.satisfied.map fun j => j.message.hops).sum := by
  have hmember : ∀ visited i m, (contract net).inFlight visited i m → i ∈ net.relay.parties :=
    fun _ _ _ h => h.peer
  have hsatisfied := (satisfactions_kept net).balanced kept hmember (nodup_peerIds net) hr
  have hhops := (hopCount_kept net).balanced kept hmember (nodup_peerIds net) hr
  rw [List.map_map, List.map_map]
  refine ⟨hsatisfied.trans ?_, hhops⟩
  have hone : s.satisfied.map (fun j => satisfactions.due j.message) = List.replicate s.satisfied.length 1 :=
    List.map_const'
  unfold Lib.Account.earned
  rw [hone, List.sum_replicate, smul_eq_mul, mul_one]

theorem underway_length_le (hcomplete : net.Complete) (visited : List InterfaceId) (i : InterfaceId) (m : LookupMessage)
    (h : (contract net).inFlight visited i m) : visited.length ≤ Nat.clog 2 net.peerCount := by
  have hbound := Underway.bound h hcomplete
  rw [Underway.hops h] at hbound
  omega

end account

/-- **The latency that is reported** is the mean, over the lookups that a run satisfies, of the rounds since they were
submitted; so where no step is in an earlier round than the one before, it lies between 0 and the last round. -/
theorem latency_exact (net : KademliaNetwork) {es : List (Lib.RelayEvent InterfaceId Draws)}
    {s : Lib.RelayState InterfaceId KademliaPeer LookupMessage}
    (hrun : net.relay.machine.run { party := net.relay.start } es = some s) :
    (endOfRound (net.peerIds.map s.party)).averageLatency =
        Lib.mean (latencies.ofRun net.relay { party := net.relay.start } es) ∧
      ∀ last : Int, (latencies.clock es).Pairwise (· ≤ ·) → (∀ r ∈ latencies.clock es, 0 ≤ r ∧ r ≤ last) → 0 ≤ last →
        ∀ average ∈ (endOfRound (net.peerIds.map s.party)).averageLatency, 0 ≤ average ∧ average ≤ last := by
  have hmember : ∀ visited i m, (contract net).inFlight visited i m → i ∈ net.relay.parties :=
    fun _ _ _ h => h.peer
  obtain ⟨hlatency, hlength⟩ := (latencies_kept net).balanced kept (nodup_peerIds net) hmember hrun
  have hsatisfied := (counters_balanced (Lib.Machine.reached_of_run (.start rfl) hrun)).1.trans hlength
  have htotal : ((net.peerIds.map s.party).map (·.latency)).sum =
      (latencies.ofRun net.relay { party := net.relay.start } es).sum := by
    rw [List.map_map]
    exact hlatency
  have hreport : (endOfRound (net.peerIds.map s.party)).averageLatency =
      Lib.mean (latencies.ofRun net.relay { party := net.relay.start } es) := by
    unfold endOfRound Lib.mean
    dsimp only
    rw [hsatisfied, htotal]
  refine ⟨hreport, fun last hsorted hclock hlast => ?_⟩
  rw [hreport]
  exact (latencies_kept net).mean_within hsorted hclock hlast

/-- **What is reported is what happened.** In every run, with any delay, order, loss and duplication of lookups, the
reported number of satisfied requests is the number of lookups that have reached their targets, and the reported
average of hops is the average number of peers that these went on to, at most `⌈log₂ n⌉` on the complete topology.
On that topology, without loss and duplication the satisfied lookups and those on their way are all that were submitted; and if
no more are submitted, at most `⌈log₂ n⌉` deliveries for each lookup on its way bring all of them to their
targets. -/
theorem metrics_exact (net : KademliaNetwork) :
    (∀ s, net.relay.machine.Reached s →
      (endOfRound (net.peerIds.map s.party)).requestsSatisfied = s.satisfied.length ∧
      ∀ average ∈ (endOfRound (net.peerIds.map s.party)).averageHops,
        average * s.satisfied.length = ((s.satisfied.map fun j => j.visited.length - 1).sum : Nat) ∧
        (net.Complete → average ≤ Nat.clog 2 net.peerCount)) ∧
    (net.Complete →
      (∀ s, net.relay.machine.ReachedUnder (fun _ e => e.faultless = true) s →
        s.satisfied.length + s.inFlight.length = s.issued) ∧
      ∀ s, net.relay.machine.Reached s →
        (∀ es s', (∀ e ∈ es, e.onward = true) → net.relay.machine.run s es = some s' →
          es.countP Lib.RelayEvent.delivers ≤ s.inFlight.length * Nat.clog 2 net.peerCount ∧
          s'.satisfied.length + s'.inFlight.length = s.satisfied.length + s.inFlight.length) ∧
        ∃ es s', (∀ e ∈ es, e.onward = true) ∧ net.relay.machine.run s es = some s' ∧ s'.inFlight = []) := by
  have hdropped : net.Complete → ∀ s, (contract net).Holds s → s.dropped = [] := by
    intro hcomplete s h
    apply List.eq_nil_iff_forall_not_mem.mpr
    intro j hj
    exact h.dropped j hj hcomplete
  constructor
  · intro s hr
    have h := Lib.Relay.reached_rule kept hr
    obtain ⟨hsatisfied, hhops⟩ := counters_balanced hr
    have hpaths : (s.satisfied.map fun j => j.message.hops) = s.satisfied.map fun j => j.visited.length - 1 := by
      apply List.map_congr_left
      intro j hj
      have hlength := (h.satisfied j hj).hops
      omega
    rw [hpaths] at hhops
    unfold endOfRound
    dsimp only
    rw [hsatisfied, hhops]
    refine ⟨rfl, fun average haverage => ?_⟩
    split_ifs at haverage with hpos
    · obtain rfl := Option.some.inj haverage
      have hne : (s.satisfied.length : ℚ) ≠ 0 := Nat.cast_ne_zero.mpr (by omega)
      refine ⟨div_mul_cancel₀ _ hne, fun hcomplete => ?_⟩
      rw [div_le_iff₀ (by exact_mod_cast hpos)]
      have hsum : (s.satisfied.map fun j => j.visited.length - 1).sum ≤
          (s.satisfied.map fun j => j.visited.length - 1).length • Nat.clog 2 net.peerCount := by
        apply List.sum_le_card_nsmul
        intro x hx
        obtain ⟨j, hj, rfl⟩ := List.mem_map.mp hx
        have hlength := (h.satisfied j hj).hops
        have hbound := (h.satisfied j hj).bound hcomplete
        omega
      rw [List.length_map, smul_eq_mul, Nat.mul_comm] at hsum
      exact_mod_cast hsum
    · cases haverage
  · intro hcomplete
    constructor
    · intro s hr
      have hcount := Lib.Relay.count_eq hr
      have hnil := hdropped hcomplete s (Lib.Relay.reached_rule kept hr)
      unfold Lib.Relay.count at hcount
      rw [hnil, List.length_nil] at hcount
      omega
    · intro s hr
      have h := Lib.Relay.reached_rule kept hr
      have hlength := underway_length_le hcomplete
      refine ⟨fun es s' honward hrun => ?_, Lib.Relay.exists_drained kept hlength {} h⟩
      have hdelivers := Lib.Relay.deliveries_le kept hlength h honward hrun
      have hload := Lib.Relay.load_le (Nat.clog 2 net.peerCount) hr
      have hcount := Lib.Relay.count_run honward hrun
      have hnil := hdropped hcomplete s h
      have hnil' := hdropped hcomplete s' (Lib.Relay.Contract.Holds.run kept h hrun)
      unfold Lib.Relay.count at hcount
      rw [hnil, hnil', List.length_nil] at hcount
      exact ⟨by omega, by omega⟩

/-- A lookup of peer 0 for peer 3 that has got there over peer 2, and another on its way. -/
theorem metrics_exact_completeFour :
    ∃ s, completeFour.relay.machine.ReachedUnder (fun _ e => e.faultless = true) s ∧ s.issued = 2 ∧
      (endOfRound (completeFour.peerIds.map s.party)).requestsSatisfied = 1 ∧ s.inFlight.length = 1 ∧
      ∀ average ∈ (endOfRound (completeFour.peerIds.map s.party)).averageHops, average ≤ 2 := by
  have hrun : (completeFour.relay.machine.runUnder (fun _ e => e.faultless = true)
      { party := completeFour.relay.start }
      [.tick 0 {}, .submit 0 { target := 3 }, .tick 2 {}, .deliver 0 {}, .tick 3 {}, .deliver 0 {},
        .submit 0 { target := 3 }]).map
      (fun s => decide (s.issued = 2 ∧ s.satisfied.length = 1)) = some true := by
    decide +kernel
  obtain ⟨s, hs, hfacts⟩ := Option.map_eq_some_iff.mp hrun
  obtain ⟨hissued, hsatisfied⟩ := of_decide_eq_true hfacts
  have hreached : completeFour.relay.machine.ReachedUnder (fun _ e => e.faultless = true) s :=
    Lib.Machine.reachedUnder_of_runUnder (.start rfl) hs
  have hany : completeFour.relay.machine.Reached s := hreached.mono fun _ _ _ => trivial
  obtain ⟨hall, hcomplete⟩ := metrics_exact completeFour
  have hplaces := (hcomplete completeFour_complete).1 s hreached
  obtain ⟨hrequests, haverage⟩ := hall s hany
  rw [hsatisfied] at hrequests
  have hclog : Nat.clog 2 completeFour.peerCount = 2 := by decide
  refine ⟨s, hreached, hissued, hrequests.trans Nat.cast_one, by omega, fun average h => ?_⟩
  have hle := (haverage average h).2 completeFour_complete
  rw [hclog] at hle
  exact_mod_cast hle

end Quantas.Kademlia
