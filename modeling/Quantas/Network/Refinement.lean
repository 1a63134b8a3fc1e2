import Quantas.Network.Parallel

/-!
# The simulated network is an asynchronous network

A protocol is analysed on a network without channels: a message that has been sent may be taken by its target
at any later time, any number of times and in any order, or never (`Soup`). The simulator has channels, whose
sizes, budgets, delays, copies, losses and shuffles are set by a description, and rounds.

`Tracks` relates the two: what is on its way in the channels, and what has arrived and not been looked at, has
been sent, and to whom it has arrived. A `receive` moves packets within that relation (`Tracks.receive`), and a
computation that does what the protocol may do is an action of the protocol (`Tracks.compute`). So the worlds
of a simulation are states of the protocol on the network without channels (`Tracks.run`).
-/

namespace Quantas.Abstract

open Lib

/-! ## Asynchronous message passing -/

section soup
variable {τ μ : Type}

/-- The states of a protocol whose peers may start in `Starts` and then, once in a round, take some of the packets
sent to them: `Acts p now received s s' pkts` if peer `p` may so go from `s` to `s'` and send `pkts`. The peers
`acted` have acted in the round. -/
inductive Soup (Starts : (InterfaceId → τ) → Prop)
    (Acts : InterfaceId → Nat → List (Quantas.Packet μ) → τ → τ → List (Quantas.Packet μ) → Prop) :
    Nat → List InterfaceId → (InterfaceId → τ) → List (Quantas.Packet μ) → Prop
  | start {states : InterfaceId → τ} (h : Starts states) : Soup Starts Acts 0 [] states []
  | nextRound {now : Nat} {acted : List InterfaceId} {states : InterfaceId → τ} {sent : List (Quantas.Packet μ)}
      (h : Soup Starts Acts now acted states sent) : Soup Starts Acts (now + 1) [] states sent
  | act {now : Nat} {acted : List InterfaceId} {states : InterfaceId → τ} {p : InterfaceId}
      {sent received pkts : List (Quantas.Packet μ)} {s' : τ} (h : Soup Starts Acts now acted states sent)
      (hp : p ∉ acted) (hreceived : ∀ pkt ∈ received, pkt ∈ sent ∧ pkt.target = p)
      (hacts : Acts p now received (states p) s' pkts) :
      Soup Starts Acts now (p :: acted) (Function.update states p s') (sent ++ pkts)

end soup

/-! ## Packets on their way -/

/-- Positions have ids of their own, and a channel ends at the peer whose id it is filed under. -/
structure Addressed (net : Network) : Prop where
  injective : ∀ i j, i < net.size → j < net.size → (net.peers i).publicId = (net.peers j).publicId → i = j
  key : ∀ i j, ∀ e ∈ (net.peers i).outBoundChannels, ∀ e' ∈ (net.peers j).inBoundChannels,
    e.2.handle = e'.2.handle → e.1 = (net.peers j).publicId

theorem addressed_initNetwork (t : TopologyConfig) (order : Equiv.Perm (Fin t.size)) :
    Addressed (Network.initNetwork t order) where
  injective := by
    intro i j hi hj h
    rw [Network.initNetwork_size] at hi hj
    rw [Network.initNetwork_publicId, Network.initNetwork_publicId] at h
    exact Network.place_inj order hi hj (Int.ofNat_inj.mp h)
  key := by
    intro i j e he e' he' h
    obtain ⟨z, hz, -, rfl⟩ := (Network.mem_outBound order).mp he
    obtain ⟨z', hz', hj, rfl⟩ := (Network.mem_inBound order).mp he'
    rw [List.mem_zipIdx_iff_getElem?] at hz hz'
    have hpair : z.1 = z'.1 := by
      have hhandle : z.2 = z'.2 := h
      rw [hhandle] at hz
      exact Option.some.inj (hz.symm.trans hz')
    rw [Network.initNetwork_publicId, ← hj, ← hpair]

variable {net : Network} {σ τ μ : Type} {sent sent' : List (Quantas.Packet μ)}

/-- A packet that has been sent, and to the peer at position `i`. -/
def Bound (net : Network) (sent : List (Quantas.Packet μ)) (i : Nat) (pkt : Packet μ) : Prop :=
  pkt.toPacket ∈ sent ∧ pkt.target = (net.peers i).publicId

theorem Bound.mono {i : Nat} {pkt : Packet μ} (h : Bound net sent i pkt) (hsub : sent ⊆ sent') :
    Bound net sent' i pkt := ⟨hsub h.1, h.2⟩

/-- What is in the channels has been sent, and to those who receive from them; and no channel can throw. -/
structure InTransit (net : Network) (sent : List (Quantas.Packet μ)) (w : World net σ μ) : Prop where
  drawable : w.Drawable
  queued : ∀ i, ∀ e ∈ (net.peers i).inBoundChannels,
    ∀ pkt ∈ (w.lines e.2.handle).channel.packetQueue, Bound net sent i pkt

namespace InTransit
variable {w : World net σ μ}

theorem mono (h : InTransit net sent w) (hsub : sent ⊆ sent') : InTransit net sent' w :=
  ⟨h.drawable, fun i e he pkt hpkt => (h.queued i e he pkt hpkt).mono hsub⟩

theorem setPeer (h : InTransit net sent w) (i : Nat) (own : Own net i σ μ) :
    InTransit net sent (w.setPeer i own) := ⟨h.drawable.setPeer i own, h.queued⟩

theorem setLine (h : InTransit net sent w) {handle : Nat} {line : Line μ}
    (hsame : line.channel.properties = (w.lines handle).channel.properties)
    (hqueue : ∀ pkt ∈ line.channel.packetQueue, pkt ∈ (w.lines handle).channel.packetQueue ∨
      ∀ i, ∀ e ∈ (net.peers i).inBoundChannels, e.2.handle = handle → Bound net sent i pkt) :
    InTransit net sent (w.setLine handle line) := by
  refine ⟨h.drawable.setLine handle hsame, fun i e he pkt hpkt => ?_⟩
  by_cases heq : e.2.handle = handle
  · rw [heq, World.setLine_self] at hpkt
    rcases hqueue pkt hpkt with hold | hnew
    · exact h.queued i e he pkt (heq ▸ hold)
    · exact hnew i e he heq
  · rw [World.setLine_other w line heq] at hpkt
    exact h.queued i e he pkt hpkt

variable (now : Nat) (draws : Draws)

theorem pushPacket (h : InTransit net sent w) (handle : Nat) (pkt : Packet μ)
    (hbound : ∀ i, ∀ e ∈ (net.peers i).inBoundChannels, e.2.handle = handle → Bound net sent i pkt) :
    InTransit net sent (w.pushPacket draws handle pkt).1 ∧
      (w.pushPacket draws handle pkt).1.peers = w.peers ∧ (w.pushPacket draws handle pkt).2 = none := by
  obtain ⟨⟨channel, copies⟩, hok⟩ :=
    Channel.pushPacket_ok (h.drawable handle).2 pkt (draws.push handle (w.lines handle).pushes)
  have hpushed := Channel.pushPacket_spec (h.drawable handle).1 hok
  unfold World.pushPacket Line.push
  rw [hok]
  refine ⟨h.setLine hpushed.properties fun p hp => ?_, rfl, rfl⟩
  have hmem : p ∈ (w.lines handle).channel.packetQueue ++ copies := hpushed.queue ▸ hp
  apply (List.mem_append.mp hmem).imp id
  -- a copy differs from the packet in its delay only
  intro hcopy i e he heq
  rw [(hpushed.isCopy p hcopy).2.2]
  exact hbound i e he heq

theorem pushAll (haddressed : Addressed net) (h : InTransit net sent w) (i : Nat) {pkt : Packet μ}
    (hsent : pkt.toPacket ∈ sent) {channels : List (InterfaceId × Quantas.Channel)}
    (hchannels : ∀ e ∈ channels, e ∈ (net.peers i).outBoundChannels ∧ e.1 = pkt.target) :
    InTransit net sent (w.pushAll draws pkt channels).1 ∧
      (w.pushAll draws pkt channels).1.peers = w.peers ∧ (w.pushAll draws pkt channels).2 = none := by
  induction channels generalizing w with
  | nil => exact ⟨h, rfl, rfl⟩
  | cons e channels ih =>
    obtain ⟨hout, hkey⟩ := hchannels e List.mem_cons_self
    obtain ⟨hafter, hpeers, hnone⟩ := h.pushPacket draws e.2.handle pkt fun j e' he' heq =>
      ⟨hsent, hkey.symm.trans (haddressed.key i j e hout e' he' heq.symm)⟩
    obtain ⟨hrest, hpeers', hnone'⟩ := ih hafter fun e' he' => hchannels e' (List.mem_cons_of_mem e he')
    have hall : w.pushAll draws pkt (e :: channels) =
        (w.pushPacket draws e.2.handle pkt).1.pushAll draws pkt channels := by
      rw [World.pushAll]
      dsimp only
      rw [hnone]
    rw [hall]
    exact ⟨hrest, hpeers'.trans hpeers, hnone'⟩

theorem runSends (haddressed : Addressed net) (h : InTransit net sent w) {i : Nat} (last : Own net i σ μ)
    {sends : List (Send net i σ μ)}
    (hsends : ∀ s ∈ sends, s.dest ∈ s.own.neighbors → ⟨s.own.publicId, s.dest, s.msg⟩ ∈ sent) :
    InTransit net sent (w.runSends now draws i last sends) ∧
      (w.runSends now draws i last sends).peers = Function.update w.peers i last := by
  induction sends generalizing w with
  | nil => exact ⟨h.setPeer i last, rfl⟩
  | cons s sends ih =>
    have hset : InTransit net sent (w.setPeer i s.own) := h.setPeer i s.own
    have hrest : ∀ s' ∈ sends, s'.dest ∈ s'.own.neighbors → ⟨s'.own.publicId, s'.dest, s'.msg⟩ ∈ sent :=
      fun s' hs' => hsends s' (List.mem_cons_of_mem s hs')
    have hoverwrite : Function.update (w.setPeer i s.own).peers i last = Function.update w.peers i last :=
      Function.update_idem ..
    obtain ⟨w', hw', hin, hpeers⟩ : ∃ w', (w.setPeer i s.own).unicastTo now draws i s.msg s.dest = (w', none) ∧
        InTransit net sent w' ∧ w'.peers = (w.setPeer i s.own).peers := by
      unfold World.unicastTo
      rw [World.setPeer_self]
      dsimp only
      by_cases hdest : s.dest ∈ s.own.neighbors
      · rw [if_pos hdest]
        have hchannels : ∀ e ∈ s.own.outBoundChannels.filter (·.1 = s.dest),
            e ∈ (net.peers i).outBoundChannels ∧ e.1 = s.dest := fun e he =>
          ⟨s.own.outBound_subset (List.mem_of_mem_filter he), of_decide_eq_true (List.mem_filter.mp he).2⟩
        obtain ⟨hin, hpeers, hnone⟩ := hset.pushAll draws haddressed i
          (show (Packet.make now s.own.publicId s.dest s.msg).toPacket ∈ sent from hsends s List.mem_cons_self hdest)
          hchannels
        exact ⟨_, Prod.ext rfl hnone, hin, hpeers⟩
      · rw [if_neg hdest]
        exact ⟨_, rfl, hset, rfl⟩
    obtain ⟨hin', hpeers'⟩ := ih hin hrest
    rw [World.runSends]
    dsimp only
    rw [hw']
    refine ⟨hin', hpeers'.trans ?_⟩
    rw [hpeers]
    exact hoverwrite

end InTransit

/-! ## Peers -/

/-- The interface of a peer is as the network made it. -/
structure Settled (net : Network) (i : Nat) (own : Own net i σ μ) : Prop where
  publicId : own.publicId = (net.peers i).publicId
  neighbors : own.neighbors = (net.peers i).neighbors
  inBound : own.inBoundChannels = (net.peers i).inBoundChannels
  outBound : own.outBoundChannels = (net.peers i).outBoundChannels

/-- The world holds the states of the peers' protocol, apart from what `view` leaves out, and all packets in it
have been sent. -/
structure Tracks (net : Network) (view : σ → τ) (states : InterfaceId → τ) (sent : List (Quantas.Packet μ))
    (w : World net σ μ) : Prop extends InTransit net sent w where
  settled : ∀ i < net.size, Settled net i (w.peers i)
  state : ∀ i < net.size, states (net.peers i).publicId = view (w.peers i).state
  arrived : ∀ i < net.size, ∀ pkt ∈ (w.peers i).inStream, Bound net sent i pkt

/-- What a computation must do for its peer to take part in the protocol: nothing that shows, or take all that
has arrived and act upon it. -/
structure Conforms (net : Network) (view : σ → τ)
    (Acts : InterfaceId → Nat → List (Quantas.Packet μ) → τ → τ → List (Quantas.Packet μ) → Prop)
    {i : Nat} (now : Nat) (own : Own net i σ μ) (c : Computation net i σ μ) : Prop where
  settled : Settled net i c.own
  acts : (c.sends = [] ∧ c.own.inStream = own.inStream ∧ view c.own.state = view own.state) ∨
    (c.own.inStream = [] ∧ ∃ pkts,
      Acts (net.peers i).publicId now (own.inStream.map (·.toPacket)) (view own.state) (view c.own.state) pkts ∧
      ∀ s ∈ c.sends, s.dest ∈ s.own.neighbors → ⟨s.own.publicId, s.dest, s.msg⟩ ∈ pkts)

namespace Tracks
variable {view : σ → τ} {states : InterfaceId → τ} {w : World net σ μ} (now : Nat) (draws : Draws)

theorem receiveFrom (h : Tracks net view states sent w) {i : Nat} (hi : i < net.size)
    {e : InterfaceId × Quantas.Channel} (he : e ∈ (net.peers i).inBoundChannels) :
    Tracks net view states sent (w.receiveFrom now draws i e.2.handle) := by
  have hspec := Channel.receive_spec (w.lines e.2.handle).channel now
    (draws.shuffle e.2.handle (w.lines e.2.handle).receives)
  have hpeer : ∀ j, j ≠ i → (w.receiveFrom now draws i e.2.handle).peers j = w.peers j := fun j hj =>
    World.setPeer_other w _ hj
  have hself : (w.receiveFrom now draws i e.2.handle).peers i = { w.peers i with
      inStream := (w.peers i).inStream ++ ((w.lines e.2.handle).receive now
        (draws.shuffle e.2.handle (w.lines e.2.handle).receives)).2 } :=
    World.setPeer_self w _
  refine ⟨?_, fun j hj => ?_, fun j hj => ?_, fun j hj pkt hpkt => ?_⟩
  · apply (h.toInTransit.setPeer i _).setLine hspec.properties
    intro pkt hpkt
    exact .inl (hspec.perm.subset (List.mem_append_right _ hpkt))
  · by_cases hji : j = i
    · subst hji
      rw [hself]
      exact ⟨(h.settled j hj).publicId, (h.settled j hj).neighbors, (h.settled j hj).inBound,
        (h.settled j hj).outBound⟩
    · rw [hpeer j hji]
      exact h.settled j hj
  · by_cases hji : j = i
    · subst hji
      rw [hself]
      exact h.state j hj
    · rw [hpeer j hji]
      exact h.state j hj
  · by_cases hji : j = i
    · subst hji
      rw [hself] at hpkt
      rcases List.mem_append.mp hpkt with hold | hmoved
      · exact h.arrived j hj pkt hold
      · exact h.queued j e he pkt (hspec.perm.subset (List.mem_append_left _ hmoved))
    · rw [hpeer j hji] at hpkt
      exact h.arrived j hj pkt hpkt

theorem receive (h : Tracks net view states sent w) {i : Nat} (hi : i < net.size) :
    Tracks net view states sent (w.receive now draws i) := by
  unfold World.receive
  have hchannels : ∀ e ∈ World.iterate (w.peers i).inBoundChannels, e ∈ (net.peers i).inBoundChannels := by
    intro e he
    exact (w.peers i).inBound_subset ((List.perm_insertionSort _ _).mem_iff.mp he)
  generalize World.iterate (w.peers i).inBoundChannels = channels at hchannels ⊢
  induction channels generalizing w with
  | nil => exact h
  | cons e channels ih =>
    apply ih (h.receiveFrom now draws hi (hchannels e List.mem_cons_self))
    intro e' he'
    exact hchannels e' (List.mem_cons_of_mem e he')

theorem receives (h : Tracks net view states sent w) {is : List Nat} (his : ∀ i ∈ is, i < net.size) :
    Tracks net view states sent (is.foldl (fun w i => w.receive now draws i) w) := by
  induction is generalizing w with
  | nil => exact h
  | cons i is ih =>
    exact ih (h.receive now draws (his i List.mem_cons_self)) fun j hj => his j (List.mem_cons_of_mem i hj)

variable {Starts : (InterfaceId → τ) → Prop}
  {Acts : InterfaceId → Nat → List (Quantas.Packet μ) → τ → τ → List (Quantas.Packet μ) → Prop}
  {performComputation : Algorithm net σ μ} (haddressed : Addressed net)
  (hconforms : ∀ i < net.size, ∀ now own, Settled net i own →
    Conforms net view Acts now own (performComputation i now own))
include haddressed hconforms

theorem compute (h : Tracks net view states sent w) {acted : List InterfaceId}
    (hsoup : Soup Starts Acts now acted states sent) {i : Nat} (hi : i < net.size)
    (hnew : (net.peers i).publicId ∉ acted) : ∃ acted' states' sent', Soup Starts Acts now acted' states' sent' ∧
      (∀ p ∈ acted', p ∈ acted ∨ p = (net.peers i).publicId) ∧
      Tracks net view states' sent' (w.tryPerformComputation now draws performComputation i) := by
  unfold World.tryPerformComputation
  dsimp only
  by_cases hcrashed : (w.peers i).crashRecoveryRound > now
  · rw [if_pos hcrashed]
    exact ⟨acted, states, sent, hsoup, fun _ => .inl, h⟩
  rw [if_neg hcrashed]
  obtain ⟨hsettled, hacts⟩ := hconforms i hi now (w.peers i) (h.settled i hi)
  have hupdated : ∀ {w' : World net σ μ}, w'.peers = Function.update w.peers i
      (performComputation i now (w.peers i)).own → ∀ j < net.size, Settled net j (w'.peers j) := by
    intro w' hw' j hj
    rw [hw']
    by_cases hji : j = i
    · subst hji
      rw [Function.update_self]
      exact hsettled
    · rw [Function.update_of_ne hji]
      exact h.settled j hj
  rcases hacts with ⟨hnone, hstream, hview⟩ | ⟨hstream, pkts, hact, hsends⟩
  · rw [hnone]
    refine ⟨acted, states, sent, hsoup, fun _ => .inl, h.toInTransit.setPeer i _, hupdated rfl, fun j hj => ?_,
      fun j hj pkt hpkt => ?_⟩
    · by_cases hji : j = i
      · subst hji
        rw [World.runSends, World.setPeer_self, hview]
        exact h.state j hj
      · rw [World.runSends, World.setPeer_other w _ hji]
        exact h.state j hj
    · by_cases hji : j = i
      · subst hji
        rw [World.runSends, World.setPeer_self, hstream] at hpkt
        exact h.arrived j hj pkt hpkt
      · rw [World.runSends, World.setPeer_other w _ hji] at hpkt
        exact h.arrived j hj pkt hpkt
  · have hreceived : ∀ pkt ∈ (w.peers i).inStream.map (·.toPacket),
        pkt ∈ sent ∧ pkt.target = (net.peers i).publicId := by
      intro pkt hpkt
      obtain ⟨p, hp, rfl⟩ := List.mem_map.mp hpkt
      exact h.arrived i hi p hp
    have hact' := hact
    rw [← h.state i hi] at hact'
    obtain ⟨hin, hpeers⟩ := (h.toInTransit.mono (List.subset_append_left sent pkts)).runSends now draws haddressed
      (performComputation i now (w.peers i)).own fun s hs hdest => List.mem_append_right sent (hsends s hs hdest)
    have hacted : ∀ p ∈ (net.peers i).publicId :: acted, p ∈ acted ∨ p = (net.peers i).publicId :=
      fun p hp => (List.mem_cons.mp hp).symm
    refine ⟨_, _, _, hsoup.act hnew hreceived hact', hacted, hin, hupdated hpeers, fun j hj => ?_,
      fun j hj pkt hpkt => ?_⟩
    · rw [hpeers]
      by_cases hji : j = i
      · subst hji
        rw [Function.update_self, Function.update_self]
      · have hid : (net.peers j).publicId ≠ (net.peers i).publicId := fun heq =>
          hji (haddressed.injective j i hj hi heq)
        rw [Function.update_of_ne hji, Function.update_of_ne hid]
        exact h.state j hj
    · rw [hpeers] at hpkt
      by_cases hji : j = i
      · subst hji
        rw [Function.update_self, hstream] at hpkt
        exact absurd hpkt List.not_mem_nil
      · rw [Function.update_of_ne hji] at hpkt
        exact (h.arrived j hj pkt hpkt).mono (List.subset_append_left _ _)

theorem computes (h : Tracks net view states sent w) {acted : List InterfaceId}
    (hsoup : Soup Starts Acts now acted states sent) {is : List Nat} (hnodup : is.Nodup)
    (his : ∀ i ∈ is, i < net.size ∧ (net.peers i).publicId ∉ acted) :
    ∃ acted' states' sent', Soup Starts Acts now acted' states' sent' ∧ Tracks net view states' sent'
      (is.foldl (fun w i => w.tryPerformComputation now draws performComputation i) w) := by
  induction is generalizing w acted states sent with
  | nil => exact ⟨acted, states, sent, hsoup, h⟩
  | cons i is ih =>
    obtain ⟨hi, hnew⟩ := his i List.mem_cons_self
    obtain ⟨hother, hnodup⟩ := List.nodup_cons.mp hnodup
    obtain ⟨acted', states', sent', hsoup', hacted', h'⟩ := h.compute now draws haddressed hconforms hsoup hi hnew
    refine ih h' hsoup' hnodup fun j hj => ?_
    obtain ⟨hjsize, hjnew⟩ := his j (List.mem_cons_of_mem i hj)
    refine ⟨hjsize, fun hmem => ?_⟩
    rcases hacted' _ hmem with hold | heq
    · exact hjnew hold
    · have hji := haddressed.injective j i hjsize hi heq
      exact hother (hji ▸ hj)

/-- **The rounds of a simulation are steps of the protocol** on a network without channels. -/
theorem run (h : Tracks net view states sent w) {acted : List InterfaceId}
    (hsoup : Soup Starts Acts now acted states sent) {rounds : List (Draws × List Nat × List Nat)}
    (hrounds : ∀ r ∈ rounds, (∀ i ∈ r.2.1, i < net.size) ∧ r.2.2.Nodup ∧ ∀ i ∈ r.2.2, i < net.size) :
    ∃ acted' states' sent', Soup Starts Acts (now + rounds.length) acted' states' sent' ∧
      Tracks net view states' sent' (w.run performComputation (fun _ w => w) (now + 1) rounds) := by
  induction rounds generalizing w acted states sent now with
  | nil => exact ⟨acted, states, sent, hsoup, h⟩
  | cons r rounds ih =>
    obtain ⟨hreceives, hnodup, hcomputes⟩ := hrounds r List.mem_cons_self
    obtain ⟨acted', states', sent', hsoup', h'⟩ := (h.receives (now + 1) r.1 hreceives).computes (now + 1) r.1
      haddressed hconforms hsoup.nextRound hnodup fun i hi => ⟨hcomputes i hi, List.not_mem_nil⟩
    obtain ⟨acted'', states'', sent'', hsoup'', h''⟩ :=
      ih (now + 1) h' hsoup' fun r' hr' => hrounds r' (List.mem_cons_of_mem r hr')
    rw [List.length_cons, Nat.add_comm rounds.length 1, ← Nat.add_assoc]
    exact ⟨acted'', states'', sent'', hsoup'', h''⟩

end Tracks

theorem tracks_initial (net : Network) (view : σ → τ) {state : Nat → σ} {states : InterfaceId → τ}
    {params : ChannelParams} (hparams : Channel.Drawable (.ofParams params)) (lastRound : Nat)
    (hstate : ∀ i < net.size, states (net.peers i).publicId = view (state i)) :
    Tracks net view states [] (World.initial net state params lastRound : World net σ μ) where
  drawable := World.drawable_initial net state hparams lastRound
  queued := fun _ _ _ _ hpkt => absurd hpkt List.not_mem_nil
  settled := fun _ _ => ⟨rfl, rfl, rfl, rfl⟩
  state := hstate
  arrived := fun _ _ _ hpkt => absurd hpkt List.not_mem_nil

theorem Tracks.withRecovery {view : σ → τ} {states : InterfaceId → τ} {w : World net σ μ}
    (h : Tracks net view states sent w) (recovery : Nat → Nat) :
    Tracks net view states sent { w with peers := fun i => { w.peers i with crashRecoveryRound := recovery i } } where
  drawable := h.drawable
  queued := h.queued
  settled i hi :=
    ⟨(h.settled i hi).publicId, (h.settled i hi).neighbors, (h.settled i hi).inBound, (h.settled i hi).outBound⟩
  state := h.state
  arrived := h.arrived

/-! ## Simulations -/

section simulation
variable {t : TopologyConfig} {order : Equiv.Perm (Fin t.size)} {σ τ μ : Type} {view : σ → τ}
  {Starts : (InterfaceId → τ) → Prop}
  {Acts : InterfaceId → Nat → List (Quantas.Packet μ) → τ → τ → List (Quantas.Packet μ) → Prop}
  {performComputation : Algorithm (Network.initNetwork t order) σ μ} {states : InterfaceId → τ}
  {w : World (Network.initNetwork t order) σ μ} {thread_count : Nat}

theorem Tracks.simulation (hstarts : Starts states) (h : Tracks (Network.initNetwork t order) view states [] w)
    (hconforms : ∀ i < (Network.initNetwork t order).size, ∀ now own, Settled (Network.initNetwork t order) i own →
      Conforms (Network.initNetwork t order) view Acts now own (performComputation i now own))
    (hthreads : 0 < thread_count) (rounds : List Draws) {s : BS.Pool (World (Network.initNetwork t order) σ μ)}
    (hs : (BS.poolMachine thread_count
      (Simulation.script thread_count t.size performComputation (fun _ peers => peers) 1 rounds) w).Reached s)
    (hfinished : s.Finished) :
    ∃ acted' states' sent', Soup Starts Acts rounds.length acted' states' sent' ∧
      Tracks (Network.initNetwork t order) view states' sent' s.world := by
  have hscript := parallel_script hthreads t.size (separate_initNetwork t order) performComputation
    (fun _ peers => peers) 1 rounds
  have hworld := (BS.Pool.accounted_of_reached World.ext_cells hscript hs).finished hfinished
  rw [alone_script hthreads t.size performComputation (fun _ peers => peers) 1 rounds h.drawable] at hworld
  have hturns : ∀ r ∈ rounds.map fun draws => (draws, List.range t.size, List.range t.size),
      (∀ i ∈ r.2.1, i < (Network.initNetwork t order).size) ∧ r.2.2.Nodup ∧
        ∀ i ∈ r.2.2, i < (Network.initNetwork t order).size := by
    intro r hr
    obtain ⟨draws, -, rfl⟩ := List.mem_map.mp hr
    rw [Network.initNetwork_size]
    exact ⟨fun i hi => List.mem_range.mp hi, List.nodup_range, fun i hi => List.mem_range.mp hi⟩
  obtain ⟨acted', states', sent', hsoup, htracks⟩ :=
    h.run 0 (addressed_initNetwork t order) hconforms (Soup.start hstarts) hturns
  rw [Nat.zero_add, List.length_map] at hsoup
  rw [hworld]
  exact ⟨acted', states', sent', hsoup, htracks⟩

end simulation

/-! ## Complete networks -/

section complete
variable {t : TopologyConfig} (htype : t.type = .complete) (haccepts : TopologyPlanner.Accepts t)
  (order : Equiv.Perm (Fin t.size)) {i : Nat} (hi : i < t.size)
include hi

omit order hi in
theorem exists_place (order : Equiv.Perm (Fin t.size)) {k : Nat} (hk : k < t.size) :
    ∃ j < t.size, Network.place order j = k := by
  refine ⟨(order.symm ⟨k, hk⟩).val, (order.symm ⟨k, hk⟩).isLt, ?_⟩
  unfold Network.place
  rw [dif_pos (order.symm ⟨k, hk⟩).isLt, Fin.eta, Equiv.apply_symm_apply]

theorem publicId_mem_committee :
    ((Network.initNetwork t order).peers i).publicId ∈ (Committee.ofSize t.size).members := by
  rw [Network.initNetwork_publicId]
  exact List.mem_map.mpr ⟨_, List.mem_range.mpr (Network.place_lt order hi), rfl⟩

omit hi in
theorem perm_committee : ((List.range t.size).map fun i => ((Network.initNetwork t order).peers i).publicId).Perm
    (Committee.ofSize t.size).members := by
  apply (List.perm_ext_iff_of_nodup ?_ (Committee.ofSize t.size).nodup).mpr
  · intro q
    constructor
    · intro hq
      obtain ⟨i, hi, rfl⟩ := List.mem_map.mp hq
      exact publicId_mem_committee order (List.mem_range.mp hi)
    · intro hq
      obtain ⟨k, hk, rfl⟩ := List.mem_map.mp hq
      obtain ⟨j, hj, rfl⟩ := exists_place order (List.mem_range.mp hk)
      exact List.mem_map.mpr ⟨j, List.mem_range.mpr hj, Network.initNetwork_publicId order j⟩
  · apply List.Nodup.map_on ?_ List.nodup_range
    intro i hi j hj
    exact (addressed_initNetwork t order).injective i j ((Network.initNetwork_size order).symm ▸ List.mem_range.mp hi)
      ((Network.initNetwork_size order).symm ▸ List.mem_range.mp hj)

include htype haccepts

theorem neighbors_complete : ((Network.initNetwork t order).peers i).neighbors =
    (Committee.ofSize t.size).members.filter (· ≠ ((Network.initNetwork t order).peers i).publicId) := by
  have hv := TopologyPlanner.valid_of_accepts haccepts
  have hmem : ∀ q, q ∈ ((Network.initNetwork t order).peers i).neighbors ↔ q ∈ (Committee.ofSize t.size).members.filter
      (· ≠ ((Network.initNetwork t order).peers i).publicId) := by
    intro q
    rw [Network.mem_neighbors order hv, List.mem_filter, Network.initNetwork_publicId, Committee.ofSize,
      List.mem_map, decide_eq_true_eq]
    unfold Adjacent Network.linkedPlace
    simp only [htype, reduceCtorEq, if_false]
    constructor
    · intro h
      obtain ⟨-, j, hj, hij, rfl⟩ := h
      refine ⟨⟨_, List.mem_range.mpr (Network.place_lt order hj), rfl⟩, fun heq => hij ?_⟩
      exact (Network.place_inj order hj hi (Int.ofNat_inj.mp heq)).symm
    · intro h
      obtain ⟨⟨k, hk, rfl⟩, hne⟩ := h
      obtain ⟨j, hj, rfl⟩ := exists_place order (List.mem_range.mp hk)
      exact ⟨hi, j, hj, fun hij => hne (hij ▸ rfl), rfl⟩
  have hsorted : ((Network.initNetwork t order).peers i).neighbors.Pairwise (· < ·) := by
    rw [((Network.samePeers_initNetwork order).2 i).2.2]
    exact Network.sorted_linkedPeers_neighbors order i
  have hmembers := (Committee.ofSize t.size).sorted.filter (· ≠ ((Network.initNetwork t order).peers i).publicId)
  refine List.Perm.eq_of_pairwise (fun a b _ _ hab hba => absurd (hab.trans hba) (lt_irrefl a)) hsorted hmembers ?_
  exact (List.perm_ext_iff_of_nodup (hsorted.imp ne_of_lt) (hmembers.imp ne_of_lt)).mpr hmem

end complete

end Quantas.Abstract
