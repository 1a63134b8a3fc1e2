import Quantas.BoostMq.Transport

/-!
# Transport accounting

What the counters of the peers say about the data queues in every interleaving: a message that was counted as sent
was counted as received or still waits, a send that reached its deadline was counted as dropped, and a message
that was taken was delivered unless it could not be decoded. From this the leader's summary is right about the
messages that the test leaves behind.
-/

namespace Quantas.BoostMq

theorem sum_eq_add_of_eq_off {ι : Type*} [DecidableEq ι] {s : Finset ι} {f g : ι → Nat} {i : ι} {k : Nat}
    (hi : i ∈ s) (hat : g i = f i + k) (hoff : ∀ j, j ≠ i → g j = f j) :
    ∑ j ∈ s, g j = ∑ j ∈ s, f j + k := by
  rw [← Finset.add_sum_erase s g hi, ← Finset.add_sum_erase s f hi, hat]
  have hrest : ∑ j ∈ s.erase i, g j = ∑ j ∈ s.erase i, f j := by
    apply Finset.sum_congr rfl
    intro j hj
    exact hoff j (Finset.ne_of_mem_erase hj)
  omega

/-! ## One peer -/

variable {μ β : Type*}

/-- The counters of a peer are those of its history, and its metrics file holds its last counters. -/
structure PeerAccounted (p : MqPeer μ) : Prop where
  sent : p.interface.transportMetrics.sent = p.timedSends.count true
  dropped : p.interface.transportMetrics.droppedBackpressure = p.timedSends.count false
  received : p.interface.transportMetrics.receivedRaw = p.decodes.length
  delivered : p.interface.transportMetrics.deliveredToInstream = p.decodes.count true
  fresh : p.phase = .prepared → p.timedSends = [] ∧ p.decodes = []
  written : ∀ metrics ∈ p.output, p.phase = .finished ∧ metrics = p.interface.transportMetrics

namespace PeerAccounted
variable {p : MqPeer μ}

theorem output_eq_none (h : PeerAccounted p) (hp : p.phase = .running) : p.output = none := by
  rcases hout : p.output with _ | metrics
  · rfl
  · have := (h.written metrics hout).1
    rw [hp] at this
    cases this

theorem throw (h : PeerAccounted p) (hp : p.phase = .running) (what : String) : PeerAccounted (p.throw what) := by
  refine ⟨h.sent, h.dropped, h.received, h.delivered, ?_, ?_⟩
  · intro hphase
    cases hphase
  · intro metrics hm
    have hnone : p.output = none := h.output_eq_none hp
    simp [MqPeer.throw, hnone] at hm

theorem countSend (h : PeerAccounted p) (hp : p.phase = .running) (dest : InterfaceId) (sent : Bool) :
    PeerAccounted (p.countSend dest sent) := by
  have hnone := h.output_eq_none hp
  obtain ⟨hs, hd, hr, hi, -, -⟩ := h
  cases sent with
  | true => constructor <;> simp [MqPeer.countSend, hs, hd, hr, hi, hp, hnone]
  | false => constructor <;> simp [MqPeer.countSend, MqPeer.throw, hs, hd, hr, hi, hnone]

theorem countReceive (h : PeerAccounted p) (hp : p.phase = .running) (failure : String)
    (packet : Option (Packet μ)) : PeerAccounted (p.countReceive failure packet) := by
  have hnone := h.output_eq_none hp
  obtain ⟨hs, hd, hr, hi, -, -⟩ := h
  cases packet with
  | none => constructor <;> simp [MqPeer.countReceive, MqPeer.throw, hs, hd, hr, hi, hnone]
  | some packet => constructor <;> simp [MqPeer.countReceive, hs, hd, hr, hi, hp, hnone]

theorem of_eq {p' : MqPeer μ} (h : PeerAccounted p) (hp : p.phase ≠ .finished)
    (hsent : p'.interface.transportMetrics.sent = p.interface.transportMetrics.sent)
    (hdropped : p'.interface.transportMetrics.droppedBackpressure = p.interface.transportMetrics.droppedBackpressure)
    (hreceived : p'.interface.transportMetrics.receivedRaw = p.interface.transportMetrics.receivedRaw)
    (hdelivered : p'.interface.transportMetrics.deliveredToInstream =
      p.interface.transportMetrics.deliveredToInstream)
    (hsends : p'.timedSends = p.timedSends) (hdecodes : p'.decodes = p.decodes)
    (hphase : p'.phase ≠ .prepared) (hout : p'.output = p.output) : PeerAccounted p' := by
  refine ⟨?_, ?_, ?_, ?_, fun hprep => absurd hprep hphase, ?_⟩
  · rw [hsent, hsends, h.sent]
  · rw [hdropped, hsends, h.dropped]
  · rw [hreceived, hdecodes, h.received]
  · rw [hdelivered, hdecodes, h.delivered]
  · intro metrics hm
    rw [hout] at hm
    exact absurd (h.written metrics hm).1 hp

end PeerAccounted

@[simp] theorem collectTransportMetrics_singleton (mq : NetworkInterfaceConcreteMQ μ) :
    collectTransportMetrics [mq] = mq.transportMetrics := by
  simp [collectTransportMetrics]

/-! ## The system -/

namespace Transport
variable {c : TransportConfig μ β} {t t' : Transport μ β}

@[simp] theorem setPeer_dataQueue (i : InterfaceId) (p : MqPeer μ) :
    (t.setPeer i p).dataQueue = t.dataQueue := rfl

@[simp] theorem setPeer_peer_self (i : InterfaceId) (p : MqPeer μ) : (t.setPeer i p).peer i = p := by
  simp [setPeer]

theorem setPeer_peer_of_ne {i j : InterfaceId} (hj : j ≠ i) (p : MqPeer μ) :
    (t.setPeer i p).peer j = t.peer j := by
  simp [setPeer, hj]

/-- The peers' counters agree with their histories and with the queues. -/
structure Accounted (c : TransportConfig μ β) (t : Transport μ β) : Prop where
  peer : ∀ i, PeerAccounted (t.peer i)
  created : ∀ i, i ∉ c.peers → t.dataQueue i = none
  flow : ∑ i ∈ c.peers, (t.metrics i).sent =
    ∑ i ∈ c.peers, (t.metrics i).receivedRaw + ∑ i ∈ c.peers, t.waiting i

theorem init_accounted : Accounted c (init c) := by
  refine ⟨?_, ?_, ?_⟩
  · intro i
    constructor <;> simp [init]
  · intro i hi
    simp [init, hi]
  · have hwaiting : ∀ i ∈ c.peers, (init c).waiting i = 0 := by
      intro i hi
      simp [waiting, init, hi]
    rw [Finset.sum_congr rfl hwaiting]
    simp [metrics, init]

theorem peer_setPeer {P : MqPeer μ → Prop} (h : ∀ j, P (t.peer j)) {i : InterfaceId} {p : MqPeer μ} (hp : P p)
    (j : InterfaceId) : P ((t.setPeer i p).peer j) := by
  by_cases hj : j = i
  · subst hj
    rwa [setPeer_peer_self]
  · rw [setPeer_peer_of_ne hj]
    exact h j

theorem Accounted.setPeer (h : Accounted c t) {i : InterfaceId} {p : MqPeer μ} (hp : PeerAccounted p)
    (hsent : p.interface.transportMetrics.sent = (t.metrics i).sent)
    (hreceived : p.interface.transportMetrics.receivedRaw = (t.metrics i).receivedRaw) :
    Accounted c (t.setPeer i p) := by
  have hs : ∀ j, ((t.setPeer i p).metrics j).sent = (t.metrics j).sent := by
    intro j
    by_cases hj : j = i
    · subst hj
      simpa [metrics] using hsent
    · simp only [metrics, setPeer_peer_of_ne hj]
  have hr : ∀ j, ((t.setPeer i p).metrics j).receivedRaw = (t.metrics j).receivedRaw := by
    intro j
    by_cases hj : j = i
    · subst hj
      simpa [metrics] using hreceived
    · simp only [metrics, setPeer_peer_of_ne hj]
  refine ⟨peer_setPeer h.peer hp, h.created, ?_⟩
  simp only [hs, hr]
  exact h.flow

theorem Accounted.throw (h : Accounted c t) {i : InterfaceId} (hi : (t.peer i).phase = .running)
    (what : String) : Accounted c (t.setPeer i ((t.peer i).throw what)) :=
  h.setPeer ((h.peer i).throw hi what) rfl rfl

/-! What `timed_send` does, and the two kinds of step that move a message. -/

theorem timedSend_eq_some {capacity : Nat} {queue : List β} {bytes : β} {deadline : Bool}
    {result : List β × Bool} (h : timedSend capacity queue bytes deadline = some result) :
    (queue.length < capacity ∧ result = (queue ++ [bytes], true)) ∨
      (capacity ≤ queue.length ∧ result = (queue, false)) := by
  unfold timedSend at h
  split_ifs at h with hfree hdeadline
  · exact Or.inl ⟨hfree, (Option.some.inj h).symm⟩
  · exact Or.inr ⟨not_lt.mp hfree, (Option.some.inj h).symm⟩

theorem Accounted.send (h : Accounted c t) {i dest : InterfaceId} (hi : i ∈ c.peers)
    (hphase : (t.peer i).phase = .running) {queue : List β} (hq : t.dataQueue dest = some queue)
    {bytes : β} {deadline : Bool} {result : List β × Bool}
    (hsend : timedSend c.dataQueueCapacity queue bytes deadline = some result) :
    Accounted c { t.setPeer i ((t.peer i).countSend dest result.2) with
      dataQueue := Function.update t.dataQueue dest (some result.1) } := by
  have hdest : dest ∈ c.peers := by
    by_contra hnot
    rw [h.created dest hnot] at hq
    cases hq
  have hpeer := peer_setPeer (i := i) h.peer ((h.peer i).countSend hphase dest result.2)
  have hcreated : ∀ j, j ∉ c.peers → Function.update t.dataQueue dest (some result.1) j = none := by
    intro j hj
    have hne : j ≠ dest := by
      intro heq
      exact hj (heq ▸ hdest)
    rw [Function.update_of_ne hne]
    exact h.created j hj
  refine ⟨hpeer, hcreated, ?_⟩
  rcases timedSend_eq_some hsend with ⟨-, rfl⟩ | ⟨-, rfl⟩
  · -- one more message is counted by the sender and waits at the receiver
    have hs := sum_eq_add_of_eq_off (f := fun j => (t.metrics j).sent)
      (g := fun j => ((t.setPeer i ((t.peer i).countSend dest true)).metrics j).sent) (k := 1) hi
      (by simp [metrics, MqPeer.countSend]) (fun j hj => by simp only [metrics, setPeer_peer_of_ne hj])
    have hr : ∀ j, ((t.setPeer i ((t.peer i).countSend dest true)).metrics j).receivedRaw =
        (t.metrics j).receivedRaw := by
      intro j
      by_cases hj : j = i
      · subst hj
        simp [metrics, MqPeer.countSend]
      · simp only [metrics, setPeer_peer_of_ne hj]
    have hw := sum_eq_add_of_eq_off (f := fun j => t.waiting j)
      (g := fun j => ((Function.update t.dataQueue dest (some (queue ++ [bytes])) j).getD []).length) (k := 1)
      hdest (by simp [waiting, hq]) (fun j hj => by simp only [waiting, Function.update_of_ne hj])
    have hflow := h.flow
    have hreceived : ∑ j ∈ c.peers, ((t.setPeer i ((t.peer i).countSend dest true)).metrics j).receivedRaw =
        ∑ j ∈ c.peers, (t.metrics j).receivedRaw := Finset.sum_congr rfl fun j _ => hr j
    simp only [metrics, waiting] at hs hw hflow hreceived ⊢
    omega
  · -- the send reached its deadline: neither the queues nor the flow counters change
    have hback : Function.update t.dataQueue dest (some queue) = t.dataQueue := by
      rw [← hq, Function.update_eq_self]
    rw [hback]
    apply (h.setPeer ((h.peer i).countSend hphase dest false) _ _).flow
    · simp [metrics, MqPeer.countSend, MqPeer.throw]
    · simp [metrics, MqPeer.countSend, MqPeer.throw]

theorem Accounted.tryReceive (h : Accounted c t) {i : InterfaceId} (hi : i ∈ c.peers)
    (hphase : (t.peer i).phase = .running) : Accounted c (t.tryReceive c i) := by
  rcases hq : t.dataQueue i with _ | _ | ⟨bytes, rest⟩
  · simp only [Transport.tryReceive, hq]
    refine h.setPeer (p := { t.peer i with inReceive := false }) ?_ rfl rfl
    apply (h.peer i).of_eq <;> simp [hphase]
  · simp only [Transport.tryReceive, hq]
    refine h.setPeer (p := { t.peer i with inReceive := false }) ?_ rfl rfl
    apply (h.peer i).of_eq <;> simp [hphase]
  · simp only [Transport.tryReceive, hq]
    have hreceives := (h.peer i).countReceive hphase c.archiveFailure (c.decode bytes)
    have hsent : ((t.peer i).countReceive c.archiveFailure (c.decode bytes)).interface.transportMetrics.sent =
        (t.metrics i).sent := by
      cases c.decode bytes <;> rfl
    have hraw : ((t.peer i).countReceive c.archiveFailure (c.decode bytes)).interface.transportMetrics.receivedRaw =
        (t.metrics i).receivedRaw + 1 := by
      cases c.decode bytes <;> rfl
    generalize (t.peer i).countReceive c.archiveFailure (c.decode bytes) = p at hreceives hsent hraw ⊢
    refine ⟨peer_setPeer h.peer hreceives, ?_, ?_⟩
    · intro j hj
      have hne : j ≠ i := by
        intro heq
        exact hj (heq ▸ hi)
      simp only [Function.update_of_ne hne]
      exact h.created j hj
    · have hs : ∑ j ∈ c.peers, ((t.setPeer i p).metrics j).sent = ∑ j ∈ c.peers, (t.metrics j).sent := by
        apply Finset.sum_congr rfl
        intro j _
        by_cases hj : j = i
        · subst hj
          simpa [metrics] using hsent
        · simp only [metrics, setPeer_peer_of_ne hj]
      -- the message leaves the queue as the peer counts it
      have hr := sum_eq_add_of_eq_off (f := fun j => (t.metrics j).receivedRaw)
        (g := fun j => ((t.setPeer i p).metrics j).receivedRaw) (k := 1) hi
        (by simpa [metrics] using hraw) (fun j hj => by simp only [metrics, setPeer_peer_of_ne hj])
      have hw := sum_eq_add_of_eq_off (g := fun j => t.waiting j)
        (f := fun j => ((Function.update t.dataQueue i (some rest) j).getD []).length) (k := 1) hi
        (by simp [waiting, hq]) (fun j hj => by simp only [waiting, Function.update_of_ne hj])
      have hflow := h.flow
      simp only [metrics, waiting] at hs hr hw hflow ⊢
      omega

theorem Accounted.unicastTo (h : Accounted c t) {i dest : InterfaceId} {msg : μ} {sendTime : Int}
    {deadline : Bool} (hi : i ∈ c.peers) (hphase : (t.peer i).phase = .running)
    (hstep : t.unicastTo c i dest msg sendTime deadline = some t') : Accounted c t' := by
  unfold Transport.unicastTo at hstep
  by_cases hneighbor : dest ∉ (t.peer i).interface.neighbors
  · rw [if_pos hneighbor] at hstep
    exact Option.some.inj hstep ▸ h
  · rw [if_neg hneighbor] at hstep
    rcases hq : t.dataQueue dest with _ | queue
    · simp only [hq] at hstep
      exact Option.some.inj hstep ▸ h.throw hphase _
    · simp only [hq] at hstep
      split_ifs at hstep with hsize
      · exact Option.some.inj hstep ▸ h.throw hphase _
      · obtain ⟨result, hsend, rfl⟩ := Option.map_eq_some_iff.mp hstep
        exact h.send hi hphase hq hsend

theorem Accounted.step (h : Accounted c t) {e : TransportEvent μ} (hstep : t.step c e = some t') :
    Accounted c t' := by
  cases e with
  | resetTransportMetrics i =>
    simp only [Transport.step] at hstep
    split_ifs at hstep with hg
    obtain ⟨hi, hphase⟩ := hg
    obtain ⟨hsends, hdecodes⟩ := (h.peer i).fresh hphase
    have hp := h.peer i
    have hout : (t.peer i).output = none := by
      rcases hout : (t.peer i).output with _ | metrics
      · rfl
      · have := (hp.written metrics hout).1
        rw [hphase] at this
        cases this
    refine Option.some.inj hstep ▸ h.setPeer ?_ ?_ ?_
    · constructor <;> simp [hsends, hdecodes, hout]
    · have hsent := hp.sent
      simp [hsends] at hsent
      simp [metrics, hsent]
    · have hreceived := hp.received
      simp [hdecodes] at hreceived
      simp [metrics, hreceived]
  | waitForStart i =>
    simp only [Transport.step] at hstep
    split_ifs at hstep with hg
    refine Option.some.inj hstep ▸ h.setPeer ?_ rfl rfl
    apply (h.peer i).of_eq <;> simp [hg.2]
  | unicastTo i dest msg sendTime deadline =>
    simp only [Transport.step] at hstep
    split_ifs at hstep with hg
    exact h.unicastTo hg.1 hg.2.1 hstep
  | receive i =>
    simp only [Transport.step] at hstep
    split_ifs at hstep with hg
    refine Option.some.inj hstep ▸ h.setPeer ?_ rfl rfl
    apply (h.peer i).of_eq <;> simp [MqPeer.observeUsage, hg.2.1]
  | tryReceive i =>
    simp only [Transport.step] at hstep
    split_ifs at hstep with hg
    exact Option.some.inj hstep ▸ h.tryReceive hg.1 hg.2.1
  | popInStream i =>
    simp only [Transport.step] at hstep
    split_ifs at hstep with hg
    refine Option.some.inj hstep ▸ h.setPeer ?_ rfl rfl
    apply (h.peer i).of_eq <;> simp [hg.2.1]
  | endRounds i =>
    simp only [Transport.step] at hstep
    split_ifs at hstep with hg
    refine Option.some.inj hstep ▸ h.setPeer ?_ rfl rfl
    apply (h.peer i).of_eq <;> simp [hg.2.1]
  | emitFinalExperimentMetrics i =>
    simp only [Transport.step] at hstep
    split_ifs at hstep with hg
    obtain ⟨hs, hd, hr, hi, hf, -⟩ := h.peer i
    refine Option.some.inj hstep ▸ h.setPeer ⟨hs, hd, hr, hi, hf, ?_⟩ rfl rfl
    simp [hg.2]

theorem accounted_of_reached (hr : (transportMachine c).Reached t) : Accounted c t := by
  apply Lib.Machine.ReachedUnder.invariant (P := Accounted c) _ _ hr
  · rintro s rfl
    exact init_accounted
  · intro s e s' hs _ he
    exact hs.step he

end Transport

/-! ## The summary -/

section Summary
variable {c : TransportConfig μ β} {t : Transport μ β}

theorem value_of_lt {json : JsonCounters} {key : String} {x : Nat} (hkey : json.lookup key = some x)
    (hx : x < 2 ^ 31) : json.value key = x := by
  unfold JsonCounters.value
  rw [hkey]
  simp only
  apply Int.bmod_eq_of_le
  · omega
  · omega

theorem readPeerMetrics_eq_map {ids : List InterfaceId} (hr : (transportMachine c).Reached t)
    (hwritten : ∀ i ∈ ids, (t.peer i).output.isSome = true) :
    readPeerMetrics c t ids =
      ids.map fun i => (i, some (makeTransportMetricsJson (t.metrics i) c.dataQueueCapacity)) := by
  unfold readPeerMetrics
  rw [← List.filterMap_eq_map]
  apply List.filterMap_congr
  intro i hi
  obtain ⟨metrics, hm⟩ := Option.isSome_iff_exists.mp (hwritten i hi)
  have hlast := (((Transport.accounted_of_reached hr).peer i).written metrics hm).2
  simp only [hm, hlast, Option.map_some, Function.comp_apply, Transport.metrics]

theorem total_map_eq_sum (key : String) (json : InterfaceId → JsonCounters) (x : InterfaceId → Nat)
    (hkey : ∀ i, (json i).lookup key = some (x i)) (ids : List InterfaceId)
    (hsum : (ids.map x).sum < 2 ^ 31) :
    total key (ids.map fun i => (i, some (json i))) = (ids.map x).sum := by
  have hfold : ∀ (ids : List InterfaceId) (start : Nat), start + (ids.map x).sum < 2 ^ 31 →
      (ids.map fun i => (i, some (json i))).foldl (addCounter key) start = start + (ids.map x).sum := by
    intro ids
    induction ids with
    | nil => simp
    | cons i ids ih =>
      intro start hlt
      simp only [List.map_cons, List.sum_cons] at hlt
      have hvalue : (json i).value key = x i := value_of_lt (hkey i) (by omega)
      have hstep : addCounter key start (i, some (json i)) = start + x i := by
        simp only [addCounter, hvalue]
        omega
      simp only [List.map_cons, List.foldl_cons, List.sum_cons, hstep]
      rw [ih (start + x i) (by omega)]
      omega
  simpa [total] using hfold ids 0 (by simpa using hsum)

/-- **Transport accounting.** At every point of every interleaving the messages that were sent are those that
were received and those that wait in the data queues; what a peer counts as dropped are its sends that reached
their deadline; it delivered what it took unless it could not decode a message. Once every peer has written its
counters, what the summary calls pending is what is left in the queues. -/
theorem transport_accounting (c : TransportConfig μ β) {t : Transport μ β}
    (hr : (transportMachine c).Reached t) :
    ∑ i ∈ c.peers, (t.metrics i).sent =
        ∑ i ∈ c.peers, (t.metrics i).receivedRaw + ∑ i ∈ c.peers, t.waiting i ∧
      (∀ i, (t.metrics i).droppedBackpressure = (t.peer i).timedSends.count false) ∧
      (∀ i, (t.metrics i).deliveredToInstream = (t.metrics i).receivedRaw ↔ false ∉ (t.peer i).decodes) ∧
      ∀ ids : List InterfaceId, ids.Nodup → ids.toFinset = c.peers →
        (∀ i ∈ ids, (t.peer i).output.isSome = true) → ∑ i ∈ c.peers, (t.metrics i).sent < 2 ^ 31 →
          (summarizeTransportReliability (readPeerMetrics c t ids)).pendingAtShutdownTotal =
            ∑ i ∈ c.peers, t.waiting i := by
  have h := Transport.accounted_of_reached hr
  refine ⟨h.flow, fun i => (h.peer i).dropped, ?_, ?_⟩
  · intro i
    have hlength : (t.peer i).decodes.count true + (t.peer i).decodes.count false = (t.peer i).decodes.length :=
      List.count_true_add_count_false _
    have hdelivered := (h.peer i).delivered
    have hreceived := (h.peer i).received
    rw [← List.count_eq_zero, Transport.metrics]
    omega
  · intro ids hnodup hids hwritten hlt
    have hsum : ∀ x : InterfaceId → Nat, (ids.map x).sum = ∑ i ∈ c.peers, x i := by
      intro x
      rw [← hids, List.sum_toFinset x hnodup]
    have hflow := h.flow
    have hsent := total_map_eq_sum "sent"
      (fun i => makeTransportMetricsJson (t.metrics i) c.dataQueueCapacity)
      (fun i => (t.metrics i).sent) (fun i => rfl) ids (by rw [hsum]; exact hlt)
    have hreceived := total_map_eq_sum "received_raw"
      (fun i => makeTransportMetricsJson (t.metrics i) c.dataQueueCapacity)
      (fun i => (t.metrics i).receivedRaw) (fun i => rfl) ids (by rw [hsum]; omega)
    rw [hsum] at hsent hreceived
    rw [readPeerMetrics_eq_map hr hwritten]
    simp only [summarizeTransportReliability, hsent, hreceived]
    split_ifs with hpending <;> omega

/-- Two peers, each the other's neighbour, with data queues for two messages. -/
def twoPeers : TransportConfig Nat (Packet Nat) where
  peers := {0, 1}
  neighbors i := if i = 0 then {1} else {0}
  dataQueueCapacity := 2
  maxMessageSize := 512
  dataSendTimeoutMs := 25
  encode packet _ := packet
  size _ := 96
  decode packet := some packet
  openFailure := "No such file or directory"
  archiveFailure := "input stream error"

/-- Peer 1 takes one message and leaves; two more fill its queue, and the next one reaches its deadline. -/
theorem transport_accounting_twoPeers : ∃ t, (transportMachine twoPeers).Reached t ∧
    (t.metrics 0).droppedBackpressure = 1 ∧
      (summarizeTransportReliability (readPeerMetrics twoPeers t [0, 1])).pendingAtShutdownTotal = 2 := by
  have hrun : ((transportMachine twoPeers).run (Transport.init twoPeers)
      [.resetTransportMetrics 0, .waitForStart 0, .unicastTo 0 1 7 0 false, .resetTransportMetrics 1,
        .waitForStart 1, .receive 1, .tryReceive 1, .tryReceive 1, .endRounds 1, .unicastTo 0 1 8 1 false,
        .unicastTo 0 1 9 2 false, .unicastTo 0 1 10 3 true, .emitFinalExperimentMetrics 0,
        .emitFinalExperimentMetrics 1]).map
      (fun t => decide ((∀ i ∈ [(0 : InterfaceId), 1], (t.peer i).output.isSome = true) ∧
        (t.metrics 0).sent = 3 ∧ (t.metrics 1).sent = 0 ∧ t.waiting 0 = 0 ∧ t.waiting 1 = 2 ∧
        (t.peer 0).timedSends.count false = 1)) = some true := by
    decide +kernel
  obtain ⟨t, ht, hfacts⟩ := Option.map_eq_some_iff.mp hrun
  obtain ⟨hwritten, hsent0, hsent1, hwaiting0, hwaiting1, hdeadlines⟩ := of_decide_eq_true hfacts
  have hreached : (transportMachine twoPeers).Reached t := Lib.Machine.reached_of_run (.start rfl) ht
  obtain ⟨-, hdropped, -, hpending⟩ := transport_accounting twoPeers hreached
  have hsum : ∀ x : InterfaceId → Nat, ∑ i ∈ twoPeers.peers, x i = x 0 + x 1 := by
    intro x
    simp [twoPeers]
  refine ⟨t, hreached, by rw [hdropped, hdeadlines], ?_⟩
  rw [hpending [0, 1] (by decide) (by decide) hwritten (by rw [hsum, hsent0, hsent1]; norm_num), hsum,
    hwaiting0, hwaiting1]

end Summary

end Quantas.BoostMq
