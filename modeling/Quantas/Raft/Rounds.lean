import Quantas.Lib.LossyRounds
import Quantas.Raft.Nesting
import Quantas.Raft.Simulation

/-!
# Raft in rounds

The peers of a committee over the lossy network, each with its draws for every round; what they do is a run of the
system of peers. The second half says what single handlers make of a peer as long as everybody follows the leader,
each result written out as the state before with the fields that have changed.
-/

namespace Quantas.Raft

/-! ## The peers -/

/-- The peers that react by a computation each; the first round is number 1. -/
def protocol (cfg : Config) (jitter : InterfaceId → Int) (draws : InterfaceId → Nat → List Nat) :
    Lib.Lossy.Protocol InterfaceId RaftConsensus (Packet Message) where
  members := cfg.committee.members
  initial := fun p => initialPeer cfg (jitter p)
  accepts := fun p pkt => pkt.target = p
  react := fun p time inStream s =>
    let r := drainAndTick ⟨p, cfg.committee.members.filter (· ≠ p), cfg.committee.members, ((time + 1 : Nat) : Int)⟩
      (inStream.map (·.message)) { s with outbox := [], draws := draws p time }
    (r.toRaftConsensus, r.outbox)

section Peers
variable {cfg : Config} {jitter : InterfaceId → Int} {draws : InterfaceId → Nat → List Nat}

instance (p : InterfaceId) (pkt : Packet Message) : Decidable ((protocol cfg jitter draws).accepts p pkt) :=
  inferInstanceAs (Decidable (_ = _))

def asSystem (net : Lib.Lossy.Net InterfaceId RaftConsensus (Packet Message)) : System :=
  ⟨net.time + 1, net.nodes, net.sent⟩

theorem asSystem_reached (hjitter : ∀ p, 0 ≤ jitter p ∧ jitter p < 5)
    {net : Lib.Lossy.Net InterfaceId RaftConsensus (Packet Message)}
    (h : (protocol cfg jitter draws).machine.Reached net) : (machine cfg).Reached (asSystem net) := by
  refine h.invariant (P := fun net => (machine cfg).Reached (asSystem net)) ?_ ?_
  · intro net hnet
    rw [show net = ⟨0, (protocol cfg jitter draws).initial, []⟩ from hnet]
    exact .next (.start (System.initial_fresh hjitter)) trivial (e := .nextRound) rfl
  · intro net e net' hreached _ hstep
    rcases Lib.Lossy.Protocol.step_cases hstep with ⟨-, rfl⟩ | ⟨p, inStream, -, hp, hmem, rfl⟩
    · exact .next hreached trivial (e := .nextRound) rfl
    · exact System.drainAndTick_reached hreached hp hmem (draws p net.time)

def drain (ctx : Ctx) (received : List (Packet Message)) (s : Local) : Local :=
  (received.map (·.message)).foldl (fun s msg => collect (onMessage ctx msg) s) s

theorem drain_cons (ctx : Ctx) (pkt : Packet Message) (received : List (Packet Message)) (s : Local) :
    drain ctx (pkt :: received) s = drain ctx received (collect (onMessage ctx pkt.message) s) := rfl

section Drain
variable {sys : System} {p : InterfaceId} {received : List (Packet Message)} {s : Local}

theorem System.collect_reached (hp : p ∈ cfg.committee.members) {pkt : Packet Message}
    (hpkt : pkt ∈ sys.sent ∧ pkt.target = p) (h : (machine cfg).Reached (sys.after p s)) :
    (machine cfg).Reached (sys.after p (collect (onMessage (sys.ctx cfg p) pkt.message) s)) := by
  have hreceived : ∀ pkt' ∈ [pkt], pkt' ∈ sys.sent ∧ pkt'.target = p := by
    intro pkt' hpkt'
    obtain rfl := List.mem_singleton.mp hpkt'
    exact hpkt
  exact System.drain_reached hp hreceived h

theorem System.drain_invariant {Q : Local → Prop} (hp : p ∈ cfg.committee.members)
    (hreceived : ∀ pkt ∈ received, pkt ∈ sys.sent ∧ pkt.target = p)
    (hstep : ∀ t, ∀ pkt ∈ received, (machine cfg).Reached (sys.after p t) → Q t →
      Q (collect (onMessage (sys.ctx cfg p) pkt.message) t))
    (h : (machine cfg).Reached (sys.after p s)) (hs : Q s) : Q (drain (sys.ctx cfg p) received s) := by
  induction received generalizing s with
  | nil => exact hs
  | cons pkt received ih =>
    rw [drain_cons]
    apply ih
    · exact fun pkt' hpkt' => hreceived pkt' (List.mem_cons_of_mem pkt hpkt')
    · exact fun t pkt' hpkt' => hstep t pkt' (List.mem_cons_of_mem pkt hpkt')
    · exact System.collect_reached hp (hreceived pkt List.mem_cons_self) h
    · exact hstep s pkt List.mem_cons_self h hs

theorem System.counted_own {k : Int} (h : (sys.after p s).Counted (p, k)) : k < s.nextClientRequestId := by
  unfold Counted at h
  dsimp only at h
  rw [after_self] at h
  exact h

theorem System.numbered_of_reached (h : (machine cfg).Reached (sys.after p s)) :
    Numbered (sys.ctx cfg p) (sys.after p s).Counted { s with outbox := [] } := by
  have hnumbered : Numbered ((sys.after p s).ctx cfg p) (sys.after p s).Counted ((sys.after p s).start p s.draws) :=
    (keysCounted_of_reached h).start p s.draws
  have hself : (sys.after p s).start p s.draws = { s with outbox := [] } := by
    unfold start
    rw [after_self]
  rw [hself] at hnumbered
  exact hnumbered

theorem System.next_nonneg (h : (machine cfg).Reached (sys.after p s)) : 0 ≤ s.nextClientRequestId := by
  have hnext := ((majorityInv_of_reached h).peers p).next
  rw [after_self] at hnext
  exact hnext

theorem System.unused_of_reached (h : (machine cfg).Reached (sys.after p s)) :
    Unused (sys.ctx cfg p) s.toRaftConsensus := by
  have hnext := next_nonneg h
  exact (numbered_of_reached h).unused (fun _ hk => counted_own hk) hnext

end Drain

end Peers

variable {ctx : Ctx} {s s' s'' : Local}

theorem collect_toRaftConsensus (handler : Local → Local) (s : Local) :
    (collect handler s).toRaftConsensus = (handler { s with outbox := [] }).toRaftConsensus := rfl

theorem collect_outbox (handler : Local → Local) (s : Local) :
    (collect handler s).outbox = s.outbox ++ (handler { s with outbox := [] }).outbox := rfl

/-! ## Requests on their way to the leader -/

theorem enqueueDeferred_fields (request : Request) (s : Local) : ∃ known deferred,
    enqueueDeferred request s = { s with knownRequests := known, deferredClientRequests := deferred } := by
  unfold enqueueDeferred
  split_ifs
  · exact ⟨_, _, rfl⟩
  · exact ⟨s.knownRequests, s.deferredClientRequests, rfl⟩

/-- From `s` to `s'` requests have come into the queues, a follower has sent some on to the leader, and nothing
else has happened. -/
def Queues (ctx : Ctx) (s s' : Local) : Prop :=
  ∃ known pending deferred next draws out, s' = { s with
      knownRequests := known
      pendingClientRequests := pending
      deferredClientRequests := deferred
      nextClientRequestId := next
      draws := draws
      outbox := s.outbox ++ out } ∧
    ∀ pkt ∈ out, s.leaderId ≠ ctx.self ∧ pkt.target = s.leaderId ∧ ∃ request, pkt.message = .clientRequest request

namespace Queues

theorem refl (s : Local) : Queues ctx s s :=
  ⟨s.knownRequests, s.pendingClientRequests, s.deferredClientRequests, s.nextClientRequestId, s.draws, [], by simp,
    by simp⟩

theorem trans (h : Queues ctx s s') (h' : Queues ctx s' s'') : Queues ctx s s'' := by
  obtain ⟨known, pending, deferred, next, draws, out, rfl, hout⟩ := h
  obtain ⟨known', pending', deferred', next', draws', out', rfl, hout'⟩ := h'
  refine ⟨known', pending', deferred', next', draws', out ++ out', ?_, fun pkt hpkt => ?_⟩
  · dsimp only
    rw [List.append_assoc]
  · rcases List.mem_append.mp hpkt with hpkt | hpkt
    · exact hout pkt hpkt
    · exact hout' pkt hpkt

theorem of_fields (known : Finset TxKey) (pending deferred : List Request) (next : Int) (draws : List Nat) :
    Queues ctx s { s with
      knownRequests := known
      pendingClientRequests := pending
      deferredClientRequests := deferred
      nextClientRequestId := next
      draws := draws } :=
  ⟨known, pending, deferred, next, draws, [], by simp, by simp⟩

theorem enqueueDeferred (request : Request) (s : Local) : Queues ctx s (enqueueDeferred request s) := by
  obtain ⟨known, deferred, heq⟩ := enqueueDeferred_fields request s
  rw [heq]
  exact of_fields _ _ _ _ _

theorem forwardDeferred (ctx : Ctx) (s : Local) (request : Request) :
    Queues ctx s (forwardDeferred ctx s request) := by
  unfold Raft.forwardDeferred
  rw [unicastTo_eq]
  split_ifs with hgone hleads
  · exact refl s
  · exact of_fields _ _ _ _ _
  · exact ⟨_, _, _, _, _, _, rfl, fun pkt hpkt => by
      obtain rfl := List.mem_singleton.mp hpkt
      exact ⟨hleads, rfl, _, rfl⟩⟩
  · exact ⟨_, _, _, _, _, _, rfl, by simp⟩
  · exact of_fields _ _ _ _ _
  · exact of_fields _ _ _ _ _

theorem tryForwardDeferredRequests (ctx : Ctx) (s : Local) : Queues ctx s (tryForwardDeferredRequests ctx s) := by
  suffices h : ∀ (rs : List Request) (t : Local), Queues ctx s t →
      Queues ctx s (rs.foldl (Raft.forwardDeferred ctx) t) from h _ _ (of_fields _ _ _ _ _)
  intro rs
  induction rs with
  | nil => exact fun _ h => h
  | cons r rs ih => exact fun t h => ih _ (h.trans (forwardDeferred ctx t r))

theorem queued (ctx : Ctx) (request : Request) (s : Local) : Queues ctx s (queued ctx request s) := by
  have hcomplete : Queues ctx s (completeRequest ctx request s).2 := by
    unfold completeRequest
    cases request.clientSeq with
    | some seq => exact refl s
    | none => exact of_fields _ _ _ _ _
  exact hcomplete.trans ((enqueueDeferred _ _).trans (tryForwardDeferredRequests ctx _))

theorem leaderId (h : Queues ctx s s') : s'.leaderId = s.leaderId := by
  obtain ⟨known, pending, deferred, next, draws, out, rfl, -⟩ := h
  rfl

theorem hasInFlight (h : Queues ctx s s') : s'.hasInFlight = s.hasInFlight := by
  obtain ⟨known, pending, deferred, next, draws, out, rfl, -⟩ := h
  rfl

theorem timeOutRound (h : Queues ctx s s') : s'.timeOutRound = s.timeOutRound := by
  obtain ⟨known, pending, deferred, next, draws, out, rfl, -⟩ := h
  rfl

theorem outbox (h : Queues ctx s s') (hleads : s.leaderId = ctx.self) : s'.outbox = s.outbox := by
  obtain ⟨known, pending, deferred, next, draws, out, rfl, hout⟩ := h
  cases out with
  | nil => exact List.append_nil _
  | cons pkt out => exact absurd hleads (hout pkt List.mem_cons_self).1

end Queues

theorem startReplication_busy (h : s.leaderId ≠ ctx.self ∨ s.hasInFlight = true) : startReplication ctx s = s := by
  unfold startReplication tryStartReplication
  rw [if_pos h]

theorem onClientRequest_busy (h : s.leaderId ≠ ctx.self ∨ s.hasInFlight = true) (request : Request) :
    onClientRequest ctx request s = queued ctx request s := by
  have hqueues := Queues.queued ctx request s
  rw [onClientRequest, acceptClientRequest_eq]
  split_ifs
  · apply startReplication_busy
    rw [hqueues.leaderId, hqueues.hasInFlight]
    exact h
  · rfl

theorem maybeGenerateClientRequest_busy (h : s.leaderId ≠ ctx.self ∨ s.hasInFlight = true) :
    (∃ draws, maybeGenerateClientRequest ctx s = { s with draws := draws }) ∨
      ∃ request next draws, maybeGenerateClientRequest ctx s =
        queued ctx request { s with nextClientRequestId := next, draws := draws } := by
  unfold maybeGenerateClientRequest randMod
  dsimp only
  split_ifs
  · exact .inl ⟨s.draws, rfl⟩
  · exact .inl ⟨_, rfl⟩
  · right
    rw [onClientRequest_busy]
    · exact ⟨_, _, _, rfl⟩
    · exact h

theorem tick_quiet (htimer : ctx.round < (maybeGenerateClientRequest ctx s).timeOutRound) :
    tick ctx s = tryForwardDeferredRequests ctx (maybeGenerateClientRequest ctx s) := by
  unfold tick maybeStartElection
  rw [if_pos (htimer.trans_le (le_toSizeT _))]

theorem Queues.tick (h : s.leaderId ≠ ctx.self ∨ s.hasInFlight = true) (htimer : ctx.round < s.timeOutRound) :
    Queues ctx s (tick ctx s) := by
  have hgenerated : Queues ctx s (maybeGenerateClientRequest ctx s) := by
    rcases maybeGenerateClientRequest_busy h with ⟨draws, heq⟩ | ⟨request, next, draws, heq⟩
    · rw [heq]
      exact .of_fields _ _ _ _ _
    · rw [heq]
      exact .trans (.of_fields _ _ _ _ _) (.queued ctx _ _)
  rw [tick_quiet (hgenerated.timeOutRound ▸ htimer)]
  exact hgenerated.trans (.tryForwardDeferredRequests ctx _)

/-! ## The queues of a leader -/

/-- A leader that has nothing deferred and only live requests pending. -/
structure Sorted (s : RaftConsensus) : Prop where
  deferred : s.deferredClientRequests = []
  pending : ∀ r ∈ s.pendingClientRequests, live s r = true

theorem sorted_tryForwardDeferredRequests (hleads : s.leaderId = ctx.self)
    (hpending : ∀ r ∈ s.pendingClientRequests, live s.toRaftConsensus r = true) :
    Sorted (tryForwardDeferredRequests ctx s).toRaftConsensus := by
  rw [tryForwardDeferredRequests_leader hleads]
  refine ⟨rfl, fun r hr => ?_⟩
  rcases List.mem_append.mp hr with hr | hr
  · exact hpending r hr
  · obtain ⟨r', hr', rfl⟩ := List.mem_map.mp hr
    exact (List.mem_filter.mp hr').2

theorem sorted_enqueueDeferred (hleads : s.leaderId = ctx.self)
    (hpending : ∀ r ∈ s.pendingClientRequests, live s.toRaftConsensus r = true) (request : Request) :
    Sorted (tryForwardDeferredRequests ctx (enqueueDeferred request s)).toRaftConsensus := by
  apply sorted_tryForwardDeferredRequests
  · exact (enqueueDeferred_replicates ctx request s).leaderId.trans hleads
  · unfold enqueueDeferred
    split_ifs <;> exact hpending

theorem sorted_queued (hleads : s.leaderId = ctx.self) (h : Sorted s.toRaftConsensus) (request : Request) :
    Sorted (queued ctx request s).toRaftConsensus := by
  obtain ⟨submitterId, clientSeq, roundSubmitted, forwardedTo⟩ := request
  cases clientSeq with
  | some seq => exact sorted_enqueueDeferred hleads h.pending _
  | none =>
    exact sorted_enqueueDeferred (s := { s with nextClientRequestId := s.nextClientRequestId + 1 }) hleads h.pending _

theorem sorted_tick (hleads : s.leaderId = ctx.self) (hbusy : s.hasInFlight = true)
    (htimer : ctx.round < s.timeOutRound) (h : Sorted s.toRaftConsensus) : Sorted (tick ctx s).toRaftConsensus := by
  have hbusy' : s.leaderId ≠ ctx.self ∨ s.hasInFlight = true := .inr hbusy
  rcases maybeGenerateClientRequest_busy hbusy' with ⟨draws, heq⟩ | ⟨request, next, draws, heq⟩
  · rw [tick_quiet (by rw [heq]; exact htimer), heq]
    exact sorted_tryForwardDeferredRequests hleads h.pending
  · have hqueues := Queues.queued ctx request { s with nextClientRequestId := next, draws := draws }
    have hsorted := sorted_queued (s := { s with nextClientRequestId := next, draws := draws }) hleads
      ⟨h.deferred, h.pending⟩ request
    rw [tick_quiet (by rw [heq, hqueues.timeOutRound]; exact htimer), heq]
    exact sorted_tryForwardDeferredRequests (hqueues.leaderId.trans hleads) hsorted.pending

/-! ## The start of a replication -/

theorem resetTimer_fields (ctx : Ctx) (s : Local) : ∃ timeOut draws, ctx.round + s.timeOutSpacing ≤ timeOut ∧
    resetTimer ctx s = { s with timeOutRound := timeOut, draws := draws } := by
  unfold resetTimer randMod
  split_ifs with hrandom
  · exact ⟨_, _, Int.le_add_of_nonneg_right (Int.emod_nonneg _ hrandom.ne'), rfl⟩
  · exact ⟨_, _, le_of_eq (Int.add_zero _).symm, rfl⟩

def toMembers (ctx : Ctx) (msg : Message) : List (Packet Message) :=
  (ctx.members.filter (· ∈ ctx.neighbors)).map fun dest => ⟨ctx.self, dest, msg⟩

/-- Request `request` is in flight since the call that led from `s` to `s'`. -/
def Starts (ctx : Ctx) (request : Request) (s s' : Local) : Prop :=
  ∃ known pending next draws timeOut, ctx.round + s.timeOutSpacing ≤ timeOut ∧ s' = { s with
    knownRequests := known
    pendingClientRequests := pending
    deferredClientRequests := []
    nextClientRequestId := next
    draws := draws
    hasInFlight := true
    inFlightKey := extractKey request
    inFlightRequest := { request with roundSubmitted := some ctx.round }
    replies := Function.update s.replies (extractKey request) (some ((s.replies (extractKey request)).getD []))
    submittedRound := Function.update s.submittedRound (extractKey request) (some ctx.round)
    timeOutRound := timeOut
    outbox := s.outbox ++
      toMembers ctx (.request { request with roundSubmitted := some ctx.round } ctx.self s.term) } ∧
    ∀ r ∈ pending, live s.toRaftConsensus r = true

theorem replicateFirst_starts {r : Request} {rest : List Request} (hdeferred : s.deferredClientRequests = [])
    (hlive : ∀ r' ∈ r :: rest, live s.toRaftConsensus r' = true) : Starts ctx r s (replicateFirst ctx (r :: rest) s) := by
  have hkept : ¬ (¬ keyValid (extractKey r) ∨ extractKey r ∈ s.committedRequests) :=
    fun hgone => (discarded_iff _ _).mp hgone (hlive r List.mem_cons_self)
  rw [replicateFirst]
  dsimp only
  rw [if_neg hkept, multicast_eq]
  generalize ht : Local.mk _ _ _ = t
  obtain ⟨timeOut, draws, hround, heq⟩ := resetTimer_fields ctx t
  rw [heq, ← ht] at *
  refine ⟨s.knownRequests, rest, s.nextClientRequestId, draws, timeOut, hround, ?_,
    fun r' hr' => hlive r' (List.mem_cons_of_mem r hr')⟩
  rw [← hdeferred]
  rfl

theorem generated_fields (hleads : s.leaderId = ctx.self) (h : Sorted s.toRaftConsensus)
    (hempty : s.pendingClientRequests = []) (hfresh : FreshLive ctx s.toRaftConsensus) :
    generated ctx s = { s with
      knownRequests := insert (ctx.self, s.nextClientRequestId) s.knownRequests
      pendingClientRequests := [freshRequest ctx s]
      deferredClientRequests := []
      nextClientRequestId := s.nextClientRequestId + 1 } := by
  obtain ⟨hvalid, hunknown, huncommitted⟩ := hfresh
  have hlive : live s.toRaftConsensus (freshRequest ctx s) = true := decide_eq_true ⟨hvalid, huncommitted⟩
  have hqueued : enqueueDeferred (freshRequest ctx s) { s with nextClientRequestId := s.nextClientRequestId + 1 } = { s with
      knownRequests := insert (ctx.self, s.nextClientRequestId) s.knownRequests
      deferredClientRequests := [freshRequest ctx s]
      nextClientRequestId := s.nextClientRequestId + 1 } := by
    unfold enqueueDeferred
    rw [if_pos ⟨hvalid, hunknown⟩]
    dsimp only
    rw [h.deferred]
    rfl
  have hkept : ∀ t : RaftConsensus, t.committedRequests = s.committedRequests →
      [freshRequest ctx s].filter (live t) = [freshRequest ctx s] := by
    intro t ht
    apply List.filter_cons_of_pos
    rw [live, ht]
    exact hlive
  rw [generated, hqueued, tryForwardDeferredRequests_leader]
  · dsimp only
    rw [hempty, hkept]
    · rfl
    · rfl
  · exact hleads

/-- **The next request.** A leader without a request in flight starts one: the first that is pending, or one that it
generates. -/
theorem startReplication_starts (hleads : s.leaderId = ctx.self) (hidle : s.hasInFlight = false)
    (h : Sorted s.toRaftConsensus) (hfresh : s.pendingClientRequests = [] → FreshLive ctx s.toRaftConsensus) :
    ∃ request, live s.toRaftConsensus request = true ∧ Starts ctx request s (startReplication ctx s) := by
  unfold startReplication
  cases hpending : s.pendingClientRequests with
  | cons r rest =>
    have hlive : ∀ r' ∈ r :: rest, live s.toRaftConsensus r' = true := hpending ▸ h.pending
    refine ⟨r, hlive r List.mem_cons_self, ?_⟩
    rw [(tryStartReplication_pending hleads hidle (by rw [hpending]; exact List.cons_ne_nil r rest) _).1, hpending]
    exact replicateFirst_starts h.deferred hlive
  | nil =>
    have hfresh : FreshLive ctx s.toRaftConsensus := hfresh hpending
    refine ⟨freshRequest ctx s, decide_eq_true ⟨hfresh.1, hfresh.2.2⟩, ?_⟩
    have hgenerated := generated_fields hleads h hpending hfresh
    rw [(tryStartReplication_generate hleads hidle hpending _).1,
      (tryStartReplication_pending (s := generated ctx s) (by rw [hgenerated]; exact hleads)
        (by rw [hgenerated]; exact hidle) (by rw [hgenerated]; exact List.cons_ne_nil _ []) _).1, hgenerated]
    generalize ht : ({ s with
      knownRequests := insert (ctx.self, s.nextClientRequestId) s.knownRequests
      pendingClientRequests := [freshRequest ctx s]
      deferredClientRequests := []
      nextClientRequestId := s.nextClientRequestId + 1 } : Local) = t
    have hlive : ∀ r ∈ [freshRequest ctx s], live t.toRaftConsensus r = true := by
      intro r hr
      obtain rfl := List.mem_singleton.mp hr
      rw [← ht]
      exact decide_eq_true ⟨hfresh.1, hfresh.2.2⟩
    have hstarts : Starts ctx (freshRequest ctx s) t (replicateFirst ctx [freshRequest ctx s] t) :=
      replicateFirst_starts (by rw [← ht]) hlive
    -- the generated request has been started by the nested call, which leaves nothing pending
    have hrest := (replicateFirst_cons ctx (hlive _ (List.mem_singleton.mpr rfl)) []).2.1
    have hpending' : t.pendingClientRequests = [freshRequest ctx s] := by rw [← ht]
    rw [hpending']
    generalize replicateFirst ctx [freshRequest ctx s] t = u at hstarts hrest ⊢
    obtain ⟨known, pending, next, draws, timeOut, hround, rfl, -⟩ := hstarts
    change pending = [] at hrest
    subst hrest ht
    exact ⟨known, [], next, draws, timeOut, hround, rfl, by simp⟩

end Quantas.Raft
