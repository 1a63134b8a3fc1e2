import Quantas.Raft.Rounds

/-!
# Raft: one request in every two rounds

From its first request on, the initial leader of a committee in lock-step always has a request in flight. The others
answer it in the next round (`Asked`), and their answers confirm it in the one after that (`Answered`), when the
leader starts the next. No timer runs out on the way.
-/

namespace Quantas.Raft

variable {cfg : Config} {ctx : Ctx} {confirmed : List Confirmation} {deadline started : Int} {K : Request}
  {heard : List InterfaceId} {s s' : Local}

/-! ## What a peer keeps -/

structure Steady (cfg : Config) (confirmed : List Confirmation) (deadline : Int) (s : RaftConsensus) : Prop where
  leaderId : s.leaderId = 0
  term : s.term = 0
  leaderChanges : s.leaderChanges = 0
  spacing : s.timeOutSpacing = cfg.timeoutSpacing
  timer : deadline ≤ s.timeOutRound
  confirmedTrans : s.confirmedTrans = confirmed
  latency : s.latency = (confirmed.map fun c => c.roundCommitted - c.roundSubmitted).sum

/-- The leader has no two requests of one key among those it has confirmed. -/
structure Distinct (confirmed : List Confirmation) (s : RaftConsensus) : Prop where
  committed : ∀ c ∈ confirmed, extractKey c.request ∈ s.committedRequests
  nodup : (confirmed.map fun c => extractKey c.request).Nodup

structure Ready (cfg : Config) (confirmed : List Confirmation) (s : RaftConsensus) : Prop where
  distinct : Distinct confirmed s
  sorted : Sorted s
  hasInFlight : s.hasInFlight = false
  replies : s.replies = fun _ => none

/-- The leader, with `K` in flight since round `started` and answered by the peers in `heard`. -/
structure Awaits (cfg : Config) (K : Request) (heard : List InterfaceId) (confirmed : List Confirmation)
    (started : Int) (s : RaftConsensus) : Prop where
  steady : Steady cfg confirmed (started + cfg.timeoutSpacing) s
  distinct : Distinct confirmed s
  sorted : Sorted s
  live : live s K = true
  hasInFlight : s.hasInFlight = true
  inFlightKey : s.inFlightKey = extractKey K
  replies : s.replies = Function.update (fun _ => none) (extractKey K) (some heard)
  submittedRound : s.submittedRound (extractKey K) = some started

theorem Steady.weaken (h : Steady cfg confirmed deadline s.toRaftConsensus) {deadline' : Int}
    (hle : deadline' ≤ deadline) : Steady cfg confirmed deadline' s.toRaftConsensus :=
  { h with timer := hle.trans h.timer }

theorem Steady.queues (h : Steady cfg confirmed deadline s.toRaftConsensus) (hqueues : Queues ctx s s') :
    Steady cfg confirmed deadline s'.toRaftConsensus := by
  obtain ⟨known, pending, deferred, next, draws, out, rfl, -⟩ := hqueues
  exact ⟨h.leaderId, h.term, h.leaderChanges, h.spacing, h.timer, h.confirmedTrans, h.latency⟩

theorem Awaits.queues (h : Awaits cfg K heard confirmed started s.toRaftConsensus) (hqueues : Queues ctx s s')
    (hsorted : Sorted s'.toRaftConsensus) : Awaits cfg K heard confirmed started s'.toRaftConsensus := by
  have hsteady := h.steady.queues hqueues
  obtain ⟨known, pending, deferred, next, draws, out, rfl, -⟩ := hqueues
  exact ⟨hsteady, ⟨h.distinct.committed, h.distinct.nodup⟩, hsorted, h.live, h.hasInFlight, h.inFlightKey, h.replies,
    h.submittedRound⟩

/-! ## A follower -/

theorem Steady.commit (hfollows : ctx.self ≠ 0) (h : Steady cfg confirmed deadline s.toRaftConsensus) {request : Request}
    (hvalid : keyValid (extractKey request)) (committed submitted : Int) :
    Steady cfg (confirmed ++ [⟨request, submitted, committed, 0⟩]) deadline
        (collect (onMessage ctx (.commit request 0 0 committed submitted)) s).toRaftConsensus ∧
      (collect (onMessage ctx (.commit request 0 0 committed submitted)) s).outbox = s.outbox := by
  have hsender : ¬ (0 : InterfaceId) = ctx.self := fun hself => hfollows hself.symm
  have hterm : ¬ s.term < 0 := by
    rw [h.term]
    exact lt_irrefl 0
  unfold collect onMessage handleCommit
  dsimp only
  rw [if_neg hsender, if_neg hterm]
  unfold applyCommit
  dsimp only
  rw [if_neg (not_not.mpr hvalid), if_neg Bool.false_ne_true]
  refine ⟨⟨h.leaderId, h.term, h.leaderChanges, h.spacing, h.timer, ?_, ?_⟩, List.append_nil _⟩
  · change s.confirmedTrans ++ [_] = _
    rw [h.confirmedTrans, ← h.term]
    rfl
  · change s.latency + (committed - submitted) = _
    rw [h.latency, List.map_append, List.sum_append]
    simp

theorem Steady.answer (hleader : 0 ∈ ctx.neighbors) (h : Steady cfg confirmed deadline s.toRaftConsensus) {request : Request}
    (hvalid : keyValid (extractKey request)) :
    Steady cfg confirmed (ctx.round + cfg.timeoutSpacing)
        (collect (onMessage ctx (.request request 0 0)) s).toRaftConsensus ∧
      (collect (onMessage ctx (.request request 0 0)) s).outbox = s.outbox ++
        [⟨ctx.self, 0, .respondRequest request ctx.self 0 (request.roundSubmitted.getD ctx.round)⟩] := by
  have hsender : ¬ ((0 : Int) < 0 ∨ (0 : InterfaceId) = NO_PEER_ID) := by decide
  have hterm : s.term ≤ 0 := le_of_eq h.term
  have hsame : ¬ s.leaderId ≠ 0 := not_not.mpr h.leaderId
  unfold collect onMessage handleRequest followSender
  dsimp only
  rw [if_neg hsender, if_pos hterm, if_neg hsame, if_neg (not_not.mpr hvalid)]
  generalize ht : Local.mk _ _ _ = t
  obtain ⟨timeOut, draws, hround, heq⟩ := resetTimer_fields ctx t
  rw [heq]
  obtain ⟨known, deferred, hqueued⟩ := enqueueDeferred_fields request { t with timeOutRound := timeOut, draws := draws }
  rw [hqueued, unicastTo_eq, if_pos hleader]
  subst ht
  rw [h.spacing] at hround
  exact ⟨⟨rfl, rfl, h.leaderChanges, h.spacing, hround, h.confirmedTrans, h.latency⟩, rfl⟩

theorem Steady.tick (hfollows : ctx.self ≠ 0) (h : Steady cfg confirmed deadline s.toRaftConsensus)
    (htimer : ctx.round < deadline) :
    Steady cfg confirmed deadline (collect (tick ctx) s).toRaftConsensus ∧
      ∃ out, (collect (Raft.tick ctx) s).outbox = s.outbox ++ out ∧
        ∀ pkt ∈ out, pkt.target = 0 ∧ ∃ request, pkt.message = .clientRequest request := by
  have hfollower : s.leaderId ≠ ctx.self := fun hself => hfollows (hself.symm.trans h.leaderId)
  have hqueues : Queues ctx { s with outbox := [] } (Raft.tick ctx { s with outbox := [] }) :=
    .tick (.inl hfollower) (htimer.trans_le h.timer)
  have hsteady := Steady.queues (s := { s with outbox := [] }) h hqueues
  refine ⟨hsteady, ?_⟩
  obtain ⟨known, pending, deferred, next, draws, out, heq, hout⟩ := hqueues
  refine ⟨out, ?_, fun pkt hpkt => ?_⟩
  · rw [collect_outbox, heq]
    rfl
  · obtain ⟨-, htarget, hrequest⟩ := hout pkt hpkt
    exact ⟨htarget.trans h.leaderId, hrequest⟩

def commitMessage (c : Confirmation) : Message := .commit c.request 0 0 c.roundCommitted c.roundSubmitted

def Announceable (confirmed : List Confirmation) : Prop :=
  ∀ c ∈ confirmed, keyValid (extractKey c.request) ∧ c.term = 0

theorem Steady.announced (hfollows : ctx.self ≠ 0) (h : Steady cfg confirmed deadline s.toRaftConsensus)
    {c : Confirmation} (hc : keyValid (extractKey c.request) ∧ c.term = 0) :
    Steady cfg (confirmed ++ [c]) deadline (collect (onMessage ctx (commitMessage c)) s).toRaftConsensus ∧
      (collect (onMessage ctx (commitMessage c)) s).outbox = s.outbox := by
  obtain ⟨request, submitted, committed, term⟩ := c
  obtain ⟨hvalid, rfl⟩ := hc
  exact h.commit hfollows hvalid committed submitted

/-- **A round of a follower** in which the leader announces its last confirmation, if any, and a request: whichever
comes first, the follower commits the one and answers the other. -/
theorem Steady.attend (hfollows : ctx.self ≠ 0) (hleader : 0 ∈ ctx.neighbors) (hspacing : 0 < cfg.timeoutSpacing)
    {last : Option Confirmation} (hlast : Announceable last.toList) (hvalid : keyValid (extractKey K))
    {messages : List Message} (hmessages : messages.Perm (last.toList.map commitMessage ++ [.request K 0 0]))
    (h : Steady cfg confirmed deadline s.toRaftConsensus) (houtbox : s.outbox = []) :
    Steady cfg (confirmed ++ last.toList) (ctx.round + cfg.timeoutSpacing)
        (drainAndTick ctx messages s).toRaftConsensus ∧
      ∃ out, (drainAndTick ctx messages s).outbox =
          ⟨ctx.self, 0, .respondRequest K ctx.self 0 (K.roundSubmitted.getD ctx.round)⟩ :: out ∧
        ∀ pkt ∈ out, pkt.target = 0 ∧ ∃ request, pkt.message = .clientRequest request := by
  -- what the messages make of the peer, in either order
  obtain ⟨t, hdrain, hsteady, hanswered⟩ : ∃ t,
      messages.foldl (fun s msg => collect (onMessage ctx msg) s) s = t ∧
        Steady cfg (confirmed ++ last.toList) (ctx.round + cfg.timeoutSpacing) t.toRaftConsensus ∧
        t.outbox = [⟨ctx.self, 0, .respondRequest K ctx.self 0 (K.roundSubmitted.getD ctx.round)⟩] := by
    obtain ⟨hanswer, hout⟩ := h.answer hleader hvalid
    rw [houtbox, List.nil_append] at hout
    cases last with
    | none =>
      obtain rfl := List.perm_singleton.mp hmessages
      refine ⟨_, rfl, ?_, hout⟩
      rw [Option.toList_none, List.append_nil]
      exact hanswer
    | some c =>
      have hc := hlast c (List.mem_singleton.mpr rfl)
      rcases List.perm_pair.mp hmessages with rfl | rfl
      · obtain ⟨hcommit, hsilent⟩ := h.announced hfollows hc
        obtain ⟨hanswer', hout'⟩ := hcommit.answer hleader hvalid
        refine ⟨_, rfl, hanswer', ?_⟩
        rw [hsilent, houtbox] at hout'
        exact hout'
      · obtain ⟨hcommit, hsilent⟩ := hanswer.announced hfollows hc
        exact ⟨_, rfl, hcommit, hsilent.trans hout⟩
  obtain ⟨hticked, out, hout, hclient⟩ := hsteady.tick hfollows (Int.lt_add_of_pos_right _ hspacing)
  unfold drainAndTick
  rw [hdrain]
  refine ⟨hticked, out, ?_, hclient⟩
  rw [hout, hanswered]
  rfl

/-! ## The leader with a request in flight -/

theorem Awaits.client (hself : ctx.self = 0) (h : Awaits cfg K heard confirmed started s.toRaftConsensus)
    (request : Request) :
    Awaits cfg K heard confirmed started (collect (onMessage ctx (.clientRequest request)) s).toRaftConsensus ∧
      (collect (onMessage ctx (.clientRequest request)) s).outbox = s.outbox := by
  have hleads : s.leaderId = ctx.self := h.steady.leaderId.trans hself.symm
  have hqueues := Queues.queued ctx request { s with outbox := [] }
  have hsorted := sorted_queued (s := { s with outbox := [] }) hleads h.sorted request
  have hawaits := Awaits.queues (s := { s with outbox := [] }) h hqueues hsorted
  have hsilent := hqueues.outbox hleads
  rw [collect_toRaftConsensus, collect_outbox, onMessage, onClientRequest_busy]
  · refine ⟨hawaits, ?_⟩
    rw [hsilent, List.append_nil]
  · exact .inr h.hasInFlight

theorem Awaits.tick (hself : ctx.self = 0) (h : Awaits cfg K heard confirmed started s.toRaftConsensus)
    (htimer : ctx.round < started + cfg.timeoutSpacing) :
    Awaits cfg K heard confirmed started (collect (tick ctx) s).toRaftConsensus ∧
      (collect (Raft.tick ctx) s).outbox = s.outbox := by
  have hleads : s.leaderId = ctx.self := h.steady.leaderId.trans hself.symm
  have htimer : ctx.round < s.timeOutRound := htimer.trans_le h.steady.timer
  have hqueues : Queues ctx { s with outbox := [] } (Raft.tick ctx { s with outbox := [] }) :=
    .tick (.inr h.hasInFlight) htimer
  have hsorted := sorted_tick (s := { s with outbox := [] }) hleads h.hasInFlight htimer h.sorted
  have hawaits := Awaits.queues (s := { s with outbox := [] }) h hqueues hsorted
  have hsilent := hqueues.outbox hleads
  refine ⟨hawaits, ?_⟩
  rw [collect_outbox, hsilent, List.append_nil]

theorem Awaits.stale (h : Awaits cfg K heard confirmed started s.toRaftConsensus) {request : Request}
    (hother : extractKey request ≠ extractKey K) (sender : InterfaceId) (termNum submitted : Int) :
    collect (onMessage ctx (.respondRequest request sender termNum submitted)) s = s := by
  have hdropped : ¬ s.hasInFlight ∨ extractKey request ≠ s.inFlightKey := .inr (h.inFlightKey ▸ hother)
  unfold collect onMessage handleRespond
  dsimp only
  split_ifs
  all_goals exact congrArg (fun out => { s with outbox := out }) (List.append_nil s.outbox)

/-! ## The leader starts a request -/

/-- The leader has put `K` into flight in this round, and has sent `sent` before. -/
structure Launched (cfg : Config) (ctx : Ctx) (K : Request) (confirmed : List Confirmation)
    (sent : List (Packet Message)) (s : Local) : Prop where
  awaits : Awaits cfg K [] confirmed ctx.round s.toRaftConsensus
  outbox : s.outbox = sent ++ toMembers ctx (.request K 0 0)

theorem Ready.start (hself : ctx.self = 0) (hsteady : Steady cfg confirmed deadline s.toRaftConsensus)
    (h : Ready cfg confirmed s.toRaftConsensus)
    (hfresh : s.pendingClientRequests = [] → FreshLive ctx s.toRaftConsensus) :
    ∃ K, Launched cfg ctx K confirmed s.outbox (startReplication ctx s) := by
  have hleads : s.leaderId = ctx.self := hsteady.leaderId.trans hself.symm
  obtain ⟨request, hlive, known, pending, next, draws, timeOut, hround, heq, hpending⟩ :=
    startReplication_starts hleads h.hasInFlight h.sorted hfresh
  refine ⟨{ request with roundSubmitted := some ctx.round }, ?_⟩
  rw [heq]
  rw [hsteady.spacing] at hround
  refine ⟨⟨⟨hsteady.leaderId, hsteady.term, hsteady.leaderChanges, hsteady.spacing, hround, hsteady.confirmedTrans,
    hsteady.latency⟩, ⟨h.distinct.committed, h.distinct.nodup⟩, ⟨rfl, hpending⟩, hlive, rfl, rfl, ?_, ?_⟩, ?_⟩
  · change Function.update s.replies (extractKey request) (some ((s.replies (extractKey request)).getD [])) = _
    rw [h.replies]
    rfl
  · exact Function.update_self ..
  · dsimp only
    rw [hself, hsteady.term]

/-! ## The leader confirms a request -/

theorem confirming_fields {request : Request} (hvalid : keyValid (extractKey request)) (submitted : Int) (s : Local) :
    confirming ctx request submitted s = { s with
      confirmedTrans := s.confirmedTrans ++ [⟨request, submitted, ctx.round, s.term⟩]
      latency := s.latency + (ctx.round - submitted)
      committedRequests := insert (extractKey request) s.committedRequests
      submittedRound := Function.update s.submittedRound (extractKey request) none
      replies := Function.update s.replies (extractKey request) none
      deferredClientRequests := s.deferredClientRequests.filter fun r => extractKey r ≠ extractKey request
      pendingClientRequests := s.pendingClientRequests.filter fun r => extractKey r ≠ extractKey request
      hasInFlight := false
      inFlightKey := (NO_PEER_ID, -1)
      inFlightRequest := {}
      outbox := s.outbox ++ toMembers ctx (.commit request ctx.self s.term ctx.round submitted) } := by
  unfold confirming applyCommit
  dsimp only
  rw [if_neg (not_not.mpr hvalid), if_pos rfl, multicast_eq]
  rfl

theorem Awaits.confirming (ctx : Ctx) (h : Awaits cfg K heard confirmed started s.toRaftConsensus) :
    Steady cfg (confirmed ++ [⟨K, started, ctx.round, 0⟩]) (started + cfg.timeoutSpacing)
        (confirming ctx K started s).toRaftConsensus ∧
      Ready cfg (confirmed ++ [⟨K, started, ctx.round, 0⟩]) (Raft.confirming ctx K started s).toRaftConsensus := by
  obtain ⟨hvalid, huncommitted⟩ := of_decide_eq_true h.live
  rw [confirming_fields hvalid]
  refine ⟨⟨h.steady.leaderId, h.steady.term, h.steady.leaderChanges, h.steady.spacing, h.steady.timer, ?_, ?_⟩,
    ⟨?_, ?_⟩, ⟨?_, ?_⟩, rfl, ?_⟩
  · change s.confirmedTrans ++ [⟨K, started, ctx.round, s.term⟩] = _
    rw [h.steady.confirmedTrans, h.steady.term]
  · change s.latency + (ctx.round - started) = _
    rw [h.steady.latency, List.map_append, List.sum_append]
    simp
  · intro c hc
    apply Finset.mem_insert.mpr
    rcases List.mem_append.mp hc with hc | hc
    · exact .inr (h.distinct.committed c hc)
    · obtain rfl := List.mem_singleton.mp hc
      exact .inl rfl
  · rw [List.map_append]
    apply h.distinct.nodup.append
    · exact List.nodup_singleton _
    · intro key hkey hlast
      obtain ⟨c, hc, rfl⟩ := List.mem_map.mp hkey
      have heq : extractKey c.request = extractKey K := List.mem_singleton.mp hlast
      apply huncommitted
      rw [← heq]
      exact h.distinct.committed c hc
  · change s.deferredClientRequests.filter _ = []
    rw [h.sorted.deferred]
    rfl
  · intro r hr
    obtain ⟨hr, hkey⟩ := List.mem_filter.mp hr
    obtain ⟨hvalid', huncommitted'⟩ := of_decide_eq_true (h.sorted.pending r hr)
    apply decide_eq_true
    refine ⟨hvalid', fun hmem => ?_⟩
    rcases Finset.mem_insert.mp hmem with heq | hmem
    · exact of_decide_eq_true hkey heq
    · exact huncommitted' hmem
  · change Function.update s.replies (extractKey K) none = _
    rw [h.replies, Function.update_idem]
    exact Function.update_eq_self (extractKey K) fun _ => none

/-- The leader's state once `sender` has answered as well. -/
def recorded (K : Request) (heard : List InterfaceId) (sender : InterfaceId) (s : Local) : Local :=
  { s with replies := Function.update s.replies (extractKey K) (some (heard ++ [sender])) }

theorem Awaits.recorded (h : Awaits cfg K heard confirmed started s.toRaftConsensus) (sender : InterfaceId) :
    Awaits cfg K (heard ++ [sender]) confirmed started (recorded K heard sender s).toRaftConsensus := by
  refine ⟨⟨h.steady.leaderId, h.steady.term, h.steady.leaderChanges, h.steady.spacing, h.steady.timer,
    h.steady.confirmedTrans, h.steady.latency⟩, ⟨h.distinct.committed, h.distinct.nodup⟩,
    ⟨h.sorted.deferred, h.sorted.pending⟩, h.live, h.hasInFlight, h.inFlightKey, ?_, h.submittedRound⟩
  change Function.update s.replies (extractKey K) (some (heard ++ [sender])) = _
  rw [h.replies, Function.update_idem]

theorem Awaits.handleRespond (hself : ctx.self = 0) (h : Awaits cfg K heard confirmed started s.toRaftConsensus)
    {sender : InterfaceId} (hsender : sender ≠ NO_PEER_ID) :
    handleRespond ctx K sender s =
      if sender ∈ heard then s
      else if hasQuorum ctx (heard ++ [sender]).length then
        startReplication ctx (Raft.confirming ctx K started (Raft.recorded K heard sender s))
      else Raft.recorded K heard sender s := by
  have hleads : ¬ s.leaderId ≠ ctx.self := not_not.mpr (h.steady.leaderId.trans hself.symm)
  have hflight : ¬ (¬ s.hasInFlight = true ∨ extractKey K ≠ s.inFlightKey) := by
    rw [h.inFlightKey, h.hasInFlight]
    simp
  have hheard : (s.replies (extractKey K)).getD [] = heard := by
    rw [h.replies, Function.update_self]
    rfl
  have hstarted : (s.submittedRound (extractKey K)).getD (K.roundSubmitted.getD ctx.round) = started := by
    rw [h.submittedRound]
    rfl
  unfold Raft.handleRespond
  dsimp only
  rw [if_neg hleads, if_neg hflight, if_neg hsender, hheard, hstarted, confirmRequest_eq]
  rfl

/-- **An answer** is heard, or it completes the quorum. -/
theorem Awaits.respond (hself : ctx.self = 0) (h : Awaits cfg K heard confirmed started s.toRaftConsensus)
    (hfew : hasQuorum ctx heard.length = false) {sender : InterfaceId} (hsender : sender ≠ NO_PEER_ID)
    (hfresh : FreshLive ctx
      (Raft.confirming ctx K started (Raft.recorded K heard sender { s with outbox := [] })).toRaftConsensus)
    (termNum submitted : Int) :
    (∃ heard', Awaits cfg K heard' confirmed started
        (collect (onMessage ctx (.respondRequest K sender termNum submitted)) s).toRaftConsensus ∧
      hasQuorum ctx heard'.length = false ∧ sender ∈ heard' ∧ heard ⊆ heard' ∧
      (collect (onMessage ctx (.respondRequest K sender termNum submitted)) s).outbox = s.outbox) ∨
    ∃ K', Launched cfg ctx K' (confirmed ++ [⟨K, started, ctx.round, 0⟩])
      (s.outbox ++ toMembers ctx (.commit K 0 0 ctx.round started))
      (collect (onMessage ctx (.respondRequest K sender termNum submitted)) s) := by
  have hhandled := Awaits.handleRespond (s := { s with outbox := [] }) hself h hsender
  have hrecorded := Awaits.recorded (s := { s with outbox := [] }) h sender
  by_cases hmem : sender ∈ heard
  · left
    rw [if_pos hmem] at hhandled
    rw [collect_toRaftConsensus, collect_outbox, onMessage, hhandled]
    exact ⟨heard, h, hfew, hmem, List.Subset.refl heard, List.append_nil _⟩
  rw [if_neg hmem] at hhandled
  by_cases hquorum : hasQuorum ctx (heard ++ [sender]).length = true
  · right
    rw [if_pos hquorum] at hhandled
    obtain ⟨hsteady, hready⟩ := hrecorded.confirming ctx
    obtain ⟨K', hlaunched⟩ := hready.start hself hsteady fun _ => hfresh
    refine ⟨K', ⟨?_, ?_⟩⟩
    · rw [collect_toRaftConsensus, onMessage, hhandled]
      exact hlaunched.awaits
    · rw [collect_outbox, onMessage, hhandled, hlaunched.outbox, confirming_fields (of_decide_eq_true h.live).1]
      change s.outbox ++ ([] ++ toMembers ctx (.commit K ctx.self s.term ctx.round started) ++ _) = _
      rw [hself, h.steady.term, List.nil_append, List.append_assoc]
  · left
    rw [if_neg hquorum] at hhandled
    rw [collect_toRaftConsensus, collect_outbox, onMessage, hhandled]
    exact ⟨heard ++ [sender], hrecorded, Bool.eq_false_of_not_eq_true hquorum,
      List.mem_append_right _ (List.mem_singleton.mpr rfl), List.subset_append_left heard [sender],
      List.append_nil _⟩

/-! ## The leader before its first request -/

theorem Ready.queues (h : Ready cfg confirmed s.toRaftConsensus) (hqueues : Queues ctx s s')
    (hsorted : Sorted s'.toRaftConsensus) : Ready cfg confirmed s'.toRaftConsensus := by
  obtain ⟨known, pending, deferred, next, draws, out, rfl, -⟩ := hqueues
  exact ⟨⟨h.distinct.committed, h.distinct.nodup⟩, hsorted, h.hasInFlight, h.replies⟩

theorem Ready.accept (hself : ctx.self = 0) (hsteady : Steady cfg confirmed deadline s.toRaftConsensus)
    (h : Ready cfg confirmed s.toRaftConsensus) (hunused : Unused ctx s.toRaftConsensus) (request : Request) :
    ∃ K, Launched cfg ctx K confirmed s.outbox (onClientRequest ctx request s) := by
  have hleads : s.leaderId = ctx.self := hsteady.leaderId.trans hself.symm
  have hqueues := Queues.queued ctx request s
  have hleads' : (queued ctx request s).leaderId = ctx.self := hqueues.leaderId.trans hleads
  have hvalid : ctx.self ≠ NO_PEER_ID := by
    rw [hself]
    decide
  have hready : Ready cfg confirmed (queued ctx request s).toRaftConsensus :=
    h.queues hqueues (sorted_queued hleads h.sorted request)
  rw [onClientRequest, acceptClientRequest_eq, if_pos hleads', ← hqueues.outbox hleads]
  apply hready.start hself (hsteady.queues hqueues)
  intro hempty
  exact (queued_unused hunused hleads' hempty).freshLive hvalid

structure Idle (cfg : Config) (s : RaftConsensus) : Prop where
  steady : Steady cfg [] 100 s
  ready : Ready cfg [] s
  pending : s.pendingClientRequests = []

theorem Idle.client (hself : ctx.self = 0) (h : Idle cfg s.toRaftConsensus) (hunused : Unused ctx s.toRaftConsensus)
    (request : Request) :
    ∃ K, Launched cfg ctx K [] s.outbox (collect (onMessage ctx (.clientRequest request)) s) := by
  obtain ⟨K, hlaunched⟩ := Ready.accept (s := { s with outbox := [] }) hself h.steady h.ready hunused request
  refine ⟨K, hlaunched.awaits, ?_⟩
  rw [collect_outbox, onMessage, hlaunched.outbox]
  rfl

theorem Launched.forward (hself : ctx.self = 0) {sent : List (Packet Message)}
    (h : Launched cfg ctx K confirmed sent s) :
    Launched cfg ctx K confirmed sent (tryForwardDeferredRequests ctx s) := by
  have hleads : s.leaderId = ctx.self := h.awaits.steady.leaderId.trans hself.symm
  have hqueues := Queues.tryForwardDeferredRequests ctx s
  refine ⟨h.awaits.queues hqueues ?_, ?_⟩
  · exact sorted_tryForwardDeferredRequests hleads h.awaits.sorted.pending
  · rw [hqueues.outbox hleads]
    exact h.outbox

theorem Idle.forward (hself : ctx.self = 0) (h : Idle cfg s.toRaftConsensus) :
    Idle cfg (tryForwardDeferredRequests ctx s).toRaftConsensus ∧
      (tryForwardDeferredRequests ctx s).outbox = s.outbox := by
  have hleads : s.leaderId = ctx.self := h.steady.leaderId.trans hself.symm
  have hqueues := Queues.tryForwardDeferredRequests ctx s
  refine ⟨⟨h.steady.queues hqueues, h.ready.queues hqueues ?_, ?_⟩, hqueues.outbox hleads⟩
  · exact sorted_tryForwardDeferredRequests hleads h.ready.sorted.pending
  · rw [tryForwardDeferredRequests_leader hleads]
    dsimp only
    rw [h.pending, h.ready.sorted.deferred]
    rfl

theorem Idle.generate (hself : ctx.self = 0) (h : Idle cfg s.toRaftConsensus) (hunused : Unused ctx s.toRaftConsensus) :
    (∃ draws, maybeGenerateClientRequest ctx s = { s with draws := draws }) ∨
      ∃ K, Launched cfg ctx K [] s.outbox (maybeGenerateClientRequest ctx s) := by
  unfold maybeGenerateClientRequest randMod
  dsimp only
  split_ifs
  · exact .inl ⟨s.draws, rfl⟩
  · exact .inl ⟨_, rfl⟩
  · right
    have hqueues : Queues ctx s { s with nextClientRequestId := s.nextClientRequestId + 1, draws := s.draws.tail } :=
      .of_fields s.knownRequests s.pendingClientRequests s.deferredClientRequests _ _
    have hsteady := h.steady.queues hqueues
    have hready := h.ready.queues hqueues ⟨h.ready.sorted.deferred, h.ready.sorted.pending⟩
    apply Ready.accept hself hsteady hready
    have hnext := hunused.next
    refine ⟨?_, fun k hk => hunused.known k ?_, fun k hk => hunused.committed k ?_⟩ <;> dsimp only at * <;> omega

theorem Idle.tick (hself : ctx.self = 0) (hspacing : 0 < cfg.timeoutSpacing) (h : Idle cfg s.toRaftConsensus)
    (hunused : Unused ctx s.toRaftConsensus) (hround : ctx.round < 100) :
    (Idle cfg (collect (Raft.tick ctx) s).toRaftConsensus ∧ (collect (Raft.tick ctx) s).outbox = s.outbox) ∨
      ∃ K, Launched cfg ctx K [] s.outbox (collect (Raft.tick ctx) s) := by
  rw [collect_toRaftConsensus, collect_outbox]
  rcases Idle.generate (s := { s with outbox := [] }) hself h hunused with ⟨draws, heq⟩ | ⟨K, hlaunched⟩
  · left
    have htimer : ctx.round < (maybeGenerateClientRequest ctx { s with outbox := [] }).timeOutRound := by
      rw [heq]
      exact hround.trans_le h.steady.timer
    obtain ⟨hidle, houtbox⟩ := Idle.forward (s := { s with outbox := [], draws := draws }) hself h
    rw [tick_quiet htimer, heq, houtbox]
    exact ⟨hidle, List.append_nil _⟩
  · right
    have htimer : ctx.round < (maybeGenerateClientRequest ctx { s with outbox := [] }).timeOutRound := by
      have hreset := hlaunched.awaits.steady.timer
      omega
    obtain ⟨hawaits, houtbox⟩ := hlaunched.forward hself
    refine ⟨K, ?_, ?_⟩
    · rw [collect_toRaftConsensus, tick_quiet htimer]
      exact hawaits
    · rw [collect_outbox, tick_quiet htimer, houtbox]
      rfl

/-! ## A leader that has started -/

section Launched
variable {sent : List (Packet Message)}

theorem Launched.client (hself : ctx.self = 0) (h : Launched cfg ctx K confirmed sent s) (request : Request) :
    Launched cfg ctx K confirmed sent (collect (onMessage ctx (.clientRequest request)) s) := by
  obtain ⟨hawaits, houtbox⟩ := h.awaits.client hself request
  exact ⟨hawaits, houtbox.trans h.outbox⟩

theorem Launched.stale (h : Launched cfg ctx K confirmed sent s) {c : Confirmation} (hc : c ∈ confirmed)
    (sender : InterfaceId) (termNum submitted : Int) :
    collect (onMessage ctx (.respondRequest c.request sender termNum submitted)) s = s := by
  apply h.awaits.stale
  intro heq
  apply (of_decide_eq_true h.awaits.live).2
  rw [← heq]
  exact h.awaits.distinct.committed c hc

theorem Launched.tick (hself : ctx.self = 0) (hspacing : 0 < cfg.timeoutSpacing)
    (h : Launched cfg ctx K confirmed sent s) :
    Launched cfg ctx K confirmed sent (collect (Raft.tick ctx) s) := by
  obtain ⟨hawaits, houtbox⟩ := h.awaits.tick hself (Int.lt_add_of_pos_right _ hspacing)
  exact ⟨hawaits, houtbox.trans h.outbox⟩

end Launched

/-! ## A round of the leader -/

section Leader
variable {sys : System} {received : List (Packet Message)} (hmember : 0 ∈ cfg.committee.members)
  (hreceived : ∀ pkt ∈ received, pkt ∈ sys.sent ∧ pkt.target = 0)
include hmember hreceived

theorem Idle.round (hspacing : 0 < cfg.timeoutSpacing)
    (hclient : ∀ pkt ∈ received, ∃ request, pkt.message = .clientRequest request)
    (hround : sys.round < 100) (hreached : (machine cfg).Reached (sys.after 0 s)) (h : Idle cfg s.toRaftConsensus)
    (houtbox : s.outbox = []) :
    (Idle cfg (drainAndTick (sys.ctx cfg 0) (received.map (·.message)) s).toRaftConsensus ∧
        (drainAndTick (sys.ctx cfg 0) (received.map (·.message)) s).outbox = []) ∨
      ∃ K, Launched cfg (sys.ctx cfg 0) K [] [] (drainAndTick (sys.ctx cfg 0) (received.map (·.message)) s) := by
  have hdrained : (machine cfg).Reached (sys.after 0 (drain (sys.ctx cfg 0) received s)) :=
    System.drain_reached hmember hreceived hreached
  have hdrain : (Idle cfg (drain (sys.ctx cfg 0) received s).toRaftConsensus ∧
        (drain (sys.ctx cfg 0) received s).outbox = []) ∨
      ∃ K, Launched cfg (sys.ctx cfg 0) K [] [] (drain (sys.ctx cfg 0) received s) := by
    refine System.drain_invariant (Q := fun t => (Idle cfg t.toRaftConsensus ∧ t.outbox = []) ∨
      ∃ K, Launched cfg (sys.ctx cfg 0) K [] [] t) hmember hreceived ?_ hreached (.inl ⟨h, houtbox⟩)
    intro t pkt hpkt ht hstate
    obtain ⟨request, hmessage⟩ := hclient pkt hpkt
    right
    rw [hmessage]
    rcases hstate with ⟨hidle, hnone⟩ | ⟨K, hlaunched⟩
    · rw [← hnone]
      exact hidle.client rfl (System.unused_of_reached ht) request
    · exact ⟨K, hlaunched.client rfl request⟩
  rcases hdrain with ⟨hidle, hnone⟩ | ⟨K, hlaunched⟩
  · rw [← hnone]
    exact hidle.tick rfl hspacing (System.unused_of_reached hdrained) (Int.ofNat_lt.mpr hround)
  · exact .inr ⟨K, hlaunched.tick rfl hspacing⟩

theorem Awaits.listen (hclient : ∀ pkt ∈ received, ∃ request, pkt.message = .clientRequest request)
    (hround : sys.round < started + cfg.timeoutSpacing) (hreached : (machine cfg).Reached (sys.after 0 s))
    (h : Awaits cfg K heard confirmed started s.toRaftConsensus) :
    Awaits cfg K heard confirmed started
        (drainAndTick (sys.ctx cfg 0) (received.map (·.message)) s).toRaftConsensus ∧
      (drainAndTick (sys.ctx cfg 0) (received.map (·.message)) s).outbox = s.outbox := by
  have hself : (sys.ctx cfg 0).self = 0 := rfl
  obtain ⟨hawaits, houtbox⟩ : Awaits cfg K heard confirmed started (drain (sys.ctx cfg 0) received s).toRaftConsensus ∧
      (drain (sys.ctx cfg 0) received s).outbox = s.outbox := by
    refine System.drain_invariant (Q := fun t => Awaits cfg K heard confirmed started t.toRaftConsensus ∧
      t.outbox = s.outbox) hmember hreceived ?_ hreached ⟨h, rfl⟩
    intro t pkt hpkt ht hstate
    obtain ⟨request, hmessage⟩ := hclient pkt hpkt
    obtain ⟨hawaits, houtbox⟩ := hstate.1.client hself request
    rw [hmessage]
    exact ⟨hawaits, houtbox.trans hstate.2⟩
  obtain ⟨hawaits', houtbox'⟩ := hawaits.tick hself hround
  exact ⟨hawaits', houtbox'.trans houtbox⟩

end Leader

/-- What comes to a leader that waits for answers to `K`. -/
def Answers (cfg : Config) (K : Request) (received : List (Packet Message)) : Prop :=
  ∀ pkt ∈ received, (∃ request, pkt.message = .clientRequest request) ∨
    ∃ q ∈ cfg.committee.members, ∃ termNum submitted, pkt.message = .respondRequest K q termNum submitted

section Answers
variable {sys : System} {received : List (Packet Message)}

theorem Launched.drain {K₀ : Request} {sent : List (Packet Message)} (hanswers : Answers cfg K₀ received)
    (hK₀ : ∃ c ∈ confirmed, c.request = K₀) (h : Launched cfg (sys.ctx cfg 0) K confirmed sent s) :
    Launched cfg (sys.ctx cfg 0) K confirmed sent (drain (sys.ctx cfg 0) received s) := by
  induction received generalizing s with
  | nil => exact h
  | cons pkt received ih =>
    rw [drain_cons]
    apply ih fun pkt' hpkt' => hanswers pkt' (List.mem_cons_of_mem pkt hpkt')
    rcases hanswers pkt List.mem_cons_self with ⟨request, hmessage⟩ | ⟨q, -, termNum, submitted, hmessage⟩
    · rw [hmessage]
      exact h.client rfl request
    · obtain ⟨c, hc, rfl⟩ := hK₀
      rw [hmessage, h.stale hc]
      exact h

theorem confirming_freshLive {pkt : Packet Message} (hpkt : pkt ∈ sys.sent)
    (hcarried : pkt.message.carried = some K) (hreached : (machine cfg).Reached (sys.after 0 s))
    (heard : List InterfaceId) (sender : InterfaceId) (started : Int) :
    FreshLive (sys.ctx cfg 0)
      (confirming (sys.ctx cfg 0) K started (recorded K heard sender { s with outbox := [] })).toRaftConsensus := by
  have hnumbered := System.numbered_of_reached hreached
  have hsent : pkt ∈ (sys.after 0 s).sent := List.mem_append_left _ hpkt
  have hcounted : (sys.after 0 s).Counted (extractKey K) :=
    (System.keysCounted_of_reached hreached).sent pkt hsent K hcarried
  have hrecorded : Numbered (sys.ctx cfg 0) (sys.after 0 s).Counted
      (recorded K heard sender { s with outbox := [] }) :=
    ⟨{ hnumbered.keys with replies := update_in hnumbered.keys.replies fun _ => .inl hcounted }, hnumbered.sent⟩
  have hconfirming := confirming_numbered hrecorded (.inl hcounted) started
  have hnext := System.next_nonneg hreached
  have hself : (sys.ctx cfg 0).self ≠ NO_PEER_ID := by
    rw [System.ctx_self]
    decide
  apply Unused.freshLive hself
  apply hconfirming.unused
  · intro k hk
    have hlt : k < s.nextClientRequestId := System.counted_own hk
    rw [confirming_next]
    exact hlt
  · rw [confirming_next]
    exact hnext

variable (hmember : 0 ∈ cfg.committee.members) (hreceived : ∀ pkt ∈ received, pkt ∈ sys.sent ∧ pkt.target = 0)
include hmember hreceived

theorem Awaits.drain (hanswers : Answers cfg K received) (hreached : (machine cfg).Reached (sys.after 0 s))
    (h : Awaits cfg K heard confirmed started s.toRaftConsensus)
    (hfew : hasQuorum (sys.ctx cfg 0) heard.length = false) :
    (∃ heard', Awaits cfg K heard' confirmed started (drain (sys.ctx cfg 0) received s).toRaftConsensus ∧
      hasQuorum (sys.ctx cfg 0) heard'.length = false ∧ heard ⊆ heard' ∧
      ∀ pkt ∈ received, ∀ q termNum submitted, pkt.message = .respondRequest K q termNum submitted → q ∈ heard') ∨
    ∃ K', Launched cfg (sys.ctx cfg 0) K' (confirmed ++ [⟨K, started, sys.round, 0⟩])
      (s.outbox ++ toMembers (sys.ctx cfg 0) (.commit K 0 0 sys.round started)) (drain (sys.ctx cfg 0) received s) := by
  induction received generalizing heard s with
  | nil => exact .inl ⟨heard, h, hfew, List.Subset.refl heard, fun _ hpkt => absurd hpkt List.not_mem_nil⟩
  | cons pkt received ih =>
    have hreceived' : ∀ pkt' ∈ received, pkt' ∈ sys.sent ∧ pkt'.target = 0 :=
      fun pkt' hpkt' => hreceived pkt' (List.mem_cons_of_mem pkt hpkt')
    have hanswers' : Answers cfg K received := fun pkt' hpkt' => hanswers pkt' (List.mem_cons_of_mem pkt hpkt')
    have hreached' := System.collect_reached hmember (hreceived pkt List.mem_cons_self) hreached
    rw [drain_cons]
    rcases hanswers pkt List.mem_cons_self with ⟨request, hmessage⟩ | ⟨q, hq, termNum, submitted, hmessage⟩
    · -- a client request waits
      rw [hmessage] at hreached' ⊢
      have hself : (sys.ctx cfg 0).self = 0 := rfl
      obtain ⟨hawaits, houtbox⟩ := h.client hself request
      rcases ih hreceived' hanswers' hreached' hawaits hfew with ⟨heard', hrest, hfew', hsub, hall⟩ | hlaunched
      · refine .inl ⟨heard', hrest, hfew', hsub, fun pkt' hpkt' q t r heq => ?_⟩
        rcases List.mem_cons.mp hpkt' with rfl | hpkt'
        · cases hmessage.symm.trans heq
        · exact hall pkt' hpkt' q t r heq
      · rw [houtbox] at hlaunched
        exact .inr hlaunched
    · -- an answer
      have hcarried : pkt.message.carried = some K := by
        rw [hmessage]
        rfl
      have hfresh := confirming_freshLive (hreceived pkt List.mem_cons_self).1 hcarried hreached heard q started
      rw [hmessage] at hreached' ⊢
      rcases h.respond rfl hfew (cfg.committee.ne_noPeer hq) hfresh termNum submitted with
        ⟨heard₁, hawaits, hfew₁, hheard, hsub₁, houtbox⟩ | ⟨K', hlaunched⟩
      · rcases ih hreceived' hanswers' hreached' hawaits hfew₁ with ⟨heard', hrest, hfew', hsub, hall⟩ | hlaunched
        · refine .inl ⟨heard', hrest, hfew', List.Subset.trans hsub₁ hsub, fun pkt' hpkt' q' t r heq => ?_⟩
          rcases List.mem_cons.mp hpkt' with rfl | hpkt'
          · cases hmessage.symm.trans heq
            exact hsub hheard
          · exact hall pkt' hpkt' q' t r heq
        · rw [houtbox] at hlaunched
          exact .inr hlaunched
      · have hlast : ∃ c ∈ confirmed ++ [(⟨K, started, sys.round, 0⟩ : Confirmation)], c.request = K :=
          ⟨_, List.mem_append_right _ (List.mem_singleton.mpr rfl), rfl⟩
        exact .inr ⟨K', hlaunched.drain hanswers' hlast⟩

/-- **The answers of all** complete the quorum: the leader confirms its request and starts the next. -/
theorem Awaits.collect (hsize : 3 ≤ cfg.committee.size) (hspacing : 0 < cfg.timeoutSpacing)
    (hanswers : Answers cfg K received)
    (hall : ∀ q ∈ cfg.committee.members, q ≠ 0 → ∃ pkt ∈ received, ∃ termNum submitted,
      pkt.message = .respondRequest K q termNum submitted)
    (hreached : (machine cfg).Reached (sys.after 0 s)) (h : Awaits cfg K [] confirmed started s.toRaftConsensus) :
    ∃ K', Launched cfg (sys.ctx cfg 0) K' (confirmed ++ [⟨K, started, sys.round, 0⟩])
      (s.outbox ++ toMembers (sys.ctx cfg 0) (.commit K 0 0 sys.round started))
      (drainAndTick (sys.ctx cfg 0) (received.map (·.message)) s) := by
  have hnone : hasQuorum (sys.ctx cfg 0) ([] : List InterfaceId).length = false :=
    decide_eq_false (Nat.not_lt_zero _)
  rcases h.drain hmember hreceived hanswers hreached hnone with ⟨heard, -, hfew, -, hheard⟩ | ⟨K', hlaunched⟩
  · have hothers : cfg.committee.members.erase 0 ⊆ heard := by
      intro q hq
      obtain ⟨hne, hq⟩ := cfg.committee.nodup.mem_erase_iff.mp hq
      obtain ⟨pkt, hpkt, termNum, submitted, hmessage⟩ := hall q hq hne
      exact hheard pkt hpkt q termNum submitted hmessage
    have hlength := (List.subperm_of_subset (cfg.committee.nodup.erase 0) hothers).length_le
    rw [List.length_erase_of_mem hmember] at hlength
    have hquorum := of_decide_eq_false hfew
    unfold quorumThreshold at hquorum
    change ¬ cfg.committee.size / 2 < heard.length at hquorum
    change cfg.committee.size - 1 ≤ heard.length at hlength
    omega
  · exact ⟨K', hlaunched.tick rfl hspacing⟩

end Answers

end Quantas.Raft
