import Quantas.Raft.Numbering
import Quantas.Raft.Replication

/-!
# Raft: how deep request generation nests

`tryStartReplication` and `onClientRequest` call each other without a bound of their own. `StartReturns` and
`RequestReturns` are the two functions as the source has them, as a relation with no fuel: the call returns
in this state, with so many calls of `tryStartReplication` on the stack at most. A nested call ends the
recursion when the generated request becomes pending, and it does because its key is `Unused`.
-/

namespace Quantas.Raft

variable {ctx : Ctx} {s s' : Local}

/-! ## The calls as the source has them -/

mutual

/-- `tryStartReplication` returns from `s` in `s'`, nested `n` times. -/
inductive StartReturns (ctx : Ctx) : Nat → Local → Local → Prop
  | idle {s : Local} (hidle : s.leaderId ≠ ctx.self ∨ s.hasInFlight = true) : StartReturns ctx 1 s s
  | pending {s : Local} (hbusy : ¬ (s.leaderId ≠ ctx.self ∨ s.hasInFlight = true))
      (hpending : s.pendingClientRequests ≠ []) :
      StartReturns ctx 1 s (replicateFirst ctx s.pendingClientRequests s)
  | generate {n : Nat} {s s' : Local} (hbusy : ¬ (s.leaderId ≠ ctx.self ∨ s.hasInFlight = true))
      (hempty : s.pendingClientRequests = [])
      (hrequest : RequestReturns ctx n (freshRequest ctx s)
        { s with nextClientRequestId := s.nextClientRequestId + 1 } s') :
      StartReturns ctx (n + 1) s (replicateFirst ctx s'.pendingClientRequests s')

/-- `onClientRequest` returns from `s` in `s'`, with `tryStartReplication` nested `n` times in it. -/
inductive RequestReturns (ctx : Ctx) : Nat → Request → Local → Local → Prop
  | follower {request : Request} {s : Local} (hfollows : (queued ctx request s).leaderId ≠ ctx.self) :
      RequestReturns ctx 0 request s (queued ctx request s)
  | leader {n : Nat} {request : Request} {s s' : Local} (hleads : (queued ctx request s).leaderId = ctx.self)
      (hstart : StartReturns ctx n (queued ctx request s) s') : RequestReturns ctx n request s s'

end

theorem RequestReturns.unique_of {n m : Nat} {request : Request} {s s' s'' : Local}
    (hstart : ∀ {m t t' t''}, StartReturns ctx n t t' → StartReturns ctx m t t'' → n = m ∧ t' = t'')
    (h : RequestReturns ctx n request s s') (h' : RequestReturns ctx m request s s'') :
    n = m ∧ s' = s'' := by
  cases h with
  | follower hfollows =>
    cases h' with
    | follower => exact ⟨rfl, rfl⟩
    | leader hleads => exact absurd hleads hfollows
  | leader hleads hreturns =>
    cases h' with
    | follower hfollows => exact absurd hleads hfollows
    | leader _ hreturns' => exact hstart hreturns hreturns'

theorem StartReturns.unique {n m : Nat} {s s' s'' : Local} (h : StartReturns ctx n s s')
    (h' : StartReturns ctx m s s'') : n = m ∧ s' = s'' := by
  induction n generalizing m s s' s'' with
  | zero => cases h
  | succ n ih =>
    cases h with
    | idle hidle =>
      cases h' with
      | idle => exact ⟨rfl, rfl⟩
      | pending hbusy => exact absurd hidle hbusy
      | generate hbusy => exact absurd hidle hbusy
    | pending hbusy hpending =>
      cases h' with
      | idle hidle => exact absurd hidle hbusy
      | pending => exact ⟨rfl, rfl⟩
      | generate _ hempty => exact absurd hempty hpending
    | generate hbusy hempty hrequest =>
      cases h' with
      | idle hidle => exact absurd hidle hbusy
      | pending _ hpending => exact absurd hempty hpending
      | generate _ _ hrequest' =>
        obtain ⟨rfl, rfl⟩ := hrequest.unique_of ih hrequest'
        exact ⟨rfl, rfl⟩

/-! ## Unused numbers -/

/-- The peer has not yet met a key of its own that it has still to number. -/
structure Unused (ctx : Ctx) (s : RaftConsensus) : Prop where
  next : 0 ≤ s.nextClientRequestId
  known : ∀ k, s.nextClientRequestId ≤ k → (ctx.self, k) ∉ s.knownRequests
  committed : ∀ k, s.nextClientRequestId ≤ k → (ctx.self, k) ∉ s.committedRequests

theorem Unused.freshLive (hself : ctx.self ≠ NO_PEER_ID) {s : RaftConsensus} (h : Unused ctx s) :
    FreshLive ctx s := by
  refine ⟨?_, h.known _ le_rfl, h.committed _ le_rfl⟩
  have hnext := h.next
  simp [keyValid, hself, hnext]

theorem startReplication_returns_of_pending (hpending : s.pendingClientRequests ≠ []) :
    StartReturns ctx 1 s (startReplication ctx s) := by
  unfold startReplication tryStartReplication
  by_cases hbusy : s.leaderId ≠ ctx.self ∨ s.hasInFlight = true
  · rw [if_pos hbusy]
    exact .idle hbusy
  · rw [if_neg hbusy, if_neg hpending]
    exact .pending hbusy hpending

theorem startReplication_returns (hself : ctx.self ≠ NO_PEER_ID) (h : Unused ctx s.toRaftConsensus) :
    ∃ n ≤ 2, StartReturns ctx n s (startReplication ctx s) := by
  by_cases hempty : s.pendingClientRequests = []
  swap
  · exact ⟨1, by omega, startReplication_returns_of_pending hempty⟩
  by_cases hbusy : s.leaderId ≠ ctx.self ∨ s.hasInFlight = true
  · rw [startReplication_eq hself h.next, if_pos hbusy]
    exact ⟨1, by omega, .idle hbusy⟩
  have hleads : s.leaderId = ctx.self := by
    by_contra hfollows
    exact hbusy (.inl hfollows)
  have hleads' : (generated ctx s).leaderId = ctx.self := (generated_leaderId s).trans hleads
  have hpending : (generated ctx s).pendingClientRequests ≠ [] := by
    have hlength := generated_length hleads hempty
    rw [if_pos (h.freshLive hself)] at hlength
    exact List.ne_nil_of_length_pos (by omega)
  have hnested : StartReturns ctx 1 (generated ctx s) (startReplication ctx (generated ctx s)) :=
    startReplication_returns_of_pending hpending
  have hresult : startReplication ctx s =
      replicateFirst ctx (startReplication ctx (generated ctx s)).pendingClientRequests
        (startReplication ctx (generated ctx s)) := by
    rw [startReplication_eq hself h.next, if_neg hbusy, if_pos hempty]
    dsimp only
    rw [onClientRequest, acceptClientRequest_fresh, if_pos hleads']
  rw [hresult]
  exact ⟨2, le_rfl, .generate hbusy hempty (.leader hleads' hnested)⟩

theorem completeRequest_keeps (ctx : Ctx) (request : Request) (s : Local) :
    s.nextClientRequestId ≤ (completeRequest ctx request s).2.nextClientRequestId ∧
      (completeRequest ctx request s).2.knownRequests = s.knownRequests ∧
      (completeRequest ctx request s).2.committedRequests = s.committedRequests := by
  unfold completeRequest
  cases request.clientSeq with
  | some _ => exact ⟨le_rfl, rfl, rfl⟩
  | none => exact ⟨Int.le_add_one le_rfl, rfl, rfl⟩

theorem queued_unused {request : Request} (h : Unused ctx s.toRaftConsensus)
    (hleads : (queued ctx request s).leaderId = ctx.self)
    (hempty : (queued ctx request s).pendingClientRequests = []) :
    Unused ctx (queued ctx request s).toRaftConsensus := by
  obtain ⟨hnext, hknown, hcommitted⟩ := completeRequest_keeps ctx request s
  have hleads' : (enqueueDeferred (completeRequest ctx request s).1
      (completeRequest ctx request s).2).leaderId = ctx.self :=
    (tryForwardDeferredRequests_replicates ctx _).leaderId.symm.trans hleads
  have hunused : Unused ctx (completeRequest ctx request s).2.toRaftConsensus := by
    refine ⟨h.next.trans hnext, fun k hk => ?_, fun k hk => ?_⟩
    · rw [hknown]
      exact h.known k (hnext.trans hk)
    · rw [hcommitted]
      exact h.committed k (hnext.trans hk)
  unfold queued at hempty ⊢
  dsimp only at hempty ⊢
  rw [tryForwardDeferredRequests_leader hleads'] at hempty ⊢
  generalize completeRequest ctx request s = c at hempty hunused ⊢
  unfold enqueueDeferred at hempty ⊢
  by_cases hnew : keyValid (extractKey c.1) ∧ extractKey c.1 ∉ c.2.knownRequests
  swap
  · rw [if_neg hnew]
    exact ⟨hunused.next, hunused.known, hunused.committed⟩
  rw [if_pos hnew] at hempty ⊢
  -- the request was not moved to the pending ones, so it was committed
  have hdone : extractKey c.1 ∈ c.2.committedRequests := by
    by_contra hopen
    simp [List.filter_append, live, hnew.1, hopen] at hempty
  refine ⟨hunused.next, fun k hk hmem => ?_, hunused.committed⟩
  rcases Finset.mem_insert.mp hmem with heq | hmem
  · apply hunused.committed k hk
    rw [heq]
    exact hdone
  · exact hunused.known k hk hmem

theorem onClientRequest_returns (hself : ctx.self ≠ NO_PEER_ID) (h : Unused ctx s.toRaftConsensus)
    (request : Request) : ∃ n ≤ 2, RequestReturns ctx n request s (onClientRequest ctx request s) := by
  rw [onClientRequest, acceptClientRequest_eq]
  by_cases hleads : (queued ctx request s).leaderId = ctx.self
  swap
  · rw [if_neg hleads]
    exact ⟨0, by omega, .follower hleads⟩
  rw [if_pos hleads]
  by_cases hempty : (queued ctx request s).pendingClientRequests = []
  · obtain ⟨n, hn, hreturns⟩ := startReplication_returns hself (queued_unused h hleads hempty)
    exact ⟨n, hn, .leader hleads hreturns⟩
  · exact ⟨1, by omega, .leader hleads (startReplication_returns_of_pending hempty)⟩

/-! ## The calls of the handlers -/

/-- A top-level call, with the state in which it is made. -/
inductive Call
  | tryStartReplication (s : Local)
  | onClientRequest (request : Request) (s : Local)

namespace Call

def state : Call → Local
  | tryStartReplication s => s
  | onClientRequest _ s => s

def result (ctx : Ctx) : Call → Local
  | tryStartReplication s => startReplication ctx s
  | onClientRequest request s => Raft.onClientRequest ctx request s

end Call

def messageCall (ctx : Ctx) : Message → Local → Option Call
  | .clientRequest request, s => some (.onClientRequest request s)
  | .respondRequest request sender _ _, s =>
    let key := extractKey request
    let responders := (s.replies key).getD []
    if s.leaderId ≠ ctx.self ∨ (¬ s.hasInFlight ∨ key ≠ s.inFlightKey) ∨ sender = NO_PEER_ID ∨
        sender ∈ responders then none
    else if hasQuorum ctx (responders ++ [sender]).length then
      some (.tryStartReplication (confirming ctx request
        ((s.submittedRound key).getD (request.roundSubmitted.getD ctx.round))
        { s with replies := Function.update s.replies key (some (responders ++ [sender])) }))
    else none
  | .vote voteFor sender _ _, s =>
    if s.leaderId = ctx.self ∨ (voteFor ≠ ctx.self ∨ sender = NO_PEER_ID) ∨ sender ∈ s.votes then none
    else if hasQuorum ctx (s.votes ++ [sender]).length then
      some (.tryStartReplication (winning ctx { s with votes := s.votes ++ [sender] }))
    else none
  | .request .., _ => none
  | .elect .., _ => none
  | .commit .., _ => none

/-- The call that `tick` makes, in `maybeGenerateClientRequest`. -/
def tickCall (ctx : Ctx) (s : Local) : Option Call :=
  let r := randMod s.submitRate s
  if s.submitRate ≤ 0 ∨ r.1 ≠ 0 then none
  else some (.onClientRequest (freshRequest ctx r.2)
    { r.2 with nextClientRequestId := r.2.nextClientRequestId + 1 })

theorem onMessage_call {m : Message} {call : Call} (h : messageCall ctx m s = some call) :
    onMessage ctx m s = call.result ctx := by
  cases m with
  | clientRequest request =>
    obtain rfl := Option.some.inj h
    rfl
  | respondRequest request sender termNum round =>
    rw [messageCall] at h
    split_ifs at h with hskip hquorum
    obtain rfl := Option.some.inj h
    simp only [not_or] at hskip
    obtain ⟨hleads, hflight, hsender, hnew⟩ := hskip
    rw [onMessage, handleRespond]
    rw [if_neg hleads, if_neg (not_or.mpr hflight), if_neg hsender, if_neg hnew, if_pos hquorum]
    exact confirmRequest_eq _ _ _
  | vote voteFor sender termNum round =>
    rw [messageCall] at h
    split_ifs at h with hskip hquorum
    obtain rfl := Option.some.inj h
    simp only [not_or] at hskip
    obtain ⟨hleads, hvote, hnew⟩ := hskip
    rw [onMessage, handleVote, if_neg hleads, if_neg (not_or.mpr hvote), if_neg hnew]
    dsimp only
    rw [if_pos hquorum]
    rfl
  | request => cases h
  | elect => cases h
  | commit => cases h

theorem maybeGenerateClientRequest_call {call : Call} (h : tickCall ctx s = some call) :
    maybeGenerateClientRequest ctx s = call.result ctx := by
  rw [tickCall] at h
  dsimp only at h
  split_ifs at h with hskip
  obtain rfl := Option.some.inj h
  rw [not_or] at hskip
  rw [maybeGenerateClientRequest, if_neg hskip.1]
  dsimp only
  rw [if_neg hskip.2]
  rfl

theorem Numbered.unused {K : TxKey → Prop} (h : Numbered ctx K s)
    (hK : ∀ k, K (ctx.self, k) → k < s.nextClientRequestId) (hnext : 0 ≤ s.nextClientRequestId) :
    Unused ctx s.toRaftConsensus := by
  have hlt : ∀ k, Below ctx K s.nextClientRequestId (ctx.self, k) → k < s.nextClientRequestId := by
    intro k hk
    rcases hk with hk | hk
    · exact hK k hk
    · exact hk.2
  refine ⟨hnext, fun k hk hmem => ?_, fun k hk hmem => ?_⟩
  · have hcontra := hlt k (h.keys.known _ hmem)
    omega
  · have hcontra := hlt k (h.keys.committed _ hmem)
    omega

theorem confirming_next (ctx : Ctx) (request : Request) (submitted : Int) (s : Local) :
    (confirming ctx request submitted s).nextClientRequestId = s.nextClientRequestId := by
  unfold confirming
  dsimp only
  rw [multicast_eq]
  exact applyCommit_next request submitted ctx.round true _

theorem winning_next (ctx : Ctx) (s : Local) :
    s.nextClientRequestId ≤ (winning ctx s).nextClientRequestId := by
  have htimer := resetTimer_replicates ctx s
  have hreset := resetReplicationState_replicates ctx true
    { resetTimer ctx s with leaderId := ctx.self, candidate := NO_PEER_ID, votes := [] }
  have hforwarded := tryForwardDeferredRequests_replicates ctx
    { resetReplicationState true
      { resetTimer ctx s with leaderId := ctx.self, candidate := NO_PEER_ID, votes := [] } with
      leaderChanges := (resetReplicationState true
        { resetTimer ctx s with leaderId := ctx.self, candidate := NO_PEER_ID, votes := [] }).leaderChanges + 1 }
  exact htimer.nextClientRequestId.trans
    (hreset.nextClientRequestId.trans hforwarded.nextClientRequestId)

theorem messageCall_numbered {K : TxKey → Prop} (h : Numbered ctx K s) {m : Message}
    (hm : ∀ r, m.carried = some r → Below ctx K s.nextClientRequestId (extractKey r)) {call : Call}
    (hcall : messageCall ctx m s = some call) :
    Numbered ctx K call.state ∧ s.nextClientRequestId ≤ call.state.nextClientRequestId := by
  cases m with
  | clientRequest request =>
    obtain rfl := Option.some.inj hcall
    exact ⟨h, le_rfl⟩
  | respondRequest request sender termNum round =>
    rw [messageCall] at hcall
    split_ifs at hcall
    obtain rfl := Option.some.inj hcall
    have hrecorded : Numbered ctx K { s with
        replies := Function.update s.replies (extractKey request)
          (some ((s.replies (extractKey request)).getD [] ++ [sender])) } :=
      ⟨{ h.keys with replies := update_in h.keys.replies fun _ => hm request rfl }, h.sent⟩
    refine ⟨confirming_numbered hrecorded (hm request rfl) _, ?_⟩
    rw [Call.state, confirming_next]
  | vote voteFor sender termNum round =>
    rw [messageCall] at hcall
    split_ifs at hcall
    obtain rfl := Option.some.inj hcall
    exact ⟨winning_numbered (h.election s.leaderId s.candidate s.term s.leaderChanges (s.votes ++ [sender])),
      winning_next ctx { s with votes := s.votes ++ [sender] }⟩
  | request => cases hcall
  | elect => cases hcall
  | commit => cases hcall

theorem tickCall_numbered {K : TxKey → Prop} (h : Numbered ctx K s) {call : Call}
    (hcall : tickCall ctx s = some call) :
    Numbered ctx K call.state ∧ s.nextClientRequestId ≤ call.state.nextClientRequestId := by
  rw [tickCall] at hcall
  dsimp only at hcall
  split_ifs at hcall
  obtain rfl := Option.some.inj hcall
  exact ⟨(randMod_numbered h _).raise, Int.le_add_one le_rfl⟩

/-! ## Every run -/

/-- In the state `s` a generated request is new, and calls of both functions return with
`tryStartReplication` nested at most twice, in the state that the model of the function gives. -/
structure NestsTwice (ctx : Ctx) (s : Local) : Prop where
  fresh : FreshLive ctx s.toRaftConsensus
  start : ∃ n ≤ 2, StartReturns ctx n s (startReplication ctx s)
  request : ∀ request, ∃ n ≤ 2, RequestReturns ctx n request s (onClientRequest ctx request s)

theorem Unused.nestsTwice (hself : ctx.self ≠ NO_PEER_ID) (h : Unused ctx s.toRaftConsensus) :
    NestsTwice ctx s :=
  ⟨h.freshLive hself, startReplication_returns hself h, onClientRequest_returns hself h⟩

namespace System
variable {cfg : Config} {sys : System} {p : InterfaceId}

/-- The top-level calls that a step of peer `p` makes in `sys`. -/
inductive Calls (cfg : Config) (sys : System) (p : InterfaceId) : Call → Prop
  | message {pkt : Packet Message} {draws : List Nat} {call : Call} (hpkt : pkt ∈ sys.sent)
      (htarget : pkt.target = p)
      (hcall : messageCall (sys.ctx cfg p) pkt.message (sys.start p draws) = some call) :
      Calls cfg sys p call
  | tick {draws : List Nat} {call : Call}
      (hcall : tickCall (sys.ctx cfg p) (sys.start p draws) = some call) : Calls cfg sys p call

/-- **The recursion is bounded.** In every state that a run reaches, every key that a peer holds or a packet
carries has a number below the counter of its submitter. So a request that a member generates is new, and a
call of `tryStartReplication` or `onClientRequest` returns with `tryStartReplication` nested at most twice:
between the steps of the member, and in the states in which its handlers make their calls. -/
theorem request_recursion_bounded (h : (machine cfg).Reached sys) :
    KeysCounted sys ∧ ∀ p ∈ cfg.committee.members,
      (∀ draws, NestsTwice (sys.ctx cfg p) (sys.start p draws)) ∧
      ∀ call, Calls cfg sys p call → NestsTwice (sys.ctx cfg p) call.state := by
  have hcounted := keysCounted_of_reached h
  refine ⟨hcounted, fun p hp => ?_⟩
  have hself : (sys.ctx cfg p).self ≠ NO_PEER_ID := cfg.committee.ne_noPeer hp
  have hnonneg := ((majorityInv_of_reached h).peers p).next
  have hnests : ∀ draws s, Numbered (sys.ctx cfg p) (Counted sys) s →
      (sys.start p draws).nextClientRequestId ≤ s.nextClientRequestId → NestsTwice (sys.ctx cfg p) s := by
    intro draws s hs hnext
    apply Unused.nestsTwice hself
    apply hs.unused
    · exact fun k hk => hk.trans_le hnext
    · exact hnonneg.trans hnext
  refine ⟨fun draws => hnests draws _ (hcounted.start p draws) le_rfl, fun call hcall => ?_⟩
  cases hcall with
  | @message pkt draws _ hpkt _ hcall =>
    obtain ⟨hs, hnext⟩ := messageCall_numbered (hcounted.start p draws)
      (fun r hr => .inl (hcounted.sent pkt hpkt r hr)) hcall
    exact hnests draws _ hs hnext
  | @tick draws _ hcall =>
    obtain ⟨hs, hnext⟩ := tickCall_numbered (hcounted.start p draws) hcall
    exact hnests draws _ hs hnext

/-- After the first commit of three peers, peer 0 has generated a second request. -/
theorem request_recursion_bounded_oneCommit :
    ∃ sys, (machine { committee := .ofSize 3 }).Reached sys ∧ (0, 1) ∈ (sys.peers 0).knownRequests ∧
      KeysCounted sys ∧ NestsTwice (sys.ctx { committee := .ofSize 3 } 0) (sys.start 0 []) := by
  have hrun : ((machine { committee := .ofSize 3 }).run (fresh { committee := .ofSize 3 } fun _ => 0)
      oneCommit).map (fun sys => decide ((0, 1) ∈ (sys.peers 0).knownRequests)) = some true := by
    decide +kernel
  obtain ⟨sys, hsys, hknown⟩ := Option.map_eq_some_iff.mp hrun
  have hreached := Lib.Machine.reached_of_run (.start (initial_fresh fun _ => by decide)) hsys
  obtain ⟨hcounted, hnests⟩ := request_recursion_bounded hreached
  exact ⟨sys, hreached, of_decide_eq_true hknown, hcounted, (hnests 0 (by decide)).1 []⟩

end System

end Quantas.Raft
