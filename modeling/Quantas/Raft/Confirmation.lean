import Quantas.Raft.System

/-!
# Raft: each request is confirmed once

`_confirmedTrans` grows in `confirmRequest` and in `applyCommit`, and neither looks at
`_committedRequests` first: a second commit message for a key adds a second entry. `CommitFresh` excludes
the two steps that confirm a committed key again; under it the confirmed keys are distinct, and they are
the committed keys.
-/

namespace Quantas.Raft

variable {ctx : Ctx}

/-- The keys of the confirmed transactions, in the order of their confirmation. -/
def confirmedKeys (s : RaftConsensus) : List TxKey :=
  s.confirmedTrans.map fun c => extractKey c.request

/-- Confirmed once: the confirmed keys are distinct, and they are the committed keys. -/
structure ConfirmedOnce (s : RaftConsensus) : Prop where
  nodup : (confirmedKeys s).Nodup
  committed : (confirmedKeys s).toFinset = s.committedRequests
  inFlight : InFlightValid s

theorem ConfirmedOnce.length_eq {s : RaftConsensus} (h : ConfirmedOnce s) :
    s.confirmedTrans.length = s.committedRequests.card := by
  rw [← h.committed, List.toFinset_card_of_nodup h.nodup, confirmedKeys, List.length_map]

theorem confirmedOnce_initialPeer (cfg : Config) (jitter : Int) :
    ConfirmedOnce (initialPeer cfg jitter) :=
  ⟨List.nodup_nil, rfl, fun h => by cases h⟩

/-- Nothing is confirmed or committed on the way from `s` to `s'`. -/
structure ConfirmsNothing (s s' : Local) : Prop where
  confirmedTrans : s'.confirmedTrans = s.confirmedTrans
  committedRequests : s'.committedRequests = s.committedRequests
  nextClientRequestId : s.nextClientRequestId ≤ s'.nextClientRequestId
  inFlight : InFlightValid s.toRaftConsensus → InFlightValid s'.toRaftConsensus

namespace ConfirmsNothing

theorem refl (s : Local) : ConfirmsNothing s s := ⟨rfl, rfl, le_rfl, id⟩

theorem trans {a b c : Local} (hab : ConfirmsNothing a b) (hbc : ConfirmsNothing b c) :
    ConfirmsNothing a c :=
  ⟨hbc.confirmedTrans.trans hab.confirmedTrans, hbc.committedRequests.trans hab.committedRequests,
    hab.nextClientRequestId.trans hbc.nextClientRequestId, hbc.inFlight ∘ hab.inFlight⟩

theorem confirmedOnce {s s' : Local} (h : ConfirmsNothing s s')
    (hs : ConfirmedOnce s.toRaftConsensus) : ConfirmedOnce s'.toRaftConsensus := by
  refine ⟨?_, ?_, h.inFlight hs.inFlight⟩
  · rw [confirmedKeys, h.confirmedTrans]
    exact hs.nodup
  · rw [confirmedKeys, h.confirmedTrans, h.committedRequests]
    exact hs.committed

end ConfirmsNothing

theorem Replicates.confirmsNothing {s s' : Local} (h : Replicates ctx s s') : ConfirmsNothing s s' :=
  ⟨h.confirmedTrans, h.committedRequests, h.nextClientRequestId, h.inFlight⟩

/-! ## The two places that confirm -/

theorem ConfirmedOnce.confirm {s s' : RaftConsensus} (hs : ConfirmedOnce s) {request : Request}
    {c : Confirmation} (hrequest : c.request = request)
    (hfresh : extractKey request ∉ s.committedRequests)
    (hconfirmed : s'.confirmedTrans = s.confirmedTrans ++ [c])
    (hcommitted : s'.committedRequests = insert (extractKey request) s.committedRequests)
    (hinFlight : InFlightValid s → InFlightValid s') : ConfirmedOnce s' := by
  have hkeys : confirmedKeys s' = confirmedKeys s ++ [extractKey request] := by
    rw [confirmedKeys, hconfirmed, List.map_append, List.map_singleton, hrequest, confirmedKeys]
  refine ⟨?_, ?_, hinFlight hs.inFlight⟩
  · rw [hkeys, ← List.concat_eq_append, List.nodup_concat]
    refine ⟨fun hmem => hfresh ?_, hs.nodup⟩
    rw [← hs.committed, List.mem_toFinset]
    exact hmem
  · rw [hkeys, hcommitted, ← hs.committed, List.toFinset_append, List.toFinset_cons,
      List.toFinset_nil, insert_empty_eq, Finset.union_comm, Finset.insert_eq]

theorem applyCommit_confirmedOnce {request : Request} {submitted committed : Int} {s : Local}
    (hs : ConfirmedOnce s.toRaftConsensus)
    (hfresh : keyValid (extractKey request) → extractKey request ∉ s.committedRequests) :
    ConfirmedOnce (applyCommit request submitted committed false s).toRaftConsensus := by
  unfold applyCommit
  by_cases hvalid : ¬ keyValid (extractKey request)
  · rw [if_pos hvalid]
    exact hs
  · rw [if_neg hvalid]
    exact hs.confirm rfl (hfresh (not_not.mp hvalid)) rfl rfl id

theorem confirmRequest_replicates (ctx : Ctx) (request : Request) (submitted : Int) (s : Local) :
    ∃ t : Local, t.toRaftConsensus = (applyCommit request submitted ctx.round true
        (pushConfirmed request submitted ctx.round s)).toRaftConsensus ∧
      ConfirmsNothing t (confirmRequest ctx request submitted s) := by
  refine ⟨applyCommit request submitted ctx.round true (pushConfirmed request submitted ctx.round s),
    rfl, ?_⟩
  unfold confirmRequest
  dsimp only
  refine .trans ?_ (startReplication_replicates ctx _).confirmsNothing
  rw [multicast_eq]
  exact ⟨rfl, rfl, le_rfl, fun _ h => by cases h⟩

theorem confirmRequest_confirmedOnce {request : Request} {submitted : Int} {s : Local}
    (hs : ConfirmedOnce s.toRaftConsensus) (hvalid : keyValid (extractKey request))
    (hfresh : extractKey request ∉ s.committedRequests) :
    ConfirmedOnce (confirmRequest ctx request submitted s).toRaftConsensus := by
  obtain ⟨t, ht, hrest⟩ := confirmRequest_replicates ctx request submitted s
  apply hrest.confirmedOnce
  rw [ht]
  unfold applyCommit
  rw [if_neg (not_not.mpr hvalid)]
  exact hs.confirm rfl hfresh rfl rfl id

/-! ## The handlers -/

/-- The two steps that confirm a committed key again: a commit message for it from another peer, and the
reply that completes the quorum for it while it is in flight. -/
def CommitFresh (ctx : Ctx) (s : RaftConsensus) : Message → Prop
  | .commit request sender _ _ _ =>
    sender ≠ ctx.self → keyValid (extractKey request) → extractKey request ∉ s.committedRequests
  | .respondRequest request sender _ _ =>
    s.leaderId = ctx.self → s.hasInFlight → extractKey request = s.inFlightKey →
    sender ≠ NO_PEER_ID → sender ∉ (s.replies (extractKey request)).getD [] →
    hasQuorum ctx (((s.replies (extractKey request)).getD []).length + 1) →
    extractKey request ∉ s.committedRequests
  | _ => True

instance (s : RaftConsensus) : (m : Message) → Decidable (CommitFresh ctx s m)
  | .commit .. => inferInstanceAs (Decidable (_ → _ → _))
  | .respondRequest .. => inferInstanceAs (Decidable (_ → _ → _ → _ → _ → _ → _))
  | .clientRequest _ => .isTrue trivial
  | .request .. => .isTrue trivial
  | .vote .. => .isTrue trivial
  | .elect .. => .isTrue trivial

theorem handleRequest_confirmsNothing (request : Request) (sender : InterfaceId) (termNum : Int)
    (s : Local) : ConfirmsNothing s (handleRequest ctx request sender termNum s) := by
  have hfollowed : ConfirmsNothing s (followSender ctx sender termNum s) := by
    unfold followSender
    dsimp only
    split_ifs
    · refine .trans ?_ (resetTimer_replicates ctx _).confirmsNothing
      have hset : ConfirmsNothing s { s with term := termNum, leaderId := sender } :=
        ⟨rfl, rfl, le_rfl, id⟩
      have hreset := hset.trans
        (resetReplicationState_replicates ctx false _).confirmsNothing
      exact hreset.trans ⟨rfl, rfl, le_rfl, id⟩
    · refine .trans ?_ (resetTimer_replicates ctx _).confirmsNothing
      exact ⟨rfl, rfl, le_rfl, id⟩
    · exact .refl s
  unfold handleRequest
  dsimp only
  split_ifs
  · exact .refl s
  · refine hfollowed.trans ?_
    refine (enqueueDeferred_replicates ctx request _).confirmsNothing.trans ?_
    exact (unicastTo_replicates (by simp [Message.sender]) rfl _ _).confirmsNothing
  · exact hfollowed

theorem handleRespond_cases (ctx : Ctx) (request : Request) (sender : InterfaceId) (s : Local) :
    ConfirmsNothing s (handleRespond ctx request sender s) ∨
    (s.leaderId = ctx.self ∧ s.hasInFlight ∧ extractKey request = s.inFlightKey ∧ sender ≠ NO_PEER_ID ∧
      sender ∉ (s.replies (extractKey request)).getD [] ∧
      hasQuorum ctx (((s.replies (extractKey request)).getD []).length + 1) ∧
      ∃ submitted replies, handleRespond ctx request sender s =
        confirmRequest ctx request submitted { s with replies := replies }) := by
  unfold handleRespond
  dsimp only
  split_ifs with hleads hkey hsender hnew hquorum
  · exact .inl (.refl s)
  · exact .inl (.refl s)
  · exact .inl (.refl s)
  · exact .inl (.refl s)
  · rw [not_or, not_not, not_not] at hkey
    rw [List.length_append, List.length_singleton] at hquorum
    exact .inr ⟨not_not.mp hleads, hkey.1, hkey.2, hsender, hnew, hquorum, _, _, rfl⟩
  · exact .inl ⟨rfl, rfl, le_rfl, id⟩

theorem handleVote_confirmsNothing (voteFor sender : InterfaceId) (s : Local) :
    ConfirmsNothing s (handleVote ctx voteFor sender s) := by
  unfold handleVote
  dsimp only
  split_ifs
  · exact .refl s
  · exact .refl s
  · exact .refl s
  · refine .trans ?_ (startReplication_replicates ctx _).confirmsNothing
    refine .trans ?_ (tryForwardDeferredRequests_replicates ctx _).confirmsNothing
    have hcounted : ConfirmsNothing s { s with votes := s.votes ++ [sender] } :=
      ⟨rfl, rfl, le_rfl, id⟩
    have htimer := hcounted.trans (resetTimer_replicates ctx _).confirmsNothing
    have hreset := (resetReplicationState_replicates ctx true
      { resetTimer ctx { s with votes := s.votes ++ [sender] } with
        leaderId := ctx.self, candidate := NO_PEER_ID, votes := [] }).confirmsNothing
    have hwon := htimer.trans (.trans (b := { resetTimer ctx { s with votes := s.votes ++ [sender] } with
        leaderId := ctx.self, candidate := NO_PEER_ID, votes := [] }) ⟨rfl, rfl, le_rfl, id⟩ hreset)
    exact hwon.trans ⟨rfl, rfl, le_rfl, id⟩
  · exact ⟨rfl, rfl, le_rfl, id⟩

theorem handleElect_confirmsNothing (sender : InterfaceId) (termNum roundSubmitted : Int) (s : Local) :
    ConfirmsNothing s (handleElect ctx sender termNum roundSubmitted s) := by
  unfold handleElect
  dsimp only
  split_ifs
  · exact .refl s
  · rw [unicastTo_eq]
    have hset : ConfirmsNothing s
        { s with term := termNum, leaderId := NO_PEER_ID, votes := [], candidate := sender } :=
      ⟨rfl, rfl, le_rfl, id⟩
    have hreset := hset.trans (resetReplicationState_replicates ctx true _).confirmsNothing
    have htimer := hreset.trans (resetTimer_replicates ctx _).confirmsNothing
    exact htimer.trans ⟨rfl, rfl, le_rfl, id⟩

theorem handleCommit_confirmedOnce {request : Request} {sender : InterfaceId}
    {termNum roundCommitted roundSubmitted : Int} {s : Local} (hs : ConfirmedOnce s.toRaftConsensus)
    (hfresh : CommitFresh ctx s.toRaftConsensus
      (.commit request sender termNum roundCommitted roundSubmitted)) :
    ConfirmedOnce
      (handleCommit ctx request sender termNum roundCommitted roundSubmitted s).toRaftConsensus := by
  unfold handleCommit
  dsimp only
  split_ifs with hown
  · exact hs
  · exact applyCommit_confirmedOnce (s := { s with term := termNum })
      ⟨hs.nodup, hs.committed, hs.inFlight⟩ (hfresh hown)
  · exact applyCommit_confirmedOnce hs (hfresh hown)

theorem tick_confirmsNothing (s : Local) : ConfirmsNothing s (tick ctx s) := by
  have hgenerated := (maybeGenerateClientRequest_replicates ctx s).confirmsNothing
  unfold tick
  refine .trans ?_ (tryForwardDeferredRequests_replicates ctx _).confirmsNothing
  unfold maybeStartElection
  dsimp only
  split_ifs
  · exact hgenerated
  · rw [multicast_eq]
    have hreset := hgenerated.trans (resetReplicationState_replicates ctx true _).confirmsNothing
    have hstood : ConfirmsNothing s { resetReplicationState true (maybeGenerateClientRequest ctx s) with
        candidate := ctx.self
        leaderId := NO_PEER_ID
        term := (resetReplicationState true (maybeGenerateClientRequest ctx s)).term + 1
        votes := [] } := hreset.trans ⟨rfl, rfl, le_rfl, id⟩
    have htimer := hstood.trans (resetTimer_replicates ctx _).confirmsNothing
    exact htimer.trans ⟨rfl, rfl, le_rfl, id⟩

theorem onMessage_confirmedOnce {m : Message} {s : Local} (hs : ConfirmedOnce s.toRaftConsensus)
    (hfresh : CommitFresh ctx s.toRaftConsensus m) :
    ConfirmedOnce (onMessage ctx m s).toRaftConsensus := by
  cases m with
  | clientRequest request =>
    exact (onClientRequest_replicates ctx request s).confirmsNothing.confirmedOnce hs
  | request request sender termNum =>
    exact (handleRequest_confirmsNothing request sender termNum s).confirmedOnce hs
  | respondRequest request sender termNum round =>
    rcases handleRespond_cases ctx request sender s with
      h | ⟨hleads, hin, hkey, hsender, hnew, hquorum, submitted, replies, heq⟩
    · exact h.confirmedOnce hs
    · have hvalid : keyValid (extractKey request) := by
        rw [hkey]
        exact hs.inFlight hin
      rw [onMessage, heq]
      have hcounted : ConfirmsNothing s { s with replies := replies } := ⟨rfl, rfl, le_rfl, id⟩
      exact confirmRequest_confirmedOnce (hcounted.confirmedOnce hs) hvalid
        (hfresh hleads hin hkey hsender hnew hquorum)
  | vote voteFor sender termNum round =>
    exact (handleVote_confirmsNothing voteFor sender s).confirmedOnce hs
  | elect sender termNum round =>
    exact (handleElect_confirmsNothing sender termNum round s).confirmedOnce hs
  | commit request sender termNum committed submitted => exact handleCommit_confirmedOnce hs hfresh

theorem applyCommit_nextClientRequestId (request : Request) (submitted committed : Int) (skip : Bool)
    (s : Local) :
    (applyCommit request submitted committed skip s).nextClientRequestId = s.nextClientRequestId := by
  unfold applyCommit
  dsimp only
  split_ifs <;> rfl

theorem onMessage_nextClientRequestId (m : Message) (s : Local) :
    s.nextClientRequestId ≤ (onMessage ctx m s).nextClientRequestId := by
  cases m with
  | clientRequest request => exact (onClientRequest_replicates ctx request s).nextClientRequestId
  | request request sender termNum =>
    exact (handleRequest_confirmsNothing request sender termNum s).nextClientRequestId
  | respondRequest request sender termNum round =>
    rcases handleRespond_cases ctx request sender s with
      h | ⟨-, -, -, -, -, -, submitted, replies, heq⟩
    · exact h.nextClientRequestId
    · obtain ⟨t, ht, hrest⟩ :=
        confirmRequest_replicates ctx request submitted { s with replies := replies }
      rw [onMessage, heq]
      refine le_trans (le_of_eq ?_) hrest.nextClientRequestId
      rw [ht, applyCommit_nextClientRequestId]
      rfl
  | vote voteFor sender termNum round =>
    exact (handleVote_confirmsNothing voteFor sender s).nextClientRequestId
  | elect sender termNum round =>
    exact (handleElect_confirmsNothing sender termNum round s).nextClientRequestId
  | commit request sender termNum committed submitted =>
    rw [onMessage, handleCommit]
    dsimp only
    split_ifs <;> simp [applyCommit_nextClientRequestId]

/-! ## Every run -/

namespace System
variable {cfg : Config} {sys : System}

def CommitFreshStep (cfg : Config) (sys : System) : Event → Prop
  | .receive p pkt _ => CommitFresh (sys.ctx cfg p) (sys.peers p) pkt.message
  | _ => True

instance : (e : Event) → Decidable (CommitFreshStep cfg sys e)
  | .receive p pkt _ =>
    inferInstanceAs (Decidable (CommitFresh (sys.ctx cfg p) (sys.peers p) pkt.message))
  | .nextRound => .isTrue trivial
  | .tick .. => .isTrue trivial

theorem nextClientRequestId_nonneg (h : (machine cfg).Reached sys) :
    ∀ p, 0 ≤ (sys.peers p).nextClientRequestId := by
  refine peers_invariant (P := fun _ s => 0 ≤ s.nextClientRequestId) ?_ ?_ ?_ h
  · exact fun _ _ => le_rfl
  · exact fun _ _ pkt _ hs _ => hs.trans (onMessage_nextClientRequestId pkt.message _)
  · exact fun _ _ _ hs => hs.trans (tick_confirmsNothing _).nextClientRequestId

theorem confirmedOnce_of_reached (h : (machine cfg).ReachedUnder (CommitFreshStep cfg) sys) :
    ∀ p, ConfirmedOnce (sys.peers p) := by
  refine peers_invariant (P := fun _ s => ConfirmedOnce s) ?_ ?_ ?_ h
  · exact fun _ jitter => confirmedOnce_initialPeer cfg jitter
  · exact fun _ _ _ _ hs hfresh => onMessage_confirmedOnce hs hfresh
  · exact fun _ _ _ hs => (tick_confirmsNothing _).confirmedOnce hs

/-- **Exactly-once confirmation.** In a run in which no step confirms a key that its peer has committed
already, the confirmed keys of every peer are distinct, and there are as many confirmed transactions as
committed keys. -/
theorem confirmed_exactly_once (h : (machine cfg).ReachedUnder (CommitFreshStep cfg) sys)
    (p : InterfaceId) :
    (confirmedKeys (sys.peers p)).Nodup ∧
      (sys.peers p).confirmedTrans.length = (sys.peers p).committedRequests.card :=
  ⟨(confirmedOnce_of_reached h p).nodup, (confirmedOnce_of_reached h p).length_eq⟩

/-! ## Two runs of three peers -/

def firstRequest : Request := { submitterId := some 0, clientSeq := some 0, roundSubmitted := some 0 }

/-- Peer 0 leads from the start: it generates a request, replicates it and confirms it, and peer 1
handles the commit message. -/
def oneCommit : List Event :=
  [.tick 0 [0], .nextRound,
   .receive 1 ⟨0, 1, .request firstRequest 0 0⟩ [], .receive 2 ⟨0, 2, .request firstRequest 0 0⟩ [],
   .nextRound,
   .receive 0 ⟨1, 0, .respondRequest firstRequest 1 0 0⟩ [],
   .receive 0 ⟨2, 0, .respondRequest firstRequest 2 0 0⟩ [], .nextRound,
   .receive 1 ⟨0, 1, .commit firstRequest 0 0 2 0⟩ []]

def twoCommits : List Event := oneCommit ++ [.receive 1 ⟨0, 1, .commit firstRequest 0 0 2 0⟩ []]

theorem confirmed_exactly_once_oneCommit :
    ∃ sys, (machine { committee := .ofSize 3 }).ReachedUnder (CommitFreshStep { committee := .ofSize 3 })
        sys ∧ confirmedKeys (sys.peers 1) = [(0, 0)] ∧
      (confirmedKeys (sys.peers 1)).Nodup ∧
      (sys.peers 1).confirmedTrans.length = (sys.peers 1).committedRequests.card := by
  have hrun : ((machine { committee := .ofSize 3 }).runUnder (CommitFreshStep { committee := .ofSize 3 })
      (fresh { committee := .ofSize 3 } fun _ => 0) oneCommit).map
        (fun sys => confirmedKeys (sys.peers 1)) = some [(0, 0)] := by
    decide +kernel
  obtain ⟨sys, hsys, hkeys⟩ := Option.map_eq_some_iff.mp hrun
  have hreached := Lib.Machine.reachedUnder_of_runUnder
    (.start (initial_fresh fun _ => by decide)) hsys
  exact ⟨sys, hreached, hkeys, confirmed_exactly_once hreached 1⟩

theorem twoCommits_confirm_twice :
    ¬ ∀ (cfg : Config) (sys : System), (machine cfg).Reached sys → ∀ p,
      (confirmedKeys (sys.peers p)).Nodup ∧
        (sys.peers p).confirmedTrans.length = (sys.peers p).committedRequests.card := by
  intro honce
  have hrun : ((machine { committee := .ofSize 3 }).run (fresh { committee := .ofSize 3 } fun _ => 0)
      twoCommits).map (fun sys => confirmedKeys (sys.peers 1)) = some [(0, 0), (0, 0)] := by
    decide +kernel
  obtain ⟨sys, hsys, hkeys⟩ := Option.map_eq_some_iff.mp hrun
  have hreached := Lib.Machine.reached_of_run (.start (initial_fresh fun _ => by decide)) hsys
  have hnodup := (honce _ sys hreached 1).1
  rw [hkeys] at hnodup
  exact absurd hnodup (by decide)

end System

end Quantas.Raft
