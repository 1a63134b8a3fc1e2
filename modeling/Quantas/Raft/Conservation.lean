import Quantas.Raft.Confirmation
import Quantas.Raft.Queues

/-!
# Raft: no known request is lost

Every key that a peer knows is in exactly one place: committed, deferred, pending or in flight. In the terms
of `custody`, the handlers keep it `Sound`. Four steps do not: a leader that follows another peer drops its
request in flight; a request message whose key is committed but unknown is deferred; a commit message for
the key in flight leaves it in flight; and a leader that confirms with deferred but no pending requests
starts two replications. `CustodySafe` excludes these steps.
-/

namespace Quantas.Raft

variable {ctx : Ctx}

/-- What the handlers keep for peer `p`. -/
structure Kept (p : InterfaceId) (s : RaftConsensus) : Prop where
  sound : (custody s).Sound keyValid
  /-- A peer has a request in flight only while it leads. -/
  leads : s.hasInFlight = true → s.leaderId = p
  key : s.hasInFlight = true → extractKey s.inFlightRequest = s.inFlightKey

theorem custody_held {s : RaftConsensus} (hidle : s.hasInFlight = false) : (custody s).held = none := by
  simp [custody, hidle]

theorem Kept.of_idle {p : InterfaceId} {s : RaftConsensus} (hsound : (custody s).Sound keyValid)
    (hidle : s.hasInFlight = false) : Kept p s :=
  ⟨hsound, fun h => absurd (hidle.symm.trans h) Bool.false_ne_true,
    fun h => absurd (hidle.symm.trans h) Bool.false_ne_true⟩

theorem kept_initialPeer (cfg : Config) (jitter : Int) (p : InterfaceId) :
    Kept p (initialPeer cfg jitter) := by
  refine .of_idle ⟨?_, fun _ _ => rfl, ?_⟩ rfl
  · intro k hk
    exact absurd hk (Finset.notMem_empty k)
  · intro k hk
    exact absurd hk (Finset.notMem_empty k)

/-! ## Queueing, forwarding and starting -/

theorem tryForwardDeferredRequests_kept {p : InterfaceId} {s : Local}
    (hloose : (custody s.toRaftConsensus).Loose keyValid)
    (hleads : s.hasInFlight = true → s.leaderId = p)
    (hkey : s.hasInFlight = true → extractKey s.inFlightRequest = s.inFlightKey) :
    Kept p (tryForwardDeferredRequests ctx s).toRaftConsensus := by
  by_cases hleader : s.leaderId = ctx.self
  · have hsound := hloose.promote
    rw [← custody_tryForward_leader hleader] at hsound
    rw [tryForwardDeferredRequests_leader hleader] at hsound ⊢
    exact ⟨hsound, hleads, hkey⟩
  · have hsound := hloose.sweep
    rw [← custody_tryForward_follower hleader] at hsound
    obtain ⟨ds, out, heq, -⟩ := tryForwardDeferredRequests_follower hleader
    rw [heq] at hsound ⊢
    exact ⟨hsound, hleads, hkey⟩

theorem forward_kept {p : InterfaceId} {s : Local} (h : Kept p s.toRaftConsensus) :
    Kept p (tryForwardDeferredRequests ctx s).toRaftConsensus :=
  tryForwardDeferredRequests_kept h.sound.loose h.leads h.key

theorem forward_deferred {s : Local} (hleads : s.leaderId = ctx.self) :
    (tryForwardDeferredRequests ctx s).deferredClientRequests = [] := by
  rw [tryForwardDeferredRequests_leader hleads]

theorem enqueue_forward_kept (ctx : Ctx) {p : InterfaceId} {s : Local} (h : Kept p s.toRaftConsensus)
    (request : Request) :
    Kept p (tryForwardDeferredRequests ctx (enqueueDeferred request s)).toRaftConsensus := by
  have hloose := h.sound.accept_loose (extractKey request)
  rw [← custody_enqueueDeferred] at hloose
  refine tryForwardDeferredRequests_kept hloose ?_ ?_
  · unfold enqueueDeferred
    split_ifs <;> exact h.leads
  · unfold enqueueDeferred
    split_ifs <;> exact h.key

theorem replicateFirst_owned (rs : List Request) {s : Local} (hleads : s.leaderId = ctx.self)
    (hidle : s.hasInFlight = false) :
    ((replicateFirst ctx rs s).hasInFlight = true → (replicateFirst ctx rs s).leaderId = ctx.self) ∧
    ((replicateFirst ctx rs s).hasInFlight = true →
      extractKey (replicateFirst ctx rs s).inFlightRequest = (replicateFirst ctx rs s).inFlightKey) := by
  induction rs with
  | nil => exact ⟨fun _ => hleads, fun h => by rw [show s.hasInFlight = true from h] at hidle; cases hidle⟩
  | cons r rs ih =>
    rw [replicateFirst]
    dsimp only
    by_cases hgone : ¬ keyValid (extractKey r) ∨ extractKey r ∈ s.committedRequests
    · rw [if_pos hgone]
      exact ih
    · rw [if_neg hgone, multicast_eq]
      unfold resetTimer randMod
      split_ifs <;> exact ⟨fun _ => hleads, fun _ => rfl⟩

theorem replicateFirst_kept {s : Local} (h : Kept ctx.self s.toRaftConsensus)
    (hleads : s.leaderId = ctx.self) (hidle : s.hasInFlight = false) :
    Kept ctx.self (replicateFirst ctx s.pendingClientRequests s).toRaftConsensus := by
  obtain ⟨hleads', hkey'⟩ := replicateFirst_owned s.pendingClientRequests hleads hidle
  refine ⟨?_, hleads', hkey'⟩
  rw [custody_replicateFirst]
  exact h.sound.start (custody_held hidle)

theorem replicateFirst_pending_of_length {rs : List Request} (hrs : rs.length ≤ 1) (s : Local) :
    (replicateFirst ctx rs s).pendingClientRequests = [] := by
  match rs, hrs with
  | [], _ => rfl
  | [r], _ =>
    rw [replicateFirst]
    dsimp only
    split_ifs
    · rfl
    · rw [multicast_eq]
      unfold resetTimer randMod
      split_ifs <;> rfl

theorem enqueueDeferred_length (request : Request) (s : Local) :
    (enqueueDeferred request s).deferredClientRequests.length ≤ s.deferredClientRequests.length + 1 := by
  unfold enqueueDeferred
  split_ifs <;> simp

theorem generated_queues {s : Local} (hleads : s.leaderId = ctx.self)
    (hpending : s.pendingClientRequests = []) (hdeferred : s.deferredClientRequests = []) :
    (generated ctx s).hasInFlight = s.hasInFlight ∧ (generated ctx s).deferredClientRequests = [] ∧
      (generated ctx s).pendingClientRequests.length ≤ 1 := by
  have hleads' : (enqueueDeferred (freshRequest ctx s)
      { s with nextClientRequestId := s.nextClientRequestId + 1 }).leaderId = ctx.self :=
    (enqueueDeferred_replicates ctx _ _).leaderId.trans hleads
  have hlength : (enqueueDeferred (freshRequest ctx s)
      { s with nextClientRequestId := s.nextClientRequestId + 1 }).deferredClientRequests.length ≤
        s.deferredClientRequests.length + 1 := enqueueDeferred_length _ _
  have hsame : (enqueueDeferred (freshRequest ctx s)
        { s with nextClientRequestId := s.nextClientRequestId + 1 }).hasInFlight = s.hasInFlight ∧
      (enqueueDeferred (freshRequest ctx s)
        { s with nextClientRequestId := s.nextClientRequestId + 1 }).pendingClientRequests = [] := by
    unfold enqueueDeferred
    split_ifs <;> exact ⟨rfl, hpending⟩
  rw [generated, tryForwardDeferredRequests_leader hleads']
  refine ⟨hsame.1, rfl, ?_⟩
  rw [hsame.2, List.nil_append, List.length_map]
  refine (List.length_filter_le ..).trans ?_
  have hzero : s.deferredClientRequests.length = 0 := by rw [hdeferred, List.length_nil]
  omega

/-- A leader that has pending requests, or none deferred, starts one replication; with at most one request
in its queues it leaves none pending. -/
theorem tryStartReplication_kept (fuel : Nat) {s : Local} (h : Kept ctx.self s.toRaftConsensus)
    (hqueue : s.pendingClientRequests = [] → s.deferredClientRequests = []) :
    Kept ctx.self (tryStartReplication ctx fuel s).toRaftConsensus ∧
    (s.leaderId = ctx.self → s.hasInFlight = false → s.pendingClientRequests.length ≤ 1 →
      (tryStartReplication ctx fuel s).pendingClientRequests = []) := by
  induction fuel generalizing s with
  | zero =>
    unfold tryStartReplication
    split_ifs with hbusy hempty
    · refine ⟨h, fun hleads hidle => ?_⟩
      simp [hleads, hidle] at hbusy
    · exact ⟨h, fun _ _ _ => hempty⟩
    · rw [not_or, not_not, Bool.not_eq_true] at hbusy
      exact ⟨replicateFirst_kept h hbusy.1 hbusy.2,
        fun _ _ hlength => replicateFirst_pending_of_length hlength s⟩
  | succ fuel ih =>
    unfold tryStartReplication
    split_ifs with hbusy hempty
    · refine ⟨h, fun hleads hidle => ?_⟩
      simp [hleads, hidle] at hbusy
    · rw [not_or, not_not, Bool.not_eq_true] at hbusy
      obtain ⟨hleads, hidle⟩ := hbusy
      obtain ⟨hidle', hdeferred, hlength⟩ := generated_queues hleads hempty (hqueue hempty)
      have hgenerated : Kept ctx.self (generated ctx s).toRaftConsensus :=
        enqueue_forward_kept ctx (s := { s with nextClientRequestId := s.nextClientRequestId + 1 })
          ⟨h.sound, h.leads, h.key⟩ _
      have hleads' : (generated ctx s).leaderId = ctx.self := (generated_leaderId s).trans hleads
      obtain ⟨hkept, hpending⟩ := ih hgenerated fun _ => hdeferred
      have hnone := hpending hleads' (hidle'.trans hidle) hlength
      -- the nested call leaves nothing to start
      dsimp only
      rw [acceptClientRequest_fresh, if_pos hleads', hnone, replicateFirst]
      refine ⟨⟨?_, hkept.leads, hkept.key⟩, fun _ _ _ => rfl⟩
      have hsame : custody { tryStartReplication ctx fuel (generated ctx s) with
          pendingClientRequests := [] }.toRaftConsensus =
          custody (tryStartReplication ctx fuel (generated ctx s)).toRaftConsensus := by
        simp [custody, hnone]
      rw [hsame]
      exact hkept.sound
    · rw [not_or, not_not, Bool.not_eq_true] at hbusy
      exact ⟨replicateFirst_kept h hbusy.1 hbusy.2,
        fun _ _ hlength => replicateFirst_pending_of_length hlength s⟩

theorem startReplication_kept {s : Local} (h : Kept ctx.self s.toRaftConsensus)
    (hqueue : s.pendingClientRequests = [] → s.deferredClientRequests = []) :
    Kept ctx.self (startReplication ctx s).toRaftConsensus :=
  (tryStartReplication_kept _ h hqueue).1

theorem onClientRequest_kept {s : Local} (h : Kept ctx.self s.toRaftConsensus) (request : Request) :
    Kept ctx.self (onClientRequest ctx request s).toRaftConsensus := by
  have hcompleted : Kept ctx.self (completeRequest ctx request s).2.toRaftConsensus := by
    unfold completeRequest
    cases request.clientSeq <;> exact ⟨h.sound, h.leads, h.key⟩
  have hforwarded := enqueue_forward_kept ctx hcompleted (completeRequest ctx request s).1
  unfold onClientRequest acceptClientRequest
  dsimp only
  split_ifs with hleads
  · refine startReplication_kept hforwarded fun _ => forward_deferred ?_
    exact (tryForwardDeferredRequests_replicates ctx _).leaderId.symm.trans hleads
  · exact hforwarded

/-! ## The handlers -/

/-- Excludes the four steps that lose or double a known key. -/
def CustodySafe (ctx : Ctx) (s : RaftConsensus) : Message → Prop
  | .request request sender termNum =>
    0 ≤ termNum → sender ≠ NO_PEER_ID →
      (s.term ≤ termNum → s.leaderId ≠ sender → s.hasInFlight = false) ∧
      (keyValid (extractKey request) → extractKey request ∈ s.committedRequests →
        extractKey request ∈ s.knownRequests)
  | .respondRequest request sender _ _ =>
    s.leaderId = ctx.self → s.hasInFlight → extractKey request = s.inFlightKey →
    sender ≠ NO_PEER_ID → sender ∉ (s.replies (extractKey request)).getD [] →
    hasQuorum ctx (((s.replies (extractKey request)).getD []).length + 1) →
    s.pendingClientRequests = [] → s.deferredClientRequests = []
  | .commit request sender _ _ _ =>
    sender ≠ ctx.self → keyValid (extractKey request) → s.hasInFlight →
    extractKey request ≠ s.inFlightKey
  | _ => True

instance (s : RaftConsensus) : (m : Message) → Decidable (CustodySafe ctx s m)
  | .request .. => inferInstanceAs (Decidable (_ → _ → (_ → _ → _) ∧ (_ → _ → _)))
  | .respondRequest .. => inferInstanceAs (Decidable (_ → _ → _ → _ → _ → _ → _ → _))
  | .commit .. => inferInstanceAs (Decidable (_ → _ → _ → _))
  | .clientRequest _ => .isTrue trivial
  | .vote .. => .isTrue trivial
  | .elect .. => .isTrue trivial

theorem resetTimer_kept (ctx : Ctx) {p : InterfaceId} {s : Local} (h : Kept p s.toRaftConsensus) :
    Kept p (resetTimer ctx s).toRaftConsensus := by
  unfold resetTimer randMod
  split_ifs <;> exact ⟨h.sound, h.leads, h.key⟩

theorem resetReplicationState_idle (requeue : Bool) (s : Local) :
    (resetReplicationState requeue s).hasInFlight = false :=
  rfl

theorem requeue_kept {p : InterfaceId} {s : Local} (hsound : (custody s.toRaftConsensus).Sound keyValid)
    (hkey : s.hasInFlight = true → extractKey s.inFlightRequest = s.inFlightKey) :
    Kept p (resetReplicationState true s).toRaftConsensus := by
  refine .of_idle ?_ (resetReplicationState_idle true s)
  rw [custody_requeue hkey]
  exact hsound.requeue

theorem multicast_kept {p : InterfaceId} {s : Local} (h : Kept p s.toRaftConsensus) (msg : Message) :
    Kept p (multicast ctx msg s).toRaftConsensus := by
  rw [multicast_eq]
  exact ⟨h.sound, h.leads, h.key⟩

theorem handleRequest_kept {request : Request} {sender : InterfaceId} {termNum : Int} {s : Local}
    (h : Kept ctx.self s.toRaftConsensus)
    (hsafe : CustodySafe ctx s.toRaftConsensus (.request request sender termNum)) :
    Kept ctx.self (handleRequest ctx request sender termNum s).toRaftConsensus := by
  unfold handleRequest
  by_cases hinvalid : termNum < 0 ∨ sender = NO_PEER_ID
  · rw [if_pos hinvalid]
    exact h
  rw [if_neg hinvalid]
  rw [not_or, not_lt] at hinvalid
  obtain ⟨hfollow, hknown⟩ := hsafe hinvalid.1 hinvalid.2
  have hfollowed : Kept ctx.self (followSender ctx sender termNum s).toRaftConsensus ∧
      (followSender ctx sender termNum s).knownRequests = s.knownRequests ∧
      (followSender ctx sender termNum s).committedRequests = s.committedRequests := by
    unfold followSender
    dsimp only
    by_cases hterm : s.term ≤ termNum
    · rw [if_pos hterm]
      by_cases hchanged : s.leaderId ≠ sender
      · -- nothing was in flight, so the reset drops nothing
        have hidle := hfollow hterm hchanged
        rw [if_pos (show (_ : Prop) from hchanged)]
        unfold resetReplicationState resetTimer randMod
        simp only [hidle, Bool.false_eq_true, false_and, if_false]
        split_ifs <;> exact ⟨.of_idle (by
          have hsound := h.sound
          simpa [custody, hidle] using hsound) rfl, rfl, rfl⟩
      · rw [if_neg hchanged]
        rw [not_not] at hchanged
        refine ⟨resetTimer_kept ctx ⟨h.sound, fun hin => ?_, h.key⟩, ?_, ?_⟩
        · exact hchanged.symm.trans (h.leads hin)
        · unfold resetTimer randMod
          split_ifs <;> rfl
        · unfold resetTimer randMod
          split_ifs <;> rfl
    · rw [if_neg hterm]
      exact ⟨h, rfl, rfl⟩
  obtain ⟨hkept, hknownEq, hcommittedEq⟩ := hfollowed
  dsimp only
  by_cases hvalid : ¬ keyValid (extractKey request)
  · rw [if_pos hvalid]
    exact hkept
  rw [if_neg hvalid, unicastTo_eq]
  refine ⟨?_, ?_, ?_⟩
  · have hsound : ((custody (followSender ctx sender termNum s).toRaftConsensus).accept keyValid
        (extractKey request)).Sound keyValid := by
      apply hkept.sound.accept
      intro hv hdone
      have hdone' : extractKey request ∈ (followSender ctx sender termNum s).committedRequests := hdone
      rw [hcommittedEq] at hdone'
      change extractKey request ∈ (followSender ctx sender termNum s).knownRequests
      rw [hknownEq]
      exact hknown hv hdone'
    rw [← custody_enqueueDeferred] at hsound
    exact hsound
  · unfold enqueueDeferred
    split_ifs <;> exact hkept.leads
  · unfold enqueueDeferred
    split_ifs <;> exact hkept.key

theorem confirmRequest_kept {request : Request} {submitted : Int} {s : Local}
    (h : Kept ctx.self s.toRaftConsensus) (hin : s.hasInFlight = true)
    (hkey : extractKey request = s.inFlightKey)
    (hqueue : s.pendingClientRequests = [] → s.deferredClientRequests = []) :
    Kept ctx.self (confirmRequest ctx request submitted s).toRaftConsensus := by
  have hheld : (custody s.toRaftConsensus).held = some (extractKey request) := by
    rw [hkey]
    simp [custody, hin]
  have hvalid : keyValid (extractKey request) = true := h.sound.valid_of_held hheld
  -- the key in flight is not pending
  have hpending : ∀ r ∈ s.pendingClientRequests, extractKey r ≠ extractKey request := by
    intro r hr hsame
    exact h.sound.notMem_ready_of_held hheld (hsame ▸ List.mem_map_of_mem hr)
  have hsound : ((custody (pushConfirmed request submitted ctx.round s).toRaftConsensus).finish
      (extractKey request)).release.Sound keyValid := h.sound.finish_held hheld
  rw [← custody_applyCommit hvalid submitted ctx.round true (pushConfirmed request submitted ctx.round s)]
    at hsound
  unfold confirmRequest
  refine startReplication_kept ?_ ?_
  · refine .of_idle ?_ rfl
    rw [multicast_eq]
    exact hsound
  · rw [multicast_eq]
    unfold applyCommit
    dsimp only
    rw [if_neg (not_not.mpr hvalid)]
    intro hempty
    change (s.pendingClientRequests.filter fun r => extractKey r ≠ extractKey request) = [] at hempty
    change (s.deferredClientRequests.filter fun r => extractKey r ≠ extractKey request) = []
    have hall : (s.pendingClientRequests.filter fun r => extractKey r ≠ extractKey request) =
        s.pendingClientRequests :=
      List.filter_eq_self.mpr fun r hr => decide_eq_true (hpending r hr)
    rw [hall] at hempty
    rw [hqueue hempty, List.filter_nil]

theorem handleRespond_kept {request : Request} {sender : InterfaceId} {termNum round : Int} {s : Local}
    (h : Kept ctx.self s.toRaftConsensus)
    (hsafe : CustodySafe ctx s.toRaftConsensus (.respondRequest request sender termNum round)) :
    Kept ctx.self (handleRespond ctx request sender s).toRaftConsensus := by
  unfold handleRespond
  dsimp only
  split_ifs with hleads hkey hsender hnew hquorum
  · exact h
  · exact h
  · exact h
  · exact h
  · rw [not_or, not_not, not_not] at hkey
    rw [List.length_append, List.length_singleton] at hquorum
    exact confirmRequest_kept ⟨h.sound, h.leads, h.key⟩ hkey.1 hkey.2
      (hsafe (not_not.mp hleads) hkey.1 hkey.2 hsender hnew hquorum)
  · exact ⟨h.sound, h.leads, h.key⟩

theorem handleVote_kept {voteFor sender : InterfaceId} {s : Local}
    (h : Kept ctx.self s.toRaftConsensus) :
    Kept ctx.self (handleVote ctx voteFor sender s).toRaftConsensus := by
  unfold handleVote
  dsimp only
  split_ifs
  · exact h
  · exact h
  · exact h
  · have htimer : Kept ctx.self (resetTimer ctx { s with votes := s.votes ++ [sender] }).toRaftConsensus :=
      resetTimer_kept ctx ⟨h.sound, h.leads, h.key⟩
    have hwon : Kept ctx.self (resetReplicationState true
        { resetTimer ctx { s with votes := s.votes ++ [sender] } with
          leaderId := ctx.self, candidate := NO_PEER_ID, votes := [] }).toRaftConsensus :=
      requeue_kept htimer.sound htimer.key
    have hleads : (resetReplicationState true
        { resetTimer ctx { s with votes := s.votes ++ [sender] } with
          leaderId := ctx.self, candidate := NO_PEER_ID, votes := [] }).leaderId = ctx.self :=
      (resetReplicationState_replicates ctx true _).leaderId
    exact startReplication_kept (forward_kept ⟨hwon.sound, hwon.leads, hwon.key⟩)
      fun _ => forward_deferred hleads
  · exact ⟨h.sound, h.leads, h.key⟩

theorem handleElect_kept {sender : InterfaceId} {termNum roundSubmitted : Int} {s : Local}
    (h : Kept ctx.self s.toRaftConsensus) :
    Kept ctx.self (handleElect ctx sender termNum roundSubmitted s).toRaftConsensus := by
  unfold handleElect
  dsimp only
  split_ifs
  · exact h
  · have hreset : Kept ctx.self (resetReplicationState true { s with
        term := termNum, leaderId := NO_PEER_ID, votes := [], candidate := sender }).toRaftConsensus :=
      requeue_kept h.sound h.key
    have htimer := resetTimer_kept ctx hreset
    rw [unicastTo_eq]
    exact ⟨htimer.sound, htimer.leads, htimer.key⟩

theorem handleCommit_kept {request : Request} {sender : InterfaceId}
    {termNum roundCommitted roundSubmitted : Int} {s : Local} (h : Kept ctx.self s.toRaftConsensus)
    (hsafe : CustodySafe ctx s.toRaftConsensus
      (.commit request sender termNum roundCommitted roundSubmitted)) :
    Kept ctx.self
      (handleCommit ctx request sender termNum roundCommitted roundSubmitted s).toRaftConsensus := by
  have happly : ∀ t : Local, Kept ctx.self t.toRaftConsensus →
      (keyValid (extractKey request) → t.hasInFlight → extractKey request ≠ t.inFlightKey) →
      Kept ctx.self (applyCommit request roundSubmitted roundCommitted false t).toRaftConsensus := by
    intro t ht hother
    by_cases hvalid : keyValid (extractKey request) = true
    · have hheld : (custody t.toRaftConsensus).held ≠ some (extractKey request) := by
        intro hheld
        cases hin : t.hasInFlight with
        | false => simp [custody, hin] at hheld
        | true =>
          simp only [custody, hin, if_true, Option.some.injEq] at hheld
          exact hother hvalid hin hheld.symm
      have hsound := ht.sound.finish hheld
      rw [← custody_applyCommit hvalid roundSubmitted roundCommitted false] at hsound
      refine ⟨hsound, ?_, ?_⟩
      · unfold applyCommit
        rw [if_neg (not_not.mpr hvalid)]
        exact ht.leads
      · unfold applyCommit
        rw [if_neg (not_not.mpr hvalid)]
        exact ht.key
    · unfold applyCommit
      rw [if_pos hvalid]
      exact ht
  unfold handleCommit
  dsimp only
  split_ifs with hown
  · exact h
  · exact happly { s with term := termNum } ⟨h.sound, h.leads, h.key⟩ (hsafe hown)
  · exact happly s h (hsafe hown)

theorem tick_kept (ctx : Ctx) {s : Local} (h : Kept ctx.self s.toRaftConsensus) :
    Kept ctx.self (tick ctx s).toRaftConsensus := by
  have hdrawn : Kept ctx.self (randMod s.submitRate s).2.toRaftConsensus := ⟨h.sound, h.leads, h.key⟩
  have hnext : ∀ t : Local, Kept ctx.self t.toRaftConsensus → Kept ctx.self
      { t with nextClientRequestId := t.nextClientRequestId + 1 }.toRaftConsensus :=
    fun t ht => ⟨ht.sound, ht.leads, ht.key⟩
  have hgenerated : Kept ctx.self (maybeGenerateClientRequest ctx s).toRaftConsensus := by
    unfold maybeGenerateClientRequest
    dsimp only
    split_ifs
    · exact h
    · exact hdrawn
    · exact onClientRequest_kept (hnext _ hdrawn) _
  unfold tick
  apply forward_kept
  unfold maybeStartElection
  dsimp only
  split_ifs
  · exact hgenerated
  · have hreset : Kept ctx.self
        (resetReplicationState true (maybeGenerateClientRequest ctx s)).toRaftConsensus :=
      requeue_kept hgenerated.sound hgenerated.key
    have hidle := resetReplicationState_idle true (maybeGenerateClientRequest ctx s)
    refine multicast_kept (resetTimer_kept ctx ?_) _
    exact .of_idle hreset.sound hidle

theorem onMessage_kept (ctx : Ctx) {m : Message} {s : Local} (h : Kept ctx.self s.toRaftConsensus)
    (hsafe : CustodySafe ctx s.toRaftConsensus m) : Kept ctx.self (onMessage ctx m s).toRaftConsensus := by
  cases m with
  | clientRequest request => exact onClientRequest_kept h request
  | request request sender termNum => exact handleRequest_kept h hsafe
  | respondRequest request sender termNum round => exact handleRespond_kept h hsafe
  | vote voteFor sender termNum round => exact handleVote_kept h
  | elect sender termNum round => exact handleElect_kept h
  | commit request sender termNum committed submitted => exact handleCommit_kept h hsafe

/-! ## Every run -/

namespace System
variable {cfg : Config} {sys : System}

def CustodySafeStep (cfg : Config) (sys : System) : Event → Prop
  | .receive p pkt _ => CustodySafe (sys.ctx cfg p) (sys.peers p) pkt.message
  | _ => True

instance : (e : Event) → Decidable (CustodySafeStep cfg sys e)
  | .receive p pkt _ =>
    inferInstanceAs (Decidable (CustodySafe (sys.ctx cfg p) (sys.peers p) pkt.message))
  | .nextRound => .isTrue trivial
  | .tick .. => .isTrue trivial

theorem kept_of_reached (h : (machine cfg).ReachedUnder (CustodySafeStep cfg) sys) :
    ∀ p, Kept p (sys.peers p) := by
  refine peers_invariant (P := Kept) ?_ ?_ ?_ h
  · exact fun p jitter => kept_initialPeer cfg jitter p
  · exact fun sys p _ _ hs hsafe => onMessage_kept (sys.ctx cfg p) hs hsafe
  · exact fun sys p _ hs => tick_kept (sys.ctx cfg p) hs

/-- **Conservation of requests.** In a run without the four unsafe steps every known key of every peer is
in exactly one place. -/
theorem known_in_one_place (h : (machine cfg).ReachedUnder (CustodySafeStep cfg) sys) (p : InterfaceId)
    (key : TxKey) (hkey : key ∈ (sys.peers p).knownRequests) :
    (if key ∈ (sys.peers p).committedRequests then 1 else 0) +
      ((sys.peers p).deferredClientRequests.countP fun r => extractKey r = key) +
      ((sys.peers p).pendingClientRequests.countP fun r => extractKey r = key) +
      (if (sys.peers p).hasInFlight ∧ (sys.peers p).inFlightKey = key then 1 else 0) = 1 := by
  rw [← custody_places]
  exact (kept_of_reached h p).sound.one key hkey

/-! ## Two runs -/

/-- After its first commit peer 0 knows two requests: one is committed, the next in flight. -/
theorem known_in_one_place_oneCommit :
    ∃ sys, (machine { committee := .ofSize 3 }).ReachedUnder (CustodySafeStep { committee := .ofSize 3 })
        sys ∧ (sys.peers 0).knownRequests = {(0, 0), (0, 1)} ∧
      (if (0, 1) ∈ (sys.peers 0).committedRequests then 1 else 0) +
        ((sys.peers 0).deferredClientRequests.countP fun r => extractKey r = (0, 1)) +
        ((sys.peers 0).pendingClientRequests.countP fun r => extractKey r = (0, 1)) +
        (if (sys.peers 0).hasInFlight ∧ (sys.peers 0).inFlightKey = (0, 1) then 1 else 0) = 1 := by
  have hrun : ((machine { committee := .ofSize 3 }).runUnder (CustodySafeStep { committee := .ofSize 3 })
      (fresh { committee := .ofSize 3 } fun _ => 0) oneCommit).map
        (fun sys => (sys.peers 0).knownRequests) = some {(0, 0), (0, 1)} := by
    decide +kernel
  obtain ⟨sys, hsys, hknown⟩ := Option.map_eq_some_iff.mp hrun
  have hreached := Lib.Machine.reachedUnder_of_runUnder
    (.start (initial_fresh fun _ => by decide)) hsys
  exact ⟨sys, hreached, hknown, known_in_one_place hreached 0 (0, 1) (by rw [hknown]; decide)⟩

/-- Peer 0 has a request in flight when peer 1 is elected by the other three; the first request of peer 1
reaches it before the election message. -/
def leaderOvertaken : List Event :=
  [.tick 0 [0, 4]] ++ List.replicate 100 .nextRound ++
  [.tick 1 [1, 4], .nextRound, .receive 2 ⟨1, 2, .elect 1 1 100⟩ [], .receive 3 ⟨1, 3, .elect 1 1 100⟩ [],
   .receive 4 ⟨1, 4, .elect 1 1 100⟩ [], .nextRound, .receive 1 ⟨2, 1, .vote 1 2 1 100⟩ [],
   .receive 1 ⟨3, 1, .vote 1 3 1 100⟩ [], .receive 1 ⟨4, 1, .vote 1 4 1 100⟩ [], .nextRound,
   .receive 0 ⟨1, 0, .request { submitterId := some 1, clientSeq := some 0, roundSubmitted := some 102 }
     1 1⟩ []]

theorem leaderOvertaken_loses_request :
    ¬ ∀ (cfg : Config) (sys : System), (machine cfg).Reached sys → ∀ p, ∀ key ∈ (sys.peers p).knownRequests,
      (if key ∈ (sys.peers p).committedRequests then 1 else 0) +
        ((sys.peers p).deferredClientRequests.countP fun r => extractKey r = key) +
        ((sys.peers p).pendingClientRequests.countP fun r => extractKey r = key) +
        (if (sys.peers p).hasInFlight ∧ (sys.peers p).inFlightKey = key then 1 else 0) = 1 := by
  intro hconserved
  have hrun : ((machine { committee := .ofSize 5 }).run (fresh { committee := .ofSize 5 } fun _ => 0)
      leaderOvertaken).map (fun sys => decide ((0, 0) ∈ (sys.peers 0).knownRequests ∧
        (custody (sys.peers 0)).places (0, 0) = 0)) = some true := by
    decide +kernel
  obtain ⟨sys, hsys, hlost⟩ := Option.map_eq_some_iff.mp hrun
  have hreached := Lib.Machine.reached_of_run (.start (initial_fresh fun _ => by decide)) hsys
  obtain ⟨hknown, hplaces⟩ := of_decide_eq_true hlost
  have hone := hconserved _ sys hreached 0 (0, 0) hknown
  rw [← custody_places, hplaces] at hone
  exact absurd hone (by decide)

end System

end Quantas.Raft
