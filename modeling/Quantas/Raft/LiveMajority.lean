import Quantas.Raft.Election
import Quantas.Raft.Replication

/-!
# Raft: the votes and replies of a majority

A peer is not its own neighbour, so it never hears its own election or request message, and its votes and
replies are those of other members. `hasQuorum` asks for more than half of the committee among them: a
majority `S` suffices if its members other than the peer itself are more than half of the committee
(`suffices_iff`).

`Tallied` bounds what a peer has counted while it has not passed a quorum; every handler keeps it. The rest
follows the votes, or the replies, that one peer handles while the others do as they like.
-/

namespace Quantas.Raft

variable {ctx : Ctx}

/-! ## Replies are counted by one handler -/

/-- From `s` to `s'` no reply is counted; replies may be erased. -/
def Forgets (s s' : RaftConsensus) : Prop :=
  ∀ key, (s'.replies key).getD [] = (s.replies key).getD [] ∨ (s'.replies key).getD [] = []

namespace Forgets
variable {a b c : RaftConsensus}

theorem of_eq (h : b.replies = a.replies) : Forgets a b := by
  intro key
  left
  rw [h]

theorem of_update {key : TxKey} {l : Option (List InterfaceId)}
    (h : b.replies = Function.update a.replies key l)
    (hl : l.getD [] = (a.replies key).getD [] ∨ l.getD [] = []) : Forgets a b := by
  intro k
  rw [h]
  by_cases hk : k = key
  · subst hk
    rw [Function.update_self]
    exact hl
  · left
    rw [Function.update_of_ne hk]

theorem of_erase {key : TxKey} (h : b.replies = Function.update a.replies key none) : Forgets a b :=
  of_update h (.inr rfl)

theorem trans (hab : Forgets a b) (hbc : Forgets b c) : Forgets a c := by
  intro key
  rcases hbc key with h | h
  · rw [h]
    exact hab key
  · exact .inr h

end Forgets

theorem resetTimer_replies (ctx : Ctx) (s : Local) : (resetTimer ctx s).replies = s.replies := by
  unfold resetTimer randMod
  split_ifs <;> rfl

theorem tryForwardDeferredRequests_replies (ctx : Ctx) (s : Local) :
    (tryForwardDeferredRequests ctx s).replies = s.replies := by
  by_cases hleads : s.leaderId = ctx.self
  · rw [tryForwardDeferredRequests_leader hleads]
  · obtain ⟨ds, out, heq, -⟩ := tryForwardDeferredRequests_follower hleads
    rw [heq]

theorem enqueueDeferred_replies (request : Request) (s : Local) :
    (enqueueDeferred request s).replies = s.replies := by
  unfold enqueueDeferred
  split_ifs <;> rfl

theorem completeRequest_replies (request : Request) (s : Local) :
    (completeRequest ctx request s).2.replies = s.replies := by
  unfold completeRequest
  cases request.clientSeq <;> rfl

theorem replicateFirst_forgets (ctx : Ctx) (rs : List Request) (s : Local) :
    Forgets s.toRaftConsensus (replicateFirst ctx rs s).toRaftConsensus := by
  induction rs with
  | nil => exact .of_eq rfl
  | cons r rs ih =>
    rw [replicateFirst]
    dsimp only
    by_cases hgone : ¬ keyValid (extractKey r) ∨ extractKey r ∈ s.committedRequests
    · rw [if_pos hgone]
      exact ih
    · rw [if_neg hgone]
      apply Forgets.of_update
      · rw [resetTimer_replies, multicast_eq]
      · exact .inl rfl

theorem acceptClientRequest_forgets {start : Local → Local}
    (hstart : ∀ s, Forgets s.toRaftConsensus (start s).toRaftConsensus) (request : Request) (s : Local) :
    Forgets s.toRaftConsensus (acceptClientRequest ctx start request s).toRaftConsensus := by
  have hqueued : Forgets s.toRaftConsensus (tryForwardDeferredRequests ctx (enqueueDeferred
      (completeRequest ctx request s).1 (completeRequest ctx request s).2)).toRaftConsensus := by
    apply Forgets.of_eq
    rw [tryForwardDeferredRequests_replies, enqueueDeferred_replies, completeRequest_replies]
  unfold acceptClientRequest
  dsimp only
  split_ifs
  · exact hqueued.trans (hstart _)
  · exact hqueued

theorem tryStartReplication_forgets (ctx : Ctx) (fuel : Nat) (s : Local) :
    Forgets s.toRaftConsensus (tryStartReplication ctx fuel s).toRaftConsensus := by
  induction fuel generalizing s with
  | zero =>
    unfold tryStartReplication
    split_ifs
    · exact .of_eq rfl
    · exact .of_eq rfl
    · exact replicateFirst_forgets ctx _ s
  | succ fuel ih =>
    unfold tryStartReplication
    split_ifs
    · exact .of_eq rfl
    · refine .trans ?_ (replicateFirst_forgets ctx _ _)
      exact acceptClientRequest_forgets (fun s => ih s) (freshRequest ctx s) { s with
        nextClientRequestId := s.nextClientRequestId + 1 }
    · exact replicateFirst_forgets ctx _ s

theorem startReplication_forgets (ctx : Ctx) (s : Local) :
    Forgets s.toRaftConsensus (startReplication ctx s).toRaftConsensus :=
  tryStartReplication_forgets ctx _ s

theorem onClientRequest_forgets (ctx : Ctx) (request : Request) (s : Local) :
    Forgets s.toRaftConsensus (onClientRequest ctx request s).toRaftConsensus :=
  acceptClientRequest_forgets (startReplication_forgets ctx) request s

theorem resetReplicationState_replies (requeue : Bool) (s : Local) :
    (resetReplicationState requeue s).replies =
      if s.hasInFlight ∧ keyValid s.inFlightKey then Function.update s.replies s.inFlightKey none
      else s.replies := by
  unfold resetReplicationState
  dsimp only
  split_ifs <;> rfl

theorem resetReplicationState_forgets (requeue : Bool) (s : Local) :
    Forgets s.toRaftConsensus (resetReplicationState requeue s).toRaftConsensus := by
  have hreplies := resetReplicationState_replies requeue s
  by_cases hin : s.hasInFlight ∧ keyValid s.inFlightKey
  · rw [if_pos hin] at hreplies
    exact .of_erase hreplies
  · rw [if_neg hin] at hreplies
    exact .of_eq hreplies

theorem applyCommit_replies {request : Request} (hvalid : keyValid (extractKey request))
    (submitted committed : Int) (skip : Bool) (s : Local) :
    (applyCommit request submitted committed skip s).replies =
      Function.update s.replies (extractKey request) none := by
  unfold applyCommit
  rw [if_neg (not_not.mpr hvalid)]
  cases skip <;> rfl

theorem applyCommit_forgets (request : Request) (submitted committed : Int) (skip : Bool) (s : Local) :
    Forgets s.toRaftConsensus (applyCommit request submitted committed skip s).toRaftConsensus := by
  by_cases hvalid : keyValid (extractKey request) = true
  · exact .of_erase (applyCommit_replies hvalid submitted committed skip s)
  · unfold applyCommit
    rw [if_pos hvalid]
    exact .of_eq rfl

theorem confirmRequest_spec (ctx : Ctx) {request : Request} (hvalid : keyValid (extractKey request)) (submitted : Int)
    (s : Local) :
    Forgets s.toRaftConsensus (confirmRequest ctx request submitted s).toRaftConsensus ∧
      ((confirmRequest ctx request submitted s).replies (extractKey request)).getD [] = [] ∧
      (confirmRequest ctx request submitted s).committedRequests =
        insert (extractKey request) s.committedRequests := by
  have hforgets : Forgets (applyCommit request submitted ctx.round true
      (pushConfirmed request submitted ctx.round s)).toRaftConsensus
      (confirmRequest ctx request submitted s).toRaftConsensus := by
    unfold confirmRequest
    refine .trans ?_ (startReplication_forgets ctx _)
    rw [multicast_eq]
    exact .of_eq rfl
  have hempty : ((applyCommit request submitted ctx.round true
      (pushConfirmed request submitted ctx.round s)).replies (extractKey request)).getD [] = [] := by
    rw [applyCommit_replies hvalid, Function.update_self, Option.getD_none]
  refine ⟨?_, ?_, ?_⟩
  · exact (applyCommit_forgets request submitted ctx.round true
      (pushConfirmed request submitted ctx.round s)).trans hforgets
  · rcases hforgets (extractKey request) with h | h
    · rw [h, hempty]
    · exact h
  · obtain ⟨t, ht, hrest⟩ := confirmRequest_replicates ctx request submitted s
    rw [hrest.committedRequests, ht]
    unfold applyCommit
    rw [if_neg (not_not.mpr hvalid)]
    rfl

/-! ## What is counted stays below the quorum -/

/-- A peer that has not passed a quorum has counted at most `quorumThreshold` votes and as many replies. -/
structure Tallied (bound : Nat) (s : RaftConsensus) : Prop where
  votes : s.votes.length ≤ bound
  replies : ∀ key, ((s.replies key).getD []).length ≤ bound

theorem Tallied.forget {bound : Nat} {s s' : RaftConsensus} (h : Tallied bound s)
    (hvotes : s'.votes = s.votes ∨ s'.votes = []) (hreplies : Forgets s s') : Tallied bound s' := by
  constructor
  · rcases hvotes with hv | hv
    · rw [hv]
      exact h.votes
    · rw [hv]
      exact Nat.zero_le bound
  · intro key
    rcases hreplies key with hr | hr
    · rw [hr]
      exact h.replies key
    · rw [hr]
      exact Nat.zero_le bound

theorem not_hasQuorum {count : Nat} : ¬ hasQuorum ctx count = true ↔ count ≤ quorumThreshold ctx := by
  rw [hasQuorum, decide_eq_true_eq, not_lt]

theorem followSender_forgets (ctx : Ctx) (sender : InterfaceId) (termNum : Int) (s : Local) :
    Forgets s.toRaftConsensus (followSender ctx sender termNum s).toRaftConsensus := by
  unfold followSender
  dsimp only
  split_ifs
  · refine .trans ?_ (.of_eq (resetTimer_replies ctx _))
    exact resetReplicationState_forgets false { s with term := termNum, leaderId := sender }
  · exact .of_eq (resetTimer_replies ctx _)
  · exact .of_eq rfl

theorem handleRequest_forgets (request : Request) (sender : InterfaceId) (termNum : Int) (s : Local) :
    Forgets s.toRaftConsensus (handleRequest ctx request sender termNum s).toRaftConsensus := by
  have hfollow := followSender_forgets ctx sender termNum s
  unfold handleRequest
  dsimp only
  by_cases hinvalid : termNum < 0 ∨ sender = NO_PEER_ID
  · rw [if_pos hinvalid]
    exact .of_eq rfl
  rw [if_neg hinvalid]
  by_cases hvalid : ¬ keyValid (extractKey request) = true
  · rw [if_pos hvalid]
    exact hfollow
  · rw [if_neg hvalid, unicastTo_eq]
    exact hfollow.trans (.of_eq (enqueueDeferred_replies request _))

theorem handleElect_forgets (sender : InterfaceId) (termNum roundSubmitted : Int) (s : Local) :
    Forgets s.toRaftConsensus (handleElect ctx sender termNum roundSubmitted s).toRaftConsensus := by
  unfold handleElect
  dsimp only
  split_ifs
  · exact .of_eq rfl
  · rw [unicastTo_eq]
    refine .trans ?_ (.of_eq (resetTimer_replies ctx _))
    exact resetReplicationState_forgets true
      { s with term := termNum, leaderId := NO_PEER_ID, votes := [], candidate := sender }

theorem handleCommit_forgets (request : Request) (sender : InterfaceId)
    (termNum roundCommitted roundSubmitted : Int) (s : Local) : Forgets s.toRaftConsensus
      (handleCommit ctx request sender termNum roundCommitted roundSubmitted s).toRaftConsensus := by
  unfold handleCommit
  dsimp only
  split_ifs
  · exact .of_eq rfl
  · exact applyCommit_forgets request roundSubmitted roundCommitted false { s with term := termNum }
  · exact applyCommit_forgets request roundSubmitted roundCommitted false s

theorem tick_forgets (s : Local) : Forgets s.toRaftConsensus (tick ctx s).toRaftConsensus := by
  have hgenerate : Forgets s.toRaftConsensus (maybeGenerateClientRequest ctx s).toRaftConsensus := by
    unfold maybeGenerateClientRequest
    dsimp only
    split_ifs
    · exact .of_eq rfl
    · exact .of_eq rfl
    · exact onClientRequest_forgets ctx _ { (randMod s.submitRate s).2 with
        nextClientRequestId := (randMod s.submitRate s).2.nextClientRequestId + 1 }
  unfold tick
  refine .trans (hgenerate.trans ?_) (.of_eq (tryForwardDeferredRequests_replies ctx _))
  unfold maybeStartElection
  dsimp only
  split_ifs
  · exact .of_eq rfl
  · rw [multicast_eq]
    refine .trans ?_ (.of_eq (resetTimer_replies ctx _))
    exact resetReplicationState_forgets true (maybeGenerateClientRequest ctx s)

theorem handleVote_cases (ctx : Ctx) (voteFor sender : InterfaceId) (s : Local) :
    (handleVote ctx voteFor sender s = s ∧
      (s.leaderId = ctx.self ∨ voteFor ≠ ctx.self ∨ sender = NO_PEER_ID ∨ sender ∈ s.votes)) ∨
    (handleVote ctx voteFor sender s = { s with votes := s.votes ++ [sender] } ∧
      (s.votes ++ [sender]).length ≤ quorumThreshold ctx) ∨
    ((handleVote ctx voteFor sender s).leaderId = ctx.self ∧ (handleVote ctx voteFor sender s).votes = [] ∧
      Forgets s.toRaftConsensus (handleVote ctx voteFor sender s).toRaftConsensus) := by
  unfold handleVote
  by_cases hleads : s.leaderId = ctx.self
  · rw [if_pos hleads]
    exact .inl ⟨rfl, .inl hleads⟩
  by_cases hmeant : voteFor ≠ ctx.self ∨ sender = NO_PEER_ID
  · rw [if_neg hleads, if_pos hmeant]
    exact .inl ⟨rfl, .inr (hmeant.imp_right .inl)⟩
  by_cases hcounted : sender ∈ s.votes
  · rw [if_neg hleads, if_neg hmeant, if_pos hcounted]
    exact .inl ⟨rfl, .inr (.inr (.inr hcounted))⟩
  rw [if_neg hleads, if_neg hmeant, if_neg hcounted]
  dsimp only
  by_cases hquorum : hasQuorum ctx (s.votes ++ [sender]).length = true
  · rw [if_pos hquorum]
    right; right
    set won : Local := { resetReplicationState true { resetTimer ctx { s with votes := s.votes ++ [sender] } with
      leaderId := ctx.self, candidate := NO_PEER_ID, votes := [] } with
      leaderChanges := (resetReplicationState true { resetTimer ctx { s with votes := s.votes ++ [sender] }
        with leaderId := ctx.self, candidate := NO_PEER_ID, votes := [] }).leaderChanges + 1 } with hwon
    have hkept : Replicates ctx won (startReplication ctx (tryForwardDeferredRequests ctx won)) :=
      (tryForwardDeferredRequests_replicates ctx won).trans (startReplication_replicates ctx _)
    have hreset := resetReplicationState_replicates ctx true
      { resetTimer ctx { s with votes := s.votes ++ [sender] } with
        leaderId := ctx.self, candidate := NO_PEER_ID, votes := [] }
    refine ⟨hkept.leaderId.trans hreset.leaderId, hkept.votes.trans hreset.votes, ?_⟩
    have htimer : Forgets s.toRaftConsensus
        { resetTimer ctx { s with votes := s.votes ++ [sender] } with
          leaderId := ctx.self, candidate := NO_PEER_ID, votes := [] }.toRaftConsensus :=
      .of_eq (resetTimer_replies ctx { s with votes := s.votes ++ [sender] })
    refine (htimer.trans (resetReplicationState_forgets true _)).trans ?_
    have hforward : Forgets won.toRaftConsensus (tryForwardDeferredRequests ctx won).toRaftConsensus :=
      .of_eq (tryForwardDeferredRequests_replies ctx won)
    exact Forgets.trans (.of_eq rfl) (hforward.trans (startReplication_forgets ctx _))
  · rw [if_neg hquorum]
    exact .inr (.inl ⟨rfl, not_hasQuorum.mp hquorum⟩)

theorem handleRespond_counts (ctx : Ctx) (request : Request) (sender : InterfaceId) (s : Local) :
    (handleRespond ctx request sender s = s ∧
      (s.leaderId ≠ ctx.self ∨ ¬ s.hasInFlight ∨ extractKey request ≠ s.inFlightKey ∨ sender = NO_PEER_ID ∨
        sender ∈ (s.replies (extractKey request)).getD [])) ∨
    (handleRespond ctx request sender s = { s with
        replies := Function.update s.replies (extractKey request)
          (some ((s.replies (extractKey request)).getD [] ++ [sender])) } ∧
      ((s.replies (extractKey request)).getD [] ++ [sender]).length ≤ quorumThreshold ctx) ∨
    (s.hasInFlight = true ∧ extractKey request = s.inFlightKey ∧
      ∃ submitted, handleRespond ctx request sender s = confirmRequest ctx request submitted { s with
        replies := Function.update s.replies (extractKey request)
          (some ((s.replies (extractKey request)).getD [] ++ [sender])) }) := by
  unfold handleRespond
  dsimp only
  by_cases hleads : s.leaderId ≠ ctx.self
  · rw [if_pos hleads]
    exact .inl ⟨rfl, .inl hleads⟩
  rw [if_neg hleads]
  by_cases hkey : ¬ s.hasInFlight = true ∨ extractKey request ≠ s.inFlightKey
  · rw [if_pos hkey]
    exact .inl ⟨rfl, .inr (hkey.imp_right .inl)⟩
  rw [if_neg hkey]
  rw [not_or, not_not, not_not] at hkey
  by_cases hsender : sender = NO_PEER_ID
  · rw [if_pos hsender]
    exact .inl ⟨rfl, .inr (.inr (.inr (.inl hsender)))⟩
  rw [if_neg hsender]
  by_cases hcounted : sender ∈ (s.replies (extractKey request)).getD []
  · rw [if_pos hcounted]
    exact .inl ⟨rfl, .inr (.inr (.inr (.inr hcounted)))⟩
  rw [if_neg hcounted]
  by_cases hquorum : hasQuorum ctx ((s.replies (extractKey request)).getD [] ++ [sender]).length = true
  · rw [if_pos hquorum]
    exact .inr (.inr ⟨hkey.1, hkey.2, _, rfl⟩)
  · rw [if_neg hquorum]
    exact .inr (.inl ⟨rfl, not_hasQuorum.mp hquorum⟩)

theorem onMessage_tallied (ctx : Ctx) {m : Message} {s : Local} (hvalid : InFlightValid s.toRaftConsensus)
    (h : Tallied (quorumThreshold ctx) s.toRaftConsensus) :
    Tallied (quorumThreshold ctx) (onMessage ctx m s).toRaftConsensus := by
  cases m with
  | clientRequest request =>
    exact h.forget (.inl (onClientRequest_replicates ctx request s).votes) (onClientRequest_forgets ctx _ s)
  | request request sender termNum =>
    refine h.forget ?_ (handleRequest_forgets request sender termNum s)
    rcases handleRequest_outcome ctx request sender termNum s with hout | ⟨-, hout⟩
    · exact .inl hout.votes
    · exact .inr hout.votes
  | respondRequest request sender termNum round =>
    rw [onMessage]
    rcases handleRespond_counts ctx request sender s with ⟨heq, -⟩ | ⟨heq, hlength⟩ |
      ⟨hin, hkey, submitted, heq⟩
    · rw [heq]
      exact h
    · rw [heq]
      refine ⟨h.votes, fun key => ?_⟩
      dsimp only
      by_cases hk : key = extractKey request
      · rw [hk, Function.update_self]
        exact hlength
      · rw [Function.update_of_ne hk]
        exact h.replies key
    · have hkeyValid : keyValid (extractKey request) = true := by
        rw [hkey]
        exact hvalid hin
      obtain ⟨hforgets, hempty, -⟩ := confirmRequest_spec ctx hkeyValid submitted { s with
        replies := Function.update s.replies (extractKey request)
          (some ((s.replies (extractKey request)).getD [] ++ [sender])) }
      have hvotes := (handleRespond_neutral ctx request sender s).votes
      rw [heq] at hvotes ⊢
      refine ⟨by rw [hvotes]; exact h.votes, fun key => ?_⟩
      by_cases hk : key = extractKey request
      · rw [hk, hempty]
        exact Nat.zero_le _
      · rcases hforgets key with hr | hr
        · rw [hr]
          dsimp only
          rw [Function.update_of_ne hk]
          exact h.replies key
        · rw [hr]
          exact Nat.zero_le _
  | vote voteFor sender termNum round =>
    rw [onMessage]
    rcases handleVote_cases ctx voteFor sender s with ⟨heq, -⟩ | ⟨heq, hlength⟩ | ⟨-, hvotes, hforgets⟩
    · rw [heq]
      exact h
    · rw [heq]
      exact ⟨hlength, h.replies⟩
    · exact h.forget (.inr hvotes) hforgets
  | elect sender termNum round =>
    refine h.forget ?_ (handleElect_forgets sender termNum round s)
    rcases handleElect_outcome ctx sender termNum round s with hout | ⟨-, hout⟩
    · exact .inl hout.votes
    · exact .inr hout.votes
  | commit request sender termNum committed submitted =>
    refine h.forget ?_ (handleCommit_forgets request sender termNum committed submitted s)
    rcases handleCommit_outcome ctx request sender termNum committed submitted s with hout | ⟨-, -, hout⟩
    · exact .inl hout.votes
    · exact .inl hout.votes

theorem tick_tallied {bound : Nat} {s : Local} (h : Tallied bound s.toRaftConsensus) :
    Tallied bound (tick ctx s).toRaftConsensus := by
  refine h.forget ?_ (tick_forgets s)
  rcases tick_outcome ctx s with hout | hout
  · exact .inl hout.votes
  · exact .inr hout.votes

namespace System
variable {cfg : Config} {sys : System}

theorem tallied_of_reached (h : (machine cfg).Reached sys) (p : InterfaceId) :
    InFlightValid (sys.peers p) ∧ Tallied (cfg.committee.size / 2) (sys.peers p) := by
  refine peers_invariant (P := fun _ s => InFlightValid s ∧ Tallied (cfg.committee.size / 2) s)
    ?_ ?_ ?_ h p
  · exact fun _ _ => ⟨fun hin => absurd hin Bool.false_ne_true, Nat.zero_le _, fun _ => Nat.zero_le _⟩
  · intro sys p pkt draws hs _
    exact ⟨onMessage_inFlightValid hs.1, onMessage_tallied (sys.ctx cfg p) hs.1 hs.2⟩
  · intro sys p draws hs
    exact ⟨(tick_confirmsNothing _).inFlight hs.1, tick_tallied hs.2⟩

/-! ## What one peer hears -/

/-- The message that peer `p` handles in an event. -/
def handledBy (p : InterfaceId) : Event → Option Message
  | .receive q pkt _ => if q = p then some pkt.message else none
  | _ => none

/-- Peer `p` takes no step in the event, or handles a message that meets `P`. -/
def HandlesOnly (P : Message → Prop) (p : InterfaceId) : Event → Prop
  | .nextRound => True
  | .receive q pkt _ => q = p → P pkt.message
  | .tick q _ => q ≠ p

def IsVote (p q : InterfaceId) (m : Message) : Prop :=
  ∃ termNum round, m = .vote p q termNum round

/-- The reply of `q` to the request message for `key`. -/
def IsReply (key : TxKey) (q : InterfaceId) (m : Message) : Prop :=
  ∃ request termNum round, m = .respondRequest request q termNum round ∧ extractKey request = key

theorem step_handlesOnly {P : Message → Prop} {p : InterfaceId} {e : Event} {sys' : System}
    (hstep : step cfg sys e = some sys') (honly : HandlesOnly P p e) :
    (sys'.peers p = sys.peers p ∧ handledBy p e = none) ∨
    ∃ m draws, handledBy p e = some m ∧ P m ∧
      sys'.peers p = (onMessage (sys.ctx cfg p) m (sys.start p draws)).toRaftConsensus := by
  rcases step_cases hstep with ⟨rfl, rfl⟩ | ⟨q, pkt, draws, rfl, -, -, -, rfl⟩ | ⟨q, draws, rfl, -, rfl⟩
  · exact .inl ⟨rfl, rfl⟩
  · by_cases hq : q = p
    · subst hq
      exact .inr ⟨pkt.message, draws, if_pos rfl, honly rfl, after_self⟩
    · exact .inl ⟨after_other (Ne.symm hq), if_neg hq⟩
  · exact .inl ⟨after_other (Ne.symm honly), rfl⟩

theorem run_keeps {p : InterfaceId} {P : Message → Prop} {Q : RaftConsensus → Prop}
    (hkeep : ∀ (sys : System) m draws, P m → Q (sys.peers p) →
      Q (onMessage (sys.ctx cfg p) m (sys.start p draws)).toRaftConsensus)
    (es : List Event) {sys sys' : System} (hrun : (machine cfg).run sys es = some sys')
    (honly : ∀ e ∈ es, HandlesOnly P p e) (hstart : Q (sys.peers p)) : Q (sys'.peers p) := by
  induction es generalizing sys with
  | nil => exact Option.some.inj hrun ▸ hstart
  | cons e es ih =>
    obtain ⟨t, ht, hrest⟩ := Option.bind_eq_some_iff.mp hrun
    refine ih hrest (fun e he => honly e (List.mem_cons_of_mem _ he)) ?_
    rcases step_handlesOnly ht (honly e List.mem_cons_self) with ⟨hsame, -⟩ | ⟨m, draws, -, hm, heq⟩
    · rw [hsame]
      exact hstart
    · rw [heq]
      exact hkeep sys m draws hm hstart

theorem run_hears {p : InterfaceId} (Of : InterfaceId → Message → Prop) (Done Open : RaftConsensus → Prop)
    (heard : RaftConsensus → List InterfaceId)
    (hdone : ∀ (sys : System) m draws, (∃ q, Of q m) → Done (sys.peers p) →
      Done (onMessage (sys.ctx cfg p) m (sys.start p draws)).toRaftConsensus)
    (hopen : ∀ (sys : System) m draws, (∃ q, Of q m) → Open (sys.peers p) →
      Done (onMessage (sys.ctx cfg p) m (sys.start p draws)).toRaftConsensus ∨
      (Open (onMessage (sys.ctx cfg p) m (sys.start p draws)).toRaftConsensus ∧
        ∀ q, q ≠ NO_PEER_ID → (q ∈ heard (sys.peers p) ∨ Of q m) →
          q ∈ heard (onMessage (sys.ctx cfg p) m (sys.start p draws)).toRaftConsensus))
    (es : List Event) {sys sys' : System} (hrun : (machine cfg).run sys es = some sys')
    (honly : ∀ e ∈ es, HandlesOnly (fun m => ∃ q, Of q m) p e) (hstart : Open (sys.peers p)) :
    Done (sys'.peers p) ∨ (Open (sys'.peers p) ∧ ∀ q, q ≠ NO_PEER_ID →
      (q ∈ heard (sys.peers p) ∨ ∃ e ∈ es, ∃ m, handledBy p e = some m ∧ Of q m) →
      q ∈ heard (sys'.peers p)) := by
  induction es generalizing sys with
  | nil =>
    obtain rfl := Option.some.inj hrun
    refine .inr ⟨hstart, fun q _ hq => ?_⟩
    rcases hq with hq | ⟨e, he, -⟩
    · exact hq
    · exact absurd he List.not_mem_nil
  | cons e es ih =>
    obtain ⟨t, ht, hrest⟩ := Option.bind_eq_some_iff.mp hrun
    have honly' : ∀ e ∈ es, HandlesOnly (fun m => ∃ q, Of q m) p e :=
      fun e he => honly e (List.mem_cons_of_mem _ he)
    -- the step leaves the peer alone, or it counts the message
    have hstep : Done (t.peers p) ∨ (Open (t.peers p) ∧ ∀ q, q ≠ NO_PEER_ID →
        (q ∈ heard (sys.peers p) ∨ ∃ m, handledBy p e = some m ∧ Of q m) → q ∈ heard (t.peers p)) := by
      rcases step_handlesOnly ht (honly e List.mem_cons_self) with ⟨hsame, hnone⟩ |
        ⟨m, draws, hsome, hm, heq⟩
      · rw [hsame, hnone]
        refine .inr ⟨hstart, fun q _ hq => ?_⟩
        rcases hq with hq | ⟨m, hm, -⟩
        · exact hq
        · cases hm
      · rw [heq, hsome]
        rcases hopen sys m draws hm hstart with h | ⟨h, hheard⟩
        · exact .inl h
        · refine .inr ⟨h, fun q hne hq => hheard q hne (hq.imp_right fun hq => ?_)⟩
          obtain ⟨m', hm', hof⟩ := hq
          rw [Option.some.inj hm']
          exact hof
    rcases hstep with hfinished | ⟨hopen', hheard⟩
    · exact .inl (run_keeps hdone es hrest honly' hfinished)
    · rcases ih hrest honly' hopen' with h | ⟨h, hrestHeard⟩
      · exact .inl h
      · refine .inr ⟨h, fun q hne hq => hrestHeard q hne ?_⟩
        rcases hq with hq | ⟨e', he', m, hm, hof⟩
        · exact .inl (hheard q hne (.inl hq))
        · rcases List.mem_cons.mp he' with rfl | he'
          · exact .inl (hheard q hne (.inr ⟨m, hm, hof⟩))
          · exact .inr ⟨e', he', m, hm, hof⟩

/-! ## A majority without the peer -/

theorem card_le_of_heard {S : Finset InterfaceId} {p : InterfaceId} (hp : p ∈ S) {l : List InterfaceId}
    (hl : ∀ q ∈ S, q ≠ p → q ∈ l) : S.card ≤ l.length + 1 := by
  have hsubset : S.erase p ⊆ l.toFinset := by
    intro q hq
    rw [Finset.mem_erase] at hq
    exact List.mem_toFinset.mpr (hl q hq.2 hq.1)
  have hcard := Finset.card_le_card hsubset
  have hle := l.toFinset_card_le
  rw [Finset.card_erase_of_mem hp] at hcard
  omega

variable (cfg) in
/-- In every run a candidate in `S` that receives the votes of the other members of `S` becomes leader. -/
def Elects (S : Finset InterfaceId) : Prop :=
  ∀ (sys sys' : System) (es : List Event), (machine cfg).Reached sys → (machine cfg).run sys es = some sys' →
    ∀ p ∈ S, (sys.peers p).candidate = p → (∀ e ∈ es, HandlesOnly (fun m => ∃ q, IsVote p q m) p e) →
    (∀ q ∈ S, q ≠ p →
      q ∈ (sys.peers p).votes ∨ ∃ e ∈ es, ∃ m, handledBy p e = some m ∧ IsVote p q m) →
    (sys'.peers p).leaderId = p

variable (cfg) in
/-- In every run a leader in `S` that receives the replies of the other members of `S` for its request in
flight confirms it. -/
def Confirms (S : Finset InterfaceId) : Prop :=
  ∀ (sys sys' : System) (es : List Event), (machine cfg).Reached sys → (machine cfg).run sys es = some sys' →
    ∀ p ∈ S, (sys.peers p).leaderId = p → (sys.peers p).hasInFlight = true →
    (∀ e ∈ es, HandlesOnly (fun m => ∃ q, IsReply (sys.peers p).inFlightKey q m) p e) →
    (∀ q ∈ S, q ≠ p → q ∈ ((sys.peers p).replies (sys.peers p).inFlightKey).getD [] ∨
      ∃ e ∈ es, ∃ m, handledBy p e = some m ∧ IsReply (sys.peers p).inFlightKey q m) →
    (sys.peers p).inFlightKey ∈ (sys'.peers p).committedRequests

theorem elects_of_lt {S : Finset InterfaceId} (hS : ∀ p ∈ S, p ∈ cfg.committee.members)
    (hlarge : cfg.committee.size / 2 + 1 < S.card) : Elects cfg S := by
  intro sys sys' es hreached hrun p hp _ honly hheard
  obtain ⟨-, htallied⟩ := tallied_of_reached hreached p
  have hrest := run_hears (IsVote p) (fun s => s.leaderId = p)
    (fun s => s.votes.length ≤ cfg.committee.size / 2) (fun s => s.votes) ?_ ?_ es hrun honly htallied.votes
  · rcases hrest with hleads | ⟨hfew, hall⟩
    · exact hleads
    · have hcard := card_le_of_heard hp fun q hq hne =>
        hall q (cfg.committee.ne_noPeer (hS q hq)) (hheard q hq hne)
      omega
  · -- a leader ignores votes
    rintro sys m draws ⟨q, termNum, round, hm⟩ hleads
    have hignored : handleVote (sys.ctx cfg p) p q (sys.start p draws) = sys.start p draws := if_pos hleads
    rw [hm, onMessage, hignored]
    exact hleads
  · rintro sys m draws ⟨q, termNum, round, hm⟩ hfew
    rw [hm, onMessage]
    rcases handleVote_cases (sys.ctx cfg p) p q (sys.start p draws) with ⟨heq, hwhy⟩ | ⟨heq, hlength⟩ |
      ⟨hleads, -, -⟩
    · rw [heq]
      rcases hwhy with hleads | hother | hnone | hcounted
      · exact .inl hleads
      · exact absurd rfl hother
      · refine .inr ⟨hfew, fun q' hne hq' => ?_⟩
        rcases hq' with hq' | ⟨_, _, hq'⟩
        · exact hq'
        · cases hq'
          exact absurd hnone hne
      · refine .inr ⟨hfew, fun q' hne hq' => ?_⟩
        rcases hq' with hq' | ⟨_, _, hq'⟩
        · exact hq'
        · cases hq'
          exact hcounted
    · rw [heq]
      refine .inr ⟨hlength, fun q' hne hq' => ?_⟩
      rcases hq' with hq' | ⟨_, _, hq'⟩
      · exact List.mem_append_left _ hq'
      · cases hq'
        exact List.mem_append_right _ (List.mem_singleton_self q)
    · exact .inl hleads

/-- A leader with `key` in flight that has counted few replies for it. -/
structure Awaits (bound : Nat) (p : InterfaceId) (key : TxKey) (s : RaftConsensus) : Prop where
  leads : s.leaderId = p
  inFlight : s.hasInFlight = true
  slot : s.inFlightKey = key
  few : ((s.replies key).getD []).length ≤ bound

theorem confirms_of_lt {S : Finset InterfaceId} (hS : ∀ p ∈ S, p ∈ cfg.committee.members)
    (hlarge : cfg.committee.size / 2 + 1 < S.card) : Confirms cfg S := by
  intro sys sys' es hreached hrun p hp hleads hin honly hheard
  obtain ⟨hinFlight, htallied⟩ := tallied_of_reached hreached p
  have hvalid : keyValid (sys.peers p).inFlightKey = true := hinFlight hin
  generalize hkey : (sys.peers p).inFlightKey = key at hvalid honly hheard ⊢
  have hrest := run_hears (IsReply key) (fun s => key ∈ s.committedRequests)
    (Awaits (cfg.committee.size / 2) p key) (fun s => (s.replies key).getD []) ?_ ?_ es hrun honly
    ⟨hleads, hin, hkey, htallied.replies key⟩
  · rcases hrest with hdone | ⟨hawaits, hall⟩
    · exact hdone
    · have hfew := hawaits.few
      have hcard := card_le_of_heard hp fun q hq hne =>
        hall q (cfg.committee.ne_noPeer (hS q hq)) (hheard q hq hne)
      omega
  · -- what is committed stays committed
    rintro sys m draws ⟨q, request, termNum, round, hm, hrequest⟩ hdone
    rw [hm, onMessage]
    rcases handleRespond_counts (sys.ctx cfg p) request q (sys.start p draws) with ⟨heq, -⟩ | ⟨heq, -⟩ |
      ⟨-, -, submitted, heq⟩
    · rw [heq]
      exact hdone
    · rw [heq]
      exact hdone
    · rw [heq, (confirmRequest_spec _ (by rw [hrequest]; exact hvalid) submitted _).2.2]
      exact Finset.mem_insert_of_mem hdone
  · rintro sys m draws ⟨q, request, termNum, round, hm, hrequest⟩ hawaits
    have hof : ∀ q', IsReply key q' m → q' = q := by
      rintro q' ⟨_, _, _, hm', _⟩
      rw [hm] at hm'
      cases hm'
      rfl
    rw [hm] at hof ⊢
    rw [onMessage]
    rcases handleRespond_counts (sys.ctx cfg p) request q (sys.start p draws) with ⟨heq, hwhy⟩ |
      ⟨heq, hlength⟩ | ⟨-, -, submitted, heq⟩
    · rw [heq]
      refine .inr ⟨hawaits, fun q' hne hq' => ?_⟩
      rcases hq' with hq' | hq'
      · exact hq'
      rw [hof q' hq'] at hne ⊢
      rcases hwhy with h | h | h | h | h
      · exact absurd hawaits.leads h
      · exact absurd hawaits.inFlight h
      · exact absurd (hrequest.trans hawaits.slot.symm) h
      · exact absurd h hne
      · rw [hrequest] at h
        exact h
    · rw [hrequest] at heq hlength
      rw [heq]
      have hnow : (Function.update (sys.peers p).replies key
          (some (((sys.peers p).replies key).getD [] ++ [q])) key).getD [] =
          ((sys.peers p).replies key).getD [] ++ [q] := by
        rw [Function.update_self, Option.getD_some]
      refine .inr ⟨⟨hawaits.leads, hawaits.inFlight, hawaits.slot, ?_⟩, fun q' hne hq' => ?_⟩
      · exact hnow.symm ▸ hlength
      · refine hnow.symm ▸ ?_
        rcases hq' with hq' | hq'
        · exact List.mem_append_left _ hq'
        · rw [hof q' hq']
          exact List.mem_append_right _ (List.mem_singleton_self q)
    · left
      rw [heq, (confirmRequest_spec _ (by rw [hrequest]; exact hvalid) submitted _).2.2, hrequest]
      exact Finset.mem_insert_self key _

/-! ## A majority that is one short -/

def defaults (c : Committee) : Config := { committee := c }

section Run
variable {c : Committee}

theorem reached_round (c : Committee) (n : Nat) :
    (machine (defaults c)).Reached { fresh (defaults c) (fun _ => 0) with round := n } := by
  induction n with
  | zero => exact .start (initial_fresh fun _ => by decide)
  | succ n ih => exact .next (e := .nextRound) ih trivial rfl

theorem tick_stands (sys : System) (p : InterfaceId) (hround : sys.round = 100)
    (hfresh : sys.peers p = initialPeer (defaults c) 0) :
    (Raft.tick (sys.ctx (defaults c) p) (sys.start p [1, 0])).candidate = p ∧
    (Raft.tick (sys.ctx (defaults c) p) (sys.start p [1, 0])).leaderId = NO_PEER_ID ∧
    (Raft.tick (sys.ctx (defaults c) p) (sys.start p [1, 0])).votes = [] ∧
    (Raft.tick (sys.ctx (defaults c) p) (sys.start p [1, 0])).outbox =
      (c.members.filter fun q => q ∈ (sys.ctx (defaults c) p).neighbors).map fun q =>
        ⟨p, q, .elect p 1 100⟩ := by
  obtain ⟨round, peers, sent⟩ := sys
  dsimp only at hround hfresh
  subst hround
  have hstart : System.start ⟨100, peers, sent⟩ p [1, 0] =
      { initialPeer (defaults c) 0 with outbox := [], draws := [1, 0] } := by
    unfold start
    dsimp only
    rw [hfresh]
  rw [hstart]
  have hgenerated : maybeGenerateClientRequest (System.ctx (defaults c) ⟨100, peers, sent⟩ p)
      { initialPeer (defaults c) 0 with outbox := [], draws := [1, 0] } =
      { initialPeer (defaults c) 0 with outbox := [], draws := [0] } := rfl
  have hstood : maybeStartElection (System.ctx (defaults c) ⟨100, peers, sent⟩ p)
      { initialPeer (defaults c) 0 with outbox := [], draws := [0] } =
      multicast (System.ctx (defaults c) ⟨100, peers, sent⟩ p) (.elect p 1 100)
        { initialPeer (defaults c) 0 with
          candidate := p, leaderId := NO_PEER_ID, term := 1, timeOutRound := 200
          outbox := [], draws := [] } := rfl
  unfold Raft.tick
  rw [hgenerated, hstood, multicast_eq]
  exact ⟨rfl, rfl, rfl, rfl⟩

theorem onMessage_votes {sys : System} {p q : InterfaceId} (hp : p ∈ c.members) (hne : p ≠ q)
    (hfresh : sys.peers q = initialPeer (defaults c) 0) :
    (onMessage (sys.ctx (defaults c) q) (.elect p 1 100) (sys.start q [])).outbox =
      [⟨q, p, .vote p q 1 100⟩] := by
  have hneighbor : p ∈ (sys.ctx (defaults c) q).neighbors := mem_neighbors.mpr ⟨hp, hne⟩
  have hstart : sys.start q [] = { initialPeer (defaults c) 0 with outbox := [], draws := [] } := by
    rw [start, hfresh]
  have hcounts : ¬ ((1 : Int) ≤ (sys.start q []).term ∨ p = NO_PEER_ID) := by
    rw [hstart]
    exact not_or.mpr ⟨show ¬ (1 : Int) ≤ 0 by decide, c.ne_noPeer hp⟩
  rw [onMessage, handleElect, if_neg hcounts]
  dsimp only
  rw [unicastTo_eq, if_pos hneighbor, hstart]
  rfl

theorem gather {p : InterfaceId} (hp : p ∈ c.members) (qs : List InterfaceId) {sys : System}
    (hnodup : qs.Nodup) (hqs : ∀ q ∈ qs, q ∈ c.members ∧ q ≠ p ∧
      sys.peers q = initialPeer (defaults c) 0 ∧ q ∉ (sys.peers p).votes ∧
      (⟨p, q, .elect p 1 100⟩ : Packet Message) ∈ sys.sent)
    (hfollows : (sys.peers p).leaderId = NO_PEER_ID)
    (hfew : (sys.peers p).votes.length + qs.length ≤ c.size / 2) :
    ∃ es sys', (machine (defaults c)).run sys es = some sys' ∧
      (∀ e ∈ es, HandlesOnly (fun m => ∃ q, IsVote p q m) p e) ∧
      (∀ q ∈ qs, ∃ e ∈ es, ∃ m, handledBy p e = some m ∧ IsVote p q m) ∧
      (sys'.peers p).leaderId = NO_PEER_ID := by
  induction qs generalizing sys with
  | nil =>
    refine ⟨[], sys, rfl, ?_, ?_, hfollows⟩
    · exact fun e he => absurd he List.not_mem_nil
    · exact fun q hq => absurd hq List.not_mem_nil
  | cons q qs ih =>
    obtain ⟨hq, hne, hfresh, hnew, helect⟩ := hqs q List.mem_cons_self
    rw [List.nodup_cons] at hnodup
    rw [List.length_cons] at hfew
    -- `q` handles the election message, and `p` its vote
    set voted := sys.after q (onMessage (sys.ctx (defaults c) q) (.elect p 1 100) (sys.start q []))
      with hvoted
    have hsame : voted.peers p = sys.peers p := after_other hne.symm
    have hpkt : (⟨q, p, .vote p q 1 100⟩ : Packet Message) ∈ voted.sent := by
      apply List.mem_append_right
      rw [onMessage_votes hp hne.symm hfresh]
      exact List.mem_singleton_self _
    have hcounted : handleVote (voted.ctx (defaults c) p) p q (voted.start p []) =
        { voted.start p [] with votes := (sys.peers p).votes ++ [q] } := by
      have hleads : ¬ (voted.start p []).leaderId = (voted.ctx (defaults c) p).self := by
        change ¬ (voted.peers p).leaderId = p
        rw [hsame, hfollows]
        exact (c.ne_noPeer hp).symm
      have hmeant : ¬ (p ≠ (voted.ctx (defaults c) p).self ∨ q = NO_PEER_ID) := by simp [c.ne_noPeer hq]
      have hnew' : q ∉ (voted.start p []).votes := by
        change q ∉ (voted.peers p).votes
        rw [hsame]
        exact hnew
      have hquorum : ¬ hasQuorum (voted.ctx (defaults c) p)
          ((voted.start p []).votes ++ [q]).length = true := by
        change ¬ hasQuorum (voted.ctx (defaults c) p) ((voted.peers p).votes ++ [q]).length = true
        rw [not_hasQuorum, hsame, List.length_append, List.length_singleton]
        change (sys.peers p).votes.length + 1 ≤ c.size / 2
        omega
      unfold handleVote
      rw [if_neg hleads, if_neg hmeant, if_neg hnew']
      dsimp only
      rw [if_neg hquorum]
      change { voted.start p [] with votes := (voted.peers p).votes ++ [q] } = _
      rw [hsame]
    set heard := voted.after p (onMessage (voted.ctx (defaults c) p) (.vote p q 1 100) (voted.start p []))
      with hheard
    have hpeer : (heard.peers p).votes = (sys.peers p).votes ++ [q] ∧
        (heard.peers p).leaderId = NO_PEER_ID := by
      rw [hheard, after_self, onMessage, hcounted]
      refine ⟨rfl, ?_⟩
      change (voted.peers p).leaderId = NO_PEER_ID
      rw [hsame]
      exact hfollows
    have hrest : ∀ q' ∈ qs, q' ∈ c.members ∧ q' ≠ p ∧ heard.peers q' = initialPeer (defaults c) 0 ∧
        q' ∉ (heard.peers p).votes ∧ (⟨p, q', .elect p 1 100⟩ : Packet Message) ∈ heard.sent := by
      intro q' hq'
      obtain ⟨hmem, hne', hfresh', hnew', helect'⟩ := hqs q' (List.mem_cons_of_mem _ hq')
      have hother : q' ≠ q := fun h => hnodup.1 (h ▸ hq')
      refine ⟨hmem, hne', ?_, ?_, ?_⟩
      · rw [hheard, after_other hne', hvoted, after_other hother]
        exact hfresh'
      · rw [hpeer.1]
        simp [hnew', hother]
      · exact List.mem_append_left _ (List.mem_append_left _ helect')
    have hfew' : (heard.peers p).votes.length + qs.length ≤ c.size / 2 := by
      rw [hpeer.1, List.length_append, List.length_singleton]
      omega
    obtain ⟨es, sys', hrun, honly, hall, hend⟩ := ih hnodup.2 hrest hpeer.2 hfew'
    refine ⟨.receive q ⟨p, q, .elect p 1 100⟩ [] :: .receive p ⟨q, p, .vote p q 1 100⟩ [] :: es, sys',
      ?_, ?_, ?_, hend⟩
    · have hfirst : (machine (defaults c)).step sys (.receive q ⟨p, q, .elect p 1 100⟩ []) = some voted :=
        if_pos ⟨hq, helect, rfl⟩
      have hsecond : (machine (defaults c)).step voted (.receive p ⟨q, p, .vote p q 1 100⟩ []) = some heard :=
        if_pos ⟨hp, hpkt, rfl⟩
      rw [Lib.Machine.run, hfirst, Option.bind_some, Lib.Machine.run, hsecond, Option.bind_some]
      exact hrun
    · intro e he
      rcases List.mem_cons.mp he with rfl | he
      · exact fun h => absurd h hne
      rcases List.mem_cons.mp he with rfl | he
      · exact fun _ => ⟨q, 1, 100, rfl⟩
      · exact honly e he
    · intro q' hq'
      rcases List.mem_cons.mp hq' with rfl | hq'
      · exact ⟨_, List.mem_cons_of_mem _ List.mem_cons_self, _, if_pos rfl, 1, 100, rfl⟩
      · obtain ⟨e, he, hm⟩ := hall q' hq'
        exact ⟨e, List.mem_cons_of_mem _ (List.mem_cons_of_mem _ he), hm⟩

theorem not_elects {S : Finset InterfaceId} (hS : ∀ p ∈ S, p ∈ c.members) (hsome : S.Nonempty)
    (hsmall : S.card ≤ c.size / 2 + 1) : ¬ Elects (defaults c) S := by
  intro helects
  obtain ⟨p, hp⟩ := hsome
  have hmember := hS p hp
  have hround := reached_round c 100
  set sys : System := { fresh (defaults c) (fun _ => 0) with round := 100 } with hsys
  obtain ⟨hcandidate, hleader, hvotes, houtbox⟩ := tick_stands (c := c) sys p rfl rfl
  have hstep : (machine (defaults c)).step sys (.tick p [1, 0]) =
      some (sys.after p (Raft.tick (sys.ctx (defaults c) p) (sys.start p [1, 0]))) := if_pos hmember
  have hreached := hround.next trivial hstep
  set stood := sys.after p (Raft.tick (sys.ctx (defaults c) p) (sys.start p [1, 0])) with hstood
  have hpeer : stood.peers p = (Raft.tick (sys.ctx (defaults c) p) (sys.start p [1, 0])).toRaftConsensus :=
    after_self
  have hlength : (S.erase p).toList.length + 1 = S.card := by
    rw [Finset.length_toList, Finset.card_erase_of_mem hp]
    have := Finset.card_pos.mpr ⟨p, hp⟩
    omega
  have hothers : ∀ q ∈ (S.erase p).toList, q ∈ c.members ∧ q ≠ p ∧
      stood.peers q = initialPeer (defaults c) 0 ∧ q ∉ (stood.peers p).votes ∧
      (⟨p, q, .elect p 1 100⟩ : Packet Message) ∈ stood.sent := by
    intro q hq
    rw [Finset.mem_toList, Finset.mem_erase] at hq
    refine ⟨hS q hq.2, hq.1, after_other hq.1, ?_, ?_⟩
    · rw [hpeer, hvotes]
      exact List.not_mem_nil
    · apply List.mem_append_right
      rw [houtbox, List.mem_map]
      refine ⟨q, ?_, rfl⟩
      rw [List.mem_filter, decide_eq_true_eq, mem_neighbors]
      exact ⟨hS q hq.2, hS q hq.2, hq.1⟩
  have hfew : (stood.peers p).votes.length + (S.erase p).toList.length ≤ c.size / 2 := by
    rw [hpeer, hvotes, List.length_nil]
    omega
  obtain ⟨es, sys', hrun, honly, hall, hend⟩ := gather hmember (S.erase p).toList
    (Finset.nodup_toList _) hothers (by rw [hpeer]; exact hleader) hfew
  have hwins := helects stood sys' es hreached hrun p hp (by rw [hpeer]; exact hcandidate) honly
    fun q hq hne => .inr (hall q (by rw [Finset.mem_toList, Finset.mem_erase]; exact ⟨hne, hq⟩))
  exact c.ne_noPeer hmember (hwins.symm.trans hend)

end Run

/-! ## Exactly when a majority suffices -/

theorem onMessage_sends (ctx : Ctx) (m : Message) (s : Local) :
    ∃ l, (onMessage ctx m s).outbox = s.outbox ++ l ∧ ∀ pkt ∈ l, Genuine ctx pkt := by
  have hof : ∀ {s' : Local} {leader term votes E}, Outcome ctx s s' leader term votes E →
      ∃ l, s'.outbox = s.outbox ++ l ∧ ∀ pkt ∈ l, Genuine ctx pkt := by
    intro s' leader term votes E h
    obtain ⟨l, hl, hlp⟩ := h.sends
    exact ⟨l, hl, fun pkt hpkt => (hlp pkt hpkt).1⟩
  cases m with
  | clientRequest request => exact hof (.of_replicates (onClientRequest_replicates ctx request s))
  | request request sender termNum =>
    rcases handleRequest_outcome ctx request sender termNum s with h | ⟨-, h⟩
    · exact hof h
    · exact hof h
  | respondRequest request sender termNum round => exact hof (handleRespond_neutral ctx request sender s)
  | vote voteFor sender termNum round =>
    rcases handleVote_outcome ctx voteFor sender s with h | ⟨-, -, -, -, h | ⟨-, h⟩⟩
    · exact hof h
    · exact hof h
    · exact hof h
  | elect sender termNum round =>
    rcases handleElect_outcome ctx sender termNum round s with h | ⟨-, h⟩
    · exact hof h
    · exact hof h
  | commit request sender termNum committed submitted =>
    rcases handleCommit_outcome ctx request sender termNum committed submitted s with h | ⟨-, -, h⟩
    · exact hof h
    · exact hof h

theorem tick_sends (ctx : Ctx) (s : Local) :
    ∃ l, (Raft.tick ctx s).outbox = s.outbox ++ l ∧ ∀ pkt ∈ l, Genuine ctx pkt := by
  rcases tick_outcome ctx s with h | h
  · obtain ⟨l, hl, hlp⟩ := h.sends
    exact ⟨l, hl, fun pkt hpkt => (hlp pkt hpkt).1⟩
  · obtain ⟨l, hl, hlp⟩ := h.sends
    exact ⟨l, hl, fun pkt hpkt => (hlp pkt hpkt).1⟩

theorem source_ne_target (h : (machine cfg).Reached sys) : ∀ pkt ∈ sys.sent, pkt.source ≠ pkt.target := by
  refine h.invariant (P := fun sys => ∀ pkt ∈ sys.sent, pkt.source ≠ pkt.target) ?_ ?_
  · intro sys hinitial
    rw [hinitial.2.1]
    exact fun pkt hpkt => absurd hpkt List.not_mem_nil
  · intro sys e sys' hs _ hstep
    have hafter : ∀ p draws (r : Local),
        (∃ l, r.outbox = (sys.start p draws).outbox ++ l ∧ ∀ pkt ∈ l, Genuine (sys.ctx cfg p) pkt) →
        ∀ pkt ∈ (sys.after p r).sent, pkt.source ≠ pkt.target := by
      rintro p draws r ⟨l, hl, hgenuine⟩ pkt hpkt
      rcases List.mem_append.mp hpkt with hpkt | hpkt
      · exact hs pkt hpkt
      · rw [hl] at hpkt
        have hpkt := hgenuine pkt hpkt
        rw [hpkt.source]
        exact (mem_neighbors.mp hpkt.target).2.symm
    rcases step_cases hstep with ⟨-, rfl⟩ | ⟨p, pkt, draws, rfl, -, -, -, rfl⟩ | ⟨p, draws, rfl, -, rfl⟩
    · exact hs
    · exact hafter p draws _ (onMessage_sends _ _ _)
    · exact hafter p draws _ (tick_sends _ _)

/-- The members of `S` get by without the others, in every run of the committee. -/
def Suffices (c : Committee) (S : Finset InterfaceId) : Prop :=
  ∀ cfg : Config, cfg.committee = c → Elects cfg S ∧ Confirms cfg S

/-- **A live majority.** A majority `S` of a committee elects its candidates and confirms the requests of
its leaders if and only if its members other than the peer itself are more than half of the committee: no
peer ever hears itself, and `hasQuorum` does not count it. -/
theorem suffices_iff {c : Committee} {S : Finset InterfaceId} (hS : ∀ p ∈ S, p ∈ c.members)
    (hmajority : c.size / 2 < S.card) :
    (∀ cfg sys, cfg.committee = c → (machine cfg).Reached sys →
      ∀ pkt ∈ sys.sent, pkt.source ≠ pkt.target) ∧
    (Suffices c S ↔ c.size / 2 + 1 < S.card) := by
  refine ⟨fun cfg sys _ => source_ne_target, ?_, ?_⟩
  · intro hsuffices
    by_contra hsmall
    have hsome : S.Nonempty := Finset.card_pos.mp (by omega)
    exact not_elects hS hsome (not_lt.mp hsmall) (hsuffices (defaults c) rfl).1
  · intro hlarge cfg hcfg
    subst hcfg
    exact ⟨elects_of_lt hS hlarge, confirms_of_lt hS hlarge⟩

theorem suffices_fourOfFive : Suffices (.ofSize 5) {0, 1, 2, 3} :=
  (suffices_iff (c := .ofSize 5) (S := {0, 1, 2, 3}) (by decide) (by decide)).2.mpr (by decide)

theorem twoOfThree_not_suffice :
    ¬ ∀ (c : Committee) (S : Finset InterfaceId), 1 ≤ c.size → (∀ p ∈ S, p ∈ c.members) →
      c.size / 2 < S.card → Suffices c S := by
  intro hclaim
  have hsuffices := hclaim (.ofSize 3) {0, 1} (by decide) (by decide) (by decide)
  have helects := (hsuffices (defaults (.ofSize 3)) rfl).1
  exact not_elects (c := .ofSize 3) (by decide) ⟨0, by decide⟩ (by decide) helects

end System

end Quantas.Raft
