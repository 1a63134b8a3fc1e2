import Quantas.Raft.Consensus

/-!
# What the replication functions leave alone

Starting, forwarding and queueing requests changes neither the election fields (leader, term, votes) nor
the commit fields (committed keys, confirmed transactions), and sends no vote and no election message.
`Replicates ctx s s'` says so of one run of such a function, from `s` to `s'`; it composes, and every
function that the handlers share has it. Votes and elections come from two handlers only, whose own steps
are spelled out where elections are studied.
-/

namespace Quantas.Raft

namespace Message

/-- The `from_id` of a consensus message. -/
def sender : Message → Option InterfaceId
  | .clientRequest _ => none
  | .request _ from_id _ => some from_id
  | .respondRequest _ from_id _ _ => some from_id
  | .vote _ from_id _ _ => some from_id
  | .elect from_id _ _ => some from_id
  | .commit _ from_id _ _ _ => some from_id

def electoral : Message → Bool
  | .vote .. => true
  | .elect .. => true
  | _ => false

end Message

variable {ctx : Ctx}

/-- A packet that the peer may send: to a neighbour, under its own id. -/
structure Genuine (ctx : Ctx) (p : Packet Message) : Prop where
  source : p.source = ctx.self
  target : p.target ∈ ctx.neighbors
  sender : ∀ q, p.message.sender = some q → q = ctx.self

def InFlightValid (s : RaftConsensus) : Prop := s.hasInFlight = true → keyValid s.inFlightKey = true

/-- A change of the replication state only, with the packets sent on the way. -/
structure Replicates (ctx : Ctx) (s s' : Local) : Prop where
  leaderId : s'.leaderId = s.leaderId
  term : s'.term = s.term
  votes : s'.votes = s.votes
  committedRequests : s'.committedRequests = s.committedRequests
  confirmedTrans : s'.confirmedTrans = s.confirmedTrans
  nextClientRequestId : s.nextClientRequestId ≤ s'.nextClientRequestId
  inFlight : InFlightValid s.toRaftConsensus → InFlightValid s'.toRaftConsensus
  sends : ∃ l, s'.outbox = s.outbox ++ l ∧
    ∀ p ∈ l, Genuine ctx p ∧ p.message.electoral = false

namespace Replicates

theorem refl (s : Local) : Replicates ctx s s := ⟨rfl, rfl, rfl, rfl, rfl, le_rfl, id, [], by simp⟩

theorem trans {a b c : Local} (hab : Replicates ctx a b) (hbc : Replicates ctx b c) :
    Replicates ctx a c := by
  obtain ⟨l, hl, hlp⟩ := hab.sends
  obtain ⟨l', hl', hlp'⟩ := hbc.sends
  refine ⟨hbc.leaderId.trans hab.leaderId, hbc.term.trans hab.term, hbc.votes.trans hab.votes,
    hbc.committedRequests.trans hab.committedRequests, hbc.confirmedTrans.trans hab.confirmedTrans,
    hab.nextClientRequestId.trans hbc.nextClientRequestId, hbc.inFlight ∘ hab.inFlight,
    l ++ l', by rw [hl', hl, List.append_assoc], fun p hp => ?_⟩
  exact (List.mem_append.mp hp).elim (hlp p) (hlp' p)

theorem of_silent {s s' : Local} (hleader : s'.leaderId = s.leaderId) (hterm : s'.term = s.term)
    (hvotes : s'.votes = s.votes) (hcommitted : s'.committedRequests = s.committedRequests)
    (hconfirmed : s'.confirmedTrans = s.confirmedTrans) (houtbox : s'.outbox = s.outbox)
    (hnext : s.nextClientRequestId ≤ s'.nextClientRequestId)
    (hinFlight : InFlightValid s.toRaftConsensus → InFlightValid s'.toRaftConsensus) :
    Replicates ctx s s' :=
  ⟨hleader, hterm, hvotes, hcommitted, hconfirmed, hnext, hinFlight, [], by rw [houtbox, List.append_nil], by simp⟩

end Replicates

/-! ## Sending -/

theorem unicastTo_eq (msg : Message) (dest : InterfaceId) (s : Local) :
    unicastTo ctx msg dest s = { s with
      outbox := s.outbox ++ if dest ∈ ctx.neighbors then [⟨ctx.self, dest, msg⟩] else [] } := by
  unfold unicastTo
  split_ifs <;> simp

theorem multicast_eq (msg : Message) (s : Local) :
    multicast ctx msg s = { s with
      outbox := s.outbox ++
        (ctx.members.filter (· ∈ ctx.neighbors)).map fun dest => ⟨ctx.self, dest, msg⟩ } := by
  suffices h : ∀ (ds : List InterfaceId) (s : Local),
      ds.foldl (fun s dest => unicastTo ctx msg dest s) s = { s with
        outbox := s.outbox ++
          (ds.filter (· ∈ ctx.neighbors)).map fun dest => ⟨ctx.self, dest, msg⟩ } from
    h ctx.members s
  intro ds
  induction ds with
  | nil => intro s; simp
  | cons d ds ih =>
    intro s
    rw [List.foldl_cons, ih, unicastTo_eq]
    by_cases hd : d ∈ ctx.neighbors <;> simp [hd]

theorem genuine_of_sender {msg : Message} (hsender : ∀ q, msg.sender = some q → q = ctx.self)
    {dest : InterfaceId} (hdest : dest ∈ ctx.neighbors) : Genuine ctx ⟨ctx.self, dest, msg⟩ :=
  ⟨rfl, hdest, hsender⟩

theorem unicastTo_replicates {msg : Message} (hsender : ∀ q, msg.sender = some q → q = ctx.self)
    (helectoral : msg.electoral = false) (dest : InterfaceId) (s : Local) :
    Replicates ctx s (unicastTo ctx msg dest s) := by
  rw [unicastTo_eq]
  refine ⟨rfl, rfl, rfl, rfl, rfl, le_rfl, id, _, rfl, fun p hp => ?_⟩
  split_ifs at hp with hdest
  · obtain rfl := List.mem_singleton.mp hp
    exact ⟨genuine_of_sender hsender hdest, helectoral⟩
  · exact absurd hp List.not_mem_nil

theorem multicast_replicates {msg : Message} (hsender : ∀ q, msg.sender = some q → q = ctx.self)
    (helectoral : msg.electoral = false) (s : Local) : Replicates ctx s (multicast ctx msg s) := by
  rw [multicast_eq]
  refine ⟨rfl, rfl, rfl, rfl, rfl, le_rfl, id, _, rfl, fun p hp => ?_⟩
  obtain ⟨dest, hdest, rfl⟩ := List.mem_map.mp hp
  rw [List.mem_filter, decide_eq_true_eq] at hdest
  exact ⟨genuine_of_sender hsender hdest.2, helectoral⟩

/-! ## The shared functions -/

theorem resetTimer_replicates (ctx : Ctx) (s : Local) : Replicates ctx s (resetTimer ctx s) := by
  unfold resetTimer randMod
  split_ifs <;> exact .of_silent rfl rfl rfl rfl rfl rfl le_rfl id

theorem resetReplicationState_replicates (ctx : Ctx) (requeue : Bool) (s : Local) :
    Replicates ctx s (resetReplicationState requeue s) := by
  have hnone : InFlightValid (resetReplicationState requeue s).toRaftConsensus := fun h => by cases h
  unfold resetReplicationState at hnone ⊢
  dsimp only at hnone ⊢
  split_ifs at hnone ⊢ <;> exact .of_silent rfl rfl rfl rfl rfl rfl le_rfl fun _ => hnone

theorem enqueueDeferred_replicates (ctx : Ctx) (request : Request) (s : Local) :
    Replicates ctx s (enqueueDeferred request s) := by
  unfold enqueueDeferred
  split_ifs <;> exact .of_silent rfl rfl rfl rfl rfl rfl le_rfl id

theorem forwardDeferred_replicates (ctx : Ctx) (s : Local) (request : Request) :
    Replicates ctx s (forwardDeferred ctx s request) := by
  unfold forwardDeferred
  split_ifs
  · exact .refl s
  · exact .of_silent rfl rfl rfl rfl rfl rfl le_rfl id
  · exact (unicastTo_replicates (by simp [Message.sender]) rfl s.leaderId s).trans
      (.of_silent rfl rfl rfl rfl rfl rfl le_rfl id)
  · exact .of_silent rfl rfl rfl rfl rfl rfl le_rfl id
  · exact .of_silent rfl rfl rfl rfl rfl rfl le_rfl id

theorem tryForwardDeferredRequests_replicates (ctx : Ctx) (s : Local) :
    Replicates ctx s (tryForwardDeferredRequests ctx s) := by
  suffices h : ∀ (rs : List Request) (s : Local),
      Replicates ctx s (rs.foldl (forwardDeferred ctx) s) by
    have hpopped : Replicates ctx s { s with deferredClientRequests := [] } :=
      .of_silent rfl rfl rfl rfl rfl rfl le_rfl id
    exact hpopped.trans (h s.deferredClientRequests _)
  intro rs
  induction rs with
  | nil => exact .refl
  | cons r rs ih => exact fun s => (forwardDeferred_replicates _ s r).trans (ih _)

theorem replicateFirst_replicates (ctx : Ctx) (rs : List Request) (s : Local) :
    Replicates ctx s (replicateFirst ctx rs s) := by
  induction rs generalizing s with
  | nil => exact .of_silent rfl rfl rfl rfl rfl rfl le_rfl id
  | cons r rs ih =>
    rw [replicateFirst]
    dsimp only
    by_cases hlive : ¬ keyValid (extractKey r) ∨ extractKey r ∈ s.committedRequests
    · rw [if_pos hlive]
      exact ih s
    · rw [if_neg hlive]
      rw [not_or, not_not] at hlive
      refine .trans ?_ (resetTimer_replicates _ _)
      refine .trans ?_ (multicast_replicates (by simp [Message.sender]) rfl _)
      exact .of_silent rfl rfl rfl rfl rfl rfl le_rfl fun _ _ => hlive.1

theorem completeRequest_replicates (ctx : Ctx) (request : Request) (s : Local) :
    Replicates ctx s (completeRequest ctx request s).2 := by
  unfold completeRequest
  cases request.clientSeq with
  | some _ => exact .of_silent rfl rfl rfl rfl rfl rfl le_rfl id
  | none => exact .of_silent rfl rfl rfl rfl rfl rfl (Int.le_add_one le_rfl) id

theorem acceptClientRequest_replicates (ctx : Ctx) {start : Local → Local}
    (hstart : ∀ s, Replicates ctx s (start s)) (request : Request) (s : Local) :
    Replicates ctx s (acceptClientRequest ctx start request s) := by
  have hqueued : Replicates ctx s (tryForwardDeferredRequests ctx
      (enqueueDeferred (completeRequest ctx request s).1 (completeRequest ctx request s).2)) :=
    (completeRequest_replicates _ request s).trans
      ((enqueueDeferred_replicates _ _ _).trans (tryForwardDeferredRequests_replicates _ _))
  unfold acceptClientRequest
  dsimp only
  split_ifs
  · exact hqueued.trans (hstart _)
  · exact hqueued

theorem tryStartReplication_replicates (ctx : Ctx) (fuel : Nat) (s : Local) :
    Replicates ctx s (tryStartReplication ctx fuel s) := by
  induction fuel generalizing s with
  | zero =>
    unfold tryStartReplication
    split_ifs
    · exact .refl s
    · exact .refl s
    · exact replicateFirst_replicates _ _ s
  | succ fuel ih =>
    unfold tryStartReplication
    split_ifs
    · exact .refl s
    · have hnext : Replicates ctx s { s with nextClientRequestId := s.nextClientRequestId + 1 } :=
        .of_silent rfl rfl rfl rfl rfl rfl (Int.le_add_one le_rfl) id
      refine .trans ?_ (replicateFirst_replicates _ _ _)
      exact hnext.trans (acceptClientRequest_replicates _ ih _ _)
    · exact replicateFirst_replicates _ _ s

theorem startReplication_replicates (ctx : Ctx) (s : Local) : Replicates ctx s (startReplication ctx s) :=
  tryStartReplication_replicates _ _ s

theorem onClientRequest_replicates (ctx : Ctx) (request : Request) (s : Local) :
    Replicates ctx s (onClientRequest ctx request s) :=
  acceptClientRequest_replicates _ (startReplication_replicates _) request s

theorem maybeGenerateClientRequest_replicates (ctx : Ctx) (s : Local) :
    Replicates ctx s (maybeGenerateClientRequest ctx s) := by
  have hdrawn : Replicates ctx s (randMod s.submitRate s).2 := .of_silent rfl rfl rfl rfl rfl rfl le_rfl id
  have hnext : ∀ s : Local,
      Replicates ctx s { s with nextClientRequestId := s.nextClientRequestId + 1 } :=
    fun _ => .of_silent rfl rfl rfl rfl rfl rfl (Int.le_add_one le_rfl) id
  unfold maybeGenerateClientRequest
  dsimp only
  split_ifs
  · exact .refl s
  · exact hdrawn
  · exact hdrawn.trans ((hnext _).trans (onClientRequest_replicates _ _ _))

end Quantas.Raft
