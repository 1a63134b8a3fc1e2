import Quantas.Raft.Majority

/-!
# Raft: the numbers of requests

A peer numbers its requests from a counter of its own, so a key that some peer holds, and a key under way,
has a number below the counter of its submitter. `Numbered` says this of a peer inside a handler, where `K`
bounds the keys of the system before the handler ran; every function that the handlers share keeps it, and
the run lemma puts the counters of the system in the place of `K`.
-/

namespace Quantas.Raft

def Message.carried : Message → Option Request
  | .clientRequest r => some r
  | .request r .. => some r
  | .respondRequest r .. => some r
  | .commit r .. => some r
  | .vote .. => none
  | .elect .. => none

/-- Every key that a peer holds, in a queue, a set, a map, the in-flight slot or among its confirmed
requests, satisfies `B`. -/
structure KeysIn (B : TxKey → Prop) (s : RaftConsensus) : Prop where
  known : ∀ key ∈ s.knownRequests, B key
  committed : ∀ key ∈ s.committedRequests, B key
  deferred : ∀ r ∈ s.deferredClientRequests, B (extractKey r)
  pending : ∀ r ∈ s.pendingClientRequests, B (extractKey r)
  inFlightKey : s.hasInFlight = true → B s.inFlightKey
  inFlightRequest : s.hasInFlight = true → B (extractKey s.inFlightRequest)
  replies : ∀ key, s.replies key ≠ none → B key
  submittedRound : ∀ key, s.submittedRound key ≠ none → B key
  confirmed : ∀ c ∈ s.confirmedTrans, B (extractKey c.request)

/-- A key from before the handler, or one that the peer has numbered below `next`. -/
def Below (ctx : Ctx) (K : TxKey → Prop) (next : Int) (key : TxKey) : Prop :=
  K key ∨ (key.1 = ctx.self ∧ key.2 < next)

/-- Inside a handler: the keys that the peer holds, and those that it has sent, are numbered. -/
structure Numbered (ctx : Ctx) (K : TxKey → Prop) (s : Local) : Prop where
  keys : KeysIn (Below ctx K s.nextClientRequestId) s.toRaftConsensus
  sent : ∀ pkt ∈ s.outbox, ∀ r, pkt.message.carried = some r →
    Below ctx K s.nextClientRequestId (extractKey r)

variable {ctx : Ctx} {K : TxKey → Prop} {s : Local}

theorem KeysIn.mono {B B' : TxKey → Prop} {s : RaftConsensus} (h : KeysIn B s)
    (hle : ∀ key, B key → B' key) : KeysIn B' s where
  known key hkey := hle key (h.known key hkey)
  committed key hkey := hle key (h.committed key hkey)
  deferred r hr := hle _ (h.deferred r hr)
  pending r hr := hle _ (h.pending r hr)
  inFlightKey hin := hle _ (h.inFlightKey hin)
  inFlightRequest hin := hle _ (h.inFlightRequest hin)
  replies key hkey := hle key (h.replies key hkey)
  submittedRound key hkey := hle key (h.submittedRound key hkey)
  confirmed c hc := hle _ (h.confirmed c hc)

theorem Below.mono {next next' : Int} {key : TxKey} (h : Below ctx K next key) (hle : next ≤ next') :
    Below ctx K next' key :=
  h.imp_right fun hself => ⟨hself.1, hself.2.trans_le hle⟩

theorem Numbered.raise (h : Numbered ctx K s) :
    Numbered ctx K { s with nextClientRequestId := s.nextClientRequestId + 1 } := by
  have hkeys : KeysIn (Below ctx K (s.nextClientRequestId + 1)) s.toRaftConsensus :=
    h.keys.mono fun _ hkey => hkey.mono (Int.le_add_one le_rfl)
  exact ⟨{ hkeys with }, fun pkt hpkt r hr => (h.sent pkt hpkt r hr).mono (Int.le_add_one le_rfl)⟩

theorem Below.carries {next : Int} {request : Request} (h : Below ctx K next (extractKey request))
    {msg : Message} (hmsg : msg.carried = some request) :
    ∀ r, msg.carried = some r → Below ctx K next (extractKey r) := by
  intro r hr
  obtain rfl := Option.some.inj (hmsg.symm.trans hr)
  exact h

theorem Numbered.election (h : Numbered ctx K s) (leaderId candidate : InterfaceId) (term leaderChanges : Int)
    (votes : List InterfaceId) : Numbered ctx K { s with
      leaderId := leaderId, candidate := candidate, term := term, leaderChanges := leaderChanges,
      votes := votes } :=
  ⟨{ h.keys with }, h.sent⟩

theorem carries_none {B : TxKey → Prop} {msg : Message} (hmsg : msg.carried = none) :
    ∀ r, msg.carried = some r → B (extractKey r) := by
  intro r hr
  rw [hmsg] at hr
  cases hr

/-! ## The functions that the handlers share -/

theorem randMod_numbered (h : Numbered ctx K s) (n : Int) : Numbered ctx K (randMod n s).2 :=
  ⟨h.keys, h.sent⟩

theorem resetTimer_numbered (ctx' : Ctx) (h : Numbered ctx K s) : Numbered ctx K (resetTimer ctx' s) := by
  unfold resetTimer randMod
  split_ifs <;> exact ⟨{ h.keys with }, h.sent⟩

theorem multicast_numbered (h : Numbered ctx K s) {msg : Message}
    (hmsg : ∀ r, msg.carried = some r → Below ctx K s.nextClientRequestId (extractKey r)) :
    Numbered ctx K (multicast ctx msg s) := by
  rw [multicast_eq]
  refine ⟨h.keys, fun pkt hpkt => ?_⟩
  rcases List.mem_append.mp hpkt with hpkt | hpkt
  · exact h.sent pkt hpkt
  · obtain ⟨dest, -, rfl⟩ := List.mem_map.mp hpkt
    exact hmsg

theorem unicastTo_numbered (h : Numbered ctx K s) {msg : Message}
    (hmsg : ∀ r, msg.carried = some r → Below ctx K s.nextClientRequestId (extractKey r))
    (dest : InterfaceId) : Numbered ctx K (unicastTo ctx msg dest s) := by
  rw [unicastTo_eq]
  refine ⟨h.keys, fun pkt hpkt => ?_⟩
  rcases List.mem_append.mp hpkt with hpkt | hpkt
  · exact h.sent pkt hpkt
  · split_ifs at hpkt
    · obtain rfl := List.mem_singleton.mp hpkt
      exact hmsg
    · exact absurd hpkt List.not_mem_nil

theorem update_in {β : Type} {B : TxKey → Prop} {f : TxKey → Option β} (h : ∀ key, f key ≠ none → B key)
    {key : TxKey} {v : Option β} (hv : v ≠ none → B key) :
    ∀ key', Function.update f key v key' ≠ none → B key' := by
  intro key' hkey'
  by_cases hsame : key' = key
  · subst hsame
    rw [Function.update_self] at hkey'
    exact hv hkey'
  · rw [Function.update_of_ne hsame] at hkey'
    exact h key' hkey'

theorem erase_in {β : Type} {B : TxKey → Prop} {f : TxKey → Option β} (h : ∀ key, f key ≠ none → B key)
    (key : TxKey) : ∀ key', Function.update f key none key' ≠ none → B key' :=
  update_in h fun hnone => absurd rfl hnone

theorem resetReplicationState_numbered (h : Numbered ctx K s) (requeue : Bool) :
    Numbered ctx K (resetReplicationState requeue s) := by
  have hreplies := erase_in h.keys.replies s.inFlightKey
  have hrounds := erase_in h.keys.submittedRound s.inFlightKey
  have hidle : ∀ key : TxKey, false = true → Below ctx K s.nextClientRequestId key :=
    fun _ hin => absurd hin Bool.false_ne_true
  have hqueue : s.hasInFlight = true → ∀ r ∈ s.inFlightRequest :: s.pendingClientRequests,
      Below ctx K s.nextClientRequestId (extractKey r) := by
    intro hin r hr
    rcases List.mem_cons.mp hr with rfl | hr
    · exact h.keys.inFlightRequest hin
    · exact h.keys.pending r hr
  unfold resetReplicationState
  dsimp only
  split_ifs with hclear hpush hpush
  · exact ⟨{ h.keys with
      pending := hqueue hpush.1, replies := hreplies, submittedRound := hrounds
      inFlightKey := hidle _, inFlightRequest := hidle _ }, h.sent⟩
  · exact ⟨{ h.keys with
      replies := hreplies, submittedRound := hrounds
      inFlightKey := hidle _, inFlightRequest := hidle _ }, h.sent⟩
  · exact ⟨{ h.keys with
      pending := hqueue hpush.1, inFlightKey := hidle _, inFlightRequest := hidle _ }, h.sent⟩
  · exact ⟨{ h.keys with inFlightKey := hidle _, inFlightRequest := hidle _ }, h.sent⟩

theorem push_in {B : TxKey → Prop} {rs : List Request} (h : ∀ r ∈ rs, B (extractKey r)) {request : Request}
    (hrequest : B (extractKey request)) : ∀ r ∈ rs ++ [request], B (extractKey r) := by
  intro r hr
  rcases List.mem_append.mp hr with hr | hr
  · exact h r hr
  · obtain rfl := List.mem_singleton.mp hr
    exact hrequest

theorem enqueueDeferred_numbered (h : Numbered ctx K s) {request : Request}
    (hrequest : Below ctx K s.nextClientRequestId (extractKey request)) :
    Numbered ctx K (enqueueDeferred request s) := by
  unfold enqueueDeferred
  split_ifs
  · refine ⟨{ h.keys with known := fun key hkey => ?_, deferred := push_in h.keys.deferred hrequest },
      h.sent⟩
    rcases Finset.mem_insert.mp hkey with rfl | hkey
    · exact hrequest
    · exact h.keys.known key hkey
  · exact h

theorem forwardDeferred_numbered (h : Numbered ctx K s) {request : Request}
    (hrequest : Below ctx K s.nextClientRequestId (extractKey request)) :
    Numbered ctx K (forwardDeferred ctx s request) ∧
      (forwardDeferred ctx s request).nextClientRequestId = s.nextClientRequestId := by
  unfold forwardDeferred
  split_ifs
  · exact ⟨h, rfl⟩
  · exact ⟨⟨{ h.keys with pending := push_in h.keys.pending hrequest }, h.sent⟩, rfl⟩
  · have hsent : Numbered ctx K (unicastTo ctx (.clientRequest request) s.leaderId s) :=
      unicastTo_numbered h (hrequest.carries rfl) s.leaderId
    rw [unicastTo_eq] at hsent ⊢
    exact ⟨⟨{ h.keys with deferred := push_in h.keys.deferred hrequest }, hsent.sent⟩, rfl⟩
  · exact ⟨⟨{ h.keys with deferred := push_in h.keys.deferred hrequest }, h.sent⟩, rfl⟩
  · exact ⟨⟨{ h.keys with deferred := push_in h.keys.deferred hrequest }, h.sent⟩, rfl⟩

theorem tryForwardDeferredRequests_numbered (h : Numbered ctx K s) :
    Numbered ctx K (tryForwardDeferredRequests ctx s) ∧
      (tryForwardDeferredRequests ctx s).nextClientRequestId = s.nextClientRequestId := by
  suffices hfold : ∀ (rs : List Request) (t : Local), Numbered ctx K t →
      (∀ r ∈ rs, Below ctx K t.nextClientRequestId (extractKey r)) →
      Numbered ctx K (rs.foldl (forwardDeferred ctx) t) ∧
        (rs.foldl (forwardDeferred ctx) t).nextClientRequestId = t.nextClientRequestId by
    have hpopped : Numbered ctx K { s with deferredClientRequests := [] } :=
      ⟨{ h.keys with deferred := fun r hr => absurd hr List.not_mem_nil }, h.sent⟩
    exact hfold _ _ hpopped h.keys.deferred
  intro rs
  induction rs with
  | nil => exact fun t ht _ => ⟨ht, rfl⟩
  | cons r rs ih =>
    intro t ht hrs
    obtain ⟨hhead, hnext⟩ := forwardDeferred_numbered ht (hrs r List.mem_cons_self)
    obtain ⟨htail, hsame⟩ := ih (forwardDeferred ctx t r) hhead fun r' hr' => by
      rw [hnext]
      exact hrs r' (List.mem_cons_of_mem r hr')
    exact ⟨htail, hsame.trans hnext⟩

theorem replicateFirst_numbered (rs : List Request) (h : Numbered ctx K s)
    (hrs : ∀ r ∈ rs, Below ctx K s.nextClientRequestId (extractKey r)) :
    Numbered ctx K (replicateFirst ctx rs s) := by
  induction rs with
  | nil => exact ⟨{ h.keys with pending := fun r hr => absurd hr List.not_mem_nil }, h.sent⟩
  | cons r rs ih =>
    have hr := hrs r List.mem_cons_self
    have hrest : ∀ r' ∈ rs, Below ctx K s.nextClientRequestId (extractKey r') :=
      fun r' hr' => hrs r' (List.mem_cons_of_mem r hr')
    rw [replicateFirst]
    dsimp only
    by_cases hgone : ¬ keyValid (extractKey r) ∨ extractKey r ∈ s.committedRequests
    · rw [if_pos hgone]
      exact ih hrest
    rw [if_neg hgone]
    apply resetTimer_numbered
    apply multicast_numbered
    · exact ⟨{ h.keys with
        pending := hrest, inFlightKey := fun _ => hr, inFlightRequest := fun _ => hr
        replies := update_in h.keys.replies fun _ => hr
        submittedRound := update_in h.keys.submittedRound fun _ => hr }, h.sent⟩
    · have hflight : Below ctx K s.nextClientRequestId
          (extractKey { r with roundSubmitted := some ctx.round }) := hr
      exact hflight.carries rfl

/-- The state in which `onClientRequest` calls `tryStartReplication`, when the peer leads in it. -/
def queued (ctx : Ctx) (request : Request) (s : Local) : Local :=
  let r := completeRequest ctx request s
  tryForwardDeferredRequests ctx (enqueueDeferred r.1 r.2)

theorem acceptClientRequest_eq (start : Local → Local) (request : Request) (s : Local) :
    acceptClientRequest ctx start request s =
      if (queued ctx request s).leaderId = ctx.self then start (queued ctx request s)
      else queued ctx request s :=
  rfl

def Complete (ctx : Ctx) (request : Request) (s : Local) : Prop :=
  extractKey (completeRequest ctx request s).1 = extractKey request ∧ (completeRequest ctx request s).2 = s

theorem queued_numbered (h : Numbered ctx K s) {request : Request} (hcomplete : Complete ctx request s)
    (hrequest : Below ctx K s.nextClientRequestId (extractKey request)) :
    Numbered ctx K (queued ctx request s) := by
  obtain ⟨hkey, hsame⟩ := hcomplete
  have henqueued : Numbered ctx K (enqueueDeferred (completeRequest ctx request s).1 s) := by
    apply enqueueDeferred_numbered h
    rw [hkey]
    exact hrequest
  unfold queued
  dsimp only
  rw [hsame]
  exact (tryForwardDeferredRequests_numbered henqueued).1

theorem acceptClientRequest_numbered {start : Local → Local}
    (hstart : ∀ s, Numbered ctx K s → Numbered ctx K (start s)) (h : Numbered ctx K s) (request : Request)
    (hcomplete : Complete ctx request s)
    (hrequest : Below ctx K s.nextClientRequestId (extractKey request)) :
    Numbered ctx K (acceptClientRequest ctx start request s) := by
  have hqueued := queued_numbered h hcomplete hrequest
  rw [acceptClientRequest_eq]
  split_ifs
  · exact hstart _ hqueued
  · exact hqueued

theorem freshRequest_below (K : TxKey → Prop) (s : Local) :
    Below ctx K (s.nextClientRequestId + 1) (extractKey (freshRequest ctx s)) :=
  .inr ⟨rfl, Int.lt_succ _⟩

theorem tryStartReplication_numbered (fuel : Nat) (h : Numbered ctx K s) :
    Numbered ctx K (tryStartReplication ctx fuel s) := by
  induction fuel generalizing s with
  | zero =>
    unfold tryStartReplication
    split_ifs
    · exact h
    · exact h
    · exact replicateFirst_numbered _ h h.keys.pending
  | succ fuel ih =>
    unfold tryStartReplication
    split_ifs
    · exact h
    · have haccepted := acceptClientRequest_numbered (fun _ => ih) h.raise (freshRequest ctx s) ⟨rfl, rfl⟩
        (freshRequest_below K s)
      exact replicateFirst_numbered _ haccepted haccepted.keys.pending
    · exact replicateFirst_numbered _ h h.keys.pending

theorem onClientRequest_numbered (h : Numbered ctx K s) {request : Request}
    (hcomplete : Complete ctx request s)
    (hrequest : Below ctx K s.nextClientRequestId (extractKey request)) :
    Numbered ctx K (onClientRequest ctx request s) :=
  acceptClientRequest_numbered (fun _ => tryStartReplication_numbered _) h request hcomplete hrequest

theorem pushConfirmed_numbered (h : Numbered ctx K s) {request : Request}
    (hrequest : Below ctx K s.nextClientRequestId (extractKey request)) (submitted committed : Int) :
    Numbered ctx K (pushConfirmed request submitted committed s) := by
  refine ⟨{ h.keys with confirmed := fun c hc => ?_ }, h.sent⟩
  rcases List.mem_append.mp hc with hc | hc
  · exact h.keys.confirmed c hc
  · obtain rfl := List.mem_singleton.mp hc
    exact hrequest

theorem applyCommit_numbered (h : Numbered ctx K s) {request : Request}
    (hrequest : Below ctx K s.nextClientRequestId (extractKey request)) (submitted committed : Int)
    (skip : Bool) : Numbered ctx K (applyCommit request submitted committed skip s) := by
  have hmarked : Numbered ctx K (dropPendingRequest (extractKey request)
      (dropDeferredRequest (extractKey request) { s with
        committedRequests := insert (extractKey request) s.committedRequests
        submittedRound := Function.update s.submittedRound (extractKey request) none
        replies := Function.update s.replies (extractKey request) none })) := by
    refine ⟨{ h.keys with
      committed := fun key hkey => ?_
      deferred := fun r hr => h.keys.deferred r (List.mem_of_mem_filter hr)
      pending := fun r hr => h.keys.pending r (List.mem_of_mem_filter hr)
      replies := erase_in h.keys.replies _
      submittedRound := erase_in h.keys.submittedRound _ }, h.sent⟩
    rcases Finset.mem_insert.mp hkey with rfl | hkey
    · exact hrequest
    · exact h.keys.committed key hkey
  unfold applyCommit
  dsimp only
  split_ifs
  · exact hmarked
  · exact pushConfirmed_numbered hmarked hrequest submitted committed
  · exact h

theorem applyCommit_next (request : Request) (submitted committed : Int) (skip : Bool) (s : Local) :
    (applyCommit request submitted committed skip s).nextClientRequestId = s.nextClientRequestId := by
  unfold applyCommit
  dsimp only
  split_ifs <;> rfl

/-- The state in which `confirmRequest` calls `tryStartReplication`. -/
def confirming (ctx : Ctx) (request : Request) (submittedRound : Int) (s : Local) : Local :=
  let committedRound := ctx.round
  let s := pushConfirmed request submittedRound committedRound s
  let s := applyCommit request submittedRound committedRound true s
  let s := multicast ctx (.commit request ctx.self s.term committedRound submittedRound) s
  { s with hasInFlight := false, inFlightKey := (NO_PEER_ID, -1), inFlightRequest := {} }

theorem confirmRequest_eq (request : Request) (submittedRound : Int) (s : Local) :
    confirmRequest ctx request submittedRound s =
      startReplication ctx (confirming ctx request submittedRound s) :=
  rfl

theorem confirming_numbered (h : Numbered ctx K s) {request : Request}
    (hrequest : Below ctx K s.nextClientRequestId (extractKey request)) (submitted : Int) :
    Numbered ctx K (confirming ctx request submitted s) := by
  have happlied := applyCommit_numbered (pushConfirmed_numbered h hrequest submitted ctx.round) hrequest
    submitted ctx.round true
  have hsent : Numbered ctx K (multicast ctx (.commit request ctx.self
      (applyCommit request submitted ctx.round true (pushConfirmed request submitted ctx.round s)).term
      ctx.round submitted)
      (applyCommit request submitted ctx.round true (pushConfirmed request submitted ctx.round s))) := by
    have hkept : Below ctx K (applyCommit request submitted ctx.round true
        (pushConfirmed request submitted ctx.round s)).nextClientRequestId (extractKey request) := by
      rw [applyCommit_next]
      exact hrequest
    exact multicast_numbered happlied (hkept.carries rfl)
  exact ⟨{ hsent.keys with
    inFlightKey := fun hin => absurd hin Bool.false_ne_true
    inFlightRequest := fun hin => absurd hin Bool.false_ne_true }, hsent.sent⟩

/-! ## The handlers -/

theorem followSender_next (ctx : Ctx) (sender : InterfaceId) (termNum : Int) (s : Local) :
    (followSender ctx sender termNum s).nextClientRequestId = s.nextClientRequestId := by
  unfold followSender resetReplicationState resetTimer randMod
  dsimp only
  split_ifs <;> rfl

theorem followSender_numbered (h : Numbered ctx K s) (sender : InterfaceId) (termNum : Int) :
    Numbered ctx K (followSender ctx sender termNum s) := by
  unfold followSender
  dsimp only
  split_ifs
  · apply resetTimer_numbered
    apply Numbered.election (s := resetReplicationState false { s with term := termNum, leaderId := sender })
    exact resetReplicationState_numbered (h.election _ _ _ _ _) false
  · apply resetTimer_numbered
    exact h.election _ _ _ _ _
  · exact h

theorem handleRequest_numbered (h : Numbered ctx K s) {request : Request}
    (hrequest : Below ctx K s.nextClientRequestId (extractKey request)) (sender : InterfaceId)
    (termNum : Int) : Numbered ctx K (handleRequest ctx request sender termNum s) := by
  have hfollows := followSender_numbered h sender termNum
  rw [← followSender_next ctx sender termNum s] at hrequest
  have henqueued := enqueueDeferred_numbered hfollows hrequest
  have hnext : (enqueueDeferred request (followSender ctx sender termNum s)).nextClientRequestId =
      (followSender ctx sender termNum s).nextClientRequestId := by
    unfold enqueueDeferred
    split_ifs <;> rfl
  unfold handleRequest
  dsimp only
  split_ifs
  · exact h
  · rw [← hnext] at hrequest
    exact unicastTo_numbered henqueued (hrequest.carries rfl) sender
  · exact hfollows

theorem handleRespond_numbered (h : Numbered ctx K s) {request : Request}
    (hrequest : Below ctx K s.nextClientRequestId (extractKey request)) (sender : InterfaceId) :
    Numbered ctx K (handleRespond ctx request sender s) := by
  have hrecorded : Numbered ctx K { s with
      replies := Function.update s.replies (extractKey request)
        (some ((s.replies (extractKey request)).getD [] ++ [sender])) } :=
    ⟨{ h.keys with replies := update_in h.keys.replies fun _ => hrequest }, h.sent⟩
  unfold handleRespond
  dsimp only
  split_ifs
  · exact h
  · exact h
  · exact h
  · exact h
  · exact tryStartReplication_numbered _ (confirming_numbered hrecorded hrequest _)
  · exact hrecorded

/-- The state in which `handleVote` calls `tryStartReplication`: the votes counted in `s` are a quorum. -/
def winning (ctx : Ctx) (s : Local) : Local :=
  let s := resetTimer ctx s
  let s := { s with leaderId := ctx.self, candidate := NO_PEER_ID, votes := [] }
  let s := resetReplicationState true s
  tryForwardDeferredRequests ctx { s with leaderChanges := s.leaderChanges + 1 }

theorem winning_numbered (h : Numbered ctx K s) : Numbered ctx K (winning ctx s) := by
  have helected := (resetTimer_numbered ctx h).election ctx.self NO_PEER_ID (resetTimer ctx s).term
    (resetTimer ctx s).leaderChanges []
  exact (tryForwardDeferredRequests_numbered
    ((resetReplicationState_numbered helected true).election _ _ _ _ _)).1

theorem handleVote_numbered (h : Numbered ctx K s) (voteFor sender : InterfaceId) :
    Numbered ctx K (handleVote ctx voteFor sender s) := by
  have hcounted := h.election s.leaderId s.candidate s.term s.leaderChanges (s.votes ++ [sender])
  unfold handleVote
  dsimp only
  split_ifs
  · exact h
  · exact h
  · exact h
  · exact tryStartReplication_numbered _ (winning_numbered hcounted)
  · exact hcounted

theorem handleElect_numbered (h : Numbered ctx K s) (sender : InterfaceId) (termNum roundSubmitted : Int) :
    Numbered ctx K (handleElect ctx sender termNum roundSubmitted s) := by
  unfold handleElect
  dsimp only
  split_ifs
  · exact h
  · apply unicastTo_numbered
    · apply resetTimer_numbered
      apply resetReplicationState_numbered
      exact h.election _ _ _ _ _
    · exact carries_none rfl

theorem handleCommit_numbered (h : Numbered ctx K s) {request : Request}
    (hrequest : Below ctx K s.nextClientRequestId (extractKey request)) (sender : InterfaceId)
    (termNum roundCommitted roundSubmitted : Int) :
    Numbered ctx K (handleCommit ctx request sender termNum roundCommitted roundSubmitted s) := by
  have hraised := h.election s.leaderId s.candidate termNum s.leaderChanges s.votes
  unfold handleCommit
  dsimp only
  split_ifs
  · exact h
  · exact applyCommit_numbered hraised hrequest _ _ false
  · exact applyCommit_numbered h hrequest _ _ false

theorem maybeGenerateClientRequest_numbered (h : Numbered ctx K s) :
    Numbered ctx K (maybeGenerateClientRequest ctx s) := by
  have hdrawn := randMod_numbered h s.submitRate
  unfold maybeGenerateClientRequest
  dsimp only
  split_ifs
  · exact h
  · exact hdrawn
  · exact onClientRequest_numbered hdrawn.raise ⟨rfl, rfl⟩ (freshRequest_below K _)

theorem tick_numbered (h : Numbered ctx K s) : Numbered ctx K (tick ctx s) := by
  have hgenerated := maybeGenerateClientRequest_numbered h
  apply And.left
  apply tryForwardDeferredRequests_numbered
  unfold maybeStartElection
  dsimp only
  split_ifs
  · exact hgenerated
  · apply multicast_numbered
    · apply resetTimer_numbered
      exact (resetReplicationState_numbered hgenerated true).election _ _ _ _ _
    · exact carries_none rfl

theorem onMessage_numbered (h : Numbered ctx K s) {m : Message}
    (hcomplete : ∀ r, m = .clientRequest r → Complete ctx r s)
    (hm : ∀ r, m.carried = some r → Below ctx K s.nextClientRequestId (extractKey r)) :
    Numbered ctx K (onMessage ctx m s) := by
  cases m with
  | clientRequest request => exact onClientRequest_numbered h (hcomplete request rfl) (hm request rfl)
  | request request sender termNum => exact handleRequest_numbered h (hm request rfl) sender termNum
  | respondRequest request sender termNum round => exact handleRespond_numbered h (hm request rfl) sender
  | vote voteFor sender termNum round => exact handleVote_numbered h voteFor sender
  | elect sender termNum round => exact handleElect_numbered h sender termNum round
  | commit request sender termNum committed submitted =>
    exact handleCommit_numbered h (hm request rfl) sender termNum committed submitted

/-! ## Every run -/

namespace System
variable {cfg : Config} {sys : System} {p : InterfaceId}

def Counted (sys : System) (key : TxKey) : Prop := key.2 < (sys.peers key.1).nextClientRequestId

/-- Every key that a peer holds or a packet carries is counted. -/
structure KeysCounted (sys : System) : Prop where
  peers : ∀ q, KeysIn (Counted sys) (sys.peers q)
  sent : ∀ pkt ∈ sys.sent, ∀ r, pkt.message.carried = some r → Counted sys (extractKey r)

theorem KeysCounted.start (h : KeysCounted sys) (p : InterfaceId) (draws : List Nat) :
    Numbered (sys.ctx cfg p) (Counted sys) (sys.start p draws) :=
  ⟨(h.peers p).mono fun _ => .inl, fun _ hpkt => absurd hpkt List.not_mem_nil⟩

theorem Below.counted (cfg : Config) {r : Local} {key : TxKey}
    (hnext : (sys.peers p).nextClientRequestId ≤ r.nextClientRequestId)
    (h : Below (sys.ctx cfg p) (Counted sys) r.nextClientRequestId key) : Counted (sys.after p r) key := by
  unfold Counted
  by_cases hp : key.1 = p
  · rw [hp, after_self]
    rcases h with h | h
    · rw [Counted, hp] at h
      exact h.trans_le hnext
    · exact h.2
  · rw [after_other hp]
    rcases h with h | h
    · exact h
    · exact absurd h.1 hp

theorem KeysCounted.after (h : KeysCounted sys) {r : Local}
    (hnext : (sys.peers p).nextClientRequestId ≤ r.nextClientRequestId)
    (hr : Numbered (sys.ctx cfg p) (Counted sys) r) : KeysCounted (sys.after p r) := by
  constructor
  · intro q
    by_cases hq : q = p
    · subst hq
      rw [after_self]
      exact hr.keys.mono fun _ => Below.counted cfg hnext
    · rw [after_other hq]
      exact (h.peers q).mono fun key hkey => Below.counted cfg hnext (.inl hkey)
  · intro pkt hpkt request hcarried
    apply Below.counted cfg hnext
    rcases List.mem_append.mp hpkt with hpkt | hpkt
    · exact .inl (h.sent pkt hpkt request hcarried)
    · exact hr.sent pkt hpkt request hcarried

theorem keysCounted_of_initial (h : Initial cfg sys) : KeysCounted sys := by
  obtain ⟨-, hsent, hpeers⟩ := h
  constructor
  · intro p
    obtain ⟨jitter, -, -, hp⟩ := hpeers p
    rw [hp]
    refine ⟨?_, ?_, ?_, ?_, ?_, ?_, ?_, ?_, ?_⟩
    · exact fun key hkey => absurd hkey (Finset.notMem_empty key)
    · exact fun key hkey => absurd hkey (Finset.notMem_empty key)
    · exact fun r hr => absurd hr List.not_mem_nil
    · exact fun r hr => absurd hr List.not_mem_nil
    · exact fun hin => absurd hin Bool.false_ne_true
    · exact fun hin => absurd hin Bool.false_ne_true
    · exact fun key hkey => absurd rfl hkey
    · exact fun key hkey => absurd rfl hkey
    · exact fun c hc => absurd hc List.not_mem_nil
  · rw [hsent]
    exact fun pkt hpkt => absurd hpkt List.not_mem_nil

theorem complete_of_vouched (hmajority : MajorityInv cfg sys) {pkt : Packet Message} (hpkt : pkt ∈ sys.sent)
    (ctx : Ctx) (s : Local) : ∀ r, pkt.message = .clientRequest r → Complete ctx r s := by
  intro r hr
  have hvouched := hmajority.sent pkt hpkt
  rw [hr] at hvouched
  exact completeRequest_issued ctx hvouched s

theorem keysCounted_of_reached (h : (machine cfg).Reached sys) : KeysCounted sys := by
  induction h with
  | start hinitial => exact keysCounted_of_initial hinitial
  | @next sys sys' e hreached _ hstep inv =>
    have hmajority := majorityInv_of_reached hreached
    rcases step_cases hstep with ⟨-, rfl⟩ | ⟨p, pkt, draws, rfl, hp, hpkt, -, rfl⟩ |
      ⟨p, draws, rfl, hp, rfl⟩
    · exact ⟨inv.peers, inv.sent⟩
    · have hm := hmajority.sent pkt hpkt
      rw [← after_start sys p draws] at hm
      have hadvances : Advances cfg sys p (sys.start p draws)
          (onMessage (sys.ctx cfg p) pkt.message (sys.start p draws)) :=
        onMessage_advances hp rfl rfl (hmajority.backed p draws) hm
      have hcounted : ∀ r, pkt.message.carried = some r → Below (sys.ctx cfg p) (Counted sys)
          (sys.start p draws).nextClientRequestId (extractKey r) :=
        fun r hr => .inl (inv.sent pkt hpkt r hr)
      exact inv.after hadvances.next (onMessage_numbered (inv.start p draws)
        (complete_of_vouched hmajority hpkt _ _) hcounted)
    · have hadvances : Advances cfg sys p (sys.start p draws)
          (tick (sys.ctx cfg p) (sys.start p draws)) :=
        tick_advances hp rfl (hmajority.backed p draws)
      exact inv.after hadvances.next (tick_numbered (inv.start p draws))

end System

end Quantas.Raft
