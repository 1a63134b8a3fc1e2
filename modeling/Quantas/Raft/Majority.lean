import Quantas.Raft.Confirmation

/-!
# Raft: a committed key is known to a majority

Evidence about a key stays true as the system goes on: that its submitter has generated it, that a member
knows it, that more than half of the members do. `Justified` says that the state of a peer rests on such
evidence: its queued requests were generated, the responders it counts know the key, and the keys it has
committed are known to a majority. `Vouched` says the same of a message.

A handler of peer `p` keeps both in the state `sys.after p s` that the system would be in if the handler
ended at `s`, so every function that the handlers share has one lemma (`Advances`), and the run lemma
puts the last of these states in the place of the system.
-/

namespace Quantas.Raft

namespace System

/-! ## Evidence -/

section Evidence
variable (cfg : Config) (sys : System)

/-- The submitter of `key` has generated it. -/
structure Issued (key : TxKey) : Prop where
  submitter : key.1 ∈ cfg.committee.members
  nonneg : 0 ≤ key.2
  lt : key.2 < (sys.peers key.1).nextClientRequestId

/-- Peer `q` is a member that knows `key`. -/
structure Knows (q : InterfaceId) (key : TxKey) : Prop where
  member : q ∈ cfg.committee.members
  known : key ∈ (sys.peers q).knownRequests

def knowers (key : TxKey) : List InterfaceId :=
  cfg.committee.members.filter fun q => key ∈ (sys.peers q).knownRequests

/-- A key that may be committed: it was generated, and more than half of the members know it. -/
structure Committable (key : TxKey) : Prop where
  issued : Issued cfg sys key
  majority : cfg.committee.size / 2 < (knowers cfg sys key).length

def Vouched : Message → Prop
  | .clientRequest request => Issued cfg sys (extractKey request)
  | .request request _ _ => Issued cfg sys (extractKey request)
  | .respondRequest request sender _ _ =>
    Issued cfg sys (extractKey request) ∧ Knows cfg sys sender (extractKey request)
  | .commit request _ _ _ _ => Committable cfg sys (extractKey request)
  | .vote .. => True
  | .elect .. => True

structure Justified (s : RaftConsensus) : Prop where
  next : 0 ≤ s.nextClientRequestId
  deferred : ∀ r ∈ s.deferredClientRequests, Issued cfg sys (extractKey r)
  pending : ∀ r ∈ s.pendingClientRequests, Issued cfg sys (extractKey r)
  inFlight : s.hasInFlight = true → Issued cfg sys (extractKey s.inFlightRequest)
  nodup : ∀ key, ((s.replies key).getD []).Nodup
  replies : ∀ key, ∀ q ∈ (s.replies key).getD [], Knows cfg sys q key
  committed : ∀ key ∈ s.committedRequests, Committable cfg sys key

/-- The state of a peer inside a handler and the packets of this handler rest on evidence. -/
structure Backed (s : Local) : Prop where
  justified : Justified cfg sys s.toRaftConsensus
  vouched : ∀ pkt ∈ s.outbox, Vouched cfg sys pkt.message

structure MajorityInv : Prop where
  peers : ∀ p, Justified cfg sys (sys.peers p)
  sent : ∀ pkt ∈ sys.sent, Vouched cfg sys pkt.message

end Evidence

/-- From `sys` to `sys'` the peers forget no key and take back no request number. -/
structure Grows (sys sys' : System) : Prop where
  known : ∀ q, (sys.peers q).knownRequests ⊆ (sys'.peers q).knownRequests
  next : ∀ q, (sys.peers q).nextClientRequestId ≤ (sys'.peers q).nextClientRequestId

section Growth
variable {cfg : Config} {sys sys' : System} {key : TxKey}

theorem Issued.grow (h : Issued cfg sys key) (hgrow : Grows sys sys') : Issued cfg sys' key :=
  ⟨h.submitter, h.nonneg, h.lt.trans_le (hgrow.next key.1)⟩

theorem Knows.grow {q : InterfaceId} (h : Knows cfg sys q key) (hgrow : Grows sys sys') :
    Knows cfg sys' q key :=
  ⟨h.member, hgrow.known q h.known⟩

theorem Committable.grow (h : Committable cfg sys key) (hgrow : Grows sys sys') :
    Committable cfg sys' key := by
  refine ⟨h.issued.grow hgrow, h.majority.trans_le ?_⟩
  apply List.Sublist.length_le
  apply List.monotone_filter_right
  intro q hq
  rw [decide_eq_true_eq] at hq ⊢
  exact hgrow.known q hq

theorem Vouched.grow {m : Message} (h : Vouched cfg sys m) (hgrow : Grows sys sys') :
    Vouched cfg sys' m := by
  cases m with
  | clientRequest request => exact Issued.grow h hgrow
  | request request sender termNum => exact Issued.grow h hgrow
  | respondRequest request sender termNum round => exact ⟨h.1.grow hgrow, h.2.grow hgrow⟩
  | commit request sender termNum committed submitted => exact Committable.grow h hgrow
  | vote => trivial
  | elect => trivial

theorem Justified.grow {s : RaftConsensus} (h : Justified cfg sys s) (hgrow : Grows sys sys') :
    Justified cfg sys' s where
  next := h.next
  deferred r hr := (h.deferred r hr).grow hgrow
  pending r hr := (h.pending r hr).grow hgrow
  inFlight hin := (h.inFlight hin).grow hgrow
  nodup := h.nodup
  replies key q hq := (h.replies key q hq).grow hgrow
  committed key hkey := (h.committed key hkey).grow hgrow

theorem Backed.grow {s : Local} (h : Backed cfg sys s) (hgrow : Grows sys sys') : Backed cfg sys' s :=
  ⟨h.justified.grow hgrow, fun pkt hpkt => (h.vouched pkt hpkt).grow hgrow⟩

theorem length_le_knowers {responders : List InterfaceId} (hnodup : responders.Nodup)
    (hknow : ∀ q ∈ responders, Knows cfg sys q key) :
    responders.length ≤ (knowers cfg sys key).length := by
  apply List.Subperm.length_le
  apply hnodup.subperm
  intro q hq
  rw [knowers, List.mem_filter, decide_eq_true_eq]
  exact ⟨(hknow q hq).member, (hknow q hq).known⟩

theorem Issued.keyValid (h : Issued cfg sys key) : keyValid key = true := by
  have hsubmitter := cfg.committee.ne_noPeer h.submitter
  have hnonneg := h.nonneg
  simp [Raft.keyValid, hsubmitter, hnonneg]

theorem Issued.fields {request : Request} (h : Issued cfg sys (extractKey request)) :
    request.submitterId = some (extractKey request).1 ∧
      request.clientSeq = some (extractKey request).2 := by
  have hsubmitter := cfg.committee.ne_noPeer h.submitter
  have hnonneg := h.nonneg
  unfold extractKey at hsubmitter hnonneg ⊢
  constructor
  · cases hid : request.submitterId with
    | none => simp [hid] at hsubmitter
    | some p => rfl
  · cases hseq : request.clientSeq with
    | none => simp [hseq] at hnonneg
    | some k => rfl

end Growth

/-! ## The functions that the handlers share -/

/-- A handler of peer `p` went from `s` to `s'`: it forgot nothing, and what it did rests on evidence. -/
structure Advances (cfg : Config) (sys : System) (p : InterfaceId) (s s' : Local) : Prop where
  known : s.knownRequests ⊆ s'.knownRequests
  next : s.nextClientRequestId ≤ s'.nextClientRequestId
  backed : Backed cfg (sys.after p s') s'

section Handlers
variable {cfg : Config} {sys : System} {p : InterfaceId} {s s' s'' : Local}

theorem grows_after (hknown : s.knownRequests ⊆ s'.knownRequests)
    (hnext : s.nextClientRequestId ≤ s'.nextClientRequestId) :
    Grows (sys.after p s) (sys.after p s') := by
  constructor
  · intro q
    by_cases hq : q = p
    · subst hq
      rw [after_self, after_self]
      exact hknown
    · rw [after_other hq, after_other hq]
  · intro q
    by_cases hq : q = p
    · subst hq
      rw [after_self, after_self]
      exact hnext
    · rw [after_other hq, after_other hq]

theorem Advances.grows (h : Advances cfg sys p s s') : Grows (sys.after p s) (sys.after p s') :=
  grows_after h.known h.next

theorem Advances.refl (h : Backed cfg (sys.after p s) s) : Advances cfg sys p s s :=
  ⟨subset_rfl, le_rfl, h⟩

theorem Advances.trans (h : Advances cfg sys p s s') (h' : Advances cfg sys p s' s'') :
    Advances cfg sys p s s'' :=
  ⟨h.known.trans h'.known, h.next.trans h'.next, h'.backed⟩

theorem Advances.andThen (h : Advances cfg sys p s s')
    (h' : Backed cfg (sys.after p s') s' → Advances cfg sys p s' s'') : Advances cfg sys p s s'' :=
  h.trans (h' h.backed)

theorem Advances.of_backed (h : Backed cfg (sys.after p s) s)
    (hknown : s.knownRequests ⊆ s'.knownRequests)
    (hnext : s.nextClientRequestId ≤ s'.nextClientRequestId)
    (hbacked : Backed cfg (sys.after p s') s → Backed cfg (sys.after p s') s') :
    Advances cfg sys p s s' :=
  ⟨hknown, hnext, hbacked (h.grow (grows_after hknown hnext))⟩

theorem randMod_advances (h : Backed cfg (sys.after p s) s) (n : Int) :
    Advances cfg sys p s (randMod n s).2 :=
  .of_backed h subset_rfl le_rfl fun h => ⟨h.justified, h.vouched⟩

theorem election_advances (h : Backed cfg (sys.after p s) s) (leaderId candidate : InterfaceId)
    (term leaderChanges : Int) (votes : List InterfaceId) : Advances cfg sys p s { s with
      leaderId := leaderId, candidate := candidate, term := term, leaderChanges := leaderChanges,
      votes := votes } :=
  .of_backed h subset_rfl le_rfl fun h => ⟨{ h.justified with }, h.vouched⟩

theorem resetTimer_advances (ctx : Ctx) (h : Backed cfg (sys.after p s) s) :
    Advances cfg sys p s (resetTimer ctx s) := by
  unfold resetTimer randMod
  split_ifs <;> exact .of_backed h subset_rfl le_rfl fun h => ⟨{ h.justified with }, h.vouched⟩

theorem unicastTo_advances (ctx : Ctx) (msg : Message) (h : Backed cfg (sys.after p s) s)
    (hmsg : Vouched cfg (sys.after p s) msg) (dest : InterfaceId) :
    Advances cfg sys p s (unicastTo ctx msg dest s) := by
  rw [unicastTo_eq]
  refine .of_backed h subset_rfl le_rfl fun h => ⟨h.justified, fun pkt hpkt => ?_⟩
  rcases List.mem_append.mp hpkt with hpkt | hpkt
  · exact h.vouched pkt hpkt
  · split_ifs at hpkt
    · obtain rfl := List.mem_singleton.mp hpkt
      exact hmsg.grow (grows_after subset_rfl le_rfl)
    · exact absurd hpkt List.not_mem_nil

theorem multicast_advances (ctx : Ctx) (msg : Message) (h : Backed cfg (sys.after p s) s)
    (hmsg : Vouched cfg (sys.after p s) msg) : Advances cfg sys p s (multicast ctx msg s) := by
  rw [multicast_eq]
  refine .of_backed h subset_rfl le_rfl fun h => ⟨h.justified, fun pkt hpkt => ?_⟩
  rcases List.mem_append.mp hpkt with hpkt | hpkt
  · exact h.vouched pkt hpkt
  · obtain ⟨dest, -, rfl⟩ := List.mem_map.mp hpkt
    exact hmsg.grow (grows_after subset_rfl le_rfl)

theorem update_replies {W : System} {s : RaftConsensus} (h : Justified cfg W s) {key : TxKey}
    (responders : Option (List InterfaceId)) (hnodup : (responders.getD []).Nodup)
    (hknow : ∀ q ∈ responders.getD [], Knows cfg W q key) (key' : TxKey) :
    ((Function.update s.replies key responders key').getD []).Nodup ∧
      ∀ q ∈ (Function.update s.replies key responders key').getD [], Knows cfg W q key' := by
  by_cases hkey : key' = key
  · subst hkey
    rw [Function.update_self]
    exact ⟨hnodup, hknow⟩
  · rw [Function.update_of_ne hkey]
    exact ⟨h.nodup key', h.replies key'⟩

theorem erase_replies {W : System} {s : RaftConsensus} (h : Justified cfg W s) (key key' : TxKey) :
    ((Function.update s.replies key none key').getD []).Nodup ∧
      ∀ q ∈ (Function.update s.replies key none key').getD [], Knows cfg W q key' :=
  update_replies h none List.nodup_nil (fun _ hq => absurd hq List.not_mem_nil) key'

theorem resetReplicationState_advances (h : Backed cfg (sys.after p s) s) (requeue : Bool) :
    Advances cfg sys p s (resetReplicationState requeue s) := by
  have herase := erase_replies h.justified s.inFlightKey
  have hidle : ∀ s' : Local, s'.hasInFlight = false → s'.hasInFlight = true →
      Issued cfg (sys.after p s) (extractKey s'.inFlightRequest) :=
    fun s' hidle hin => absurd (hidle.symm.trans hin) Bool.false_ne_true
  have hqueue : s.hasInFlight = true → ∀ r ∈ s.inFlightRequest :: s.pendingClientRequests,
      Issued cfg (sys.after p s) (extractKey r) := by
    intro hin r hr
    rcases List.mem_cons.mp hr with rfl | hr
    · exact h.justified.inFlight hin
    · exact h.justified.pending r hr
  have hgrow : Grows (sys.after p s) (sys.after p (resetReplicationState requeue s)) := by
    unfold resetReplicationState
    dsimp only
    split_ifs <;> exact grows_after subset_rfl le_rfl
  have hbacked : Backed cfg (sys.after p s) (resetReplicationState requeue s) := by
    unfold resetReplicationState
    dsimp only
    split_ifs with hclear hpush hpush
    · exact ⟨{ h.justified with
        pending := hqueue hpush.1
        inFlight := hidle _ rfl
        nodup := fun key => (herase key).1
        replies := fun key => (herase key).2 }, h.vouched⟩
    · exact ⟨{ h.justified with
        inFlight := hidle _ rfl
        nodup := fun key => (herase key).1
        replies := fun key => (herase key).2 }, h.vouched⟩
    · exact ⟨{ h.justified with pending := hqueue hpush.1, inFlight := hidle _ rfl }, h.vouched⟩
    · exact ⟨{ h.justified with inFlight := hidle _ rfl }, h.vouched⟩
  refine ⟨?_, ?_, hbacked.grow hgrow⟩
  · unfold resetReplicationState
    dsimp only
    split_ifs <;> exact subset_rfl
  · exact (resetReplicationState_replicates ⟨p, [], [], 0⟩ requeue s).nextClientRequestId

theorem enqueueDeferred_advances (h : Backed cfg (sys.after p s) s) {request : Request}
    (hissued : Issued cfg (sys.after p s) (extractKey request)) :
    Advances cfg sys p s (enqueueDeferred request s) ∧
      extractKey request ∈ (enqueueDeferred request s).knownRequests := by
  unfold enqueueDeferred
  by_cases hnew : keyValid (extractKey request) ∧ extractKey request ∉ s.knownRequests
  · rw [if_pos hnew]
    refine ⟨.of_backed h (Finset.subset_insert _ _) le_rfl fun h => ⟨{ h.justified with
      deferred := fun r hr => ?_ }, h.vouched⟩, Finset.mem_insert_self _ _⟩
    rcases List.mem_append.mp hr with hr | hr
    · exact h.justified.deferred r hr
    · obtain rfl := List.mem_singleton.mp hr
      exact hissued.grow (grows_after (Finset.subset_insert _ _) le_rfl)
  · rw [if_neg hnew]
    refine ⟨.refl h, ?_⟩
    by_contra hunknown
    exact hnew ⟨hissued.keyValid, hunknown⟩

theorem deferBack_advances (h : Backed cfg (sys.after p s) s) {request : Request}
    (hissued : Issued cfg (sys.after p s) (extractKey request)) :
    Advances cfg sys p s
      { s with deferredClientRequests := s.deferredClientRequests ++ [request] } := by
  refine .of_backed h subset_rfl le_rfl fun h => ⟨{ h.justified with deferred := fun r hr => ?_ },
    h.vouched⟩
  rcases List.mem_append.mp hr with hr | hr
  · exact h.justified.deferred r hr
  · obtain rfl := List.mem_singleton.mp hr
    exact hissued.grow (grows_after subset_rfl le_rfl)

theorem forwardDeferred_advances (ctx : Ctx) (h : Backed cfg (sys.after p s) s) {request : Request}
    (hissued : Issued cfg (sys.after p s) (extractKey request)) :
    Advances cfg sys p s (forwardDeferred ctx s request) := by
  unfold forwardDeferred
  split_ifs
  · exact .refl h
  · refine .of_backed h subset_rfl le_rfl fun h => ⟨{ h.justified with pending := fun r hr => ?_ },
      h.vouched⟩
    rcases List.mem_append.mp hr with hr | hr
    · exact h.justified.pending r hr
    · obtain rfl := List.mem_singleton.mp hr
      exact hissued.grow (grows_after subset_rfl le_rfl)
  · have hsent : Advances cfg sys p s (unicastTo ctx (.clientRequest request) s.leaderId s) :=
      unicastTo_advances ctx (.clientRequest request) h hissued s.leaderId
    exact hsent.trans (deferBack_advances hsent.backed (hissued.grow hsent.grows))
  · exact deferBack_advances h hissued
  · exact deferBack_advances h hissued

theorem tryForwardDeferredRequests_advances (ctx : Ctx) (h : Backed cfg (sys.after p s) s) :
    Advances cfg sys p s (tryForwardDeferredRequests ctx s) := by
  suffices hfold : ∀ (rs : List Request) (s : Local), Backed cfg (sys.after p s) s →
      (∀ r ∈ rs, Issued cfg (sys.after p s) (extractKey r)) →
      Advances cfg sys p s (rs.foldl (forwardDeferred ctx) s) by
    have hpopped : Advances cfg sys p s { s with deferredClientRequests := [] } :=
      .of_backed h subset_rfl le_rfl fun h => ⟨{ h.justified with
        deferred := fun r hr => absurd hr List.not_mem_nil }, h.vouched⟩
    exact hpopped.trans (hfold _ _ hpopped.backed fun r hr =>
      (h.justified.deferred r hr).grow hpopped.grows)
  intro rs
  induction rs with
  | nil => exact fun s h _ => .refl h
  | cons r rs ih =>
    intro s h hissued
    have hhead : Advances cfg sys p s (forwardDeferred ctx s r) :=
      forwardDeferred_advances ctx h (hissued r List.mem_cons_self)
    exact hhead.trans (ih _ hhead.backed fun r' hr' =>
      (hissued r' (List.mem_cons_of_mem r hr')).grow hhead.grows)

theorem replicateFirst_advances (ctx : Ctx) (rs : List Request) (h : Backed cfg (sys.after p s) s)
    (hissued : ∀ r ∈ rs, Issued cfg (sys.after p s) (extractKey r)) :
    Advances cfg sys p s (replicateFirst ctx rs s) := by
  induction rs with
  | nil =>
    exact .of_backed h subset_rfl le_rfl fun h => ⟨{ h.justified with
      pending := fun r hr => absurd hr List.not_mem_nil }, h.vouched⟩
  | cons r rs ih =>
    rw [replicateFirst]
    dsimp only
    by_cases hgone : ¬ keyValid (extractKey r) ∨ extractKey r ∈ s.committedRequests
    · rw [if_pos hgone]
      exact ih fun r' hr' => hissued r' (List.mem_cons_of_mem r hr')
    rw [if_neg hgone]
    have hr := hissued r List.mem_cons_self
    have hflight : Advances cfg sys p s { s with
        pendingClientRequests := rs
        hasInFlight := true
        inFlightKey := extractKey r
        inFlightRequest := { r with roundSubmitted := some ctx.round }
        replies := Function.update s.replies (extractKey r) (some ((s.replies (extractKey r)).getD []))
        submittedRound := Function.update s.submittedRound (extractKey r) (some ctx.round) } := by
      refine .of_backed h subset_rfl le_rfl fun h => ?_
      have hsame := update_replies h.justified (some ((s.replies (extractKey r)).getD []))
        (h.justified.nodup _) (h.justified.replies _)
      refine ⟨{ h.justified with
        pending := fun r' hr' => ?_
        inFlight := fun _ => ?_
        nodup := fun key => (hsame key).1
        replies := fun key => (hsame key).2 }, h.vouched⟩
      · exact (hissued r' (List.mem_cons_of_mem r hr')).grow (grows_after subset_rfl le_rfl)
      · exact hr.grow (grows_after subset_rfl le_rfl)
    have hsent := multicast_advances ctx
      (.request { r with roundSubmitted := some ctx.round } ctx.self s.term) hflight.backed
      (Issued.grow hr hflight.grows)
    exact hflight.trans (hsent.trans (resetTimer_advances ctx hsent.backed))

theorem completeRequest_issued (ctx : Ctx) {request : Request} {W : System}
    (hissued : Issued cfg W (extractKey request)) (s : Local) :
    extractKey (completeRequest ctx request s).1 = extractKey request ∧
      (completeRequest ctx request s).2 = s := by
  obtain ⟨hid, hseq⟩ := hissued.fields
  unfold completeRequest
  dsimp only
  rw [hseq]
  refine ⟨?_, rfl⟩
  rw [extractKey, hid]
  rfl

theorem acceptClientRequest_advances (ctx : Ctx) {start : Local → Local}
    (hstart : ∀ s, Backed cfg (sys.after p s) s → Advances cfg sys p s (start s))
    (h : Backed cfg (sys.after p s) s) (request : Request)
    (hissued : Issued cfg (sys.after p s) (extractKey request)) :
    Advances cfg sys p s (acceptClientRequest ctx start request s) := by
  obtain ⟨hkey, hsame⟩ := completeRequest_issued ctx hissued s
  unfold acceptClientRequest
  dsimp only
  rw [hsame]
  rw [← hkey] at hissued
  have hqueued := (enqueueDeferred_advances h hissued).1
  have hforwarded := hqueued.trans (tryForwardDeferredRequests_advances ctx hqueued.backed)
  split_ifs
  · exact hforwarded.trans (hstart _ hforwarded.backed)
  · exact hforwarded

theorem generate_advances (hp : p ∈ cfg.committee.members) (h : Backed cfg (sys.after p s) s) :
    Advances cfg sys p s { s with nextClientRequestId := s.nextClientRequestId + 1 } ∧
      Issued cfg (sys.after p { s with nextClientRequestId := s.nextClientRequestId + 1 })
        (p, s.nextClientRequestId) := by
  have hnext := h.justified.next
  constructor
  · refine .of_backed h subset_rfl (Int.le_add_one le_rfl) fun h => ⟨{ h.justified with
      next := ?_ }, h.vouched⟩
    change 0 ≤ s.nextClientRequestId + 1
    omega
  · refine ⟨hp, hnext, ?_⟩
    rw [after_self]
    exact Int.lt_succ _

theorem tryStartReplication_advances (hp : p ∈ cfg.committee.members) {ctx : Ctx} (hself : ctx.self = p)
    (fuel : Nat) (h : Backed cfg (sys.after p s) s) :
    Advances cfg sys p s (tryStartReplication ctx fuel s) := by
  subst hself
  induction fuel generalizing s with
  | zero =>
    unfold tryStartReplication
    split_ifs
    · exact .refl h
    · exact .refl h
    · exact replicateFirst_advances ctx _ h h.justified.pending
  | succ fuel ih =>
    unfold tryStartReplication
    split_ifs
    · exact .refl h
    · obtain ⟨hgenerated, hissued⟩ := generate_advances hp h
      have haccepted := hgenerated.trans (acceptClientRequest_advances ctx (fun _ => ih)
        hgenerated.backed (freshRequest ctx s) hissued)
      exact haccepted.trans (replicateFirst_advances ctx _ haccepted.backed
        haccepted.backed.justified.pending)
    · exact replicateFirst_advances ctx _ h h.justified.pending

theorem startReplication_advances (hp : p ∈ cfg.committee.members) {ctx : Ctx} (hself : ctx.self = p)
    (h : Backed cfg (sys.after p s) s) : Advances cfg sys p s (startReplication ctx s) :=
  tryStartReplication_advances hp hself _ h

theorem onClientRequest_advances (hp : p ∈ cfg.committee.members) {ctx : Ctx} (hself : ctx.self = p)
    (h : Backed cfg (sys.after p s) s) (request : Request)
    (hissued : Issued cfg (sys.after p s) (extractKey request)) :
    Advances cfg sys p s (onClientRequest ctx request s) :=
  acceptClientRequest_advances ctx (fun _ => startReplication_advances hp hself) h request hissued

theorem pushConfirmed_advances (h : Backed cfg (sys.after p s) s) (request : Request)
    (submitted committed : Int) :
    Advances cfg sys p s (pushConfirmed request submitted committed s) :=
  .of_backed h subset_rfl le_rfl fun h => ⟨{ h.justified with }, h.vouched⟩

theorem applyCommit_advances (h : Backed cfg (sys.after p s) s) {request : Request}
    (hcommit : Committable cfg (sys.after p s) (extractKey request)) (submitted committed : Int)
    (skip : Bool) : Advances cfg sys p s (applyCommit request submitted committed skip s) := by
  unfold applyCommit
  by_cases hvalid : ¬ keyValid (extractKey request)
  · rw [if_pos hvalid]
    exact .refl h
  rw [if_neg hvalid]
  dsimp only
  have hmarked : Advances cfg sys p s (dropPendingRequest (extractKey request)
      (dropDeferredRequest (extractKey request) { s with
        committedRequests := insert (extractKey request) s.committedRequests
        submittedRound := Function.update s.submittedRound (extractKey request) none
        replies := Function.update s.replies (extractKey request) none })) := by
    refine .of_backed h subset_rfl le_rfl fun h => ?_
    have herase := erase_replies h.justified (extractKey request)
    refine ⟨{ h.justified with
      deferred := fun r hr => h.justified.deferred r (List.mem_of_mem_filter hr)
      pending := fun r hr => h.justified.pending r (List.mem_of_mem_filter hr)
      nodup := fun key => (herase key).1
      replies := fun key => (herase key).2
      committed := fun key hkey => ?_ }, h.vouched⟩
    rcases Finset.mem_insert.mp hkey with rfl | hkey
    · exact hcommit.grow (grows_after subset_rfl le_rfl)
    · exact h.justified.committed key hkey
  split_ifs
  · exact hmarked
  · exact hmarked.trans (pushConfirmed_advances hmarked.backed request submitted committed)

theorem landed_advances (h : Backed cfg (sys.after p s) s) : Advances cfg sys p s
    { s with hasInFlight := false, inFlightKey := (NO_PEER_ID, -1), inFlightRequest := {} } :=
  .of_backed h subset_rfl le_rfl fun h =>
    ⟨{ h.justified with inFlight := fun hin => absurd hin Bool.false_ne_true }, h.vouched⟩

theorem confirmRequest_advances (hp : p ∈ cfg.committee.members) {ctx : Ctx} (hself : ctx.self = p)
    (h : Backed cfg (sys.after p s) s) {request : Request}
    (hcommit : Committable cfg (sys.after p s) (extractKey request)) (submitted : Int) :
    Advances cfg sys p s (confirmRequest ctx request submitted s) := by
  have hpushed := pushConfirmed_advances h request submitted ctx.round
  have happlied := hpushed.trans (applyCommit_advances hpushed.backed (hcommit.grow hpushed.grows)
    submitted ctx.round true)
  have hsent := happlied.trans (multicast_advances ctx (.commit request ctx.self
    (applyCommit request submitted ctx.round true (pushConfirmed request submitted ctx.round s)).term
    ctx.round submitted) happlied.backed (Committable.grow hcommit happlied.grows))
  have hlanded := hsent.trans (landed_advances hsent.backed)
  exact hlanded.trans (startReplication_advances hp hself hlanded.backed)

/-! ## The handlers -/

theorem followSender_advances (ctx : Ctx) (h : Backed cfg (sys.after p s) s) (sender : InterfaceId)
    (termNum : Int) : Advances cfg sys p s (followSender ctx sender termNum s) := by
  unfold followSender
  dsimp only
  split_ifs
  · refine .andThen ?_ (resetTimer_advances ctx)
    refine .andThen ?_ fun h => election_advances h _ _ _ _ _
    exact (election_advances h sender s.candidate termNum s.leaderChanges s.votes).andThen
      fun h => resetReplicationState_advances h false
  · refine .andThen ?_ (resetTimer_advances ctx)
    exact election_advances h sender NO_PEER_ID termNum s.leaderChanges []
  · exact .refl h

theorem handleRequest_advances (hp : p ∈ cfg.committee.members) {ctx : Ctx} (hself : ctx.self = p)
    (h : Backed cfg (sys.after p s) s) {request : Request}
    (hissued : Issued cfg (sys.after p s) (extractKey request)) (sender : InterfaceId) (termNum : Int) :
    Advances cfg sys p s (handleRequest ctx request sender termNum s) := by
  have hfollows := followSender_advances ctx h sender termNum
  obtain ⟨henqueued, hknown⟩ := enqueueDeferred_advances hfollows.backed (hissued.grow hfollows.grows)
  have hqueued := hfollows.trans henqueued
  have hvouched : Vouched cfg (sys.after p (enqueueDeferred request (followSender ctx sender termNum s)))
      (.respondRequest request ctx.self (enqueueDeferred request (followSender ctx sender termNum s)).term
        (request.roundSubmitted.getD ctx.round)) := by
    refine ⟨hissued.grow hqueued.grows, ?_⟩
    rw [hself]
    refine ⟨hp, ?_⟩
    rw [after_self]
    exact hknown
  unfold handleRequest
  dsimp only
  split_ifs
  · exact .refl h
  · exact hqueued.trans (unicastTo_advances ctx _ hqueued.backed hvouched sender)
  · exact hfollows

theorem record_advances (h : Backed cfg (sys.after p s) s) {key : TxKey} {responders : List InterfaceId}
    (hnodup : responders.Nodup) (hknow : ∀ q ∈ responders, Knows cfg (sys.after p s) q key) :
    Advances cfg sys p s
      { s with replies := Function.update s.replies key (some responders) } := by
  refine .of_backed h subset_rfl le_rfl fun h => ?_
  have hknow' : ∀ q ∈ responders, Knows cfg (sys.after p
      { s with replies := Function.update s.replies key (some responders) }) q key :=
    fun q hq => (hknow q hq).grow (grows_after subset_rfl le_rfl)
  have hupdate := update_replies h.justified (some responders) hnodup hknow'
  exact ⟨{ h.justified with
    nodup := fun key' => (hupdate key').1
    replies := fun key' => (hupdate key').2 }, h.vouched⟩

theorem handleRespond_advances (hp : p ∈ cfg.committee.members) {ctx : Ctx} (hself : ctx.self = p)
    (hmembers : ctx.members = cfg.committee.members) (h : Backed cfg (sys.after p s) s)
    {request : Request} {sender : InterfaceId}
    (hissued : Issued cfg (sys.after p s) (extractKey request))
    (hknows : Knows cfg (sys.after p s) sender (extractKey request)) :
    Advances cfg sys p s (handleRespond ctx request sender s) := by
  unfold handleRespond
  dsimp only
  by_cases hleads : s.leaderId ≠ ctx.self
  · rw [if_pos hleads]
    exact .refl h
  by_cases hother : ¬ s.hasInFlight ∨ extractKey request ≠ s.inFlightKey
  · rw [if_neg hleads, if_pos hother]
    exact .refl h
  by_cases hunset : sender = NO_PEER_ID
  · rw [if_neg hleads, if_neg hother, if_pos hunset]
    exact .refl h
  by_cases hcounted : sender ∈ (s.replies (extractKey request)).getD []
  · rw [if_neg hleads, if_neg hother, if_neg hunset, if_pos hcounted]
    exact .refl h
  rw [if_neg hleads, if_neg hother, if_neg hunset, if_neg hcounted]
  have hnodup : ((s.replies (extractKey request)).getD [] ++ [sender]).Nodup := by
    rw [← List.concat_eq_append, List.nodup_concat]
    exact ⟨hcounted, h.justified.nodup _⟩
  have hresponders : ∀ q ∈ (s.replies (extractKey request)).getD [] ++ [sender],
      Knows cfg (sys.after p s) q (extractKey request) := by
    intro q hq
    rcases List.mem_append.mp hq with hq | hq
    · exact h.justified.replies _ q hq
    · obtain rfl := List.mem_singleton.mp hq
      exact hknows
  have hrecorded := record_advances h hnodup hresponders
  split_ifs with hquorum
  · refine hrecorded.trans (confirmRequest_advances hp hself hrecorded.backed ?_ _)
    refine Committable.grow ⟨hissued, ?_⟩ hrecorded.grows
    have hlength := length_le_knowers hnodup hresponders
    rw [hasQuorum, quorumThreshold, hmembers, decide_eq_true_eq] at hquorum
    unfold Committee.size
    omega
  · exact hrecorded

theorem handleVote_advances (hp : p ∈ cfg.committee.members) {ctx : Ctx} (hself : ctx.self = p)
    (h : Backed cfg (sys.after p s) s) (voteFor sender : InterfaceId) :
    Advances cfg sys p s (handleVote ctx voteFor sender s) := by
  unfold handleVote
  dsimp only
  split_ifs
  · exact .refl h
  · exact .refl h
  · exact .refl h
  · refine .andThen ?_ (startReplication_advances hp hself)
    refine .andThen ?_ (tryForwardDeferredRequests_advances ctx)
    refine .andThen ?_ fun h => election_advances h _ _ _ _ _
    refine .andThen ?_ fun h => resetReplicationState_advances h true
    refine .andThen ?_ fun h => election_advances h _ _ _ _ _
    refine .andThen ?_ (resetTimer_advances ctx)
    exact election_advances h _ _ _ _ _
  · exact election_advances h _ _ _ _ _

theorem handleElect_advances (ctx : Ctx) (h : Backed cfg (sys.after p s) s) (sender : InterfaceId)
    (termNum roundSubmitted : Int) :
    Advances cfg sys p s (handleElect ctx sender termNum roundSubmitted s) := by
  unfold handleElect
  dsimp only
  split_ifs
  · exact .refl h
  · refine .andThen ?_ fun h => unicastTo_advances ctx (.vote sender ctx.self _ _) h trivial sender
    refine .andThen ?_ (resetTimer_advances ctx)
    refine .andThen ?_ fun h => resetReplicationState_advances h true
    exact election_advances h _ _ _ _ _

theorem handleCommit_advances {ctx : Ctx} (h : Backed cfg (sys.after p s) s) {request : Request}
    (hcommit : Committable cfg (sys.after p s) (extractKey request)) (sender : InterfaceId)
    (termNum roundCommitted roundSubmitted : Int) : Advances cfg sys p s
      (handleCommit ctx request sender termNum roundCommitted roundSubmitted s) := by
  unfold handleCommit
  dsimp only
  split_ifs
  · exact .refl h
  · have hraised := election_advances h s.leaderId s.candidate termNum s.leaderChanges s.votes
    exact hraised.trans (applyCommit_advances hraised.backed (hcommit.grow hraised.grows) _ _ false)
  · exact applyCommit_advances h hcommit _ _ false

theorem maybeGenerateClientRequest_advances (hp : p ∈ cfg.committee.members) {ctx : Ctx}
    (hself : ctx.self = p) (h : Backed cfg (sys.after p s) s) :
    Advances cfg sys p s (maybeGenerateClientRequest ctx s) := by
  subst hself
  have hdrawn := randMod_advances h s.submitRate
  unfold maybeGenerateClientRequest
  dsimp only
  split_ifs
  · exact .refl h
  · exact hdrawn
  · obtain ⟨hgenerated, hissued⟩ := generate_advances hp hdrawn.backed
    exact (hdrawn.trans hgenerated).trans
      (onClientRequest_advances hp rfl hgenerated.backed (freshRequest ctx _) hissued)

theorem tick_advances (hp : p ∈ cfg.committee.members) {ctx : Ctx} (hself : ctx.self = p)
    (h : Backed cfg (sys.after p s) s) : Advances cfg sys p s (tick ctx s) := by
  unfold tick
  refine .andThen ?_ (tryForwardDeferredRequests_advances ctx)
  refine .andThen (maybeGenerateClientRequest_advances hp hself h) fun h => ?_
  unfold maybeStartElection
  dsimp only
  split_ifs
  · exact .refl h
  · refine .andThen ?_ fun h => multicast_advances ctx (.elect ctx.self _ _) h trivial
    refine .andThen ?_ (resetTimer_advances ctx)
    refine .andThen (resetReplicationState_advances h true) fun h => ?_
    exact election_advances h _ _ _ _ _

theorem onMessage_advances (hp : p ∈ cfg.committee.members) {ctx : Ctx} (hself : ctx.self = p)
    (hmembers : ctx.members = cfg.committee.members) (h : Backed cfg (sys.after p s) s) {m : Message}
    (hm : Vouched cfg (sys.after p s) m) : Advances cfg sys p s (onMessage ctx m s) := by
  cases m with
  | clientRequest request => exact onClientRequest_advances hp hself h request hm
  | request request sender termNum => exact handleRequest_advances hp hself h hm sender termNum
  | respondRequest request sender termNum round =>
    exact handleRespond_advances hp hself hmembers h hm.1 hm.2
  | vote voteFor sender termNum round => exact handleVote_advances hp hself h voteFor sender
  | elect sender termNum round => exact handleElect_advances ctx h sender termNum round
  | commit request sender termNum committed submitted =>
    exact handleCommit_advances h hm sender termNum committed submitted

/-! ## Every run -/

theorem majorityInv_of_initial (h : Initial cfg sys) : MajorityInv cfg sys := by
  obtain ⟨-, hsent, hpeers⟩ := h
  constructor
  · intro p
    obtain ⟨jitter, -, -, hp⟩ := hpeers p
    rw [hp]
    refine ⟨le_rfl, ?_, ?_, ?_, ?_, ?_, ?_⟩
    · exact fun r hr => absurd hr List.not_mem_nil
    · exact fun r hr => absurd hr List.not_mem_nil
    · exact fun hin => absurd hin Bool.false_ne_true
    · exact fun key => List.nodup_nil
    · exact fun key q hq => absurd hq List.not_mem_nil
    · exact fun key hkey => absurd hkey (Finset.notMem_empty key)
  · rw [hsent]
    exact fun pkt hpkt => absurd hpkt List.not_mem_nil

theorem after_start (sys : System) (p : InterfaceId) (draws : List Nat) :
    sys.after p (sys.start p draws) = sys := by
  have hpeers : Function.update sys.peers p (sys.peers p) = sys.peers := Function.update_eq_self p _
  have hsent : sys.sent ++ [] = sys.sent := List.append_nil _
  unfold after start
  dsimp only
  rw [hpeers, hsent]

theorem MajorityInv.backed (inv : MajorityInv cfg sys) (p : InterfaceId) (draws : List Nat) :
    Backed cfg (sys.after p (sys.start p draws)) (sys.start p draws) := by
  rw [after_start]
  exact ⟨inv.peers p, fun pkt hpkt => absurd hpkt List.not_mem_nil⟩

theorem MajorityInv.after (inv : MajorityInv cfg sys) {draws : List Nat} {r : Local}
    (h : Advances cfg sys p (sys.start p draws) r) : MajorityInv cfg (sys.after p r) := by
  have hgrow := h.grows
  rw [after_start] at hgrow
  constructor
  · intro q
    by_cases hq : q = p
    · subst hq
      rw [after_self]
      exact h.backed.justified
    · rw [after_other hq]
      exact (inv.peers q).grow hgrow
  · intro pkt hpkt
    rcases List.mem_append.mp hpkt with hpkt | hpkt
    · exact (inv.sent pkt hpkt).grow hgrow
    · exact h.backed.vouched pkt hpkt

theorem majorityInv_of_reached (h : (machine cfg).Reached sys) : MajorityInv cfg sys := by
  refine h.invariant (fun _ => majorityInv_of_initial) ?_
  intro sys e sys' inv _ hstep
  rcases step_cases hstep with ⟨-, rfl⟩ | ⟨p, pkt, draws, rfl, hp, hpkt, -, rfl⟩ |
    ⟨p, draws, rfl, hp, rfl⟩
  · have hgrow : Grows sys { sys with round := sys.round + 1 } := ⟨fun _ => subset_rfl, fun _ => le_rfl⟩
    exact ⟨fun p => (inv.peers p).grow hgrow, fun pkt hpkt => (inv.sent pkt hpkt).grow hgrow⟩
  · have hm := inv.sent pkt hpkt
    rw [← after_start sys p draws] at hm
    exact inv.after (onMessage_advances hp rfl rfl (inv.backed p draws) hm)
  · exact inv.after (tick_advances hp rfl (inv.backed p draws))

/-- **Commits are known to a majority.** In every state that a run of a committee reaches, a key that some
peer has committed is known to more than half of the members, and its submitter has generated it. -/
theorem commits_known_to_majority (h : (machine cfg).Reached sys) (p : InterfaceId) (key : TxKey)
    (hkey : key ∈ (sys.peers p).committedRequests) :
    cfg.committee.size / 2 <
        (cfg.committee.members.filter fun q => key ∈ (sys.peers q).knownRequests).length ∧
      key.1 ∈ cfg.committee.members ∧ 0 ≤ key.2 ∧ key.2 < (sys.peers key.1).nextClientRequestId := by
  have hcommit := ((majorityInv_of_reached h).peers p).committed key hkey
  exact ⟨hcommit.majority, hcommit.issued.submitter, hcommit.issued.nonneg, hcommit.issued.lt⟩

end Handlers

/-- After the first commit of three peers, peer 1 has committed the first request of peer 0. -/
theorem commits_known_to_majority_oneCommit :
    ∃ sys, (machine { committee := .ofSize 3 }).Reached sys ∧ (0, 0) ∈ (sys.peers 1).committedRequests ∧
      (Committee.ofSize 3).size / 2 <
        ((Committee.ofSize 3).members.filter fun q => (0, 0) ∈ (sys.peers q).knownRequests).length ∧
      (0 : InterfaceId) ∈ (Committee.ofSize 3).members ∧ (0 : Int) ≤ 0 ∧
      0 < (sys.peers 0).nextClientRequestId := by
  have hrun : ((machine { committee := .ofSize 3 }).run (fresh { committee := .ofSize 3 } fun _ => 0)
      oneCommit).map (fun sys => decide ((0, 0) ∈ (sys.peers 1).committedRequests)) = some true := by
    decide +kernel
  obtain ⟨sys, hsys, hcommitted⟩ := Option.map_eq_some_iff.mp hrun
  have hreached := Lib.Machine.reached_of_run (.start (initial_fresh fun _ => by decide)) hsys
  have hkey := of_decide_eq_true hcommitted
  exact ⟨sys, hreached, hkey, commits_known_to_majority hreached 1 (0, 0) hkey⟩

end System

end Quantas.Raft
