import Quantas.Lib.Custody
import Quantas.Raft.Frame

/-!
# Raft: the queues of a peer as a custody of keys

`custody` reads the request queues, the in-flight slot and the two key sets of a peer as the places of a
custody of keys, and each function that moves requests is one operation there. The last part uses the exact
form of `tryForwardDeferredRequests` to show that the fuel of `startReplication` is enough.
-/

namespace Quantas.Raft

variable {ctx : Ctx}

/-- Deferred requests wait, pending ones are ready, the one in flight is held. -/
def custody (s : RaftConsensus) : Lib.Custody TxKey where
  known := s.knownRequests
  done := s.committedRequests
  waiting := s.deferredClientRequests.map extractKey
  ready := s.pendingClientRequests.map extractKey
  held := if s.hasInFlight then some s.inFlightKey else none

theorem custody_places (s : RaftConsensus) (key : TxKey) :
    (custody s).places key = (if key ∈ s.committedRequests then 1 else 0) +
      (s.deferredClientRequests.countP fun r => extractKey r = key) +
      (s.pendingClientRequests.countP fun r => extractKey r = key) +
      (if s.hasInFlight ∧ s.inFlightKey = key then 1 else 0) := by
  have hcount : ∀ rs : List Request,
      (rs.map extractKey).countP (fun k => decide (k = key)) =
        rs.countP fun r => extractKey r = key := by
    intro rs
    rw [List.countP_map]
    rfl
  have hheld : (custody s).held = some key ↔ (s.hasInFlight ∧ s.inFlightKey = key) := by
    cases hin : s.hasInFlight <;> simp [custody, hin]
  rw [Lib.Custody.places, Lib.Custody.queued]
  simp only [hheld, ← hcount, ← Nat.add_assoc]
  rfl

/-! ## Forwarding -/

def live (s : RaftConsensus) (request : Request) : Bool :=
  keyValid (extractKey request) ∧ extractKey request ∉ s.committedRequests

theorem discarded_iff (s : RaftConsensus) (request : Request) :
    (¬ keyValid (extractKey request) ∨ extractKey request ∈ s.committedRequests) ↔
      ¬ live s request = true := by
  simp only [live, decide_eq_true_eq]
  tauto

theorem tryForwardDeferredRequests_leader {s : Local} (hleads : s.leaderId = ctx.self) :
    tryForwardDeferredRequests ctx s = { s with
      deferredClientRequests := []
      pendingClientRequests := s.pendingClientRequests ++
        (s.deferredClientRequests.filter (live s.toRaftConsensus)).map
          fun r => { r with forwardedTo := none } } := by
  suffices h : ∀ (rs : List Request) (t : Local), t.leaderId = ctx.self →
      rs.foldl (forwardDeferred ctx) t = { t with
        pendingClientRequests := t.pendingClientRequests ++
          (rs.filter (live t.toRaftConsensus)).map fun r => { r with forwardedTo := none } } from
    h s.deferredClientRequests { s with deferredClientRequests := [] } hleads
  intro rs
  induction rs with
  | nil => intro t _; simp
  | cons r rs ih =>
    intro t ht
    rw [List.foldl_cons, forwardDeferred]
    cases hlive : live t.toRaftConsensus r with
    | false =>
      rw [if_pos ((discarded_iff _ _).mpr (by simp [hlive])), ih t ht, List.filter_cons, hlive]
      rfl
    | true =>
      rw [if_neg fun hgone => (discarded_iff _ _).mp hgone hlive, if_pos ht, ih, List.filter_cons, hlive]
      · rw [List.append_assoc]
        rfl
      · exact ht

theorem forwardDeferred_follower {s : Local} (hfollows : s.leaderId ≠ ctx.self) (r : Request) :
    ∃ ds out, forwardDeferred ctx s r = { s with
        deferredClientRequests := s.deferredClientRequests ++ ds, outbox := out } ∧
      ds.map extractKey = if live s.toRaftConsensus r then [extractKey r] else [] := by
  rw [forwardDeferred]
  cases hlive : live s.toRaftConsensus r with
  | false =>
    rw [if_pos ((discarded_iff _ _).mpr (by simp [hlive]))]
    exact ⟨[], s.outbox, by simp, by simp⟩
  | true =>
    rw [if_neg fun hgone => (discarded_iff _ _).mp hgone hlive, if_neg hfollows, unicastTo_eq]
    change ∃ (ds : List Request) (out : List (Packet Message)), _ ∧ ds.map extractKey = [extractKey r]
    split_ifs
    · exact ⟨[{ r with forwardedTo := some s.leaderId }], _, rfl, rfl⟩
    · exact ⟨[{ r with forwardedTo := some s.leaderId }], _, rfl, rfl⟩
    · exact ⟨[r], s.outbox, rfl, rfl⟩
    · exact ⟨[r], s.outbox, rfl, rfl⟩

theorem tryForwardDeferredRequests_follower {s : Local} (hfollows : s.leaderId ≠ ctx.self) :
    ∃ ds out, tryForwardDeferredRequests ctx s = { s with
        deferredClientRequests := ds, outbox := out } ∧
      ds.map extractKey =
        (s.deferredClientRequests.filter (live s.toRaftConsensus)).map extractKey := by
  suffices h : ∀ (rs : List Request) (t : Local), t.leaderId ≠ ctx.self →
      ∃ ds out, rs.foldl (forwardDeferred ctx) t = { t with
          deferredClientRequests := t.deferredClientRequests ++ ds, outbox := out } ∧
        ds.map extractKey = (rs.filter (live t.toRaftConsensus)).map extractKey from
    h s.deferredClientRequests { s with deferredClientRequests := [] } hfollows
  intro rs
  induction rs with
  | nil => exact fun t _ => ⟨[], t.outbox, by simp, rfl⟩
  | cons r rs ih =>
    intro t ht
    obtain ⟨ds, out, hr, hds⟩ := forwardDeferred_follower ht r
    obtain ⟨ds', out', hrs, hds'⟩ := ih (forwardDeferred ctx t r) (by rw [hr]; exact ht)
    refine ⟨ds ++ ds', out', by rw [List.foldl_cons, hrs, hr, List.append_assoc], ?_⟩
    rw [List.map_append, hds, hds', hr, List.filter_cons]
    cases live t.toRaftConsensus r <;> rfl

/-! ## The operations -/

theorem map_filter_live (s : RaftConsensus) (rs : List Request) :
    (rs.filter (live s)).map extractKey =
      (rs.map extractKey).filter ((custody s).live keyValid) := by
  rw [List.filter_map]
  rfl

theorem custody_enqueueDeferred (r : Request) (s : Local) :
    custody (enqueueDeferred r s).toRaftConsensus =
      (custody s.toRaftConsensus).accept keyValid (extractKey r) := by
  have hknown : (custody s.toRaftConsensus).known = s.knownRequests := rfl
  unfold enqueueDeferred Lib.Custody.accept
  rw [hknown]
  by_cases hnew : keyValid (extractKey r) ∧ extractKey r ∉ s.knownRequests
  · rw [if_pos hnew, if_pos hnew]
    simp [custody]
  · rw [if_neg hnew, if_neg hnew]

theorem custody_tryForward_leader {s : Local} (hleads : s.leaderId = ctx.self) :
    custody (tryForwardDeferredRequests ctx s).toRaftConsensus =
      (custody s.toRaftConsensus).promote keyValid := by
  rw [tryForwardDeferredRequests_leader hleads, Lib.Custody.promote]
  have hkeys := map_filter_live s.toRaftConsensus s.deferredClientRequests
  simp only [custody, List.map_append, List.map_map, List.map_nil] at hkeys ⊢
  rw [← hkeys]
  rfl

theorem custody_tryForward_follower {s : Local} (hfollows : s.leaderId ≠ ctx.self) :
    custody (tryForwardDeferredRequests ctx s).toRaftConsensus =
      (custody s.toRaftConsensus).sweep keyValid := by
  obtain ⟨ds, out, heq, hds⟩ := tryForwardDeferredRequests_follower hfollows
  rw [map_filter_live] at hds
  rw [heq, Lib.Custody.sweep, custody, hds]
  rfl

theorem custody_resetTimer (s : Local) :
    custody (resetTimer ctx s).toRaftConsensus = custody s.toRaftConsensus := by
  unfold resetTimer randMod
  split_ifs <;> rfl

theorem custody_replicateFirst (rs : List Request) (s : Local) :
    custody (replicateFirst ctx rs s).toRaftConsensus =
      { custody s.toRaftConsensus with ready := rs.map extractKey }.start keyValid := by
  induction rs with
  | nil => rfl
  | cons r rs ih =>
    rw [replicateFirst]
    dsimp only
    unfold Lib.Custody.start at ih ⊢
    rw [List.map_cons, List.dropWhile_cons]
    cases hlive : live s.toRaftConsensus r with
    | false =>
      rw [if_pos ((discarded_iff _ _).mpr (by simp [hlive])), ih]
      have hdead : ({ custody s.toRaftConsensus with
          ready := extractKey r :: rs.map extractKey }.live keyValid (extractKey r)) = false := hlive
      rw [hdead]
      rfl
    | true =>
      rw [if_neg fun hgone => (discarded_iff _ _).mp hgone hlive, custody_resetTimer, multicast_eq]
      have hready : ({ custody s.toRaftConsensus with
          ready := extractKey r :: rs.map extractKey }.live keyValid (extractKey r)) = true := hlive
      rw [hready]
      rfl

theorem custody_requeue {s : Local}
    (hkey : s.hasInFlight = true → extractKey s.inFlightRequest = s.inFlightKey) :
    custody (resetReplicationState true s).toRaftConsensus =
      (custody s.toRaftConsensus).requeue keyValid := by
  unfold resetReplicationState Lib.Custody.requeue
  cases hin : s.hasInFlight with
  | false => simp [custody, hin]
  | true =>
    have hkey := hkey hin
    by_cases hlive : keyValid s.inFlightKey = true ∧ s.inFlightKey ∉ s.committedRequests
    · simp [custody, hin, hlive.1, hlive.2, Lib.Custody.live, hkey]
    · have hdead : ¬ (keyValid s.inFlightKey = true ∧ s.inFlightKey ∉ s.committedRequests) := hlive
      simp only [custody, hin, Lib.Custody.live, hdead, true_and, if_true, decide_false,
        Bool.false_eq_true, if_false]
      split_ifs <;> rfl

theorem custody_applyCommit {r : Request} (hvalid : keyValid (extractKey r)) (submitted committed : Int)
    (skip : Bool) (s : Local) :
    custody (applyCommit r submitted committed skip s).toRaftConsensus =
      (custody s.toRaftConsensus).finish (extractKey r) := by
  have hfilter : ∀ rs : List Request,
      (rs.filter fun r' => extractKey r' ≠ extractKey r).map extractKey =
        (rs.map extractKey).filter (· ≠ extractKey r) := by
    intro rs
    rw [List.filter_map]
    rfl
  unfold applyCommit
  dsimp only
  rw [if_neg (not_not.mpr hvalid), Lib.Custody.finish]
  cases skip <;>
    simp only [custody, dropPendingRequest, dropDeferredRequest, pushConfirmed, hfilter, if_true,
      Bool.false_eq_true, if_false]

/-! ## The fuel of `startReplication` -/

/-- The state in which a leader without pending requests calls `tryStartReplication` again: it has
generated a request and forwarded its deferred ones. -/
def generated (ctx : Ctx) (s : Local) : Local :=
  tryForwardDeferredRequests ctx (enqueueDeferred (freshRequest ctx s)
    { s with nextClientRequestId := s.nextClientRequestId + 1 })

theorem acceptClientRequest_fresh (start : Local → Local) (s : Local) :
    acceptClientRequest ctx start (freshRequest ctx s)
        { s with nextClientRequestId := s.nextClientRequestId + 1 } =
      if (generated ctx s).leaderId = ctx.self then start (generated ctx s) else generated ctx s :=
  rfl

theorem generated_leaderId (s : Local) : (generated ctx s).leaderId = s.leaderId :=
  (tryForwardDeferredRequests_replicates _ _).leaderId.trans
    (enqueueDeferred_replicates ctx _ _).leaderId

theorem generated_nextClientRequestId {s : Local} (hleads : s.leaderId = ctx.self) :
    (generated ctx s).nextClientRequestId = s.nextClientRequestId + 1 := by
  have hleads' : (enqueueDeferred (freshRequest ctx s)
      { s with nextClientRequestId := s.nextClientRequestId + 1 }).leaderId = ctx.self :=
    (enqueueDeferred_replicates ctx _ _).leaderId.trans hleads
  rw [generated, tryForwardDeferredRequests_leader hleads']
  unfold enqueueDeferred
  split_ifs <;> rfl

theorem staleKeys_generated {s : Local} (hself : ctx.self ≠ NO_PEER_ID)
    (hnext : 0 ≤ s.nextClientRequestId) (hleads : s.leaderId = ctx.self)
    (hpending : (generated ctx s).pendingClientRequests = []) :
    (staleKeys (generated ctx s).toRaftConsensus).card < (staleKeys s.toRaftConsensus).card := by
  have hvalid : keyValid (ctx.self, s.nextClientRequestId) = true := by simp [keyValid, hself, hnext]
  have hkey : extractKey (freshRequest ctx s) = (ctx.self, s.nextClientRequestId) := rfl
  have hleads' : (enqueueDeferred (freshRequest ctx s)
      { s with nextClientRequestId := s.nextClientRequestId + 1 }).leaderId = ctx.self :=
    (enqueueDeferred_replicates ctx _ _).leaderId.trans hleads
  have hid := generated_nextClientRequestId hleads
  rw [generated, tryForwardDeferredRequests_leader hleads'] at hpending hid ⊢
  unfold enqueueDeferred at hpending hid ⊢
  rw [hkey] at hpending hid ⊢
  -- the fresh key is stale before, and its number is too small to be stale after
  have hstale : ∀ known : Finset TxKey, known ⊆ insert (ctx.self, s.nextClientRequestId) s.knownRequests →
      (ctx.self, s.nextClientRequestId) ∈ s.knownRequests ∪ s.committedRequests →
      ((known ∪ s.committedRequests).filter fun k => s.nextClientRequestId + 1 ≤ k.2).card <
        (staleKeys s.toRaftConsensus).card := by
    intro known hknown hmem
    refine Finset.card_lt_card ((Finset.ssubset_iff_of_subset ?_).mpr
      ⟨(ctx.self, s.nextClientRequestId), ?_, ?_⟩)
    · intro k hk
      rw [Finset.mem_filter, Finset.mem_union] at hk
      rw [staleKeys, Finset.mem_filter, Finset.mem_union]
      refine ⟨hk.1.imp_left fun hin => ?_, by omega⟩
      rcases Finset.mem_insert.mp (hknown hin) with rfl | hin
      · exact absurd hk.2 (by simp)
      · exact hin
    · rw [staleKeys, Finset.mem_filter]
      exact ⟨hmem, le_rfl⟩
    · simp
  by_cases hnew : keyValid (ctx.self, s.nextClientRequestId) = true ∧
      (ctx.self, s.nextClientRequestId) ∉ s.knownRequests
  · rw [if_pos hnew] at hpending ⊢
    refine hstale _ subset_rfl (Finset.mem_union_right _ ?_)
    by_contra hfresh
    simp [List.filter_append, live, hkey, hvalid, hfresh] at hpending
  · rw [if_neg hnew] at hpending ⊢
    refine hstale _ (Finset.subset_insert _ _) (Finset.mem_union_left _ ?_)
    by_contra hunknown
    exact hnew ⟨hvalid, hunknown⟩

theorem tryStartReplication_of_pending {s : Local} (hpending : s.pendingClientRequests ≠ [])
    (fuel fuel' : Nat) : tryStartReplication ctx fuel s = tryStartReplication ctx fuel' s := by
  unfold tryStartReplication
  rw [if_neg hpending, if_neg hpending]

theorem tryStartReplication_stable (hself : ctx.self ≠ NO_PEER_ID) (fuel : Nat) {s : Local}
    (hnext : 0 ≤ s.nextClientRequestId) (hfuel : (staleKeys s.toRaftConsensus).card < fuel) :
    tryStartReplication ctx (fuel + 1) s = tryStartReplication ctx fuel s := by
  induction fuel generalizing s with
  | zero => omega
  | succ fuel ih =>
    by_cases hidle : s.leaderId ≠ ctx.self ∨ s.hasInFlight
    · unfold tryStartReplication
      rw [if_pos hidle, if_pos hidle]
    by_cases hempty : s.pendingClientRequests = []
    swap
    · exact tryStartReplication_of_pending hempty _ _
    have hleads : s.leaderId = ctx.self := by
      by_contra hfollows
      exact hidle (.inl hfollows)
    have hnested : tryStartReplication ctx (fuel + 1) (generated ctx s) =
        tryStartReplication ctx fuel (generated ctx s) := by
      by_cases hpending : (generated ctx s).pendingClientRequests = []
      · have hfewer := staleKeys_generated hself hnext hleads hpending
        have hid := generated_nextClientRequestId hleads
        exact ih (by omega) (by omega)
      · exact tryStartReplication_of_pending hpending _ _
    unfold tryStartReplication
    rw [if_neg hidle, if_neg hidle, if_pos hempty, if_pos hempty]
    dsimp only
    rw [acceptClientRequest_fresh, acceptClientRequest_fresh, hnested]

theorem tryStartReplication_of_le (hself : ctx.self ≠ NO_PEER_ID) {s : Local}
    (hnext : 0 ≤ s.nextClientRequestId) {fuel : Nat}
    (hfuel : (staleKeys s.toRaftConsensus).card < fuel) :
    tryStartReplication ctx fuel s = startReplication ctx s := by
  have h : ∀ d, tryStartReplication ctx ((staleKeys s.toRaftConsensus).card + 1 + d) s =
      tryStartReplication ctx ((staleKeys s.toRaftConsensus).card + 1) s := by
    intro d
    induction d with
    | zero => rfl
    | succ d ih => rw [← Nat.add_assoc, tryStartReplication_stable hself _ hnext (by omega), ih]
  obtain ⟨d, rfl⟩ := Nat.exists_eq_add_of_le (Nat.succ_le_of_lt hfuel)
  exact (h d).trans (h 1).symm

/-- **`startReplication` is `tryStartReplication`.** It solves the recursive equation of the source. -/
theorem startReplication_eq (hself : ctx.self ≠ NO_PEER_ID) {s : Local}
    (hnext : 0 ≤ s.nextClientRequestId) :
    startReplication ctx s =
      if s.leaderId ≠ ctx.self ∨ s.hasInFlight then s
      else if s.pendingClientRequests = [] then
        let s := onClientRequest ctx (freshRequest ctx s)
          { s with nextClientRequestId := s.nextClientRequestId + 1 }
        replicateFirst ctx s.pendingClientRequests s
      else replicateFirst ctx s.pendingClientRequests s := by
  rw [startReplication, tryStartReplication]
  by_cases hidle : s.leaderId ≠ ctx.self ∨ s.hasInFlight
  · rw [if_pos hidle, if_pos hidle]
  by_cases hempty : s.pendingClientRequests = []
  swap
  · rw [if_neg hidle, if_neg hidle, if_neg hempty, if_neg hempty]
  have hleads : s.leaderId = ctx.self := by
    by_contra hfollows
    exact hidle (.inl hfollows)
  have hnested : tryStartReplication ctx ((staleKeys s.toRaftConsensus).card + 1) (generated ctx s) =
      startReplication ctx (generated ctx s) := by
    by_cases hpending : (generated ctx s).pendingClientRequests = []
    · have hfewer := staleKeys_generated hself hnext hleads hpending
      have hid := generated_nextClientRequestId hleads
      exact tryStartReplication_of_le hself (by omega) (by omega)
    · exact tryStartReplication_of_pending hpending _ _
  rw [if_neg hidle, if_neg hidle, if_pos hempty, if_pos hempty]
  dsimp only
  rw [onClientRequest, acceptClientRequest_fresh, acceptClientRequest_fresh, hnested]

end Quantas.Raft
