import Quantas.Raft.Conservation
import Quantas.Raft.Majority

/-!
# Raft: how many requests one call puts into flight

`tryStartReplication` and `onClientRequest` call each other, and the outer call goes on with its loop after
the inner one has filled the in-flight slot. `starts` follows the same recursion and lists what each pass of
the loop puts into flight, with the state whose slot it assigns; the packets of a call are those of its
starts.

A call that generates a request first moves the deferred requests to the pending ones. With two requests
waiting then, the inner call takes the first and the outer call the second, whose assignment overwrites
the first; `Roomy` excludes just this.
-/

namespace Quantas.Raft

variable {ctx : Ctx}

/-! ## What a call puts into flight -/

/-- A pass of the replication loop that fills the in-flight slot: the request that it multicasts, and the
state whose slot it assigns. -/
structure Start where
  request : Request
  before : RaftConsensus

/-- What `replicateFirst` puts into flight. -/
def firstStart (ctx : Ctx) : List Request → RaftConsensus → List Start
  | [], _ => []
  | request :: rest, s =>
    if ¬ keyValid (extractKey request) ∨ extractKey request ∈ s.committedRequests then
      firstStart ctx rest s
    else [⟨{ request with roundSubmitted := some ctx.round }, s⟩]

/-- What `tryStartReplication` puts into flight, that of the nested call first. -/
def starts (ctx : Ctx) (fuel : Nat) (s : Local) : List Start :=
  if s.leaderId ≠ ctx.self ∨ s.hasInFlight then []
  else if s.pendingClientRequests = [] then
    match fuel with
    | 0 => []
    | fuel + 1 =>
      let t := acceptClientRequest ctx (tryStartReplication ctx fuel) (freshRequest ctx s)
        { s with nextClientRequestId := s.nextClientRequestId + 1 }
      (if (generated ctx s).leaderId = ctx.self then starts ctx fuel (generated ctx s) else []) ++
        firstStart ctx t.pendingClientRequests t.toRaftConsensus
  else firstStart ctx s.pendingClientRequests s.toRaftConsensus

def Start.packets (ctx : Ctx) (start : Start) : List (Packet Message) :=
  (ctx.members.filter (· ∈ ctx.neighbors)).map fun dest =>
    ⟨ctx.self, dest, .request start.request ctx.self start.before.term⟩

def Start.Overwrites (start : Start) : Prop :=
  start.before.hasInFlight = true ∧ start.before.inFlightKey ∉ start.before.committedRequests

/-- The key of a deferred request, of a pending one or of the one in flight. -/
def Waits (s : RaftConsensus) (key : TxKey) : Prop :=
  key ∈ s.deferredClientRequests.map extractKey ∨ key ∈ s.pendingClientRequests.map extractKey ∨
    (s.hasInFlight = true ∧ s.inFlightKey = key)

/-- A call from `s` to `s'` with these starts replicates one request at a time. -/
structure OneAtATime (s s' : RaftConsensus) (started : List Start) : Prop where
  one : started.length ≤ 1
  keeps : ∀ start ∈ started, ¬ start.Overwrites
  conserves : ∀ key, keyValid key → Waits s key → Waits s' key ∨ key ∈ s'.committedRequests

def liveDeferred (s : RaftConsensus) : List Request := s.deferredClientRequests.filter (live s)

/-- The request that the peer would generate next is valid, new and not committed. -/
def FreshLive (ctx : Ctx) (s : RaftConsensus) : Prop :=
  keyValid (ctx.self, s.nextClientRequestId) ∧ (ctx.self, s.nextClientRequestId) ∉ s.knownRequests ∧
    (ctx.self, s.nextClientRequestId) ∉ s.committedRequests

instance (s : RaftConsensus) : Decidable (FreshLive ctx s) := inferInstanceAs (Decidable (_ ∧ _ ∧ _))

/-- A request is in flight or pending already, or at most one request waits: the deferred ones and the
one that the call would generate. -/
def Roomy (ctx : Ctx) (s : RaftConsensus) : Prop :=
  s.hasInFlight = true ∨ s.pendingClientRequests ≠ [] ∨
    (liveDeferred s).length + (if FreshLive ctx s then 1 else 0) ≤ 1

instance (s : RaftConsensus) : Decidable (Roomy ctx s) := inferInstanceAs (Decidable (_ ∨ _ ∨ _))

/-! ## The loop -/

theorem replicateFirst_cons (ctx : Ctx) {r : Request} {s : Local} (hlive : live s.toRaftConsensus r = true)
    (rest : List Request) :
    firstStart ctx (r :: rest) s.toRaftConsensus =
        [⟨{ r with roundSubmitted := some ctx.round }, s.toRaftConsensus⟩] ∧
      (replicateFirst ctx (r :: rest) s).pendingClientRequests = rest ∧
      (replicateFirst ctx (r :: rest) s).deferredClientRequests = s.deferredClientRequests ∧
      (replicateFirst ctx (r :: rest) s).hasInFlight = true ∧
      (replicateFirst ctx (r :: rest) s).inFlightKey = extractKey r ∧
      (replicateFirst ctx (r :: rest) s).outbox = s.outbox ++
        Start.packets ctx ⟨{ r with roundSubmitted := some ctx.round }, s.toRaftConsensus⟩ := by
  have hkept : ¬ (¬ keyValid (extractKey r) ∨ extractKey r ∈ s.committedRequests) :=
    fun hgone => (discarded_iff _ _).mp hgone hlive
  rw [replicateFirst, firstStart]
  dsimp only
  rw [if_neg hkept, if_neg hkept, multicast_eq]
  refine ⟨rfl, ?_⟩
  unfold resetTimer randMod
  split_ifs <;> exact ⟨rfl, rfl, rfl, rfl, rfl⟩

theorem replicateFirst_cases (ctx : Ctx) (rs : List Request) (s : Local) :
    ((∀ r ∈ rs, live s.toRaftConsensus r = false) ∧ firstStart ctx rs s.toRaftConsensus = [] ∧
      replicateFirst ctx rs s = { s with pendingClientRequests := [] }) ∨
    (∃ gone r rest, rs = gone ++ r :: rest ∧ (∀ d ∈ gone, live s.toRaftConsensus d = false) ∧
      live s.toRaftConsensus r = true ∧
      firstStart ctx rs s.toRaftConsensus = firstStart ctx (r :: rest) s.toRaftConsensus ∧
      replicateFirst ctx rs s = replicateFirst ctx (r :: rest) s) := by
  induction rs with
  | nil => exact .inl ⟨by simp, rfl, rfl⟩
  | cons r rs ih =>
    cases hlive : live s.toRaftConsensus r with
    | true => exact .inr ⟨[], r, rs, rfl, by simp, hlive, rfl, rfl⟩
    | false =>
      have hgone := (discarded_iff s.toRaftConsensus r).mpr (by simp [hlive])
      have hskip : replicateFirst ctx (r :: rs) s = replicateFirst ctx rs s := by
        rw [replicateFirst]
        dsimp only
        rw [if_pos hgone]
      rw [hskip, firstStart, if_pos hgone]
      rcases ih with ⟨hdead, hnone, heq⟩ | ⟨gone, r', rest, rfl, hdead, hrest⟩
      · left
        refine ⟨fun d hd => ?_, hnone, heq⟩
        rcases List.mem_cons.mp hd with rfl | hd
        · exact hlive
        · exact hdead d hd
      · right
        refine ⟨r :: gone, r', rest, rfl, fun d hd => ?_, hrest⟩
        rcases List.mem_cons.mp hd with rfl | hd
        · exact hlive
        · exact hdead d hd

theorem replicateFirst_outbox (ctx : Ctx) (rs : List Request) (s : Local) :
    (replicateFirst ctx rs s).outbox =
      s.outbox ++ (firstStart ctx rs s.toRaftConsensus).flatMap (Start.packets ctx) := by
  rcases replicateFirst_cases ctx rs s with ⟨-, hnone, heq⟩ | ⟨gone, r, rest, -, -, hlive, hstart, heq⟩
  · rw [hnone, heq, List.flatMap_nil, List.append_nil]
  · obtain ⟨hone, -, -, -, -, houtbox⟩ := replicateFirst_cons ctx hlive rest
    rw [hstart, hone, heq, houtbox, List.flatMap_singleton]

theorem firstStart_spec (ctx : Ctx) (rs : List Request) (s : Local) :
    (firstStart ctx rs s.toRaftConsensus).length ≤ 1 ∧
      ∀ start ∈ firstStart ctx rs s.toRaftConsensus, start.before = s.toRaftConsensus := by
  rcases replicateFirst_cases ctx rs s with ⟨-, hnone, -⟩ | ⟨gone, r, rest, -, -, hlive, hstart, -⟩
  · rw [hnone]
    exact ⟨Nat.zero_le 1, fun start hmem => absurd hmem List.not_mem_nil⟩
  · rw [hstart, (replicateFirst_cons ctx hlive rest).1]
    refine ⟨le_rfl, fun start hmem => ?_⟩
    rw [List.mem_singleton.mp hmem]

theorem replicateFirst_deferred (ctx : Ctx) (rs : List Request) (s : Local) :
    (replicateFirst ctx rs s).deferredClientRequests = s.deferredClientRequests := by
  rcases replicateFirst_cases ctx rs s with ⟨-, -, heq⟩ | ⟨gone, r, rest, -, -, hlive, -, heq⟩
  · rw [heq]
  · obtain ⟨-, -, hdeferred, -⟩ := replicateFirst_cons ctx hlive rest
    rw [heq, hdeferred]

theorem replicateFirst_waits {rs : List Request} {s : Local} {key : TxKey} (hvalid : keyValid key)
    (hkey : key ∈ rs.map extractKey) (hopen : key ∉ s.committedRequests) :
    Waits (replicateFirst ctx rs s).toRaftConsensus key := by
  obtain ⟨q, hq, rfl⟩ := List.mem_map.mp hkey
  have hlive : live s.toRaftConsensus q = true := by simp [live, hvalid, hopen]
  rcases replicateFirst_cases ctx rs s with ⟨hdead, -, -⟩ | ⟨gone, r, rest, rfl, hdead, hr, -, heq⟩
  · exact absurd (hdead q hq) (by simp [hlive])
  · obtain ⟨-, hpending, -, hin, hslot, -⟩ := replicateFirst_cons ctx hr rest
    rw [heq]
    rcases List.mem_append.mp hq with hq | hq
    · exact absurd (hdead q hq) (by simp [hlive])
    rcases List.mem_cons.mp hq with rfl | hq
    · exact .inr (.inr ⟨hin, hslot⟩)
    · right; left
      rw [hpending]
      exact List.mem_map_of_mem hq

/-! ## Generating a request -/

theorem generated_spec {s : Local} (hleads : s.leaderId = ctx.self) :
    (generated ctx s).hasInFlight = s.hasInFlight ∧
    (generated ctx s).committedRequests = s.committedRequests ∧
    (generated ctx s).outbox = s.outbox ∧
    (generated ctx s).deferredClientRequests = [] ∧
    (generated ctx s).pendingClientRequests.map extractKey =
      s.pendingClientRequests.map extractKey ++ (liveDeferred s.toRaftConsensus).map extractKey ++
        if FreshLive ctx s.toRaftConsensus then [(ctx.self, s.nextClientRequestId)] else [] := by
  have hleads' : (enqueueDeferred (freshRequest ctx s)
      { s with nextClientRequestId := s.nextClientRequestId + 1 }).leaderId = ctx.self :=
    (enqueueDeferred_replicates ctx _ _).leaderId.trans hleads
  have hkey : extractKey (freshRequest ctx s) = (ctx.self, s.nextClientRequestId) := rfl
  have hmap : ∀ rs : List Request,
      (rs.map fun r => { r with forwardedTo := none }).map extractKey = rs.map extractKey := by
    intro rs
    rw [List.map_map]
    rfl
  rw [generated, tryForwardDeferredRequests_leader hleads']
  dsimp only
  rw [List.map_append, hmap]
  unfold enqueueDeferred
  rw [hkey]
  by_cases hnew : keyValid (ctx.self, s.nextClientRequestId) = true ∧
      (ctx.self, s.nextClientRequestId) ∉ s.knownRequests
  · rw [if_pos hnew]
    refine ⟨rfl, rfl, rfl, rfl, ?_⟩
    dsimp only
    rw [List.filter_append, List.map_append, List.append_assoc]
    refine congrArg _ (congrArg _ ?_)
    by_cases hdone : (ctx.self, s.nextClientRequestId) ∈ s.committedRequests
    · simp [FreshLive, live, hkey, hdone]
    · simp [FreshLive, live, hkey, hdone, hnew.1, hnew.2]
  · rw [if_neg hnew]
    refine ⟨rfl, rfl, rfl, rfl, ?_⟩
    have hstale : ¬ FreshLive ctx s.toRaftConsensus := fun hfresh => hnew ⟨hfresh.1, hfresh.2.1⟩
    rw [if_neg hstale, List.append_nil]
    rfl

theorem generated_live {s : Local} (hleads : s.leaderId = ctx.self) (hempty : s.pendingClientRequests = []) :
    ∀ r ∈ (generated ctx s).pendingClientRequests, live (generated ctx s).toRaftConsensus r = true := by
  obtain ⟨-, hcommitted, -, -, hkeys⟩ := generated_spec hleads
  intro r hr
  have hkey : extractKey r ∈ (generated ctx s).pendingClientRequests.map extractKey :=
    List.mem_map_of_mem hr
  rw [hkeys, hempty, List.map_nil, List.nil_append] at hkey
  rw [live, hcommitted, decide_eq_true_eq]
  rcases List.mem_append.mp hkey with hkey | hkey
  · obtain ⟨d, hd, heq⟩ := List.mem_map.mp hkey
    have hlive := (List.mem_filter.mp hd).2
    rw [live, decide_eq_true_eq, heq] at hlive
    exact hlive
  · split_ifs at hkey with hfresh
    · rw [List.mem_singleton.mp hkey]
      exact ⟨hfresh.1, hfresh.2.2⟩
    · exact absurd hkey List.not_mem_nil

theorem generated_length {s : Local} (hleads : s.leaderId = ctx.self) (hempty : s.pendingClientRequests = []) :
    (generated ctx s).pendingClientRequests.length = (liveDeferred s.toRaftConsensus).length +
      if FreshLive ctx s.toRaftConsensus then 1 else 0 := by
  obtain ⟨-, -, -, -, hkeys⟩ := generated_spec hleads
  have hlength := congrArg List.length hkeys
  rw [hempty, List.map_nil, List.nil_append, List.length_append, List.length_map, List.length_map]
    at hlength
  rw [hlength]
  split_ifs <;> rfl

/-- How deep calls nest in `s`: each nested call that finds nothing pending has used up a stale key, or a
request number below zero. -/
def depth (s : RaftConsensus) : Nat := (staleKeys s).card + (-s.nextClientRequestId).toNat

theorem depth_generated (hself : ctx.self ≠ NO_PEER_ID) {s : Local} (hleads : s.leaderId = ctx.self)
    (hnone : (generated ctx s).pendingClientRequests = []) :
    depth (generated ctx s).toRaftConsensus < depth s.toRaftConsensus := by
  have hid := generated_nextClientRequestId hleads
  unfold depth
  rw [hid]
  by_cases hnext : 0 ≤ s.nextClientRequestId
  · have hfewer := staleKeys_generated hself hnext hleads hnone
    omega
  -- the key generated is invalid, so it becomes neither known nor pending
  have hleads' : (enqueueDeferred (freshRequest ctx s)
      { s with nextClientRequestId := s.nextClientRequestId + 1 }).leaderId = ctx.self :=
    (enqueueDeferred_replicates ctx _ _).leaderId.trans hleads
  have hinvalid : ¬ (keyValid (extractKey (freshRequest ctx s)) = true ∧
      extractKey (freshRequest ctx s) ∉ s.knownRequests) := by
    intro hnew
    have hvalid := hnew.1
    rw [keyValid, decide_eq_true_eq] at hvalid
    exact hnext hvalid.2
  have hsubset : staleKeys (generated ctx s).toRaftConsensus ⊆ staleKeys s.toRaftConsensus := by
    rw [generated, tryForwardDeferredRequests_leader hleads']
    unfold enqueueDeferred
    rw [if_neg hinvalid]
    intro key hkey
    rw [staleKeys, Finset.mem_filter] at hkey ⊢
    dsimp only at hkey
    exact ⟨hkey.1, by omega⟩
  have hcard := Finset.card_le_card hsubset
  omega

/-! ## One call -/

theorem tryStartReplication_generate {s : Local} (hleads : s.leaderId = ctx.self)
    (hidle : s.hasInFlight = false) (hempty : s.pendingClientRequests = []) (fuel : Nat) :
    tryStartReplication ctx (fuel + 1) s =
        replicateFirst ctx (tryStartReplication ctx fuel (generated ctx s)).pendingClientRequests
          (tryStartReplication ctx fuel (generated ctx s)) ∧
      starts ctx (fuel + 1) s = starts ctx fuel (generated ctx s) ++
        firstStart ctx (tryStartReplication ctx fuel (generated ctx s)).pendingClientRequests
          (tryStartReplication ctx fuel (generated ctx s)).toRaftConsensus := by
  have hbusy : ¬ (s.leaderId ≠ ctx.self ∨ s.hasInFlight = true) := by simp [hleads, hidle]
  have hleads' : (generated ctx s).leaderId = ctx.self := (generated_leaderId s).trans hleads
  constructor
  · rw [tryStartReplication, if_neg hbusy, if_pos hempty]
    dsimp only
    rw [acceptClientRequest_fresh, if_pos hleads']
  · rw [starts, if_neg hbusy, if_pos hempty]
    dsimp only
    rw [acceptClientRequest_fresh, if_pos hleads', if_pos hleads']

theorem tryStartReplication_pending {s : Local} (hleads : s.leaderId = ctx.self)
    (hidle : s.hasInFlight = false) (hpending : s.pendingClientRequests ≠ []) (fuel : Nat) :
    tryStartReplication ctx fuel s = replicateFirst ctx s.pendingClientRequests s ∧
      starts ctx fuel s = firstStart ctx s.pendingClientRequests s.toRaftConsensus := by
  have hbusy : ¬ (s.leaderId ≠ ctx.self ∨ s.hasInFlight = true) := by simp [hleads, hidle]
  constructor
  · unfold tryStartReplication
    rw [if_neg hbusy, if_neg hpending]
  · unfold starts
    rw [if_neg hbusy, if_neg hpending]

theorem tryStartReplication_idle (ctx : Ctx) {s : Local} (hin : s.hasInFlight = true) (fuel : Nat) :
    tryStartReplication ctx fuel s = s ∧ starts ctx fuel s = [] := by
  constructor
  · unfold tryStartReplication
    rw [if_pos (.inr hin)]
  · unfold starts
    rw [if_pos (.inr hin)]

theorem tryStartReplication_outbox (ctx : Ctx) (fuel : Nat) {s : Local} (hleads : s.leaderId = ctx.self) :
    (tryStartReplication ctx fuel s).outbox =
      s.outbox ++ (starts ctx fuel s).flatMap (Start.packets ctx) := by
  induction fuel generalizing s with
  | zero =>
    unfold tryStartReplication starts
    by_cases hbusy : s.leaderId ≠ ctx.self ∨ s.hasInFlight = true
    · rw [if_pos hbusy, if_pos hbusy, List.flatMap_nil, List.append_nil]
    by_cases hempty : s.pendingClientRequests = []
    · rw [if_neg hbusy, if_neg hbusy, if_pos hempty, if_pos hempty, List.flatMap_nil, List.append_nil]
    · rw [if_neg hbusy, if_neg hbusy, if_neg hempty, if_neg hempty]
      exact replicateFirst_outbox ctx _ s
  | succ fuel ih =>
    cases hin : s.hasInFlight with
    | true =>
      obtain ⟨heq, hstarts⟩ := tryStartReplication_idle ctx hin (fuel + 1)
      rw [heq, hstarts, List.flatMap_nil, List.append_nil]
    | false =>
      by_cases hempty : s.pendingClientRequests = []
      · obtain ⟨heq, hstarts⟩ := tryStartReplication_generate hleads hin hempty fuel
        obtain ⟨-, -, houtbox, -⟩ := generated_spec hleads
        rw [heq, hstarts, replicateFirst_outbox, ih ((generated_leaderId s).trans hleads), houtbox,
          List.flatMap_append, List.append_assoc]
      · obtain ⟨heq, hstarts⟩ := tryStartReplication_pending hleads hin hempty (fuel + 1)
        rw [heq, hstarts, replicateFirst_outbox]

theorem tryStartReplication_one (hself : ctx.self ≠ NO_PEER_ID) {s : Local}
    (hleads : s.leaderId = ctx.self) (hidle : s.hasInFlight = false)
    (hempty : s.pendingClientRequests = [])
    (hwaiting : (generated ctx s).pendingClientRequests.length ≤ 1) (n : Nat)
    (hdepth : depth s.toRaftConsensus < n) :
    ∃ s' start, (∀ fuel, n ≤ fuel → tryStartReplication ctx fuel s = s' ∧ starts ctx fuel s = [start]) ∧
      start.before.hasInFlight = false ∧ s'.hasInFlight = true ∧ s'.pendingClientRequests = [] ∧
      ∀ r ∈ (generated ctx s).pendingClientRequests, s'.inFlightKey = extractKey r := by
  induction n generalizing s with
  | zero => omega
  | succ n ih =>
    have hleads' : (generated ctx s).leaderId = ctx.self := (generated_leaderId s).trans hleads
    obtain ⟨hsame, -, -, hdeferred, -⟩ := generated_spec hleads
    have hidle' : (generated ctx s).hasInFlight = false := hsame.trans hidle
    -- the nested call leaves nothing pending, so the loop of the outer one does nothing
    have houter : ∀ s' start, (∀ fuel, n ≤ fuel → tryStartReplication ctx fuel (generated ctx s) = s' ∧
        starts ctx fuel (generated ctx s) = [start]) → s'.pendingClientRequests = [] →
        ∀ fuel, n + 1 ≤ fuel →
          tryStartReplication ctx fuel s = s' ∧ starts ctx fuel s = [start] := by
      intro s' start hnested hnone fuel hfuel
      obtain ⟨fuel, rfl⟩ : ∃ f, fuel = f + 1 := ⟨fuel - 1, by omega⟩
      obtain ⟨heq, hstarts⟩ := tryStartReplication_generate hleads hidle hempty fuel
      obtain ⟨heq', hstarts'⟩ := hnested fuel (by omega)
      have hloop : replicateFirst ctx s'.pendingClientRequests s' = s' := by
        rw [hnone, replicateFirst, ← hnone]
      rw [heq, hstarts, heq', hstarts', hloop, hnone]
      exact ⟨rfl, rfl⟩
    by_cases hnone : (generated ctx s).pendingClientRequests = []
    · have hless := depth_generated hself hleads hnone
      obtain ⟨-, -, hfew⟩ := generated_queues hleads' hnone hdeferred
      obtain ⟨s', start, hnested, hbefore, hin, hpending, -⟩ :=
        ih hleads' hidle' hnone hfew (by omega)
      refine ⟨s', start, houter s' start hnested hpending, hbefore, hin, hpending, ?_⟩
      rw [hnone]
      exact fun r hr => absurd hr List.not_mem_nil
    · obtain ⟨r, hr⟩ : ∃ r, (generated ctx s).pendingClientRequests = [r] := by
        rw [← List.length_eq_one_iff]
        have hpos := List.length_pos_of_ne_nil hnone
        omega
      have hlive := generated_live hleads hempty r (by rw [hr]; exact List.mem_singleton_self r)
      obtain ⟨hstart, hpending, -, hin, hkey, -⟩ := replicateFirst_cons ctx hlive []
      have hnested : ∀ fuel, n ≤ fuel →
          tryStartReplication ctx fuel (generated ctx s) = replicateFirst ctx [r] (generated ctx s) ∧
          starts ctx fuel (generated ctx s) =
            [⟨{ r with roundSubmitted := some ctx.round }, (generated ctx s).toRaftConsensus⟩] := by
        intro fuel _
        obtain ⟨heq, hstarts⟩ := tryStartReplication_pending hleads' hidle' hnone fuel
        rw [heq, hstarts, hr]
        exact ⟨rfl, hstart⟩
      refine ⟨_, _, houter _ _ hnested hpending, hidle', hin, hpending, ?_⟩
      rw [hr]
      intro r' hr'
      rw [List.mem_singleton.mp hr']
      exact hkey

theorem tryStartReplication_two {s : Local} (hleads : s.leaderId = ctx.self) (hidle : s.hasInFlight = false)
    (hempty : s.pendingClientRequests = [])
    (hwaiting : 2 ≤ (generated ctx s).pendingClientRequests.length) :
    ∃ s' started, (∀ fuel, 1 ≤ fuel → tryStartReplication ctx fuel s = s' ∧
      starts ctx fuel s = started) ∧ started.length = 2 := by
  have hleads' : (generated ctx s).leaderId = ctx.self := (generated_leaderId s).trans hleads
  have hidle' : (generated ctx s).hasInFlight = false := (generated_spec hleads).1.trans hidle
  have hlive := generated_live hleads hempty
  obtain ⟨r, q, rest, hpending⟩ : ∃ r q rest, (generated ctx s).pendingClientRequests = r :: q :: rest := by
    obtain ⟨r, rs, hrs⟩ := List.exists_cons_of_length_pos
      (by omega : 0 < (generated ctx s).pendingClientRequests.length)
    rw [hrs, List.length_cons] at hwaiting
    obtain ⟨q, rest, rfl⟩ := List.exists_cons_of_length_pos (by omega : 0 < rs.length)
    exact ⟨r, q, rest, hrs⟩
  have hsome : (generated ctx s).pendingClientRequests ≠ [] := by simp [hpending]
  rw [hpending] at hlive
  obtain ⟨hstart, hleft, -⟩ := replicateFirst_cons ctx (hlive r List.mem_cons_self) (q :: rest)
  -- the second request is as live after the first has started
  have hsame := (replicateFirst_replicates ctx (r :: q :: rest) (generated ctx s)).committedRequests
  have hlive' : live (replicateFirst ctx (r :: q :: rest) (generated ctx s)).toRaftConsensus q = true := by
    rw [live, hsame]
    exact hlive q (List.mem_cons_of_mem _ List.mem_cons_self)
  obtain ⟨hstart', -⟩ := replicateFirst_cons ctx hlive' rest
  refine ⟨replicateFirst ctx (q :: rest) (replicateFirst ctx (r :: q :: rest) (generated ctx s)),
    firstStart ctx (r :: q :: rest) (generated ctx s).toRaftConsensus ++
      firstStart ctx (q :: rest) (replicateFirst ctx (r :: q :: rest) (generated ctx s)).toRaftConsensus,
    fun fuel hfuel => ?_, ?_⟩
  · obtain ⟨fuel, rfl⟩ : ∃ f, fuel = f + 1 := ⟨fuel - 1, by omega⟩
    obtain ⟨heq, hstarts⟩ := tryStartReplication_generate hleads hidle hempty fuel
    obtain ⟨heq', hstarts'⟩ := tryStartReplication_pending hleads' hidle' hsome fuel
    rw [heq, hstarts, heq', hstarts', hpending, hleft]
    exact ⟨rfl, rfl⟩
  · rw [hstart, hstart']
    rfl

/-! ## One request at a time -/

theorem generate_oneAtATime_iff (hself : ctx.self ≠ NO_PEER_ID) {s : Local}
    (hleads : s.leaderId = ctx.self) (hidle : s.hasInFlight = false)
    (hempty : s.pendingClientRequests = []) :
    ∃ s' started, (∃ n, ∀ fuel, n ≤ fuel → tryStartReplication ctx fuel s = s' ∧
        starts ctx fuel s = started) ∧
      (OneAtATime s.toRaftConsensus s'.toRaftConsensus started ↔ Roomy ctx s.toRaftConsensus) := by
  obtain ⟨-, -, -, -, hkeys⟩ := generated_spec hleads
  have hlength := generated_length hleads hempty
  have hroomy : Roomy ctx s.toRaftConsensus ↔ (generated ctx s).pendingClientRequests.length ≤ 1 := by
    rw [hlength, Roomy, hidle, hempty]
    simp
  rw [hroomy]
  by_cases hwaiting : (generated ctx s).pendingClientRequests.length ≤ 1
  · obtain ⟨s', start, hcall, hbefore, hin, -, hkey⟩ :=
      tryStartReplication_one hself hleads hidle hempty hwaiting _ (Nat.lt_succ_self _)
    refine ⟨s', [start], ⟨_, hcall⟩, iff_of_true ⟨le_rfl, ?_, ?_⟩ hwaiting⟩
    · intro st hst
      rw [List.mem_singleton.mp hst, Start.Overwrites, hbefore]
      exact fun h => absurd h.1 Bool.false_ne_true
    · intro key hvalid hwaits
      have hcommitted : s'.committedRequests = s.committedRequests := by
        obtain ⟨heq, -⟩ := hcall _ le_rfl
        rw [← heq]
        exact (tryStartReplication_replicates ctx _ s).committedRequests
      by_cases hdone : key ∈ s.committedRequests
      · right
        rw [hcommitted]
        exact hdone
      -- a deferred key was moved to the pending ones
      have hdeferred : key ∈ s.deferredClientRequests.map extractKey := by
        rcases hwaits with hwaits | hwaits | hwaits
        · exact hwaits
        · simp [hempty] at hwaits
        · simp [hidle] at hwaits
      obtain ⟨d, hd, rfl⟩ := List.mem_map.mp hdeferred
      have hlive : d ∈ liveDeferred s.toRaftConsensus :=
        List.mem_filter.mpr ⟨hd, by simp [live, hvalid, hdone]⟩
      have hmem : extractKey d ∈ (generated ctx s).pendingClientRequests.map extractKey := by
        rw [hkeys]
        exact List.mem_append_left _ (List.mem_append_right _ (List.mem_map_of_mem hlive))
      obtain ⟨r, hr, heq⟩ := List.mem_map.mp hmem
      left; right; right
      exact ⟨hin, (hkey r hr).trans heq⟩
  · obtain ⟨s', started, hcall, htwo⟩ := tryStartReplication_two hleads hidle hempty (by omega)
    refine ⟨s', started, ⟨1, hcall⟩, iff_of_false (fun h => ?_) hwaiting⟩
    have hone := h.one
    omega

/-- **One replication at a time.** A call of `tryStartReplication` by a leader returns, and the packets it
sends are those of its starts. It puts at most one request into flight, over no uncommitted one, and keeps
every valid key that waited waiting or committed, if and only if a request is in flight or pending before
the call, or at most one waits. -/
theorem tryStartReplication_one_at_a_time_iff (hself : ctx.self ≠ NO_PEER_ID) {s : Local}
    (hleads : s.leaderId = ctx.self) :
    ∃ s' started, (∃ n, ∀ fuel, n ≤ fuel → tryStartReplication ctx fuel s = s' ∧
        starts ctx fuel s = started) ∧
      (0 ≤ s.nextClientRequestId → startReplication ctx s = s') ∧
      s'.outbox = s.outbox ++ started.flatMap (Start.packets ctx) ∧
      (OneAtATime s.toRaftConsensus s'.toRaftConsensus started ↔ Roomy ctx s.toRaftConsensus) := by
  suffices h : ∃ s' started, (∃ n, ∀ fuel, n ≤ fuel → tryStartReplication ctx fuel s = s' ∧
        starts ctx fuel s = started) ∧
      (OneAtATime s.toRaftConsensus s'.toRaftConsensus started ↔ Roomy ctx s.toRaftConsensus) by
    obtain ⟨s', started, ⟨n, hcall⟩, hiff⟩ := h
    refine ⟨s', started, ⟨n, hcall⟩, fun hnext => ?_, ?_, hiff⟩
    · obtain ⟨heq, -⟩ := hcall (n + ((staleKeys s.toRaftConsensus).card + 1)) (by omega)
      rw [← heq]
      exact (tryStartReplication_of_le hself hnext (by omega)).symm
    · obtain ⟨heq, hstarts⟩ := hcall n le_rfl
      rw [← heq, ← hstarts]
      exact tryStartReplication_outbox ctx n hleads
  cases hin : s.hasInFlight with
  | true =>
    refine ⟨s, [], ⟨0, fun fuel _ => tryStartReplication_idle ctx hin fuel⟩, iff_of_true ?_ (.inl hin)⟩
    exact ⟨Nat.zero_le 1, by simp, fun key _ hwaits => .inl hwaits⟩
  | false =>
    by_cases hempty : s.pendingClientRequests = []
    · exact generate_oneAtATime_iff hself hleads hin hempty
    refine ⟨_, _, ⟨0, fun fuel _ => tryStartReplication_pending hleads hin hempty fuel⟩,
      iff_of_true ⟨?_, ?_, ?_⟩ (.inr (.inl hempty))⟩
    · exact (firstStart_spec ctx s.pendingClientRequests s).1
    · intro start hmem hover
      have hin' := hover.1
      rw [(firstStart_spec ctx s.pendingClientRequests s).2 start hmem, hin] at hin'
      cases hin'
    · intro key hvalid hwaits
      by_cases hdone : key ∈ s.committedRequests
      · right
        rw [(replicateFirst_replicates ctx s.pendingClientRequests s).committedRequests]
        exact hdone
      left
      rcases hwaits with hwaits | hwaits | hwaits
      · left
        rw [replicateFirst_deferred]
        exact hwaits
      · exact replicateFirst_waits hvalid hwaits hdone
      · simp [hin] at hwaits

/-! ## Waiting keys are valid -/

theorem applyCommit_inFlight (request : Request) (submitted committed : Int) (skip : Bool) (s : Local) :
    (applyCommit request submitted committed skip s).hasInFlight = s.hasInFlight ∧
      (applyCommit request submitted committed skip s).inFlightKey = s.inFlightKey := by
  unfold applyCommit
  dsimp only
  split_ifs <;> exact ⟨rfl, rfl⟩

theorem onMessage_inFlightValid {m : Message} {s : Local} (hs : InFlightValid s.toRaftConsensus) :
    InFlightValid (onMessage ctx m s).toRaftConsensus := by
  cases m with
  | clientRequest request => exact (onClientRequest_replicates ctx request s).inFlight hs
  | request request sender termNum =>
    exact (handleRequest_confirmsNothing request sender termNum s).inFlight hs
  | respondRequest request sender termNum round =>
    rcases handleRespond_cases ctx request sender s with
      h | ⟨-, -, -, -, -, -, submitted, replies, heq⟩
    · exact h.inFlight hs
    · obtain ⟨t, ht, hrest⟩ := confirmRequest_replicates ctx request submitted { s with replies := replies }
      obtain ⟨hin, hkey⟩ := applyCommit_inFlight request submitted ctx.round true
        (pushConfirmed request submitted ctx.round { s with replies := replies })
      rw [onMessage, heq]
      apply hrest.inFlight
      rw [ht]
      unfold InFlightValid
      rw [hin, hkey]
      exact hs
  | vote voteFor sender termNum round => exact (handleVote_confirmsNothing voteFor sender s).inFlight hs
  | elect sender termNum round => exact (handleElect_confirmsNothing sender termNum round s).inFlight hs
  | commit request sender termNum committed submitted =>
    rw [onMessage]
    unfold handleCommit
    dsimp only
    split_ifs
    · exact hs
    · obtain ⟨hin, hkey⟩ := applyCommit_inFlight request submitted committed false
        { s with term := termNum }
      unfold InFlightValid
      rw [hin, hkey]
      exact hs
    · obtain ⟨hin, hkey⟩ := applyCommit_inFlight request submitted committed false s
      unfold InFlightValid
      rw [hin, hkey]
      exact hs

theorem System.waits_valid {cfg : Config} {sys : System} (h : (machine cfg).Reached sys) (p : InterfaceId)
    {key : TxKey} (hwaits : Waits (sys.peers p) key) : keyValid key = true := by
  have hjustified := (majorityInv_of_reached h).peers p
  have hinFlight : ∀ p, InFlightValid (sys.peers p) := by
    refine peers_invariant (P := fun _ s => InFlightValid s) ?_ ?_ ?_ h
    · exact fun _ _ hin => absurd hin Bool.false_ne_true
    · exact fun _ _ _ _ hs _ => onMessage_inFlightValid hs
    · exact fun _ _ _ hs => (tick_confirmsNothing _).inFlight hs
  rcases hwaits with hwaits | hwaits | ⟨hin, rfl⟩
  · obtain ⟨r, hr, rfl⟩ := List.mem_map.mp hwaits
    exact (hjustified.deferred r hr).keyValid
  · obtain ⟨r, hr, rfl⟩ := List.mem_map.mp hwaits
    exact (hjustified.pending r hr).keyValid
  · exact hinFlight p hin

/-! ## Two calls -/

/-- Peer 0 of three, as constructed, leads with empty queues, and its first call puts its first request
into flight. -/
theorem initialLeader_one_at_a_time :
    ∃ s' started, (∃ n, ∀ fuel, n ≤ fuel →
        tryStartReplication ⟨0, [1, 2], [0, 1, 2], 0⟩ fuel { initialPeer ⟨.ofSize 3, 20, 100, 5⟩ 0 with } = s' ∧
        starts ⟨0, [1, 2], [0, 1, 2], 0⟩ fuel { initialPeer ⟨.ofSize 3, 20, 100, 5⟩ 0 with } = started) ∧
      OneAtATime (initialPeer ⟨.ofSize 3, 20, 100, 5⟩ 0) s'.toRaftConsensus started := by
  obtain ⟨s', started, hcall, -, -, hiff⟩ := @tryStartReplication_one_at_a_time_iff
    ⟨0, [1, 2], [0, 1, 2], 0⟩ (by decide) { initialPeer ⟨.ofSize 3, 20, 100, 5⟩ 0 with } (by decide)
  exact ⟨s', started, hcall, hiff.mpr (by decide)⟩

/-- Peer 1 of three, elected in term 1, has just confirmed its first request; the first request of peer 0,
from the term before, is deferred. -/
def confirmingLeader : Local where
  leaderId := 1
  term := 1
  committedRequests := {(1, 0)}
  knownRequests := {(1, 0), (0, 0)}
  deferredClientRequests := [{ submitterId := some 0, clientSeq := some 0, roundSubmitted := some 0 }]
  nextClientRequestId := 1

/-- The call of `confirmingLeader` puts two requests into flight. -/
theorem confirmingLeader_two_at_a_time :
    ¬ ∀ (ctx : Ctx) (s : Local), ctx.self ≠ NO_PEER_ID → s.leaderId = ctx.self →
      ∀ s' started n, (∀ fuel, n ≤ fuel → tryStartReplication ctx fuel s = s' ∧
        starts ctx fuel s = started) →
        OneAtATime s.toRaftConsensus s'.toRaftConsensus started := by
  intro hclaim
  obtain ⟨s', started, hcall, htwo⟩ := @tryStartReplication_two ⟨1, [0, 2], [0, 1, 2], 102⟩
    confirmingLeader rfl rfl rfl (by decide)
  have hone := (hclaim _ confirmingLeader (by decide) rfl s' started 1 hcall).one
  omega

end Quantas.Raft
