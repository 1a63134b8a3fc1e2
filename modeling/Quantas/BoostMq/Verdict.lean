import Quantas.BoostMq.Completion

/-!
# One stop broadcast, and what a success means

Inside `waitForAllDone` the per-call `seenPeers`, the process-wide `gCompletedPeers` and the list of completed
peers hold the same ids, because both `configureExperiment` and `cleanUp` empty `gCompletedPeers` before a wait
starts. So the stop broadcast starts with the completion of the last peer, and once.
-/

namespace Quantas.BoostMq

/-! ## Reports -/

def DoneMessage.success (totalPeers : Nat) : DoneMessage → Option InterfaceId
  | .completion report =>
    if report.succeeded ∧ 0 ≤ report.peerId ∧ report.peerId < totalPeers then some report.peerId else none
  | .otherSize => none

/-- The distinct peers that report success. -/
def reported (totalPeers : Nat) (messages : List DoneMessage) : Finset InterfaceId :=
  (messages.filterMap (·.success totalPeers)).toFinset

variable {totalPeers : Nat}

theorem reported_append (l₁ l₂ : List DoneMessage) :
    reported totalPeers (l₁ ++ l₂) = reported totalPeers l₁ ∪ reported totalPeers l₂ := by
  simp [reported]

theorem reported_singleton_of_none {m : DoneMessage} (h : m.success totalPeers = none) :
    reported totalPeers [m] = ∅ := by
  simp [reported, h]

theorem reported_singleton_of_some {m : DoneMessage} {id : InterfaceId}
    (h : m.success totalPeers = some id) : reported totalPeers [m] = {id} := by
  simp [reported, h]

theorem not_invalid_iff {id : Int} : ¬ (id < 0 ∨ totalPeers ≤ id.toNat) ↔ 0 ≤ id ∧ id < totalPeers := by
  omega

theorem mem_expectedPeers {id : InterfaceId} : id ∈ expectedPeers totalPeers ↔ 0 ≤ id ∧ id < totalPeers := by
  unfold InterfaceId at *
  simp only [expectedPeers, List.mem_map, List.mem_range]
  constructor
  · rintro ⟨k, hk, rfl⟩
    omega
  · rintro ⟨hlow, hhigh⟩
    exact ⟨id.toNat, by omega, by omega⟩

theorem expectedPeers_nodup : (expectedPeers totalPeers).Nodup :=
  List.nodup_range.map fun _ _ h => by simpa using h

theorem reported_subset (totalPeers : Nat) (messages : List DoneMessage) :
    reported totalPeers messages ⊆ (expectedPeers totalPeers).toFinset := by
  intro id hid
  simp only [reported, List.mem_toFinset, List.mem_filterMap] at hid ⊢
  obtain ⟨m, -, hm⟩ := hid
  cases m with
  | completion completion =>
    simp only [DoneMessage.success] at hm
    split_ifs at hm with hvalid
    obtain rfl := Option.some.inj hm
    exact mem_expectedPeers.mpr hvalid.2
  | otherSize => cases hm

theorem reported_card_le (totalPeers : Nat) (messages : List DoneMessage) :
    (reported totalPeers messages).card ≤ totalPeers := by
  have hcard := Finset.card_le_card (reported_subset totalPeers messages)
  rw [List.toFinset_card_of_nodup expectedPeers_nodup] at hcard
  simpa [expectedPeers] using hcard

/-! ## The wait -/

/-- `waitForAllDone` of a coordinator with `totalPeers` peers that had started `before` stop broadcasts. -/
structure Tracks (totalPeers before : Nat) (w : DoneWait) : Prop where
  peers : w.coordinator.totalPeers = totalPeers
  nodup : w.result.completedPeers.Nodup
  valid : ∀ id ∈ w.result.completedPeers, 0 ≤ id ∧ id < totalPeers
  reported : reported totalPeers w.received = w.result.completedPeers.toFinset
  stops : w.coordinator.stopBroadcasts =
    before + if w.result.completedPeers.length = totalPeers then 1 else 0

structure Waiting (totalPeers before : Nat) (w : DoneWait) : Prop extends Tracks totalPeers before w where
  unfailed : w.result.failedPeers = []
  running : w.result.timedOut = false
  seen : w.seenPeers = w.result.completedPeers.toFinset
  completed : w.coordinator.gCompletedPeers = w.result.completedPeers.toFinset

/-- How the wait ends: with at most one failed peer, which has not completed. -/
structure Waited (totalPeers before : Nat) (messages : List DoneMessage) (w : DoneWait)
    (exception : Option String) : Prop extends Tracks totalPeers before w where
  failed : w.result.failedPeers = [] ∨ ∃ id, w.result.failedPeers = [id] ∧
    id ∉ w.result.completedPeers ∧ 0 ≤ id ∧ id < totalPeers
  received : w.received <+: messages
  /-- Without an exception and a failure, the wait ends at the deadline or with the last peer. -/
  ended : exception = none → w.result.failedPeers = [] →
    if w.result.timedOut then w.received = messages else w.result.completedPeers.length = totalPeers

section Wait
variable {before : Nat} {w : DoneWait}

theorem Tracks.length_le (h : Tracks totalPeers before w) :
    w.result.completedPeers.length ≤ totalPeers := by
  have hcard := reported_card_le totalPeers w.received
  rwa [h.reported, List.toFinset_card_of_nodup h.nodup] at hcard

namespace Waiting

theorem receive (h : Waiting totalPeers before w) {m : DoneMessage}
    (hold : ∀ id, m.success totalPeers = some id → id ∈ w.result.completedPeers) :
    Waiting totalPeers before { w with received := w.received ++ [m] } := by
  refine { h with reported := ?_ }
  show reported totalPeers (w.received ++ [m]) = _
  rw [reported_append, h.reported]
  cases hm : m.success totalPeers with
  | none => rw [reported_singleton_of_none hm, Finset.union_empty]
  | some id =>
    rw [reported_singleton_of_some hm, Finset.union_eq_left, Finset.singleton_subset_iff, List.mem_toFinset]
    exact hold id hm

theorem complete (h : Waiting totalPeers before w) (stop : Option String) {m : DoneMessage} {id : InterfaceId}
    (hroom : w.result.completedPeers.length < totalPeers) (hm : m.success totalPeers = some id)
    (hlow : 0 ≤ id) (hhigh : id < totalPeers) (hnew : id ∉ w.seenPeers) :
    Waiting totalPeers before
      { w with
        received := w.received ++ [m]
        seenPeers := insert id w.seenPeers
        result := { w.result with completedPeers := w.result.completedPeers ++ [id] }
        coordinator := (w.coordinator.notifyPeerStopped stop id).1 } := by
  have hfresh : id ∉ w.result.completedPeers := by
    rw [h.seen, List.mem_toFinset] at hnew
    exact hnew
  have hid : id ≠ NO_PEER_ID := by
    unfold InterfaceId NO_PEER_ID at *
    omega
  have hcard : (insert id w.coordinator.gCompletedPeers).card = w.result.completedPeers.length + 1 := by
    rw [h.completed, Finset.card_insert_of_notMem (by simpa using hfresh),
      List.toFinset_card_of_nodup h.nodup]
  have hstops := h.stops
  rw [if_neg (by omega)] at hstops
  constructor
  · constructor
    · rw [← h.peers]
      simp only [ProcessCoordinatorMQ.notifyPeerStopped, if_neg hid]
      split_ifs <;> rfl
    · exact List.nodup_append.mpr ⟨h.nodup, List.nodup_singleton id, by
        intro x hx y hy
        obtain rfl := List.mem_singleton.mp hy
        exact fun heq => hfresh (heq ▸ hx)⟩
    · intro x hx
      rcases List.mem_append.mp hx with hx | hx
      · exact h.valid x hx
      · obtain rfl := List.mem_singleton.mp hx
        exact ⟨hlow, hhigh⟩
    · show reported totalPeers (w.received ++ [m]) = _
      rw [reported_append, h.reported, reported_singleton_of_some hm, List.toFinset_append]
      rfl
    · simp only [ProcessCoordinatorMQ.notifyPeerStopped, if_neg hid, hcard, h.peers,
        List.length_append, List.length_singleton]
      by_cases hlast : w.result.completedPeers.length + 1 = totalPeers
      · rw [if_pos hlast.ge, if_pos hlast]
        simpa [ProcessCoordinatorMQ.broadcastStop] using hstops
      · rw [if_neg (by omega), if_neg hlast]
        exact hstops
  · exact h.unfailed
  · exact h.running
  · simp only [h.seen, List.toFinset_append]
    ext x
    simp
  · have hcompleted : (w.coordinator.notifyPeerStopped stop id).1.gCompletedPeers =
        insert id w.coordinator.gCompletedPeers := by
      simp only [ProcessCoordinatorMQ.notifyPeerStopped, if_neg hid]
      split_ifs <;> rfl
    simp only [hcompleted, h.completed, List.toFinset_append]
    ext x
    simp

theorem stop_waiting (h : Waiting totalPeers before w)
    (hfull : ¬ w.result.completedPeers.length < totalPeers) (messages : List DoneMessage) :
    Waited totalPeers before (w.received ++ messages) w none := by
  refine { h.toTracks with failed := .inl h.unfailed, received := List.prefix_append .., ended := ?_ }
  intro _ _
  rw [h.running, if_neg (by simp)]
  have := h.length_le
  omega

end Waiting

theorem onDoneMessage_spec (stop : Option String) (h : Waiting totalPeers before w)
    (hroom : w.result.completedPeers.length < totalPeers) (m : DoneMessage) :
    ((onDoneMessage stop w m).1.received = w.received ++ [m]) ∧
    ((onDoneMessage stop w m).2 = .next → Waiting totalPeers before (onDoneMessage stop w m).1) ∧
    ((onDoneMessage stop w m).2 ≠ .next → Tracks totalPeers before (onDoneMessage stop w m).1 ∧
      ((onDoneMessage stop w m).1.result.failedPeers = [] ∧ (onDoneMessage stop w m).2 ≠ .leave ∨
        ∃ id, (onDoneMessage stop w m).1.result.failedPeers = [id] ∧
          id ∉ (onDoneMessage stop w m).1.result.completedPeers ∧ 0 ≤ id ∧ id < totalPeers)) := by
  cases m with
  | otherSize =>
    refine ⟨rfl, by simp [onDoneMessage], fun _ => ⟨?_, .inl ⟨h.unfailed, by simp [onDoneMessage]⟩⟩⟩
    exact (h.receive (m := .otherSize) (by simp [DoneMessage.success])).toTracks
  | completion report =>
    simp only [onDoneMessage, h.peers]
    by_cases hinvalid : report.peerId < 0 ∨ totalPeers ≤ report.peerId.toNat
    · -- an id out of range is ignored
      rw [if_pos hinvalid]
      refine ⟨rfl, fun _ => h.receive fun id hid => ?_, by simp⟩
      simp only [DoneMessage.success] at hid
      rw [if_neg] at hid
      · cases hid
      · exact fun hvalid => not_invalid_iff.mpr hvalid.2 hinvalid
    rw [if_neg hinvalid]
    obtain ⟨hlow, hhigh⟩ := not_invalid_iff.mp hinvalid
    by_cases hseen : report.peerId ∈ w.seenPeers
    · -- so is a second report of a peer
      rw [if_pos hseen]
      refine ⟨rfl, fun _ => h.receive fun id hid => ?_, by simp⟩
      simp only [DoneMessage.success] at hid
      split_ifs at hid
      obtain rfl := Option.some.inj hid
      rwa [h.seen, List.mem_toFinset] at hseen
    rw [if_neg hseen]
    by_cases hsucceeded : report.succeeded
    · have hsuccess : (DoneMessage.completion report).success totalPeers = some report.peerId := by
        simp [DoneMessage.success, hsucceeded, hlow, hhigh]
      have hnext := h.complete stop hroom hsuccess hlow hhigh hseen
      rw [if_pos hsucceeded]
      refine ⟨rfl, fun _ => hnext, fun _ => ⟨hnext.toTracks, .inl ⟨h.unfailed, ?_⟩⟩⟩
      cases (w.coordinator.notifyPeerStopped stop report.peerId).2 <;> simp
    · rw [if_neg hsucceeded]
      refine ⟨rfl, by simp, fun _ => ⟨?_, .inr ⟨report.peerId, ?_, ?_, hlow, hhigh⟩⟩⟩
      · have hnone : (DoneMessage.completion report).success totalPeers = none := by
          simp [DoneMessage.success, hsucceeded]
        exact { (h.receive (m := .completion report) (by simp [hnone])).toTracks with }
      · simp [h.unfailed]
      · rwa [h.seen, List.mem_toFinset] at hseen

theorem waitForAllDoneLoop_waited (stop : Option String) (messages : List DoneMessage)
    (h : Waiting totalPeers before w) :
    Waited totalPeers before (w.received ++ messages) (waitForAllDoneLoop stop messages w).1
      (waitForAllDoneLoop stop messages w).2 := by
  induction messages generalizing w with
  | nil =>
    rw [waitForAllDoneLoop]
    split_ifs with hroom
    · exact { h.toTracks with
        failed := .inl h.unfailed
        received := List.prefix_append ..
        ended := fun _ _ => by simp }
    · rw [h.unfailed, h.peers] at hroom
      exact h.stop_waiting (by simpa using hroom) _
  | cons m rest ih =>
    rw [waitForAllDoneLoop.eq_def]
    dsimp only
    split_ifs with hroom
    swap
    · rw [h.unfailed, h.peers] at hroom
      exact h.stop_waiting (by simpa using hroom) _
    rw [h.unfailed, h.peers] at hroom
    obtain ⟨hreceived, hgoes, hends⟩ := onDoneMessage_spec stop h (by simpa using hroom) m
    generalize onDoneMessage stop w m = body at hreceived hgoes hends ⊢
    obtain ⟨w', ending⟩ := body
    dsimp only at hreceived hgoes hends
    have hassoc : w.received ++ m :: rest = w'.received ++ rest := by
      rw [hreceived]
      simp
    rw [hassoc]
    cases ending with
    | next => exact ih (hgoes rfl)
    | leave =>
      obtain ⟨htracks, ⟨-, hleave⟩ | ⟨id, hfailed, hid⟩⟩ := hends (by simp)
      · exact absurd rfl hleave
      · exact { htracks with
          failed := .inr ⟨id, hfailed, hid⟩
          received := List.prefix_append ..
          ended := fun _ hnone => absurd (hfailed.symm.trans hnone) (by simp) }
    | threw what =>
      obtain ⟨htracks, hfailed⟩ := hends (by simp)
      exact { htracks with
        failed := hfailed.imp_left And.left
        received := List.prefix_append ..
        ended := fun hnone => by cases hnone }

end Wait

/-! ## Missing peers -/

theorem getD_set {seen : List Bool} {k j : Nat} (hj : j < seen.length) :
    (seen.set k true).getD j false = (decide (k = j) || seen.getD j false) := by
  simp only [List.getD_eq_getElem?_getD, List.getElem?_set]
  by_cases hkj : k = j
  · simp [hkj, hj]
  · simp [hkj]

theorem markSeen_getD (completedPeers : List InterfaceId) {j : Nat} (hj : j < totalPeers) :
    (markSeen totalPeers completedPeers).getD j false = decide ((j : Int) ∈ completedPeers) := by
  have hfold : ∀ (ids : List Int) (seen : List Bool), seen.length = totalPeers →
      (ids.foldl (fun seen (id : Int) => if 0 ≤ id ∧ id < totalPeers then seen.set id.toNat true else seen)
        seen).getD j false = (seen.getD j false || decide ((j : Int) ∈ ids)) := by
    intro ids
    induction ids with
    | nil => simp
    | cons id ids ih =>
      intro seen hlength
      rw [List.foldl_cons, ih _ (by split_ifs <;> simp [hlength])]
      split_ifs with hvalid
      · rw [getD_set (by omega)]
        have hiff : id.toNat = j ↔ (j : Int) = id := by omega
        simp only [hiff, List.mem_cons, Bool.decide_or]
        ac_rfl
      · have hne : ¬ (j : Int) = id := by omega
        simp [hne]
  rw [markSeen, hfold _ _ (by simp)]
  simp [List.getD_eq_getElem?_getD, hj]

theorem mem_findMissingPeers {completedPeers : List InterfaceId} {id : InterfaceId} :
    id ∈ findMissingPeers totalPeers completedPeers ↔ id ∈ expectedPeers totalPeers ∧ id ∉ completedPeers := by
  simp only [findMissingPeers, expectedPeers, List.mem_map, List.mem_filter, List.mem_range]
  constructor
  · rintro ⟨k, ⟨hk, hmissing⟩, rfl⟩
    rw [markSeen_getD _ hk] at hmissing
    exact ⟨⟨k, hk, rfl⟩, by simpa using hmissing⟩
  · rintro ⟨⟨k, hk, rfl⟩, hmissing⟩
    refine ⟨k, ⟨hk, ?_⟩, rfl⟩
    rw [markSeen_getD _ hk]
    simpa using hmissing

/-! ## The tests of an experiment -/

/-- What `waitForAllDone` received in a test. -/
def TestRun.received (run : TestRun) : List DoneMessage := (run.wait.map (·.1.received)).getD []

/-- What one test may report and broadcast. -/
structure TestRun.Sound (totalPeers : Nat) (run : TestRun) : Prop where
  nodup : ∀ wait ∈ run.wait, wait.1.result.completedPeers.Nodup ∧ wait.1.result.failedPeers.Nodup
  disjoint : ∀ wait ∈ run.wait, wait.1.result.completedPeers.Disjoint wait.1.result.failedPeers
  valid : ∀ wait ∈ run.wait, ∀ id ∈ wait.1.result.completedPeers ++ wait.1.result.failedPeers,
    0 ≤ id ∧ id < totalPeers
  failed : ∀ wait ∈ run.wait, wait.1.result.failedPeers.length ≤ 1
  /-- The stop broadcast is started once if all peers reported success to this wait, else not at all. -/
  stops : run.received <+: run.input.completions ∧ run.after.stopBroadcasts =
    run.before.stopBroadcasts + if (reported totalPeers run.received).card = totalPeers then 1 else 0
  /-- Only a failure and an exception keep a success that arrives in time from being received. -/
  arrived : ∀ wait ∈ run.wait, wait.2 = none → wait.1.result.failedPeers = [] →
    ((reported totalPeers run.received).card = totalPeers ↔
      (reported totalPeers run.input.completions).card = totalPeers)
  success : ∀ report ∈ run.report, report.success = true →
    report.completedPeers.Perm (expectedPeers totalPeers) ∧ report.completionTimedOut = false ∧
      ∃ wait, run.wait = some (wait, none) ∧ wait.result.completedPeers = report.completedPeers ∧
        wait.result.failedPeers = [] ∧ wait.result.timedOut = false

section Tests
variable {c : ProcessCoordinatorMQ} {t : TestInput}

theorem sound_of_no_wait (hpos : 0 < totalPeers) {run : TestRun} (hwait : run.wait = none)
    (hafter : run.after.stopBroadcasts = run.before.stopBroadcasts)
    (hreport : ∀ report ∈ run.report, report.success = false) : run.Sound totalPeers := by
  have hreceived : run.received = [] := by simp [TestRun.received, hwait]
  have hnone : reported totalPeers [] = ∅ := rfl
  refine ⟨by simp [hwait], by simp [hwait], by simp [hwait], by simp [hwait], ?_, by simp [hwait], ?_⟩
  · rw [hreceived, hnone, Finset.card_empty, if_neg (by omega), hafter]
    exact ⟨List.nil_prefix, rfl⟩
  · intro report hmem hsuccess
    rw [hreport report hmem] at hsuccess
    cases hsuccess

theorem waiting_start (hpos : 0 < totalPeers) (hpeers : c.totalPeers = totalPeers)
    (hclear : c.gCompletedPeers = ∅) :
    Waiting totalPeers c.stopBroadcasts { coordinator := c } := by
  refine { peers := hpeers, nodup := List.nodup_nil, valid := by simp, reported := rfl, stops := ?_,
           unfailed := rfl, running := rfl, seen := rfl, completed := hclear }
  rw [if_neg]
  · rfl
  · show ¬ 0 = totalPeers
    omega

theorem sound_of_wait {run : TestRun} {w : DoneWait} {exception : Option String}
    (hwaited : Waited totalPeers run.before.stopBroadcasts run.input.completions w exception)
    (hwait : run.wait = some (w, exception))
    (hafter : run.after.stopBroadcasts = w.coordinator.stopBroadcasts)
    (hreport : ∀ report ∈ run.report, report.success = true → exception = none ∧
      report.completedPeers = w.result.completedPeers ∧ report.completionTimedOut = w.result.timedOut ∧
      w.result.timedOut = false ∧ w.result.failedPeers = [] ∧
      findMissingPeers totalPeers w.result.completedPeers = []) : run.Sound totalPeers := by
  have hreceived : run.received = w.received := by simp [TestRun.received, hwait]
  have hcard : (reported totalPeers w.received).card = w.result.completedPeers.length := by
    rw [hwaited.reported, List.toFinset_card_of_nodup hwaited.nodup]
  constructor
  · rw [hwait]
    rintro wait ⟨⟩
    refine ⟨hwaited.nodup, ?_⟩
    rcases hwaited.failed with hnone | ⟨id, hid, -⟩
    · simp [hnone]
    · simp [hid]
  · rw [hwait]
    rintro wait ⟨⟩
    rcases hwaited.failed with hnone | ⟨id, hid, hnot, -⟩
    · simp [hnone]
    · rw [hid]
      exact List.disjoint_singleton.mpr hnot
  · rw [hwait]
    rintro wait ⟨⟩ id hid
    rcases List.mem_append.mp hid with hid | hid
    · exact hwaited.valid id hid
    · rcases hwaited.failed with hnone | ⟨failed, hfailed, -, hvalid⟩
      · simp [hnone] at hid
      · rw [hfailed, List.mem_singleton] at hid
        exact hid ▸ hvalid
  · rw [hwait]
    rintro wait ⟨⟩
    rcases hwaited.failed with hnone | ⟨id, hid, -⟩
    · simp [hnone]
    · simp [hid]
  · rw [hreceived, hcard, hafter]
    exact ⟨hwaited.received, hwaited.stops⟩
  · rw [hwait, hreceived]
    rintro wait ⟨⟩ hnone hunfailed
    have hended := hwaited.ended hnone hunfailed
    split_ifs at hended
    · rw [hended]
    · -- the last peer has completed, so the whole stream reports no more
      obtain ⟨rest, hrest⟩ := hwaited.received
      have hle := reported_card_le totalPeers run.input.completions
      have hsub : (reported totalPeers w.received).card ≤ (reported totalPeers run.input.completions).card := by
        rw [← hrest, reported_append]
        exact Finset.card_le_card Finset.subset_union_left
      omega
  · intro report hmem hsuccess
    obtain ⟨rfl, hcompleted, htimedOut, hrunning, hunfailed, hmissing⟩ := hreport report hmem hsuccess
    refine ⟨?_, htimedOut.trans hrunning, w, hwait, hcompleted.symm, hunfailed, hrunning⟩
    rw [hcompleted]
    refine (List.perm_ext_iff_of_nodup hwaited.nodup expectedPeers_nodup).mpr fun id => ?_
    constructor
    · exact fun hid => mem_expectedPeers.mpr (hwaited.valid id hid)
    · intro hid
      by_contra hnot
      have hmem := mem_findMissingPeers.mpr ⟨hid, hnot⟩
      rw [hmissing] at hmem
      cases hmem

theorem runTest_sound (hpos : 0 < totalPeers) (hpeers : c.totalPeers = totalPeers)
    (hclear : c.gCompletedPeers = ∅) :
    (runTest c t).Sound totalPeers ∧ (runTest c t).after.totalPeers = totalPeers ∧
      (runTest c t).after.gCompletedPeers = ∅ := by
  have hwaited := waitForAllDoneLoop_waited t.stop t.completions
    (waiting_start hpos hpeers hclear)
  unfold runTest
  split
  · exact ⟨sound_of_no_wait hpos rfl rfl (by simp), hpeers, rfl⟩
  · rename_i ready _
    dsimp only
    split_ifs with hready hcontrol
    · exact ⟨sound_of_no_wait hpos rfl rfl (by simp), hpeers, rfl⟩
    · exact ⟨sound_of_no_wait hpos rfl rfl (by simp), hpeers, rfl⟩
    · unfold waitForAllDone
      split
      · rename_i w error hwait
        rw [hwait] at hwaited
        exact ⟨sound_of_wait hwaited rfl rfl (by simp), hwaited.peers, rfl⟩
      · rename_i w hwait
        rw [hwait] at hwaited
        refine ⟨sound_of_wait hwaited rfl rfl ?_, hwaited.peers, rfl⟩
        rintro report ⟨⟩ hsuccess
        simp only [Bool.and_eq_true, Bool.not_eq_true', List.isEmpty_iff, hpeers] at hsuccess
        exact ⟨rfl, rfl, rfl, hsuccess.1.1.1, hsuccess.1.1.2, hsuccess.1.2⟩

theorem runTests_sound (hpos : 0 < totalPeers) (tests : List TestInput) :
    ∀ c : ProcessCoordinatorMQ, c.totalPeers = totalPeers → c.gCompletedPeers = ∅ →
      ∀ run ∈ runTests c tests, run.Sound totalPeers := by
  induction tests with
  | nil => simp [runTests]
  | cons t ts ih =>
    intro c hpeers hclear run hrun
    obtain ⟨hsound, hpeers', hclear'⟩ := runTest_sound (t := t) hpos hpeers hclear
    rw [runTests, List.mem_cons] at hrun
    rcases hrun with rfl | hrun
    · exact hsound
    · split_ifs at hrun
      · cases hrun
      · exact ih _ hpeers' hclear' run hrun

end Tests

/-- **Completion and stop.** In every test of an experiment, from any earlier state of the coordinator. -/
theorem completion_and_stop (hpos : 0 < totalPeers) (c : ProcessCoordinatorMQ) (tests : List TestInput) :
    ∀ run ∈ runExperiment totalPeers c tests, run.Sound totalPeers :=
  runTests_sound hpos tests _ rfl rfl

/-- Two peers and two tests: a repeated and an unknown id before the last completion, then a failure. -/
theorem completion_and_stop_twoTests :
    let test (completions : List PeerCompletionMessage) : TestInput :=
      { readies := [.ready 1, .ready 0], control := none, completions := completions.map .completion
        stop := none, outputsValid := fun _ => true }
    let runs := runExperiment 2 {} [test [⟨1, true⟩, ⟨1, true⟩, ⟨7, true⟩, ⟨0, true⟩],
      test [⟨0, true⟩, ⟨1, false⟩, ⟨1, true⟩]]
    (∀ run ∈ runs, run.Sound 2) ∧ runs.map (·.after.stopBroadcasts) = [1, 1] ∧
      runs.map (fun run => run.report.map (·.success)) = [some true, some false] := by
  refine ⟨completion_and_stop (by omega) _ _, ?_, ?_⟩
  · decide +kernel
  · decide +kernel

end Quantas.BoostMq
