import Quantas.BoostMq.Alignment

/-!
# The invariant of the rendezvous

`Rendezvous` joins the invariants of the peers to what the names `mq_barrier` and `mq_done` denote and what the
two queues hold. Every step keeps it, so it holds in every state of every run.
-/

namespace Quantas.BoostMq

variable (totalPeers tests : Nat)

structure Rendezvous (s : State) : Prop where
  peers : ∀ i < totalPeers, PeerInv tests s i
  leaderTests : 2 ≤ s.leaderTest → s.leaderTest ≤ tests
  barrier : s.queues.linked .barrier = if s.leader.keepsBarrier then some s.leaderTest else none
  done : s.queues.linked .done = if s.leader.keepsDone then some s.leaderTest else none
  /-- Nothing is in the barrier before it is made, nor in a queue of a later test. -/
  unmade : s.leader = .removeBarrier ∨ s.leader = .removeDone ∨ s.leader = .makeBarrier →
    s.queues.messages .barrier s.leaderTest = []
  fresh : ∀ name ∈ [QueueName.barrier, .done], ∀ t, s.leaderTest < t → s.queues.messages name t = []
  readies : ∀ m ∈ s.queues.messages .barrier s.leaderTest, ∃ i < totalPeers, m = .ready i s.leaderTest
  opened : ∀ queue completed, s.leader = .waitForAllDone queue completed → queue = s.leaderTest
  counted : ∀ ready, s.leader = .waitForAllReady ready → ready ⊆ Finset.range totalPeers
  completed : ∀ queue completed, s.leader = .waitForAllDone queue completed →
    completed ⊆ Finset.range totalPeers

variable {totalPeers tests} {s s' : State} {i : Nat}

/-! ## The steps of the leader -/

namespace Rendezvous

theorem quiet (h : Rendezvous totalPeers tests s) (hT : s'.leaderTest = s.leaderTest)
    (hpeer : s'.peer = s.peer) (htest : s'.peerTest = s.peerTest)
    (hgrade : ∀ i < totalPeers, s'.leaderGrade i = s.leaderGrade i)
    (hkeeps : ∀ i < totalPeers, s.leaderGrade i = 0 → s.leader.keepsBarrier → s'.leader.keepsBarrier)
    (hcontrol : ∀ i, s'.queues.linked (.control i) = s.queues.linked (.control i))
    (hbarrier : s'.queues.linked .barrier = if s'.leader.keepsBarrier then some s.leaderTest else none)
    (hdone : s'.queues.linked .done = if s'.leader.keepsDone then some s.leaderTest else none)
    (hreadies : ∀ t, s'.queues.messages .barrier t = s.queues.messages .barrier t)
    (hcompletions : ∀ t, s'.queues.messages .done t = s.queues.messages .done t ∨
      s'.queues.messages .done t = [])
    (hunmade : s'.leader = .removeBarrier ∨ s'.leader = .removeDone ∨ s'.leader = .makeBarrier →
      s.queues.messages .barrier s.leaderTest = [])
    (hopened : ∀ queue completed, s'.leader = .waitForAllDone queue completed →
      queue = s.leaderTest ∧ completed ⊆ Finset.range totalPeers)
    (hcounted : ∀ ready, s'.leader = .waitForAllReady ready → ready ⊆ Finset.range totalPeers) :
    Rendezvous totalPeers tests s' := by
  constructor
  · intro i hi
    refine (h.peers i hi).congr hT (hgrade i hi) (by rw [hpeer]) (by rw [htest]) (hcontrol i)
      (by rw [hreadies]) (fun hmem => ?_) (hkeeps i hi)
    rcases hcompletions s.leaderTest with hsame | hnil
    · rwa [hsame] at hmem
    · simp [hnil] at hmem
  · rw [hT]
    exact h.leaderTests
  · rw [hT]
    exact hbarrier
  · rw [hT]
    exact hdone
  · rw [hT, hreadies]
    exact hunmade
  · intro name hname t ht
    rw [hT] at ht
    have hfresh := h.fresh name hname t ht
    rcases List.mem_pair.mp hname with rfl | rfl
    · rw [hreadies, hfresh]
    · rcases hcompletions t with hsame | hnil
      · rw [hsame, hfresh]
      · exact hnil
  · rw [hT, hreadies]
    exact h.readies
  · rw [hT]
    exact fun queue completed hpc => (hopened queue completed hpc).1
  · exact hcounted
  · exact fun queue completed hpc => (hopened queue completed hpc).2

theorem ready_received (h : Rendezvous totalPeers tests s) {ready : Finset Nat}
    (hpc : s.leader = .waitForAllReady ready) {k test : Nat} {rest : List Message}
    (hcontent : s.queues.messages .barrier s.leaderTest = .ready k test :: rest)
    (hk : k < totalPeers) :
    test = s.leaderTest ∧ s.peerTest k = s.leaderTest ∧ 3 ≤ s.peerGrade k ∧ k ∉ ready ∧
      rest.count (.ready k s.leaderTest) = 0 := by
  obtain ⟨j, hj, hmessage⟩ := h.readies (.ready k test) (by rw [hcontent]; exact List.mem_cons_self ..)
  obtain ⟨rfl, rfl⟩ := Message.ready.inj hmessage
  have hcount := (h.peers k hk).ready
  rw [hcontent, List.count_cons_self] at hcount
  split_ifs at hcount with hstate
  refine ⟨rfl, hstate.1, hstate.2.1, fun hmem => ?_, by omega⟩
  have hgrade := hstate.2.2
  simp [State.leaderGrade, hpc, LeaderPc.grade, hmem] at hgrade

theorem of_ready (h : Rendezvous totalPeers tests s) {ready : Finset Nat}
    (hpc : s.leader = .waitForAllReady ready) {k test : Nat} {rest : List Message}
    (hcontent : s.queues.messages .barrier s.leaderTest = .ready k test :: rest)
    (hk : k < totalPeers) (hT : s'.leaderTest = s.leaderTest) (hpeer : s'.peer = s.peer)
    (htest : s'.peerTest = s.peerTest) (hleader : s'.leader = .waitForAllReady (insert k ready))
    (hqueues : s'.queues = s.queues.store .barrier s.leaderTest rest) :
    Rendezvous totalPeers tests s' := by
  obtain ⟨rfl, hsame, hsent, hnew, hnone⟩ := h.ready_received hpc hcontent hk
  have hrest : s'.queues.messages .barrier s.leaderTest = rest := by
    rw [hqueues, Lib.NamedQueues.store_messages_self]
  have hdone : s'.queues.messages .done = s.queues.messages .done := by simp [hqueues]
  have hlinked : s'.queues.linked = s.queues.linked := by simp [hqueues]
  constructor
  · intro i hi
    by_cases hik : i = k
    · subst hik
      have hgrade : s'.leaderGrade i = 1 := by simp [State.leaderGrade, hleader, LeaderPc.grade]
      have hzero : s.leaderGrade i = 0 := by simp [State.leaderGrade, hpc, LeaderPc.grade, hnew]
      have haligned := (h.peers i hi).aligned
      refine (h.peers i hi).of_others hT (by rw [hpeer]) (by rw [htest]) ?_ (by omega)
        (fun _ => by rw [hlinked]) ?_ (by rw [hdone]; exact id) (by simp [hleader, LeaderPc.keepsBarrier])
      · unfold Aligned at haligned ⊢
        omega
      · rw [hrest, hnone, if_neg (by omega)]
    · refine (h.peers i hi).congr hT ?_ (by rw [hpeer]) (by rw [htest]) (by rw [hlinked]) ?_
        (by rw [hdone]; exact id) (by simp [hleader, LeaderPc.keepsBarrier])
      · simp [State.leaderGrade, hleader, hpc, LeaderPc.grade, hik]
      · rw [hrest, hcontent, List.count_cons_of_ne]
        simpa using Ne.symm hik
  · rw [hT]
    exact h.leaderTests
  · rw [hlinked, h.barrier, hT, hpc, hleader]
    rfl
  · rw [hlinked, h.done, hT, hpc, hleader]
    rfl
  · simp [hleader]
  · intro name hname t ht
    rw [hT] at ht
    have hfresh := h.fresh name hname t ht
    rcases List.mem_pair.mp hname with rfl | rfl
    · rw [hqueues, Lib.NamedQueues.store_messages_of_stamp_ne (by omega), hfresh]
    · rw [hdone, hfresh]
  · intro m hm
    rw [hT, hrest] at hm
    rw [hT]
    exact h.readies m (by rw [hcontent]; exact List.mem_cons_of_mem _ hm)
  · simp [hleader]
  · intro ready' hready'
    obtain rfl := LeaderPc.waitForAllReady.inj (hleader.symm.trans hready')
    exact Finset.insert_subset (Finset.mem_range.mpr hk) (h.counted ready hpc)
  · simp [hleader]

theorem of_completion (h : Rendezvous totalPeers tests s) {queue : Nat} {completed : Finset Nat}
    (hpc : s.leader = .waitForAllDone queue completed) {k : Nat} {rest : List Message}
    (hcontent : s.queues.messages .done queue = .done k :: rest)
    (hk : k < totalPeers) (hT : s'.leaderTest = s.leaderTest) (hpeer : s'.peer = s.peer)
    (htest : s'.peerTest = s.peerTest)
    (hleader : s'.leader = .waitForAllDone queue (insert k completed))
    (hqueues : s'.queues = s.queues.store .done queue rest) : Rendezvous totalPeers tests s' := by
  obtain rfl := h.opened queue completed hpc
  have hrest : s'.queues.messages .done s.leaderTest = rest := by
    rw [hqueues, Lib.NamedQueues.store_messages_self]
  have hbarrier : s'.queues.messages .barrier = s.queues.messages .barrier := by simp [hqueues]
  have hlinked : s'.queues.linked = s.queues.linked := by simp [hqueues]
  have hold : ∀ m ∈ rest, m ∈ s.queues.messages .done s.leaderTest := by
    intro m hm
    rw [hcontent]
    exact List.mem_cons_of_mem _ hm
  constructor
  · intro i hi
    have haligned := (h.peers i hi).aligned
    have hgrade : s.leaderGrade i = if i ∈ completed then 2 else 1 := by
      simp [State.leaderGrade, hpc, LeaderPc.grade]
    have hgrade' : s'.leaderGrade i = if i ∈ insert k completed then 2 else 1 := by
      simp [State.leaderGrade, hleader, LeaderPc.grade]
    have hready := (h.peers i hi).ready
    have hone : 1 ≤ s.leaderGrade i ∧ 1 ≤ s'.leaderGrade i := by
      rw [hgrade, hgrade']
      constructor <;> split_ifs <;> omega
    refine (h.peers i hi).of_others hT (by rw [hpeer]) (by rw [htest]) ?_ ?_
      (fun _ => by rw [hlinked]) ?_ (by rw [hrest]; exact hold _) (by omega)
    · by_cases hik : i = k
      · subst hik
        have hsent := (h.peers i hi).completed (by rw [hcontent]; exact List.mem_cons_self ..)
        have htwo : s.leaderGrade i ≤ 2 := by
          rw [hgrade]
          split_ifs <;> omega
        unfold Aligned at haligned ⊢
        omega
      · have heq : s'.leaderGrade i = s.leaderGrade i := by
          rw [hgrade, hgrade']
          simp [hik]
        rw [heq]
        exact haligned
    · rw [hgrade, hgrade']
      by_cases hmem : i ∈ completed
      · simp [hmem]
      · rw [if_neg hmem]
        split_ifs <;> omega
    · rw [hbarrier, hready, if_neg (by omega), if_neg (by omega)]
  · rw [hT]
    exact h.leaderTests
  · rw [hlinked, h.barrier, hT, hpc, hleader]
    rfl
  · rw [hlinked, h.done, hT, hpc, hleader]
    rfl
  · simp [hleader]
  · intro name hname t ht
    rw [hT] at ht
    have hfresh := h.fresh name hname t ht
    rcases List.mem_pair.mp hname with rfl | rfl
    · rw [hbarrier, hfresh]
    · rw [hqueues, Lib.NamedQueues.store_messages_of_stamp_ne (by omega), hfresh]
  · rw [hT, hbarrier]
    exact h.readies
  · intro queue' completed' hpc'
    obtain ⟨rfl, -⟩ := LeaderPc.waitForAllDone.inj (hleader.symm.trans hpc')
    exact hT.symm
  · simp [hleader]
  · intro queue' completed' hpc'
    obtain ⟨-, rfl⟩ := LeaderPc.waitForAllDone.inj (hleader.symm.trans hpc')
    exact Finset.insert_subset (Finset.mem_range.mpr hk) (h.completed _ completed hpc)

theorem of_removal (h : Rendezvous totalPeers tests s) {name : QueueName} (hbarrier : name ≠ .barrier)
    (hdone : name ≠ .done) (hleader : (∃ k, s.leader = .dropControl k) ∨ ∃ k, s.leader = .dropData k)
    (hT : s'.leaderTest = s.leaderTest) (hpeer : s'.peer = s.peer) (htest : s'.peerTest = s.peerTest)
    (hleader' : (∃ k, s'.leader = .dropControl k) ∨ ∃ k, s'.leader = .dropData k)
    (hqueues : s'.queues = s.queues.remove name)
    (hmono : ∀ i < totalPeers, s.leaderGrade i ≤ s'.leaderGrade i)
    (hname : ∀ i < totalPeers, name = .control i → s.leaderGrade i ≤ 2 ∧ 3 ≤ s'.leaderGrade i) :
    Rendezvous totalPeers tests s' := by
  have hmessages : s'.queues.messages = s.queues.messages := by rw [hqueues]; rfl
  have hkeeps : s.leader.keepsBarrier = false ∧ s.leader.keepsDone = false := by
    rcases hleader with ⟨k, hk⟩ | ⟨k, hk⟩ <;> simp [hk, LeaderPc.keepsBarrier, LeaderPc.keepsDone]
  have hkeeps' : s'.leader.keepsBarrier = false ∧ s'.leader.keepsDone = false := by
    rcases hleader' with ⟨k, hk⟩ | ⟨k, hk⟩ <;> simp [hk, LeaderPc.keepsBarrier, LeaderPc.keepsDone]
  have htwo : ∀ i, 2 ≤ s.leaderGrade i := by
    intro i
    rcases hleader with ⟨k, hk⟩ | ⟨k, hk⟩ <;> simp only [State.leaderGrade, hk, LeaderPc.grade] <;>
      split_ifs <;> omega
  constructor
  · intro i hi
    have haligned := (h.peers i hi).aligned
    have hready := (h.peers i hi).ready
    have hlow := htwo i
    have hgrade := hmono i hi
    refine (h.peers i hi).of_others hT (by rw [hpeer]) (by rw [htest]) ?_ hgrade
      (fun hdrop => ?_) ?_ (by rw [hmessages]; exact id) (by omega)
    · unfold Aligned at haligned ⊢
      omega
    · by_cases heq : name = .control i
      · obtain ⟨hbefore, hafter⟩ := hname i hi heq
        unfold Aligned at haligned
        have := hdrop (by omega)
        omega
      · rw [hqueues, Lib.NamedQueues.remove_linked_of_ne (Ne.symm heq)]
    · rw [hmessages, hready, if_neg (by omega), if_neg (by omega)]
  · rw [hT]
    exact h.leaderTests
  · rw [hqueues, Lib.NamedQueues.remove_linked_of_ne (Ne.symm hbarrier), h.barrier, hkeeps.1, hkeeps'.1]
    rfl
  · rw [hqueues, Lib.NamedQueues.remove_linked_of_ne (Ne.symm hdone), h.done, hkeeps.2, hkeeps'.2]
    rfl
  · rcases hleader' with ⟨k, hk⟩ | ⟨k, hk⟩ <;> simp [hk]
  · rw [hT, hmessages]
    exact h.fresh
  · rw [hT, hmessages]
    exact h.readies
  · rcases hleader' with ⟨k, hk⟩ | ⟨k, hk⟩ <;> simp [hk]
  · rcases hleader' with ⟨k, hk⟩ | ⟨k, hk⟩ <;> simp [hk]
  · rcases hleader' with ⟨k, hk⟩ | ⟨k, hk⟩ <;> simp [hk]

theorem of_next_test (h : Rendezvous totalPeers tests s) {k : Nat} (hpc : s.leader = .dropControl k)
    (hall : totalPeers ≤ k) (hmore : s.leaderTest < tests) (hT : s'.leaderTest = s.leaderTest + 1)
    (hleader : s'.leader = .removeBarrier) (hpeer : s'.peer = s.peer)
    (htest : s'.peerTest = s.peerTest) (hqueues : s'.queues = s.queues) :
    Rendezvous totalPeers tests s' := by
  have hbarrier := h.fresh .barrier (by simp) (s.leaderTest + 1) (by omega)
  have hdone := h.fresh .done (by simp) (s.leaderTest + 1) (by omega)
  constructor
  · intro i hi
    refine (h.peers i hi).next_test ?_ hmore hT hleader (by rw [hpeer]) (by rw [htest]) hqueues
      hbarrier hdone
    simp only [State.leaderGrade, hpc, LeaderPc.grade]
    rw [if_neg (by omega)]
  · omega
  · rw [hqueues, h.barrier, hpc, hleader]
    rfl
  · rw [hqueues, h.done, hpc, hleader]
    rfl
  · rw [hT, hqueues]
    exact fun _ => hbarrier
  · rw [hT, hqueues]
    exact fun name hname t ht => h.fresh name hname t (by omega)
  · rw [hT, hqueues, hbarrier]
    simp
  · simp [hleader]
  · simp [hleader]
  · simp [hleader]

theorem of_pc (h : Rendezvous totalPeers tests s) {leader : LeaderPc} {q : Queues}
    (hlinked : q.linked = s.queues.linked)
    (hmessages : ∀ name, (∀ i, name ≠ .control i) → q.messages name = s.queues.messages name)
    (hgrade : ∀ i < totalPeers, leader.grade i = s.leader.grade i)
    (hkeeps : leader.keepsBarrier = s.leader.keepsBarrier) (hkeepsDone : leader.keepsDone = s.leader.keepsDone)
    (hmade : leader.keepsBarrier ∨ leader.keepsDone ∨ leader = .finished)
    (hopened : ∀ queue completed, leader = .waitForAllDone queue completed →
      queue = s.leaderTest ∧ completed = ∅)
    (hcounted : ∀ ready, leader ≠ .waitForAllReady ready) :
    Rendezvous totalPeers tests { s with queues := q, leader := leader } := by
  have hbarrier : q.messages .barrier = s.queues.messages .barrier := hmessages _ (by simp)
  have hdone : q.messages .done = s.queues.messages .done := hmessages _ (by simp)
  refine h.quiet rfl rfl rfl hgrade ?_ ?_ ?_ ?_ ?_ ?_ ?_ ?_ ?_
  · exact fun _ _ _ hkept => hkeeps ▸ hkept
  · exact fun i => by rw [hlinked]
  · rw [hlinked, h.barrier, hkeeps]
  · rw [hlinked, h.done, hkeepsDone]
  · exact fun t => by rw [hbarrier]
  · exact fun t => .inl (by rw [hdone])
  · rintro (rfl | rfl | rfl) <;> simp [LeaderPc.keepsBarrier, LeaderPc.keepsDone] at hmade
  · intro queue completed hpc
    obtain ⟨hqueue, rfl⟩ := hopened queue completed hpc
    exact ⟨hqueue, Finset.empty_subset _⟩
  · exact fun ready hpc => absurd hpc (hcounted ready)

theorem of_shared (h : Rendezvous totalPeers tests s) {leader : LeaderPc} {q : Queues}
    (hcontrol : ∀ i, q.linked (.control i) = s.queues.linked (.control i))
    (hgrade : ∀ i, leader.grade i = s.leader.grade i)
    (hkeeps : leader.keepsBarrier ∨ s.leader.keepsBarrier = false ∨ ∀ i, s.leader.grade i = 2)
    (hbarrier : q.linked .barrier = if leader.keepsBarrier then some s.leaderTest else none)
    (hdone : q.linked .done = if leader.keepsDone then some s.leaderTest else none)
    (hreadies : ∀ t, q.messages .barrier t = s.queues.messages .barrier t)
    (hcompletions : ∀ t, q.messages .done t = s.queues.messages .done t ∨ q.messages .done t = [])
    (hunmade : leader = .removeBarrier ∨ leader = .removeDone ∨ leader = .makeBarrier →
      s.queues.messages .barrier s.leaderTest = [])
    (hopened : ∀ queue completed, leader ≠ .waitForAllDone queue completed)
    (hcounted : ∀ ready, leader = .waitForAllReady ready → ready = ∅) :
    Rendezvous totalPeers tests { s with queues := q, leader := leader } := by
  refine h.quiet rfl rfl rfl (fun i _ => hgrade i) ?_ hcontrol hbarrier hdone hreadies hcompletions
    hunmade ?_ ?_
  · intro i _ hzero hkept
    rcases hkeeps with hnew | hold | htwo
    · exact hnew
    · rw [hold] at hkept
      cases hkept
    · have htwo' : s.leaderGrade i = 2 := htwo i
      omega
  · exact fun queue completed hpc => absurd hpc (hopened queue completed)
  · intro ready hpc
    rw [hcounted ready hpc]
    exact Finset.empty_subset _

theorem all_of_card {counted : Finset Nat} (hcounted : counted ⊆ Finset.range totalPeers)
    (hcard : ¬ counted.card < totalPeers) : counted = Finset.range totalPeers :=
  Finset.eq_of_subset_of_card_le hcounted (by simpa using hcard)

theorem of_leader_step (h : Rendezvous totalPeers tests s)
    (hstep : leaderStep totalPeers tests s = some s') : Rendezvous totalPeers tests s' := by
  have hbarrier := h.barrier
  have hdone := h.done
  have hreadyWait := leaderStep_waitForAllReady hstep
  have hdoneWait := leaderStep_waitForAllDone hstep
  unfold leaderStep at hstep
  cases hpc : s.leader <;> rw [hpc] at hstep hbarrier hdone <;>
    simp only [Option.map_eq_some_iff, Option.some.injEq] at hstep <;>
    simp only [LeaderPc.keepsBarrier, LeaderPc.keepsDone, if_true, Bool.false_eq_true, if_false]
      at hbarrier hdone
  case removeBarrier =>
    subst hstep
    exact h.of_shared (by simp) (by simp [hpc]) (by simp [hpc]) (by simp) (by simpa using hdone)
      (by simp) (by simp) (fun _ => h.unmade (.inl hpc)) (by simp) (by simp)
  case removeDone =>
    subst hstep
    exact h.of_shared (by simp) (by simp [hpc]) (by simp [hpc]) (by simpa using hbarrier) (by simp)
      (by simp) (by simp) (fun _ => h.unmade (.inr (.inl hpc))) (by simp) (by simp)
  case makeBarrier =>
    obtain ⟨q, hq, rfl⟩ := hstep
    obtain ⟨-, rfl⟩ := Lib.NamedQueues.create_eq_some hq
    have hempty := h.unmade (.inr (.inr hpc))
    refine h.of_shared (by simp) (by simp [hpc]) (by simp) (by simp) (by simpa using hdone) ?_
      (by simp) (by simp) (by simp) (by simp)
    intro t
    by_cases ht : t = s.leaderTest
    · simp [ht, hempty, Lib.NamedQueues.store_messages_self]
    · simp [ht]
  case makeDone =>
    obtain ⟨q, hq, rfl⟩ := hstep
    obtain ⟨-, rfl⟩ := Lib.NamedQueues.create_eq_some hq
    refine h.of_shared (by simp) (by simp [hpc]) (by simp) (by simpa using hbarrier) (by simp)
      (by simp) ?_ (by simp) (by simp) (by simp)
    intro t
    by_cases ht : t = s.leaderTest
    · exact .inr (by simp [ht, Lib.NamedQueues.store_messages_self])
    · exact .inl (by simp [ht])
  case waitForAllReady ready =>
    rcases hreadyWait ready hpc with ⟨-, k, test, rest, hk, hcontent, rfl⟩ | ⟨hfew, rfl⟩
    · exact h.of_ready hpc hcontent hk rfl rfl rfl rfl rfl
    · have hall := all_of_card (h.counted ready hpc) hfew
      exact h.of_pc rfl (by simp) (by simp +contextual [hpc, hall]) (by simp [hpc]) (by simp [hpc]) (by simp)
        (by simp) (by simp)
  case openInbox signal k =>
    split_ifs at hstep with hk
    · obtain ⟨queue, -, rfl⟩ := Option.map_eq_some_iff.mp hstep
      exact h.of_pc rfl (by simp) (by simp [hpc]) (by simp [hpc]) (by simp [hpc]) (by simp) (by simp)
        (by simp)
    · obtain rfl := Option.some.inj hstep
      cases signal <;>
        exact h.of_pc rfl (by simp) (by simp [hpc, afterSignal]) (by simp [hpc, afterSignal])
          (by simp [hpc, afterSignal]) (by simp [afterSignal]) (by simp [afterSignal])
          (by simp [afterSignal])
  case sendSignal signal k queue =>
    obtain ⟨q, hsend, rfl⟩ := hstep
    obtain rfl := Lib.NamedQueues.send_eq_some hsend
    refine h.of_pc rfl ?_ (by simp [hpc]) (by simp [hpc]) (by simp [hpc]) (by simp) (by simp) (by simp)
    intro name hname
    exact Lib.NamedQueues.store_messages_of_name_ne (hname k)
  case openDone =>
    obtain ⟨queue, hqueue, rfl⟩ := hstep
    rw [hdone] at hqueue
    obtain rfl := Option.some.inj hqueue
    exact h.of_pc rfl (by simp) (by simp [hpc]) (by simp [hpc]) (by simp [hpc]) (by simp)
      (by simp +contextual [eq_comm]) (by simp)
  case waitForAllDone queue completed =>
    rcases hdoneWait queue completed hpc with ⟨-, k, rest, hk, hcontent, rfl⟩ | ⟨hfew, rfl⟩
    · exact h.of_completion hpc hcontent hk rfl rfl rfl rfl rfl
    · have hall := all_of_card (h.completed queue completed hpc) hfew
      exact h.of_pc rfl (by simp) (by simp +contextual [hpc, hall]) (by simp [hpc]) (by simp [hpc])
        (by simp) (by simp) (by simp)
  case dropBarrier =>
    subst hstep
    exact h.of_shared (by simp) (by simp [hpc]) (by simp [hpc]) (by simp) (by simpa using hdone)
      (by simp) (by simp) (by simp) (by simp) (by simp)
  case dropDone =>
    subst hstep
    exact h.of_shared (by simp) (by simp [hpc]) (by simp [hpc]) (by simpa using hbarrier) (by simp)
      (by simp) (by simp) (by simp) (by simp) (by simp)
  case dropControl k =>
    split_ifs at hstep with hk hmore
    · obtain rfl := Option.some.inj hstep
      refine h.of_removal (by simp) (by simp) (.inl ⟨k, hpc⟩) rfl rfl rfl (.inr ⟨k, rfl⟩) rfl ?_ ?_
      · intro i _
        simp only [State.leaderGrade, hpc, LeaderPc.grade]
        split_ifs <;> omega
      · intro i _ hname
        obtain rfl := QueueName.control.inj hname
        simp [State.leaderGrade, hpc]
    · obtain rfl := Option.some.inj hstep
      exact h.of_next_test hpc (by omega) hmore rfl rfl rfl rfl rfl
    · obtain rfl := Option.some.inj hstep
      exact h.of_pc rfl (by simp) (by intro i hi; simp [hpc]; omega) (by simp [hpc]) (by simp [hpc])
        (by simp) (by simp) (by simp)
  case dropData k =>
    subst hstep
    refine h.of_removal (by simp) (by simp) (.inr ⟨k, hpc⟩) rfl rfl rfl (.inl ⟨k + 1, rfl⟩) rfl ?_
      (by simp)
    intro i _
    simp only [State.leaderGrade, hpc, LeaderPc.grade]
    split_ifs <;> omega
  case finished => cases hstep

/-! ## The steps of a peer -/

/-- A step of peer `i` leaves the other peers and the leader alone, and adds to the shared queues only its own
ready and its own completion for the running test. -/
theorem of_peer (h : Rendezvous totalPeers tests s) (hself : PeerInv tests s' i)
    (hleader : s'.leader = s.leader) (hT : s'.leaderTest = s.leaderTest)
    (hpeer : ∀ j, j ≠ i → s'.peer j = s.peer j) (htest : ∀ j, j ≠ i → s'.peerTest j = s.peerTest j)
    (hlinked : ∀ name, name ≠ .control i → name ≠ .data i →
      s'.queues.linked name = s.queues.linked name)
    (hready : s'.queues.messages .barrier = s.queues.messages .barrier ∨
      s.leader.keepsBarrier ∧ s'.queues.messages .barrier =
        Function.update (s.queues.messages .barrier) s.leaderTest
          (s.queues.messages .barrier s.leaderTest ++ [.ready i s.leaderTest]))
    (hdone : s'.queues.messages .done = s.queues.messages .done ∨
      s'.queues.messages .done =
        Function.update (s.queues.messages .done) s.leaderTest
          (s.queues.messages .done s.leaderTest ++ [.done i]))
    (hi : i < totalPeers) : Rendezvous totalPeers tests s' := by
  have hcount : ∀ j, j ≠ i → (s'.queues.messages .barrier s.leaderTest).count (.ready j s.leaderTest) =
      (s.queues.messages .barrier s.leaderTest).count (.ready j s.leaderTest) := by
    intro j hj
    rcases hready with hsame | ⟨-, hsent⟩
    · rw [hsame]
    · simp [hsent, List.count_append, Ne.symm hj]
  have hmem : ∀ j, j ≠ i → .done j ∈ s'.queues.messages .done s.leaderTest →
      .done j ∈ s.queues.messages .done s.leaderTest := by
    intro j hj hmem
    rcases hdone with hsame | hsent
    · rwa [hsame] at hmem
    · simpa [hsent, hj] using hmem
  constructor
  · intro j hj
    by_cases hji : j = i
    · rw [hji]
      exact hself
    · exact (h.peers j hj).congr hT (by simp [State.leaderGrade, hleader]) (hpeer j hji) (htest j hji)
        (hlinked _ (by simpa using hji) (by simp)) (hcount j hji) (hmem j hji)
        (fun _ hkept => by rw [hleader]; exact hkept)
  · rw [hT]
    exact h.leaderTests
  · rw [hlinked _ (by simp) (by simp), h.barrier, hleader, hT]
  · rw [hlinked _ (by simp) (by simp), h.done, hleader, hT]
  · rw [hT, hleader]
    intro hpc
    have hempty := h.unmade hpc
    rcases hready with hsame | ⟨hkept, -⟩
    · rw [hsame, hempty]
    · rcases hpc with hpc | hpc | hpc <;> simp [hpc] at hkept
  · intro name hname t ht
    rw [hT] at ht
    have hfresh := h.fresh name hname t ht
    have hne : t ≠ s.leaderTest := by omega
    rcases List.mem_pair.mp hname with rfl | rfl
    · rcases hready with hsame | ⟨-, hsent⟩
      · rw [hsame, hfresh]
      · rw [hsent, Function.update_of_ne hne, hfresh]
    · rcases hdone with hsame | hsent
      · rw [hsame, hfresh]
      · rw [hsent, Function.update_of_ne hne, hfresh]
  · rw [hT]
    intro m hm
    rcases hready with hsame | ⟨-, hsent⟩
    · rw [hsame] at hm
      exact h.readies m hm
    · rw [hsent, Function.update_self, List.mem_append, List.mem_singleton] at hm
      rcases hm with hm | rfl
      · exact h.readies m hm
      · exact ⟨i, hi, rfl⟩
  · rw [hleader, hT]
    exact h.opened
  · rw [hleader]
    exact h.counted
  · rw [hleader]
    exact h.completed

theorem of_own (h : Rendezvous totalPeers tests s) (hi : i < totalPeers) {pc : PeerPc}
    (hleader : s'.leader = s.leader) (hT : s'.leaderTest = s.leaderTest)
    (hpeer : s'.peer = Function.update s.peer i pc) (htest : s'.peerTest = s.peerTest)
    (hlinked : ∀ name, name ≠ .control i → name ≠ .data i →
      s'.queues.linked name = s.queues.linked name)
    (hready : s'.queues.messages .barrier = s.queues.messages .barrier)
    (hdone : s'.queues.messages .done = s.queues.messages .done)
    (hgrade : pc.grade = (s.peer i).grade ∨ (s.peer i).grade ≤ 2 ∧ pc.grade ≤ 2)
    (hcontrol : 1 ≤ pc.grade → pc.grade ≤ 4 →
      s'.queues.linked (.control i) = some (s.peerTest i) ∨
        1 ≤ (s.peer i).grade ∧ (s.peer i).grade ≤ 4 ∧
          s'.queues.linked (.control i) = s.queues.linked (.control i))
    (hopened : ∀ queue, pc = .sendReady queue →
      queue = s.leaderTest ∧ s.peerTest i = s.leaderTest ∧ s.leader.keepsBarrier)
    (hopenedDone : ∀ queue, pc = .sendDone queue → queue = s.leaderTest) :
    Rendezvous totalPeers tests s' := by
  have hself : s'.peer i = pc := by rw [hpeer, Function.update_self]
  refine h.of_peer ?_ hleader hT (fun j hj => by rw [hpeer, Function.update_of_ne hj])
    (fun _ _ => by rw [htest]) hlinked (.inl hready) (.inl hdone) hi
  refine (h.peers i hi).of_peer hleader hT (by rw [htest]) ?_ ?_ hready hdone ?_ ?_
  · rw [State.peerGrade, hself]
    exact hgrade
  · rw [State.peerGrade, hself]
    exact hcontrol
  · rw [hself]
    exact hopened
  · rw [hself]
    exact hopenedDone

theorem barrier_opened (h : Rendezvous totalPeers tests s) (hi : i < totalPeers)
    (hpc : s.peer i = .openBarrier) {queue : Nat} (hqueue : s.queues.linked .barrier = some queue) :
    queue = s.leaderTest ∧ s.peerTest i = s.leaderTest ∧ s.leader.keepsBarrier := by
  rw [h.barrier] at hqueue
  split_ifs at hqueue with hkept
  obtain rfl := Option.some.inj hqueue
  have haligned := (h.peers i hi).aligned
  have htwo : s.leaderGrade i ≤ 2 := LeaderPc.grade_le_two_of_keepsBarrier hkept
  have hgrade : s.peerGrade i = 2 := by simp [State.peerGrade, hpc]
  refine ⟨rfl, ?_, hkept⟩
  unfold Aligned at haligned
  omega

theorem done_opened (h : Rendezvous totalPeers tests s) {queue : Nat}
    (hqueue : s.queues.linked .done = some queue) : queue = s.leaderTest := by
  rw [h.done] at hqueue
  split_ifs at hqueue with hkept
  exact (Option.some.inj hqueue).symm

theorem of_peer_step (h : Rendezvous totalPeers tests s) (hi : i < totalPeers)
    (hstep : peerStep totalPeers tests i s = some s') : Rendezvous totalPeers tests s' := by
  unfold peerStep at hstep
  cases hpc : s.peer i <;> rw [hpc] at hstep <;>
    simp only [Option.map_eq_some_iff, Option.some.injEq] at hstep
  case removeControl =>
    subst hstep
    refine h.of_own hi rfl rfl rfl rfl ?_ rfl rfl (by simp [hpc]) (by simp) (by simp) (by simp)
    exact fun name hname _ => Lib.NamedQueues.remove_linked_of_ne hname
  case removeData =>
    subst hstep
    refine h.of_own hi rfl rfl rfl rfl ?_ rfl rfl (by simp [hpc]) (by simp) (by simp) (by simp)
    exact fun name _ hname => Lib.NamedQueues.remove_linked_of_ne hname
  case makeControl =>
    obtain ⟨q, hq, rfl⟩ := hstep
    obtain ⟨-, rfl⟩ := Lib.NamedQueues.create_eq_some hq
    refine h.of_own hi rfl rfl rfl rfl ?_ ?_ ?_ (by simp [hpc]) ?_ (by simp) (by simp)
    · exact fun name hname _ => Lib.NamedQueues.link_linked_of_ne hname
    · simp
    · simp
    · exact fun _ _ => .inl Lib.NamedQueues.link_linked_self
  case makeData =>
    obtain ⟨q, hq, rfl⟩ := hstep
    obtain ⟨-, rfl⟩ := Lib.NamedQueues.create_eq_some hq
    refine h.of_own hi rfl rfl rfl rfl ?_ ?_ ?_ (by simp [hpc]) ?_ (by simp) (by simp)
    · exact fun name _ hname => Lib.NamedQueues.link_linked_of_ne hname
    · simp
    · simp
    · exact fun _ _ => .inr ⟨by simp [hpc], by simp [hpc], Lib.NamedQueues.link_linked_of_ne (by simp)⟩
  case openBarrier =>
    obtain ⟨queue, hqueue, rfl⟩ := hstep
    refine h.of_own hi rfl rfl rfl rfl (fun _ _ _ => rfl) rfl rfl (by simp [hpc]) ?_ ?_ (by simp)
    · exact fun _ _ => .inr ⟨by simp [hpc], by simp [hpc], rfl⟩
    · intro queue' hqueue'
      obtain rfl := PeerPc.sendReady.inj hqueue'
      exact h.barrier_opened hi hpc hqueue
  case sendReady queue =>
    obtain ⟨q, hsend, rfl⟩ := hstep
    obtain rfl := Lib.NamedQueues.send_eq_some hsend
    obtain ⟨rfl, hsame, hkept⟩ := (h.peers i hi).opened queue hpc
    refine h.of_peer ((h.peers i hi).ready_sent hpc rfl rfl rfl State.setPeer_self rfl ?_ ?_) rfl rfl
      (fun j hj => State.setPeer_of_ne hj) (fun _ _ => rfl) (fun _ _ _ => rfl) (.inr ⟨hkept, ?_⟩) (.inl ?_) hi
    · exact Lib.NamedQueues.store_messages_self
    · simp
    · simp [hsame, Lib.NamedQueues.store_messages_name]
    · simp
  case waitForAssignments =>
    split at hstep
    · rename_i q hreceive
      obtain ⟨rest, -, rfl⟩ := Lib.NamedQueues.receive_eq_some hreceive
      obtain rfl := Option.some.inj hstep
      exact h.of_own hi rfl rfl rfl rfl (fun _ _ _ => rfl)
        (by simp) (by simp) (by simp [hpc])
        (fun _ _ => .inr ⟨by simp [hpc], by simp [hpc], rfl⟩) (by simp) (by simp)
    · cases hstep
  case waitForStart =>
    split at hstep
    · rename_i q hreceive
      obtain ⟨rest, -, rfl⟩ := Lib.NamedQueues.receive_eq_some hreceive
      obtain rfl := Option.some.inj hstep
      exact h.of_own hi rfl rfl rfl rfl (fun _ _ _ => rfl)
        (by simp) (by simp) (by simp [hpc])
        (fun _ _ => .inr ⟨by simp [hpc], by simp [hpc], rfl⟩) (by simp) (by simp)
    · cases hstep
  case configure =>
    obtain ⟨queue, -, rfl⟩ := hstep
    exact h.of_own hi rfl rfl rfl rfl (fun _ _ _ => rfl) rfl rfl (by simp [hpc])
      (fun _ _ => .inr ⟨by simp [hpc], by simp [hpc], rfl⟩) (by simp) (by simp)
  case openDone =>
    obtain ⟨queue, hqueue, rfl⟩ := hstep
    refine h.of_own hi rfl rfl rfl rfl (fun _ _ _ => rfl) rfl rfl (by simp [hpc]) ?_ (by simp) ?_
    · exact fun _ _ => .inr ⟨by simp [hpc], by simp [hpc], rfl⟩
    · intro queue' hqueue'
      obtain rfl := PeerPc.sendDone.inj hqueue'
      exact h.done_opened hqueue
  case sendDone queue =>
    obtain ⟨q, hsend, rfl⟩ := hstep
    obtain rfl := Lib.NamedQueues.send_eq_some hsend
    obtain rfl := (h.peers i hi).openedDone queue hpc
    refine h.of_peer ((h.peers i hi).completion_sent hpc rfl rfl rfl State.setPeer_self rfl ?_) rfl rfl
      (fun j hj => State.setPeer_of_ne hj) (fun _ _ => rfl) (fun _ _ _ => rfl) (.inl ?_) (.inr ?_) hi
    · simp
    · simp
    · simp [Lib.NamedQueues.store_messages_name]
  case waitForStop =>
    split at hstep
    · rename_i message q hreceive
      obtain ⟨rest, -, rfl⟩ := Lib.NamedQueues.receive_eq_some hreceive
      obtain rfl := Option.some.inj hstep
      refine h.of_own hi rfl rfl rfl rfl (fun _ _ _ => rfl)
        (by simp) (by simp) ?_
        (fun _ _ => .inr ⟨by simp [hpc], by simp [hpc], rfl⟩) ?_ ?_ <;> split_ifs <;> simp [hpc]
    · cases hstep
  case waitForQueueRemoval =>
    split_ifs at hstep with hremoved hmore
    · obtain rfl := Option.some.inj hstep
      refine h.of_peer ((h.peers i hi).stopped hpc hremoved h.leaderTests rfl rfl rfl (.inl ?_)) rfl rfl
        (fun j hj => State.setPeer_of_ne hj) (fun j hj => Function.update_of_ne hj ..)
        (fun _ _ _ => rfl) (.inl rfl) (.inl rfl) hi
      exact ⟨State.setPeer_self, Function.update_self ..⟩
    · obtain rfl := Option.some.inj hstep
      refine h.of_peer ((h.peers i hi).stopped hpc hremoved h.leaderTests rfl rfl rfl (.inr ?_)) rfl rfl
        (fun j hj => State.setPeer_of_ne hj) (fun _ _ => rfl)
        (fun _ _ _ => rfl) (.inl rfl) (.inl rfl) hi
      exact ⟨State.setPeer_self, rfl, by omega⟩
  case dropControl =>
    subst hstep
    refine h.of_own hi rfl rfl rfl rfl ?_ rfl rfl (by simp [hpc]) (by simp) (by simp) (by simp)
    exact fun name hname _ => Lib.NamedQueues.remove_linked_of_ne hname
  case dropData =>
    subst hstep
    refine h.of_own hi rfl rfl rfl rfl ?_ rfl rfl (by simp [hpc]) (by simp) (by simp) (by simp)
    exact fun name _ hname => Lib.NamedQueues.remove_linked_of_ne hname
  case finished => cases hstep

theorem of_retry (h : Rendezvous totalPeers tests s) (hi : i < totalPeers)
    (hstep : peerRetry i s = some s') : Rendezvous totalPeers tests s' := by
  unfold peerRetry at hstep
  split at hstep
  · rename_i queue hpc
    obtain rfl := Option.some.inj hstep
    exact h.of_own hi rfl rfl rfl rfl (fun _ _ _ => rfl) rfl rfl (by simp [hpc])
      (fun _ _ => .inr ⟨by simp [hpc], by simp [hpc], rfl⟩) (by simp) (by simp)
  · rename_i queue hpc
    obtain rfl := Option.some.inj hstep
    exact h.of_own hi rfl rfl rfl rfl (fun _ _ _ => rfl) rfl rfl (by simp [hpc])
      (fun _ _ => .inr ⟨by simp [hpc], by simp [hpc], rfl⟩) (by simp) (by simp)
  · cases hstep

/-! ## The run -/

theorem initial : Rendezvous totalPeers tests {} := by
  constructor
  · intro i _
    constructor <;> simp [Aligned, State.leaderGrade, State.peerGrade, Lib.NamedQueues.empty]
  all_goals simp [Lib.NamedQueues.empty]

theorem of_step (h : Rendezvous totalPeers tests s) {e : Event}
    (hstep : step totalPeers tests s e = some s') : Rendezvous totalPeers tests s' := by
  cases e with
  | leader => exact h.of_leader_step hstep
  | peer i =>
    rw [step] at hstep
    split_ifs at hstep with hi
    exact h.of_peer_step hi hstep
  | retry i =>
    rw [step] at hstep
    split_ifs at hstep with hi
    exact h.of_retry hi hstep

end Rendezvous

theorem rendezvous {guard : State → Event → Prop} (hr : (machine totalPeers tests).ReachedUnder guard s) :
    Rendezvous totalPeers tests s :=
  hr.invariant (fun _ hs => hs ▸ .initial) fun _ _ _ h _ hstep => h.of_step hstep

end Quantas.BoostMq
