import Quantas.Pbft.Requests

/-!
# PBFT: one slot of the normal case

What the calls of a replica without a fault do while it works on one sequence number in view 0. `Slot c n S`
says which phase messages of its log are about that number or later ones; the bookkeeping of checkpoints cuts
older messages only, so a call finds in the slot what it is looking for, whether a checkpoint has become stable
or not.
-/

namespace Quantas.Pbft

variable {ctx : Ctx} {s : Local}

/-! ## The bookkeeping of checkpoints -/

theorem maybeStableCheckpoint_idem (ctx : Ctx) (s : Local) :
    maybeStableCheckpoint ctx (maybeStableCheckpoint ctx s) = maybeStableCheckpoint ctx s := by
  rcases maybeStableCheckpoint_cases ctx s with ⟨-, heq⟩ | ⟨-, heq⟩
  · rw [heq, heq]
  · rw [heq]
    rcases maybeStableCheckpoint_cases ctx (trimmed s s.confirmedTrans.length s.confirmedTrans.length
      (s.confirmedTrans.length + WINDOW)
      (s.receivedMessages.filter fun m => s.confirmedTrans.length ≤ m.seqNum)) with ⟨-, heq'⟩ | ⟨-, heq'⟩
    · exact heq'
    · rw [heq']
      have hfilter : (s.receivedMessages.filter fun m => decide (s.confirmedTrans.length ≤ m.seqNum)).filter
          (fun m => decide (s.confirmedTrans.length ≤ m.seqNum)) =
          s.receivedMessages.filter fun m => decide (s.confirmedTrans.length ≤ m.seqNum) := by
        apply List.filter_eq_self.mpr
        intro m hm
        exact (List.mem_filter.mp hm).2
      unfold trimmed
      dsimp only
      rw [hfilter]

theorem call_maybeStableCheckpoint (ctx : Ctx) (s : Local) : call ctx (maybeStableCheckpoint ctx s) = call ctx s := by
  have hphase : (maybeStableCheckpoint ctx s).phase = s.phase := by
    obtain ⟨lastStable, low, high, log, htrimmed, -⟩ := maybeStableCheckpoint_eq ctx s
    rw [htrimmed]
    rfl
  have hidem := maybeStableCheckpoint_idem ctx s
  unfold call PBFTPrePreparePhase.runPhase PBFTPreparePhase.runPhase PBFTCommitPhase.runPhase
    PBFTViewChangePhase.runPhase PBFTNewViewPhase.runPhase
  rw [hphase, hidem]

/-! ## Slots -/

/-- The phase messages of the log from sequence number `n` on are those in `S`. -/
def Slot (c : PBFTConsensus) (n : Nat) (S : PhaseMessage → Prop) : Prop :=
  ∀ m, (.phase m ∈ c.receivedMessages ∧ n ≤ m.seqNum) ↔ S m

namespace Slot
variable {c c' : PBFTConsensus} {n : Nat} {S S' : PhaseMessage → Prop}

theorem congr (h : Slot c n S) (hS : ∀ m, S m ↔ S' m) : Slot c n S' := fun m => (h m).trans (hS m)

theorem append (h : Slot c n S) {ms : List Message} (hlog : c'.receivedMessages = c.receivedMessages ++ ms)
    (hms : ∀ m, .phase m ∈ ms → n ≤ m.seqNum) : Slot c' n fun m => S m ∨ .phase m ∈ ms := by
  intro m
  rw [hlog, List.mem_append]
  constructor
  · intro hm
    obtain ⟨hm | hm, hn⟩ := hm
    · exact .inl ((h m).mp ⟨hm, hn⟩)
    · exact .inr hm
  · intro hm
    rcases hm with hm | hm
    · exact ⟨.inl ((h m).mpr hm).1, ((h m).mpr hm).2⟩
    · exact ⟨.inr hm, hms m hm⟩

theorem insert (h : Slot c n S) {m₀ : PhaseMessage} (hlog : c'.receivedMessages = c.receivedMessages ++ [.phase m₀])
    (hseq : n ≤ m₀.seqNum) : Slot c' n fun m => S m ∨ m = m₀ := by
  have hms : ∀ m, .phase m ∈ [Message.phase m₀] → n ≤ m.seqNum := by
    intro m hm
    rw [Message.phase.inj (List.mem_singleton.mp hm)]
    exact hseq
  apply (h.append hlog hms).congr
  intro m
  simp

theorem next (h : Slot c n S) (hS : ∀ m, S m → m.seqNum = n) : Slot c (n + 1) fun _ => False := by
  intro m
  rw [iff_false]
  intro hm
  have hmem := (h m).mp ⟨hm.1, Nat.le_of_succ_le hm.2⟩
  have hseq := hS m hmem
  have hn := hm.2
  omega

theorem checkpoint (h : Slot s.toPBFTConsensus n S) (hlength : s.confirmedTrans.length = n) (ctx : Ctx) :
    Slot (maybeStableCheckpoint ctx s).toPBFTConsensus n S := by
  rcases maybeStableCheckpoint_cases ctx s with ⟨-, heq⟩ | ⟨-, heq⟩
  · rw [heq]
    exact h
  · rw [heq]
    intro m
    show (.phase m ∈ s.receivedMessages.filter _ ∧ n ≤ m.seqNum) ↔ S m
    rw [List.mem_filter, ← h m, hlength]
    constructor
    · intro hm
      exact ⟨hm.1.1, hm.2⟩
    · intro hm
      exact ⟨⟨hm.1, decide_eq_true hm.2⟩, hm.2⟩

theorem mem_phaseMessages (h : Slot c n S) {type : PhaseType} {v : Nat} {m : PhaseMessage} :
    m ∈ phaseMessages c type n v ↔ S m ∧ m.messageType = type ∧ m.seqNum = n ∧ m.view = v := by
  rw [Pbft.mem_phaseMessages]
  constructor
  · intro hm
    exact ⟨(h m).mp ⟨hm.1, hm.2.2.1.ge⟩, hm.2⟩
  · intro hm
    exact ⟨((h m).mpr hm.1).1, hm.2⟩

end Slot

/-! ## The messages about one request -/

/-- The message of one type from `z` about request `tx` at sequence number `n` in view 0. -/
def votes (n : Nat) (tx : ClientRequest) (type : PhaseType) (z : InterfaceId) : PhaseMessage :=
  ⟨type, n, 0, tx, 0, z⟩

/-- The leader's proposal, and the prepares and the commits from two groups of replicas. -/
def Ballots (n : Nat) (tx : ClientRequest) (leader : InterfaceId) (prepared committed : InterfaceId → Prop)
    (m : PhaseMessage) : Prop :=
  m = votes n tx .prePrepare leader ∨ (∃ z, prepared z ∧ m = votes n tx .prepare z) ∨
    ∃ z, committed z ∧ m = votes n tx .commit z

namespace Ballots
variable {n : Nat} {tx : ClientRequest} {leader : InterfaceId} {prepared committed : InterfaceId → Prop}
  {m : PhaseMessage}

theorem seqNum (h : Ballots n tx leader prepared committed m) : m.seqNum = n := by
  rcases h with rfl | ⟨_, -, rfl⟩ | ⟨_, -, rfl⟩
  · rfl
  · rfl
  · rfl

theorem eq_of_prePrepare (h : Ballots n tx leader prepared committed m) (htype : m.messageType = .prePrepare) :
    m = votes n tx .prePrepare leader := by
  rcases h with h | ⟨_, -, rfl⟩ | ⟨_, -, rfl⟩
  · exact h
  · cases htype
  · cases htype

theorem of_prepare (h : Ballots n tx leader prepared committed m) (htype : m.messageType = .prepare) :
    prepared m.fromId := by
  rcases h with rfl | ⟨z, hz, rfl⟩ | ⟨_, -, rfl⟩
  · cases htype
  · exact hz
  · cases htype

theorem of_commit (h : Ballots n tx leader prepared committed m) (htype : m.messageType = .commit) :
    committed m.fromId := by
  rcases h with rfl | ⟨_, -, rfl⟩ | ⟨z, hz, rfl⟩
  · cases htype
  · cases htype
  · exact hz

theorem congr {prepared' committed' : InterfaceId → Prop} (hprepared : ∀ z, prepared z ↔ prepared' z)
    (hcommitted : ∀ z, committed z ↔ committed' z) :
    Ballots n tx leader prepared committed m ↔ Ballots n tx leader prepared' committed' m := by
  unfold Ballots
  simp only [hprepared, hcommitted]

theorem prepare (Z : InterfaceId → Prop) :
    Ballots n tx leader prepared committed m ∨ (∃ z, Z z ∧ m = votes n tx .prepare z) ↔
      Ballots n tx leader (fun z => prepared z ∨ Z z) committed m := by
  unfold Ballots
  constructor
  · intro h
    rcases h with (h | ⟨z, hz, h⟩ | h) | ⟨z, hz, h⟩
    · exact .inl h
    · exact .inr (.inl ⟨z, .inl hz, h⟩)
    · exact .inr (.inr h)
    · exact .inr (.inl ⟨z, .inr hz, h⟩)
  · intro h
    rcases h with h | ⟨z, hz | hz, h⟩ | h
    · exact .inl (.inl h)
    · exact .inl (.inr (.inl ⟨z, hz, h⟩))
    · exact .inr ⟨z, hz, h⟩
    · exact .inl (.inr (.inr h))

theorem commit (Z : InterfaceId → Prop) :
    Ballots n tx leader prepared committed m ∨ (∃ z, Z z ∧ m = votes n tx .commit z) ↔
      Ballots n tx leader prepared (fun z => committed z ∨ Z z) m := by
  unfold Ballots
  constructor
  · intro h
    rcases h with (h | h | ⟨z, hz, h⟩) | ⟨z, hz, h⟩
    · exact .inl h
    · exact .inr (.inl h)
    · exact .inr (.inr ⟨z, .inl hz, h⟩)
    · exact .inr (.inr ⟨z, .inr hz, h⟩)
  · intro h
    rcases h with h | h | ⟨z, hz | hz, h⟩
    · exact .inl (.inl h)
    · exact .inl (.inr (.inl h))
    · exact .inl (.inr (.inr ⟨z, hz, h⟩))
    · exact .inr ⟨z, hz, h⟩

end Ballots

/-! ## What a call finds -/

theorem find?_eq_some_of_unique {α : Type*} {l : List α} {q : α → Bool} {a : α} (ha : a ∈ l) (hq : q a = true)
    (hunique : ∀ x ∈ l, x = a) : l.find? q = some a := by
  cases hfound : l.find? q with
  | none => exact absurd hq (List.find?_eq_none.mp hfound a ha)
  | some x => rw [hunique x (List.mem_of_find?_eq_some hfound)]

section Finds
variable {c : PBFTConsensus} {n : Nat} {tx : ClientRequest} {prepared committed : InterfaceId → Prop}

theorem mem_proposals_iff (h : Slot c n (Ballots n tx (leaderFor ctx 0) prepared committed)) {m : PhaseMessage} :
    m ∈ phaseMessages c .prePrepare n 0 ↔ m = votes n tx .prePrepare (leaderFor ctx 0) := by
  rw [h.mem_phaseMessages]
  constructor
  · intro hm
    exact hm.1.eq_of_prePrepare hm.2.1
  · intro hm
    rw [hm]
    exact ⟨.inl rfl, rfl, rfl, rfl⟩

theorem mem_senders_prepare (h : Slot c n (Ballots n tx (leaderFor ctx 0) prepared committed)) {z : InterfaceId} :
    z ∈ senders ctx c .prepare 0 n (ctx.digestOf tx) ↔ prepared z := by
  rw [mem_senders]
  constructor
  · intro hz
    obtain ⟨m, hlog, htype, hseq, -, -, -, rfl⟩ := hz
    exact ((h m).mp ⟨hlog, hseq.ge⟩).of_prepare htype
  · intro hz
    have hmem := (h (votes n tx .prepare z)).mpr (.inr (.inl ⟨z, hz, rfl⟩))
    exact ⟨_, hmem.1, rfl, rfl, rfl, rfl, rfl, rfl⟩

theorem mem_senders_commit (h : Slot c n (Ballots n tx (leaderFor ctx 0) prepared committed)) {z : InterfaceId} :
    z ∈ senders ctx c .commit 0 n (ctx.digestOf tx) ↔ committed z := by
  rw [mem_senders]
  constructor
  · intro hz
    obtain ⟨m, hlog, htype, hseq, -, -, -, rfl⟩ := hz
    exact ((h m).mp ⟨hlog, hseq.ge⟩).of_commit htype
  · intro hz
    have hmem := (h (votes n tx .commit z)).mpr (.inr (.inr ⟨z, hz, rfl⟩))
    exact ⟨_, hmem.1, rfl, rfl, rfl, rfl, rfl, rfl⟩

theorem isPrepared_iff_quorum (h : Slot c n (Ballots n tx (leaderFor ctx 0) prepared committed)) :
    isPrepared ctx c 0 n (ctx.digestOf tx) = true ↔
      quorum ctx < (senders ctx c .prepare 0 n (ctx.digestOf tx)).card := by
  rw [isPrepared_iff, and_iff_right]
  have hmem := (h (votes n tx .prePrepare (leaderFor ctx 0))).mpr (.inl rfl)
  exact ⟨_, hmem.1, rfl, rfl, rfl, rfl, rfl, rfl⟩

/-- All members but the leader are a quorum, and so are all; a single replica is none. -/
structure Crowded (ctx : Ctx) : Prop where
  nodup : ctx.members.Nodup
  leader : leaderFor ctx 0 ∈ ctx.members
  many : quorum ctx + 1 < ctx.members.length
  positive : 1 ≤ quorum ctx

theorem Crowded.quorum_lt (h : Crowded ctx) {senders : Finset InterfaceId}
    (hall : ∀ z ∈ ctx.members, z ≠ leaderFor ctx 0 → z ∈ senders) : quorum ctx < senders.card := by
  have hsubset : ctx.members.toFinset.erase (leaderFor ctx 0) ⊆ senders := by
    intro z hz
    obtain ⟨hne, hmem⟩ := Finset.mem_erase.mp hz
    exact hall z (List.mem_toFinset.mp hmem) hne
  have hcard := Finset.card_le_card hsubset
  rw [Finset.card_erase_of_mem (List.mem_toFinset.mpr h.leader), List.toFinset_card_of_nodup h.nodup] at hcard
  have hmany := h.many
  omega

theorem Crowded.not_quorum_lt (h : Crowded ctx) {senders : Finset InterfaceId} {p : InterfaceId}
    (hall : ∀ z ∈ senders, z = p) : ¬ quorum ctx < senders.card := by
  have hsubset : senders ⊆ {p} := fun z hz => Finset.mem_singleton.mpr (hall z hz)
  have hcard := Finset.card_le_card hsubset
  rw [Finset.card_singleton] at hcard
  have hpositive := h.positive
  omega

end Finds

/-! ## The calls of a round -/

structure Untouched (c c' : PBFTConsensus) : Prop where
  view : c'.view = c.view
  confirmedTrans : c'.confirmedTrans = c.confirmedTrans
  latency : c'.latency = c.latency
  viewChangeTimer : c'.viewChangeTimer = c.viewChangeTimer
  unhandledRequests : c'.unhandledRequests = c.unhandledRequests
  currentClientRequestId : c'.currentClientRequestId = c.currentClientRequestId

namespace Untouched
variable {c c' c'' : PBFTConsensus}

theorem refl (c : PBFTConsensus) : Untouched c c := ⟨rfl, rfl, rfl, rfl, rfl, rfl⟩

theorem trans (h : Untouched c c') (h' : Untouched c' c'') : Untouched c c'' where
  view := h'.view.trans h.view
  confirmedTrans := h'.confirmedTrans.trans h.confirmedTrans
  latency := h'.latency.trans h.latency
  viewChangeTimer := h'.viewChangeTimer.trans h.viewChangeTimer
  unhandledRequests := h'.unhandledRequests.trans h.unhandledRequests
  currentClientRequestId := h'.currentClientRequestId.trans h.currentClientRequestId

theorem checkpoint (ctx : Ctx) (s : Local) :
    Untouched s.toPBFTConsensus (maybeStableCheckpoint ctx s).toPBFTConsensus := by
  obtain ⟨lastStable, low, high, log, htrimmed, -⟩ := maybeStableCheckpoint_eq ctx s
  rw [htrimmed]
  exact ⟨rfl, rfl, rfl, rfl, rfl, rfl⟩

end Untouched

theorem maybeStableCheckpoint_phase (ctx : Ctx) (s : Local) :
    (maybeStableCheckpoint ctx s).phase = s.phase ∧ (maybeStableCheckpoint ctx s).outbox = s.outbox := by
  obtain ⟨lastStable, low, high, log, htrimmed, -⟩ := maybeStableCheckpoint_eq ctx s
  rw [htrimmed]
  exact ⟨rfl, rfl⟩

/-- A replica in view 0 that works on sequence number `n`, in this phase and with these messages of the slot;
its timer is not out. -/
structure Working (ctx : Ctx) (c : PBFTConsensus) (n : Nat) (phase : Phase) (S : PhaseMessage → Prop) : Prop where
  view : c.view = 0
  length : c.confirmedTrans.length = n
  timer : ctx.round ≤ c.viewChangeTimer
  phase : c.phase = phase
  slot : Slot c n S

namespace Working
variable {n : Nat} {phase : Phase} {S : PhaseMessage → Prop}

theorem checkpoint (h : Working ctx s.toPBFTConsensus n phase S) :
    Working ctx (maybeStableCheckpoint ctx s).toPBFTConsensus n phase S := by
  have hkept := Untouched.checkpoint ctx s
  refine ⟨hkept.view.trans h.view, ?_, ?_, ?_, h.slot.checkpoint h.length ctx⟩
  · rw [hkept.confirmedTrans, h.length]
  · rw [hkept.viewChangeTimer]
    exact h.timer
  · rw [(maybeStableCheckpoint_phase ctx s).1, h.phase]

theorem congr (h : Working ctx s.toPBFTConsensus n phase S) (S' : PhaseMessage → Prop) (hS : ∀ m, S m ↔ S' m) :
    Working ctx s.toPBFTConsensus n phase S' := ⟨h.view, h.length, h.timer, h.phase, h.slot.congr hS⟩

theorem not_timer_lt (h : Working ctx s.toPBFTConsensus n phase S) : ¬ s.viewChangeTimer < ctx.round :=
  not_lt.mpr h.timer

theorem multicast (h : Working ctx s.toPBFTConsensus n phase S) (S' : PhaseMessage → Prop) (m₀ : PhaseMessage)
    (hseq : m₀.seqNum = n) (phase' : Phase) (hS : ∀ m, S m ∨ m = m₀ ↔ S' m) :
    Working ctx { multicastAndInsert ctx (.phase m₀) s with phase := phase' }.toPBFTConsensus n phase' S' where
  view := h.view
  length := h.length
  timer := h.timer
  phase := rfl
  slot := by
    apply Slot.congr _ hS
    exact h.slot.insert rfl hseq.ge

end Working

/-- What comes of the calls of one step: they end in `r` after `calls` calls. -/
def EndsIn (ctx : Ctx) (calls : Nat) (s r : Local) : Prop :=
  ∀ fuel, calls ≤ fuel → runPhase ctx fuel s = some r

theorem EndsIn.last {r : Local} (h : call ctx s = (r, false)) : EndsIn ctx 1 s r := by
  intro fuel hfuel
  obtain ⟨fuel, rfl⟩ := Nat.exists_eq_succ_of_ne_zero (Nat.ne_of_gt hfuel)
  rw [runPhase, h]
  simp

theorem EndsIn.next {t r : Local} {calls : Nat} (h : call ctx s = (t, true)) (hr : EndsIn ctx calls t r) :
    EndsIn ctx (calls + 1) s r := by
  intro fuel hfuel
  obtain ⟨fuel, rfl⟩ := Nat.exists_eq_succ_of_ne_zero (Nat.ne_of_gt (Nat.lt_of_lt_of_le (Nat.succ_pos _) hfuel))
  rw [runPhase, h, if_pos rfl]
  exact hr fuel (Nat.le_of_succ_le_succ hfuel)

section Calls
variable {n : Nat} {tx : ClientRequest} {prepared committed : InterfaceId → Prop}

theorem proposal_mem {c : PBFTConsensus} (h : Slot c n (Ballots n tx (leaderFor ctx 0) prepared committed)) :
    votes n tx .prePrepare (leaderFor ctx 0) ∈ phaseMessages c .prePrepare n 0 ∧
      ∀ m ∈ phaseMessages c .prePrepare n 0, m = votes n tx .prePrepare (leaderFor ctx 0) :=
  ⟨(mem_proposals_iff h).mpr rfl, fun _ hm => (mem_proposals_iff h).mp hm⟩

theorem call_waits_prepare (hcheckpoint : maybeStableCheckpoint ctx s = s)
    (h : Working ctx s.toPBFTConsensus n .prepare (Ballots n tx (leaderFor ctx 0) prepared committed))
    (hfew : ¬ quorum ctx < (senders ctx s.toPBFTConsensus .prepare 0 n (ctx.digestOf tx)).card) :
    call ctx s = (s, false) := by
  have hnone : preparedProposal ctx s.toPBFTConsensus = none := by
    apply List.find?_eq_none.mpr
    intro m hm hmatch
    rw [nextSeq, h.length, h.view] at hm hmatch
    rw [(proposal_mem h.slot).2 m hm] at hmatch
    exact hfew ((isPrepared_iff_quorum h.slot).mp (of_decide_eq_true hmatch).2)
  unfold call PBFTPreparePhase.runPhase
  rw [h.phase, hcheckpoint]
  dsimp only
  rw [if_neg h.not_timer_lt, hnone]

theorem call_waits_commit (hcheckpoint : maybeStableCheckpoint ctx s = s)
    (h : Working ctx s.toPBFTConsensus n .commit (Ballots n tx (leaderFor ctx 0) prepared committed))
    (hfew : ¬ quorum ctx < (senders ctx s.toPBFTConsensus .commit 0 n (ctx.digestOf tx)).card) :
    call ctx s = (s, false) := by
  have hnone : committedProposal ctx s.toPBFTConsensus = none := by
    apply List.find?_eq_none.mpr
    intro m hm hmatch
    rw [nextSeq, h.length, h.view] at hm hmatch
    rw [(proposal_mem h.slot).2 m hm] at hmatch
    exact hfew (of_decide_eq_true (of_decide_eq_true hmatch).2.2)
  unfold call PBFTCommitPhase.runPhase
  rw [h.phase, hcheckpoint]
  dsimp only
  rw [if_neg h.not_timer_lt, hnone]

theorem call_waits_prePrepare (hcheckpoint : maybeStableCheckpoint ctx s = s)
    (h : Working ctx s.toPBFTConsensus n .prePrepare fun _ => False) (hself : ctx.self ≠ leaderFor ctx 0) :
    call ctx s = (s, false) := by
  have hnone : leaderProposal ctx s.toPBFTConsensus = none := by
    apply List.find?_eq_none.mpr
    intro m hm
    rw [nextSeq, h.length, h.view] at hm
    exact absurd (h.slot.mem_phaseMessages.mp hm).1 id
  unfold call PBFTPrePreparePhase.runPhase
  rw [h.phase, hcheckpoint]
  dsimp only
  rw [if_neg h.not_timer_lt, h.view, if_neg hself, hnone]

theorem waits {phase : Phase} {S : PhaseMessage → Prop} (h : Working ctx s.toPBFTConsensus n phase S)
    (hwait : ∀ t : Local, maybeStableCheckpoint ctx t = t → Working ctx t.toPBFTConsensus n phase S →
      call ctx t = (t, false)) :
    ∃ r, EndsIn ctx 1 s r ∧ Working ctx r.toPBFTConsensus n phase S ∧
      Untouched s.toPBFTConsensus r.toPBFTConsensus ∧ r.outbox = s.outbox := by
  refine ⟨maybeStableCheckpoint ctx s, ?_, h.checkpoint, .checkpoint ctx s, (maybeStableCheckpoint_phase ctx s).2⟩
  apply EndsIn.last
  rw [← call_maybeStableCheckpoint]
  exact hwait _ (maybeStableCheckpoint_idem ctx s) h.checkpoint

theorem prepares (hcrowded : Crowded ctx) (hself : ctx.self ≠ leaderFor ctx 0)
    (h : Working ctx s.toPBFTConsensus n .prePrepare
      (Ballots n tx (leaderFor ctx 0) (fun _ => False) fun _ => False)) :
    ∃ r, EndsIn ctx 2 s r ∧ Working ctx r.toPBFTConsensus n .prepare
        (Ballots n tx (leaderFor ctx 0) (· = ctx.self) fun _ => False) ∧
      Untouched s.toPBFTConsensus r.toPBFTConsensus ∧
      r.outbox = s.outbox ++ packets ctx (.phase (votes n tx .prepare ctx.self)) := by
  have ht := h.checkpoint
  have hpp : leaderProposal ctx (maybeStableCheckpoint ctx s).toPBFTConsensus =
      some (votes n tx .prePrepare (leaderFor ctx 0)) := by
    obtain ⟨hmem, hunique⟩ := proposal_mem ht.slot
    unfold leaderProposal
    rw [nextSeq, ht.length, ht.view]
    exact find?_eq_some_of_unique hmem (by simp [votes]) hunique
  have hcall := call_prepare (maybeStableCheckpoint_idem ctx s) ht.phase ht.not_timer_lt
    (by rw [ht.view]; exact hself) hpp
  rw [call_maybeStableCheckpoint] at hcall
  have hprepare : ∀ m, (Ballots n tx (leaderFor ctx 0) (fun _ => False) (fun _ => False) m ∨
      ∃ z, z = ctx.self ∧ m = votes n tx .prepare z) ↔ _ := fun m => Ballots.prepare (· = ctx.self)
  have hnext := ht.multicast (Ballots n tx (leaderFor ctx 0) (· = ctx.self) fun _ => False)
    (votes n tx .prepare ctx.self) rfl .prepare fun m => by simpa using hprepare m
  obtain ⟨r, hends, hr, hkept, houtbox⟩ := waits hnext fun t hcheckpoint ht =>
    call_waits_prepare hcheckpoint ht (hcrowded.not_quorum_lt (p := ctx.self) fun z hz =>
      (mem_senders_prepare ht.slot).mp hz)
  refine ⟨r, .next hcall hends, hr, ?_, ?_⟩
  · exact (Untouched.checkpoint ctx s).trans ⟨hkept.view, hkept.confirmedTrans, hkept.latency,
      hkept.viewChangeTimer, hkept.unhandledRequests, hkept.currentClientRequestId⟩
  · rw [houtbox, ← (maybeStableCheckpoint_phase ctx s).2]
    rfl

theorem commits (hcrowded : Crowded ctx)
    (h : Working ctx s.toPBFTConsensus n .prepare (Ballots n tx (leaderFor ctx 0)
      (fun z => z ∈ ctx.members ∧ z ≠ leaderFor ctx 0) fun _ => False)) :
    ∃ r, EndsIn ctx 2 s r ∧ Working ctx r.toPBFTConsensus n .commit (Ballots n tx (leaderFor ctx 0)
        (fun z => z ∈ ctx.members ∧ z ≠ leaderFor ctx 0) (· = ctx.self)) ∧
      Untouched s.toPBFTConsensus r.toPBFTConsensus ∧
      r.outbox = s.outbox ++ packets ctx (.phase (votes n tx .commit ctx.self)) := by
  have ht := h.checkpoint
  have hpp : preparedProposal ctx (maybeStableCheckpoint ctx s).toPBFTConsensus =
      some (votes n tx .prePrepare (leaderFor ctx 0)) := by
    obtain ⟨hmem, hunique⟩ := proposal_mem ht.slot
    have hquorum : isPrepared ctx (maybeStableCheckpoint ctx s).toPBFTConsensus 0 n (ctx.digestOf tx) = true :=
      (isPrepared_iff_quorum ht.slot).mpr (hcrowded.quorum_lt fun z hz hne =>
        (mem_senders_prepare ht.slot).mpr ⟨hz, hne⟩)
    unfold preparedProposal
    rw [nextSeq, ht.length, ht.view]
    exact find?_eq_some_of_unique hmem (decide_eq_true ⟨rfl, hquorum⟩) hunique
  have hcall := call_commit (maybeStableCheckpoint_idem ctx s) ht.phase ht.not_timer_lt hpp
  rw [call_maybeStableCheckpoint] at hcall
  have hcommit : ∀ m, (Ballots n tx (leaderFor ctx 0) (fun z => z ∈ ctx.members ∧ z ≠ leaderFor ctx 0)
      (fun _ => False) m ∨ ∃ z, z = ctx.self ∧ m = votes n tx .commit z) ↔ _ :=
    fun m => Ballots.commit (· = ctx.self)
  have hnext := ht.multicast
    (Ballots n tx (leaderFor ctx 0) (fun z => z ∈ ctx.members ∧ z ≠ leaderFor ctx 0) (· = ctx.self))
    (votes n tx .commit ctx.self) rfl .commit fun m => by simpa using hcommit m
  obtain ⟨r, hends, hr, hkept, houtbox⟩ := waits hnext fun t hcheckpoint ht =>
    call_waits_commit hcheckpoint ht (hcrowded.not_quorum_lt (p := ctx.self) fun z hz =>
      (mem_senders_commit ht.slot).mp hz)
  refine ⟨r, .next hcall hends, hr, ?_, ?_⟩
  · exact (Untouched.checkpoint ctx s).trans ⟨hkept.view, hkept.confirmedTrans, hkept.latency,
      hkept.viewChangeTimer, hkept.unhandledRequests, hkept.currentClientRequestId⟩
  · rw [houtbox, ← (maybeStableCheckpoint_phase ctx s).2]
    rfl

/-! ### Deciding and proposing -/

def CheckpointPackets (p : InterfaceId) (pkts : List (Packet Message)) : Prop :=
  ∀ pkt ∈ pkts, pkt.source = p ∧ ∃ c, pkt.message = .checkpoint c

structure Decided (ctx : Ctx) (tx : ClientRequest) (s r : Local) : Prop where
  view : r.view = s.view
  phase : r.phase = .prePrepare
  confirmedTrans : r.confirmedTrans = s.confirmedTrans ++ [tx]
  latency : r.latency = s.latency + ((ctx.round : Int) - tx.roundSubmitted)
  timer : r.viewChangeTimer = ctx.round + viewChangeDelay
  unhandledRequests : r.unhandledRequests = eraseRequest tx s.unhandledRequests
  currentClientRequestId : r.currentClientRequestId = s.currentClientRequestId
  log : ∃ ms, r.receivedMessages = s.receivedMessages ++ ms ∧ ∀ m, .phase m ∉ ms
  outbox : ∃ pkts, r.outbox = s.outbox ++ pkts ∧ CheckpointPackets ctx.self pkts

theorem decideRequest_decided (hfault : ctx.fault = none) (tx : ClientRequest) (s : Local) :
    Decided ctx tx s (decideRequest ctx tx s) := by
  unfold decideRequest sendCheckpoint
  dsimp only
  split_ifs
  · refine ⟨rfl, rfl, rfl, rfl, rfl, rfl, rfl, ⟨[], ?_, by simp⟩, ⟨[], ?_, by simp [CheckpointPackets]⟩⟩
    · exact (List.append_nil _).symm
    · exact (List.append_nil _).symm
  · refine ⟨rfl, rfl, rfl, rfl, rfl, rfl, rfl, ⟨_, rfl, by simp⟩, ⟨_, rfl, fun pkt hpkt => ?_⟩⟩
    obtain ⟨hsource, -, hmessage⟩ := (mem_packets_of_no_fault ctx hfault).mp hpkt
    exact ⟨hsource, _, hmessage⟩

theorem decides (hcrowded : Crowded ctx) (hfault : ctx.fault = none)
    (h : Working ctx s.toPBFTConsensus n .commit (Ballots n tx (leaderFor ctx 0) prepared (· ∈ ctx.members))) :
    ∃ t, call ctx s = (t, true) ∧ Working ctx t.toPBFTConsensus (n + 1) .prePrepare (fun _ => False) ∧
      ∃ s', Untouched s.toPBFTConsensus s'.toPBFTConsensus ∧ s'.outbox = s.outbox ∧ Decided ctx tx s' t := by
  have ht := h.checkpoint
  have hpp : committedProposal ctx (maybeStableCheckpoint ctx s).toPBFTConsensus =
      some (votes n tx .prePrepare (leaderFor ctx 0)) := by
    obtain ⟨hmem, hunique⟩ := proposal_mem ht.slot
    have hquorum : isCommitted ctx (maybeStableCheckpoint ctx s).toPBFTConsensus 0 n (ctx.digestOf tx) = true :=
      decide_eq_true (hcrowded.quorum_lt fun z hz _ => (mem_senders_commit ht.slot).mpr hz)
    unfold committedProposal
    rw [nextSeq, ht.length, ht.view]
    exact find?_eq_some_of_unique hmem (decide_eq_true ⟨rfl, rfl, hquorum⟩) hunique
  have hcall := call_decide (maybeStableCheckpoint_idem ctx s) ht.phase ht.not_timer_lt hpp
  rw [call_maybeStableCheckpoint] at hcall
  have hdecided : Decided ctx tx (maybeStableCheckpoint ctx s) (decideRequest ctx
      (votes n tx .prePrepare (leaderFor ctx 0)).request (maybeStableCheckpoint ctx s)) :=
    decideRequest_decided hfault tx (maybeStableCheckpoint ctx s)
  refine ⟨_, hcall, ⟨?_, ?_, ?_, hdecided.phase, ?_⟩, _, .checkpoint ctx s, (maybeStableCheckpoint_phase ctx s).2,
    hdecided⟩
  · exact hdecided.view.trans ht.view
  · rw [hdecided.confirmedTrans, List.length_append, ht.length, List.length_singleton]
  · rw [hdecided.timer]
    exact Nat.le_add_right _ _
  · obtain ⟨ms, hlog, hnone⟩ := hdecided.log
    have hslot := ht.slot.next fun m hm => hm.seqNum
    apply (hslot.append hlog fun m hm => absurd hm (hnone m)).congr
    intro m
    simp [hnone m]

theorem proposes (hself : ctx.self = leaderFor ctx 0)
    (h : Working ctx s.toPBFTConsensus n .prePrepare fun _ => False) (hqueue : s.unhandledRequests = []) :
    ∃ r, EndsIn ctx 1 s r ∧ Working ctx r.toPBFTConsensus n .prepare
        (Ballots n (newRequest ctx s.toPBFTConsensus) (leaderFor ctx 0) (fun _ => False) fun _ => False) ∧
      r.confirmedTrans = s.confirmedTrans ∧ r.latency = s.latency ∧ r.viewChangeTimer = s.viewChangeTimer ∧
      r.unhandledRequests = [(ctx.round, newRequest ctx s.toPBFTConsensus)] ∧
      r.currentClientRequestId = s.currentClientRequestId + 1 ∧
      r.outbox = s.outbox ++ packets ctx (.request (newRequest ctx s.toPBFTConsensus)) ++
        packets ctx (.phase (votes n (newRequest ctx s.toPBFTConsensus) .prePrepare ctx.self)) := by
  have ht := h.checkpoint
  have hkept := Untouched.checkpoint ctx s
  have hnew : newRequest ctx (maybeStableCheckpoint ctx s).toPBFTConsensus = newRequest ctx s.toPBFTConsensus := by
    unfold newRequest
    rw [hkept.currentClientRequestId]
  have hcall := call_propose (maybeStableCheckpoint_idem ctx s) ht.phase ht.not_timer_lt
    (by rw [ht.view]; exact hself)
  rw [call_maybeStableCheckpoint] at hcall
  have hempty : (maybeStableCheckpoint ctx s).unhandledRequests = [] := by
    rw [hkept.unhandledRequests, hqueue]
  have houtbox := (maybeStableCheckpoint_phase ctx s).2
  obtain ⟨tx, s', heq, ⟨_, _, hcons, -⟩ | ⟨htx, hs', hsubmitted⟩⟩ := propose_cases ctx (maybeStableCheckpoint ctx s)
  · rw [hempty] at hcons
    cases hcons
  have htx' : tx = newRequest ctx s.toPBFTConsensus := htx.trans hnew
  subst htx' hs'
  have hmessage : (⟨.prePrepare, nextSeq (maybeStableCheckpoint ctx s).toPBFTConsensus,
      (maybeStableCheckpoint ctx s).view, newRequest ctx s.toPBFTConsensus, (maybeStableCheckpoint ctx s).view,
      ctx.self⟩ : PhaseMessage) = votes n (newRequest ctx s.toPBFTConsensus) .prePrepare ctx.self := by
    rw [nextSeq, ht.length, ht.view]
    rfl
  rw [hmessage] at heq
  refine ⟨_, .last hcall, ?_, ?_⟩
  · rw [heq]
    have hs : Working ctx (submitRequest ctx (maybeStableCheckpoint ctx s)).toPBFTConsensus n .prePrepare
        fun _ => False := ⟨ht.view, ht.length, ht.timer, ht.phase, ht.slot⟩
    apply hs.multicast _ (votes n (newRequest ctx s.toPBFTConsensus) .prePrepare ctx.self) rfl .prepare
    intro m
    unfold Ballots
    rw [hself]
    simp
  · rw [heq]
    refine ⟨hkept.confirmedTrans, hkept.latency, hkept.viewChangeTimer, hsubmitted, ?_, ?_⟩
    · show (maybeStableCheckpoint ctx s).currentClientRequestId + 1 = _
      rw [hkept.currentClientRequestId]
    · show ((maybeStableCheckpoint ctx s).outbox ++ packets ctx (.request _)) ++ packets ctx _ = _
      rw [houtbox]
      rw [← hnew]
      rfl

end Calls

end Quantas.Pbft
