import Quantas.Pbft.Outcome

/-!
# PBFT: a step ends

The phases call each other: prepare, commit and decide for one sequence number after the other, and once more
after a new view is installed. Each round of this takes a pre-prepare of the leader that was in the log before,
since what a replica inserts on the way is no pre-prepare, or one under the name of a replica that does not
lead. A leader stops when it proposes.
-/

namespace Quantas.Pbft

variable {ctx : Ctx} {s r : Local}

/-! ## The proposals ahead -/

/-- The sequence numbers from `nextSeq` on for which the log of the own view has a pre-prepare of its leader. -/
def openProposals (ctx : Ctx) (c : PBFTConsensus) : Finset Nat :=
  (((c.receivedMessages.filterMap Message.phase?).filter fun m =>
    m.messageType = .prePrepare ∧ m.view = c.view ∧ m.fromId = leaderFor ctx c.view ∧
      nextSeq c ≤ m.seqNum).map PhaseMessage.seqNum).toFinset

theorem mem_openProposals {c : PBFTConsensus} {n : Nat} : n ∈ openProposals ctx c ↔
    nextSeq c ≤ n ∧ ∃ m, .phase m ∈ c.receivedMessages ∧ m.messageType = .prePrepare ∧ m.view = c.view ∧
      m.fromId = leaderFor ctx c.view ∧ m.seqNum = n := by
  simp only [openProposals, List.mem_toFinset, List.mem_map, List.mem_filter, List.mem_filterMap,
    Message.phase?_eq_some, decide_eq_true_eq]
  constructor
  · rintro ⟨m, ⟨⟨_, hlog, rfl⟩, htype, hview, hfrom, hle⟩, rfl⟩
    exact ⟨hle, m, hlog, htype, hview, hfrom, rfl⟩
  · rintro ⟨hle, m, hlog, htype, hview, hfrom, rfl⟩
    exact ⟨m, ⟨⟨_, hlog, rfl⟩, htype, hview, hfrom, hle⟩, rfl⟩

theorem openProposals_subset {ms : List Message} (hemits : Emits ctx s r ms) (hview : r.view = s.view)
    (hlength : s.confirmedTrans.length ≤ r.confirmedTrans.length)
    (hms : ∀ m, .phase m ∈ ms → m.messageType = .prePrepare → m.fromId ≠ leaderFor ctx s.view) :
    openProposals ctx r.toPBFTConsensus ⊆ openProposals ctx s.toPBFTConsensus := by
  intro n hn
  obtain ⟨hle, m, hlog, htype, hmview, hfrom, hseq⟩ := mem_openProposals.mp hn
  rw [hview] at hmview hfrom
  refine mem_openProposals.mpr ⟨hlength.trans hle, m, ?_, htype, hmview, hfrom, hseq⟩
  exact (hemits.log _ hlog).resolve_right fun hm => hms m hm htype hfrom

/-! ## One call -/

inductive Continues (ctx : Ctx) (s r : Local) : Prop
  | prepare (hphase : s.phase = .prePrepare) (hphase' : r.phase = .prepare)
      (hself : ctx.self ≠ leaderFor ctx s.view)
  | commit (hphase : s.phase = .prepare) (hphase' : r.phase = .commit)
  | decide (hphase : s.phase = .commit) (hphase' : r.phase = .prePrepare)
      (hnext : s.confirmedTrans.length ∈ openProposals ctx s.toPBFTConsensus)
  | install (hphase : s.phase = .newView) (hphase' : r.phase = .prePrepare)

theorem Continues.of_commit (h : Continues ctx s r) (hphase : s.phase = .commit) :
    r.phase = .prePrepare ∧ s.confirmedTrans.length ∈ openProposals ctx s.toPBFTConsensus := by
  cases h with
  | decide _ hphase' hnext => exact ⟨hphase', hnext⟩
  | prepare hother => cases hphase.symm.trans hother
  | commit hother => cases hphase.symm.trans hother
  | install hother => cases hphase.symm.trans hother

theorem Continues.not_leader (h : Continues ctx s r) (hphase : s.phase = .prePrepare) :
    ctx.self ≠ leaderFor ctx s.view := by
  cases h with
  | prepare _ _ hself => exact hself
  | commit hother => cases hphase.symm.trans hother
  | decide hother => cases hphase.symm.trans hother
  | install hother => cases hphase.symm.trans hother

theorem call_flag (ctx : Ctx) (s : Local) :
    (call ctx s).2 = true ∧ Continues ctx s (call ctx s).1 ∨
      (call ctx s).2 = false ∧ (call ctx s).1.confirmedTrans = s.confirmedTrans := by
  have hcall := call_cases ctx s
  obtain ⟨lastStable, low, high, log, htrimmed, hlog⟩ := maybeStableCheckpoint_eq ctx s
  rw [htrimmed] at hcall
  generalize call ctx s = res at hcall ⊢
  cases hcall with
  | timeout => exact .inr ⟨rfl, rfl⟩
  | wait => exact .inr ⟨rfl, rfl⟩
  | propose => exact .inr ⟨rfl, propose_confirmedTrans ctx _⟩
  | prepare pp hphase _ hself => exact .inl ⟨rfl, .prepare hphase rfl hself⟩
  | commit pp hphase => exact .inl ⟨rfl, .commit hphase rfl⟩
  | decide pp hphase _ hpp =>
    obtain ⟨hmem, htype, hseq, hview⟩ := nextProposal_of_find? hlog hpp
    have hfound := List.find?_some hpp
    refine .inl ⟨rfl, .decide hphase rfl ?_⟩
    exact mem_openProposals.mpr ⟨le_rfl, pp, hmem, htype, hview, (of_decide_eq_true hfound).2.1, hseq⟩
  | enterNewView =>
    split_ifs
    · exact .inr ⟨rfl, rfl⟩
    · exact .inr ⟨rfl, rfl⟩
  | install nv hphase => exact .inl ⟨rfl, .install hphase rfl⟩

theorem continues_of_flag (h : (call ctx s).2 = true) : Continues ctx s (call ctx s).1 := by
  rcases call_flag ctx s with ⟨-, hcontinues⟩ | ⟨hflag, -⟩
  · exact hcontinues
  · rw [hflag] at h
    cases h

theorem Continues.effect {ms : List Message} (h : Continues ctx s r) (hemits : Emits ctx s r ms)
    (houtcome : Outcome ctx s r ms) : r.view = s.view ∧
    r.confirmedTrans.length = s.confirmedTrans.length + (if s.phase = .commit then 1 else 0) ∧
    ((s.phase = .newView → ctx.self ≠ leaderFor ctx s.view) →
      openProposals ctx r.toPBFTConsensus ⊆ openProposals ctx s.toPBFTConsensus) := by
  have hnotLeader := h.not_leader
  cases houtcome with
  | idle _ hphase => cases h <;> simp_all
  | viewChange _ _ _ hphase => cases h <;> simp_all
  | proposeFirst _ _ _ _ hphase _ _ hself => exact absurd hself (hnotLeader hphase)
  | proposeOwn _ hphase _ hself => exact absurd hself (hnotLeader hphase)
  | enterNewView _ _ hphase => cases h <;> simp_all
  | prepare pp hkept hphase =>
    refine ⟨hkept.view, by simp [hkept.confirmedTrans, hphase], fun _ => ?_⟩
    apply openProposals_subset hemits hkept.view (by rw [hkept.confirmedTrans])
    intro m hm htype
    obtain rfl : m = _ := by simpa using hm
    cases htype
  | commit pp hkept hphase =>
    refine ⟨hkept.view, by simp [hkept.confirmedTrans, hphase], fun _ => ?_⟩
    apply openProposals_subset hemits hkept.view (by rw [hkept.confirmedTrans])
    intro m hm htype
    obtain rfl : m = _ := by simpa using hm
    cases htype
  | decide pp ms hphase _ hview _ hconfirmed _ _ _ hms =>
    refine ⟨hview, by simp [hconfirmed, hphase], fun _ => ?_⟩
    apply openProposals_subset hemits hview (by simp [hconfirmed])
    intro m hm
    obtain ⟨c, hc, -⟩ := hms _ hm
    cases hc
  | install nv hkept hphase =>
    refine ⟨hkept.view, by simp [hkept.confirmedTrans, hphase], fun hself => ?_⟩
    apply openProposals_subset hemits hkept.view (by rw [hkept.confirmedTrans])
    intro m hm _
    obtain ⟨pp, -, heq⟩ := List.mem_map.mp hm
    obtain rfl := Message.phase.inj heq
    exact hself hphase

theorem Continues.card_le (h : Continues ctx s (call ctx s).1)
    (hself : s.phase = .newView → ctx.self ≠ leaderFor ctx s.view) :
    (openProposals ctx (call ctx s).1.toPBFTConsensus).card + (if s.phase = .commit then 1 else 0) ≤
      (openProposals ctx s.toPBFTConsensus).card := by
  obtain ⟨ms, hemits, houtcome⟩ := call_steps ctx s
  obtain ⟨-, hlength, hopen⟩ := h.effect hemits houtcome
  have hsubset := hopen hself
  have hcard := Finset.card_le_card hsubset
  by_cases hphase : s.phase = .commit
  · have hnext := (h.of_commit hphase).2
    -- the sequence number that was confirmed is not ahead any more
    have hgone : s.confirmedTrans.length ∉ openProposals ctx (call ctx s).1.toPBFTConsensus := by
      intro hmem
      have hle := (mem_openProposals.mp hmem).1
      rw [nextSeq, hlength, if_pos hphase] at hle
      omega
    have hless := Finset.card_lt_card (Finset.ssubset_iff_subset_ne.mpr
      ⟨hsubset, fun heq => hgone (heq ▸ hnext)⟩)
    rw [if_pos hphase]
    omega
  · rw [if_neg hphase]
    omega

/-! ## The nested calls -/

/-- Within `calls` calls a step ends, and it confirms at most `bound` requests. -/
def EndsWithin (ctx : Ctx) (s : Local) (calls bound : Nat) : Prop :=
  ∃ r, (∀ fuel, calls ≤ fuel → runPhase ctx fuel s = some r) ∧
    r.confirmedTrans.length ≤ s.confirmedTrans.length + bound

namespace EndsWithin
variable {calls bound : Nat}

theorem mono (h : EndsWithin ctx s calls bound) {calls' bound' : Nat} (hcalls : calls ≤ calls')
    (hbound : bound ≤ bound') : EndsWithin ctx s calls' bound' := by
  obtain ⟨r, hr, hlength⟩ := h
  exact ⟨r, fun fuel hfuel => hr fuel (hcalls.trans hfuel), by omega⟩

theorem last (hflag : (call ctx s).2 = false) (hconfirmed : (call ctx s).1.confirmedTrans = s.confirmedTrans) :
    EndsWithin ctx s 1 0 := by
  refine ⟨(call ctx s).1, fun fuel hfuel => ?_, by rw [hconfirmed, Nat.add_zero]⟩
  obtain ⟨fuel, rfl⟩ : ∃ k, fuel = k + 1 := ⟨fuel - 1, by omega⟩
  rw [runPhase, hflag]
  rfl

theorem next (hflag : (call ctx s).2 = true) (h : EndsWithin ctx (call ctx s).1 calls bound) :
    EndsWithin ctx s (calls + 1) (bound + if s.phase = .commit then 1 else 0) := by
  obtain ⟨r, hr, hlength⟩ := h
  obtain ⟨ms, hemits, houtcome⟩ := call_steps ctx s
  obtain ⟨-, hstep, -⟩ := (continues_of_flag hflag).effect hemits houtcome
  refine ⟨r, fun fuel hfuel => ?_, by omega⟩
  obtain ⟨fuel, rfl⟩ : ∃ k, fuel = k + 1 := ⟨fuel - 1, by omega⟩
  rw [runPhase, if_pos hflag]
  exact hr fuel (by omega)

end EndsWithin

/-- How many calls can still follow in the normal case: three for each proposal ahead. -/
def callsLeft (ctx : Ctx) (s : Local) : Nat :=
  3 * (openProposals ctx s.toPBFTConsensus).card +
    match s.phase with
    | .prePrepare => 2
    | .prepare => 1
    | .newView => 3
    | .commit | .viewChange => 0

theorem callsLeft_lt (hself : ctx.self ≠ leaderFor ctx s.view) (hflag : (call ctx s).2 = true) :
    callsLeft ctx (call ctx s).1 < callsLeft ctx s := by
  have hcontinues := continues_of_flag hflag
  have hcard := hcontinues.card_le fun _ => hself
  unfold callsLeft
  cases hcontinues with
  | prepare hphase hphase' =>
    simp only [hphase, hphase']
    omega
  | commit hphase hphase' =>
    simp only [hphase, hphase']
    omega
  | decide hphase hphase' =>
    rw [if_pos hphase] at hcard
    simp only [hphase, hphase']
    omega
  | install hphase hphase' =>
    simp only [hphase, hphase']
    omega

theorem endsWithin_backup (s : Local) (hself : ctx.self ≠ leaderFor ctx s.view) :
    EndsWithin ctx s (callsLeft ctx s + 1) (openProposals ctx s.toPBFTConsensus).card := by
  induction hleft : callsLeft ctx s using Nat.strong_induction_on generalizing s with
  | h left ih =>
    subst hleft
    rcases call_flag ctx s with ⟨hflag, hcontinues⟩ | ⟨hflag, hconfirmed⟩
    · obtain ⟨ms, hemits, houtcome⟩ := call_steps ctx s
      have hview := (hcontinues.effect hemits houtcome).1
      have hlt := callsLeft_lt hself hflag
      have hcard := hcontinues.card_le fun _ => hself
      exact (EndsWithin.next hflag (ih _ hlt (call ctx s).1 (by rwa [hview]) rfl)).mono (by omega) hcard
    · exact (EndsWithin.last hflag hconfirmed).mono (by omega) (Nat.zero_le _)

theorem endsWithin_proposal (s : Local) (hself : ctx.self = leaderFor ctx s.view) (hphase : s.phase = .prePrepare) :
    EndsWithin ctx s 1 0 := by
  rcases call_flag ctx s with ⟨-, hcontinues⟩ | ⟨hflag, hconfirmed⟩
  · exact absurd hself (hcontinues.not_leader hphase)
  · exact .last hflag hconfirmed

theorem endsWithin_leader (s : Local) (hself : ctx.self = leaderFor ctx s.view) :
    EndsWithin ctx s 3 (openProposals ctx s.toPBFTConsensus).card := by
  have hstep : ∀ s : Local, Continues ctx s (call ctx s).1 → (call ctx s).1.view = s.view := by
    intro s h
    obtain ⟨ms, hemits, houtcome⟩ := call_steps ctx s
    exact (h.effect hemits houtcome).1
  have hcommit : ∀ s : Local, ctx.self = leaderFor ctx s.view → s.phase = .commit →
      EndsWithin ctx s 2 (openProposals ctx s.toPBFTConsensus).card := by
    intro s hself hphase
    rcases call_flag ctx s with ⟨hflag, hcontinues⟩ | ⟨hflag, hconfirmed⟩
    · have hcard := hcontinues.card_le (by simp [hphase])
      have hview := hstep s hcontinues
      have hproposes := (hcontinues.of_commit hphase).1
      exact (EndsWithin.next hflag (endsWithin_proposal _ (by rwa [hview]) hproposes)).mono le_rfl (by omega)
    · exact (EndsWithin.last hflag hconfirmed).mono (by omega) (Nat.zero_le _)
  rcases call_flag ctx s with ⟨hflag, hcontinues⟩ | ⟨hflag, hconfirmed⟩
  · have hview := hstep s hcontinues
    cases hcontinues with
    | prepare _ _ hself' => exact absurd hself hself'
    | commit hphase hphase' =>
      have hcard := (continues_of_flag hflag).card_le (by simp [hphase])
      exact (EndsWithin.next hflag (hcommit _ (by rwa [hview]) hphase')).mono le_rfl hcard
    | decide hphase hphase' => exact (hcommit s hself hphase).mono (by omega) le_rfl
    | install hphase hphase' =>
      refine (EndsWithin.next hflag (endsWithin_proposal _ (by rwa [hview]) hphase')).mono (by omega) ?_
      simp [hphase]
  · exact (EndsWithin.last hflag hconfirmed).mono (by omega) (Nat.zero_le _)

/-- **A step always ends.** One call of `runPhase` makes at most three more for each sequence number from
`nextSeq` on that has a pre-prepare of the leader in the log, and four besides, and it confirms at most one
request for each of them. -/
theorem runPhase_ends (ctx : Ctx) (s : Local) :
    ∃ r, (∀ fuel, 3 * (openProposals ctx s.toPBFTConsensus).card + 4 ≤ fuel → runPhase ctx fuel s = some r) ∧
      r.confirmedTrans.length ≤ s.confirmedTrans.length + (openProposals ctx s.toPBFTConsensus).card := by
  by_cases hself : ctx.self = leaderFor ctx s.view
  · exact (endsWithin_leader s hself).mono (by omega) le_rfl
  · have hleft : callsLeft ctx s ≤ 3 * (openProposals ctx s.toPBFTConsensus).card + 3 := by
      unfold callsLeft
      split <;> omega
    exact (endsWithin_backup s hself).mono (by omega) le_rfl

end Quantas.Pbft
