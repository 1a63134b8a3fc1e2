import Quantas.Pbft.Requests

/-!
# PBFT: how fast views can change

A replica asks for a view change only when its timer has run out, and then sets the timer
`viewChangeDelay` rounds ahead; a decision and a new view set it ahead too. So the timer bounds the view
(`Paced`), whatever replicas equivocate and however packets are delayed. No message names a later view than
its sender can have had.
-/

namespace Quantas.Pbft

namespace Message

def phaseViews (m : PhaseMessage) : List Nat := [m.view, m.proposalView]

def views : Message → List Nat
  | .request _ => []
  | .phase m => phaseViews m
  | .checkpoint m => [m.view]
  | .viewChange m => m.view :: m.newView :: m.preparedProof.flatMap phaseViews
  | .newView m => m.view :: m.preparedProof.flatMap phaseViews

end Message

/-- The view of a replica is one that the rounds so far allow, and its timer is at most one delay ahead. -/
structure Paced (round : Nat) (c : PBFTConsensus) : Prop where
  view : viewChangeDelay * (c.view + 1) ≤ c.viewChangeTimer
  timer : c.viewChangeTimer ≤ round + viewChangeDelay

theorem Paced.view_le {round : Nat} {c : PBFTConsensus} (h : Paced round c) :
    viewChangeDelay * c.view ≤ round := by
  have hview := h.view
  have htimer := h.timer
  rw [Nat.mul_add, Nat.mul_one] at hview
  omega

/-! ## One call -/

section Call
variable {ctx : Ctx} {s r : Local}

theorem viewChangeTimer_le_of_timedOut {c : PBFTConsensus} (h : TimedOut ctx c) :
    c.viewChangeTimer ≤ ctx.round := by
  unfold TimedOut at h
  cases hphase : c.phase with
  | prePrepare =>
    rw [hphase] at h
    exact Nat.le_of_lt h
  | prepare =>
    rw [hphase] at h
    exact Nat.le_of_lt h
  | commit =>
    rw [hphase] at h
    exact Nat.le_of_lt h
  | viewChange =>
    rw [hphase] at h
    exact h
  | newView =>
    rw [hphase] at h
    exact h

theorem call_timer (ctx : Ctx) (s : Local) :
    (call ctx s).1.view = s.view ∧ ((call ctx s).1.viewChangeTimer = s.viewChangeTimer ∨
        (call ctx s).1.viewChangeTimer = ctx.round + viewChangeDelay) ∨
      s.viewChangeTimer ≤ ctx.round ∧ (call ctx s).1.view = s.view + 1 ∧
        (call ctx s).1.viewChangeTimer = ctx.round + viewChangeDelay := by
  have hcall := call_cases ctx s
  obtain ⟨lastStable, low, high, log, htrimmed, -⟩ := maybeStableCheckpoint_eq ctx s
  rw [htrimmed] at hcall
  generalize call ctx s = res at hcall ⊢
  cases hcall with
  | timeout htimer => exact .inr ⟨viewChangeTimer_le_of_timedOut htimer, rfl, rfl⟩
  | wait => exact .inl ⟨rfl, .inl rfl⟩
  | propose =>
    obtain ⟨tx, queue, next, outbox, heq⟩ := propose_eq ctx (trimmed s lastStable low high log)
    rw [heq]
    exact .inl ⟨rfl, .inl rfl⟩
  | prepare => exact .inl ⟨rfl, .inl rfl⟩
  | commit => exact .inl ⟨rfl, .inl rfl⟩
  | decide pp =>
    unfold decideRequest sendCheckpoint
    dsimp only
    split_ifs
    · exact .inl ⟨rfl, .inr rfl⟩
    · exact .inl ⟨rfl, .inr rfl⟩
  | enterNewView =>
    split_ifs
    · exact .inl ⟨rfl, .inl rfl⟩
    · exact .inl ⟨rfl, .inl rfl⟩
  | install nv =>
    obtain ⟨sent, heq, -⟩ := foldl_reissue ctx nv.preparedProof { trimmed s lastStable low high log with
      lowWaterMark := lastStable
      highWaterMark := lastStable + WINDOW }
    exact .inl ⟨congrArg (·.view) heq, .inr rfl⟩

theorem Paced.call (h : Paced ctx.round s.toPBFTConsensus) : Paced ctx.round (call ctx s).1.toPBFTConsensus := by
  have hview := h.view
  have htimer := h.timer
  have hpast := h.view_le
  rcases call_timer ctx s with ⟨hsame, hkept | hset⟩ | ⟨hout, hnext, hset⟩
  · refine ⟨?_, ?_⟩
    · rw [hsame, hkept]
      exact hview
    · rw [hkept]
      exact htimer
  · refine ⟨?_, hset.le⟩
    rw [hsame, hset, Nat.mul_add, Nat.mul_one]
    omega
  · refine ⟨?_, hset.le⟩
    rw [hnext, hset, Nat.mul_add, Nat.mul_one]
    omega

/-- The messages name views up to that of `r`, or views that the log of `s` names. -/
def NamesKnown (s r : Local) (ms : List Message) : Prop :=
  ∀ m ∈ ms, ∀ v ∈ m.views, v ≤ r.view ∨ ∃ m' ∈ s.receivedMessages, v ∈ m'.views

theorem namesKnown_of_outcome {ms : List Message} (h : Outcome ctx s r ms)
    (hdecide : ¬ (s.phase = .commit ∧ r.phase = .prePrepare)) : NamesKnown s r ms := by
  have hlogged : ∀ pp, .phase pp ∈ s.receivedMessages → ∀ v ∈ Message.phaseViews pp,
      v ≤ r.view ∨ ∃ m' ∈ s.receivedMessages, v ∈ m'.views := fun pp hpp v hv => .inr ⟨_, hpp, hv⟩
  cases h with
  | idle hkept => exact fun m hm => absurd hm List.not_mem_nil
  | viewChange vc _ hview _ _ _ _ _ hold hnew hproof =>
    intro m hm v hv
    obtain rfl := List.mem_singleton.mp hm
    rcases List.mem_cons.mp hv with hv | hv
    · left
      omega
    rcases List.mem_cons.mp hv with hv | hv
    · left
      omega
    · obtain ⟨pp, hpp, hmem⟩ := List.mem_flatMap.mp hv
      exact hlogged pp (hproof pp hpp).1 v hmem
  | proposeFirst round tx rest hkept =>
    intro m hm v hv
    obtain rfl := List.mem_singleton.mp hm
    have heq : v = s.view := by simpa [Message.views, Message.phaseViews] using hv
    exact .inl (heq.le.trans hkept.view.ge)
  | proposeOwn tx _ _ _ hview =>
    intro m hm v hv
    rcases List.mem_cons.mp hm with rfl | hm
    · exact absurd hv List.not_mem_nil
    obtain rfl := List.mem_singleton.mp hm
    have heq : v = s.view := by simpa [Message.views, Message.phaseViews] using hv
    exact .inl (heq.le.trans hview.ge)
  | prepare pp hkept _ _ _ hpp =>
    intro m hm v hv
    obtain rfl := List.mem_singleton.mp hm
    exact hlogged pp hpp.log v hv
  | commit pp hkept _ _ hpp =>
    intro m hm v hv
    obtain rfl := List.mem_singleton.mp hm
    exact hlogged pp hpp.log v hv
  | decide pp ms hphase hphase' => exact absurd ⟨hphase, hphase'⟩ hdecide
  | enterNewView ms hkept _ _ hms =>
    intro m hm v hv
    obtain ⟨nv, rfl, -, hview, hproof⟩ := hms m hm
    rcases List.mem_cons.mp hv with hv | hv
    · rw [hv, hview]
      exact .inl hkept.view.ge
    · obtain ⟨pp, hpp, hmem⟩ := List.mem_flatMap.mp hv
      obtain ⟨vc, hvc, -, hproof⟩ := hproof pp hpp
      refine .inr ⟨_, hvc, ?_⟩
      exact List.mem_cons_of_mem _ (List.mem_cons_of_mem _ (List.mem_flatMap.mpr ⟨pp, hproof, hmem⟩))
  | install nv hkept =>
    intro m hm v hv
    obtain ⟨pp, -, rfl⟩ := List.mem_map.mp hm
    have heq : v = s.view := by simpa [Message.views, Message.phaseViews] using hv
    exact .inl (heq.le.trans hkept.view.ge)

theorem call_views (ctx : Ctx) (s : Local) : ∃ ms, Emits ctx s (call ctx s).1 ms ∧ NamesKnown s (call ctx s).1 ms := by
  by_cases hdecide : s.phase = .commit ∧ (call ctx s).1.phase = .prePrepare
  swap
  · obtain ⟨ms, hemits, houtcome⟩ := call_steps ctx s
    exact ⟨ms, hemits, namesKnown_of_outcome houtcome hdecide⟩
  obtain ⟨hphase, hphase'⟩ := hdecide
  have hcall := call_cases ctx s
  obtain ⟨lastStable, low, high, log, htrimmed, hlog⟩ := maybeStableCheckpoint_eq ctx s
  rw [htrimmed] at hcall
  generalize call ctx s = res at hcall hphase' ⊢
  cases hcall with
  | timeout => simp [requestViewChange, multicastAndInsert, insertMessage, multicast] at hphase'
  | wait => exact absurd (hphase.symm.trans hphase') (by simp)
  | propose hphase'' => simp [hphase] at hphase''
  | prepare _ hphase'' => simp [hphase] at hphase''
  | commit _ hphase'' => simp [hphase] at hphase''
  | decide pp =>
    unfold decideRequest sendCheckpoint
    dsimp only
    split_ifs
    · exact ⟨[], .nothing rfl hlog, fun m hm => absurd hm List.not_mem_nil⟩
    · refine ⟨_, .single rfl rfl hlog, fun m hm v hv => .inl ?_⟩
      rw [List.mem_singleton.mp hm] at hv
      exact (List.mem_singleton.mp hv).le
  | enterNewView hphase'' => simp [hphase] at hphase''
  | install _ hphase'' => simp [hphase] at hphase''

theorem views_of_mem_packets {msg : Message} {pkt : Packet Message} (h : pkt ∈ packets ctx msg) :
    pkt.message.views = msg.views := by
  rcases mem_packets_cases h with heq | ⟨-, normal, alt, hvariants, heq⟩
  · rw [heq]
  cases msg with
  | phase m =>
    obtain ⟨rfl, rfl⟩ := Prod.mk.inj (Option.some.inj hvariants)
    rcases heq with heq | heq
    · rw [heq]
      rfl
    · rw [heq]
      rfl
  | checkpoint m =>
    obtain ⟨rfl, rfl⟩ := Prod.mk.inj (Option.some.inj hvariants)
    rcases heq with heq | heq
    · rw [heq]
      rfl
    · rw [heq]
      rfl
  | request _ => simp [EquivocateFault.variants] at hvariants
  | viewChange _ => simp [EquivocateFault.variants] at hvariants
  | newView _ => simp [EquivocateFault.variants] at hvariants

end Call

/-! ## Whole runs -/

namespace System

/-- Every replica is paced, and so are the views that messages name. -/
structure PaceInv (sys : System) : Prop where
  paced : ∀ q, Paced sys.round (sys.peers q)
  sent : ∀ pkt ∈ sys.sent, ∀ v ∈ pkt.message.views, viewChangeDelay * v ≤ sys.round
  heard : ∀ q, ∀ m ∈ (sys.peers q).receivedMessages, ∀ v ∈ m.views, viewChangeDelay * v ≤ sys.round

variable {cfg : Config} {sys : System} {p : InterfaceId}

theorem paceInv_initial : PaceInv initial where
  paced := fun _ => ⟨Nat.le_refl 10, Nat.le_refl 10⟩
  sent := fun _ hpkt => absurd hpkt List.not_mem_nil
  heard := fun _ _ hm => absurd hm List.not_mem_nil

theorem PaceInv.receive (inv : PaceInv sys) {pkt : Packet Message} (hpkt : pkt ∈ sys.sent) :
    PaceInv (sys.after p (onMessage (sys.ctx cfg p) pkt.message (sys.start p))) := by
  obtain ⟨-, -, -, houtbox, -, hlog, -⟩ := onMessage_same (sys.ctx cfg p) pkt.message (sys.start p)
  obtain ⟨ms, queue, heq⟩ := onMessage_frame (sys.ctx cfg p) pkt.message (sys.start p)
  refine ⟨fun q => ?_, fun pkt' hpkt' => ?_, fun q m hm => ?_⟩
  · by_cases hq : q = p
    · rw [hq, after_self, heq]
      exact ⟨(inv.paced p).view, (inv.paced p).timer⟩
    · rw [after_other hq]
      exact inv.paced q
  · rcases List.mem_append.mp hpkt' with hpkt' | hpkt'
    · exact inv.sent pkt' hpkt'
    · rw [houtbox] at hpkt'
      exact absurd hpkt' List.not_mem_nil
  · by_cases hq : q = p
    · rw [hq, after_self] at hm
      rcases hlog m hm with hm | hm
      · exact inv.heard p m hm
      · rw [hm]
        exact inv.sent pkt hpkt
    · rw [after_other hq] at hm
      exact inv.heard q m hm

theorem PaceInv.call (inv : PaceInv sys) :
    PaceInv (sys.after p (Pbft.call (sys.ctx cfg p) (sys.start p)).1) := by
  obtain ⟨ms, hemits, hknown⟩ := call_views (sys.ctx cfg p) (sys.start p)
  have hstart : Paced (sys.ctx cfg p).round (sys.start p).toPBFTConsensus := inv.paced p
  have hpaced : Paced sys.round (Pbft.call (sys.ctx cfg p) (sys.start p)).1.toPBFTConsensus := hstart.call
  have hnew : ∀ m ∈ ms, ∀ v ∈ m.views, viewChangeDelay * v ≤ sys.round := by
    intro m hm v hv
    rcases hknown m hm v hv with hle | ⟨m', hm', hv'⟩
    · exact (Nat.mul_le_mul_left _ hle).trans hpaced.view_le
    · exact inv.heard p m' hm' v hv'
  refine ⟨fun q => ?_, fun pkt hpkt => ?_, fun q m hm => ?_⟩
  · by_cases hq : q = p
    · rw [hq, after_self]
      exact hpaced
    · rw [after_other hq]
      exact inv.paced q
  · rcases List.mem_append.mp hpkt with hpkt | hpkt
    · exact inv.sent pkt hpkt
    · rw [hemits.outbox] at hpkt
      rcases List.mem_append.mp hpkt with hpkt | hpkt
      · exact absurd hpkt List.not_mem_nil
      · obtain ⟨m, hm, hmem⟩ := List.mem_flatMap.mp hpkt
        rw [views_of_mem_packets hmem]
        exact hnew m hm
  · by_cases hq : q = p
    · rw [hq, after_self] at hm
      rcases hemits.log m hm with hm | hm
      · exact inv.heard p m hm
      · exact hnew m hm
    · rw [after_other hq] at hm
      exact inv.heard q m hm

theorem paceInv_of_reached (h : (machine cfg).Reached sys) : PaceInv sys := by
  apply h.invariant
  · intro sys hsys
    rw [show sys = initial from hsys]
    exact paceInv_initial
  intro sys e sys' inv _ hstep
  rcases step_cases hstep with ⟨-, rfl⟩ | ⟨p, pkt, rfl, -, hpkt, -, -, rfl⟩ | ⟨p, rfl, -, rfl⟩
  · refine ⟨fun q => ⟨(inv.paced q).view, ?_⟩, fun pkt hpkt v hv => ?_, fun q m hm v hv => ?_⟩
    · exact (inv.paced q).timer.trans (Nat.add_le_add_right (Nat.le_succ _) _)
    · exact (inv.sent pkt hpkt v hv).trans (Nat.le_succ _)
    · exact (inv.heard q m hm v hv).trans (Nat.le_succ _)
  · exact inv.receive hpkt
  · exact inv.call

/-- **The pace of view changes.** Whatever replicas equivocate and however packets are delayed, lost or
repeated, the views of all replicas and all views that messages name stay within one for every
`viewChangeDelay` rounds, and no timer is more than `viewChangeDelay` rounds ahead. -/
theorem views_paced (h : (machine cfg).Reached sys) :
    (∀ q, viewChangeDelay * (sys.peers q).view ≤ sys.round ∧
      viewChangeDelay * ((sys.peers q).view + 1) ≤ (sys.peers q).viewChangeTimer ∧
      (sys.peers q).viewChangeTimer ≤ sys.round + viewChangeDelay) ∧
    ∀ pkt ∈ sys.sent, ∀ v ∈ pkt.message.views, viewChangeDelay * v ≤ sys.round := by
  have inv := paceInv_of_reached h
  refine ⟨fun q => ⟨(inv.paced q).view_le, (inv.paced q).view, (inv.paced q).timer⟩, inv.sent⟩

/-- After ten rounds without a decision, replica 0 has asked for view 1 in round 11. -/
theorem views_paced_timeout :
    ∃ sys, (machine fourWithEquivocator).Reached sys ∧ (sys.peers 0).view = 1 ∧
      viewChangeDelay * (sys.peers 0).view ≤ sys.round := by
  have hrun : ((machine fourWithEquivocator).run initial (List.replicate 11 .nextRound ++ [.call 0])).map
      (fun sys => (sys.peers 0).view) = some 1 := by
    decide +kernel
  obtain ⟨sys, hsys, hview⟩ := Option.map_eq_some_iff.mp hrun
  have hreached := Lib.Machine.reached_of_run (.start rfl) hsys
  exact ⟨sys, hreached, hview, ((views_paced hreached).1 0).1⟩

end System

end Quantas.Pbft
