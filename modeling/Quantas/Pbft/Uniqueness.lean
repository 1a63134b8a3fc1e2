import Quantas.Pbft.Agreement

/-!
# PBFT: one certificate for each view and sequence number

The view of a replica and the number of requests that it has confirmed never fall, and between two changes
of them it goes once through the phases. So a replica without a fault sends one prepare and one commit for
each view and sequence number, whatever view changes lie between (`SlotInv`), and two quorums of prepares
or of commits share such a replica. Nothing here needs timeouts to be late or early.
-/

namespace Quantas.Pbft

/-- A replica in this phase may have sent its message of this type for the slot at hand. -/
def Phase.past : Phase → PhaseType → Bool
  | _, .prePrepare => true
  | .prepare, .prepare => true
  | .commit, .prepare => true
  | .commit, .commit => true
  | _, _ => false

namespace System

/-- What has been sent and heard, and the one vote of replicas without a fault for each type, view and
sequence number. -/
structure SlotInv (cfg : Config) (sys : System) : Prop where
  wire : ∀ m, Sent sys m → ∀ z, m.fromId = some z → z ∈ cfg.committee.members
  heard : ∀ x, cfg.Honest x → ∀ m ∈ (sys.peers x).receivedMessages, Sent sys m
  slot : ∀ m, Sent sys (.phase m) → m.messageType ≠ .prePrepare → cfg.Honest m.fromId →
    m.view ≤ (sys.peers m.fromId).view ∧ m.seqNum ≤ (sys.peers m.fromId).confirmedTrans.length ∧
      (m.view = (sys.peers m.fromId).view → m.seqNum = (sys.peers m.fromId).confirmedTrans.length →
        (sys.peers m.fromId).phase.past m.messageType = true)
  once : ∀ m m', Sent sys (.phase m) → Sent sys (.phase m') → m.messageType ≠ .prePrepare →
    m.messageType = m'.messageType → cfg.Honest m.fromId → m.fromId = m'.fromId → m.view = m'.view →
    m.seqNum = m'.seqNum → m = m'

/-- How a step of a replica without a fault bears on its votes: the slot at hand moves on, or the phase
does, and a vote is for a slot that has none of its type. -/
structure SlotStep (s : PBFTConsensus) (r : Local) (ms : List Message) : Prop where
  view : s.view ≤ r.view
  length : s.confirmedTrans.length ≤ r.confirmedTrans.length
  phase : r.view = s.view → r.confirmedTrans.length = s.confirmedTrans.length →
    ∀ type, s.phase.past type = true → r.phase.past type = true
  votes : ∀ m, .phase m ∈ ms → m.messageType ≠ .prePrepare → ms = [.phase m] ∧
    s.phase.past m.messageType = false ∧ r.phase.past m.messageType = true ∧ m.view = s.view ∧
    m.seqNum = s.confirmedTrans.length

variable {cfg : Config} {sys : System} {p : InterfaceId} {r : Local}

theorem SlotInv.after (inv : SlotInv cfg sys) (hp : p ∈ cfg.committee.members) (ms : List Message)
    (houtbox : r.outbox = ms.flatMap (packets (sys.ctx cfg p)))
    (hfrom : ∀ m ∈ ms, ∀ z, m.fromId = some z → z = p)
    (hlog : ∀ m ∈ r.receivedMessages, m ∈ (sys.peers p).receivedMessages ∨ Sent sys m ∨ m ∈ ms)
    (hstep : cfg.Honest p → SlotStep (sys.peers p) r ms) : SlotInv cfg (sys.after p r) := by
  have hold : ∀ m, Sent (sys.after p r) (.phase m) → m.fromId ≠ p → Sent sys (.phase m) :=
    fun _ hm hne => sent_of_other houtbox hfrom hm hne
  refine ⟨?wire, ?heard, ?slot, ?once⟩
  case wire => exact wire_after houtbox hfrom hp inv.wire
  case heard => exact heard_after houtbox hp hlog inv.heard
  case slot =>
    intro m hm htype hhonest
    by_cases hmp : m.fromId = p
    swap
    · rw [after_other hmp]
      exact inv.slot m (hold m hm hmp) htype hhonest
    have hp' : cfg.Honest p := hmp ▸ hhonest
    rw [hmp, after_self]
    rcases sent_after houtbox hm with hm | ⟨-, hmem⟩
    · obtain ⟨hview, hlength, hpast⟩ := inv.slot m hm htype hhonest
      rw [hmp] at hview hlength hpast
      refine ⟨hview.trans (hstep hp').view, hlength.trans (hstep hp').length, fun hv hn => ?_⟩
      have hv' : r.view = (sys.peers p).view := le_antisymm (hv ▸ hview) (hstep hp').view
      have hn' := le_antisymm (hn ▸ hlength) (hstep hp').length
      exact (hstep hp').phase hv' hn' _ (hpast (hv.trans hv') (hn.trans hn'))
    · obtain ⟨-, -, hpast, hview, hseq⟩ := (hstep hp').votes m (hmem hp') htype
      rw [hview, hseq]
      exact ⟨(hstep hp').view, (hstep hp').length, fun _ _ => hpast⟩
  case once =>
    intro m m' hm hm' htype htype' hhonest hsame hview hseq
    by_cases hmp : m.fromId = p
    swap
    · exact inv.once m m' (hold m hm hmp) (hold m' hm' (hsame ▸ hmp)) htype htype' hhonest hsame hview hseq
    have hp' : cfg.Honest p := hmp ▸ hhonest
    have hmp' : m'.fromId = p := hsame ▸ hmp
    -- a new vote is for a slot in which there is no old one of its type
    have hnew : ∀ m₁, .phase m₁ ∈ ms → m₁.messageType ≠ .prePrepare → ∀ m₀, Sent sys (.phase m₀) →
        m₀.messageType = m₁.messageType → m₀.fromId = p → m₀.view = m₁.view → m₀.seqNum ≠ m₁.seqNum := by
      intro m₁ hm₁ htype₁ m₀ hm₀ htype₀ hfrom₀ hview₀ hseq₀
      obtain ⟨-, hnot, -, hview₁, hseq₁⟩ := (hstep hp').votes m₁ hm₁ htype₁
      obtain ⟨-, -, hpast⟩ := inv.slot m₀ hm₀ (htype₀ ▸ htype₁) (hfrom₀ ▸ hp')
      rw [hfrom₀, htype₀] at hpast
      rw [hpast (hview₀.trans hview₁) (hseq₀.trans hseq₁)] at hnot
      cases hnot
    rcases sent_after houtbox hm with hm | ⟨-, hmem⟩ <;> rcases sent_after houtbox hm' with hm' | ⟨-, hmem'⟩
    · exact inv.once m m' hm hm' htype htype' hhonest hsame hview hseq
    · exact absurd hseq (hnew m' (hmem' hp') (htype' ▸ htype) m hm htype' hmp hview)
    · exact absurd hseq.symm (hnew m (hmem hp') htype m' hm' htype'.symm hmp' hview.symm)
    · have hsingle := ((hstep hp').votes m (hmem hp') htype).1 ▸ hmem' hp'
      simpa using (List.mem_singleton.mp hsingle).symm

/-! ## The steps -/

theorem SlotStep.of_silent {s : PBFTConsensus} {ms : List Message} (hview : s.view ≤ r.view)
    (hlength : s.confirmedTrans.length ≤ r.confirmedTrans.length)
    (hphase : r.view = s.view → r.confirmedTrans.length = s.confirmedTrans.length →
      ∀ type, s.phase.past type = true → r.phase.past type = true)
    (hnone : ∀ m, .phase m ∈ ms → m.messageType = .prePrepare) : SlotStep s r ms :=
  ⟨hview, hlength, hphase, fun m hm htype => absurd (hnone m hm) htype⟩

theorem SlotStep.of_vote {s r : Local} (hkept : Kept s r) {m : PhaseMessage}
    (hview : m.view = s.view) (hseq : m.seqNum = s.confirmedTrans.length)
    (hbefore : s.phase.past m.messageType = false) (hafter : r.phase.past m.messageType = true)
    (hphase : ∀ type, s.phase.past type = true → r.phase.past type = true) :
    SlotStep s.toPBFTConsensus r [.phase m] := by
  refine ⟨hkept.view.ge, by rw [hkept.confirmedTrans], fun _ _ => hphase, fun m' hm' _ => ?_⟩
  obtain rfl : m' = m := by simpa using hm'
  exact ⟨rfl, hbefore, hafter, hview, hseq⟩

theorem slotStep_of_outcome {ctx : Ctx} {s r : Local} {ms : List Message} (h : Outcome ctx s r ms) :
    SlotStep s.toPBFTConsensus r ms := by
  have hpast : ∀ type, Phase.past .prePrepare type = true → ∀ phase : Phase, phase.past type = true := by
    intro type htype phase
    cases type with
    | prePrepare => cases phase <;> rfl
    | prepare => cases htype
    | commit => cases htype
  cases h with
  | idle hkept hphase =>
    exact .of_silent hkept.view.ge (by rw [hkept.confirmedTrans]) (fun _ _ type h => hphase ▸ h) (by simp)
  | viewChange vc _ hview _ hconfirmed =>
    refine .of_silent (by omega) (by rw [hconfirmed]) (fun h => ?_) (by simp)
    omega
  | proposeFirst _ tx _ hkept hphase =>
    refine .of_silent hkept.view.ge (by rw [hkept.confirmedTrans]) (fun _ _ type h => ?_) fun m hm => ?_
    · exact hpast type (hphase ▸ h) _
    · obtain rfl : m = _ := by simpa using hm
      rfl
  | proposeOwn tx hphase _ _ hview hconfirmed =>
    refine .of_silent hview.ge (by rw [hconfirmed]) (fun _ _ type h => ?_) fun m hm => ?_
    · exact hpast type (hphase ▸ h) _
    · obtain rfl : m = _ := by simpa using hm
      rfl
  | prepare pp hkept hphase hphase' _ hpp =>
    refine .of_vote hkept hpp.view hpp.seqNum ?_ ?_ fun type h => hpast type (hphase ▸ h) _
    · rw [hphase]
      rfl
    · rw [hphase']
      rfl
  | commit pp hkept hphase hphase' hpp =>
    refine .of_vote hkept hpp.view hpp.seqNum ?_ ?_ fun type h => ?_
    · rw [hphase]
      rfl
    · rw [hphase']
      rfl
    · rw [hphase']
      cases type <;> rfl
  | decide pp ms _ _ hview _ hconfirmed _ _ _ hms =>
    have hlength : r.confirmedTrans.length = s.confirmedTrans.length + 1 := by
      rw [hconfirmed, List.length_append, List.length_singleton]
    refine .of_silent hview.ge (by omega) (fun _ h => ?_) fun m hm => ?_
    · omega
    · obtain ⟨c, hc, -⟩ := hms _ hm
      cases hc
  | enterNewView ms hkept hphase _ hms =>
    refine .of_silent hkept.view.ge (by rw [hkept.confirmedTrans]) (fun _ _ type h => ?_) fun m hm => ?_
    · refine hpast type ?_ _
      rw [hphase] at h
      cases type with
      | prePrepare => rfl
      | prepare => cases h
      | commit => cases h
    · obtain ⟨nv, hnv, -⟩ := hms _ hm
      cases hnv
  | install nv hkept hphase =>
    refine .of_silent hkept.view.ge (by rw [hkept.confirmedTrans]) (fun _ _ type h => ?_) fun m hm => ?_
    · refine hpast type ?_ _
      rw [hphase] at h
      cases type with
      | prePrepare => rfl
      | prepare => cases h
      | commit => cases h
    · obtain ⟨pp, -, heq⟩ := List.mem_map.mp hm
      rw [← Message.phase.inj heq]

theorem slotInv_initial : SlotInv cfg initial where
  wire := fun _ ⟨_, hpkt, _⟩ => absurd hpkt List.not_mem_nil
  heard := fun _ _ _ hm => absurd hm List.not_mem_nil
  slot := fun _ ⟨_, hpkt, _⟩ => absurd hpkt List.not_mem_nil
  once := fun _ _ ⟨_, hpkt, _⟩ => absurd hpkt List.not_mem_nil

theorem slotInv_of_reached (h : (machine cfg).Reached sys) : SlotInv cfg sys := by
  refine h.invariant (fun sys hsys => ?_) ?_
  · rw [show sys = initial from hsys]
    exact slotInv_initial
  · intro sys e sys' inv _ hstep
    rcases step_cases hstep with ⟨-, rfl⟩ | ⟨p, pkt, rfl, hp, hpkt, -, -, rfl⟩ | ⟨p, rfl, hp, rfl⟩
    · exact ⟨inv.wire, inv.heard, inv.slot, inv.once⟩
    · obtain ⟨hview, hconfirmed, hphase, houtbox, -, hlog, -⟩ :=
        onMessage_same (sys.ctx cfg p) pkt.message (sys.start p)
      refine inv.after hp [] houtbox (by simp) (fun m hm => ?_) fun _ =>
        .of_silent hview.ge (by rw [hconfirmed]; rfl) (fun _ _ type h => hphase ▸ h) (by simp)
      exact (hlog m hm).imp_right fun h => .inl ⟨pkt, hpkt, h.symm⟩
    · obtain ⟨ms, hemits, houtcome⟩ := call_steps (sys.ctx cfg p) (sys.start p)
      refine inv.after hp ms (by rw [hemits.outbox]; rfl) (outcome_fromId houtcome) (fun m hm => ?_)
        fun _ => slotStep_of_outcome houtcome
      exact (hemits.log m hm).imp_right .inr

/-! ## Uniqueness -/

theorem SlotInv.backed_unique (inv : SlotInv cfg sys) {k : Nat} (hsize : cfg.committee.size = 3 * k + 1)
    (hfaulty : (cfg.committee.members.toFinset.filter fun p => ¬ cfg.Honest p).card ≤ k)
    {type : PhaseType} (htype : type ≠ .prePrepare) {v n : Nat} {req req' : ClientRequest}
    (h : Backed cfg sys type v n req) (h' : Backed cfg sys type v n req') : req = req' := by
  obtain ⟨S, hS, hcard, hvotes⟩ := h
  obtain ⟨S', hS', hcard', hvotes'⟩ := h'
  obtain ⟨z, hz, hz', hhonest⟩ := exists_honest_voter hsize hfaulty hS hS' hcard hcard'
  obtain ⟨m, hm, rfl, hseq, hview, rfl, hfrom⟩ := hvotes z hz
  obtain ⟨m', hm', htype', hseq', hview', rfl, hfrom'⟩ := hvotes' z hz'
  rw [inv.once m m' hm hm' htype htype'.symm (hfrom ▸ hhonest) (hfrom.trans hfrom'.symm)
    (hview.trans hview'.symm) (hseq.trans hseq'.symm)]

theorem SlotInv.backed_of_senders (inv : SlotInv cfg sys) (hinj : Function.Injective cfg.digestOf)
    {x : InterfaceId} (hx : cfg.Honest x) {type : PhaseType} {v n : Nat} {d : String}
    (h : quorum (sys.ctx cfg x) < (senders (sys.ctx cfg x) (sys.peers x) type v n d).card) :
    ∃ req, cfg.digestOf req = d ∧ Backed cfg sys type v n req := by
  have hvoted := voted_of_senders h
  obtain ⟨S, hS, hvotes⟩ := hvoted
  obtain ⟨z, hz⟩ := Finset.card_pos.mp (Nat.zero_lt_of_lt hS)
  obtain ⟨m, -, -, -, -, rfl, -⟩ := hvotes z hz
  exact ⟨m.request, rfl, backed_of_voted inv.wire (inv.heard x hx) (fun _ _ h => hinj h)
    (voted_of_senders h)⟩

theorem backed_keep {type : PhaseType} {v n : Nat} {req : ClientRequest} {e : Event} {sys' : System}
    (hstep : (machine cfg).step sys e = some sys') (h : Backed cfg sys type v n req) :
    Backed cfg sys' type v n req := by
  rcases step_cases hstep with ⟨-, rfl⟩ | ⟨p, pkt, -, -, -, -, -, rfl⟩ | ⟨p, -, -, rfl⟩
  · exact h
  · exact h.after
  · exact h.after

theorem digest_unique (hinj : Function.Injective cfg.digestOf) {k : Nat}
    (hsize : cfg.committee.size = 3 * k + 1)
    (hfaulty : (cfg.committee.members.toFinset.filter fun p => ¬ cfg.Honest p).card ≤ k)
    {run : List System} (h : (machine cfg).Passes run) (type : PhaseType) (htype : type ≠ .prePrepare)
    (v n : Nat) : {d | ∃ sys ∈ run, ∃ x, cfg.Honest x ∧ quorum (sys.ctx cfg x) <
      (senders (sys.ctx cfg x) (sys.peers x) type v n d).card}.Subsingleton := by
  obtain ⟨last, hlast⟩ : ∃ last, run.head? = some last := by
    cases h with
    | start => exact ⟨_, rfl⟩
    | next => exact ⟨_, rfl⟩
  have inv := slotInv_of_reached (h.reached last (List.mem_of_mem_head? hlast))
  have hbacked : ∀ d, (∃ sys ∈ run, ∃ x, cfg.Honest x ∧ quorum (sys.ctx cfg x) <
      (senders (sys.ctx cfg x) (sys.peers x) type v n d).card) →
      ∃ req, cfg.digestOf req = d ∧ Backed cfg last type v n req := by
    rintro d ⟨sys, hsys, x, hx, hcount⟩
    obtain ⟨req, hreq, hbacked⟩ :=
      (slotInv_of_reached (h.reached sys hsys)).backed_of_senders hinj hx hcount
    exact ⟨req, hreq, h.carried (Q := fun sys => Backed cfg sys type v n req)
      (fun _ _ _ => backed_keep) last hlast sys hsys hbacked⟩
  intro d hd d' hd'
  obtain ⟨req, rfl, hreq⟩ := hbacked d hd
  obtain ⟨req', rfl, hreq'⟩ := hbacked d' hd'
  rw [inv.backed_unique hsize hfaulty htype hreq hreq']

/-- **Certificates are unique.** A committee of `3k + 1` replicas, at most `k` of them with a fault, and any
run: for each view and sequence number there is at most one digest that is ever prepared at a replica
without a fault, and at most one that is ever committed at one. -/
theorem certificates_unique (hinj : Function.Injective cfg.digestOf) (k : Nat)
    (hsize : cfg.committee.size = 3 * k + 1)
    (hfaulty : (cfg.committee.members.toFinset.filter fun p => ¬ cfg.Honest p).card ≤ k)
    {run : List System} (h : (machine cfg).Passes run) (v n : Nat) :
    {d | ∃ sys ∈ run, ∃ x, cfg.Honest x ∧
        isPrepared (sys.ctx cfg x) (sys.peers x) v n d = true}.Subsingleton ∧
      {d | ∃ sys ∈ run, ∃ x, cfg.Honest x ∧
        isCommitted (sys.ctx cfg x) (sys.peers x) v n d = true}.Subsingleton := by
  constructor
  · refine (digest_unique hinj hsize hfaulty h .prepare (by simp) v n).anti ?_
    rintro d ⟨sys, hsys, x, hx, hprepared⟩
    exact ⟨sys, hsys, x, hx, of_decide_eq_true (Bool.and_eq_true_iff.mp hprepared).2⟩
  · refine (digest_unique hinj hsize hfaulty h .commit (by simp) v n).anti ?_
    rintro d ⟨sys, hsys, x, hx, hcommitted⟩
    exact ⟨sys, hsys, x, hx, of_decide_eq_true hcommitted⟩

/-- In a run where replica 3 tells two stories about the request of replica 0, replica 0 prepares it. -/
theorem certificates_unique_equivocatorOutvoted :
    ∃ last run, (machine fourWithEquivocator).Passes (last :: run) ∧
      isPrepared (last.ctx fourWithEquivocator 0) (last.peers 0) 0 0 (unaryDigest ⟨0, 0, 0, false⟩) = true ∧
      {d | ∃ sys ∈ last :: run, ∃ x, fourWithEquivocator.Honest x ∧
          isPrepared (sys.ctx fourWithEquivocator x) (sys.peers x) 0 0 d = true}.Subsingleton ∧
        {d | ∃ sys ∈ last :: run, ∃ x, fourWithEquivocator.Honest x ∧
          isCommitted (sys.ctx fourWithEquivocator x) (sys.peers x) 0 0 d = true}.Subsingleton := by
  have hrun : ((machine fourWithEquivocator).runUnder (fun _ _ => True) initial equivocatorOutvoted).map
      (fun sys => decide (isPrepared (sys.ctx fourWithEquivocator 0) (sys.peers 0) 0 0
        (unaryDigest ⟨0, 0, 0, false⟩) = true)) = some true := by
    decide +kernel
  obtain ⟨last, hlast, hprepared⟩ := Option.map_eq_some_iff.mp hrun
  obtain ⟨run, hpasses⟩ := Lib.Machine.passesUnder_of_runUnder (.start rfl) hlast
  have hinj : Function.Injective fourWithEquivocator.digestOf := unaryDigest_injective
  exact ⟨last, run, hpasses, of_decide_eq_true hprepared,
    certificates_unique hinj 1 (by decide) (by decide) hpasses 0 0⟩

end System

end Quantas.Pbft
