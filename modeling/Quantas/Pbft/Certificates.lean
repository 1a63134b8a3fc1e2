import Quantas.Pbft.Agreement

/-!
# PBFT: certificates without faults

In a committee without faults, agreement holds for every size but three. A request that was committed in a
view is the only one that can be prepared for its sequence number in that view or a later one
(`CertInv.locked`): those who prepare it in a later view, and the leader who proposes it there, have not
committed before; or the leader proposes again what was prepared in the view before. Among three replicas,
where one prepare is a certificate, agreement holds as long as nobody leaves the first view: its leader
proposes once for each sequence number.
-/

namespace Quantas.Pbft

/-- A replica sends one such message for each view and sequence number. In a later view its leader proposes
what it carries over, and then for the sequence number in flight, which may be among that. -/
def PhaseMessage.Single (m : PhaseMessage) : Prop :=
  m.messageType = .prepare ∨ m.messageType = .prePrepare ∧ m.view = 0

namespace System

/-- The leader of a view has proposed a request, and more than a quorum of members have prepared it. -/
def Prepared (cfg : Config) (sys : System) (v n : Nat) (req : ClientRequest) : Prop :=
  (∃ m, Sent sys (.phase m) ∧ m.messageType = .prePrepare ∧ m.seqNum = n ∧ m.view = v ∧ m.request = req ∧
    m.fromId = cfg.leaderFor v) ∧ Backed cfg sys .prepare v n req

/-- A request that was prepared in the view before `v`. -/
def CarriedOver (cfg : Config) (sys : System) (v n : Nat) (req : ClientRequest) : Prop :=
  ∃ u, v = u + 1 ∧ Prepared cfg sys u n req

variable {cfg : Config} {sys : System} {p : InterfaceId} {r : Local}

theorem Prepared.after {v n : Nat} {req : ClientRequest} (h : Prepared cfg sys v n req) :
    Prepared cfg (sys.after p r) v n req := by
  obtain ⟨⟨m, hm, hrest⟩, hbacked⟩ := h
  exact ⟨⟨m, hm.after, hrest⟩, hbacked.after⟩

theorem CarriedOver.after {v n : Nat} {req : ClientRequest} (h : CarriedOver cfg sys v n req) :
    CarriedOver cfg (sys.after p r) v n req := by
  obtain ⟨u, hu, hprepared⟩ := h
  exact ⟨u, hu, hprepared.after⟩

/-! ## The invariant -/

/-- What the messages of replicas without faults say about the states of their senders and about each
other. -/
structure CertInv (cfg : Config) (sys : System) : Prop where
  prepares : ∀ m, Sent sys (.phase m) → m.messageType = .prepare → m.fromId ≠ cfg.leaderFor m.view
  slot : ∀ m, Sent sys (.phase m) → m.Single →
    m.view ≤ (sys.peers m.fromId).view ∧ m.seqNum ≤ (sys.peers m.fromId).confirmedTrans.length ∧
    (m.view = (sys.peers m.fromId).view → m.seqNum = (sys.peers m.fromId).confirmedTrans.length →
      (sys.peers m.fromId).phase = .prepare ∨ (sys.peers m.fromId).phase = .commit)
  once : ∀ m m', Sent sys (.phase m) → Sent sys (.phase m') → m.Single → m'.Single → m.fromId = m'.fromId →
    m.seqNum = m'.seqNum → m.view = m'.view → m = m'
  commits : ∀ m, Sent sys (.phase m) → m.messageType = .commit →
    m.view ≤ (sys.peers m.fromId).view ∧ Prepared cfg sys m.view m.seqNum m.request
  commitLast : ∀ m c, Sent sys (.phase m) → Sent sys (.phase c) → m.messageType = .prepare →
    c.messageType = .commit → m.fromId = c.fromId → m.seqNum = c.seqNum → m.view ≤ c.view
  proposals : ∀ m, Sent sys (.phase m) → m.messageType = .prePrepare →
    m.view ≤ (sys.peers m.fromId).view ∧ (m.fromId = cfg.leaderFor m.view →
      (∀ c, Sent sys (.phase c) → c.messageType = .commit → c.fromId = m.fromId → c.seqNum = m.seqNum →
        m.view ≤ c.view) ∨ CarriedOver cfg sys m.view m.seqNum m.request)
  viewChanges : ∀ vc, Sent sys (.viewChange vc) → ∀ pp ∈ vc.preparedProof,
    CarriedOver cfg sys vc.newView pp.seqNum pp.request
  newViews : ∀ nv, Sent sys (.newView nv) → ∀ pp ∈ nv.preparedProof,
    CarriedOver cfg sys nv.view pp.seqNum pp.request

/-- The ways in which a step of a replica bears on the certificates. -/
structure CertStep (cfg : Config) (sys : System) (p : InterfaceId) (r : Local) (ms : List Message) :
    Prop where
  view : (sys.peers p).view ≤ r.view
  length : (sys.peers p).confirmedTrans.length ≤ r.confirmedTrans.length
  phase : (sys.peers p).phase = .prepare ∨ (sys.peers p).phase = .commit → r.view = (sys.peers p).view →
    r.confirmedTrans.length = (sys.peers p).confirmedTrans.length → r.phase = .prepare ∨ r.phase = .commit
  prepares : ∀ m, .phase m ∈ ms → m.messageType = .prepare → p ≠ cfg.leaderFor m.view
  single : ∀ m, .phase m ∈ ms → m.Single → (∀ m', .phase m' ∈ ms → m' = m) ∧
    (sys.peers p).phase = .prePrepare ∧ r.phase = .prepare ∧
    m.view = (sys.peers p).view ∧ m.seqNum = (sys.peers p).confirmedTrans.length
  commits : ∀ m, .phase m ∈ ms → m.messageType = .commit →
    m.view = (sys.peers p).view ∧ Prepared cfg sys m.view m.seqNum m.request
  proposals : ∀ m, .phase m ∈ ms → m.messageType = .prePrepare → m.view = (sys.peers p).view ∧
    (p = cfg.leaderFor m.view →
      m.seqNum = (sys.peers p).confirmedTrans.length ∧ (sys.peers p).phase = .prePrepare ∨
        CarriedOver cfg sys m.view m.seqNum m.request)
  viewChanges : ∀ vc, .viewChange vc ∈ ms → ∀ pp ∈ vc.preparedProof,
    CarriedOver cfg sys vc.newView pp.seqNum pp.request
  newViews : ∀ nv, .newView nv ∈ ms → ∀ pp ∈ nv.preparedProof,
    CarriedOver cfg sys nv.view pp.seqNum pp.request

theorem CertInv.after (inv : CertInv cfg sys) (votes : VoteInv cfg sys) (hfree : ∀ q, cfg.Honest q)
    (ms : List Message) (houtbox : r.outbox = ms.flatMap (packets (sys.ctx cfg p)))
    (hfrom : ∀ m ∈ ms, ∀ z, m.fromId = some z → z = p) (hstep : CertStep cfg sys p r ms) :
    CertInv cfg (sys.after p r) := by
  have hsent : ∀ m, Sent (sys.after p r) m → Sent sys m ∨ m ∈ ms := fun m hm =>
    (sent_after houtbox hm).imp_right fun h => h.2 (hfree p)
  have hown : ∀ m, .phase m ∈ ms → m.fromId = p := fun m hm => hfrom _ hm _ rfl
  -- a replica that has committed for the sequence number in flight is in its commit phase
  have hcommitted : ∀ c, Sent sys (.phase c) → c.messageType = .commit → c.fromId = p →
      c.seqNum = (sys.peers p).confirmedTrans.length → (sys.peers p).phase = .commit := by
    intro c hc htype hcp hseq
    have h := votes.committed c hc htype (hfree _)
    rw [hcp, hseq] at h
    exact (h.resolve_left (lt_irrefl _)).2
  have hview : ∀ q, (sys.peers q).view ≤ ((sys.after p r).peers q).view := by
    intro q
    by_cases hq : q = p
    · rw [hq, after_self]
      exact hstep.view
    · rw [after_other hq]
  refine ⟨?prepares, ?slot, ?once, ?commits, ?commitLast, ?proposals, ?viewChanges, ?newViews⟩
  case prepares =>
    intro m hm htype
    rcases hsent _ hm with hm | hm
    · exact inv.prepares m hm htype
    · rw [hown m hm]
      exact hstep.prepares m hm htype
  case slot =>
    intro m hm hsingle
    rcases hsent _ hm with hm | hm
    · obtain ⟨hle, hlen, hphase⟩ := inv.slot m hm hsingle
      by_cases hmp : m.fromId = p
      swap
      · rw [after_other hmp]
        exact ⟨hle, hlen, hphase⟩
      rw [hmp] at hle hlen hphase
      rw [hmp, after_self]
      refine ⟨hle.trans hstep.view, hlen.trans hstep.length, fun hv hn => ?_⟩
      have hv' : r.view = (sys.peers p).view := le_antisymm (hv ▸ hle) hstep.view
      have hn' := le_antisymm (hn ▸ hlen) hstep.length
      exact hstep.phase (hphase (hv.trans hv') (hn.trans hn')) hv' hn'
    · obtain ⟨-, -, hphase, hv, hn⟩ := hstep.single m hm hsingle
      rw [hown m hm, after_self, hv, hn]
      exact ⟨hstep.view, hstep.length, fun _ _ => .inl hphase⟩
  case once =>
    intro m m' hm hm' hsingle hsingle' hsame hseq hv
    -- a new one is for the view and the sequence number in flight, which has no old one
    have hnew : ∀ m₁, .phase m₁ ∈ ms → m₁.Single → ∀ m₀, Sent sys (.phase m₀) → m₀.Single →
        m₀.fromId = m₁.fromId → m₀.seqNum = m₁.seqNum → m₀.view ≠ m₁.view := by
      intro m₁ hm₁ hsingle₁ m₀ hm₀ hsingle₀ hsame₀ hseq₀ hv₀
      obtain ⟨-, hphase, -, hv₁, hn₁⟩ := hstep.single m₁ hm₁ hsingle₁
      obtain ⟨-, -, hphase₀⟩ := inv.slot m₀ hm₀ hsingle₀
      rw [hsame₀, hown m₁ hm₁, hphase] at hphase₀
      rcases hphase₀ (hv₀.trans hv₁) (hseq₀.trans hn₁) with h | h <;> cases h
    rcases hsent _ hm with hm | hm <;> rcases hsent _ hm' with hm' | hm'
    · exact inv.once m m' hm hm' hsingle hsingle' hsame hseq hv
    · exact absurd hv (hnew m' hm' hsingle' m hm hsingle hsame hseq)
    · exact absurd hv.symm (hnew m hm hsingle m' hm' hsingle' hsame.symm hseq.symm)
    · exact ((hstep.single m hm hsingle).1 m' hm').symm
  case commits =>
    intro m hm htype
    rcases hsent _ hm with hm | hm
    · obtain ⟨hle, hprepared⟩ := inv.commits m hm htype
      exact ⟨hle.trans (hview _), hprepared.after⟩
    · obtain ⟨hv, hprepared⟩ := hstep.commits m hm htype
      rw [hown m hm, hv, after_self]
      exact ⟨hstep.view, hv ▸ hprepared.after⟩
  case commitLast =>
    intro m c hm hc htype htype' hsame hseq
    rcases hsent _ hm with hm | hm <;> rcases hsent _ hc with hc | hc
    · exact inv.commitLast m c hm hc htype htype' hsame hseq
    · rw [(hstep.commits c hc htype').1, ← hown c hc, ← hsame]
      exact (inv.slot m hm (.inl htype)).1
    · obtain ⟨-, hphase, -, -, hn⟩ := hstep.single m hm (.inl htype)
      have h := hcommitted c hc htype' (hsame.symm.trans (hown m hm)) (hseq.symm.trans hn)
      cases hphase.symm.trans h
    · obtain ⟨-, -, -, hv, -⟩ := hstep.single m hm (.inl htype)
      rw [(hstep.commits c hc htype').1, hv]
  case proposals =>
    intro m hm htype
    rcases hsent _ hm with hm | hm
    · obtain ⟨hle, hled⟩ := inv.proposals m hm htype
      refine ⟨hle.trans (hview _), fun hleader => ?_⟩
      rcases hled hleader with hled | hcarried
      · refine .inl fun c hc htype' hsame hseq => ?_
        rcases hsent _ hc with hc | hc
        · exact hled c hc htype' hsame hseq
        · rw [(hstep.commits c hc htype').1, ← hown c hc, hsame]
          exact hle
      · exact .inr hcarried.after
    · obtain ⟨hv, hled⟩ := hstep.proposals m hm htype
      rw [hown m hm, after_self]
      refine ⟨hv ▸ hstep.view, fun hleader => ?_⟩
      rcases hled hleader with ⟨hn, hphase⟩ | hcarried
      · refine .inl fun c hc htype' hsame hseq => ?_
        rcases hsent _ hc with hc | hc
        · have h := hcommitted c hc htype' hsame (hseq.trans hn)
          cases hphase.symm.trans h
        · rw [(hstep.commits c hc htype').1, hv]
      · exact .inr hcarried.after
  case viewChanges =>
    intro vc hvc pp hpp
    rcases hsent _ hvc with hvc | hvc
    · exact (inv.viewChanges vc hvc pp hpp).after
    · exact (hstep.viewChanges vc hvc pp hpp).after
  case newViews =>
    intro nv hnv pp hpp
    rcases hsent _ hnv with hnv | hnv
    · exact (inv.newViews nv hnv pp hpp).after
    · exact (hstep.newViews nv hnv pp hpp).after

/-! ## The steps -/

theorem VoteInv.prepared_of_certified (votes : VoteInv cfg sys) (hdiffer : DigestsDiffer cfg sys)
    (hp : cfg.Honest p) {v n : Nat} {pp : PhaseMessage} (hpp : .phase pp ∈ (sys.peers p).receivedMessages)
    (h : Certified (sys.ctx cfg p) (· ∈ (sys.peers p).receivedMessages) v n (cfg.digestOf pp.request)) :
    Prepared cfg sys v n pp.request := by
  obtain ⟨⟨m, hm, htype, hseq, hview, hdigest, hfrom⟩, hvoted⟩ := h
  have hsent := votes.heard p hp _ hm
  have hsame := hdiffer m pp hsent (votes.heard p hp _ hpp) hdigest
  exact ⟨⟨m, hsent, htype, hseq, hview, hsame, hfrom⟩, votes.backed_of_voted hdiffer hp hpp hvoted⟩

theorem CertStep.of_silent {ms : List Message} (hview : (sys.peers p).view ≤ r.view)
    (hlength : (sys.peers p).confirmedTrans.length ≤ r.confirmedTrans.length)
    (hphase : (sys.peers p).phase = .prepare ∨ (sys.peers p).phase = .commit → r.view = (sys.peers p).view →
      r.confirmedTrans.length = (sys.peers p).confirmedTrans.length →
      r.phase = .prepare ∨ r.phase = .commit)
    (hnone : ∀ m, .phase m ∉ ms)
    (hviewChanges : ∀ vc, .viewChange vc ∈ ms → ∀ pp ∈ vc.preparedProof,
      CarriedOver cfg sys vc.newView pp.seqNum pp.request)
    (hnewViews : ∀ nv, .newView nv ∈ ms → ∀ pp ∈ nv.preparedProof,
      CarriedOver cfg sys nv.view pp.seqNum pp.request) : CertStep cfg sys p r ms where
  view := hview
  length := hlength
  phase := hphase
  prepares := fun m hm => absurd hm (hnone m)
  single := fun m hm => absurd hm (hnone m)
  commits := fun m hm => absurd hm (hnone m)
  proposals := fun m hm => absurd hm (hnone m)
  viewChanges := hviewChanges
  newViews := hnewViews

theorem CertStep.of_answer {ms : List Message} (m : PhaseMessage) (hphase : (sys.peers p).phase = .prePrepare)
    (hphase' : r.phase = .prepare) (hview : r.view = (sys.peers p).view)
    (hconfirmed : r.confirmedTrans = (sys.peers p).confirmedTrans)
    (hm : m.view = (sys.peers p).view ∧ m.seqNum = (sys.peers p).confirmedTrans.length)
    (htype : m.messageType = .prePrepare ∨ m.messageType = .prepare ∧ p ≠ cfg.leaderFor m.view)
    (hms : ∀ m', m' ∈ ms → m' = .phase m ∨ ∃ req, m' = .request req) : CertStep cfg sys p r ms := by
  have honly : ∀ m', .phase m' ∈ ms → m' = m := by
    intro m' hm'
    rcases hms _ hm' with h | ⟨req, h⟩
    · exact Message.phase.inj h
    · cases h
  refine ⟨hview.ge, by rw [hconfirmed], fun h _ _ => ?_, fun m' hm' h => ?_, fun m' hm' _ => ?_,
    fun m' hm' h => ?_, fun m' hm' _ => ?_, fun vc hvc => ?_, fun nv hnv => ?_⟩
  · rcases h with h | h <;> cases hphase.symm.trans h
  · obtain rfl := honly m' hm'
    rcases htype with htype | ⟨-, hleader⟩
    · cases htype.symm.trans h
    · exact hleader
  · obtain rfl := honly m' hm'
    exact ⟨honly, hphase, hphase', hm⟩
  · obtain rfl := honly m' hm'
    rcases htype with htype | ⟨htype, -⟩ <;> cases htype.symm.trans h
  · obtain rfl := honly m' hm'
    exact ⟨hm.1, fun _ => .inl ⟨hm.2, hphase⟩⟩
  · rcases hms _ hvc with h | ⟨req, h⟩ <;> cases h
  · rcases hms _ hnv with h | ⟨req, h⟩ <;> cases h

theorem CertInv.certStep (inv : CertInv cfg sys) (votes : VoteInv cfg sys) (hdiffer : DigestsDiffer cfg sys)
    (hp : cfg.Honest p) {ms : List Message} (h : Outcome (sys.ctx cfg p) (sys.start p) r ms) :
    CertStep cfg sys p r ms := by
  cases h with
  | idle hkept hphase =>
    refine .of_silent hkept.view.ge (by rw [hkept.confirmedTrans]; rfl) (fun h _ _ => hphase ▸ h) ?_ ?_ ?_
    all_goals simp
  | viewChange vc _ hview _ hconfirmed _ _ _ _ hnew hproof =>
    refine .of_silent (by rw [hview]; exact Nat.le_succ _) (by rw [hconfirmed]; rfl) (fun _ h _ => ?_) (by simp)
      (fun vc' hvc pp hpp => ?_) (by simp)
    · rw [hview] at h
      exact absurd h (Nat.succ_ne_self _)
    · obtain rfl : vc' = vc := by simpa using hvc
      obtain ⟨hlog, -, hcertified⟩ := hproof pp hpp
      exact ⟨_, hnew, votes.prepared_of_certified hdiffer hp hlog hcertified⟩
  | proposeFirst _ tx _ hkept hphase hphase' =>
    exact .of_answer _ hphase hphase' hkept.view hkept.confirmedTrans ⟨rfl, rfl⟩ (.inl rfl)
      fun m' hm' => .inl (List.mem_singleton.mp hm')
  | proposeOwn tx hphase hphase' _ hview hconfirmed =>
    refine .of_answer ⟨.prePrepare, (sys.peers p).confirmedTrans.length, (sys.peers p).view, tx,
      (sys.peers p).view, p⟩ hphase hphase' hview hconfirmed ⟨rfl, rfl⟩ (.inl rfl) fun m' hm' => ?_
    rcases List.mem_cons.mp hm' with hm' | hm'
    · exact .inr ⟨tx, hm'⟩
    · exact .inl (List.mem_singleton.mp hm')
  | prepare pp hkept hphase hphase' hself hpp =>
    refine .of_answer { pp with messageType := .prepare, fromId := p } hphase hphase' hkept.view
      hkept.confirmedTrans ⟨hpp.view, hpp.seqNum⟩ (.inr ⟨rfl, ?_⟩) fun m' hm' => .inl (List.mem_singleton.mp hm')
    rw [hpp.view]
    exact hself
  | commit pp hkept hphase hphase' hpp hcertified =>
    have honly : ∀ m, .phase m ∈ [Message.phase { pp with messageType := .commit, fromId := p }] →
        m = { pp with messageType := .commit, fromId := p } :=
      fun m hm => Message.phase.inj (List.mem_singleton.mp hm)
    refine ⟨hkept.view.ge, by rw [hkept.confirmedTrans]; rfl, fun _ _ _ => .inr hphase', fun m hm htype => ?_,
      fun m hm hsingle => ?_, fun m hm _ => ?_, fun m hm htype => ?_, ?_, ?_⟩
    · obtain rfl := honly m hm
      cases htype
    · obtain rfl := honly m hm
      rcases hsingle with htype | ⟨htype, -⟩ <;> cases htype
    · obtain rfl := honly m hm
      refine ⟨hpp.view, ?_⟩
      have hprepared := votes.prepared_of_certified hdiffer hp hpp.log hcertified
      rw [hpp.view, hpp.seqNum]
      exact hprepared
    · obtain rfl := honly m hm
      cases htype
    · simp
    · simp
  | decide pp ms _ _ hview _ hconfirmed _ _ _ hms =>
    refine .of_silent hview.ge ?_ (fun _ _ h => ?_) (fun m hm => ?_) (fun vc hvc => ?_) fun nv hnv => ?_
    · rw [hconfirmed, List.length_append]
      exact Nat.le_add_right _ _
    · rw [hconfirmed, List.length_append, List.length_singleton] at h
      exact absurd h (Nat.succ_ne_self _)
    · obtain ⟨c, hc, -⟩ := hms _ hm
      cases hc
    · obtain ⟨c, hc, -⟩ := hms _ hvc
      cases hc
    · obtain ⟨c, hc, -⟩ := hms _ hnv
      cases hc
  | enterNewView ms hkept hphase _ hms =>
    refine .of_silent hkept.view.ge (by rw [hkept.confirmedTrans]; rfl) (fun h _ _ => ?_) (fun m hm => ?_)
      (fun vc hvc => ?_) fun nv hnv pp hpp => ?_
    · rcases h with h | h <;> cases hphase.symm.trans h
    · obtain ⟨nv, hnv, -⟩ := hms _ hm
      cases hnv
    · obtain ⟨nv, hnv, -⟩ := hms _ hvc
      cases hnv
    · obtain ⟨nv', hnv', -, hview, hproof⟩ := hms _ hnv
      obtain rfl : nv = nv' := by simpa using hnv'
      obtain ⟨vc, hvc, hnew, hmem⟩ := hproof pp hpp
      rw [hview, ← hnew]
      exact inv.viewChanges vc (votes.heard p hp _ hvc) pp hmem
  | install nv hkept hphase _ hlog hview =>
    have hproposal : ∀ m, .phase m ∈ nv.preparedProof.map (fun pp => Message.phase
        ⟨.prePrepare, pp.seqNum, (sys.start p).view, pp.request, (sys.start p).view, (sys.ctx cfg p).self⟩) →
        m.messageType = .prePrepare ∧ m.view = (sys.peers p).view ∧
          CarriedOver cfg sys m.view m.seqNum m.request := by
      intro m hm
      obtain ⟨pp, hpp, heq⟩ := List.mem_map.mp hm
      obtain rfl := Message.phase.inj heq
      have hcarried := inv.newViews nv (votes.heard p hp _ hlog) pp hpp
      rw [hview] at hcarried
      exact ⟨rfl, rfl, hcarried⟩
    refine ⟨hkept.view.ge, by rw [hkept.confirmedTrans]; rfl, fun h _ _ => ?_, fun m hm htype => ?_,
      fun m hm hsingle => ?_, fun m hm htype => ?_, fun m hm _ => ?_, by simp, by simp⟩
    · rcases h with h | h <;> cases hphase.symm.trans h
    · cases (hproposal m hm).1.symm.trans htype
    · -- nothing is carried over into the first view
      obtain ⟨htype, -, u, hu, -⟩ := hproposal m hm
      rcases hsingle with htype' | ⟨-, hview'⟩
      · cases htype.symm.trans htype'
      · rw [hview'] at hu
        cases hu
    · cases (hproposal m hm).1.symm.trans htype
    · obtain ⟨-, hview', hcarried⟩ := hproposal m hm
      exact ⟨hview', fun _ => .inr hcarried⟩

theorem certInv_initial : CertInv cfg initial where
  prepares := fun _ ⟨_, hpkt, _⟩ => absurd hpkt List.not_mem_nil
  slot := fun _ ⟨_, hpkt, _⟩ => absurd hpkt List.not_mem_nil
  once := fun _ _ ⟨_, hpkt, _⟩ => absurd hpkt List.not_mem_nil
  commits := fun _ ⟨_, hpkt, _⟩ => absurd hpkt List.not_mem_nil
  commitLast := fun _ _ ⟨_, hpkt, _⟩ => absurd hpkt List.not_mem_nil
  proposals := fun _ ⟨_, hpkt, _⟩ => absurd hpkt List.not_mem_nil
  viewChanges := fun _ ⟨_, hpkt, _⟩ => absurd hpkt List.not_mem_nil
  newViews := fun _ ⟨_, hpkt, _⟩ => absurd hpkt List.not_mem_nil

theorem CertInv.call (inv : CertInv cfg sys) (votes : VoteInv cfg sys)
    (hdiffer : DigestsDiffer cfg sys) (hfree : ∀ q, cfg.Honest q) :
    CertInv cfg (sys.after p (Pbft.call (sys.ctx cfg p) (sys.start p)).1) := by
  obtain ⟨ms, hemits, houtcome⟩ := call_steps (sys.ctx cfg p) (sys.start p)
  exact inv.after votes hfree ms (by rw [hemits.outbox]; rfl) (outcome_fromId houtcome)
    (inv.certStep votes hdiffer (hfree p) houtcome)

theorem CertInv.receive (inv : CertInv cfg sys) (votes : VoteInv cfg sys) (hfree : ∀ q, cfg.Honest q)
    (msg : Message) : CertInv cfg (sys.after p (onMessage (sys.ctx cfg p) msg (sys.start p))) := by
  obtain ⟨hview, hconfirmed, hphase, houtbox, -⟩ := onMessage_same (sys.ctx cfg p) msg (sys.start p)
  refine inv.after votes hfree [] houtbox (by simp)
    (.of_silent hview.ge (by rw [hconfirmed]; rfl) (fun h _ _ => hphase ▸ h) ?_ ?_ ?_)
  all_goals simp

theorem certInv_of_reached (hfree : ∀ q, cfg.Honest q) (h : (machine cfg).ReachedUnder (CommitInTime cfg) sys) :
    DigestsDiffer cfg sys → VoteInv cfg sys ∧ CertInv cfg sys := by
  refine h.invariant (P := fun sys => DigestsDiffer cfg sys → VoteInv cfg sys ∧ CertInv cfg sys)
    (fun sys hsys _ => ?_) ?_
  · rw [show sys = initial from hsys]
    exact ⟨voteInv_initial, certInv_initial⟩
  · intro sys e sys' ih hguard hstep hdiffer'
    have hdiffer := hdiffer'.of_step hstep
    obtain ⟨votes, inv⟩ := ih hdiffer
    rcases step_cases hstep with ⟨-, rfl⟩ | ⟨p, pkt, rfl, hp, hpkt, -, -, rfl⟩ | ⟨p, rfl, hp, rfl⟩
    · exact ⟨⟨votes.wire, votes.heard, votes.committed, votes.once, votes.decided⟩,
        ⟨inv.prepares, inv.slot, inv.once, inv.commits, inv.commitLast, inv.proposals, inv.viewChanges,
          inv.newViews⟩⟩
    · exact ⟨votes.receive hp hpkt, inv.receive votes hfree pkt.message⟩
    · exact ⟨votes.call hdiffer hp hguard, inv.call votes hdiffer hfree⟩

/-! ## Agreement -/

theorem exists_common_voter (hsize : cfg.committee.size ≠ 3) {v : Nat} {A B : Finset InterfaceId}
    (hA : A ⊆ cfg.committee.members.toFinset) (hB : B ⊆ cfg.committee.members.toFinset)
    (hleaderA : cfg.leaderFor v ∉ A) (hleaderB : cfg.leaderFor v ∉ B) (hA' : cfg.quorum < A.card)
    (hB' : cfg.quorum < B.card) : ∃ z ∈ A, z ∈ B := by
  have hpos : 0 < cfg.committee.members.length := by
    by_contra h
    have hnil : cfg.committee.members = [] := List.length_eq_zero_iff.mp (by omega)
    rw [hnil, List.toFinset_nil] at hA
    rw [Finset.subset_empty.mp hA, Finset.card_empty] at hA'
    omega
  have hleader : cfg.leaderFor v ∈ cfg.committee.members.toFinset := by
    rw [List.mem_toFinset, Config.leaderFor, List.getD_eq_getElem _ _ (Nat.mod_lt v hpos)]
    exact List.getElem_mem _
  have hlarge : (cfg.committee.members.toFinset.erase (cfg.leaderFor v)).card +
      (∅ : Finset InterfaceId).card < A.card + B.card := by
    rw [Finset.card_erase_of_mem hleader, cfg.committee.card_toFinset, Finset.card_empty]
    rw [Config.quorum, Config.f] at hA' hB'
    omega
  obtain ⟨z, hz, hz', -⟩ := Lib.exists_mem_inter_notMem
    (Finset.subset_erase.mpr ⟨hA, hleaderA⟩) (Finset.subset_erase.mpr ⟨hB, hleaderB⟩) hlarge
  exact ⟨z, hz, hz'⟩

theorem CertInv.locked (inv : CertInv cfg sys) (hsize : cfg.committee.size ≠ 3) {v n : Nat}
    {req : ClientRequest} (h : Backed cfg sys .commit v n req) (v' : Nat) (hv : v ≤ v')
    (req' : ClientRequest) (h' : Prepared cfg sys v' n req') : req' = req := by
  obtain ⟨C, hC, hcardC, hcommits⟩ := h
  have hleader : ∀ (u : Nat) (req : ClientRequest) (P : Finset InterfaceId),
      (∀ z ∈ P, ∃ m, Sent sys (.phase m) ∧ m.messageType = .prepare ∧ m.seqNum = n ∧ m.view = u ∧
        m.request = req ∧ m.fromId = z) → cfg.leaderFor u ∉ P := by
    intro u req P hP hmem
    obtain ⟨m, hm, htype, -, rfl, -, hfrom⟩ := hP _ hmem
    exact inv.prepares m hm htype hfrom
  induction v', hv using Nat.le_induction generalizing req' with
  | base =>
    -- the commits rest on a certificate for the request itself
    obtain ⟨z, hz⟩ := Finset.card_pos.mp (Nat.zero_lt_of_lt hcardC)
    obtain ⟨c, hc, htype, rfl, rfl, rfl, -⟩ := hcommits z hz
    obtain ⟨-, P, hP, hcardP, hprepares⟩ := (inv.commits c hc htype).2
    obtain ⟨-, P', hP', hcardP', hprepares'⟩ := h'
    obtain ⟨y, hy, hy'⟩ := exists_common_voter hsize hP hP' (hleader _ _ P hprepares)
      (hleader _ _ P' hprepares') hcardP hcardP'
    obtain ⟨m, hm, hmtype, hseq, hview, hreq, hfrom⟩ := hprepares y hy
    obtain ⟨m', hm', hmtype', hseq', hview', hreq', hfrom'⟩ := hprepares' y hy'
    have hsame := inv.once m m' hm hm' (.inl hmtype) (.inl hmtype') (hfrom.trans hfrom'.symm)
      (hseq.trans hseq'.symm) (hview.trans hview'.symm)
    rw [← hreq', ← hreq, hsame]
  | succ v' hv ih =>
    obtain ⟨⟨m, hm, htype, rfl, hview, rfl, hfrom⟩, P, hP, hcardP, hprepares⟩ := h'
    rcases (inv.proposals m hm htype).2 (by rw [hview]; exact hfrom) with hled | ⟨u, hu, hprepared⟩
    · -- neither the leader nor a replica that prepares has committed before
      have hleaderC : cfg.leaderFor (v' + 1) ∉ C := by
        intro hmem
        obtain ⟨c, hc, hctype, hcseq, hcview, -, hcfrom⟩ := hcommits _ hmem
        have := hled c hc hctype (hcfrom.trans hfrom.symm) hcseq
        omega
      obtain ⟨z, hz, hz'⟩ := exists_common_voter hsize hC hP hleaderC (hleader _ _ P hprepares) hcardC hcardP
      obtain ⟨c, hc, hctype, hcseq, hcview, -, hcfrom⟩ := hcommits z hz
      obtain ⟨y, hy, hytype, hyseq, hyview, -, hyfrom⟩ := hprepares z hz'
      have := inv.commitLast y c hy hc hytype hctype (hyfrom.trans hcfrom.symm) (hyseq.trans hcseq.symm)
      omega
    · obtain rfl : u = v' := by omega
      exact ih _ hprepared

/-- Without faults any two replicas have confirmed the same request where both have confirmed one, unless
they are among three and a view has changed. -/
theorem CertInv.confirmed_unique (inv : CertInv cfg sys) (votes : VoteInv cfg sys)
    (hfree : ∀ q, cfg.Honest q) (hsize : cfg.committee.size ≠ 3 ∨ ∀ q, (sys.peers q).view = 0)
    {x y : InterfaceId} {n : Nat} {req req' : ClientRequest}
    (h : (sys.peers x).confirmedTrans[n]? = some req) (h' : (sys.peers y).confirmedTrans[n]? = some req') :
    req = req' := by
  -- a quorum of commits rests on a certificate
  have hprepared : ∀ {v req}, Backed cfg sys .commit v n req →
      Prepared cfg sys v n req ∧ ∃ q, v ≤ (sys.peers q).view := by
    rintro v req ⟨C, -, hcard, hcommits⟩
    obtain ⟨z, hz⟩ := Finset.card_pos.mp (Nat.zero_lt_of_lt hcard)
    obtain ⟨c, hc, htype, rfl, rfl, rfl, -⟩ := hcommits z hz
    obtain ⟨hle, hprepared⟩ := inv.commits c hc htype
    exact ⟨hprepared, c.fromId, hle⟩
  obtain ⟨v, hbacked⟩ := votes.decided x (hfree x) n req h
  obtain ⟨v', hbacked'⟩ := votes.decided y (hfree y) n req' h'
  obtain ⟨hp, q, hq⟩ := hprepared hbacked
  obtain ⟨hp', q', hq'⟩ := hprepared hbacked'
  rcases hsize with hsize | hfirst
  · rcases Nat.le_total v v' with hv | hv
    · exact (inv.locked hsize hbacked v' hv req' hp').symm
    · exact inv.locked hsize hbacked' v hv req hp
  · -- both certificates are for the one proposal of the first leader
    obtain rfl : v = 0 := Nat.le_zero.mp (hfirst q ▸ hq)
    obtain rfl : v' = 0 := Nat.le_zero.mp (hfirst q' ▸ hq')
    obtain ⟨m, hm, htype, hseq, hview, rfl, hfrom⟩ := hp.1
    obtain ⟨m', hm', htype', hseq', hview', rfl, hfrom'⟩ := hp'.1
    rw [inv.once m m' hm hm' (.inr ⟨htype, hview⟩) (.inr ⟨htype', hview'⟩) (hfrom.trans hfrom'.symm)
      (hseq.trans hseq'.symm) (hview.trans hview'.symm)]

end System

end Quantas.Pbft
