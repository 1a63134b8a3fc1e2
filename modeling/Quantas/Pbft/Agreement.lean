import Quantas.Lib.Quorum
import Quantas.Pbft.Outcome
import Quantas.Pbft.System

/-!
# PBFT: agreement

A replica without a fault sends one commit for each sequence number, as long as it leaves the commit phase
by a decision only (`VoteInv`): then two commit quorums, which share such a replica, are for one request.
But a replica that waits for commits also leaves on a timeout, and its view change keeps quiet about the
request that it has committed, because `preparedProof` stops before the sequence number in flight.
-/

namespace Quantas.Pbft

namespace Config
variable (cfg : Config)

def f : Nat := (cfg.committee.size - 1) / 3

def quorum : Nat := 2 * cfg.f

def leaderFor (v : Nat) : InterfaceId :=
  cfg.committee.members.getD (v % cfg.committee.members.length) NO_PEER_ID

def Honest (p : InterfaceId) : Prop := cfg.fault p = none

instance (p : InterfaceId) : Decidable (cfg.Honest p) := inferInstanceAs (Decidable (_ = _))

end Config

namespace System

def Sent (sys : System) (m : Message) : Prop := ∃ pkt ∈ sys.sent, pkt.message = m

/-- More than a quorum of members have sent messages of one type for one request. -/
def Backed (cfg : Config) (sys : System) (type : PhaseType) (v n : Nat) (r : ClientRequest) : Prop :=
  ∃ S : Finset InterfaceId, S ⊆ cfg.committee.members.toFinset ∧ cfg.quorum < S.card ∧
    ∀ z ∈ S, ∃ m, Sent sys (.phase m) ∧ m.messageType = type ∧ m.seqNum = n ∧ m.view = v ∧ m.request = r ∧
      m.fromId = z

/-- Two different requests that were sent have different digests. -/
def DigestsDiffer (cfg : Config) (sys : System) : Prop :=
  ∀ m m', Sent sys (.phase m) → Sent sys (.phase m') → cfg.digestOf m.request = cfg.digestOf m'.request →
    m.request = m'.request

variable {cfg : Config} {sys : System} {p : InterfaceId} {r : Local}

theorem DigestsDiffer.of_injective (h : Function.Injective cfg.digestOf) : DigestsDiffer cfg sys :=
  fun _ _ _ _ hdigest => h hdigest

theorem Sent.after {m : Message} (h : Sent sys m) : Sent (sys.after p r) m := by
  obtain ⟨pkt, hpkt, hmessage⟩ := h
  exact ⟨pkt, List.mem_append_left _ hpkt, hmessage⟩

theorem Backed.after {type : PhaseType} {v n : Nat} {req : ClientRequest}
    (h : Backed cfg sys type v n req) : Backed cfg (sys.after p r) type v n req := by
  obtain ⟨S, hS, hcard, hsent⟩ := h
  refine ⟨S, hS, hcard, fun z hz => ?_⟩
  obtain ⟨m, hm, hrest⟩ := hsent z hz
  exact ⟨m, hm.after, hrest⟩

theorem DigestsDiffer.of_step {e : Event} {sys' : System} (hstep : (machine cfg).step sys e = some sys')
    (h : DigestsDiffer cfg sys') : DigestsDiffer cfg sys := by
  intro m m' hm hm'
  rcases step_cases hstep with ⟨-, rfl⟩ | ⟨p, pkt, -, -, -, -, -, rfl⟩ | ⟨p, -, -, rfl⟩
  · exact h m m' hm hm'
  · exact h m m' hm.after hm'.after
  · exact h m m' hm.after hm'.after

theorem sent_after {ms : List Message} (houtbox : r.outbox = ms.flatMap (packets (sys.ctx cfg p)))
    {m : Message} (h : Sent (sys.after p r) m) :
    Sent sys m ∨ (∃ m' ∈ ms, m.fromId = m'.fromId) ∧ (cfg.Honest p → m ∈ ms) := by
  obtain ⟨pkt, hpkt, rfl⟩ := h
  rcases List.mem_append.mp hpkt with hpkt | hpkt
  · exact .inl ⟨pkt, hpkt, rfl⟩
  · rw [houtbox, List.mem_flatMap] at hpkt
    obtain ⟨m', hm', hmem⟩ := hpkt
    refine .inr ⟨⟨m', hm', (of_mem_packets hmem).2⟩, fun hhonest => ?_⟩
    obtain ⟨-, -, heq⟩ := (mem_packets_of_no_fault (sys.ctx cfg p) hhonest).mp hmem
    exact heq ▸ hm'

theorem sent_of_mem {ms : List Message} (houtbox : r.outbox = ms.flatMap (packets (sys.ctx cfg p)))
    (hp : p ∈ cfg.committee.members) (hhonest : cfg.Honest p) {m : Message} (hm : m ∈ ms) :
    Sent (sys.after p r) m := by
  refine ⟨⟨p, p, m⟩, List.mem_append_right _ ?_, rfl⟩
  rw [houtbox, List.mem_flatMap]
  exact ⟨m, hm, (mem_packets_of_no_fault (sys.ctx cfg p) hhonest).mpr ⟨rfl, hp, rfl⟩⟩

theorem sent_of_other {ms : List Message} (houtbox : r.outbox = ms.flatMap (packets (sys.ctx cfg p)))
    (hfrom : ∀ m ∈ ms, ∀ z, m.fromId = some z → z = p) {m : PhaseMessage}
    (hm : Sent (sys.after p r) (.phase m)) (hne : m.fromId ≠ p) : Sent sys (.phase m) := by
  rcases sent_after houtbox hm with hm | ⟨⟨m', hm', heq⟩, -⟩
  · exact hm
  · exact absurd (hfrom m' hm' m.fromId heq.symm) hne

theorem wire_after {ms : List Message} (houtbox : r.outbox = ms.flatMap (packets (sys.ctx cfg p)))
    (hfrom : ∀ m ∈ ms, ∀ z, m.fromId = some z → z = p) (hp : p ∈ cfg.committee.members)
    (hwire : ∀ m, Sent sys m → ∀ z, m.fromId = some z → z ∈ cfg.committee.members) :
    ∀ m, Sent (sys.after p r) m → ∀ z, m.fromId = some z → z ∈ cfg.committee.members := by
  intro m hm z hz
  rcases sent_after houtbox hm with hm | ⟨⟨m', hm', heq⟩, -⟩
  · exact hwire m hm z hz
  · exact hfrom m' hm' z (heq ▸ hz) ▸ hp

theorem heard_after {ms : List Message} (houtbox : r.outbox = ms.flatMap (packets (sys.ctx cfg p)))
    (hp : p ∈ cfg.committee.members)
    (hlog : ∀ m ∈ r.receivedMessages, m ∈ (sys.peers p).receivedMessages ∨ Sent sys m ∨ m ∈ ms)
    (hheard : ∀ x, cfg.Honest x → ∀ m ∈ (sys.peers x).receivedMessages, Sent sys m) :
    ∀ x, cfg.Honest x → ∀ m ∈ ((sys.after p r).peers x).receivedMessages, Sent (sys.after p r) m := by
  intro x hx m hm
  by_cases hxp : x = p
  · subst hxp
    rw [after_self] at hm
    rcases hlog m hm with hm | hm | hm
    · exact (hheard x hx m hm).after
    · exact hm.after
    · exact sent_of_mem houtbox hp hx hm
  · rw [after_other hxp] at hm
    exact (hheard x hx m hm).after

/-! ## The invariant -/

/-- What has been sent and heard, and the commits of replicas without a fault. -/
structure VoteInv (cfg : Config) (sys : System) : Prop where
  wire : ∀ m, Sent sys m → ∀ z, m.fromId = some z → z ∈ cfg.committee.members
  heard : ∀ x, cfg.Honest x → ∀ m ∈ (sys.peers x).receivedMessages, Sent sys m
  committed : ∀ m, Sent sys (.phase m) → m.messageType = .commit → cfg.Honest m.fromId →
    m.seqNum < (sys.peers m.fromId).confirmedTrans.length ∨
      m.seqNum = (sys.peers m.fromId).confirmedTrans.length ∧ (sys.peers m.fromId).phase = .commit
  once : ∀ m m', Sent sys (.phase m) → Sent sys (.phase m') → m.messageType = .commit →
    m'.messageType = .commit → cfg.Honest m.fromId → m.fromId = m'.fromId → m.seqNum = m'.seqNum → m = m'
  decided : ∀ x, cfg.Honest x → ∀ n req, (sys.peers x).confirmedTrans[n]? = some req →
    ∃ v, Backed cfg sys .commit v n req

/-- The ways in which a step of a replica without a fault bears on its commits: it does not commit and
stays in the commit phase, or it commits and enters it, or it decides. -/
def VoteStep (cfg : Config) (sys : System) (s : PBFTConsensus) (r : Local) (ms : List Message) : Prop :=
  ((∀ m, .phase m ∈ ms → m.messageType ≠ .commit) ∧ r.confirmedTrans = s.confirmedTrans ∧
    (s.phase = .commit → r.phase = .commit)) ∨
  (∃ m : PhaseMessage, m.seqNum = s.confirmedTrans.length ∧ ms = [.phase m] ∧ s.phase ≠ .commit ∧
    r.phase = .commit ∧ r.confirmedTrans = s.confirmedTrans) ∨
  ((∀ m, .phase m ∈ ms → m.messageType ≠ .commit) ∧ ∃ req v,
    r.confirmedTrans = s.confirmedTrans ++ [req] ∧ Backed cfg sys .commit v s.confirmedTrans.length req)

theorem VoteInv.after (inv : VoteInv cfg sys) (hp : p ∈ cfg.committee.members) (ms : List Message)
    (houtbox : r.outbox = ms.flatMap (packets (sys.ctx cfg p)))
    (hfrom : ∀ m ∈ ms, ∀ z, m.fromId = some z → z = p)
    (hlog : ∀ m ∈ r.receivedMessages, m ∈ (sys.peers p).receivedMessages ∨ Sent sys m ∨ m ∈ ms)
    (hvote : cfg.Honest p → VoteStep cfg sys (sys.peers p) r ms) : VoteInv cfg (sys.after p r) := by
  have hold : ∀ m, Sent (sys.after p r) (.phase m) → m.fromId ≠ p → Sent sys (.phase m) :=
    fun _ hm hne => sent_of_other houtbox hfrom hm hne
  refine ⟨?wire, ?heard, ?committed, ?once, ?decided⟩
  case wire => exact wire_after houtbox hfrom hp inv.wire
  case heard => exact heard_after houtbox hp hlog inv.heard
  case committed =>
    intro m hm htype hhonest
    by_cases hmp : m.fromId = p
    swap
    · rw [after_other hmp]
      exact inv.committed m (hold m hm hmp) htype hhonest
    rw [hmp, after_self]
    have hp' : cfg.Honest p := hmp ▸ hhonest
    have hcommitted : Sent sys (.phase m) → m.seqNum < (sys.peers p).confirmedTrans.length ∨
        m.seqNum = (sys.peers p).confirmedTrans.length ∧ (sys.peers p).phase = .commit := by
      intro hm
      have h := inv.committed m hm htype hhonest
      rwa [hmp] at h
    rcases hvote hp' with ⟨hno, hsame, hphase⟩ | ⟨m', hseq, rfl, hphase, hphase', hsame⟩ |
      ⟨hno, req, v, hconfirmed, -⟩
    · rw [hsame]
      rcases sent_after houtbox hm with hm | ⟨-, hmem⟩
      · exact (hcommitted hm).imp_right fun h => ⟨h.1, hphase h.2⟩
      · exact absurd htype (hno m (hmem hp'))
    · rw [hsame]
      rcases sent_after houtbox hm with hm | ⟨-, hmem⟩
      · exact .inl ((hcommitted hm).resolve_right fun h => hphase h.2)
      · have heq := List.mem_singleton.mp (hmem hp')
        rw [Message.phase.injEq] at heq
        exact .inr ⟨heq ▸ hseq, hphase'⟩
    · rw [hconfirmed, List.length_append, List.length_singleton]
      rcases sent_after houtbox hm with hm | ⟨-, hmem⟩
      · rcases hcommitted hm with h | ⟨h, -⟩ <;> left <;> omega
      · exact absurd htype (hno m (hmem hp'))
  case once =>
    intro m m' hm hm' htype htype' hhonest hsame hseq
    by_cases hmp : m.fromId = p
    swap
    · exact inv.once m m' (hold m hm hmp) (hold m' hm' (hsame ▸ hmp)) htype htype' hhonest hsame hseq
    have hp' : cfg.Honest p := hmp ▸ hhonest
    have hmp' : m'.fromId = p := hsame ▸ hmp
    -- a new commit is for the sequence number in flight, which has no old one
    have hnew : ∀ m₁, .phase m₁ ∈ ms → m₁.messageType = .commit → ms = [.phase m₁] ∧
        ∀ m₀, Sent sys (.phase m₀) → m₀.messageType = .commit → m₀.fromId = p → m₀.seqNum ≠ m₁.seqNum := by
      intro m₁ hm₁ htype₁
      rcases hvote hp' with ⟨hno, -, -⟩ | ⟨m', hseq', rfl, hphase, -, -⟩ | ⟨hno, -, -, -, -⟩
      · exact absurd htype₁ (hno m₁ hm₁)
      · obtain rfl : m₁ = m' := by simpa using hm₁
        refine ⟨rfl, fun m₀ hm₀ htype₀ hfrom₀ heq => ?_⟩
        have hcommitted := inv.committed m₀ hm₀ htype₀ (hfrom₀ ▸ hp')
        rw [hfrom₀, heq, hseq'] at hcommitted
        rcases hcommitted with h | ⟨-, h⟩
        · omega
        · exact hphase h
      · exact absurd htype₁ (hno m₁ hm₁)
    rcases sent_after houtbox hm with hm | ⟨-, hmem⟩ <;> rcases sent_after houtbox hm' with hm' | ⟨-, hmem'⟩
    · exact inv.once m m' hm hm' htype htype' hhonest hsame hseq
    · exact absurd hseq ((hnew m' (hmem' hp') htype').2 m hm htype hmp)
    · exact absurd hseq.symm ((hnew m (hmem hp') htype).2 m' hm' htype' hmp')
    · have h := (hnew m (hmem hp') htype).1 ▸ hmem' hp'
      simpa using (List.mem_singleton.mp h).symm
  case decided =>
    intro x hx n req hreq
    by_cases hxp : x = p
    swap
    · rw [after_other hxp] at hreq
      obtain ⟨v, hbacked⟩ := inv.decided x hx n req hreq
      exact ⟨v, hbacked.after⟩
    subst hxp
    rw [after_self] at hreq
    have hbefore : (sys.peers x).confirmedTrans[n]? = some req →
        ∃ v, Backed cfg (sys.after x r) .commit v n req := by
      intro hreq
      obtain ⟨v, hbacked⟩ := inv.decided x hx n req hreq
      exact ⟨v, hbacked.after⟩
    rcases hvote hx with ⟨-, hsame, -⟩ | ⟨-, -, -, -, -, hsame⟩ | ⟨-, req', v, hconfirmed, hbacked⟩
    · exact hbefore (hsame ▸ hreq)
    · exact hbefore (hsame ▸ hreq)
    · rw [hconfirmed, List.getElem?_append] at hreq
      split_ifs at hreq with hn
      · exact hbefore hreq
      · rw [List.getElem?_singleton] at hreq
        split_ifs at hreq with hn'
        obtain rfl := Option.some.inj hreq
        obtain rfl : n = (sys.peers x).confirmedTrans.length := by omega
        exact ⟨v, hbacked.after⟩

/-! ## The steps -/

/-- The step that agreement cannot bear: a replica without a fault times out in its commit phase. -/
def CommitInTime (cfg : Config) (sys : System) : Event → Prop
  | .call p => cfg.Honest p → (sys.peers p).phase = .commit → sys.round ≤ (sys.peers p).viewChangeTimer
  | _ => True

instance (cfg : Config) (sys : System) : (e : Event) → Decidable (CommitInTime cfg sys e)
  | .call _ => inferInstanceAs (Decidable (_ → _ → _))
  | .nextRound => .isTrue trivial
  | .receive .. => .isTrue trivial

theorem outcome_fromId {ctx : Ctx} {s r : Local} {ms : List Message} (h : Outcome ctx s r ms) :
    ∀ m ∈ ms, ∀ z, m.fromId = some z → z = ctx.self := by
  intro m hm z hz
  cases h with
  | idle => cases hm
  | viewChange vc _ _ _ _ _ _ hfrom =>
    obtain rfl := List.mem_singleton.mp hm
    exact (Option.some.inj hz).symm.trans hfrom
  | proposeFirst =>
    obtain rfl := List.mem_singleton.mp hm
    exact (Option.some.inj hz).symm
  | proposeOwn =>
    rcases List.mem_cons.mp hm with rfl | hm
    · cases hz
    · obtain rfl := List.mem_singleton.mp hm
      exact (Option.some.inj hz).symm
  | prepare =>
    obtain rfl := List.mem_singleton.mp hm
    exact (Option.some.inj hz).symm
  | commit =>
    obtain rfl := List.mem_singleton.mp hm
    exact (Option.some.inj hz).symm
  | decide _ _ _ _ _ _ _ _ _ _ hms =>
    obtain ⟨c, rfl, hfrom⟩ := hms m hm
    exact (Option.some.inj hz).symm.trans hfrom
  | enterNewView _ _ _ _ hms =>
    obtain ⟨nv, rfl, hfrom, -⟩ := hms m hm
    exact (Option.some.inj hz).symm.trans hfrom
  | install =>
    obtain ⟨pp, -, rfl⟩ := List.mem_map.mp hm
    exact (Option.some.inj hz).symm

theorem backed_of_voted (hwire : ∀ m, Sent sys m → ∀ z, m.fromId = some z → z ∈ cfg.committee.members)
    (hheard : ∀ m ∈ (sys.peers p).receivedMessages, Sent sys m) {type : PhaseType} {v n : Nat}
    {req : ClientRequest}
    (hdigest : ∀ m, Sent sys (.phase m) → cfg.digestOf m.request = cfg.digestOf req → m.request = req)
    (h : Voted (sys.ctx cfg p) (· ∈ (sys.peers p).receivedMessages) type v n (cfg.digestOf req)) :
    Backed cfg sys type v n req := by
  obtain ⟨S, hS, hvotes⟩ := h
  refine ⟨S, fun z hz => ?_, hS, fun z hz => ?_⟩
  all_goals obtain ⟨m, hm, htype, hseq, hview, hsame, hfrom⟩ := hvotes z hz
  · exact List.mem_toFinset.mpr (hwire _ (hheard _ hm) z (congrArg some hfrom))
  · exact ⟨m, hheard _ hm, htype, hseq, hview, hdigest m (hheard _ hm) hsame, hfrom⟩

theorem VoteInv.backed_of_voted (inv : VoteInv cfg sys) (hdiffer : DigestsDiffer cfg sys) (hp : cfg.Honest p)
    {type : PhaseType} {v n : Nat} {pp : PhaseMessage} (hpp : .phase pp ∈ (sys.peers p).receivedMessages)
    (h : Voted (sys.ctx cfg p) (· ∈ (sys.peers p).receivedMessages) type v n (cfg.digestOf pp.request)) :
    Backed cfg sys type v n pp.request :=
  System.backed_of_voted inv.wire (inv.heard p hp) (fun m hm => hdiffer m pp hm (inv.heard p hp _ hpp)) h

theorem VoteInv.voteStep (inv : VoteInv cfg sys) (hdiffer : DigestsDiffer cfg sys)
    (hp : cfg.Honest p) (htimer : (sys.peers p).phase = .commit → sys.round ≤ (sys.peers p).viewChangeTimer)
    {ms : List Message} (h : Outcome (sys.ctx cfg p) (sys.start p) r ms) :
    VoteStep cfg sys (sys.peers p) r ms := by
  cases h with
  | idle hkept hphase => exact .inl ⟨by simp, hkept.confirmedTrans, fun h => hphase.trans h⟩
  | viewChange vc hlate _ _ hconfirmed =>
    exact .inl ⟨by simp, hconfirmed, fun h => absurd (hlate.of_commit h) (not_lt.mpr (htimer h))⟩
  | proposeFirst _ _ _ hkept hphase =>
    refine .inl ⟨by simp, hkept.confirmedTrans, fun h => ?_⟩
    cases hphase.symm.trans h
  | proposeOwn _ hphase _ _ _ hconfirmed =>
    refine .inl ⟨by simp, hconfirmed, fun h => ?_⟩
    cases hphase.symm.trans h
  | prepare pp hkept hphase =>
    refine .inl ⟨by simp, hkept.confirmedTrans, fun h => ?_⟩
    cases hphase.symm.trans h
  | commit pp hkept hphase hphase' hpp =>
    refine .inr (.inl ⟨{ pp with messageType := .commit, fromId := p }, hpp.seqNum, rfl, fun h => ?_,
      hphase', hkept.confirmedTrans⟩)
    cases hphase.symm.trans h
  | decide pp ms _ _ _ hpp hconfirmed _ _ hvoted hms =>
    refine .inr (.inr ⟨fun m hm => ?_, pp.request, _, hconfirmed, inv.backed_of_voted hdiffer hp hpp.log hvoted⟩)
    obtain ⟨c, hc, -⟩ := hms _ hm
    cases hc
  | enterNewView ms hkept hphase _ hms =>
    refine .inl ⟨fun m hm => ?_, hkept.confirmedTrans, fun h => ?_⟩
    · obtain ⟨nv, hnv, -⟩ := hms _ hm
      cases hnv
    · cases hphase.symm.trans h
  | install nv hkept hphase =>
    refine .inl ⟨fun m hm => ?_, hkept.confirmedTrans, fun h => ?_⟩
    · obtain ⟨pp, -, hm⟩ := List.mem_map.mp hm
      cases hm
      simp
    · cases hphase.symm.trans h

theorem voteInv_initial : VoteInv cfg initial where
  wire := fun _ ⟨_, hpkt, _⟩ => absurd hpkt List.not_mem_nil
  heard := fun _ _ _ hm => absurd hm List.not_mem_nil
  committed := fun _ ⟨_, hpkt, _⟩ => absurd hpkt List.not_mem_nil
  once := fun _ _ ⟨_, hpkt, _⟩ => absurd hpkt List.not_mem_nil
  decided := fun _ _ _ _ hreq => by cases hreq

theorem VoteInv.call (inv : VoteInv cfg sys) (hdiffer : DigestsDiffer cfg sys)
    (hp : p ∈ cfg.committee.members) (htimer : CommitInTime cfg sys (.call p)) :
    VoteInv cfg (sys.after p (Pbft.call (sys.ctx cfg p) (sys.start p)).1) := by
  obtain ⟨ms, hemits, houtcome⟩ := call_steps (sys.ctx cfg p) (sys.start p)
  refine inv.after hp ms (by rw [hemits.outbox]; rfl) (outcome_fromId houtcome) (fun m hm => ?_)
    fun hhonest => inv.voteStep hdiffer hhonest (htimer hhonest) houtcome
  exact (hemits.log m hm).imp_right .inr

theorem VoteInv.receive (inv : VoteInv cfg sys) (hp : p ∈ cfg.committee.members) {pkt : Packet Message}
    (hpkt : pkt ∈ sys.sent) :
    VoteInv cfg (sys.after p (onMessage (sys.ctx cfg p) pkt.message (sys.start p))) := by
  obtain ⟨-, hconfirmed, hphase, houtbox, -, hlog, -⟩ :=
    onMessage_same (sys.ctx cfg p) pkt.message (sys.start p)
  refine inv.after hp [] houtbox (by simp) (fun m hm => ?_)
    fun _ => .inl ⟨by simp, hconfirmed, fun h => hphase.trans h⟩
  exact (hlog m hm).imp_right fun h => .inl ⟨pkt, hpkt, h.symm⟩

theorem voteInv_of_reached (hinj : Function.Injective cfg.digestOf)
    (h : (machine cfg).ReachedUnder (CommitInTime cfg) sys) : VoteInv cfg sys := by
  refine h.invariant (fun sys hsys => ?_) ?_
  · rw [show sys = initial from hsys]
    exact voteInv_initial
  · intro sys e sys' inv hguard hstep
    rcases step_cases hstep with ⟨-, rfl⟩ | ⟨p, pkt, rfl, hp, hpkt, -, -, rfl⟩ | ⟨p, rfl, hp, rfl⟩
    · exact ⟨inv.wire, inv.heard, inv.committed, inv.once, inv.decided⟩
    · exact inv.receive hp hpkt
    · exact inv.call (.of_injective hinj) hp hguard

theorem exists_honest_voter {k : Nat} (hsize : cfg.committee.size = 3 * k + 1)
    (hfaulty : (cfg.committee.members.toFinset.filter fun p => ¬ cfg.Honest p).card ≤ k)
    {S S' : Finset InterfaceId} (hS : S ⊆ cfg.committee.members.toFinset)
    (hS' : S' ⊆ cfg.committee.members.toFinset) (hcard : cfg.quorum < S.card)
    (hcard' : cfg.quorum < S'.card) : ∃ z ∈ S, z ∈ S' ∧ cfg.Honest z := by
  have hquorum : cfg.quorum = 2 * k := by
    rw [Config.quorum, Config.f, hsize]
    omega
  have hlarge : cfg.committee.members.toFinset.card +
      (cfg.committee.members.toFinset.filter fun p => ¬ cfg.Honest p).card < S.card + S'.card := by
    rw [cfg.committee.card_toFinset, hsize]
    omega
  obtain ⟨z, hz, hz', hhonest⟩ := Lib.exists_mem_inter_notMem hS hS' hlarge
  rw [Finset.mem_filter, not_and, not_not] at hhonest
  exact ⟨z, hz, hz', hhonest (hS hz)⟩

theorem VoteInv.backed_unique (inv : VoteInv cfg sys) {k : Nat} (hsize : cfg.committee.size = 3 * k + 1)
    (hfaulty : (cfg.committee.members.toFinset.filter fun p => ¬ cfg.Honest p).card ≤ k) {v v' n : Nat}
    {req req' : ClientRequest} (h : Backed cfg sys .commit v n req) (h' : Backed cfg sys .commit v' n req') :
    req = req' := by
  obtain ⟨S, hS, hcard, hvotes⟩ := h
  obtain ⟨S', hS', hcard', hvotes'⟩ := h'
  obtain ⟨z, hz, hz', hhonest⟩ := exists_honest_voter hsize hfaulty hS hS' hcard hcard'
  obtain ⟨m, hm, htype, hseq, -, rfl, hfrom⟩ := hvotes z hz
  obtain ⟨m', hm', htype', hseq', -, rfl, hfrom'⟩ := hvotes' z hz'
  rw [inv.once m m' hm hm' htype htype' (hfrom ▸ hhonest) (hfrom.trans hfrom'.symm)
    (hseq.trans hseq'.symm)]

theorem prefix_or_prefix {α : Type*} {l l' : List α}
    (h : ∀ (n : Nat) (a a' : α), l[n]? = some a → l'[n]? = some a' → a = a') : l <+: l' ∨ l' <+: l := by
  rcases Nat.le_total l.length l'.length with hlen | hlen
  · refine .inl (List.prefix_iff_getElem?.mpr fun n hn => ?_)
    rw [List.getElem?_eq_getElem (hn.trans_le hlen), h n _ _ (List.getElem?_eq_getElem hn)
      (List.getElem?_eq_getElem (hn.trans_le hlen))]
  · refine .inr (List.prefix_iff_getElem?.mpr fun n hn => ?_)
    rw [List.getElem?_eq_getElem (hn.trans_le hlen), h n _ _ (List.getElem?_eq_getElem (hn.trans_le hlen))
      (List.getElem?_eq_getElem hn)]

/-- **Agreement.** A committee of `3k + 1` replicas, at most `k` of them with a fault, and a run in which no
replica without a fault times out in its commit phase: of the confirmed requests of any two replicas without
a fault one list is a prefix of the other. -/
theorem agreement (hinj : Function.Injective cfg.digestOf) (k : Nat)
    (hsize : cfg.committee.size = 3 * k + 1)
    (hfaulty : (cfg.committee.members.toFinset.filter fun p => ¬ cfg.Honest p).card ≤ k)
    (h : (machine cfg).ReachedUnder (CommitInTime cfg) sys) (x y : InterfaceId) (hx : cfg.Honest x)
    (hy : cfg.Honest y) :
    (sys.peers x).confirmedTrans <+: (sys.peers y).confirmedTrans ∨
      (sys.peers y).confirmedTrans <+: (sys.peers x).confirmedTrans := by
  have inv := voteInv_of_reached hinj h
  apply prefix_or_prefix
  intro n req req' hreq hreq'
  obtain ⟨v, hbacked⟩ := inv.decided x hx n req hreq
  obtain ⟨v', hbacked'⟩ := inv.decided y hy n req' hreq'
  exact inv.backed_unique hsize hfaulty hbacked hbacked'

/-! ## Two runs -/

def unaryDigest (r : ClientRequest) : String :=
  String.ofList (List.replicate r.requestId 'i' ++ List.replicate r.roundSubmitted 'r' ++
    List.replicate r.submitterId.toNat 's' ++ List.replicate (-r.submitterId).toNat 'n' ++
    List.replicate r.faultFlip.toNat 'f')

theorem unaryDigest_injective : Function.Injective unaryDigest := by
  rintro ⟨id, submitter, round, flip⟩ ⟨id', submitter', round', flip'⟩ h
  have hlist := congrArg String.toList h
  simp only [unaryDigest, String.toList_ofList] at hlist
  have hcount := fun c => congrArg (List.count c) hlist
  have hid := hcount 'i'
  have hround := hcount 'r'
  have hpositive := hcount 's'
  have hnegative := hcount 'n'
  have hflip := hcount 'f'
  simp [List.count_replicate] at hid hround hpositive hnegative hflip
  have hsubmitter : submitter = submitter' := by
    have hneg : ∀ i j : Int, i.toNat = j.toNat → (-i).toNat = (-j).toNat → i = j := by omega
    exact hneg _ _ hpositive hnegative
  have hflip' : flip = flip' := by
    cases flip <;> cases flip' <;> first | rfl | cases hflip
  rw [hid, hround, hsubmitter, hflip']

def committeeOf (n : Nat) (fault : InterfaceId → Option EquivocateFault) : Config where
  committee := .ofSize n
  fault := fault
  digestOf := unaryDigest
  computeStateDigest := fun rs => String.join (rs.map unaryDigest)

/-- `p` takes a message from each of the sources, and makes `calls` calls. -/
def visit (p : InterfaceId) (sources : List InterfaceId) (msg : InterfaceId → Message) (calls : Nat) :
    List Event :=
  ((sources.filter (· ≠ p)).map fun q => .receive p ⟨q, p, msg q⟩) ++ List.replicate calls (.call p)

/-- The three exchanges by which a request is prepared, committed and decided. -/
def exchange (n v : Nat) (req : ClientRequest) (leader : InterfaceId)
    (preparers committers deciders : List InterfaceId) : List Event :=
  (preparers.flatMap fun p => visit p [leader] (fun q => .phase ⟨.prePrepare, n, v, req, v, q⟩) 2) ++
  (committers.flatMap fun p => visit p preparers (fun q => .phase ⟨.prepare, n, v, req, v, q⟩) 2) ++
  (deciders.flatMap fun p => visit p committers (fun q => .phase ⟨.commit, n, v, req, v, q⟩) 2)

/-- The view change from `v` to the next view, with nothing to carry over. -/
def changeView (v : Nat) (leader : InterfaceId) (movers : List InterfaceId) : List Event :=
  movers.map .call ++
  (movers.flatMap fun p => visit p movers (fun q => .viewChange ⟨0, v + 1, v, 0, [], q⟩) 1) ++
  (movers.flatMap fun p => visit p [leader] (fun q => .newView ⟨0, v + 1, 0, [], q⟩) 2)

def fourWithEquivocator : Config :=
  committeeOf 4 fun p => if p = 3 then some ⟨[0, 2], [1, 3]⟩ else none

/-- Replicas 0 and 2 decide the request of replica 0, and replica 1 hears too little. -/
def equivocatorOutvoted : List Event := .call 0 :: exchange 0 0 ⟨0, 0, 0, false⟩ 0 [1, 2, 3] [0, 2, 3] [0, 2]

theorem agreement_equivocatorOutvoted :
    ∃ sys, (machine fourWithEquivocator).ReachedUnder (CommitInTime fourWithEquivocator) sys ∧
      (sys.peers 0).confirmedTrans = [⟨0, 0, 0, false⟩] ∧
      ((sys.peers 0).confirmedTrans <+: (sys.peers 1).confirmedTrans ∨
        (sys.peers 1).confirmedTrans <+: (sys.peers 0).confirmedTrans) := by
  have hrun : ((machine fourWithEquivocator).runUnder (CommitInTime fourWithEquivocator) initial
      equivocatorOutvoted).map (fun sys => (sys.peers 0).confirmedTrans) = some [⟨0, 0, 0, false⟩] := by
    decide +kernel
  obtain ⟨sys, hsys, hconfirmed⟩ := Option.map_eq_some_iff.mp hrun
  have hreached := Lib.Machine.reachedUnder_of_runUnder (.start rfl) hsys
  exact ⟨sys, hreached, hconfirmed, agreement unaryDigest_injective 1 (by decide) (by decide) hreached 0 1
    (by decide) (by decide)⟩

def sevenReplicas : Config := committeeOf 7 fun _ => none

/-- Replica 0 decides its request in view 0. The commits to the others are late, so these change to view 1,
where replica 1, which never heard of the request, leads them to decide another. -/
def commitsLate : List Event :=
  .call 0 :: exchange 0 0 ⟨0, 0, 0, false⟩ 0 [1, 2, 3, 4, 5] [0, 1, 2, 3, 4] [0] ++
  List.replicate 11 .nextRound ++ changeView 0 1 [1, 2, 3, 4, 5, 6] ++
  exchange 0 1 ⟨0, 1, 11, false⟩ 1 [2, 3, 4, 5, 6] [1, 2, 3, 4, 5] [1]

/-- A view change in the commit phase lets two replicas decide differently. -/
theorem commitsLate_disagree :
    ¬ ∀ (cfg : Config) (k : Nat) (sys : System), Function.Injective cfg.digestOf →
      cfg.committee.size = 3 * k + 1 →
      (cfg.committee.members.toFinset.filter fun p => ¬ cfg.Honest p).card ≤ k →
      (machine cfg).Reached sys → ∀ x y, cfg.Honest x → cfg.Honest y →
      (sys.peers x).confirmedTrans <+: (sys.peers y).confirmedTrans ∨
        (sys.peers y).confirmedTrans <+: (sys.peers x).confirmedTrans := by
  intro hagreement
  have hrun : ((machine sevenReplicas).run initial commitsLate).map
      (fun sys => ((sys.peers 0).confirmedTrans, (sys.peers 1).confirmedTrans)) =
        some ([⟨0, 0, 0, false⟩], [⟨0, 1, 11, false⟩]) := by
    decide +kernel
  obtain ⟨sys, hsys, hconfirmed⟩ := Option.map_eq_some_iff.mp hrun
  obtain ⟨hzero, hone⟩ := Prod.mk.inj hconfirmed
  have hreached := Lib.Machine.reached_of_run (.start rfl) hsys
  have hgrows := hagreement sevenReplicas 2 sys unaryDigest_injective (by decide) (by decide) hreached 0 1
    (by decide) (by decide)
  rw [hzero, hone] at hgrows
  exact absurd hgrows (by decide)

end System

end Quantas.Pbft
