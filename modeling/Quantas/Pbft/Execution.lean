import Quantas.Pbft.Certificates

/-!
# PBFT: executing a request once

Without faults a request is confirmed twice only if a leader proposes it again. A replica removes a request
from its queue when it decides it, but a copy that arrives later stays; nothing compares the queue with
`_confirmedTrans`. `ExecInv` says that every proposal was new to some replica when it was made.
-/

namespace Quantas.Pbft

namespace System

def Issued (sys : System) (req : ClientRequest) : Prop :=
  req.requestId < (sys.peers req.submitterId).currentClientRequestId

/-- Some replica has confirmed the sequence numbers below `n`, and the request is not among them. -/
def Fresh (sys : System) (n : Nat) (req : ClientRequest) : Prop :=
  ∃ w, n ≤ (sys.peers w).confirmedTrans.length ∧
    req.key ∉ ((sys.peers w).confirmedTrans.take n).map ClientRequest.key

structure ExecInv (sys : System) : Prop where
  sent : ∀ m, Sent sys m → ∀ req ∈ m.requests, Issued sys req
  queued : ∀ q, ∀ e ∈ (sys.peers q).unhandledRequests, Issued sys e.2
  confirmed : ∀ q, ∀ req ∈ (sys.peers q).confirmedTrans, Issued sys req
  proposals : ∀ m, Sent sys m → ∀ pp ∈ m.proposals, Fresh sys pp.seqNum pp.request
  nodup : ∀ q, ((sys.peers q).confirmedTrans.map ClientRequest.key).Nodup

/-- Replica `p` leads its view and is about to propose a request with the key of one that it has confirmed. -/
def RepeatsRequest (cfg : Config) (sys : System) (p : InterfaceId) : Prop :=
  (sys.peers p).phase = .prePrepare ∧ p = cfg.leaderFor (sys.peers p).view ∧
    sys.round ≤ (sys.peers p).viewChangeTimer ∧ ∃ e ∈ (sys.peers p).unhandledRequests.head?,
      e.2.key ∈ (sys.peers p).confirmedTrans.map ClientRequest.key

instance (cfg : Config) (sys : System) (p : InterfaceId) : Decidable (RepeatsRequest cfg sys p) :=
  inferInstanceAs (Decidable (_ ∧ _ ∧ _ ∧ _))

/-- The steps that executing once cannot bear: a timeout in the commit phase, any timeout among three replicas,
and a repeated proposal. -/
def ProposesNew (cfg : Config) (sys : System) : Event → Prop
  | .call p => CommitInTime cfg sys (.call p) ∧
      (cfg.committee.size = 3 → ¬ TimedOut (sys.ctx cfg p) (sys.peers p)) ∧ ¬ RepeatsRequest cfg sys p
  | _ => True

instance (cfg : Config) (sys : System) : (e : Event) → Decidable (ProposesNew cfg sys e)
  | .call _ => inferInstanceAs (Decidable (_ ∧ _ ∧ _))
  | .nextRound => .isTrue trivial
  | .receive .. => .isTrue trivial

theorem ProposesNew.commitInTime {cfg : Config} {sys : System} {e : Event} (h : ProposesNew cfg sys e) :
    CommitInTime cfg sys e := by
  cases e with
  | nextRound => trivial
  | receive => trivial
  | call => exact h.1

variable {cfg : Config} {sys : System} {p : InterfaceId} {r : Local}

theorem Issued.after (hnext : (sys.peers p).currentClientRequestId ≤ r.currentClientRequestId)
    {req : ClientRequest} (h : Issued sys req) : Issued (sys.after p r) req := by
  unfold Issued at h ⊢
  by_cases hsubmitter : req.submitterId = p
  · rw [hsubmitter] at h
    rw [hsubmitter, after_self]
    omega
  · rwa [after_other hsubmitter]

theorem Fresh.after (hgrows : (sys.peers p).confirmedTrans <+: r.confirmedTrans) {n : Nat}
    {req : ClientRequest} (h : Fresh sys n req) : Fresh (sys.after p r) n req := by
  obtain ⟨w, hn, hkey⟩ := h
  refine ⟨w, ?_⟩
  by_cases hw : w = p
  · subst hw
    rw [after_self]
    obtain ⟨rest, hrest⟩ := hgrows
    rw [← hrest, List.take_append_of_le_length hn, List.length_append]
    exact ⟨by omega, hkey⟩
  · rw [after_other hw]
    exact ⟨hn, hkey⟩

/-! ## One step -/

/-- The ways in which a step of a replica bears on the execution of requests. -/
structure ExecStep (sys : System) (p : InterfaceId) (r : Local) (ms : List Message) : Prop where
  next : (sys.peers p).currentClientRequestId ≤ r.currentClientRequestId
  grows : (sys.peers p).confirmedTrans <+: r.confirmedTrans
  sent : ∀ m ∈ ms, ∀ req ∈ m.requests, Issued (sys.after p r) req
  queued : ∀ e ∈ r.unhandledRequests, Issued (sys.after p r) e.2
  confirmed : ∀ req ∈ r.confirmedTrans, Issued (sys.after p r) req
  proposals : ∀ m ∈ ms, ∀ pp ∈ m.proposals, Fresh (sys.after p r) pp.seqNum pp.request
  nodup : (r.confirmedTrans.map ClientRequest.key).Nodup

theorem ExecInv.after (inv : ExecInv sys) (hfree : ∀ q, cfg.Honest q) (ms : List Message)
    (houtbox : r.outbox = ms.flatMap (packets (sys.ctx cfg p))) (hstep : ExecStep sys p r ms) :
    ExecInv (sys.after p r) := by
  have hsent : ∀ m, Sent (sys.after p r) m → Sent sys m ∨ m ∈ ms := fun m hm =>
    (sent_after houtbox hm).imp_right fun h => h.2 (hfree p)
  refine ⟨?sent, ?queued, ?confirmed, ?proposals, ?nodup⟩
  case sent =>
    intro m hm req hreq
    rcases hsent m hm with hm | hm
    · exact (inv.sent m hm req hreq).after hstep.next
    · exact hstep.sent m hm req hreq
  case queued =>
    intro q e he
    by_cases hq : q = p
    · rw [hq, after_self] at he
      exact hstep.queued e he
    · rw [after_other hq] at he
      exact (inv.queued q e he).after hstep.next
  case confirmed =>
    intro q req hreq
    by_cases hq : q = p
    · rw [hq, after_self] at hreq
      exact hstep.confirmed req hreq
    · rw [after_other hq] at hreq
      exact (inv.confirmed q req hreq).after hstep.next
  case proposals =>
    intro m hm pp hpp
    rcases hsent m hm with hm | hm
    · exact (inv.proposals m hm pp hpp).after hstep.grows
    · exact hstep.proposals m hm pp hpp
  case nodup =>
    intro q
    by_cases hq : q = p
    · rw [hq, after_self]
      exact hstep.nodup
    · rw [after_other hq]
      exact inv.nodup q

theorem ExecInv.quietStep (inv : ExecInv sys) {ms : List Message}
    (hconfirmed : r.confirmedTrans = (sys.peers p).confirmedTrans)
    (hnext : r.currentClientRequestId = (sys.peers p).currentClientRequestId)
    (hqueue : ∀ e ∈ r.unhandledRequests, e ∈ (sys.peers p).unhandledRequests ∨ Sent sys (.request e.2))
    (hsent : ∀ m ∈ ms, ∀ req ∈ m.requests, Issued sys req)
    (hproposals : ∀ m ∈ ms, ∀ pp ∈ m.proposals, Fresh sys pp.seqNum pp.request) :
    ExecStep sys p r ms where
  next := hnext.ge
  grows := by rw [hconfirmed]
  sent := fun m hm req hreq => (hsent m hm req hreq).after hnext.ge
  queued := by
    intro e he
    rcases hqueue e he with he | he
    · exact (inv.queued p e he).after hnext.ge
    · exact (inv.sent _ he e.2 (List.mem_singleton.mpr rfl)).after hnext.ge
  confirmed := fun req hreq => (inv.confirmed p req (hconfirmed ▸ hreq)).after hnext.ge
  proposals := fun m hm pp hpp => (hproposals m hm pp hpp).after (by rw [hconfirmed])
  nodup := hconfirmed ▸ inv.nodup p

theorem ExecInv.of_nextProposal (inv : ExecInv sys) (votes : VoteInv cfg sys) (hp : cfg.Honest p)
    {pp : PhaseMessage} (hpp : NextProposal (sys.start p) pp) :
    Issued sys pp.request ∧ Fresh sys (sys.peers p).confirmedTrans.length pp.request := by
  have hsent := votes.heard p hp _ hpp.log
  refine ⟨inv.sent _ hsent _ (List.mem_singleton.mpr rfl), ?_⟩
  have hfresh := inv.proposals _ hsent pp (by simp [Message.proposals, hpp.messageType])
  rwa [hpp.seqNum] at hfresh

theorem Fresh.notMem (votes : VoteInv cfg sys) (inv : CertInv cfg sys) (hfree : ∀ q, cfg.Honest q)
    (hsize : cfg.committee.size ≠ 3 ∨ ∀ q, (sys.peers q).view = 0) {req : ClientRequest}
    (h : Fresh sys (sys.peers p).confirmedTrans.length req) :
    req.key ∉ (sys.peers p).confirmedTrans.map ClientRequest.key := by
  obtain ⟨w, hlen, hkey⟩ := h
  have hsame : (sys.peers w).confirmedTrans.take (sys.peers p).confirmedTrans.length =
      (sys.peers p).confirmedTrans := by
    apply List.ext_getElem
    · rw [List.length_take]
      omega
    · intro n _ hn
      rw [List.getElem_take]
      exact inv.confirmed_unique votes hfree hsize
        (List.getElem?_eq_getElem (hn.trans_le hlen)) (List.getElem?_eq_getElem hn)
  rwa [hsame] at hkey

theorem ExecInv.execStep (inv : ExecInv sys) (votes : VoteInv cfg sys) (certs : CertInv cfg sys)
    (hfree : ∀ q, cfg.Honest q) (hsize : cfg.committee.size ≠ 3 ∨ ∀ q, (sys.peers q).view = 0)
    (hnew : ¬ RepeatsRequest cfg sys p) {ms : List Message}
    (h : Outcome (sys.ctx cfg p) (sys.start p) r ms) : ExecStep sys p r ms := by
  have hheard := votes.heard p (hfree p)
  have hqueued : ∀ e ∈ (sys.start p).unhandledRequests, e ∈ (sys.peers p).unhandledRequests ∨
      Sent sys (.request e.2) := fun e he => .inl he
  cases h with
  | idle hkept =>
    exact inv.quietStep hkept.confirmedTrans hkept.currentClientRequestId
      (hkept.unhandledRequests ▸ hqueued) (by simp) (by simp)
  | viewChange vc _ _ _ hconfirmed hqueue hnext _ _ _ hproof =>
    refine inv.quietStep hconfirmed hnext (hqueue ▸ hqueued) (fun m hm req hreq => ?_) fun m hm pp hpp => ?_
    · obtain rfl := List.mem_singleton.mp hm
      obtain ⟨pp, hpp, rfl⟩ := List.mem_map.mp hreq
      exact inv.sent _ (hheard _ (hproof pp hpp).1) _ (List.mem_singleton.mpr rfl)
    · obtain rfl := List.mem_singleton.mp hm
      exact inv.proposals _ (hheard _ (hproof pp hpp).1) pp (by simp [Message.proposals, (hproof pp hpp).2.1])
  | proposeFirst round tx rest hkept hphase _ htimer hself hqueue =>
    have hqueue' : (sys.peers p).unhandledRequests = (round, tx) :: rest := hqueue
    refine inv.quietStep hkept.confirmedTrans hkept.currentClientRequestId
      (hkept.unhandledRequests ▸ hqueued) (fun m hm req hreq => ?_) fun m hm pp hpp => ?_
    · obtain rfl := List.mem_singleton.mp hm
      obtain rfl := List.mem_singleton.mp hreq
      exact inv.queued p (round, req) (hqueue' ▸ List.mem_cons_self)
    · obtain rfl := List.mem_singleton.mp hm
      obtain rfl : pp = _ := by simpa [Message.proposals] using hpp
      refine ⟨p, le_rfl, ?_⟩
      show tx.key ∉ ((sys.peers p).confirmedTrans.take (sys.peers p).confirmedTrans.length).map _
      rw [List.take_length]
      intro hmem
      refine hnew ⟨hphase, hself, not_lt.mp htimer, (round, tx), ?_, hmem⟩
      rw [hqueue', List.head?_cons, Option.mem_some]
  | proposeOwn tx hphase _ _ _ hconfirmed htx hqueue hnext =>
    obtain ⟨hsubmitter, hid⟩ := htx
    have hsubmitter' : tx.submitterId = p := hsubmitter
    have hid' : tx.requestId = (sys.peers p).currentClientRequestId := hid
    have hnext' : r.currentClientRequestId = (sys.peers p).currentClientRequestId + 1 := hnext
    have hissued : Issued (sys.after p r) tx := by
      unfold Issued
      rw [hsubmitter', after_self, hid', hnext']
      omega
    -- the confirmed requests of this replica have smaller ids
    have hfresh : tx.key ∉ (sys.peers p).confirmedTrans.map ClientRequest.key := by
      intro hmem
      obtain ⟨req, hreq, hkey⟩ := List.mem_map.mp hmem
      have hold := inv.confirmed p req hreq
      obtain ⟨hsame, hsame'⟩ := Prod.mk.inj hkey
      unfold Issued at hold
      rw [hsame, hsame', hsubmitter', hid'] at hold
      omega
    have hgrows : (sys.peers p).confirmedTrans <+: r.confirmedTrans := by
      rw [hconfirmed]
      exact List.prefix_rfl
    refine ⟨by omega, hgrows, fun m hm req hreq => ?_, fun e he => hqueue e he ▸ hissued, fun req hreq => ?_,
      fun m hm pp hpp => ?_, hconfirmed ▸ inv.nodup p⟩
    · have hreq' : req = tx := by
        rcases List.mem_cons.mp hm with rfl | hm
        · exact List.mem_singleton.mp hreq
        · obtain rfl := List.mem_singleton.mp hm
          exact List.mem_singleton.mp hreq
      exact hreq' ▸ hissued
    · exact (inv.confirmed p req (hconfirmed ▸ hreq)).after (by omega)
    · rcases List.mem_cons.mp hm with rfl | hm
      · cases hpp
      · obtain rfl := List.mem_singleton.mp hm
        obtain rfl : pp = _ := by simpa [Message.proposals] using hpp
        refine Fresh.after hgrows ⟨p, le_rfl, ?_⟩
        show tx.key ∉ ((sys.peers p).confirmedTrans.take (sys.peers p).confirmedTrans.length).map _
        rwa [List.take_length]
  | prepare pp hkept _ _ _ hpp =>
    refine inv.quietStep hkept.confirmedTrans hkept.currentClientRequestId
      (hkept.unhandledRequests ▸ hqueued) (fun m hm req hreq => ?_) (by simp [Message.proposals])
    obtain rfl := List.mem_singleton.mp hm
    obtain rfl := List.mem_singleton.mp hreq
    exact (inv.of_nextProposal votes (hfree p) hpp).1
  | commit pp hkept _ _ hpp =>
    refine inv.quietStep hkept.confirmedTrans hkept.currentClientRequestId
      (hkept.unhandledRequests ▸ hqueued) (fun m hm req hreq => ?_) (by simp [Message.proposals])
    obtain rfl := List.mem_singleton.mp hm
    obtain rfl := List.mem_singleton.mp hreq
    exact (inv.of_nextProposal votes (hfree p) hpp).1
  | decide pp ms _ _ _ hpp hconfirmed hqueue hnext _ hms =>
    obtain ⟨hissued, hfresh⟩ := inv.of_nextProposal votes (hfree p) hpp
    have hconfirmed' : r.confirmedTrans = (sys.peers p).confirmedTrans ++ [pp.request] := hconfirmed
    refine ⟨hnext.ge, hconfirmed' ▸ List.prefix_append _ _, fun m hm req hreq => ?_,
      fun e he => (inv.queued p e (hqueue e he)).after hnext.ge, fun req hreq => ?_, fun m hm pp hpp => ?_, ?_⟩
    · obtain ⟨c, rfl, -⟩ := hms m hm
      cases hreq
    · rw [hconfirmed'] at hreq
      rcases List.mem_append.mp hreq with hreq | hreq
      · exact (inv.confirmed p req hreq).after hnext.ge
      · exact List.mem_singleton.mp hreq ▸ hissued.after hnext.ge
    · obtain ⟨c, rfl, -⟩ := hms m hm
      cases hpp
    · rw [hconfirmed', List.map_append, List.map_singleton]
      rw [← List.concat_eq_append]
      exact (inv.nodup p).concat (hfresh.notMem votes certs hfree hsize)
  | enterNewView ms hkept _ _ hms =>
    refine inv.quietStep hkept.confirmedTrans hkept.currentClientRequestId
      (hkept.unhandledRequests ▸ hqueued) (fun m hm req hreq => ?_) fun m hm pp hpp => ?_
    · obtain ⟨nv, rfl, -, -, hproof⟩ := hms m hm
      obtain ⟨pp, hpp, rfl⟩ := List.mem_map.mp hreq
      obtain ⟨vc, hvc, -, hmem⟩ := hproof pp hpp
      exact inv.sent _ (hheard _ hvc) _ (List.mem_map_of_mem hmem)
    · obtain ⟨nv, rfl, -, -, hproof⟩ := hms m hm
      obtain ⟨vc, hvc, -, hmem⟩ := hproof pp hpp
      exact inv.proposals _ (hheard _ hvc) pp hmem
  | install nv hkept _ _ hlog =>
    refine inv.quietStep hkept.confirmedTrans hkept.currentClientRequestId
      (hkept.unhandledRequests ▸ hqueued) (fun m hm req hreq => ?_) fun m hm pp hpp => ?_
    · obtain ⟨pp, hpp, rfl⟩ := List.mem_map.mp hm
      obtain rfl := List.mem_singleton.mp hreq
      have hmem : pp.request ∈ nv.preparedProof.map PhaseMessage.request := List.mem_map_of_mem hpp
      exact inv.sent _ (hheard _ hlog) pp.request hmem
    · obtain ⟨pp', hpp', rfl⟩ := List.mem_map.mp hm
      obtain rfl : pp = _ := by simpa [Message.proposals] using hpp
      exact inv.proposals _ (hheard _ hlog) pp' hpp'

theorem execInv_initial : ExecInv initial where
  sent := fun _ ⟨_, hpkt, _⟩ => absurd hpkt List.not_mem_nil
  queued := fun _ _ he => absurd he List.not_mem_nil
  confirmed := fun _ _ hreq => absurd hreq List.not_mem_nil
  proposals := fun _ ⟨_, hpkt, _⟩ => absurd hpkt List.not_mem_nil
  nodup := fun _ => List.nodup_nil

theorem ExecInv.call (inv : ExecInv sys) (votes : VoteInv cfg sys) (certs : CertInv cfg sys)
    (hfree : ∀ q, cfg.Honest q) (hsize : cfg.committee.size ≠ 3 ∨ ∀ q, (sys.peers q).view = 0)
    (hnew : ¬ RepeatsRequest cfg sys p) :
    ExecInv (sys.after p (Pbft.call (sys.ctx cfg p) (sys.start p)).1) := by
  obtain ⟨ms, hemits, houtcome⟩ := call_steps (sys.ctx cfg p) (sys.start p)
  exact inv.after hfree ms (by rw [hemits.outbox]; rfl) (inv.execStep votes certs hfree hsize hnew houtcome)

theorem ExecInv.receive (inv : ExecInv sys) (hfree : ∀ q, cfg.Honest q) {pkt : Packet Message}
    (hpkt : pkt ∈ sys.sent) :
    ExecInv (sys.after p (onMessage (sys.ctx cfg p) pkt.message (sys.start p))) := by
  obtain ⟨-, hconfirmed, -, houtbox, hnext, -, hqueue⟩ :=
    onMessage_same (sys.ctx cfg p) pkt.message (sys.start p)
  refine inv.after hfree [] houtbox (inv.quietStep hconfirmed hnext (fun e he => ?_) (by simp) (by simp))
  exact (hqueue e he).imp_right fun h => ⟨pkt, hpkt, h⟩

theorem outcome_view {ctx : Ctx} {s r : Local} {ms : List Message} (h : Outcome ctx s r ms)
    (htimer : ¬ TimedOut ctx s.toPBFTConsensus) : r.view = s.view := by
  cases h with
  | idle hkept => exact hkept.view
  | viewChange _ htimer' => exact absurd htimer' htimer
  | proposeFirst _ _ _ hkept => exact hkept.view
  | proposeOwn _ _ _ _ hview => exact hview
  | prepare _ hkept => exact hkept.view
  | commit _ hkept => exact hkept.view
  | decide _ _ _ _ hview => exact hview
  | enterNewView _ hkept => exact hkept.view
  | install _ hkept => exact hkept.view

theorem firstView_step {e : Event} {sys' : System} (hsize : cfg.committee.size = 3)
    (hguard : ProposesNew cfg sys e) (hstep : (machine cfg).step sys e = some sys')
    (h : ∀ q, (sys.peers q).view = 0) : ∀ q, (sys'.peers q).view = 0 := by
  intro q
  rcases step_cases hstep with ⟨-, rfl⟩ | ⟨p, pkt, rfl, -, -, -, -, rfl⟩ | ⟨p, rfl, -, rfl⟩
  · exact h q
  · by_cases hq : q = p
    · rw [hq, after_self, (onMessage_same _ _ _).1]
      exact h p
    · rw [after_other hq]
      exact h q
  · by_cases hq : q = p
    · obtain ⟨ms, -, houtcome⟩ := call_steps (sys.ctx cfg p) (sys.start p)
      rw [hq, after_self, outcome_view houtcome (hguard.2.1 hsize)]
      exact h p
    · rw [after_other hq]
      exact h q

/-- **Execution at most once.** In a run of replicas without faults in which none times out in its commit
phase, none of three times out at all, and no leader proposes a request that it has confirmed, no replica
confirms a request twice. -/
theorem executed_once (hdiffer : DigestsDiffer cfg sys) (hfree : ∀ q, cfg.Honest q)
    (h : (machine cfg).ReachedUnder (ProposesNew cfg) sys) (q : InterfaceId) :
    ((sys.peers q).confirmedTrans.map ClientRequest.key).Nodup := by
  suffices hall : (cfg.committee.size = 3 → ∀ q, (sys.peers q).view = 0) ∧
      (VoteInv cfg sys ∧ CertInv cfg sys) ∧ ExecInv sys from hall.2.2.nodup q
  induction h with
  | start hsys =>
    rw [show _ = initial from hsys]
    exact ⟨fun _ _ => rfl, ⟨voteInv_initial, certInv_initial⟩, execInv_initial⟩
  | next hr hguard hstep ih =>
    obtain ⟨hfirst, ⟨votes, certs⟩, inv⟩ := ih (hdiffer.of_step hstep)
    refine ⟨fun hsize => firstView_step hsize hguard hstep (hfirst hsize), certInv_of_reached hfree
      (.next (hr.mono fun _ _ h => h.commitInTime) hguard.commitInTime hstep) hdiffer, ?_⟩
    rcases step_cases hstep with ⟨-, rfl⟩ | ⟨p, pkt, rfl, hp, hpkt, -, -, rfl⟩ | ⟨p, rfl, hp, rfl⟩
    · exact ⟨inv.sent, inv.queued, inv.confirmed, inv.proposals, inv.nodup⟩
    · exact inv.receive hfree hpkt
    · exact inv.call votes certs hfree (not_or_of_imp hfirst) hguard.2.2

/-! ## Two runs -/

def fourReplicas : Config := committeeOf 4 fun _ => none

def firstRequest : List Event :=
  .call 0 :: exchange 0 0 ⟨0, 0, 0, false⟩ 0 [1, 2, 3] [0, 1, 2, 3] [0, 1, 2, 3]

theorem executed_once_firstRequest :
    ∃ sys, (machine fourReplicas).ReachedUnder (ProposesNew fourReplicas) sys ∧
      (sys.peers 1).confirmedTrans = [⟨0, 0, 0, false⟩] ∧
      ((sys.peers 1).confirmedTrans.map ClientRequest.key).Nodup := by
  have hrun : ((machine fourReplicas).runUnder (ProposesNew fourReplicas) initial firstRequest).map
      (fun sys => (sys.peers 1).confirmedTrans) = some [⟨0, 0, 0, false⟩] := by
    decide +kernel
  obtain ⟨sys, hsys, hconfirmed⟩ := Option.map_eq_some_iff.mp hrun
  have hreached := Lib.Machine.reachedUnder_of_runUnder (.start rfl) hsys
  have hfree : ∀ q, fourReplicas.Honest q := fun _ => rfl
  exact ⟨sys, hreached, hconfirmed, executed_once (.of_injective unaryDigest_injective) hfree hreached 1⟩

/-- The request reaches replica 1 only after it was decided. After a view change replica 1 leads and proposes
it again. -/
def requestLate : List Event :=
  firstRequest ++ [.receive 1 ⟨0, 1, .request ⟨0, 0, 0, false⟩⟩] ++ List.replicate 11 .nextRound ++
  changeView 0 1 [0, 1, 2, 3] ++ exchange 1 1 ⟨0, 0, 0, false⟩ 1 [0, 2, 3] [0, 1, 2, 3] [0, 1, 2, 3]

theorem requestLate_executed_twice :
    ¬ ∀ (cfg : Config) (sys : System), Function.Injective cfg.digestOf → (∀ q, cfg.Honest q) →
      (machine cfg).Reached sys → ∀ q, ((sys.peers q).confirmedTrans.map ClientRequest.key).Nodup := by
  intro honce
  have hrun : ((machine fourReplicas).run initial requestLate).map (fun sys => (sys.peers 0).confirmedTrans) =
      some [⟨0, 0, 0, false⟩, ⟨0, 0, 0, false⟩] := by
    decide +kernel
  obtain ⟨sys, hsys, hconfirmed⟩ := Option.map_eq_some_iff.mp hrun
  have hnodup := honce fourReplicas sys unaryDigest_injective (fun _ => rfl)
    (Lib.Machine.reached_of_run (.start rfl) hsys) 0
  rw [hconfirmed] at hnodup
  exact absurd hnodup (by decide)

end System

end Quantas.Pbft
