import Quantas.Pbft.Agreement
import Quantas.Pbft.Checkpoints

/-!
# PBFT: where confirmed requests come from

A leader proposes from its queue, and proposals travel inside prepares, commits and the proofs of view
changes; a fault changes their flip and nothing else. `RequestInv` follows every request from the multicast
of its submitter into the logs, the queues and `_confirmedTrans`, whatever replicas equivocate. From it come
the bounds of what `endOfRound` reports.
-/

namespace Quantas.Pbft

/-- The request as its submitter made it. -/
def ClientRequest.unflipped (r : ClientRequest) : ClientRequest := { r with faultFlip := false }

/-- The request that `submitRequest` makes. -/
def newRequest (ctx : Ctx) (s : PBFTConsensus) : ClientRequest where
  requestId := s.currentClientRequestId
  submitterId := ctx.self
  roundSubmitted := ctx.round

section Packets
variable {ctx : Ctx} {msg : Message} {pkt : Packet Message} {r : ClientRequest}

theorem mem_packets_request :
    pkt ∈ packets ctx (.request r) ↔
      pkt.source = ctx.self ∧ pkt.target ∈ ctx.members ∧ pkt.message = .request r := by
  have hnone : (ctx.fault.bind fun fault => fault.onSend (.request r) ctx.members) = none := by
    cases ctx.fault with
    | none => simp
    | some fault => simp [EquivocateFault.onSend, EquivocateFault.variants]
  unfold packets
  rw [hnone, Option.getD_none, List.map_map, List.mem_map]
  constructor
  · intro h
    obtain ⟨target, htarget, heq⟩ := h
    subst heq
    exact ⟨rfl, htarget, rfl⟩
  · intro h
    obtain ⟨hsource, htarget, hmessage⟩ := h
    refine ⟨pkt.target, htarget, ?_⟩
    cases pkt
    simp_all

theorem mem_packets_cases (h : pkt ∈ packets ctx msg) :
    pkt.message = msg ∨ ctx.fault ≠ none ∧ ∃ normal alt, EquivocateFault.variants msg = some (normal, alt) ∧
      (pkt.message = normal ∨ pkt.message = alt) := by
  cases hfault : ctx.fault with
  | none => exact .inl ((mem_packets_of_no_fault ctx hfault).mp h).2.2
  | some fault =>
    unfold packets at h
    rw [hfault, Option.bind_some] at h
    obtain ⟨⟨target, m⟩, hmem, heq⟩ := List.mem_map.mp h
    subst heq
    cases hsend : fault.onSend msg ctx.members with
    | none =>
      rw [hsend, Option.getD_none] at hmem
      obtain ⟨_, -, heq⟩ := List.mem_map.mp hmem
      exact .inl (Prod.mk.inj heq).2.symm
    | some sends =>
      rw [hsend, Option.getD_some] at hmem
      unfold EquivocateFault.onSend at hsend
      cases hvariants : EquivocateFault.variants msg with
      | none => simp [hvariants] at hsend
      | some pair =>
        obtain ⟨normal, alt⟩ := pair
        rw [hvariants] at hsend
        simp only at hsend
        split_ifs at hsend
        obtain rfl := Option.some.inj hsend
        refine .inr ⟨by simp, normal, alt, rfl, ?_⟩
        rcases List.mem_append.mp hmem with hmem | hmem
        · obtain ⟨_, -, heq⟩ := List.mem_map.mp hmem
          exact .inl (Prod.mk.inj heq).2.symm
        · obtain ⟨_, -, heq⟩ := List.mem_map.mp hmem
          exact .inr (Prod.mk.inj heq).2.symm

theorem requests_of_mem_packets (h : pkt ∈ packets ctx msg) {req : ClientRequest}
    (hreq : req ∈ pkt.message.requests) :
    ∃ req' ∈ msg.requests, req.unflipped = req'.unflipped ∧
      (ctx.fault = none → req = req') := by
  rcases mem_packets_cases h with heq | ⟨hfault, normal, alt, hvariants, hmessage⟩
  · exact ⟨req, heq ▸ hreq, rfl, fun _ => rfl⟩
  cases msg with
  | phase m =>
    obtain ⟨rfl, rfl⟩ := Prod.mk.inj (Option.some.inj hvariants)
    refine ⟨m.request, by simp [Message.requests], ?_, fun h => absurd h hfault⟩
    rcases hmessage with hmessage | hmessage
    · rw [hmessage] at hreq
      rw [List.mem_singleton.mp hreq]
      rfl
    · rw [hmessage] at hreq
      rw [List.mem_singleton.mp hreq]
      rfl
  | checkpoint m =>
    obtain ⟨rfl, rfl⟩ := Prod.mk.inj (Option.some.inj hvariants)
    rcases hmessage with hmessage | hmessage
    · simp [hmessage, Message.requests] at hreq
    · simp [hmessage, Message.requests] at hreq
  | request _ => simp [EquivocateFault.variants] at hvariants
  | viewChange _ => simp [EquivocateFault.variants] at hvariants
  | newView _ => simp [EquivocateFault.variants] at hvariants

theorem request_of_mem_packets (h : pkt ∈ packets ctx msg) (hmessage : pkt.message = .request r) :
    msg = .request r := by
  rcases mem_packets_cases h with heq | ⟨-, normal, alt, hvariants, heq⟩
  · exact heq.symm.trans hmessage
  cases msg with
  | phase m =>
    obtain ⟨rfl, rfl⟩ := Prod.mk.inj (Option.some.inj hvariants)
    simp [hmessage] at heq
  | checkpoint m =>
    obtain ⟨rfl, rfl⟩ := Prod.mk.inj (Option.some.inj hvariants)
    simp [hmessage] at heq
  | request _ => simp [EquivocateFault.variants] at hvariants
  | viewChange _ => simp [EquivocateFault.variants] at hvariants
  | newView _ => simp [EquivocateFault.variants] at hvariants

end Packets

/-! ## New requests -/

section Call
variable {ctx : Ctx} {s : Local} {lastStable low high : Nat} {log : List Message}

def requestPackets (s : Local) : List (Packet Message) :=
  s.outbox.filter fun pkt => match pkt.message with
    | .request _ => true
    | _ => false

theorem mem_requestPackets {pkt : Packet Message} :
    pkt ∈ requestPackets s ↔ pkt ∈ s.outbox ∧ ∃ r, pkt.message = .request r := by
  unfold requestPackets
  rw [List.mem_filter]
  cases pkt.message <;> simp

theorem requestPackets_multicast {msg : Message} (h : ∀ r, msg ≠ .request r) :
    requestPackets (multicastAndInsert ctx msg s) = requestPackets s := by
  have hnone : (packets ctx msg).filter (fun pkt => match pkt.message with
      | .request _ => true
      | _ => false) = [] := by
    rw [List.filter_eq_nil_iff]
    intro pkt hpkt
    cases hmessage : pkt.message with
    | request r => exact absurd (request_of_mem_packets hpkt hmessage) (h r)
    | _ => simp
  show (s.outbox ++ packets ctx msg).filter _ = _
  rw [List.filter_append, hnone, List.append_nil]
  rfl

theorem requestPackets_reissue (pps : List PhaseMessage) :
    requestPackets (pps.foldl (reissue ctx) s) = requestPackets s := by
  induction pps generalizing s with
  | nil => rfl
  | cons pp pps ih =>
    rw [List.foldl_cons, ih]
    exact requestPackets_multicast (by simp)

theorem requestPackets_decideRequest (req : ClientRequest) :
    requestPackets (decideRequest ctx req s) = requestPackets s := by
  unfold decideRequest sendCheckpoint
  dsimp only
  split_ifs
  · rfl
  · exact requestPackets_multicast (by simp)

theorem requestPackets_call (ctx : Ctx) (s : Local) :
    (call ctx s).1.currentClientRequestId = s.currentClientRequestId ∧
        requestPackets (call ctx s).1 = requestPackets s ∨
      (call ctx s).1.currentClientRequestId = s.currentClientRequestId + 1 ∧
        requestPackets (call ctx s).1 =
          requestPackets s ++ packets ctx (.request (newRequest ctx s.toPBFTConsensus)) := by
  have hcall := call_cases ctx s
  obtain ⟨lastStable, low, high, log, htrimmed, -⟩ := maybeStableCheckpoint_eq ctx s
  rw [htrimmed] at hcall
  generalize call ctx s = res at hcall ⊢
  cases hcall with
  | timeout => exact .inl ⟨rfl, requestPackets_multicast (by simp)⟩
  | wait => exact .inl ⟨rfl, rfl⟩
  | propose =>
    obtain ⟨tx, s', heq, ⟨_, _, _, rfl⟩ | ⟨rfl, rfl, -⟩⟩ :=
      propose_cases ctx (trimmed s lastStable low high log)
    · rw [heq]
      exact .inl ⟨rfl, requestPackets_multicast (by simp)⟩
    · rw [heq]
      refine .inr ⟨rfl, (requestPackets_multicast (by simp)).trans ?_⟩
      have hall : (packets ctx (.request (newRequest ctx s.toPBFTConsensus))).filter
          (fun pkt => match pkt.message with
            | .request _ => true
            | _ => false) = packets ctx (.request (newRequest ctx s.toPBFTConsensus)) := by
        rw [List.filter_eq_self]
        intro pkt hpkt
        rw [(mem_packets_request.mp hpkt).2.2]
      show (s.outbox ++ packets ctx (.request (newRequest ctx s.toPBFTConsensus))).filter _ = _
      rw [List.filter_append, hall]
      rfl
  | prepare pp => exact .inl ⟨rfl, requestPackets_multicast (by simp)⟩
  | commit pp => exact .inl ⟨rfl, requestPackets_multicast (by simp)⟩
  | decide pp =>
    refine .inl ⟨?_, requestPackets_decideRequest pp.request⟩
    unfold decideRequest sendCheckpoint
    dsimp only
    split_ifs <;> rfl
  | enterNewView =>
    split_ifs
    · exact .inl ⟨rfl, requestPackets_multicast (by simp)⟩
    · exact .inl ⟨rfl, rfl⟩
  | install nv =>
    refine .inl ⟨?_, requestPackets_reissue nv.preparedProof⟩
    obtain ⟨sent, heq, -⟩ := foldl_reissue ctx nv.preparedProof { trimmed s lastStable low high log with
      lowWaterMark := lastStable
      highWaterMark := lastStable + WINDOW }
    exact congrArg (·.currentClientRequestId) heq

end Call

/-! ## The invariant -/

namespace System

/-- The submitter of a request has multicast it. -/
def Submitted (sys : System) (req : ClientRequest) : Prop :=
  ∃ target, ⟨req.submitterId, target, .request req.unflipped⟩ ∈ sys.sent

/-- The request was submitted, and only a fault can have flipped it. -/
structure Authentic (cfg : Config) (sys : System) (req : ClientRequest) : Prop where
  submitted : Submitted sys req
  flipped : req.faultFlip = true → ∃ p ∈ cfg.committee.members, ¬ cfg.Honest p

structure RequestInv (cfg : Config) (sys : System) : Prop where
  issued : ∀ pkt ∈ sys.sent, ∀ req, pkt.message = .request req →
    pkt.source = req.submitterId ∧ req.submitterId ∈ cfg.committee.members ∧ req.roundSubmitted ≤ sys.round ∧
      req.requestId < (sys.peers req.submitterId).currentClientRequestId ∧ req.faultFlip = false
  once : ∀ pkt ∈ sys.sent, ∀ pkt' ∈ sys.sent, ∀ req req', pkt.message = .request req →
    pkt'.message = .request req' → req.key = req'.key → req = req'
  sent : ∀ pkt ∈ sys.sent, ∀ req ∈ pkt.message.requests, Authentic cfg sys req
  heard : ∀ q, ∀ m ∈ (sys.peers q).receivedMessages, ∀ req ∈ m.requests, Authentic cfg sys req
  queued : ∀ q, ∀ e ∈ (sys.peers q).unhandledRequests, Authentic cfg sys e.2
  confirmed : ∀ q, ∀ req ∈ (sys.peers q).confirmedTrans, Authentic cfg sys req

variable {cfg : Config} {sys : System} {p : InterfaceId} {r : Local}

theorem Authentic.after {req : ClientRequest} (h : Authentic cfg sys req) :
    Authentic cfg (sys.after p r) req := by
  obtain ⟨⟨target, hsent⟩, hflipped⟩ := h
  exact ⟨⟨target, List.mem_append_left _ hsent⟩, hflipped⟩

theorem Authentic.of_packet {req req' : ClientRequest} (h : Authentic cfg sys req')
    (hp : p ∈ cfg.committee.members) (hsame : req.unflipped = req'.unflipped)
    (hfree : cfg.fault p = none → req = req') : Authentic cfg sys req := by
  have hsubmitter : req.submitterId = req'.submitterId := by
    show req.unflipped.submitterId = req'.unflipped.submitterId
    rw [hsame]
  refine ⟨?_, fun hflip => ?_⟩
  · obtain ⟨target, hsent⟩ := h.submitted
    refine ⟨target, ?_⟩
    rwa [hsubmitter, hsame]
  · by_cases hhonest : cfg.Honest p
    · exact h.flipped (hfree hhonest ▸ hflip)
    · exact ⟨p, hp, hhonest⟩

structure RequestStep (cfg : Config) (sys : System) (p : InterfaceId) (r : Local) (ms : List Message) :
    Prop where
  outbox : r.outbox = ms.flatMap (packets (sys.ctx cfg p))
  sent : ∀ m ∈ ms, ∀ req ∈ m.requests, Authentic cfg (sys.after p r) req
  heard : ∀ m ∈ r.receivedMessages, ∀ req ∈ m.requests, Authentic cfg (sys.after p r) req
  queued : ∀ e ∈ r.unhandledRequests, Authentic cfg (sys.after p r) e.2
  confirmed : ∀ req ∈ r.confirmedTrans, Authentic cfg (sys.after p r) req
  next : (sys.peers p).currentClientRequestId ≤ r.currentClientRequestId
  issued : ∀ pkt ∈ r.outbox, ∀ req, pkt.message = .request req →
    req = newRequest (sys.ctx cfg p) (sys.peers p) ∧
      r.currentClientRequestId = (sys.peers p).currentClientRequestId + 1

theorem RequestInv.after (inv : RequestInv cfg sys) (hp : p ∈ cfg.committee.members) {ms : List Message}
    (hstep : RequestStep cfg sys p r ms) : RequestInv cfg (sys.after p r) := by
  have hsource : ∀ pkt ∈ r.outbox, pkt.source = p := by
    intro pkt hpkt
    rw [hstep.outbox] at hpkt
    obtain ⟨m, -, hmem⟩ := List.mem_flatMap.mp hpkt
    exact (of_mem_packets hmem).1
  have hcounter : ∀ q, (sys.peers q).currentClientRequestId ≤
      ((sys.after p r).peers q).currentClientRequestId := by
    intro q
    by_cases hq : q = p
    · rw [hq, after_self]
      exact hstep.next
    · rw [after_other hq]
  -- an old request has an id below the counter, and the new one has the counter
  have hfresh : ∀ pkt ∈ sys.sent, ∀ pkt' ∈ r.outbox, ∀ req req', pkt.message = .request req →
      pkt'.message = .request req' → req.key ≠ req'.key := by
    intro pkt hpkt pkt' hpkt' req req' hmessage hmessage' hkey
    obtain ⟨-, -, -, hold, -⟩ := inv.issued pkt hpkt req hmessage
    obtain ⟨rfl, -⟩ := hstep.issued pkt' hpkt' req' hmessage'
    obtain ⟨hsubmitter, hid⟩ := Prod.mk.inj hkey
    rw [hsubmitter, hid] at hold
    exact lt_irrefl _ hold
  refine ⟨?issued, ?once, ?sent, ?heard, ?queued, ?confirmed⟩
  case issued =>
    intro pkt hpkt req hmessage
    rcases List.mem_append.mp hpkt with hpkt | hpkt
    · obtain ⟨hsource, hmember, hround, hid, hflip⟩ := inv.issued pkt hpkt req hmessage
      exact ⟨hsource, hmember, hround, hid.trans_le (hcounter _), hflip⟩
    · obtain ⟨heq, hnext⟩ := hstep.issued pkt hpkt req hmessage
      have hself : req.submitterId = p := by rw [heq]; rfl
      refine ⟨(hsource pkt hpkt).trans hself.symm, by rw [hself]; exact hp, ?_, ?_, ?_⟩
      · rw [heq]
        exact le_refl sys.round
      · rw [hself, after_self, hnext, heq]
        exact Nat.lt_succ_self _
      · rw [heq]
        rfl
  case once =>
    intro pkt hpkt pkt' hpkt' req req' hmessage hmessage' hkey
    rcases List.mem_append.mp hpkt with hpkt | hpkt
    · rcases List.mem_append.mp hpkt' with hpkt' | hpkt'
      · exact inv.once pkt hpkt pkt' hpkt' req req' hmessage hmessage' hkey
      · exact absurd hkey (hfresh pkt hpkt pkt' hpkt' req req' hmessage hmessage')
    · rcases List.mem_append.mp hpkt' with hpkt' | hpkt'
      · exact absurd hkey.symm (hfresh pkt' hpkt' pkt hpkt req' req hmessage' hmessage)
      · rw [(hstep.issued pkt hpkt req hmessage).1, (hstep.issued pkt' hpkt' req' hmessage').1]
  case sent =>
    intro pkt hpkt req hreq
    rcases List.mem_append.mp hpkt with hpkt | hpkt
    · exact (inv.sent pkt hpkt req hreq).after
    · rw [hstep.outbox] at hpkt
      obtain ⟨m, hm, hmem⟩ := List.mem_flatMap.mp hpkt
      obtain ⟨req', hreq', hsame, hfree⟩ := requests_of_mem_packets hmem hreq
      exact (hstep.sent m hm req' hreq').of_packet hp hsame hfree
  case heard =>
    intro q m hm req hreq
    by_cases hq : q = p
    · rw [hq, after_self] at hm
      exact hstep.heard m hm req hreq
    · rw [after_other hq] at hm
      exact (inv.heard q m hm req hreq).after
  case queued =>
    intro q e he
    by_cases hq : q = p
    · rw [hq, after_self] at he
      exact hstep.queued e he
    · rw [after_other hq] at he
      exact (inv.queued q e he).after
  case confirmed =>
    intro q req hreq
    by_cases hq : q = p
    · rw [hq, after_self] at hreq
      exact hstep.confirmed req hreq
    · rw [after_other hq] at hreq
      exact (inv.confirmed q req hreq).after

theorem RequestInv.knownStep (inv : RequestInv cfg sys) {ms : List Message}
    (houtbox : r.outbox = ms.flatMap (packets (sys.ctx cfg p)))
    (hsent : ∀ m ∈ ms, ∀ req ∈ m.requests, Authentic cfg sys req)
    (hlog : ∀ m ∈ r.receivedMessages, m ∈ (sys.peers p).receivedMessages ∨ Sent sys m ∨ m ∈ ms)
    (hqueue : ∀ e ∈ r.unhandledRequests, e ∈ (sys.peers p).unhandledRequests ∨ Sent sys (.request e.2))
    (hconfirmed : ∀ req ∈ r.confirmedTrans, Authentic cfg sys req)
    (hnext : (sys.peers p).currentClientRequestId ≤ r.currentClientRequestId)
    (hissued : ∀ pkt ∈ r.outbox, ∀ req, pkt.message = .request req →
      req = newRequest (sys.ctx cfg p) (sys.peers p) ∧
        r.currentClientRequestId = (sys.peers p).currentClientRequestId + 1) :
    RequestStep cfg sys p r ms where
  outbox := houtbox
  sent := fun m hm req hreq => (hsent m hm req hreq).after
  heard := by
    intro m hm req hreq
    rcases hlog m hm with hm | ⟨pkt, hpkt, heq⟩ | hm
    · exact (inv.heard p m hm req hreq).after
    · subst heq
      exact (inv.sent pkt hpkt req hreq).after
    · exact (hsent m hm req hreq).after
  queued := by
    intro e he
    rcases hqueue e he with he | ⟨pkt, hpkt, heq⟩
    · exact (inv.queued p e he).after
    · refine (inv.sent pkt hpkt e.2 ?_).after
      rw [heq]
      exact List.mem_singleton.mpr rfl
  confirmed := fun req hreq => (hconfirmed req hreq).after
  next := hnext
  issued := hissued

theorem RequestInv.callStep (inv : RequestInv cfg sys) (hp : p ∈ cfg.committee.members) {ms : List Message}
    (hr : r = (Pbft.call (sys.ctx cfg p) (sys.start p)).1)
    (hemits : Emits (sys.ctx cfg p) (sys.start p) r ms) (h : Outcome (sys.ctx cfg p) (sys.start p) r ms) :
    RequestStep cfg sys p r ms := by
  have houtbox : r.outbox = ms.flatMap (packets (sys.ctx cfg p)) := by
    rw [hemits.outbox]
    exact List.nil_append _
  have hcall := requestPackets_call (sys.ctx cfg p) (sys.start p)
  rw [← hr] at hcall
  have hnothing : requestPackets (sys.start p) = [] := by
    exact List.filter_nil
  rw [hnothing, List.nil_append] at hcall
  have hnext : (sys.peers p).currentClientRequestId ≤ r.currentClientRequestId := by
    rcases hcall with ⟨h, -⟩ | ⟨h, -⟩
    · exact h.ge
    · exact h ▸ Nat.le_succ _
  have hissued : ∀ pkt ∈ r.outbox, ∀ req, pkt.message = .request req →
      req = newRequest (sys.ctx cfg p) (sys.peers p) ∧
        r.currentClientRequestId = (sys.peers p).currentClientRequestId + 1 := by
    intro pkt hpkt req hmessage
    have hmem : pkt ∈ requestPackets r := mem_requestPackets.mpr ⟨hpkt, req, hmessage⟩
    rcases hcall with ⟨-, h⟩ | ⟨hnext, h⟩
    · rw [h] at hmem
      exact absurd hmem List.not_mem_nil
    · rw [h] at hmem
      have heq := hmessage.symm.trans (mem_packets_request.mp hmem).2.2
      exact ⟨Message.request.inj heq, hnext⟩
  have hlog : ∀ m ∈ r.receivedMessages, m ∈ (sys.peers p).receivedMessages ∨ Sent sys m ∨ m ∈ ms :=
    fun m hm => (hemits.log m hm).imp_right .inr
  have hqueued : ∀ e ∈ (sys.start p).unhandledRequests,
      e ∈ (sys.peers p).unhandledRequests ∨ Sent sys (.request e.2) := fun e he => .inl he
  have hold : ∀ req ∈ (sys.start p).confirmedTrans, Authentic cfg sys req := inv.confirmed p
  have hproposal : ∀ pp, .phase pp ∈ (sys.start p).receivedMessages → Authentic cfg sys pp.request :=
    fun pp hpp => inv.heard p _ hpp _ (List.mem_singleton.mpr rfl)
  cases h with
  | idle hkept =>
    apply inv.knownStep houtbox (by simp) hlog (hkept.unhandledRequests ▸ hqueued)
      (hkept.confirmedTrans ▸ hold) hnext hissued
  | viewChange vc _ _ _ hconfirmed hqueue _ _ _ _ hproof =>
    apply inv.knownStep houtbox ?_ hlog (hqueue ▸ hqueued) (hconfirmed ▸ hold) hnext hissued
    intro m hm req hreq
    obtain rfl := List.mem_singleton.mp hm
    obtain ⟨pp, hpp, rfl⟩ := List.mem_map.mp hreq
    exact hproposal pp (hproof pp hpp).1
  | proposeFirst round tx rest hkept _ _ _ _ hqueue =>
    apply inv.knownStep houtbox ?_ hlog (hkept.unhandledRequests ▸ hqueued) (hkept.confirmedTrans ▸ hold)
      hnext hissued
    intro m hm req hreq
    obtain rfl := List.mem_singleton.mp hm
    obtain rfl := List.mem_singleton.mp hreq
    have hmem : (round, req) ∈ (sys.start p).unhandledRequests := by
      rw [hqueue]
      exact List.mem_cons_self
    exact inv.queued p _ hmem
  | proposeOwn tx _ _ _ _ hconfirmed _ hqueue =>
    have hpkt : (⟨p, p, .request tx⟩ : Packet Message) ∈ r.outbox := by
      rw [houtbox, List.mem_flatMap]
      exact ⟨_, List.mem_cons_self, mem_packets_request.mpr ⟨rfl, hp, rfl⟩⟩
    obtain ⟨htx, -⟩ := hissued _ hpkt tx rfl
    have hauthentic : Authentic cfg (sys.after p r) tx := by
      subst htx
      exact ⟨⟨p, List.mem_append_right _ hpkt⟩, fun h => by simp [newRequest] at h⟩
    have hsent : ∀ m ∈ [Message.request tx,
        .phase ⟨.prePrepare, (sys.start p).confirmedTrans.length, (sys.start p).view, tx,
          (sys.start p).view, (sys.ctx cfg p).self⟩], ∀ req ∈ m.requests,
        Authentic cfg (sys.after p r) req := by
      intro m hm req hreq
      rcases List.mem_cons.mp hm with rfl | hm
      · exact List.mem_singleton.mp hreq ▸ hauthentic
      · obtain rfl := List.mem_singleton.mp hm
        exact List.mem_singleton.mp hreq ▸ hauthentic
    refine ⟨houtbox, hsent, fun m hm req hreq => ?_, fun e he => hqueue e he ▸ hauthentic,
      fun req hreq => (hold req (hconfirmed ▸ hreq)).after, hnext, hissued⟩
    rcases hemits.log m hm with hm | hm
    · exact (inv.heard p m hm req hreq).after
    · exact hsent m hm req hreq
  | prepare pp hkept _ _ _ hpp =>
    apply inv.knownStep houtbox ?_ hlog (hkept.unhandledRequests ▸ hqueued) (hkept.confirmedTrans ▸ hold)
      hnext hissued
    intro m hm req hreq
    obtain rfl := List.mem_singleton.mp hm
    obtain rfl := List.mem_singleton.mp hreq
    exact hproposal pp hpp.log
  | commit pp hkept _ _ hpp =>
    apply inv.knownStep houtbox ?_ hlog (hkept.unhandledRequests ▸ hqueued) (hkept.confirmedTrans ▸ hold)
      hnext hissued
    intro m hm req hreq
    obtain rfl := List.mem_singleton.mp hm
    obtain rfl := List.mem_singleton.mp hreq
    exact hproposal pp hpp.log
  | decide pp ms _ _ _ hpp hconfirmed hqueue _ _ hms =>
    apply inv.knownStep houtbox ?_ hlog (fun e he => .inl (hqueue e he)) ?_ hnext hissued
    · intro m hm req hreq
      obtain ⟨c, rfl, -⟩ := hms m hm
      exact absurd hreq List.not_mem_nil
    · intro req hreq
      rw [hconfirmed] at hreq
      rcases List.mem_append.mp hreq with hreq | hreq
      · exact hold req hreq
      · rw [List.mem_singleton.mp hreq]
        exact hproposal pp hpp.log
  | enterNewView ms hkept _ _ hms =>
    apply inv.knownStep houtbox ?_ hlog (hkept.unhandledRequests ▸ hqueued) (hkept.confirmedTrans ▸ hold)
      hnext hissued
    intro m hm req hreq
    obtain ⟨nv, rfl, -, -, hproof⟩ := hms m hm
    obtain ⟨pp, hpp, rfl⟩ := List.mem_map.mp hreq
    obtain ⟨vc, hvc, -, hmem⟩ := hproof pp hpp
    exact inv.heard p _ hvc _ (List.mem_map_of_mem hmem)
  | install nv hkept _ _ hnv =>
    apply inv.knownStep houtbox ?_ hlog (hkept.unhandledRequests ▸ hqueued) (hkept.confirmedTrans ▸ hold)
      hnext hissued
    intro m hm req hreq
    obtain ⟨pp, hpp, rfl⟩ := List.mem_map.mp hm
    obtain rfl := List.mem_singleton.mp hreq
    have hmem : pp.request ∈ (Message.newView nv).requests := List.mem_map_of_mem hpp
    exact inv.heard p _ hnv _ hmem

theorem requestInv_initial : RequestInv cfg initial where
  issued := fun _ hpkt => absurd hpkt List.not_mem_nil
  once := fun _ hpkt => absurd hpkt List.not_mem_nil
  sent := fun _ hpkt => absurd hpkt List.not_mem_nil
  heard := fun _ _ hm => absurd hm List.not_mem_nil
  queued := fun _ _ he => absurd he List.not_mem_nil
  confirmed := fun _ _ hreq => absurd hreq List.not_mem_nil

theorem requestInv_of_reached (h : (machine cfg).Reached sys) : RequestInv cfg sys := by
  apply h.invariant
  · intro sys hsys
    rw [show sys = initial from hsys]
    exact requestInv_initial
  intro sys e sys' inv _ hstep
  rcases step_cases hstep with ⟨-, rfl⟩ | ⟨p, pkt, rfl, hp, hpkt, -, -, rfl⟩ | ⟨p, rfl, hp, rfl⟩
  · have hkeep : ∀ req, Authentic cfg sys req → Authentic cfg { sys with round := sys.round + 1 } req :=
      fun req h => ⟨h.submitted, h.flipped⟩
    refine ⟨fun pkt hpkt req hmessage => ?_, inv.once, fun pkt hpkt req hreq => hkeep _ (inv.sent pkt hpkt req hreq),
      fun q m hm req hreq => hkeep _ (inv.heard q m hm req hreq), fun q e he => hkeep _ (inv.queued q e he),
      fun q req hreq => hkeep _ (inv.confirmed q req hreq)⟩
    obtain ⟨hsource, hmember, hround, hrest⟩ := inv.issued pkt hpkt req hmessage
    exact ⟨hsource, hmember, hround.trans (Nat.le_succ _), hrest⟩
  · obtain ⟨-, hconfirmed, -, houtbox, hnext, hlog, hqueue⟩ :=
      onMessage_same (sys.ctx cfg p) pkt.message (sys.start p)
    have hnone : (onMessage (sys.ctx cfg p) pkt.message (sys.start p)).outbox =
        ([] : List Message).flatMap (packets (sys.ctx cfg p)) := houtbox
    apply inv.after hp
    apply inv.knownStep hnone (by simp)
    · intro m hm
      exact (hlog m hm).imp_right fun h => .inl ⟨pkt, hpkt, h.symm⟩
    · intro e he
      exact (hqueue e he).imp_right fun h => ⟨pkt, hpkt, h⟩
    · rw [hconfirmed]
      exact inv.confirmed p
    · exact hnext.ge
    · rw [houtbox]
      intro pkt hpkt
      exact absurd hpkt List.not_mem_nil
  · obtain ⟨ms, hemits, houtcome⟩ := call_steps (sys.ctx cfg p) (sys.start p)
    exact inv.after hp (inv.callStep hp rfl hemits houtcome)

theorem RequestInv.unflipped_unique (inv : RequestInv cfg sys) {req req' : ClientRequest}
    (h : Authentic cfg sys req) (h' : Authentic cfg sys req') (hkey : req.key = req'.key) :
    req.unflipped = req'.unflipped := by
  obtain ⟨target, hsent⟩ := h.submitted
  obtain ⟨target', hsent'⟩ := h'.submitted
  exact inv.once _ hsent _ hsent' _ _ rfl rfl hkey

/-- **Validity.** Whatever replicas equivocate, every confirmed request was multicast by its submitter, a
member, in a round that has begun; a flip is the work of a fault, and confirmed requests with one key are the
same up to the flip. -/
theorem confirmed_submitted (h : (machine cfg).Reached sys) (q : InterfaceId) (req : ClientRequest)
    (hreq : req ∈ (sys.peers q).confirmedTrans) :
    req.submitterId ∈ cfg.committee.members ∧ Submitted sys req ∧ req.roundSubmitted ≤ sys.round ∧
      req.requestId < (sys.peers req.submitterId).currentClientRequestId ∧
      (req.faultFlip = true → ∃ p ∈ cfg.committee.members, ¬ cfg.Honest p) ∧
      ∀ q', ∀ req' ∈ (sys.peers q').confirmedTrans, req'.key = req.key → req'.unflipped = req.unflipped := by
  have inv := requestInv_of_reached h
  have hauthentic := inv.confirmed q req hreq
  obtain ⟨target, hsent⟩ := hauthentic.submitted
  obtain ⟨-, hmember, hround, hid, -⟩ := inv.issued _ hsent _ rfl
  refine ⟨hmember, hauthentic.submitted, hround, hid, hauthentic.flipped, fun q' req' hreq' hkey => ?_⟩
  exact inv.unflipped_unique (inv.confirmed q' req' hreq') hauthentic hkey

/-- Replica 3 flips the request for two replicas; what replica 0 confirms was submitted, and not flipped. -/
theorem confirmed_submitted_equivocatorOutvoted :
    ∃ sys, (machine fourWithEquivocator).Reached sys ∧ (sys.peers 0).confirmedTrans = [⟨0, 0, 0, false⟩] ∧
      Submitted sys ⟨0, 0, 0, false⟩ := by
  have hrun : ((machine fourWithEquivocator).run initial equivocatorOutvoted).map
      (fun sys => (sys.peers 0).confirmedTrans) = some [⟨0, 0, 0, false⟩] := by
    decide +kernel
  obtain ⟨sys, hsys, hconfirmed⟩ := Option.map_eq_some_iff.mp hrun
  have hreached := Lib.Machine.reached_of_run (.start rfl) hsys
  have hmem : (⟨0, 0, 0, false⟩ : ClientRequest) ∈ (sys.peers 0).confirmedTrans := by
    rw [hconfirmed]
    exact List.mem_singleton.mpr rfl
  exact ⟨sys, hreached, hconfirmed, (confirmed_submitted hreached 0 _ hmem).2.1⟩

end System

/-! ## What the end of a round reports -/

/-- The values that `endOfRound` pushes. -/
structure Metrics where
  latency : ℚ
  faultyConfirmed : ℚ
  throughput : ℚ

def endOfRound (peers : List PBFTConsensus) : Metrics :=
  let length : Nat := (peers.map fun c => c.confirmedTrans.length).sum
  let latency : Int := (peers.map fun c => c.latency).sum
  let faultyConfirmed : Nat := (peers.map fun c => c.confirmedTrans.countP fun trans => trans.faultFlip).sum
  if 0 < length then
    { latency := latency / length
      faultyConfirmed := faultyConfirmed / length
      throughput := length / peers.length }
  else { latency := 0, faultyConfirmed := 0, throughput := length / peers.length }

/-- The fields as they are stored: `_latency` is an `int`, and additions to it keep its low 32 bits. -/
def PBFTConsensus.stored (c : PBFTConsensus) : PBFTConsensus := { c with latency := c.latency.bmod (2 ^ 32) }

/-- What a replica decides in a run, given by its states, the last one first: each request that it confirms, with
the round in which it does. -/
def System.decisions (p : InterfaceId) : List System → List (ClientRequest × Nat)
  | after :: before :: earlier =>
    System.decisions p (before :: earlier) ++
      ((after.peers p).confirmedTrans.drop (before.peers p).confirmedTrans.length).map fun req =>
        (req, before.round)
  | _ => []

/-- `_latency` adds up, over the confirmed requests, how long after its submission each was decided. -/
structure Timed (round : Nat) (c : PBFTConsensus) (decisions : List (ClientRequest × Nat)) : Prop where
  confirmed : c.confirmedTrans = decisions.map Prod.fst
  submitted : ∀ x ∈ decisions, x.1.roundSubmitted ≤ x.2
  inOrder : (decisions.map Prod.snd).Pairwise (· ≤ ·)
  past : ∀ x ∈ decisions, x.2 ≤ round
  latency : c.latency = (decisions.map fun x => (x.2 : Int) - x.1.roundSubmitted).sum

theorem Timed.latency_bounds {round : Nat} {c : PBFTConsensus} {decisions : List (ClientRequest × Nat)}
    (h : Timed round c decisions) : 0 ≤ c.latency ∧ c.latency ≤ round * c.confirmedTrans.length := by
  have hterms : ∀ x ∈ decisions, 0 ≤ (x.2 : Int) - x.1.roundSubmitted ∧ (x.2 : Int) - x.1.roundSubmitted ≤ round := by
    intro x hx
    have hsubmitted := h.submitted x hx
    have hpast := h.past x hx
    omega
  rw [h.latency, h.confirmed, List.length_map]
  generalize decisions = ds at hterms
  induction ds with
  | nil => simp
  | cons x rest ih =>
    obtain ⟨hlow, hhigh⟩ := ih fun y hy => hterms y (List.mem_cons_of_mem x hy)
    have hx := hterms x List.mem_cons_self
    rw [List.map_cons, List.sum_cons, List.length_cons]
    push_cast
    rw [mul_add, mul_one]
    constructor
    · omega
    · omega

theorem Timed.stored_eq {round : Nat} {c : PBFTConsensus} {decisions : List (ClientRequest × Nat)}
    (h : Timed round c decisions) (hrange : round * c.confirmedTrans.length < 2 ^ 31) : c.stored = c := by
  obtain ⟨hlow, hhigh⟩ := h.latency_bounds
  have hint : ((round * c.confirmedTrans.length : Nat) : Int) < 2 ^ 31 := by exact_mod_cast hrange
  push_cast at hint
  have hsame : c.latency.bmod (2 ^ 32) = c.latency := by
    apply Int.bmod_eq_of_le_mul_two
    · omega
    · omega
  rw [PBFTConsensus.stored, hsame]

theorem call_latency (ctx : Ctx) (s : Local) :
    (call ctx s).1.confirmedTrans = s.confirmedTrans ∧ (call ctx s).1.latency = s.latency ∨
      ∃ pp, .phase pp ∈ s.receivedMessages ∧ (call ctx s).1.confirmedTrans = s.confirmedTrans ++ [pp.request] ∧
        (call ctx s).1.latency = s.latency + ((ctx.round : Int) - pp.request.roundSubmitted) := by
  have hcall := call_cases ctx s
  obtain ⟨lastStable, low, high, log, htrimmed, hlog⟩ := maybeStableCheckpoint_eq ctx s
  rw [htrimmed] at hcall
  generalize call ctx s = res at hcall ⊢
  cases hcall with
  | timeout => exact .inl ⟨rfl, rfl⟩
  | wait => exact .inl ⟨rfl, rfl⟩
  | propose =>
    obtain ⟨tx, queue, next, outbox, heq⟩ := propose_eq ctx (trimmed s lastStable low high log)
    rw [heq]
    exact .inl ⟨rfl, rfl⟩
  | prepare => exact .inl ⟨rfl, rfl⟩
  | commit => exact .inl ⟨rfl, rfl⟩
  | decide pp hphase htimer hpp =>
    refine .inr ⟨pp, hlog _ (mem_phaseMessages.mp (List.mem_of_find?_eq_some hpp)).1,
      decideRequest_confirmedTrans .., ?_⟩
    unfold decideRequest sendCheckpoint
    dsimp only
    split_ifs
    · rfl
    · rfl
  | enterNewView =>
    split_ifs
    · exact .inl ⟨rfl, rfl⟩
    · exact .inl ⟨rfl, rfl⟩
  | install nv =>
    obtain ⟨sent, heq, -⟩ := foldl_reissue ctx nv.preparedProof { trimmed s lastStable low high log with
      lowWaterMark := lastStable
      highWaterMark := lastStable + WINDOW }
    exact .inl ⟨congrArg (·.confirmedTrans) heq, congrArg (·.latency) heq⟩

namespace Timed
variable {round : Nat} {c c' : PBFTConsensus} {decisions : List (ClientRequest × Nat)}

theorem same (h : Timed round c decisions) (hconfirmed : c'.confirmedTrans = c.confirmedTrans)
    (hlatency : c'.latency = c.latency) : Timed round c' decisions :=
  ⟨hconfirmed.trans h.confirmed, h.submitted, h.inOrder, h.past, hlatency.trans h.latency⟩

theorem later (h : Timed round c decisions) : Timed (round + 1) c decisions :=
  ⟨h.confirmed, h.submitted, h.inOrder, fun x hx => (h.past x hx).trans (Nat.le_succ round), h.latency⟩

theorem decide (h : Timed round c decisions) {req : ClientRequest} (hround : req.roundSubmitted ≤ round)
    (hconfirmed : c'.confirmedTrans = c.confirmedTrans ++ [req])
    (hlatency : c'.latency = c.latency + ((round : Int) - req.roundSubmitted)) :
    Timed round c' (decisions ++ [(req, round)]) := by
  refine ⟨?_, ?_, ?_, ?_, ?_⟩
  · rw [hconfirmed, h.confirmed, List.map_append, List.map_singleton]
  · intro x hx
    rcases List.mem_append.mp hx with hx | hx
    · exact h.submitted x hx
    · rw [List.mem_singleton.mp hx]
      exact hround
  · rw [List.map_append, List.pairwise_append]
    refine ⟨h.inOrder, List.pairwise_singleton .., fun d hd d' hd' => ?_⟩
    obtain ⟨x, hx, rfl⟩ := List.mem_map.mp hd
    rw [List.mem_singleton.mp hd']
    exact h.past x hx
  · intro x hx
    rcases List.mem_append.mp hx with hx | hx
    · exact h.past x hx
    · rw [List.mem_singleton.mp hx]
  · rw [hlatency, h.latency, List.map_append, List.sum_append, List.map_singleton, List.sum_singleton]

end Timed

namespace System
variable {cfg : Config} {sys sys' last : System} {run : List System}

theorem decisions_of_same {q : InterfaceId} (h : (sys'.peers q).confirmedTrans = (sys.peers q).confirmedTrans) :
    decisions q (sys' :: sys :: run) = decisions q (sys :: run) := by
  rw [decisions, h, List.drop_length, List.map_nil, List.append_nil]

theorem decisions_of_append {q : InterfaceId} {req : ClientRequest}
    (h : (sys'.peers q).confirmedTrans = (sys.peers q).confirmedTrans ++ [req]) :
    decisions q (sys' :: sys :: run) = decisions q (sys :: run) ++ [(req, sys.round)] := by
  rw [decisions, h, List.drop_left, List.map_singleton]

theorem timed_step (inv : RequestInv cfg sys) {e : Event} (hstep : step cfg sys e = some sys') {q : InterfaceId}
    (h : Timed sys.round (sys.peers q) (decisions q (sys :: run))) :
    Timed sys'.round (sys'.peers q) (decisions q (sys' :: sys :: run)) := by
  rcases step_cases hstep with ⟨-, rfl⟩ | ⟨p, pkt, rfl, hp, hpkt, -, -, rfl⟩ | ⟨p, rfl, hp, rfl⟩
  · have hsame : (({ sys with round := sys.round + 1 } : System).peers q).confirmedTrans =
        (sys.peers q).confirmedTrans := rfl
    rw [decisions_of_same hsame]
    exact h.later
  · by_cases hq : q = p
    · subst hq
      obtain ⟨ms, queue, heq⟩ := onMessage_frame (sys.ctx cfg q) pkt.message (sys.start q)
      have hconfirmed : ((sys.after q (onMessage (sys.ctx cfg q) pkt.message (sys.start q))).peers q).confirmedTrans =
          (sys.peers q).confirmedTrans := by
        rw [after_self, heq]
        rfl
      rw [decisions_of_same hconfirmed]
      apply h.same hconfirmed
      rw [after_self, heq]
      rfl
    · rw [decisions_of_same (by rw [after_other hq]), after_other hq]
      exact h
  · by_cases hq : q = p
    · subst hq
      rcases call_latency (sys.ctx cfg q) (sys.start q) with
        ⟨hconfirmed, hlatency⟩ | ⟨pp, hpp, hconfirmed, hlatency⟩
      · rw [decisions_of_same (by rw [after_self]; exact hconfirmed), after_self]
        exact h.same hconfirmed hlatency
      · have hmem : pp.request ∈ (Message.phase pp).requests := List.mem_singleton.mpr rfl
        obtain ⟨target, hsent⟩ := (inv.heard q _ hpp _ hmem).submitted
        have hround : pp.request.roundSubmitted ≤ sys.round := (inv.issued _ hsent _ rfl).2.2.1
        rw [decisions_of_append (by rw [after_self]; exact hconfirmed), after_self]
        exact h.decide hround hconfirmed hlatency
    · rw [decisions_of_same (by rw [after_other hq]), after_other hq]
      exact h

theorem timed_run (h : (machine cfg).Passes (last :: run)) (q : InterfaceId) :
    Timed last.round (last.peers q) (decisions q (last :: run)) := by
  generalize hstates : last :: run = states at h
  induction h generalizing last run with
  | start hs =>
    obtain ⟨rfl, rfl⟩ := List.cons.inj hstates
    rw [show last = initial from hs]
    exact ⟨rfl, by simp [decisions], .nil, by simp [decisions], rfl⟩
  | next hr _ hstep ih =>
    obtain ⟨rfl, rfl⟩ := List.cons.inj hstates
    exact timed_step (requestInv_of_reached (hr.reached _ List.mem_cons_self)) hstep (ih rfl)

theorem latency_bounds {round : Nat} {cs : List PBFTConsensus}
    (h : ∀ c ∈ cs, 0 ≤ c.latency ∧ c.latency ≤ round * c.confirmedTrans.length) :
    0 ≤ (cs.map fun c => c.latency).sum ∧
      (cs.map fun c => c.latency).sum ≤ round * ((cs.map fun c => c.confirmedTrans.length).sum : Nat) := by
  induction cs with
  | nil => simp
  | cons c cs ih =>
    obtain ⟨hlow, hhigh⟩ := h c List.mem_cons_self
    obtain ⟨hlow', hhigh'⟩ := ih fun c' hc' => h c' (List.mem_cons_of_mem c hc')
    simp only [List.map_cons, List.sum_cons, Nat.cast_add]
    rw [mul_add]
    constructor
    · omega
    · omega

theorem faultyConfirmed_le (cs : List PBFTConsensus) :
    (cs.map fun c => c.confirmedTrans.countP fun trans => trans.faultFlip).sum ≤
      (cs.map fun c => c.confirmedTrans.length).sum := by
  induction cs with
  | nil => simp
  | cons c cs ih =>
    have hle := List.countP_le_length (l := c.confirmedTrans) (p := fun trans => trans.faultFlip)
    simp only [List.map_cons, List.sum_cons]
    omega

/-- **Latency.** In every run each replica has confirmed the requests that it decided, in this order, and its
`_latency` is the sum of the rounds from the submission of each to its decision. So, while the counters are within
`int`, the latency that a round reports lies between 0 and that round; the share of flipped requests lies between
0 and 1, and without a fault it is 0. -/
theorem metrics_bounded (h : (machine cfg).Passes (last :: run)) (peers : List InterfaceId)
    (hrange : ∀ p ∈ peers, last.round * (last.peers p).confirmedTrans.length < 2 ^ 31) :
    (∀ p, Timed last.round (last.peers p) (decisions p (last :: run))) ∧
    (∀ p ∈ peers, (last.peers p).stored.latency = (last.peers p).latency) ∧
    let report := endOfRound (peers.map fun p => (last.peers p).stored)
    0 ≤ report.latency ∧ report.latency ≤ last.round ∧ 0 ≤ report.faultyConfirmed ∧ report.faultyConfirmed ≤ 1 ∧
      ((∀ p ∈ cfg.committee.members, cfg.Honest p) → report.faultyConfirmed = 0) := by
  have htimed := timed_run h
  have hreached := h.reached last List.mem_cons_self
  have hstored : ∀ p ∈ peers, (last.peers p).stored = last.peers p :=
    fun p hp => (htimed p).stored_eq (hrange p hp)
  refine ⟨htimed, fun p hp => by rw [hstored p hp], ?_⟩
  rw [List.map_congr_left hstored]
  have hall : ∀ c ∈ peers.map last.peers, 0 ≤ c.latency ∧ c.latency ≤ last.round * c.confirmedTrans.length := by
    intro c hc
    obtain ⟨p, -, rfl⟩ := List.mem_map.mp hc
    exact (htimed p).latency_bounds
  obtain ⟨hlow, hhigh⟩ := latency_bounds hall
  have hfaulty := faultyConfirmed_le (peers.map last.peers)
  have hnone : (∀ p ∈ cfg.committee.members, cfg.Honest p) →
      ((peers.map last.peers).map fun c => c.confirmedTrans.countP fun trans => trans.faultFlip).sum = 0 := by
    intro hhonest
    rw [List.sum_eq_zero_iff]
    intro n hn
    rw [List.map_map] at hn
    obtain ⟨p, -, rfl⟩ := List.mem_map.mp hn
    rw [Function.comp_apply, List.countP_eq_zero]
    intro req hreq hflip
    obtain ⟨q, hq, hfault⟩ := ((requestInv_of_reached hreached).confirmed p req hreq).flipped hflip
    exact hfault (hhonest q hq)
  unfold endOfRound
  dsimp only
  generalize ((peers.map last.peers).map fun c => c.confirmedTrans.length).sum = length at hhigh hfaulty ⊢
  generalize ((peers.map last.peers).map fun c => c.latency).sum = latency at hlow hhigh ⊢
  generalize ((peers.map last.peers).map fun c =>
    c.confirmedTrans.countP fun trans => trans.faultFlip).sum = faulty at hfaulty hnone ⊢
  by_cases hlength : 0 < length
  · rw [if_pos hlength]
    have hpos : (0 : ℚ) < length := by exact_mod_cast hlength
    refine ⟨?_, ?_, ?_, ?_, fun hhonest => ?_⟩
    · apply div_nonneg
      · exact_mod_cast hlow
      · exact hpos.le
    · rw [div_le_iff₀ hpos]
      exact_mod_cast hhigh
    · apply div_nonneg
      · exact Nat.cast_nonneg faulty
      · exact hpos.le
    · rw [div_le_one hpos]
      exact_mod_cast hfaulty
    · rw [hnone hhonest]
      simp
  · rw [if_neg hlength]
    simp

def equivocatorDelayed : List Event := .call 0 :: .nextRound :: .nextRound :: equivocatorOutvoted.tail

/-- Replica 0 decides its request of round 0 in round 2, and replica 1 decides nothing. -/
theorem metrics_bounded_delayed :
    ∃ last run, (machine fourWithEquivocator).Passes (last :: run) ∧ last.round = 2 ∧
      decisions 0 (last :: run) = [(⟨0, 0, 0, false⟩, 2)] ∧ decisions 1 (last :: run) = [] ∧
      (endOfRound ([0, 1].map fun p => (last.peers p).stored)).latency ≤ last.round := by
  have hrun : ((machine fourWithEquivocator).runUnder (fun _ _ => True) initial equivocatorDelayed).map
      (fun sys => (sys.round, (sys.peers 0).confirmedTrans, (sys.peers 0).latency,
        (sys.peers 1).confirmedTrans)) = some (2, [⟨0, 0, 0, false⟩], 2, []) := by
    decide +kernel
  obtain ⟨last, hlast, hvalues⟩ := Option.map_eq_some_iff.mp hrun
  obtain ⟨hround, hvalues⟩ := Prod.mk.inj hvalues
  obtain ⟨hconfirmed, hvalues⟩ := Prod.mk.inj hvalues
  obtain ⟨hlatency, hother⟩ := Prod.mk.inj hvalues
  obtain ⟨run, hpasses⟩ := Lib.Machine.passesUnder_of_runUnder (.start rfl) hlast
  have hrange : ∀ p ∈ [(0 : InterfaceId), 1], last.round * (last.peers p).confirmedTrans.length < 2 ^ 31 := by
    intro p hp
    rcases List.mem_pair.mp hp with rfl | rfl
    · rw [hround, hconfirmed]
      decide
    · rw [hround, hother]
      decide
  obtain ⟨htimed, -, -, hbound, -⟩ := metrics_bounded hpasses [0, 1] hrange
  refine ⟨last, run, hpasses, hround, ?_, ?_, hbound⟩
  · have h0 := htimed 0
    obtain ⟨x, hx⟩ : ∃ x, decisions 0 (last :: run) = [x] := by
      apply List.length_eq_one_iff.mp
      rw [← List.length_map (f := Prod.fst), ← h0.confirmed, hconfirmed]
      rfl
    have hreq := h0.confirmed
    have hsum := h0.latency
    rw [hx] at hreq hsum ⊢
    rw [hconfirmed, List.map_singleton] at hreq
    obtain ⟨req, d⟩ := x
    obtain rfl := List.singleton_injective hreq
    rw [hlatency, List.map_singleton, List.sum_singleton] at hsum
    obtain rfl : d = 2 := by
      dsimp only at hsum
      omega
    rfl
  · have h1 := (htimed 1).confirmed
    rw [hother] at h1
    exact List.map_eq_nil_iff.mp h1.symm

end System

end Quantas.Pbft
