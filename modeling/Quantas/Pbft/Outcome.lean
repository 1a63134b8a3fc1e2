import Quantas.Pbft.Consensus

/-!
# PBFT: what one call can do

`call_cases` says what a call computes after its checkpoint bookkeeping, and `Outcome` lists what comes of it:
nothing, a view change, or the step of its phase with the message that this step rests on. `Emits ctx s r ms`
says which messages were sent on the way from `s` to `r`, and that the log of `r` has no others besides those
of `s`.
-/

namespace Quantas.Pbft

variable {ctx : Ctx} {s r : Local}

/-! ## Messages sent -/

theorem mem_packets_of_no_fault (ctx : Ctx) (h : ctx.fault = none) {msg : Message} {pkt : Packet Message} :
    pkt ∈ packets ctx msg ↔ pkt.source = ctx.self ∧ pkt.target ∈ ctx.members ∧ pkt.message = msg := by
  rw [packets, h]
  simp only [Option.bind_none, Option.getD_none, List.map_map, List.mem_map, Function.comp_def]
  constructor
  · rintro ⟨target, htarget, rfl⟩
    exact ⟨rfl, htarget, rfl⟩
  · rintro ⟨hsource, htarget, hmessage⟩
    refine ⟨pkt.target, htarget, ?_⟩
    rw [← hsource, ← hmessage]

theorem of_mem_packets {msg : Message} {pkt : Packet Message} (h : pkt ∈ packets ctx msg) :
    pkt.source = ctx.self ∧ pkt.message.fromId = msg.fromId := by
  unfold packets at h
  obtain ⟨⟨target, m⟩, hmem, rfl⟩ := List.mem_map.mp h
  refine ⟨rfl, ?_⟩
  cases hfault : ctx.fault.bind fun fault => fault.onSend msg ctx.members with
  | none =>
    rw [hfault, Option.getD_none] at hmem
    obtain ⟨_, -, heq⟩ := List.mem_map.mp hmem
    rw [← (Prod.mk.inj heq).2]
  | some sends =>
    obtain ⟨fault, -, hsends⟩ := Option.bind_eq_some_iff.mp hfault
    rw [hfault, Option.getD_some] at hmem
    exact (EquivocateFault.onSend_fromId hsends _ hmem).2

/-- The messages `ms` were sent on the way from `s` to `r`, and the log has no other new ones. -/
structure Emits (ctx : Ctx) (s r : Local) (ms : List Message) : Prop where
  outbox : r.outbox = s.outbox ++ ms.flatMap (packets ctx)
  log : ∀ m ∈ r.receivedMessages, m ∈ s.receivedMessages ∨ m ∈ ms

namespace Emits

theorem nothing (houtbox : r.outbox = s.outbox) (hlog : ∀ m ∈ r.receivedMessages, m ∈ s.receivedMessages) :
    Emits ctx s r [] :=
  ⟨by rw [houtbox, List.flatMap_nil, List.append_nil], fun m hm => .inl (hlog m hm)⟩

theorem single {msg : Message} {log : List Message} (houtbox : r.outbox = s.outbox ++ packets ctx msg)
    (hr : r.receivedMessages = log ++ [msg]) (hlog : ∀ m ∈ log, m ∈ s.receivedMessages) :
    Emits ctx s r [msg] where
  outbox := by rw [houtbox, List.flatMap_singleton]
  log := by
    intro m hm
    rw [hr] at hm
    exact (List.mem_append.mp hm).imp_left (hlog m)

end Emits

/-! ## Logs -/

theorem mem_phaseMessages {c : PBFTConsensus} {type : PhaseType} {n v : Nat} {m : PhaseMessage} :
    m ∈ phaseMessages c type n v ↔
      .phase m ∈ c.receivedMessages ∧ m.messageType = type ∧ m.seqNum = n ∧ m.view = v := by
  simp [phaseMessages]

theorem mem_viewChangesBefore {c : PBFTConsensus} {n v : Nat} {m : ViewChange} :
    m ∈ viewChangesBefore c n v ↔ .viewChange m ∈ c.receivedMessages ∧ m.seqNum = n ∧ m.view + 1 = v := by
  simp [viewChangesBefore]

theorem mem_newViews {c : PBFTConsensus} {n v : Nat} {m : NewView} :
    m ∈ newViews c n v ↔ .newView m ∈ c.receivedMessages ∧ m.seqNum = n ∧ m.view = v := by
  simp [newViews]

/-- More than a quorum of members have sent a message of one type for one view, sequence number and digest;
`L` is where the messages are looked up. -/
def Voted (ctx : Ctx) (L : Message → Prop) (type : PhaseType) (v n : Nat) (d : String) : Prop :=
  ∃ S : Finset InterfaceId, quorum ctx < S.card ∧ ∀ z ∈ S, ∃ m, L (.phase m) ∧ m.messageType = type ∧
    m.seqNum = n ∧ m.view = v ∧ ctx.digestOf m.request = d ∧ m.fromId = z

/-- The leader of a view has proposed, and more than a quorum have prepared. -/
def Certified (ctx : Ctx) (L : Message → Prop) (v n : Nat) (d : String) : Prop :=
  (∃ m, L (.phase m) ∧ m.messageType = .prePrepare ∧ m.seqNum = n ∧ m.view = v ∧
    ctx.digestOf m.request = d ∧ m.fromId = leaderFor ctx v) ∧ Voted ctx L .prepare v n d

section
variable {L L' : Message → Prop} {type : PhaseType} {v n : Nat} {d : String}

theorem Voted.mono (h : Voted ctx L type v n d) (hL : ∀ m, L m → L' m) : Voted ctx L' type v n d := by
  obtain ⟨S, hS, hsent⟩ := h
  refine ⟨S, hS, fun z hz => ?_⟩
  obtain ⟨m, hm, hrest⟩ := hsent z hz
  exact ⟨m, hL _ hm, hrest⟩

theorem Certified.mono (h : Certified ctx L v n d) (hL : ∀ m, L m → L' m) : Certified ctx L' v n d := by
  obtain ⟨⟨m, hm, hrest⟩, hvoted⟩ := h
  exact ⟨⟨m, hL _ hm, hrest⟩, hvoted.mono hL⟩

end

theorem voted_of_senders {c : PBFTConsensus} {type : PhaseType} {v n : Nat} {d : String}
    (h : quorum ctx < (senders ctx c type v n d).card) :
    Voted ctx (· ∈ c.receivedMessages) type v n d := by
  refine ⟨_, h, fun z hz => ?_⟩
  obtain ⟨m, hm, rfl⟩ := List.mem_map.mp (List.mem_toFinset.mp hz)
  obtain ⟨hmem, hmatch⟩ := List.mem_filter.mp hm
  obtain ⟨hlog, htype, hseq, hview⟩ := mem_phaseMessages.mp hmem
  exact ⟨m, hlog, htype, hseq, hview, (of_decide_eq_true hmatch).2.2, rfl⟩

theorem certified_of_isPrepared {c : PBFTConsensus} {v n : Nat} {d : String}
    (h : isPrepared ctx c v n d = true) : Certified ctx (· ∈ c.receivedMessages) v n d := by
  obtain ⟨hpp, hcount⟩ := Bool.and_eq_true_iff.mp h
  obtain ⟨m, hmem, hm⟩ := List.any_eq_true.mp hpp
  obtain ⟨hlog, htype, hseq, hview⟩ := mem_phaseMessages.mp hmem
  obtain ⟨-, -, hdigest, hleader⟩ := of_decide_eq_true hm
  exact ⟨⟨m, hlog, htype, hseq, hview, hdigest, hleader⟩, voted_of_senders (of_decide_eq_true hcount)⟩

/-! ## The outcomes of a call -/

structure Kept (s r : Local) : Prop where
  view : r.view = s.view
  confirmedTrans : r.confirmedTrans = s.confirmedTrans
  unhandledRequests : r.unhandledRequests = s.unhandledRequests
  currentClientRequestId : r.currentClientRequestId = s.currentClientRequestId

/-- A pre-prepare of the log for the next sequence number in the own view. -/
structure NextProposal (s : Local) (pp : PhaseMessage) : Prop where
  log : .phase pp ∈ s.receivedMessages
  messageType : pp.messageType = .prePrepare
  seqNum : pp.seqNum = s.confirmedTrans.length
  view : pp.view = s.view

/-- The timer has run out for the phase that the replica is in. -/
def TimedOut (ctx : Ctx) (c : PBFTConsensus) : Prop :=
  match c.phase with
  | .prePrepare | .prepare | .commit => c.viewChangeTimer < ctx.round
  | .viewChange | .newView => c.viewChangeTimer ≤ ctx.round

instance (ctx : Ctx) (c : PBFTConsensus) : Decidable (TimedOut ctx c) := by
  unfold TimedOut
  cases c.phase <;> infer_instance

theorem TimedOut.of_commit {ctx : Ctx} {c : PBFTConsensus} (h : TimedOut ctx c) (hphase : c.phase = .commit) :
    c.viewChangeTimer < ctx.round := by
  unfold TimedOut at h
  rwa [hphase] at h

/-- What a call can do on the way from `s` to `r`, and the messages that it sends. -/
inductive Outcome (ctx : Ctx) (s r : Local) : List Message → Prop
  | idle (hkept : Kept s r) (hphase : r.phase = s.phase) : Outcome ctx s r []
  | viewChange (vc : ViewChange) (htimer : TimedOut ctx s.toPBFTConsensus)
      (hview : r.view = s.view + 1) (hphase : r.phase = .viewChange)
      (hconfirmed : r.confirmedTrans = s.confirmedTrans)
      (hqueue : r.unhandledRequests = s.unhandledRequests)
      (hnext : r.currentClientRequestId = s.currentClientRequestId)
      (hfrom : vc.fromId = ctx.self) (hold : vc.view = s.view) (hnew : vc.newView = s.view + 1)
      (hproof : ∀ pp ∈ vc.preparedProof, .phase pp ∈ s.receivedMessages ∧ pp.messageType = .prePrepare ∧
        Certified ctx (· ∈ s.receivedMessages) s.view pp.seqNum (ctx.digestOf pp.request)) :
      Outcome ctx s r [.viewChange vc]
  | proposeFirst (round : Nat) (tx : ClientRequest) (rest : List (Nat × ClientRequest)) (hkept : Kept s r)
      (hphase : s.phase = .prePrepare) (hphase' : r.phase = .prepare)
      (htimer : ¬ s.viewChangeTimer < ctx.round) (hself : ctx.self = leaderFor ctx s.view)
      (hqueue : s.unhandledRequests = (round, tx) :: rest) :
      Outcome ctx s r [.phase ⟨.prePrepare, s.confirmedTrans.length, s.view, tx, s.view, ctx.self⟩]
  | proposeOwn (tx : ClientRequest) (hphase : s.phase = .prePrepare) (hphase' : r.phase = .prepare)
      (hself : ctx.self = leaderFor ctx s.view) (hview : r.view = s.view)
      (hconfirmed : r.confirmedTrans = s.confirmedTrans)
      (htx : tx.submitterId = ctx.self ∧ tx.requestId = s.currentClientRequestId)
      (hqueue : ∀ e ∈ r.unhandledRequests, e.2 = tx)
      (hnext : r.currentClientRequestId = s.currentClientRequestId + 1) :
      Outcome ctx s r [.request tx,
        .phase ⟨.prePrepare, s.confirmedTrans.length, s.view, tx, s.view, ctx.self⟩]
  | prepare (pp : PhaseMessage) (hkept : Kept s r) (hphase : s.phase = .prePrepare)
      (hphase' : r.phase = .prepare) (hself : ctx.self ≠ leaderFor ctx s.view) (hpp : NextProposal s pp) :
      Outcome ctx s r [.phase { pp with messageType := .prepare, fromId := ctx.self }]
  | commit (pp : PhaseMessage) (hkept : Kept s r) (hphase : s.phase = .prepare) (hphase' : r.phase = .commit)
      (hpp : NextProposal s pp)
      (hcertified : Certified ctx (· ∈ s.receivedMessages) s.view s.confirmedTrans.length
        (ctx.digestOf pp.request)) :
      Outcome ctx s r [.phase { pp with messageType := .commit, fromId := ctx.self }]
  | decide (pp : PhaseMessage) (ms : List Message) (hphase : s.phase = .commit)
      (hphase' : r.phase = .prePrepare) (hview : r.view = s.view) (hpp : NextProposal s pp)
      (hconfirmed : r.confirmedTrans = s.confirmedTrans ++ [pp.request])
      (hqueue : ∀ e ∈ r.unhandledRequests, e ∈ s.unhandledRequests)
      (hnext : r.currentClientRequestId = s.currentClientRequestId)
      (hvoted : Voted ctx (· ∈ s.receivedMessages) .commit s.view s.confirmedTrans.length
        (ctx.digestOf pp.request))
      (hms : ∀ m ∈ ms, ∃ c : Checkpoint, m = .checkpoint c ∧ c.fromId = ctx.self) :
      Outcome ctx s r ms
  | enterNewView (ms : List Message) (hkept : Kept s r) (hphase : s.phase = .viewChange)
      (hphase' : r.phase = .newView)
      (hms : ∀ m ∈ ms, ∃ nv : NewView, m = .newView nv ∧ nv.fromId = ctx.self ∧ nv.view = s.view ∧
        ∀ pp ∈ nv.preparedProof, ∃ vc, .viewChange vc ∈ s.receivedMessages ∧ vc.newView = s.view ∧
          pp ∈ vc.preparedProof) :
      Outcome ctx s r ms
  | install (nv : NewView) (hkept : Kept s r) (hphase : s.phase = .newView) (hphase' : r.phase = .prePrepare)
      (hlog : .newView nv ∈ s.receivedMessages) (hview : nv.view = s.view)
      (hleader : nv.fromId = leaderFor ctx s.view) :
      Outcome ctx s r (nv.preparedProof.map fun pp =>
        .phase ⟨.prePrepare, pp.seqNum, s.view, pp.request, s.view, ctx.self⟩)

def Steps (ctx : Ctx) (s r : Local) : Prop := ∃ ms, Emits ctx s r ms ∧ Outcome ctx s r ms

/-! ## Reception -/

theorem onMessage_same (ctx : Ctx) (msg : Message) (s : Local) :
    (onMessage ctx msg s).view = s.view ∧ (onMessage ctx msg s).confirmedTrans = s.confirmedTrans ∧
    (onMessage ctx msg s).phase = s.phase ∧ (onMessage ctx msg s).outbox = s.outbox ∧
    (onMessage ctx msg s).currentClientRequestId = s.currentClientRequestId ∧
    (∀ m ∈ (onMessage ctx msg s).receivedMessages, m ∈ s.receivedMessages ∨ m = msg) ∧
    ∀ e ∈ (onMessage ctx msg s).unhandledRequests, e ∈ s.unhandledRequests ∨ msg = .request e.2 := by
  cases msg with
  | request req =>
    refine ⟨rfl, rfl, rfl, rfl, rfl, fun m hm => .inl hm, fun e he => ?_⟩
    rcases mem_multimapInsert.mp he with rfl | he
    · exact .inr rfl
    · exact .inl he
  | _ =>
    exact ⟨rfl, rfl, rfl, rfl, rfl, fun m hm => (List.mem_append.mp hm).imp_right List.mem_singleton.mp,
      fun e he => .inl he⟩

/-! ## The phases -/

def trimmed (s : Local) (lastStable low high : Nat) (log : List Message) : Local :=
  { s with
    lastStableCheckpoint := lastStable
    lowWaterMark := low
    highWaterMark := high
    receivedMessages := log }

section Trimmed
variable {lastStable low high : Nat} {log : List Message}

theorem trimmed_view : (trimmed s lastStable low high log).view = s.view := rfl

theorem trimmed_viewChangeTimer :
    (trimmed s lastStable low high log).viewChangeTimer = s.viewChangeTimer := rfl

theorem maybeStableCheckpoint_eq (ctx : Ctx) (s : Local) : ∃ lastStable low high log,
    maybeStableCheckpoint ctx s = trimmed s lastStable low high log ∧
      ∀ m ∈ log, m ∈ s.receivedMessages := by
  unfold maybeStableCheckpoint
  dsimp only
  split_ifs
  · exact ⟨_, _, _, _, rfl, fun _ => id⟩
  · exact ⟨_, _, _, _, rfl, fun m hm => (List.mem_filter.mp hm).1⟩
  · exact ⟨_, _, _, _, rfl, fun _ => id⟩

theorem steps_idle (hlog : ∀ m ∈ log, m ∈ s.receivedMessages) :
    Steps ctx s (trimmed s lastStable low high log) :=
  ⟨[], .nothing rfl hlog, .idle ⟨rfl, rfl, rfl, rfl⟩ rfl⟩

theorem steps_requestViewChange (hlog : ∀ m ∈ log, m ∈ s.receivedMessages)
    (htimer : TimedOut ctx s.toPBFTConsensus) :
    Steps ctx s (requestViewChange ctx (trimmed s lastStable low high log)) := by
  refine ⟨_, .single rfl rfl hlog, .viewChange _ htimer rfl rfl rfl rfl rfl rfl rfl rfl ?_⟩
  intro pp hpp
  obtain ⟨n, -, hproof⟩ := List.mem_filterMap.mp hpp
  obtain ⟨hmem, htype, hseq, hview⟩ := mem_phaseMessages.mp (List.mem_of_find?_eq_some hproof)
  have hfound := List.find?_some hproof
  subst hseq
  exact ⟨hlog _ hmem, htype, (certified_of_isPrepared (of_decide_eq_true hfound).2).mono hlog⟩

theorem propose_cases (ctx : Ctx) (s : Local) : ∃ tx s',
    propose ctx s = { multicastAndInsert ctx
      (.phase ⟨.prePrepare, nextSeq s.toPBFTConsensus, s.view, tx, s.view, ctx.self⟩) s' with phase := .prepare } ∧
    ((∃ round rest, s.unhandledRequests = (round, tx) :: rest ∧ s' = s) ∨
      tx = ⟨s.currentClientRequestId, ctx.self, ctx.round, false⟩ ∧ s' = submitRequest ctx s ∧
        s'.unhandledRequests = [(ctx.round, tx)]) := by
  cases hqueue : s.unhandledRequests with
  | nil =>
    have hsubmitted : (submitRequest ctx s).unhandledRequests =
        [(ctx.round, ⟨s.currentClientRequestId, ctx.self, ctx.round, false⟩)] := by
      show multimapInsert _ _ s.unhandledRequests = _
      rw [hqueue]
      rfl
    unfold propose
    simp only [hqueue, if_true, hsubmitted]
    exact ⟨_, _, rfl, .inr ⟨rfl, rfl, hsubmitted⟩⟩
  | cons e rest =>
    obtain ⟨round, tx⟩ := e
    unfold propose
    simp only [hqueue, List.cons_ne_nil, if_false]
    exact ⟨tx, s, rfl, .inl ⟨round, rest, rfl, rfl⟩⟩

theorem propose_eq (ctx : Ctx) (s : Local) : ∃ tx queue next outbox,
    propose ctx s = { multicastAndInsert ctx
      (.phase ⟨.prePrepare, nextSeq s.toPBFTConsensus, s.view, tx, s.view, ctx.self⟩) { s with
        unhandledRequests := queue
        currentClientRequestId := next
        outbox := outbox } with phase := .prepare } := by
  obtain ⟨tx, s', heq, ⟨_, _, _, rfl⟩ | ⟨-, rfl, -⟩⟩ := propose_cases ctx s
  · exact ⟨tx, _, _, _, heq⟩
  · exact ⟨tx, _, _, _, heq⟩

theorem propose_confirmedTrans (ctx : Ctx) (s : Local) : (propose ctx s).confirmedTrans = s.confirmedTrans := by
  obtain ⟨tx, queue, next, outbox, heq⟩ := propose_eq ctx s
  rw [heq]
  rfl

theorem steps_propose (hlog : ∀ m ∈ log, m ∈ s.receivedMessages) (hphase : s.phase = .prePrepare)
    (htimer : ¬ s.viewChangeTimer < ctx.round) (hself : ctx.self = leaderFor ctx s.view) :
    Steps ctx s (propose ctx (trimmed s lastStable low high log)) := by
  obtain ⟨tx, s', heq, ⟨round, rest, hqueue, rfl⟩ | ⟨rfl, rfl, hsubmitted⟩⟩ :=
    propose_cases ctx (trimmed s lastStable low high log)
  · rw [heq]
    exact ⟨_, .single rfl rfl hlog,
      .proposeFirst round tx rest ⟨rfl, rfl, rfl, rfl⟩ hphase rfl htimer hself hqueue⟩
  · rw [heq]
    refine ⟨_, ⟨?_, ?_⟩, .proposeOwn ⟨s.currentClientRequestId, ctx.self, ctx.round, false⟩ hphase rfl hself
      rfl rfl ⟨rfl, rfl⟩ (fun e he => ?_) rfl⟩
    · rw [List.flatMap_cons, List.flatMap_singleton, ← List.append_assoc]
      rfl
    · intro m hm
      rcases List.mem_append.mp hm with hm | hm
      · exact .inl (hlog m hm)
      · exact .inr (List.mem_cons_of_mem _ hm)
    · change e ∈ (submitRequest ctx (trimmed s lastStable low high log)).unhandledRequests at he
      rw [hsubmitted] at he
      rw [List.mem_singleton.mp he]
      rfl

theorem steps_decide (hlog : ∀ m ∈ log, m ∈ s.receivedMessages) (hphase : s.phase = .commit)
    {pp : PhaseMessage} (hpp : NextProposal s pp)
    (hvoted : Voted ctx (· ∈ s.receivedMessages) .commit s.view s.confirmedTrans.length
      (ctx.digestOf pp.request)) :
    Steps ctx s (decideRequest ctx pp.request (trimmed s lastStable low high log)) := by
  have hqueue : ∀ e ∈ eraseRequest pp.request s.unhandledRequests, e ∈ s.unhandledRequests :=
    fun e he => List.mem_of_mem_eraseP he
  unfold decideRequest sendCheckpoint
  dsimp only
  split_ifs
  · exact ⟨[], .nothing rfl hlog,
      .decide pp [] hphase rfl rfl hpp rfl hqueue rfl hvoted (by simp)⟩
  · refine ⟨_, .single rfl rfl hlog, .decide pp _ hphase rfl rfl hpp rfl hqueue rfl hvoted fun m hm => ?_⟩
    exact ⟨_, List.mem_singleton.mp hm, rfl⟩

theorem of_bestProof {c : PBFTConsensus} {n : Nat} {pp : PhaseMessage} (h : bestProof c n = some pp) :
    ∃ vc, .viewChange vc ∈ c.receivedMessages ∧ vc.newView = c.view ∧ pp ∈ vc.preparedProof := by
  have hinner : ∀ (l : List PhaseMessage) (best : Option PhaseMessage),
      l.foldl (fun best pp =>
        if pp.seqNum = n ∧ best.all (fun b => decide (b.proposalView < pp.proposalView)) then some pp
        else best) best = some pp → best = some pp ∨ pp ∈ l := by
    intro l
    induction l with
    | nil => exact fun _ h => .inl h
    | cons x l ih =>
      intro best h
      rw [List.foldl_cons] at h
      rcases ih _ h with h | h
      · split_ifs at h
        · obtain rfl := Option.some.inj h
          exact .inr List.mem_cons_self
        · exact .inl h
      · exact .inr (List.mem_cons_of_mem x h)
  have houter : ∀ (l : List ViewChange) (best : Option PhaseMessage),
      l.foldl (fun best m => m.preparedProof.foldl (fun best pp =>
        if pp.seqNum = n ∧ best.all (fun b => decide (b.proposalView < pp.proposalView)) then some pp
        else best) best) best = some pp → best = some pp ∨ ∃ m ∈ l, pp ∈ m.preparedProof := by
    intro l
    induction l with
    | nil => exact fun _ h => .inl h
    | cons x l ih =>
      intro best h
      rw [List.foldl_cons] at h
      rcases ih _ h with h | ⟨m, hm, hpp⟩
      · exact (hinner _ _ h).imp_right fun hpp => ⟨x, List.mem_cons_self, hpp⟩
      · exact .inr ⟨m, List.mem_cons_of_mem x hm, hpp⟩
  obtain ⟨vc, hvc, hpp⟩ := (houter _ _ h).resolve_left (by simp)
  obtain ⟨hmem, hnew⟩ := List.mem_filter.mp hvc
  exact ⟨vc, (mem_viewChangesBefore.mp hmem).1, of_decide_eq_true hnew, hpp⟩

theorem steps_enterNewView (hlog : ∀ m ∈ log, m ∈ s.receivedMessages) (hphase : s.phase = .viewChange) :
    Steps ctx s { if ctx.self = leaderFor ctx s.view then
      announceNewView ctx (trimmed s lastStable low high log)
      else trimmed s lastStable low high log with phase := .newView } := by
  split_ifs
  · refine ⟨_, .single rfl rfl hlog, .enterNewView _ ⟨rfl, rfl, rfl, rfl⟩ hphase rfl fun m hm => ?_⟩
    refine ⟨_, List.mem_singleton.mp hm, rfl, rfl, fun pp hpp => ?_⟩
    obtain ⟨n, -, hbest⟩ := List.mem_filterMap.mp hpp
    obtain ⟨vc, hvc, hnew, hmem⟩ := of_bestProof hbest
    exact ⟨vc, hlog _ hvc, hnew, hmem⟩
  · exact ⟨[], .nothing rfl hlog, .enterNewView [] ⟨rfl, rfl, rfl, rfl⟩ hphase rfl (by simp)⟩

theorem foldl_reissue (ctx : Ctx) (pps : List PhaseMessage) (s : Local) :
    ∃ log, pps.foldl (reissue ctx) s = { s with
        receivedMessages := s.receivedMessages ++ log
        outbox := s.outbox ++ log.flatMap (packets ctx) } ∧
      log = pps.map fun pp => .phase ⟨.prePrepare, pp.seqNum, s.view, pp.request, s.view, ctx.self⟩ := by
  induction pps generalizing s with
  | nil => exact ⟨[], by simp, rfl⟩
  | cons pp pps ih =>
    obtain ⟨log, heq, hlog⟩ := ih (reissue ctx s pp)
    refine ⟨.phase ⟨.prePrepare, pp.seqNum, s.view, pp.request, s.view, ctx.self⟩ :: log, ?_, ?_⟩
    · rw [List.foldl_cons, heq]
      simp [reissue, multicastAndInsert, insertMessage, multicast]
    · rw [hlog]
      rfl

theorem steps_install (hlog : ∀ m ∈ log, m ∈ s.receivedMessages) (hphase : s.phase = .newView) {nv : NewView}
    (hnv : .newView nv ∈ s.receivedMessages) (hview : nv.view = s.view)
    (hleader : nv.fromId = leaderFor ctx s.view) (timer : Nat) :
    Steps ctx s { nv.preparedProof.foldl (reissue ctx) (trimmed s lastStable low high log) with
      viewChangeTimer := timer
      phase := .prePrepare } := by
  obtain ⟨sent, heq, hsent⟩ := foldl_reissue ctx nv.preparedProof (trimmed s lastStable low high log)
  rw [heq]
  refine ⟨_, ⟨?_, ?_⟩, .install nv ⟨rfl, rfl, rfl, rfl⟩ hphase rfl hnv hview hleader⟩
  · rw [hsent]
    rfl
  · intro m hm
    rcases List.mem_append.mp hm with hm | hm
    · exact .inl (hlog m hm)
    · exact .inr (hsent ▸ hm)

/-! ## One call -/

theorem call_of_timedOut (h : TimedOut ctx s.toPBFTConsensus) :
    call ctx s = (requestViewChange ctx (maybeStableCheckpoint ctx s), false) := by
  obtain ⟨lastStable, low, high, log, htrimmed, -⟩ := maybeStableCheckpoint_eq ctx s
  unfold TimedOut at h
  unfold call
  cases hphase : s.phase with
  | prePrepare =>
    rw [hphase] at h
    unfold PBFTPrePreparePhase.runPhase
    rw [htrimmed]
    exact if_pos h
  | prepare =>
    rw [hphase] at h
    unfold PBFTPreparePhase.runPhase
    rw [htrimmed]
    exact if_pos h
  | commit =>
    rw [hphase] at h
    unfold PBFTCommitPhase.runPhase
    rw [htrimmed]
    exact if_pos h
  | viewChange =>
    rw [hphase] at h
    unfold PBFTViewChangePhase.runPhase
    rw [htrimmed]
    exact if_pos h
  | newView =>
    rw [hphase] at h
    unfold PBFTNewViewPhase.runPhase
    rw [htrimmed]
    exact if_pos h

/-- What a call in state `s` computes from the state `t` after its checkpoint bookkeeping, and whether another
call follows. -/
inductive Called (ctx : Ctx) (s t : Local) : Local × Bool → Prop
  | timeout (htimer : TimedOut ctx s.toPBFTConsensus) : Called ctx s t (requestViewChange ctx t, false)
  | wait (htimer : ¬ TimedOut ctx s.toPBFTConsensus) : Called ctx s t (t, false)
  | propose (hphase : s.phase = .prePrepare) (htimer : ¬ s.viewChangeTimer < ctx.round)
      (hself : ctx.self = leaderFor ctx s.view) : Called ctx s t (propose ctx t, false)
  | prepare (pp : PhaseMessage) (hphase : s.phase = .prePrepare) (htimer : ¬ s.viewChangeTimer < ctx.round)
      (hself : ctx.self ≠ leaderFor ctx s.view) (hpp : leaderProposal ctx t.toPBFTConsensus = some pp) :
      Called ctx s t ({ multicastAndInsert ctx
        (.phase { pp with messageType := .prepare, fromId := ctx.self }) t with phase := .prepare }, true)
  | commit (pp : PhaseMessage) (hphase : s.phase = .prepare) (htimer : ¬ s.viewChangeTimer < ctx.round)
      (hpp : preparedProposal ctx t.toPBFTConsensus = some pp) :
      Called ctx s t ({ multicastAndInsert ctx
        (.phase { pp with messageType := .commit, fromId := ctx.self }) t with phase := .commit }, true)
  | decide (pp : PhaseMessage) (hphase : s.phase = .commit) (htimer : ¬ s.viewChangeTimer < ctx.round)
      (hpp : committedProposal ctx t.toPBFTConsensus = some pp) :
      Called ctx s t (decideRequest ctx pp.request t, true)
  | enterNewView (hphase : s.phase = .viewChange) (htimer : ¬ s.viewChangeTimer ≤ ctx.round)
      (hquorum : ¬ (vcSenders t.toPBFTConsensus).card ≤ quorum ctx) :
      Called ctx s t ({ if ctx.self = leaderFor ctx s.view then announceNewView ctx t else t with
        phase := .newView }, false)
  | install (nv : NewView) (hphase : s.phase = .newView) (htimer : ¬ s.viewChangeTimer ≤ ctx.round)
      (hnv : leaderNewView ctx t.toPBFTConsensus = some nv)
      (hquorum : ¬ (vcSenders t.toPBFTConsensus).card ≤ 2 * f ctx) :
      Called ctx s t ({ nv.preparedProof.foldl (reissue ctx) { t with
          lowWaterMark := t.lastStableCheckpoint
          highWaterMark := t.lastStableCheckpoint + WINDOW } with
        viewChangeTimer := ctx.round + viewChangeDelay
        phase := .prePrepare }, true)

theorem call_cases (ctx : Ctx) (s : Local) : Called ctx s (maybeStableCheckpoint ctx s) (call ctx s) := by
  by_cases htimeout : TimedOut ctx s.toPBFTConsensus
  · rw [call_of_timedOut htimeout]
    exact .timeout htimeout
  obtain ⟨lastStable, low, high, log, htrimmed, -⟩ := maybeStableCheckpoint_eq ctx s
  have htimer := htimeout
  unfold TimedOut at htimer
  unfold call
  cases hphase : s.phase with
  | prePrepare =>
    rw [hphase] at htimer
    unfold PBFTPrePreparePhase.runPhase
    rw [htrimmed]
    dsimp only
    rw [trimmed_viewChangeTimer, if_neg htimer, trimmed_view]
    by_cases hself : ctx.self = leaderFor ctx s.view
    · rw [if_pos hself]
      exact .propose hphase htimer hself
    rw [if_neg hself]
    cases hpp : leaderProposal ctx (trimmed s lastStable low high log).toPBFTConsensus with
    | none => exact .wait htimeout
    | some pp => exact .prepare pp hphase htimer hself hpp
  | prepare =>
    rw [hphase] at htimer
    unfold PBFTPreparePhase.runPhase
    rw [htrimmed]
    dsimp only
    rw [trimmed_viewChangeTimer, if_neg htimer]
    cases hpp : preparedProposal ctx (trimmed s lastStable low high log).toPBFTConsensus with
    | none => exact .wait htimeout
    | some pp => exact .commit pp hphase htimer hpp
  | commit =>
    rw [hphase] at htimer
    unfold PBFTCommitPhase.runPhase
    rw [htrimmed]
    dsimp only
    rw [trimmed_viewChangeTimer, if_neg htimer]
    cases hpp : committedProposal ctx (trimmed s lastStable low high log).toPBFTConsensus with
    | none => exact .wait htimeout
    | some pp => exact .decide pp hphase htimer hpp
  | viewChange =>
    rw [hphase] at htimer
    unfold PBFTViewChangePhase.runPhase
    rw [htrimmed]
    dsimp only
    rw [trimmed_viewChangeTimer, if_neg htimer, trimmed_view]
    by_cases hquorum : (vcSenders (trimmed s lastStable low high log).toPBFTConsensus).card ≤ quorum ctx
    · rw [if_pos hquorum]
      exact .wait htimeout
    · rw [if_neg hquorum]
      exact .enterNewView hphase htimer hquorum
  | newView =>
    rw [hphase] at htimer
    unfold PBFTNewViewPhase.runPhase
    rw [htrimmed]
    dsimp only
    rw [trimmed_viewChangeTimer, if_neg htimer]
    cases hnv : leaderNewView ctx (trimmed s lastStable low high log).toPBFTConsensus with
    | none => exact .wait htimeout
    | some nv =>
      dsimp only
      by_cases hquorum : (vcSenders (trimmed s lastStable low high log).toPBFTConsensus).card ≤ 2 * f ctx
      · rw [if_pos hquorum]
        exact .wait htimeout
      · rw [if_neg hquorum]
        exact .install nv hphase htimer hnv hquorum

theorem nextProposal_of_find? {pp : PhaseMessage} {q : PhaseMessage → Bool}
    (hlog : ∀ m ∈ log, m ∈ s.receivedMessages)
    (h : (phaseMessages (trimmed s lastStable low high log).toPBFTConsensus .prePrepare s.confirmedTrans.length
      s.view).find? q = some pp) : NextProposal s pp := by
  obtain ⟨hmem, htype, hseq, hview⟩ := mem_phaseMessages.mp (List.mem_of_find?_eq_some h)
  exact ⟨hlog _ hmem, htype, hseq, hview⟩

/-- **The outcomes of a call.** One call of `runPhase` does one of the things that `Outcome` lists. -/
theorem call_steps (ctx : Ctx) (s : Local) : Steps ctx s (call ctx s).1 := by
  obtain ⟨lastStable, low, high, log, htrimmed, hlog⟩ := maybeStableCheckpoint_eq ctx s
  have hcall := call_cases ctx s
  rw [htrimmed] at hcall
  generalize call ctx s = res at hcall ⊢
  cases hcall with
  | timeout htimer => exact steps_requestViewChange hlog htimer
  | wait => exact steps_idle hlog
  | propose hphase htimer hself => exact steps_propose hlog hphase htimer hself
  | prepare pp hphase _ hself hpp =>
    exact ⟨_, .single rfl rfl hlog, .prepare pp ⟨rfl, rfl, rfl, rfl⟩ hphase rfl hself
      (nextProposal_of_find? hlog hpp)⟩
  | commit pp hphase _ hpp =>
    have hfound := List.find?_some hpp
    exact ⟨_, .single rfl rfl hlog, .commit pp ⟨rfl, rfl, rfl, rfl⟩ hphase rfl (nextProposal_of_find? hlog hpp)
      ((certified_of_isPrepared (of_decide_eq_true hfound).2).mono hlog)⟩
  | decide pp hphase _ hpp =>
    have hfound := List.find?_some hpp
    exact steps_decide hlog hphase (nextProposal_of_find? hlog hpp)
      ((voted_of_senders (of_decide_eq_true (of_decide_eq_true hfound).2.2)).mono hlog)
  | enterNewView hphase => exact steps_enterNewView hlog hphase
  | install nv hphase _ hnv =>
    obtain ⟨hmem, -, hview⟩ := mem_newViews.mp (List.mem_of_find?_eq_some hnv)
    have hfound := List.find?_some hnv
    exact steps_install hlog hphase (hlog _ hmem) hview (of_decide_eq_true hfound).1 _

end Trimmed

/-! ## The normal case

What a call does from a state whose checkpoint bookkeeping changes nothing and whose timer still runs. -/

section
variable (hcheckpoint : maybeStableCheckpoint ctx s = s) {pp : PhaseMessage}
include hcheckpoint

theorem call_propose (hphase : s.phase = .prePrepare) (htimer : ¬ s.viewChangeTimer < ctx.round)
    (hself : ctx.self = leaderFor ctx s.view) : call ctx s = (propose ctx s, false) := by
  unfold call PBFTPrePreparePhase.runPhase
  rw [hphase, hcheckpoint]
  dsimp only
  rw [if_neg htimer, if_pos hself]

theorem call_prepare (hphase : s.phase = .prePrepare) (htimer : ¬ s.viewChangeTimer < ctx.round)
    (hself : ctx.self ≠ leaderFor ctx s.view) (hpp : leaderProposal ctx s.toPBFTConsensus = some pp) :
    call ctx s = ({ multicastAndInsert ctx
      (.phase { pp with messageType := .prepare, fromId := ctx.self }) s with phase := .prepare }, true) := by
  unfold call PBFTPrePreparePhase.runPhase
  rw [hphase, hcheckpoint]
  dsimp only
  rw [if_neg htimer, if_neg hself, hpp]

theorem call_commit (hphase : s.phase = .prepare) (htimer : ¬ s.viewChangeTimer < ctx.round)
    (hpp : preparedProposal ctx s.toPBFTConsensus = some pp) :
    call ctx s = ({ multicastAndInsert ctx
      (.phase { pp with messageType := .commit, fromId := ctx.self }) s with phase := .commit }, true) := by
  unfold call PBFTPreparePhase.runPhase
  rw [hphase, hcheckpoint]
  dsimp only
  rw [if_neg htimer, hpp]

theorem call_decide (hphase : s.phase = .commit) (htimer : ¬ s.viewChangeTimer < ctx.round)
    (hpp : committedProposal ctx s.toPBFTConsensus = some pp) :
    call ctx s = (decideRequest ctx pp.request s, true) := by
  unfold call PBFTCommitPhase.runPhase
  rw [hphase, hcheckpoint]
  dsimp only
  rw [if_neg htimer, hpp]

end

end Quantas.Pbft
