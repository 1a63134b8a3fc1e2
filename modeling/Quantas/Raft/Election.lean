import Quantas.Raft.System
import Quantas.Lib.Quorum

/-!
# Raft: at most one leader in a term

A handler changes the election fields of its peer (leader, term, votes) in one of a few ways, which one
lemma for each handler spells out (`Outcome`). A vote cast and a candidacy announced stay on record in the
packets sent, so `Voted` and `Stood` are history, and a member votes once in a term.

A leader of term `t` is therefore unique as long as it was elected by votes of term `t`. Two handlers break
this: `handleVote` counts a vote whatever term it was cast for, and `handleCommit` raises the term of a
leader. `ElectionSafe` excludes just these two steps, and under it `ElectionInv` holds in every state
reached.
-/

namespace Quantas.Raft

variable {ctx : Ctx}

/-! ## What a handler does to the election fields -/

/-- A handler took the peer from `s` to `s'`, with these election fields at its end, and sent no votes or
election messages other than those that meet `E`. -/
structure Outcome (ctx : Ctx) (s s' : Local) (leaderId : InterfaceId) (term : Int)
    (votes : List InterfaceId) (E : Message → Prop) : Prop where
  leaderId : s'.leaderId = leaderId
  term : s'.term = term
  votes : s'.votes = votes
  sends : ∃ l, s'.outbox = s.outbox ++ l ∧
    ∀ p ∈ l, Genuine ctx p ∧ (p.message.electoral = true → E p.message)

namespace Outcome
variable {s s' s'' : Local} {leader : InterfaceId} {term : Int} {votes : List InterfaceId}
  {E : Message → Prop}

theorem of_replicates (h : Replicates ctx s s') :
    Outcome ctx s s' s.leaderId s.term s.votes fun _ => False := by
  obtain ⟨l, hl, hlp⟩ := h.sends
  exact ⟨h.leaderId, h.term, h.votes, l, hl, fun p hp => ⟨(hlp p hp).1, by simp [(hlp p hp).2]⟩⟩

theorem andThen (h : Outcome ctx s s' leader term votes E) (h' : Replicates ctx s' s'') :
    Outcome ctx s s'' leader term votes E := by
  obtain ⟨l, hl, hlp⟩ := h.sends
  obtain ⟨l', hl', hlp'⟩ := h'.sends
  refine ⟨h'.leaderId.trans h.leaderId, h'.term.trans h.term, h'.votes.trans h.votes, l ++ l',
    by rw [hl', hl, List.append_assoc], fun p hp => ?_⟩
  rcases List.mem_append.mp hp with hp | hp
  · exact hlp p hp
  · exact ⟨(hlp' p hp).1, by simp [(hlp' p hp).2]⟩

theorem after (h : Outcome ctx s' s'' leader term votes E) (h' : Replicates ctx s s') :
    Outcome ctx s s'' leader term votes E := by
  obtain ⟨l, hl, hlp⟩ := h.sends
  obtain ⟨l', hl', hlp'⟩ := h'.sends
  refine ⟨h.leaderId, h.term, h.votes, l' ++ l, by rw [hl, hl', List.append_assoc], fun p hp => ?_⟩
  rcases List.mem_append.mp hp with hp | hp
  · exact ⟨(hlp' p hp).1, by simp [(hlp' p hp).2]⟩
  · exact hlp p hp

theorem of_silent (hleader : s'.leaderId = leader) (hterm : s'.term = term) (hvotes : s'.votes = votes)
    (houtbox : s'.outbox = s.outbox) : Outcome ctx s s' leader term votes E :=
  ⟨hleader, hterm, hvotes, [], by rw [houtbox, List.append_nil], by simp⟩

end Outcome

abbrev Neutral (ctx : Ctx) (s s' : Local) : Prop :=
  Outcome ctx s s' s.leaderId s.term s.votes fun _ => False

theorem handleRequest_outcome (ctx : Ctx) (request : Request) (sender : InterfaceId) (termNum : Int) (s : Local) :
    Neutral ctx s (handleRequest ctx request sender termNum s) ∨
    (s.term ≤ termNum ∧
      Outcome ctx s (handleRequest ctx request sender termNum s) sender termNum [] fun _ => False) := by
  have hreply : ∀ s : Local, Replicates ctx s
      (if ¬ keyValid (extractKey request) then s
       else unicastTo ctx (.respondRequest request ctx.self (enqueueDeferred request s).term
         (request.roundSubmitted.getD ctx.round)) sender (enqueueDeferred request s)) := by
    intro s
    by_cases hvalid : ¬ keyValid (extractKey request)
    · rw [if_pos hvalid]
      exact .refl s
    · rw [if_neg hvalid]
      exact (enqueueDeferred_replicates _ request s).trans
        (unicastTo_replicates (by simp [Message.sender]) rfl _ _)
  unfold handleRequest
  by_cases hinvalid : termNum < 0 ∨ sender = NO_PEER_ID
  · rw [if_pos hinvalid]
    exact .inl (.of_replicates (.refl s))
  · rw [if_neg hinvalid]
    by_cases hterm : s.term ≤ termNum
    · refine .inr ⟨hterm, .andThen ?_ (hreply _)⟩
      rw [followSender, if_pos hterm]
      dsimp only
      refine .andThen ?_ (resetTimer_replicates _ _)
      split_ifs
      · have hreset := resetReplicationState_replicates ctx false
          { s with term := termNum, leaderId := sender }
        obtain ⟨l, hl, hlp⟩ := hreset.sends
        exact ⟨hreset.leaderId, hreset.term, rfl, l, hl, fun p hp =>
          ⟨(hlp p hp).1, by simp [(hlp p hp).2]⟩⟩
      · exact .of_silent rfl rfl rfl rfl
    · refine .inl (.of_replicates ?_)
      rw [followSender, if_neg hterm]
      exact hreply s

theorem confirmRequest_neutral (ctx : Ctx) (request : Request) (submittedRound : Int) (s : Local) :
    Neutral ctx s (confirmRequest ctx request submittedRound s) := by
  have happlied : Neutral ctx s (applyCommit request submittedRound ctx.round true
      (pushConfirmed request submittedRound ctx.round s)) := by
    unfold applyCommit
    dsimp only
    split_ifs <;> exact .of_silent rfl rfl rfl rfl
  have hsent : Neutral ctx s (multicast ctx (.commit request ctx.self
      (applyCommit request submittedRound ctx.round true
        (pushConfirmed request submittedRound ctx.round s)).term ctx.round submittedRound)
      (applyCommit request submittedRound ctx.round true
        (pushConfirmed request submittedRound ctx.round s))) :=
    happlied.andThen (multicast_replicates (by simp [Message.sender]) rfl _)
  unfold confirmRequest
  refine hsent.andThen (.trans ?_ (startReplication_replicates _ _))
  exact .of_silent rfl rfl rfl rfl rfl rfl le_rfl fun _ h => by cases h

theorem handleRespond_neutral (ctx : Ctx) (request : Request) (sender : InterfaceId) (s : Local) :
    Neutral ctx s (handleRespond ctx request sender s) := by
  have hcounted : ∀ f, Replicates ctx s { s with replies := f } :=
    fun _ => .of_silent rfl rfl rfl rfl rfl rfl le_rfl id
  unfold handleRespond
  dsimp only
  split_ifs
  · exact .of_replicates (.refl s)
  · exact .of_replicates (.refl s)
  · exact .of_replicates (.refl s)
  · exact .of_replicates (.refl s)
  · exact .after (confirmRequest_neutral _ request _ _) (hcounted _)
  · exact .of_replicates (hcounted _)

theorem handleVote_outcome (ctx : Ctx) (voteFor sender : InterfaceId) (s : Local) :
    Neutral ctx s (handleVote ctx voteFor sender s) ∨
    (s.leaderId ≠ ctx.self ∧ voteFor = ctx.self ∧ sender ≠ NO_PEER_ID ∧ sender ∉ s.votes ∧
      (Outcome ctx s (handleVote ctx voteFor sender s) s.leaderId s.term (s.votes ++ [sender])
          (fun _ => False) ∨
       (hasQuorum ctx (s.votes ++ [sender]).length = true ∧
        Outcome ctx s (handleVote ctx voteFor sender s) ctx.self s.term [] fun _ => False))) := by
  unfold handleVote
  by_cases hleads : s.leaderId = ctx.self
  · rw [if_pos hleads]
    exact .inl (.of_replicates (.refl s))
  by_cases hmeant : voteFor ≠ ctx.self ∨ sender = NO_PEER_ID
  · rw [if_neg hleads, if_pos hmeant]
    exact .inl (.of_replicates (.refl s))
  by_cases hcounted : sender ∈ s.votes
  · rw [if_neg hleads, if_neg hmeant, if_pos hcounted]
    exact .inl (.of_replicates (.refl s))
  rw [if_neg hleads, if_neg hmeant, if_neg hcounted]
  rw [not_or, not_not] at hmeant
  refine .inr ⟨hleads, hmeant.1, hmeant.2, hcounted, ?_⟩
  dsimp only
  by_cases hquorum : hasQuorum ctx (s.votes ++ [sender]).length = true
  · rw [if_pos hquorum]
    refine .inr ⟨hquorum, .andThen ?_ ((tryForwardDeferredRequests_replicates _ _).trans
      (startReplication_replicates _ _))⟩
    have hvote : Outcome ctx s (resetTimer ctx { s with votes := s.votes ++ [sender] }) s.leaderId
        s.term (s.votes ++ [sender]) fun _ => False := by
      refine .andThen ?_ (resetTimer_replicates _ _)
      exact .of_silent rfl rfl rfl rfl
    have hwin : Outcome ctx s { resetTimer ctx { s with votes := s.votes ++ [sender] } with
        leaderId := ctx.self, candidate := NO_PEER_ID, votes := [] } ctx.self s.term [] fun _ => False :=
      ⟨rfl, hvote.term, rfl, hvote.sends⟩
    refine .andThen (hwin.andThen (resetReplicationState_replicates _ true _)) ?_
    exact .of_silent rfl rfl rfl rfl rfl rfl le_rfl id
  · rw [if_neg hquorum]
    exact .inl (.of_silent rfl rfl rfl rfl)

theorem handleElect_outcome (ctx : Ctx) (sender : InterfaceId) (termNum roundSubmitted : Int) (s : Local) :
    Neutral ctx s (handleElect ctx sender termNum roundSubmitted s) ∨
    (s.term < termNum ∧
      Outcome ctx s (handleElect ctx sender termNum roundSubmitted s) NO_PEER_ID termNum []
        fun m => m = .vote sender ctx.self termNum roundSubmitted) := by
  unfold handleElect
  by_cases hskip : termNum ≤ s.term ∨ sender = NO_PEER_ID
  · rw [if_pos hskip]
    exact .inl (.of_replicates (.refl s))
  rw [if_neg hskip]
  refine .inr ⟨by omega, ?_⟩
  dsimp only
  have hterm : ∀ s : Local, (resetTimer ctx (resetReplicationState true s)).term = s.term := fun s =>
    (resetTimer_replicates ctx _).term.trans
      (resetReplicationState_replicates ctx true s).term
  have hfollow : Outcome ctx s (resetTimer ctx (resetReplicationState true
      { s with term := termNum, leaderId := NO_PEER_ID, votes := [], candidate := sender }))
      NO_PEER_ID termNum [] fun m => m = .vote sender ctx.self termNum roundSubmitted := by
    refine .andThen ?_ (resetTimer_replicates _ _)
    refine .andThen ?_ (resetReplicationState_replicates _ true _)
    exact .of_silent rfl rfl rfl rfl
  obtain ⟨l, hl, hlp⟩ := hfollow.sends
  rw [unicastTo_eq, hterm]
  refine ⟨hfollow.leaderId, hfollow.term, hfollow.votes, _, by rw [hl, List.append_assoc], ?_⟩
  intro p hp
  rcases List.mem_append.mp hp with hp | hp
  · exact hlp p hp
  · split_ifs at hp with hdest
    · obtain rfl := List.mem_singleton.mp hp
      exact ⟨genuine_of_sender (by simp [Message.sender]) hdest, fun _ => rfl⟩
    · exact absurd hp List.not_mem_nil

theorem applyCommit_outcome (ctx : Ctx) (request : Request) (submitted committed : Int) (skip : Bool) (s : Local) :
    Neutral ctx s (applyCommit request submitted committed skip s) := by
  unfold applyCommit
  dsimp only
  split_ifs <;> exact .of_silent rfl rfl rfl rfl

theorem handleCommit_outcome (ctx : Ctx) (request : Request) (sender : InterfaceId)
    (termNum roundCommitted roundSubmitted : Int) (s : Local) :
    Neutral ctx s (handleCommit ctx request sender termNum roundCommitted roundSubmitted s) ∨
    (sender ≠ ctx.self ∧ s.term < termNum ∧
      Outcome ctx s (handleCommit ctx request sender termNum roundCommitted roundSubmitted s)
        s.leaderId termNum s.votes fun _ => False) := by
  unfold handleCommit
  by_cases hown : sender = ctx.self
  · rw [if_pos hown]
    exact .inl (.of_replicates (.refl s))
  rw [if_neg hown]
  by_cases hterm : s.term < termNum
  · refine .inr ⟨hown, hterm, ?_⟩
    rw [if_pos hterm]
    obtain ⟨hleader, hterm', hvotes, hsends⟩ := applyCommit_outcome ctx request roundSubmitted
      roundCommitted false { s with term := termNum }
    exact ⟨hleader, hterm', hvotes, hsends⟩
  · rw [if_neg hterm]
    exact .inl (applyCommit_outcome _ ..)

theorem maybeStartElection_outcome (ctx : Ctx) (s : Local) :
    Neutral ctx s (maybeStartElection ctx s) ∨
    Outcome ctx s (maybeStartElection ctx s) NO_PEER_ID (s.term + 1) []
      fun m => m = .elect ctx.self (s.term + 1) ctx.round := by
  unfold maybeStartElection
  by_cases hearly : ctx.round < toSizeT s.timeOutRound
  · rw [if_pos hearly]
    exact .inl (.of_replicates (.refl s))
  rw [if_neg hearly]
  refine .inr ?_
  dsimp only
  have hreset := resetReplicationState_replicates ctx true s
  have hstand : Outcome ctx s (resetTimer ctx { resetReplicationState true s with
      candidate := ctx.self
      leaderId := NO_PEER_ID
      term := (resetReplicationState true s).term + 1
      votes := [] }) NO_PEER_ID (s.term + 1) [] fun m => m = .elect ctx.self (s.term + 1) ctx.round := by
    refine .andThen ?_ (resetTimer_replicates _ _)
    obtain ⟨l, hl, hlp⟩ := hreset.sends
    exact ⟨rfl, by rw [← hreset.term], rfl, l, hl, fun p hp => ⟨(hlp p hp).1, by simp [(hlp p hp).2]⟩⟩
  obtain ⟨l, hl, hlp⟩ := hstand.sends
  rw [multicast_eq, hstand.term]
  refine ⟨hstand.leaderId, hstand.term, hstand.votes, _, by rw [hl, List.append_assoc], ?_⟩
  intro p hp
  rcases List.mem_append.mp hp with hp | hp
  · exact hlp p hp
  · obtain ⟨dest, hdest, rfl⟩ := List.mem_map.mp hp
    rw [List.mem_filter, decide_eq_true_eq] at hdest
    exact ⟨genuine_of_sender (by simp [Message.sender]) hdest.2, fun _ => rfl⟩

theorem tick_outcome (ctx : Ctx) (s : Local) :
    Neutral ctx s (tick ctx s) ∨
    Outcome ctx s (tick ctx s) NO_PEER_ID (s.term + 1) []
      fun m => m = .elect ctx.self (s.term + 1) ctx.round := by
  have hgenerate := maybeGenerateClientRequest_replicates ctx s
  unfold tick
  rcases maybeStartElection_outcome ctx (maybeGenerateClientRequest ctx s) with h | h
  · left
    rw [Neutral, hgenerate.leaderId, hgenerate.term, hgenerate.votes] at h
    exact (h.after hgenerate).andThen (tryForwardDeferredRequests_replicates _ _)
  · right
    rw [hgenerate.term] at h
    exact (h.after hgenerate).andThen (tryForwardDeferredRequests_replicates _ _)

/-! ## Votes and candidacies on record -/

namespace System
variable {cfg : Config} {sys : System}

/-- Member `q` has voted for `c` in term `t`. -/
def Voted (sys : System) (q c : InterfaceId) (t : Int) : Prop :=
  ∃ pkt ∈ sys.sent, ∃ round, pkt.message = .vote c q t round

/-- Member `c` has stood for election in term `t`. -/
def Stood (sys : System) (c : InterfaceId) (t : Int) : Prop :=
  ∃ pkt ∈ sys.sent, ∃ round, pkt.message = .elect c t round

/-- More than half of the members have voted for `p` in term `t`. -/
def Elected (cfg : Config) (sys : System) (p : InterfaceId) (t : Int) : Prop :=
  ∃ Q ⊆ cfg.committee.members.toFinset, cfg.committee.members.toFinset.card / 2 < Q.card ∧
    ∀ q ∈ Q, Voted sys q p t

def Leads (sys : System) (p : InterfaceId) (t : Int) : Prop :=
  (sys.peers p).leaderId = p ∧ (sys.peers p).term = t

instance (p : InterfaceId) (t : Int) : Decidable (Leads sys p t) :=
  inferInstanceAs (Decidable (_ ∧ _))

theorem Voted.after {q c : InterfaceId} {t : Int} (h : Voted sys q c t) (p : InterfaceId) (r : Local) :
    Voted (sys.after p r) q c t := by
  obtain ⟨pkt, hpkt, hmessage⟩ := h
  exact ⟨pkt, List.mem_append_left _ hpkt, hmessage⟩

theorem Stood.after {c : InterfaceId} {t : Int} (h : Stood sys c t) (p : InterfaceId) (r : Local) :
    Stood (sys.after p r) c t := by
  obtain ⟨pkt, hpkt, hmessage⟩ := h
  exact ⟨pkt, List.mem_append_left _ hpkt, hmessage⟩

theorem Elected.after {c : InterfaceId} {t : Int} (h : Elected cfg sys c t) (p : InterfaceId)
    (r : Local) : Elected cfg (sys.after p r) c t := by
  obtain ⟨Q, hQ, hmajority, hvoted⟩ := h
  exact ⟨Q, hQ, hmajority, fun q hq => (hvoted q hq).after p r⟩

section Outcome
variable {p : InterfaceId} {draws : List Nat} {r : Local} {leader : InterfaceId} {term : Int}
  {votes : List InterfaceId} {E : Message → Prop}

theorem mem_sent_after (h : Outcome (sys.ctx cfg p) (sys.start p draws) r leader term votes E)
    {pkt : Packet Message} (hpkt : pkt ∈ (sys.after p r).sent) : pkt ∈ sys.sent ∨
      (Genuine (sys.ctx cfg p) pkt ∧ (pkt.message.electoral = true → E pkt.message)) := by
  obtain ⟨l, hl, hlp⟩ := h.sends
  rcases List.mem_append.mp hpkt with hpkt | hpkt
  · exact .inl hpkt
  · rw [hl] at hpkt
    exact .inr (hlp pkt hpkt)

theorem voted_after (h : Outcome (sys.ctx cfg p) (sys.start p draws) r leader term votes E)
    {q c : InterfaceId} {t : Int} (hvoted : Voted (sys.after p r) q c t) :
    Voted sys q c t ∨ (q = p ∧ ∃ round, E (.vote c p t round)) := by
  obtain ⟨pkt, hpkt, round, hmessage⟩ := hvoted
  rcases mem_sent_after h hpkt with hpkt | ⟨hgenuine, hE⟩
  · exact .inl ⟨pkt, hpkt, round, hmessage⟩
  · have hq : q = p := hgenuine.sender q (by rw [hmessage]; rfl)
    subst hq
    exact .inr ⟨rfl, round, hmessage ▸ hE (by rw [hmessage]; rfl)⟩

theorem stood_after (h : Outcome (sys.ctx cfg p) (sys.start p draws) r leader term votes E)
    {c : InterfaceId} {t : Int} (hstood : Stood (sys.after p r) c t) :
    Stood sys c t ∨ (c = p ∧ ∃ round, E (.elect p t round)) := by
  obtain ⟨pkt, hpkt, round, hmessage⟩ := hstood
  rcases mem_sent_after h hpkt with hpkt | ⟨hgenuine, hE⟩
  · exact .inl ⟨pkt, hpkt, round, hmessage⟩
  · have hc : c = p := hgenuine.sender c (by rw [hmessage]; rfl)
    subst hc
    exact .inr ⟨rfl, round, hmessage ▸ hE (by rw [hmessage]; rfl)⟩

end Outcome

/-! ## The invariant -/

structure ElectionInv (cfg : Config) (sys : System) : Prop where
  wire : ∀ pkt ∈ sys.sent, pkt.source ≠ pkt.target ∧
    ∀ q, pkt.message.sender = some q → q = pkt.source
  voted : ∀ q c t, Voted sys q c t →
    q ∈ cfg.committee.members ∧ t ≤ (sys.peers q).term ∧ Stood sys c t
  once : ∀ q c c' t, Voted sys q c t → Voted sys q c' t → c = c'
  stood : ∀ c t, Stood sys c t → t ≤ (sys.peers c).term
  /-- A counted vote was cast in a term no older than the peer's last candidacy. -/
  ballot : ∀ p, ∀ q ∈ (sys.peers p).votes, ∃ u, Voted sys q p u ∧ ∀ t, Stood sys p t → t ≤ u
  nodup : ∀ p, (sys.peers p).votes.Nodup
  leader : ∀ p ∈ cfg.committee.members, (sys.peers p).leaderId = p → 1 ≤ (sys.peers p).term →
    Elected cfg sys p (sys.peers p).term

theorem electionInv_of_initial (h : System.Initial cfg sys) : ElectionInv cfg sys := by
  obtain ⟨-, hsent, hpeers⟩ := h
  have hvoted : ∀ q c t, ¬ Voted sys q c t := by simp [Voted, hsent]
  have hstood : ∀ c t, ¬ Stood sys c t := by simp [Stood, hsent]
  have hvotes : ∀ p, (sys.peers p).votes = [] := by
    intro p
    obtain ⟨jitter, -, -, hp⟩ := hpeers p
    rw [hp]; rfl
  refine ⟨by simp [hsent], fun q c t h => absurd h (hvoted q c t),
    fun q c _ t h => absurd h (hvoted q c t), fun c t h => absurd h (hstood c t),
    by simp [hvotes], by simp [hvotes], fun p _ _ hterm => ?_⟩
  obtain ⟨jitter, -, -, hp⟩ := hpeers p
  rw [hp] at hterm
  exact absurd hterm (by simp [initialPeer])

theorem ElectionInv.after (inv : ElectionInv cfg sys) {p : InterfaceId}
    (hp : p ∈ cfg.committee.members) {draws : List Nat} {r : Local} {leader : InterfaceId} {term : Int}
    {votes : List InterfaceId} {E : Message → Prop}
    (h : Outcome (sys.ctx cfg p) (sys.start p draws) r leader term votes E)
    (hterm : (sys.peers p).term ≤ term)
    (hvote : ∀ c t round, E (.vote c p t round) →
      (sys.peers p).term < t ∧ t = term ∧ Stood sys c t ∧
        ∀ c' round', E (.vote c' p t round') → c = c')
    (helect : ∀ t round, E (.elect p t round) → t ≤ term)
    (hballot : ∀ q ∈ votes, ∃ u, Voted sys q p u ∧ ∀ t, Stood (sys.after p r) p t → t ≤ u)
    (hnodup : votes.Nodup)
    (hleader : leader = p → 1 ≤ term → Elected cfg sys p term) :
    ElectionInv cfg (sys.after p r) := by
  have hpeer : ∀ q, (sys.peers q).term ≤ ((sys.after p r).peers q).term := by
    intro q
    by_cases hq : q = p
    · subst hq
      rw [after_self, h.term]
      exact hterm
    · rw [after_other hq]
  refine ⟨?wire, ?voted, ?once, ?stood, ?ballot, ?nodup, ?leader⟩
  case wire =>
    intro pkt hpkt
    rcases mem_sent_after h hpkt with hpkt | ⟨hgenuine, -⟩
    · exact inv.wire pkt hpkt
    · rw [hgenuine.source]
      exact ⟨(mem_neighbors.mp hgenuine.target).2.symm, hgenuine.sender⟩
  case voted =>
    intro q c t hvoted
    rcases voted_after h hvoted with hvoted | ⟨rfl, round, hE⟩
    · obtain ⟨hq, ht, hstood⟩ := inv.voted q c t hvoted
      exact ⟨hq, ht.trans (hpeer q), hstood.after p r⟩
    · obtain ⟨-, rfl, hstood, -⟩ := hvote c t round hE
      refine ⟨hp, ?_, hstood.after q r⟩
      rw [after_self, h.term]
  case once =>
    intro q c c' t hvoted hvoted'
    rcases voted_after h hvoted with hold | ⟨rfl, round, hE⟩ <;>
      rcases voted_after h hvoted' with hold' | ⟨hq, round', hE'⟩
    · exact inv.once q c c' t hold hold'
    · -- an older vote in `t` means that the voter had reached `t` already
      subst hq
      have hreached := (inv.voted q c t hold).2.1
      have hnew := (hvote c' t round' hE').1
      omega
    · have hreached := (inv.voted q c' t hold').2.1
      have hnew := (hvote c t round hE).1
      omega
    · exact (hvote c t round hE).2.2.2 c' round' hE'
  case stood =>
    intro c t hstood
    rcases stood_after h hstood with hstood | ⟨rfl, round, hE⟩
    · exact (inv.stood c t hstood).trans (hpeer c)
    · rw [after_self, h.term]
      exact helect t round hE
  case ballot =>
    intro p' q hq
    by_cases hp' : p' = p
    · subst hp'
      rw [after_self, h.votes] at hq
      obtain ⟨u, hvoted, hlast⟩ := hballot q hq
      exact ⟨u, hvoted.after p' r, hlast⟩
    · rw [after_other hp'] at hq
      obtain ⟨u, hvoted, hlast⟩ := inv.ballot p' q hq
      refine ⟨u, hvoted.after p r, fun t hstood => ?_⟩
      rcases stood_after h hstood with hstood | ⟨hpp, -⟩
      · exact hlast t hstood
      · exact absurd hpp hp'
  case nodup =>
    intro p'
    by_cases hp' : p' = p
    · subst hp'
      rw [after_self, h.votes]
      exact hnodup
    · rw [after_other hp']
      exact inv.nodup p'
  case leader =>
    intro p' hmem hlead hterm'
    by_cases hp' : p' = p
    · subst hp'
      rw [after_self] at hlead hterm' ⊢
      rw [h.leaderId] at hlead
      rw [h.term] at hterm' ⊢
      exact (hleader hlead hterm').after p' r
    · rw [after_other hp'] at hlead hterm' ⊢
      exact (inv.leader p' hmem hlead hterm').after p r

/-! ## The steps -/

/-- The two steps that elections cannot bear: a peer counts a vote of another term than its own, and a
leader's term is raised by a commit message. -/
def ElectionSafe (s : RaftConsensus) (p : InterfaceId) : Message → Prop
  | .vote voteFor sender termNum _ =>
    s.leaderId ≠ p → voteFor = p → sender ≠ NO_PEER_ID → sender ∉ s.votes → termNum = s.term
  | .commit _ sender termNum _ _ => sender ≠ p → s.leaderId = p → termNum ≤ s.term
  | _ => True

instance (s : RaftConsensus) (p : InterfaceId) : (m : Message) → Decidable (ElectionSafe s p m)
  | .vote .. => inferInstanceAs (Decidable (_ → _ → _ → _ → _))
  | .commit .. => inferInstanceAs (Decidable (_ → _ → _))
  | .clientRequest _ => .isTrue trivial
  | .request .. => .isTrue trivial
  | .respondRequest .. => .isTrue trivial
  | .elect .. => .isTrue trivial

def ElectionSafeStep (sys : System) : Event → Prop
  | .receive p pkt _ => ElectionSafe (sys.peers p) p pkt.message
  | _ => True

instance (sys : System) : (e : Event) → Decidable (ElectionSafeStep sys e)
  | .receive p pkt _ => inferInstanceAs (Decidable (ElectionSafe (sys.peers p) p pkt.message))
  | .nextRound => .isTrue trivial
  | .tick .. => .isTrue trivial

section Handlers
variable {p : InterfaceId} {draws : List Nat} {r : Local}

theorem ElectionInv.after_silent (inv : ElectionInv cfg sys) (hp : p ∈ cfg.committee.members)
    {leader : InterfaceId} {term : Int}
    (h : Outcome (sys.ctx cfg p) (sys.start p draws) r leader term (sys.peers p).votes fun _ => False)
    (hterm : (sys.peers p).term ≤ term) (hleader : leader = p → 1 ≤ term → Elected cfg sys p term) :
    ElectionInv cfg (sys.after p r) := by
  refine inv.after hp h hterm (fun _ _ _ hE => hE.elim) (fun _ _ hE => hE.elim) ?_ (inv.nodup p) hleader
  intro q hq
  obtain ⟨u, hvoted, hlast⟩ := inv.ballot p q hq
  refine ⟨u, hvoted, fun t hstood => ?_⟩
  rcases stood_after h hstood with hstood | ⟨-, -, hE⟩
  · exact hlast t hstood
  · exact hE.elim

theorem ElectionInv.after_neutral (inv : ElectionInv cfg sys) (hp : p ∈ cfg.committee.members)
    (h : Neutral (sys.ctx cfg p) (sys.start p draws) r) : ElectionInv cfg (sys.after p r) :=
  inv.after_silent hp h le_rfl (inv.leader p hp)

theorem ElectionInv.after_yield (inv : ElectionInv cfg sys) (hp : p ∈ cfg.committee.members)
    {leader : InterfaceId} {term : Int} {E : Message → Prop}
    (h : Outcome (sys.ctx cfg p) (sys.start p draws) r leader term [] E)
    (hterm : (sys.peers p).term ≤ term) (hleader : leader ≠ p)
    (hvote : ∀ c t round, E (.vote c p t round) →
      (sys.peers p).term < t ∧ t = term ∧ Stood sys c t ∧
        ∀ c' round', E (.vote c' p t round') → c = c')
    (helect : ∀ t round, E (.elect p t round) → t ≤ term) : ElectionInv cfg (sys.after p r) :=
  inv.after hp h hterm hvote helect (by simp) List.nodup_nil fun hlead => absurd hlead hleader

theorem ElectionInv.elected_of_quorum (inv : ElectionInv cfg sys) {sender : InterfaceId}
    (hnew : sender ∉ (sys.peers p).votes) (hvoted : Voted sys sender p (sys.peers p).term)
    (hquorum : hasQuorum (sys.ctx cfg p) ((sys.peers p).votes ++ [sender]).length = true) :
    Elected cfg sys p (sys.peers p).term := by
  have hstood : Stood sys p (sys.peers p).term := (inv.voted _ _ _ hvoted).2.2
  have hall : ∀ q ∈ (sys.peers p).votes ++ [sender], Voted sys q p (sys.peers p).term := by
    intro q hq
    rcases List.mem_append.mp hq with hq | hq
    · -- a counted vote is no older than the candidacy, and no newer than the term
      obtain ⟨u, hu, hlast⟩ := inv.ballot p q hq
      have hle := inv.stood p u (inv.voted _ _ _ hu).2.2
      have hge := hlast _ hstood
      exact le_antisymm hle hge ▸ hu
    · obtain rfl := List.mem_singleton.mp hq
      exact hvoted
  have hnodup : ((sys.peers p).votes ++ [sender]).Nodup :=
    List.nodup_append.mpr ⟨inv.nodup p, List.nodup_singleton _, by
      rintro a ha b hb rfl
      obtain rfl := List.mem_singleton.mp hb
      exact hnew ha⟩
  refine ⟨((sys.peers p).votes ++ [sender]).toFinset, ?_, ?_, fun q hq => hall q (List.mem_toFinset.mp hq)⟩
  · intro q hq
    rw [List.mem_toFinset] at hq ⊢
    exact (inv.voted _ _ _ (hall q hq)).1
  · rw [List.toFinset_card_of_nodup hnodup, cfg.committee.card_toFinset]
    exact of_decide_eq_true hquorum

theorem ElectionInv.receive (inv : ElectionInv cfg sys) {pkt : Packet Message}
    (hp : p ∈ cfg.committee.members) (hpkt : pkt ∈ sys.sent) (htarget : pkt.target = p)
    (hsafe : ElectionSafe (sys.peers p) p pkt.message) :
    ElectionInv cfg (sys.after p (onMessage (sys.ctx cfg p) pkt.message (sys.start p draws))) := by
  obtain ⟨hwire, hsource⟩ := inv.wire pkt hpkt
  cases hmessage : pkt.message with
  | clientRequest request =>
    exact inv.after_neutral hp (.of_replicates (onClientRequest_replicates _ request _))
  | respondRequest request sender termNum round =>
    exact inv.after_neutral hp (handleRespond_neutral _ request sender _)
  | request request sender termNum =>
    rcases handleRequest_outcome (sys.ctx cfg p) request sender termNum (sys.start p draws)
      with h | ⟨hterm, h⟩
    · exact inv.after_neutral hp h
    · have hother : sender ≠ p := by
        rw [hsource sender (by rw [hmessage]; rfl), ← htarget]
        exact hwire
      exact inv.after_yield hp h hterm hother (fun _ _ _ hE => hE.elim) fun _ _ hE => hE.elim
  | vote voteFor sender termNum round =>
    rw [hmessage] at hsafe
    rcases handleVote_outcome (sys.ctx cfg p) voteFor sender (sys.start p draws) with
      h | ⟨hleads, hmeant, hsender, hnew, hcount⟩
    · exact inv.after_neutral hp h
    obtain rfl : voteFor = p := hmeant
    obtain rfl : termNum = (sys.peers voteFor).term := hsafe hleads rfl hsender hnew
    have hvoted : Voted sys sender voteFor (sys.peers voteFor).term := ⟨pkt, hpkt, round, hmessage⟩
    rcases hcount with h | ⟨hquorum, h⟩
    · refine inv.after hp h le_rfl (fun _ _ _ hE => hE.elim) (fun _ _ hE => hE.elim) ?_ ?_
        (inv.leader voteFor hp)
      · intro q hq
        have hold : ∀ t, Stood (sys.after voteFor (handleVote (sys.ctx cfg voteFor) voteFor sender
            (sys.start voteFor draws))) voteFor t → Stood sys voteFor t := by
          intro t hstood
          rcases stood_after h hstood with hstood | ⟨-, -, hE⟩
          · exact hstood
          · exact hE.elim
        rcases List.mem_append.mp hq with hq | hq
        · obtain ⟨u, hu, hlast⟩ := inv.ballot voteFor q hq
          exact ⟨u, hu, fun t hstood => hlast t (hold t hstood)⟩
        · obtain rfl := List.mem_singleton.mp hq
          exact ⟨_, hvoted, fun t hstood => inv.stood voteFor t (hold t hstood)⟩
      · refine List.nodup_append.mpr ⟨inv.nodup voteFor, List.nodup_singleton _, ?_⟩
        rintro a ha b hb rfl
        obtain rfl := List.mem_singleton.mp hb
        exact hnew ha
    · exact inv.after hp h le_rfl (fun _ _ _ hE => hE.elim) (fun _ _ hE => hE.elim) (by simp)
        List.nodup_nil fun _ _ => inv.elected_of_quorum hnew hvoted hquorum
  | elect sender termNum round =>
    rcases handleElect_outcome (sys.ctx cfg p) sender termNum round (sys.start p draws)
      with h | ⟨hterm, h⟩
    · exact inv.after_neutral hp h
    · refine inv.after_yield hp h hterm.le (cfg.committee.ne_noPeer hp).symm ?_ ?_
      · rintro c t round' ⟨⟩
        exact ⟨hterm, rfl, ⟨pkt, hpkt, round, hmessage⟩, by rintro _ _ ⟨⟩; rfl⟩
      · rintro t round' ⟨⟩
  | commit request sender termNum roundCommitted roundSubmitted =>
    rw [hmessage] at hsafe
    rcases handleCommit_outcome (sys.ctx cfg p) request sender termNum roundCommitted
      roundSubmitted (sys.start p draws) with h | ⟨hother, hterm, h⟩
    · exact inv.after_neutral hp h
    · exact inv.after_silent hp h hterm.le fun hlead _ => absurd (hsafe hother hlead) (not_le.mpr hterm)

theorem ElectionInv.tick (inv : ElectionInv cfg sys) (hp : p ∈ cfg.committee.members) :
    ElectionInv cfg (sys.after p (Raft.tick (sys.ctx cfg p) (sys.start p draws))) := by
  rcases tick_outcome (sys.ctx cfg p) (sys.start p draws) with h | h
  · exact inv.after_neutral hp h
  · refine inv.after_yield hp h (Int.le_add_one le_rfl) (cfg.committee.ne_noPeer hp).symm ?_ ?_
    · rintro c t round ⟨⟩
    · rintro t round ⟨⟩
      exact le_rfl

end Handlers

theorem electionInv_of_reached (h : (machine cfg).ReachedUnder ElectionSafeStep sys) :
    ElectionInv cfg sys := by
  refine h.invariant (fun _ => electionInv_of_initial) ?_
  intro sys e sys' inv hsafe hstep
  rcases step_cases hstep with ⟨-, rfl⟩ | ⟨p, pkt, draws, rfl, hp, hpkt, htarget, rfl⟩ |
    ⟨p, draws, rfl, hp, rfl⟩
  · exact ⟨inv.wire, inv.voted, inv.once, inv.stood, inv.ballot, inv.nodup, inv.leader⟩
  · exact inv.receive hp hpkt htarget hsafe
  · exact inv.tick hp

/-- **Election safety.** In a run in which no peer counts a vote of another term than its own and no
leader's term is raised by a commit message, at most one member leads in a term `t ≥ 1`. -/
theorem election_safety (h : (machine cfg).ReachedUnder ElectionSafeStep sys) (t : Int) (ht : 1 ≤ t) :
    {p | p ∈ cfg.committee.members ∧ Leads sys p t}.Subsingleton := by
  rintro p ⟨hp, hleads⟩ q ⟨hq, hleads'⟩
  have inv := electionInv_of_reached h
  obtain ⟨P, hP, hP', hvotedP⟩ := inv.leader p hp hleads.1 (by rw [hleads.2]; exact ht)
  obtain ⟨Q, hQ, hQ', hvotedQ⟩ := inv.leader q hq hleads'.1 (by rw [hleads'.2]; exact ht)
  obtain ⟨voter, hvP, hvQ⟩ := Lib.exists_mem_inter_of_majority hP hQ hP' hQ'
  have hvp := hvotedP voter hvP
  have hvq := hvotedQ voter hvQ
  rw [hleads.2] at hvp
  rw [hleads'.2] at hvq
  exact inv.once voter p q t hvp hvq

/-! ## Two runs of three peers -/

def threePeers : Config := { committee := .ofSize 3, submitRate := 0, timeoutSpacing := 5 }

def firstElection : List Event :=
  List.replicate 100 .nextRound ++
  [.tick 1 [4], .nextRound,
   .receive 0 ⟨1, 0, .elect 1 1 100⟩ [4], .receive 2 ⟨1, 2, .elect 1 1 100⟩ []]

def votesInTime : List Event :=
  firstElection ++
  [.nextRound, .receive 1 ⟨0, 1, .vote 1 0 1 100⟩ [], .receive 1 ⟨2, 1, .vote 1 2 1 100⟩ []]

/-- The votes arrive when peer 2 has been elected in term 2, also with the vote of peer 1. -/
def votesDelayed : List Event :=
  firstElection ++ List.replicate 5 .nextRound ++
  [.tick 2 [], .nextRound,
   .receive 0 ⟨2, 0, .elect 2 2 106⟩ [], .receive 1 ⟨2, 1, .elect 2 2 106⟩ [], .nextRound,
   .receive 2 ⟨0, 2, .vote 2 0 2 106⟩ [], .receive 2 ⟨1, 2, .vote 2 1 2 106⟩ [],
   .receive 1 ⟨0, 1, .vote 1 0 1 100⟩ [], .receive 1 ⟨2, 1, .vote 1 2 1 100⟩ []]

theorem election_safety_votesInTime :
    ∃ sys, (machine threePeers).ReachedUnder ElectionSafeStep sys ∧ Leads sys 1 1 ∧
      {p | p ∈ threePeers.committee.members ∧ Leads sys p 1}.Subsingleton := by
  have hrun : ((machine threePeers).runUnder ElectionSafeStep (fresh threePeers fun _ => 0)
      votesInTime).map (fun sys => decide (Leads sys 1 1)) = some true := by
    decide +kernel
  obtain ⟨sys, hsys, hleads⟩ := Option.map_eq_some_iff.mp hrun
  have hreached := Lib.Machine.reachedUnder_of_runUnder
    (.start (initial_fresh fun _ => by decide)) hsys
  exact ⟨sys, hreached, of_decide_eq_true hleads, election_safety hreached 1 le_rfl⟩

/-- Votes of term 1 make peer 1 a leader in term 2, besides peer 2. -/
theorem votesDelayed_two_leaders :
    ¬ ∀ (cfg : Config) (sys : System), (machine cfg).Reached sys → ∀ t : Int, 1 ≤ t →
      {p | p ∈ cfg.committee.members ∧ Leads sys p t}.Subsingleton := by
  intro hsafe
  have hrun : ((machine threePeers).run (fresh threePeers fun _ => 0) votesDelayed).map
      (fun sys => decide (Leads sys 1 2 ∧ Leads sys 2 2)) = some true := by
    decide +kernel
  obtain ⟨sys, hsys, hleads⟩ := Option.map_eq_some_iff.mp hrun
  have hreached := Lib.Machine.reached_of_run (.start (initial_fresh fun _ => by decide)) hsys
  obtain ⟨hfirst, hsecond⟩ := of_decide_eq_true hleads
  have hsame := hsafe threePeers sys hreached 2 (by decide) ⟨by decide, hfirst⟩ ⟨by decide, hsecond⟩
  exact absurd hsame (by decide)

end System

end Quantas.Raft
