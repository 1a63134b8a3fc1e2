import Quantas.Lib.LossyRounds
import Quantas.Link.StableDataLink

/-!
# The stable data link moves on

Peer 0 sends its message again when it has not sent anything for more than `timeOutRate` rounds, so there is never a
longer pause. As soon as packets come through for long enough, the message is delivered and its ack comes back, and
peer 0 goes on to the next one: no loss, however long it has gone on, stops the link for good
(`confirms_in_time`).
-/

namespace Quantas.StableDataLink

open Link

/-- A run of the two peers in rounds. -/
abbrev Rounds := Lib.Lossy.Rounds protocol

theorem members_nodup : protocol.members.Nodup := by
  decide

/-! ## The parts of `performComputation` -/

def opening (ctx : Ctx) (s : Local) : Local :=
  if ctx.self = 0 ∧ ¬ s.awaitingAck ∧ s.nextMessageNum = 1 then submitTrans ctx s else s

def closing (ctx : Ctx) (s : Local) : Local :=
  if ctx.self = 0 ∧ s.awaitingAck ∧ timedOut s.previousMessageRound s.timeOutRate ctx.round then resendData ctx s
  else s

theorem performComputation_eq (ctx : Ctx) (inStream : List Message) (s : Local) :
    performComputation ctx inStream s = closing ctx (inStream.foldl (onMessage ctx) (opening ctx s)) := rfl

theorem closing_lastSent (ctx : Ctx) (s : Local) : (closing ctx s).lastSentMessageNum = s.lastSentMessageNum := by
  unfold closing resendData
  split_ifs <;> rfl

/-! ## A round of peer 0 -/

/-- Peer 0 waits for an ack, and since the state `s₀` it has sent nothing, or it has sent its message in this
round. -/
structure SentSince (round : Nat) (s₀ s : Local) : Prop where
  awaiting : s.awaitingAck = true
  next : 1 ≤ s.nextMessageNum
  positive : 1 ≤ s.lastSentMessageNum
  rate : s.timeOutRate = s₀.timeOutRate
  sent : s.previousMessageRound = s₀.previousMessageRound ∧ s.lastSentMessageNum = s₀.lastSentMessageNum ∨
    s.previousMessageRound = round ∧
      (⟨0, 1, ⟨.data, round, s.lastSentMessageNum⟩⟩ : Packet Message) ∈ s.outbox

section Sender
variable {round : Nat} {s₀ s : Local} {n d : Int}

theorem SentSince.submitTrans (hnext : 1 ≤ s.nextMessageNum) (hrate : s.timeOutRate = s₀.timeOutRate) :
    SentSince round s₀ (submitTrans ⟨0, [1], round⟩ s) := by
  unfold StableDataLink.submitTrans
  rw [if_neg (not_not.mpr rfl)]
  refine ⟨rfl, ?_, hnext, hrate, .inr ⟨rfl, List.mem_append_right _ (List.mem_singleton.mpr rfl)⟩⟩
  show 1 ≤ s.nextMessageNum + 1
  omega

theorem SentSince.onMessage (h : SentSince round s₀ s) {m : Message} (hack : m.action = .ack) :
    SentSince round s₀ (onMessage ⟨0, [1], round⟩ s m) := by
  unfold StableDataLink.onMessage
  rw [hack]
  dsimp only
  unfold handleAck
  rw [if_neg (not_not.mpr rfl), if_neg (not_not.mpr h.awaiting)]
  by_cases hnum : m.messageNum = s.lastSentMessageNum
  · rw [if_neg (not_not.mpr hnum)]
    exact .submitTrans h.next h.rate
  · rw [if_pos hnum]
    exact h

theorem SentSince.opening (h : Sender n d s) : SentSince round s (opening ⟨0, [1], round⟩ s) := by
  have hawaits := h.awaiting
  have hnext := h.next
  have hahead := h.ahead
  have hnonneg := h.nonneg
  unfold StableDataLink.opening
  by_cases hpositive : 1 ≤ s.lastSentMessageNum
  · rw [decide_eq_true hpositive] at hawaits
    rw [if_neg fun hidle => hidle.2.1 hawaits]
    exact ⟨hawaits, by omega, hpositive, rfl, .inl ⟨rfl, rfl⟩⟩
  · rw [decide_eq_false hpositive] at hawaits
    rw [if_pos ⟨rfl, by rw [hawaits]; exact Bool.false_ne_true, by omega⟩]
    exact .submitTrans (by omega) rfl

theorem SentSince.closing (h : SentSince round s₀ s) (hrate : s₀.timeOutRate = 4)
    (hround : s.previousMessageRound ≤ round) (hsize : round + 4 < 2 ^ 64) :
    SentSince round s₀ (closing ⟨0, [1], round⟩ s) ∧
      (closing ⟨0, [1], round⟩ s).previousMessageRound ≤ round ∧
      round ≤ (closing ⟨0, [1], round⟩ s).previousMessageRound + 4 := by
  have hwhole : toSizeT (s.previousMessageRound + s.timeOutRate) = s.previousMessageRound + 4 := by
    unfold toSizeT
    rw [h.rate, hrate]
    omega
  unfold StableDataLink.closing
  by_cases hlate : timedOut s.previousMessageRound s.timeOutRate round = true
  · rw [if_pos ⟨rfl, h.awaiting, hlate⟩, resendData, if_neg (not_not.mpr h.awaiting), if_neg (not_le.mpr h.positive)]
    refine ⟨⟨h.awaiting, h.next, h.positive, h.rate, .inr ⟨rfl, ?_⟩⟩, le_rfl, Nat.le_add_right _ _⟩
    exact List.mem_append_right _ (List.mem_singleton.mpr rfl)
  · rw [if_neg fun hresends => hlate hresends.2.2]
    refine ⟨h, hround, ?_⟩
    unfold timedOut at hlate
    rw [hwhole, decide_eq_true_iff] at hlate
    exact not_lt.mp hlate

theorem SentSince.round_le (h : SentSince round s₀ s) (hround : s₀.previousMessageRound ≤ round) :
    s.previousMessageRound ≤ round := by
  rcases h.sent with ⟨hsame, -⟩ | ⟨hnow, -⟩
  · exact hsame.trans_le hround
  · exact hnow.le

theorem SentSince.performComputation (h : Sender n d s) (hrate : s.timeOutRate = 4) {inStream : List Message}
    (hin : ∀ m ∈ inStream, m.action = .ack) (hround : s.previousMessageRound ≤ round)
    (hsize : round + 4 < 2 ^ 64) :
    SentSince round s (performComputation ⟨0, [1], round⟩ inStream s) ∧
      (performComputation ⟨0, [1], round⟩ inStream s).previousMessageRound ≤ round ∧
      round ≤ (performComputation ⟨0, [1], round⟩ inStream s).previousMessageRound + 4 := by
  have hloop : SentSince round s (inStream.foldl (StableDataLink.onMessage ⟨0, [1], round⟩)
      (StableDataLink.opening ⟨0, [1], round⟩ s)) :=
    List.foldlRecOn inStream _ (.opening h) fun _ hs m hm => hs.onMessage (hin m hm)
  rw [performComputation_eq]
  exact hloop.closing hrate (hloop.round_le hround) hsize

theorem Sender.confirmed (h : Sender n d s) {m : Message} (hack : m.action = .ack) (hm : m.messageNum ≤ d)
    (hnum : m.messageNum = n) (hn : 1 ≤ n) :
    Sender (n + 1) d (StableDataLink.onMessage ⟨0, [1], round⟩ s m) := by
  have hkept : Sender n d (StableDataLink.onMessage ⟨0, [1], round⟩ s m) := Sender.onMessage h hack hm
  refine ⟨?_, hkept.next, hkept.awaiting, hkept.count, hkept.behind, hkept.ahead, hkept.nonneg, hkept.satisfied,
    hkept.outbox⟩
  have hgrows := h.grows
  have hawaiting : s.awaitingAck = true := by
    rw [h.awaiting]
    exact decide_eq_true (by omega)
  unfold StableDataLink.onMessage
  rw [hack]
  dsimp only
  unfold handleAck
  rw [if_neg (not_not.mpr rfl), if_neg (not_not.mpr hawaiting)]
  split_ifs with hother
  · omega
  · show n + 1 ≤ s.nextMessageNum
    rw [h.next]
    omega

theorem Sender.goes_on (h : Sender n d s) {inStream : List Message}
    (hin : ∀ m ∈ inStream, m.action = .ack ∧ m.messageNum ≤ d) {m : Message} (hm : m ∈ inStream)
    (hnum : m.messageNum = n) (hn : 1 ≤ n) :
    n + 1 ≤ (StableDataLink.performComputation ⟨0, [1], round⟩ inStream s).lastSentMessageNum := by
  have hgrows := h.grows
  have hopening : opening ⟨0, [1], round⟩ s = s := by
    unfold opening
    refine if_neg fun hidle => hidle.2.1 ?_
    rw [h.awaiting]
    exact decide_eq_true (by omega)
  obtain ⟨before, after, rfl⟩ := List.append_of_mem hm
  have hbefore : Sender n d (before.foldl (StableDataLink.onMessage ⟨0, [1], round⟩) s) :=
    List.foldlRecOn before _ h fun _ hs m hm => hs.onMessage (hin m (by simp [hm])).1 (hin m (by simp [hm])).2
  have hthen : Sender (n + 1) d (StableDataLink.onMessage ⟨0, [1], round⟩
      (before.foldl (StableDataLink.onMessage ⟨0, [1], round⟩) s) m) :=
    hbefore.confirmed (hin m hm).1 (hin m hm).2 hnum hn
  have hafter := List.foldlRecOn after (StableDataLink.onMessage ⟨0, [1], round⟩) hthen fun _ hs m hm =>
    Sender.onMessage hs (hin m (by simp [hm])).1 (hin m (by simp [hm])).2
  rw [performComputation_eq, closing_lastSent, hopening, List.foldl_append, List.foldl_cons]
  exact hafter.grows

end Sender

/-! ## A round of peer 1 -/

theorem onMessage_outbox {round : Nat} (s : Local) (m : Message) :
    s.outbox ⊆ (onMessage ⟨1, [0], round⟩ s m).outbox := by
  unfold onMessage
  cases m.action with
  | ack =>
    dsimp only
    unfold handleAck
    rw [if_pos (show (1 : InterfaceId) ≠ 0 by decide)]
    exact List.Subset.refl _
  | data =>
    dsimp only
    unfold handleData sendAck
    by_cases hnum : m.messageNum < 0
    · rw [if_pos hnum]
      exact List.Subset.refl _
    · rw [if_neg hnum]
      dsimp only
      rw [if_neg hnum]
      unfold sendMessage
      dsimp only
      split_ifs <;> exact List.subset_append_left _ _

theorem acknowledges {round : Nat} (s : Local) {inStream : List Message} {m : Message} (hm : m ∈ inStream)
    (hdata : m.action = .data) (hnum : 0 ≤ m.messageNum) :
    (⟨1, 0, ⟨.ack, round, m.messageNum⟩⟩ : Packet Message) ∈
      (performComputation ⟨1, [0], round⟩ inStream s).outbox := by
  have hself : ¬ (1 : InterfaceId) = 0 := by decide
  obtain ⟨before, after, rfl⟩ := List.append_of_mem hm
  have hsent : (⟨1, 0, ⟨.ack, round, m.messageNum⟩⟩ : Packet Message) ∈
      (onMessage ⟨1, [0], round⟩ (before.foldl (onMessage ⟨1, [0], round⟩) s) m).outbox := by
    generalize before.foldl (onMessage ⟨1, [0], round⟩) s = t
    unfold onMessage
    rw [hdata]
    dsimp only
    unfold handleData sendAck
    rw [if_neg (not_lt.mpr hnum)]
    dsimp only
    rw [if_neg (not_lt.mpr hnum)]
    exact List.mem_append_right _ (List.mem_singleton.mpr rfl)
  rw [performComputation_eq, closing, if_neg fun h => hself h.1, opening, if_neg fun h => hself h.1, List.foldl_append,
    List.foldl_cons]
  exact List.foldlRecOn (motive := fun t => _ ∈ t.outbox) after _ hsent fun t ht m _ => onMessage_outbox t m ht

/-! ## The rounds of both -/

namespace Rounds
variable (R : Rounds) {delay a : Nat}

theorem linkInv (r : Nat) : LinkInv (R.net r) := linkInv_of_reached (R.reached r)

/-- The state of peer `i` before round `r`, its outbox empty. -/
abbrev peer (r : Nat) (i : InterfaceId) : Local := { (R.net r).nodes i with outbox := [] }

theorem sender (r : Nat) :
    Sender ((R.net r).nodes 0).lastSentMessageNum ((R.net r).nodes 1).lastDeliveredMessageNum (R.peer r 0) :=
  (R.linkInv r).sender.current

theorem node_zero (r : Nat) : (R.net (r + 1)).nodes 0 =
    performComputation ⟨0, [1], r⟩ ((R.inStream r 0).map Packet.message) (R.peer r 0) :=
  R.node members_nodup (by decide) r

theorem acks (r : Nat) : ∀ m ∈ (R.inStream r 0).map Packet.message,
    m.action = .ack ∧ m.messageNum ≤ ((R.net r).nodes 1).lastDeliveredMessageNum := by
  intro m hm
  obtain ⟨pkt, hpkt, rfl⟩ := List.mem_map.mp hm
  obtain ⟨htarget, -⟩ := R.accepted members_nodup (i := 0) (by decide) hpkt
  rcases (R.linkInv r).sent pkt (R.earlier r 0 (by decide) pkt hpkt) with ⟨-, hack, -, hle⟩ | ⟨hone, -⟩
  · exact ⟨hack, hle⟩
  · rw [htarget] at hone
    exact absurd hone (by decide)

theorem lastSent_succ (r : Nat) :
    ((R.net r).nodes 0).lastSentMessageNum ≤ ((R.net (r + 1)).nodes 0).lastSentMessageNum := by
  rw [node_zero]
  exact ((R.sender r).performComputation (R.acks r)).grows

theorem lastSent_mono : Monotone fun r => ((R.net r).nodes 0).lastSentMessageNum :=
  monotone_nat_of_le_succ R.lastSent_succ

theorem last_send (r : Nat) (hsize : r + 4 < 2 ^ 64) :
    ((R.net (r + 1)).nodes 0).timeOutRate = 4 ∧ ((R.net (r + 1)).nodes 0).previousMessageRound ≤ r ∧
      r ≤ ((R.net (r + 1)).nodes 0).previousMessageRound + 4 ∧
      1 ≤ ((R.net (r + 1)).nodes 0).lastSentMessageNum ∧
      ⟨0, 1, ⟨.data, ((R.net (r + 1)).nodes 0).previousMessageRound,
          ((R.net (r + 1)).nodes 0).lastSentMessageNum⟩⟩ ∈
        R.sends ((R.net (r + 1)).nodes 0).previousMessageRound 0 := by
  have hacks := fun m hm => (R.acks r m hm).1
  have hnow : ∀ pkt, pkt ∈ ((R.net (r + 1)).nodes 0).outbox → pkt ∈ R.sends r 0 := by
    intro pkt hpkt
    rw [node_zero] at hpkt
    exact hpkt
  induction r with
  | zero =>
    have hstart : R.net 0 = ⟨0, protocol.initial, []⟩ := R.starts
    have hrate : (R.peer 0 0).timeOutRate = 4 := by rw [peer, hstart]; rfl
    have hprevious : (R.peer 0 0).previousMessageRound = 0 := by rw [peer, hstart]; rfl
    have hlast : (R.peer 0 0).lastSentMessageNum = 0 := by rw [peer, hstart]; rfl
    obtain ⟨hsince, hle, hfour⟩ := SentSince.performComputation (R.sender 0) hrate hacks hprevious.le hsize
    rw [← node_zero] at hsince hle hfour
    refine ⟨hsince.rate.trans hrate, hle, hfour, hsince.positive, ?_⟩
    rcases hsince.sent with ⟨-, hsame⟩ | ⟨hround, hsent⟩
    · have := hsince.positive
      omega
    · rw [hround]
      exact hnow _ hsent
  | succ r ih =>
    obtain ⟨hrate, hprevious, -, -, hbefore⟩ := ih (by omega) (fun m hm => (R.acks r m hm).1) fun pkt hpkt => by
      rw [node_zero] at hpkt
      exact hpkt
    obtain ⟨hsince, hle, hfour⟩ :=
      SentSince.performComputation (R.sender (r + 1)) hrate hacks (hprevious.trans (Nat.le_succ r)) hsize
    rw [← node_zero] at hsince hle hfour
    refine ⟨hsince.rate.trans hrate, hle, hfour, hsince.positive, ?_⟩
    rcases hsince.sent with ⟨hsame, hnum⟩ | ⟨hround, hsent⟩
    · rw [hsame, hnum]
      exact hbefore
    · rw [hround]
      exact hnow _ hsent

theorem goes_on (htimely : R.Timely delay a (a + 5 + delay)) (hsize : a + 8 < 2 ^ 64) :
    ((R.net (a + 5)).nodes 0).lastSentMessageNum + 1 ≤
      ((R.net (a + (5 + 2 * delay))).nodes 0).lastSentMessageNum := by
  obtain ⟨-, hle, hfour, hpositive, hsent⟩ := R.last_send (a + 4) (by omega)
  generalize hp : ((R.net (a + 4 + 1)).nodes 0).previousMessageRound = p at hle hfour hsent
  generalize hn : ((R.net (a + 4 + 1)).nodes 0).lastSentMessageNum = n at hpositive hsent
  obtain ⟨r₁, hafter, hby, harrives⟩ := htimely p (by omega) (by omega) 0 (by decide) _ hsent 1 (by decide)
    ⟨rfl, show (0 : InterfaceId) ≠ 1 by decide⟩
  have hack : (⟨1, 0, ⟨.ack, r₁, n⟩⟩ : Packet Message) ∈ R.sends r₁ 1 :=
    acknowledges _ (List.mem_map.mpr ⟨_, harrives, rfl⟩) rfl (show 0 ≤ n by omega)
  obtain ⟨r₂, hafter', hby', harrives'⟩ := htimely r₁ (by omega) (by omega) 1 (by decide) _ hack 0 (by decide)
    ⟨rfl, show (1 : InterfaceId) ≠ 0 by decide⟩
  have hmem := R.acks r₂ ⟨.ack, r₁, n⟩ (List.mem_map.mpr ⟨_, harrives', rfl⟩)
  have hsender := R.sender r₂
  have hlast : n ≤ ((R.net r₂).nodes 0).lastSentMessageNum := by
    have hdelivered := hsender.ahead
    exact hmem.2.trans hdelivered
  have hthen : n + 1 ≤ ((R.net (r₂ + 1)).nodes 0).lastSentMessageNum := by
    have hwaits : Sender n ((R.net r₂).nodes 1).lastDeliveredMessageNum (R.peer r₂ 0) :=
      ⟨hlast, hsender.next, hsender.awaiting, hsender.count, hsender.behind, hsender.ahead, hsender.nonneg,
        hsender.satisfied, hsender.outbox⟩
    rw [node_zero]
    exact hwaits.goes_on (R.acks r₂) (List.mem_map.mpr ⟨_, harrives', rfl⟩) rfl hpositive
  have hlater := R.lastSent_mono (show r₂ + 1 ≤ a + (5 + 2 * delay) by omega)
  exact hthen.trans hlater

theorem confirms_one (htimely : R.Timely delay a (a + 5 + delay)) (hsize : a + 8 < 2 ^ 64) :
    ((R.net a).nodes 0).requestsSatisfied + 1 ≤ ((R.net (a + (5 + 2 * delay))).nodes 0).requestsSatisfied := by
  have hnext := R.goes_on htimely hsize
  obtain ⟨-, -, -, hpositive, -⟩ := R.last_send (a + 4) (by omega)
  have hfirst : 1 ≤ ((R.net (a + 5)).nodes 0).lastSentMessageNum := hpositive
  have hmono := R.lastSent_mono (show a ≤ a + 5 by omega)
  have hbefore := R.sender a
  have hcount := hbefore.count
  have hawaiting := hbefore.awaiting
  have hcount' := (R.sender (a + (5 + 2 * delay))).count
  have hahead := hbefore.ahead
  have hnonneg := hbefore.nonneg
  dsimp only at hcount hawaiting hcount' hahead hnonneg hmono
  have hless : ((R.net a).nodes 0).requestsSatisfied ≤ ((R.net (a + 5)).nodes 0).lastSentMessageNum - 1 := by
    rw [hcount, hawaiting]
    by_cases hone : 1 ≤ ((R.net a).nodes 0).lastSentMessageNum
    · rw [decide_eq_true hone, if_pos rfl]
      exact Int.sub_le_sub_right hmono 1
    · rw [decide_eq_false hone, if_neg Bool.false_ne_true]
      omega
  have hmore : ((R.net (a + (5 + 2 * delay))).nodes 0).lastSentMessageNum - 1 ≤
      ((R.net (a + (5 + 2 * delay))).nodes 0).requestsSatisfied := by
    rw [hcount']
    split_ifs <;> omega
  omega

end Rounds

/-- **The link moves on.** When for `k` times `5 + 2 * delay` rounds nothing is lost and nothing comes later than
`delay` rounds after it was sent, `k` messages more are confirmed, each delivered in its turn; what was lost before
does not matter. -/
theorem confirms_in_time (R : Rounds) {delay a k : Nat} (htimely : R.Timely delay a (a + k * (5 + 2 * delay)))
    (hsize : a + k * (5 + 2 * delay) + 8 < 2 ^ 64) :
    ((R.net a).nodes 0).requestsSatisfied + k ≤
        ((R.net (a + k * (5 + 2 * delay))).nodes 0).requestsSatisfied ∧
      ∀ n, 1 ≤ n → n ≤ ((R.net a).nodes 0).requestsSatisfied + k →
        n ∈ ((R.net (a + k * (5 + 2 * delay))).nodes 1).delivered := by
  have hconfirms : ((R.net a).nodes 0).requestsSatisfied + k ≤
      ((R.net (a + k * (5 + 2 * delay))).nodes 0).requestsSatisfied := by
    induction k with
    | zero => simp
    | succ k ih =>
      have hrounds : a + (k + 1) * (5 + 2 * delay) = a + k * (5 + 2 * delay) + (5 + 2 * delay) := by ring
      rw [hrounds] at htimely hsize ⊢
      have hfirst := ih (fun r ha hb => htimely r ha (by omega)) (by omega)
      have hwindow : R.Timely delay (a + k * (5 + 2 * delay)) (a + k * (5 + 2 * delay) + 5 + delay) :=
        fun r ha hb => htimely r (by omega) (by omega)
      have hlast := R.confirms_one hwindow (by omega)
      push_cast
      omega
  refine ⟨hconfirms, fun n hone hle => ?_⟩
  have hinv := R.linkInv (a + k * (5 + 2 * delay))
  apply hinv.satisfied_delivered
  rw [show ((R.net (a + k * (5 + 2 * delay))).nodes 0).satisfied = upTo _ from hinv.sender.satisfied, mem_upTo]
  exact ⟨hone, hle.trans hconfirms⟩

/-- When every packet comes in the next round, three messages are confirmed in 21 rounds. -/
theorem confirms_in_time_inStep :
    3 ≤ (((Lib.Lossy.Rounds.inStep protocol).net 21).nodes 0).requestsSatisfied ∧
      3 ∈ (((Lib.Lossy.Rounds.inStep protocol).net 21).nodes 1).delivered := by
  have hconfirms := confirms_in_time (Lib.Lossy.Rounds.inStep protocol) (a := 0) (k := 3)
    ((Lib.Lossy.Rounds.inStep_lockStep members_nodup).timely _ _) (by decide)
  have hstart : (((Lib.Lossy.Rounds.inStep protocol).net 0).nodes 0).requestsSatisfied = 0 := rfl
  rw [show 0 + 3 * (5 + 2 * 1) = 21 from rfl, hstart] at hconfirms
  exact ⟨le_trans (by decide) hconfirms.1, hconfirms.2 3 (by decide) (by decide)⟩

end Quantas.StableDataLink
