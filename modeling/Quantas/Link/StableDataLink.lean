import Quantas.Link.Message

/-!
# The stable data link peers

Peer 0 sends one message at a time, again and again until an ack with its number arrives, and then the next;
peer 1 delivers a data message with a number above the last one, and acknowledges every data message. What is
on the network never runs ahead of its sender, so peer 1 delivers the numbers one after the other
(`exact_in_order`).
-/

namespace Quantas.StableDataLink

open Link

structure StableDataLinkPeer where
  requestsSatisfied : Int := 0
  messagesSent : Nat := 0
  timeOutRate : Int := 4
  previousMessageRound : Nat := 0
  nextMessageNum : Int := 1
  lastSentMessageNum : Int := 0
  lastDeliveredMessageNum : Int := 0
  awaitingAck : Bool := false
  deriving DecidableEq, Repr

/-- A peer inside `performComputation`: the packets sent so far. `delivered` and `satisfied` are its history,
which the code does not keep: the successive values of `lastDeliveredMessageNum`, and the numbers that
`requestsSatisfied` counts. -/
structure Local extends StableDataLinkPeer where
  outbox : List (Packet Message) := []
  delivered : List Int := []
  satisfied : List Int := []

/-- What `performComputation` reads and does not change. -/
structure Ctx where
  self : InterfaceId
  neighbors : List InterfaceId
  round : Nat

variable (ctx : Ctx)

def partnerId : InterfaceId := ctx.neighbors.head?.getD (if ctx.self = 0 then 1 else 0)

def sendMessage (peer : InterfaceId) (message : Message) (s : Local) : Local :=
  { s with
    outbox := s.outbox ++ [⟨ctx.self, peer, message⟩]
    messagesSent := s.messagesSent + 1
    previousMessageRound := ctx.round }

def sendData (messageNum : Int) (s : Local) : Local :=
  sendMessage ctx (partnerId ctx) ⟨.data, ctx.round, messageNum⟩ s

def submitTrans (s : Local) : Local :=
  if ctx.self ≠ 0 then s
  else
    let s := sendData ctx s.nextMessageNum { s with
      lastSentMessageNum := s.nextMessageNum
      awaitingAck := true }
    { s with nextMessageNum := s.nextMessageNum + 1 }

def resendData (s : Local) : Local :=
  if ¬ s.awaitingAck then s
  else if s.lastSentMessageNum ≤ 0 then s
  else sendData ctx s.lastSentMessageNum s

def sendAck (messageNum : Int) (s : Local) : Local :=
  if messageNum < 0 then s
  else sendMessage ctx (partnerId ctx) ⟨.ack, ctx.round, messageNum⟩ s

def handleAck (messageNum : Int) (s : Local) : Local :=
  if ctx.self ≠ 0 then s
  else if ¬ s.awaitingAck then s
  else if messageNum ≠ s.lastSentMessageNum then s
  else
    submitTrans ctx { s with
      previousMessageRound := ctx.round
      awaitingAck := false
      requestsSatisfied := s.requestsSatisfied + 1
      satisfied := s.satisfied ++ [messageNum] }

def handleData (messageNum : Int) (s : Local) : Local :=
  if messageNum < 0 then s
  else
    let s := { s with previousMessageRound := ctx.round }
    sendAck ctx messageNum
      (if s.lastDeliveredMessageNum < messageNum then
        { s with
          lastDeliveredMessageNum := messageNum
          delivered := s.delivered ++ [messageNum] }
      else s)

/-- The loop of `performComputation` over the in-stream. -/
def onMessage (s : Local) (message : Message) : Local :=
  match message.action with
  | .ack => handleAck ctx message.messageNum s
  | .data => handleData ctx message.messageNum s

def performComputation (inStream : List Message) (s : Local) : Local :=
  let s := if ctx.self = 0 ∧ ¬ s.awaitingAck ∧ s.nextMessageNum = 1 then submitTrans ctx s else s
  let s := inStream.foldl (onMessage ctx) s
  if ctx.self = 0 ∧ s.awaitingAck ∧ timedOut s.previousMessageRound s.timeOutRate ctx.round then
    resendData ctx s
  else s

def protocol : Lib.Lossy.Protocol InterfaceId Local (Packet Message) where
  members := [0, 1]
  initial := fun _ => {}
  accepts := fun self pkt => pkt.target = self ∧ pkt.source ≠ self
  react := fun self round inStream s =>
    let r := performComputation ⟨self, [1 - self], round⟩ (inStream.map Packet.message) { s with outbox := [] }
    (r, r.outbox)

instance (i : InterfaceId) (pkt : Packet Message) : Decidable (protocol.accepts i pkt) :=
  inferInstanceAs (Decidable (_ ∧ _))

abbrev machine := protocol.machine

abbrev System := Lib.Lossy.Net InterfaceId Local (Packet Message)

/-! ## The numbers from 1 on -/

def upTo (n : Int) : List Int := (List.range n.toNat).map fun k : Nat => (k : Int) + 1

theorem mem_upTo {n k : Int} : k ∈ upTo n ↔ 1 ≤ k ∧ k ≤ n := by
  simp only [upTo, List.mem_map, List.mem_range]
  constructor
  · rintro ⟨j, hj, rfl⟩
    omega
  · rintro ⟨hone, hle⟩
    exact ⟨(k - 1).toNat, by omega, by omega⟩

theorem upTo_add_one {n : Int} (h : 0 ≤ n) : upTo (n + 1) = upTo n ++ [n + 1] := by
  have hsucc : (n + 1).toNat = n.toNat + 1 := by omega
  have hn : (n.toNat : Int) = n := by omega
  rw [upTo, hsucc, List.range_succ, List.map_append, List.map_singleton, hn, upTo]

/-! ## The invariant -/

/-- Peer 0, which had sent up to `n`, when peer 1 has delivered up to `d`: data on its way is numbered up to
the last one sent. -/
structure Sender (n d : Int) (s : Local) : Prop where
  grows : n ≤ s.lastSentMessageNum
  next : s.nextMessageNum = s.lastSentMessageNum + 1
  awaiting : s.awaitingAck = decide (1 ≤ s.lastSentMessageNum)
  count : s.requestsSatisfied = if s.awaitingAck then s.lastSentMessageNum - 1 else s.lastSentMessageNum
  behind : s.lastSentMessageNum - 1 ≤ d
  ahead : d ≤ s.lastSentMessageNum
  nonneg : 0 ≤ d
  satisfied : s.satisfied = upTo s.requestsSatisfied
  outbox : ∀ pkt ∈ s.outbox, pkt.target = 1 ∧ pkt.message.action = .data ∧ 1 ≤ pkt.message.messageNum ∧
    pkt.message.messageNum ≤ s.lastSentMessageNum

/-- Peer 1, which had delivered up to `d`, when peer 0 has sent up to `n`: acks on their way are for delivered
numbers. -/
structure Receiver (d n : Int) (s : Local) : Prop where
  grows : d ≤ s.lastDeliveredMessageNum
  behind : n - 1 ≤ s.lastDeliveredMessageNum
  ahead : s.lastDeliveredMessageNum ≤ n
  nonneg : 0 ≤ s.lastDeliveredMessageNum
  delivered : s.delivered = upTo s.lastDeliveredMessageNum
  outbox : ∀ pkt ∈ s.outbox, pkt.target = 0 ∧ pkt.message.action = .ack ∧ 1 ≤ pkt.message.messageNum ∧
    pkt.message.messageNum ≤ s.lastDeliveredMessageNum

section Steps
variable {round : Nat} {d n : Int} {s : Local}

theorem Sender.submitTrans (hnext : s.nextMessageNum = s.lastSentMessageNum + 1)
    (hn : n ≤ s.lastSentMessageNum) (hcount : s.requestsSatisfied = s.lastSentMessageNum)
    (hd : d = s.lastSentMessageNum) (hnonneg : 0 ≤ d)
    (hsatisfied : s.satisfied = upTo s.requestsSatisfied)
    (houtbox : ∀ pkt ∈ s.outbox, pkt.target = 1 ∧ pkt.message.action = .data ∧ 1 ≤ pkt.message.messageNum ∧
      pkt.message.messageNum ≤ s.lastSentMessageNum) :
    Sender n d (submitTrans ⟨0, [1], round⟩ s) := by
  unfold StableDataLink.submitTrans
  rw [if_neg (not_not.mpr rfl)]
  refine ⟨?_, rfl, ?_, ?_, ?_, ?_, hnonneg, hsatisfied, fun pkt hpkt => ?_⟩
  · show n ≤ s.nextMessageNum
    omega
  · show true = decide (1 ≤ s.nextMessageNum)
    rw [eq_comm, decide_eq_true_iff]
    omega
  · show s.requestsSatisfied = s.nextMessageNum - 1
    omega
  · show s.nextMessageNum - 1 ≤ d
    omega
  · show d ≤ s.nextMessageNum
    omega
  · show _ ∧ _ ∧ _ ∧ pkt.message.messageNum ≤ s.nextMessageNum
    rcases List.mem_append.mp hpkt with hpkt | hpkt
    · obtain ⟨htarget, haction, hone, hle⟩ := houtbox pkt hpkt
      exact ⟨htarget, haction, hone, by omega⟩
    · obtain rfl := List.mem_singleton.mp hpkt
      exact ⟨rfl, rfl, show 1 ≤ s.nextMessageNum by omega, le_refl s.nextMessageNum⟩

theorem Sender.onMessage (h : Sender n d s) {m : Message} (hack : m.action = .ack) (hm : m.messageNum ≤ d) :
    Sender n d (onMessage ⟨0, [1], round⟩ s m) := by
  unfold StableDataLink.onMessage
  rw [hack]
  dsimp only
  unfold handleAck
  rw [if_neg (not_not.mpr rfl)]
  by_cases hawaiting : s.awaitingAck
  swap
  · rw [if_pos hawaiting]
    exact h
  rw [if_neg (not_not.mpr hawaiting)]
  by_cases hnum : m.messageNum = s.lastSentMessageNum
  swap
  · rw [if_pos hnum]
    exact h
  rw [if_neg (not_not.mpr hnum)]
  have hcount := h.count
  rw [if_pos hawaiting] at hcount
  have hpos : 1 ≤ s.lastSentMessageNum := by
    rw [h.awaiting] at hawaiting
    exact of_decide_eq_true hawaiting
  have hd : d = s.lastSentMessageNum := by
    have := h.ahead
    omega
  refine Sender.submitTrans h.next h.grows ?_ hd h.nonneg ?_ h.outbox
  · show s.requestsSatisfied + 1 = s.lastSentMessageNum
    omega
  · show s.satisfied ++ [m.messageNum] = upTo (s.requestsSatisfied + 1)
    have hnum' : m.messageNum = s.requestsSatisfied + 1 := by omega
    rw [upTo_add_one (by omega), h.satisfied, hnum']

theorem Sender.performComputation (h : Sender n d s) {inStream : List Message}
    (hin : ∀ m ∈ inStream, m.action = .ack ∧ m.messageNum ≤ d) :
    Sender n d (performComputation ⟨0, [1], round⟩ inStream s) := by
  have hfirst : Sender n d (if (0 : InterfaceId) = 0 ∧ ¬ s.awaitingAck ∧ s.nextMessageNum = 1 then
      StableDataLink.submitTrans ⟨0, [1], round⟩ s else s) := by
    split_ifs with hidle
    · obtain ⟨-, hawaiting, hone⟩ := hidle
      have hnext := h.next
      have hcount := h.count
      rw [if_neg hawaiting] at hcount
      have := h.ahead
      have := h.nonneg
      exact Sender.submitTrans h.next h.grows hcount (by omega) h.nonneg h.satisfied h.outbox
    · exact h
  have hloop := List.foldlRecOn inStream (StableDataLink.onMessage ⟨0, [1], round⟩) hfirst
    fun _ hs m hm => Sender.onMessage hs (hin m hm).1 (hin m hm).2
  unfold StableDataLink.performComputation
  dsimp only
  generalize inStream.foldl _ _ = t at hloop ⊢
  split_ifs with hlate
  swap
  · exact hloop
  unfold resendData
  rw [if_neg (not_not.mpr hlate.2.1)]
  split_ifs with hpos
  · exact hloop
  · refine ⟨hloop.grows, hloop.next, hloop.awaiting, hloop.count, hloop.behind, hloop.ahead, hloop.nonneg,
      hloop.satisfied, fun pkt hpkt => ?_⟩
    rcases List.mem_append.mp hpkt with hpkt | hpkt
    · exact hloop.outbox pkt hpkt
    · obtain rfl := List.mem_singleton.mp hpkt
      exact ⟨rfl, rfl, not_le.mp hpos, le_refl _⟩

theorem Receiver.onMessage (h : Receiver d n s) {m : Message} (hdata : m.action = .data)
    (hone : 1 ≤ m.messageNum) (hm : m.messageNum ≤ n) : Receiver d n (onMessage ⟨1, [0], round⟩ s m) := by
  have hgrows := h.grows
  have hbehind := h.behind
  unfold StableDataLink.onMessage
  rw [hdata]
  dsimp only
  unfold handleData sendAck
  dsimp only
  rw [if_neg (by omega), if_neg (by omega)]
  split_ifs with hnew
  · -- the new number is the next one: peer 0 is at most one ahead
    have hnext : m.messageNum = s.lastDeliveredMessageNum + 1 := by omega
    refine ⟨?_, ?_, hm, ?_, ?_, fun pkt hpkt => ?_⟩
    · show d ≤ m.messageNum
      omega
    · show n - 1 ≤ m.messageNum
      omega
    · show 0 ≤ m.messageNum
      omega
    · show s.delivered ++ [m.messageNum] = upTo m.messageNum
      rw [hnext, upTo_add_one h.nonneg, h.delivered]
    · show _ ∧ _ ∧ _ ∧ pkt.message.messageNum ≤ m.messageNum
      rcases List.mem_append.mp hpkt with hpkt | hpkt
      · obtain ⟨htarget, haction, hone', hle⟩ := h.outbox pkt hpkt
        exact ⟨htarget, haction, hone', by omega⟩
      · obtain rfl := List.mem_singleton.mp hpkt
        exact ⟨rfl, rfl, hone, le_refl _⟩
  · refine ⟨hgrows, hbehind, h.ahead, h.nonneg, h.delivered, fun pkt hpkt => ?_⟩
    rcases List.mem_append.mp hpkt with hpkt | hpkt
    · exact h.outbox pkt hpkt
    · obtain rfl := List.mem_singleton.mp hpkt
      exact ⟨rfl, rfl, hone, not_lt.mp hnew⟩

theorem Receiver.performComputation (h : Receiver d n s) {inStream : List Message}
    (hin : ∀ m ∈ inStream, m.action = .data ∧ 1 ≤ m.messageNum ∧ m.messageNum ≤ n) :
    Receiver d n (performComputation ⟨1, [0], round⟩ inStream s) := by
  have hself : ¬ (1 : InterfaceId) = 0 := by decide
  have hloop := List.foldlRecOn inStream (StableDataLink.onMessage ⟨1, [0], round⟩) h
    fun _ hs m hm => Receiver.onMessage hs (hin m hm).1 (hin m hm).2.1 (hin m hm).2.2
  unfold StableDataLink.performComputation
  dsimp only
  rw [if_neg fun h => hself h.1, if_neg fun h => hself h.1]
  exact hloop

end Steps

/-- Both peers, and what is on the network between them. -/
structure LinkInv (sys : System) : Prop where
  sender : Sender 0 (sys.nodes 1).lastDeliveredMessageNum { sys.nodes 0 with outbox := [] }
  receiver : (sys.nodes 1).delivered = upTo (sys.nodes 1).lastDeliveredMessageNum
  sent : ∀ pkt ∈ sys.sent,
    pkt.target = 0 ∧ pkt.message.action = .ack ∧ 1 ≤ pkt.message.messageNum ∧
      pkt.message.messageNum ≤ (sys.nodes 1).lastDeliveredMessageNum ∨
    pkt.target = 1 ∧ pkt.message.action = .data ∧ 1 ≤ pkt.message.messageNum ∧
      pkt.message.messageNum ≤ (sys.nodes 0).lastSentMessageNum

theorem Sender.current {n d : Int} {s : Local} (h : Sender n d s) : Sender s.lastSentMessageNum d s :=
  ⟨le_rfl, h.next, h.awaiting, h.count, h.behind, h.ahead, h.nonneg, h.satisfied, h.outbox⟩

theorem LinkInv.receiver_current {sys : System} (inv : LinkInv sys) :
    Receiver (sys.nodes 1).lastDeliveredMessageNum (sys.nodes 0).lastSentMessageNum
      { sys.nodes 1 with outbox := [] } :=
  ⟨le_rfl, inv.sender.behind, inv.sender.ahead, inv.sender.nonneg, inv.receiver, by simp⟩

theorem LinkInv.satisfied_delivered {sys : System} (inv : LinkInv sys) :
    ∀ n ∈ (sys.nodes 0).satisfied, n ∈ (sys.nodes 1).delivered := by
  intro n hn
  have hcount : (sys.nodes 0).requestsSatisfied ≤ (sys.nodes 0).lastSentMessageNum - 1 ∨
      (sys.nodes 0).lastSentMessageNum = 0 ∧ (sys.nodes 0).requestsSatisfied = 0 := by
    have hawaiting := inv.sender.awaiting
    have hcount := inv.sender.count
    have hahead := inv.sender.ahead
    have hnonneg := inv.sender.nonneg
    dsimp only at hawaiting hcount hahead
    by_cases hpos : 1 ≤ (sys.nodes 0).lastSentMessageNum
    · rw [hawaiting, decide_eq_true hpos, if_pos rfl] at hcount
      exact .inl hcount.le
    · rw [hawaiting, decide_eq_false hpos, if_neg Bool.false_ne_true] at hcount
      exact .inr ⟨by omega, by omega⟩
  have hsatisfied : n ∈ upTo (sys.nodes 0).requestsSatisfied := inv.sender.satisfied ▸ hn
  have hbehind := inv.sender.behind
  dsimp only at hbehind
  obtain ⟨hone, hle⟩ := mem_upTo.mp hsatisfied
  rw [inv.receiver, mem_upTo]
  exact ⟨hone, by omega⟩

theorem LinkInv.sender_reacts {sys : System} (inv : LinkInv sys) {r : Local}
    (h : Sender (sys.nodes 0).lastSentMessageNum (sys.nodes 1).lastDeliveredMessageNum r) :
    LinkInv (sys.after 0 (r, r.outbox)) where
  sender := ⟨inv.sender.grows.trans h.grows, h.next, h.awaiting, h.count, h.behind, h.ahead, h.nonneg, h.satisfied, by simp⟩
  receiver := inv.receiver
  sent := by
    intro pkt hpkt
    show _ ∨ _ ∧ _ ∧ _ ∧ pkt.message.messageNum ≤ r.lastSentMessageNum
    rcases Lib.Lossy.Net.mem_after_sent.mp hpkt with hpkt | hpkt
    · refine (inv.sent pkt hpkt).imp_right fun ⟨htarget, haction, hone, hle⟩ => ?_
      exact ⟨htarget, haction, hone, hle.trans h.grows⟩
    · exact .inr (h.outbox pkt hpkt)

theorem LinkInv.receiver_reacts {sys : System} (inv : LinkInv sys) {r : Local}
    (h : Receiver (sys.nodes 1).lastDeliveredMessageNum (sys.nodes 0).lastSentMessageNum r) :
    LinkInv (sys.after 1 (r, r.outbox)) where
  sender := ⟨inv.sender.grows, inv.sender.next, inv.sender.awaiting, inv.sender.count, h.behind, h.ahead, h.nonneg,
    inv.sender.satisfied, by simp⟩
  receiver := h.delivered
  sent := by
    intro pkt hpkt
    show _ ∧ _ ∧ _ ∧ pkt.message.messageNum ≤ r.lastDeliveredMessageNum ∨ _
    rcases Lib.Lossy.Net.mem_after_sent.mp hpkt with hpkt | hpkt
    · refine (inv.sent pkt hpkt).imp_left fun ⟨htarget, haction, hone, hle⟩ => ?_
      exact ⟨htarget, haction, hone, hle.trans h.grows⟩
    · exact .inl (h.outbox pkt hpkt)

theorem linkInv_of_reached {sys : System} (h : machine.Reached sys) : LinkInv sys := by
  refine Lib.Lossy.Protocol.invariant ?_ (fun sys t inv => ⟨inv.sender, inv.receiver, inv.sent⟩) ?_ h
  · refine ⟨⟨le_rfl, rfl, rfl, rfl, ?_, le_rfl, le_rfl, rfl, by simp⟩, rfl, by simp⟩
    show (0 : Int) - 1 ≤ 0
    omega
  · intro sys i inStream inv _ hi hin
    obtain rfl | rfl : i = 0 ∨ i = 1 := by simpa [protocol] using hi
    · have hacks : ∀ m ∈ inStream.map Packet.message,
          m.action = .ack ∧ m.messageNum ≤ (sys.nodes 1).lastDeliveredMessageNum := by
        intro m hm
        obtain ⟨pkt, hpkt, rfl⟩ := List.mem_map.mp hm
        obtain ⟨hmem, htarget, -⟩ := hin pkt hpkt
        rcases inv.sent pkt hmem with ⟨-, hack, -, hle⟩ | ⟨hone, -⟩
        · exact ⟨hack, hle⟩
        · rw [htarget] at hone
          exact absurd hone (by decide)
      exact inv.sender_reacts (inv.sender.current.performComputation hacks)
    · have hdata : ∀ m ∈ inStream.map Packet.message, m.action = .data ∧ 1 ≤ m.messageNum ∧
          m.messageNum ≤ (sys.nodes 0).lastSentMessageNum := by
        intro m hm
        obtain ⟨pkt, hpkt, rfl⟩ := List.mem_map.mp hm
        obtain ⟨hmem, htarget, -⟩ := hin pkt hpkt
        rcases inv.sent pkt hmem with ⟨hzero, -⟩ | ⟨-, hdata⟩
        · rw [htarget] at hzero
          exact absurd hzero (by decide)
        · exact hdata
      exact inv.receiver_reacts (inv.receiver_current.performComputation hdata)

/-- **An exact link in order.** In every state reached, peer 1 has delivered up to the last number that peer 0
has sent or the one before it, one number after the other; peer 0 counts every number but the one it waits
for; and every number counted after a step was delivered before it. -/
theorem exact_in_order (sys : System) (h : machine.Reached sys) :
    ((sys.nodes 0).lastSentMessageNum - 1 ≤ (sys.nodes 1).lastDeliveredMessageNum ∧
      (sys.nodes 1).lastDeliveredMessageNum ≤ (sys.nodes 0).lastSentMessageNum) ∧
    (sys.nodes 1).delivered = upTo (sys.nodes 1).lastDeliveredMessageNum ∧
    ((sys.nodes 0).requestsSatisfied =
      if (sys.nodes 0).awaitingAck then (sys.nodes 0).lastSentMessageNum - 1
      else (sys.nodes 0).lastSentMessageNum) ∧
    (sys.nodes 0).satisfied = upTo (sys.nodes 0).requestsSatisfied ∧
    ∀ e sys', machine.step sys e = some sys' → ∀ n ∈ (sys'.nodes 0).satisfied, n ∈ (sys.nodes 1).delivered := by
  have inv := linkInv_of_reached h
  refine ⟨⟨inv.sender.behind, inv.sender.ahead⟩, inv.receiver, inv.sender.count, inv.sender.satisfied, ?_⟩
  intro e sys' hstep n hn
  have inv' := linkInv_of_reached (.next h trivial hstep)
  rcases Lib.Lossy.Protocol.step_cases hstep with ⟨-, rfl⟩ | ⟨i, inStream, -, hi, -, rfl⟩
  · exact inv.satisfied_delivered n hn
  obtain rfl | rfl : i = 0 ∨ i = 1 := by simpa [protocol] using hi
  · exact inv'.satisfied_delivered n hn
  · exact inv.satisfied_delivered n hn

/-- The first message is lost and sent again after five rounds; its ack arrives twice. -/
def resentRun : List Link.Event :=
  (List.replicate 6 silentRound).flatten ++
    [.react 1 [⟨0, 1, .data, 5, 1⟩, ⟨0, 1, .data, 5, 1⟩], .react 0 [⟨1, 0, .ack, 6, 1⟩, ⟨1, 0, .ack, 6, 1⟩],
      .react 1 [⟨0, 1, .data, 6, 2⟩]]

theorem exact_in_order_resentRun :
    ∃ sys, machine.Reached sys ∧ (sys.nodes 0).satisfied = [1] ∧ (sys.nodes 1).delivered = [1, 2] ∧
      (sys.nodes 1).delivered = upTo (sys.nodes 1).lastDeliveredMessageNum := by
  have hrun : (machine.run ⟨0, protocol.initial, []⟩ resentRun).map
      (fun sys => ((sys.nodes 0).satisfied, (sys.nodes 1).delivered)) = some ([1], [1, 2]) := by
    decide +kernel
  obtain ⟨sys, hsys, hend⟩ := Option.map_eq_some_iff.mp hrun
  obtain ⟨hsatisfied, hdelivered⟩ := Prod.mk.inj hend
  have hreached := Lib.Machine.reached_of_run (.start rfl) hsys
  exact ⟨sys, hreached, hsatisfied, hdelivered, (exact_in_order sys hreached).2.1⟩

end Quantas.StableDataLink
