import Quantas.Link.Message

/-!
# The alternating bit peers

Peer 0 numbers its messages with `ns` and counts one as satisfied when an ack with that number arrives; peer 1
acknowledges every data message with the number that it carries. After a timeout peer 0 sends its message
again, and peer 1 acknowledges its own `ns`, which is 1 before any message has arrived.
-/

namespace Quantas.AltBit

open Link

/-- The state as the constructor leaves it; `initParameters` sets `timeOutRate`. -/
structure AltBitPeer where
  currentTransaction : Int := 1
  requestsSatisfied : Int := 0
  messagesSent : Nat := 0
  ns : Int := 1
  timeOutRate : Int := 4
  previousMessageRound : Nat := 0
  deriving DecidableEq, Repr

/-- A peer inside `performComputation`: the packets sent so far. `processed` and `satisfied` are its history,
which the code does not keep: the numbers of the data messages that it took, and the numbers that
`requestsSatisfied` counts. -/
structure Local extends AltBitPeer where
  outbox : List (Packet Message) := []
  processed : List Int := []
  satisfied : List Int := []

variable (self : InterfaceId) (round : Nat)

def sendMessage (peer : InterfaceId) (message : Message) (s : Local) : Local :=
  { s with messagesSent := s.messagesSent + 1, outbox := s.outbox ++ [⟨self, peer, message⟩] }

def submitTrans (s : Local) : Local :=
  let s := sendMessage self 1 ⟨.data, round, s.ns⟩ s
  { s with currentTransaction := s.currentTransaction + 1 }

/-- The loop of `performComputation` over the in-stream. -/
def onMessage (s : Local) (oldMessage : Message) : Local :=
  match oldMessage.action with
  | .ack =>
    if oldMessage.messageNum = s.ns then
      submitTrans self round
        { s with
          previousMessageRound := round
          requestsSatisfied := s.requestsSatisfied + 1
          ns := s.ns + 1
          satisfied := s.satisfied ++ [s.ns] }
    else s
  | .data =>
    sendMessage self 0 { oldMessage with action := .ack }
      { s with
        previousMessageRound := round
        ns := oldMessage.messageNum
        processed := s.processed ++ [oldMessage.messageNum] }

def performComputation (inStream : List Message) (s : Local) : Local :=
  let s := inStream.foldl (onMessage self round) s
  if s.messagesSent = 0 ∧ self = 0 then submitTrans self round s
  else if timedOut s.previousMessageRound s.timeOutRate round then
    if self = 0 then
      sendMessage self 1 ⟨.data, round, s.ns⟩ { s with previousMessageRound := round }
    else sendMessage self 0 ⟨.ack, round, s.ns⟩ { s with previousMessageRound := round }
  else s

def protocol (timeOutRate : Int) : Lib.Lossy.Protocol InterfaceId Local (Packet Message) where
  members := [0, 1]
  initial := fun _ => { timeOutRate := timeOutRate }
  accepts := fun self pkt => pkt.target = self ∧ pkt.source ≠ self
  react := fun self round inStream s =>
    let r := performComputation self round (inStream.map Packet.message) { s with outbox := [] }
    (r, r.outbox)

instance (timeOutRate : Int) (i : InterfaceId) (pkt : Packet Message) :
    Decidable ((protocol timeOutRate).accepts i pkt) :=
  inferInstanceAs (Decidable (_ ∧ _))

abbrev machine (timeOutRate : Int) := (protocol timeOutRate).machine

abbrev System := Lib.Lossy.Net InterfaceId Local (Packet Message)

/-! ## What is acknowledged -/

/-- Peer 1 times out only after it has processed a data message. -/
def TimesOutAfterData (sys : System) : Link.Event → Prop
  | .react i inStream => i = 1 → (sys.nodes 1).processed = [] →
      (∀ pkt ∈ inStream, pkt.message.action ≠ .data) →
      timedOut (sys.nodes 1).previousMessageRound (sys.nodes 1).timeOutRate sys.time = false
  | .tick => True

instance (sys : System) : (e : Link.Event) →
    Decidable (TimesOutAfterData sys e)
  | .react .. => inferInstanceAs (Decidable (_ → _ → _ → _))
  | .tick => .isTrue trivial

/-- Peer 0 has counted different numbers, all below the current one and all in `P`, and sent data. -/
structure Sender (P : List Int) (s : Local) : Prop where
  count : s.requestsSatisfied = s.satisfied.length
  nodup : s.satisfied.Nodup
  below : ∀ n ∈ s.satisfied, n < s.ns
  processed : ∀ n ∈ s.satisfied, n ∈ P
  outbox : ∀ pkt ∈ s.outbox, pkt.target = 1 ∧ pkt.message.action = .data

/-- Peer 1 has processed at least `P`, and has acknowledged processed numbers only. -/
structure Receiver (P : List Int) (s : Local) : Prop where
  processed : P ⊆ s.processed
  counter : s.processed ≠ [] → s.ns ∈ s.processed
  outbox : ∀ pkt ∈ s.outbox,
    pkt.target = 0 ∧ pkt.message.action = .ack ∧ pkt.message.messageNum ∈ s.processed

section Steps
variable {round : Nat} {P : List Int} {s : Local}

theorem Sender.submitTrans (h : Sender P s) : Sender P (submitTrans 0 round s) where
  count := h.count
  nodup := h.nodup
  below := h.below
  processed := h.processed
  outbox := by
    intro pkt hpkt
    rcases List.mem_append.mp hpkt with hpkt | hpkt
    · exact h.outbox pkt hpkt
    · obtain rfl := List.mem_singleton.mp hpkt
      exact ⟨rfl, rfl⟩

theorem Sender.onMessage (h : Sender P s) {m : Message} (hack : m.action = .ack) (hm : m.messageNum ∈ P) :
    Sender P (onMessage 0 round s m) := by
  unfold AltBit.onMessage
  rw [hack]
  dsimp only
  split_ifs with hns
  · refine Sender.submitTrans ⟨?_, ?_, fun n hn => ?_, fun n hn => ?_, h.outbox⟩
    · show s.requestsSatisfied + 1 = _
      rw [List.length_append, h.count, List.length_singleton]
      omega
    · rw [← List.concat_eq_append]
      exact h.nodup.concat fun hmem => lt_irrefl _ (h.below _ hmem)
    · rcases List.mem_append.mp hn with hn | hn
      · have := h.below n hn
        show n < s.ns + 1
        omega
      · obtain rfl := List.mem_singleton.mp hn
        exact lt_add_one s.ns
    · rcases List.mem_append.mp hn with hn | hn
      · exact h.processed n hn
      · rw [List.mem_singleton.mp hn, ← hns]
        exact hm
  · exact h

theorem Sender.performComputation (h : Sender P s) {inStream : List Message}
    (hin : ∀ m ∈ inStream, m.action = .ack ∧ m.messageNum ∈ P) :
    Sender P (performComputation 0 round inStream s) := by
  have hloop : Sender P (inStream.foldl (AltBit.onMessage 0 round) s) :=
    List.foldlRecOn inStream _ h fun s hs m hm => hs.onMessage (hin m hm).1 (hin m hm).2
  unfold AltBit.performComputation
  dsimp only
  rw [if_pos rfl]
  split_ifs
  · exact hloop.submitTrans
  · refine ⟨hloop.count, hloop.nodup, hloop.below, hloop.processed, fun pkt hpkt => ?_⟩
    rcases List.mem_append.mp hpkt with hpkt | hpkt
    · exact hloop.outbox pkt hpkt
    · obtain rfl := List.mem_singleton.mp hpkt
      exact ⟨rfl, rfl⟩
  · exact hloop

theorem Receiver.onMessage (h : Receiver P s) (round : Nat) {m : Message} (hdata : m.action = .data) :
    Receiver P (onMessage 1 round s m) ∧ (onMessage 1 round s m).processed ≠ [] := by
  unfold AltBit.onMessage
  rw [hdata]
  have hlast : m.messageNum ∈ s.processed ++ [m.messageNum] := by simp
  refine ⟨⟨List.subset_append_of_subset_left _ h.processed, fun _ => hlast, fun pkt hpkt => ?_⟩,
    List.ne_nil_of_mem hlast⟩
  rcases List.mem_append.mp hpkt with hpkt | hpkt
  · obtain ⟨htarget, haction, hnum⟩ := h.outbox pkt hpkt
    exact ⟨htarget, haction, List.mem_append_left _ hnum⟩
  · obtain rfl := List.mem_singleton.mp hpkt
    exact ⟨rfl, rfl, hlast⟩

theorem Receiver.foldl_onMessage (h : Receiver P s) {inStream : List Message}
    (round : Nat) (hin : ∀ m ∈ inStream, m.action = .data) :
    Receiver P (inStream.foldl (AltBit.onMessage 1 round) s) :=
  List.foldlRecOn inStream _ h fun _ hs m hm => (hs.onMessage round (hin m hm)).1

theorem Receiver.anchored (h : Receiver P s) : Receiver s.processed s :=
  ⟨List.Subset.refl _, h.counter, h.outbox⟩

theorem Receiver.performComputation (h : Receiver P s) {inStream : List Message}
    (hin : ∀ m ∈ inStream, m.action = .data)
    (hguard : s.processed = [] → inStream = [] → timedOut s.previousMessageRound s.timeOutRate round = false) :
    Receiver P (performComputation 1 round inStream s) := by
  have hloop := h.foldl_onMessage round hin
  unfold AltBit.performComputation
  dsimp only
  have hself : ¬ (1 : InterfaceId) = 0 := by decide
  rw [if_neg fun h => hself h.2, if_neg hself]
  split_ifs with hlate
  swap
  · exact hloop
  -- an ack on timeout is for the own counter, so something must have been processed
  have hsome : (inStream.foldl (AltBit.onMessage 1 round) s).processed ≠ [] := by
    intro hnone
    cases inStream with
    | nil =>
      rw [List.foldl_nil] at hlate hnone
      rw [hguard hnone rfl] at hlate
      cases hlate
    | cons m rest =>
      obtain ⟨hfirst, hne⟩ := h.onMessage round (hin m List.mem_cons_self)
      have hrest := hfirst.anchored.foldl_onMessage round fun m' hm' =>
        hin m' (List.mem_cons_of_mem _ hm')
      rw [List.foldl_cons] at hnone
      exact hne (List.subset_nil.mp (hnone ▸ hrest.processed))
  refine ⟨hloop.processed, hloop.counter, fun pkt hpkt => ?_⟩
  rcases List.mem_append.mp hpkt with hpkt | hpkt
  · exact hloop.outbox pkt hpkt
  · obtain rfl := List.mem_singleton.mp hpkt
    exact ⟨rfl, rfl, hloop.counter hsome⟩

end Steps

/-- Both peers, and what is on the network between them. -/
structure AckInv (sys : System) : Prop where
  sender : Sender (sys.nodes 1).processed { sys.nodes 0 with outbox := [] }
  receiver : Receiver [] { sys.nodes 1 with outbox := [] }
  sent : ∀ pkt ∈ sys.sent, pkt.target = 0 ∧ pkt.message.action = .ack ∧
    pkt.message.messageNum ∈ (sys.nodes 1).processed ∨ pkt.target = 1 ∧ pkt.message.action = .data

theorem AckInv.sender_reacts {sys : System} (inv : AckInv sys) {r : Local}
    (h : Sender (sys.nodes 1).processed r) : AckInv (sys.after 0 (r, r.outbox)) where
  sender := ⟨h.count, h.nodup, h.below, h.processed, by simp⟩
  receiver := inv.receiver
  sent := by
    intro pkt hpkt
    rcases Lib.Lossy.Net.mem_after_sent.mp hpkt with hpkt | hpkt
    · exact inv.sent pkt hpkt
    · exact .inr (h.outbox pkt hpkt)

theorem AckInv.receiver_reacts {sys : System} (inv : AckInv sys) {r : Local}
    (h : Receiver (sys.nodes 1).processed r) : AckInv (sys.after 1 (r, r.outbox)) where
  sender := ⟨inv.sender.count, inv.sender.nodup, inv.sender.below,
    fun n hn => h.processed (inv.sender.processed n hn), by simp⟩
  receiver := ⟨by simp, h.counter, by simp⟩
  sent := by
    intro pkt hpkt
    rcases Lib.Lossy.Net.mem_after_sent.mp hpkt with hpkt | hpkt
    · exact (inv.sent pkt hpkt).imp_left fun ⟨htarget, haction, hnum⟩ =>
        ⟨htarget, haction, h.processed hnum⟩
    · exact .inl (h.outbox pkt hpkt)

theorem ackInv_of_reached {timeOutRate : Int} {sys : System}
    (h : (machine timeOutRate).ReachedUnder TimesOutAfterData sys) : AckInv sys := by
  refine Lib.Lossy.Protocol.invariant ?_ (fun sys t inv => ⟨inv.sender, inv.receiver, inv.sent⟩) ?_ h
  · exact ⟨⟨rfl, List.nodup_nil, by simp [protocol], by simp [protocol], by simp⟩,
      ⟨by simp, fun h => absurd rfl h, by simp⟩, by simp⟩
  · intro sys i inStream inv hguard hi hin
    obtain rfl | rfl : i = 0 ∨ i = 1 := by simpa [protocol] using hi
    · have hacks : ∀ m ∈ inStream.map Packet.message,
          m.action = .ack ∧ m.messageNum ∈ (sys.nodes 1).processed := by
        intro m hm
        obtain ⟨pkt, hpkt, rfl⟩ := List.mem_map.mp hm
        obtain ⟨hmem, htarget, -⟩ := hin pkt hpkt
        rcases inv.sent pkt hmem with ⟨-, hack⟩ | ⟨hone, -⟩
        · exact hack
        · rw [htarget] at hone
          exact absurd hone (by decide)
      exact inv.sender_reacts (inv.sender.performComputation hacks)
    · have hdata : ∀ m ∈ inStream.map Packet.message, m.action = .data := by
        intro m hm
        obtain ⟨pkt, hpkt, rfl⟩ := List.mem_map.mp hm
        obtain ⟨hmem, htarget, -⟩ := hin pkt hpkt
        rcases inv.sent pkt hmem with ⟨hzero, -⟩ | ⟨-, hdata⟩
        · rw [htarget] at hzero
          exact absurd hzero (by decide)
        · exact hdata
      refine inv.receiver_reacts (inv.receiver.anchored.performComputation hdata fun hnone hempty => ?_)
      apply hguard rfl hnone
      intro pkt hpkt
      rw [List.map_eq_nil_iff.mp hempty] at hpkt
      cases hpkt

/-- **Acknowledged means processed.** When peer 1 times out only after it has processed a data message, the
numbers that peer 0 counts are different from each other and were processed by peer 1. -/
theorem satisfied_processed (timeOutRate : Int) (sys : System)
    (h : (machine timeOutRate).ReachedUnder TimesOutAfterData sys) :
    (sys.nodes 0).requestsSatisfied = (sys.nodes 0).satisfied.length ∧ (sys.nodes 0).satisfied.Nodup ∧
      ∀ n ∈ (sys.nodes 0).satisfied, n ∈ (sys.nodes 1).processed :=
  have inv := ackInv_of_reached h
  ⟨inv.sender.count, inv.sender.nodup, inv.sender.processed⟩

/-! ## Two runs -/

def promptRun : List Link.Event :=
  silentRound ++ [.react 1 [⟨0, 1, .data, 0, 1⟩], .react 0 [⟨1, 0, .ack, 0, 1⟩]]

theorem satisfied_processed_promptRun :
    ∃ sys, (machine 4).ReachedUnder TimesOutAfterData sys ∧ (sys.nodes 0).satisfied = [1] ∧
      ((sys.nodes 0).requestsSatisfied = (sys.nodes 0).satisfied.length ∧ (sys.nodes 0).satisfied.Nodup ∧
        ∀ n ∈ (sys.nodes 0).satisfied, n ∈ (sys.nodes 1).processed) := by
  have hrun : ((machine 4).runUnder TimesOutAfterData ⟨0, (protocol 4).initial, []⟩ promptRun).map
      (fun sys => (sys.nodes 0).satisfied) = some [1] := by
    decide +kernel
  obtain ⟨sys, hsys, hsatisfied⟩ := Option.map_eq_some_iff.mp hrun
  have hreached := Lib.Machine.reachedUnder_of_runUnder (.start rfl) hsys
  exact ⟨sys, hreached, hsatisfied, satisfied_processed 4 sys hreached⟩

/-- The first message is delayed for five rounds. Then peer 1 acknowledges number 1, which it has not seen. -/
def delayedRun : List Link.Event :=
  (List.replicate 6 silentRound).flatten ++ [.react 0 [⟨1, 0, .ack, 5, 1⟩]]

theorem delayedRun_satisfied_unprocessed :
    ¬ ∀ (timeOutRate : Int) (sys : System), (machine timeOutRate).Reached sys →
      (sys.nodes 0).requestsSatisfied = (sys.nodes 0).satisfied.length ∧ (sys.nodes 0).satisfied.Nodup ∧
        ∀ n ∈ (sys.nodes 0).satisfied, n ∈ (sys.nodes 1).processed := by
  intro hall
  have hrun : ((machine 4).run ⟨0, (protocol 4).initial, []⟩ delayedRun).map
      (fun sys => ((sys.nodes 0).satisfied, (sys.nodes 1).processed)) = some ([1], []) := by
    decide +kernel
  obtain ⟨sys, hsys, hend⟩ := Option.map_eq_some_iff.mp hrun
  obtain ⟨hsatisfied, hprocessed⟩ := Prod.mk.inj hend
  have hmem := (hall 4 sys (Lib.Machine.reached_of_run (.start rfl) hsys)).2.2 1 (by simp [hsatisfied])
  rw [hprocessed] at hmem
  cases hmem

end Quantas.AltBit
