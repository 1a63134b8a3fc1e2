import Quantas.Pow.Release

/-!
# Miners with a history

`Miners.history` is the protocol of the miners in which each of them also writes down its protocol steps, with
the block that a step mined. The runs are those of `Miners.machine`; `OncePerRound` says of a run that nobody
takes two protocol steps in one round, as the simulator calls every peer once in a round.

What a protocol step does to the messages of a miner is the same for all results about runs: `Vouched ok` says
that everything in its in-stream, its outbox and its withheld chain is `ok`, and each part of a step keeps it.
-/

namespace Quantas

/-- A block as its miner made it. `received` are the messages that the miner had taken from its in-stream by
then. -/
structure MinedBlock where
  hash : String
  parents : List String
  tx : PendingTx
  received : List PoWMessage

structure MinerStep where
  round : Nat
  mined : Option MinedBlock

def blockHash (publicId : InterfaceId) (txId : Int) (round : Nat) : String :=
  toString publicId ++ ":" ++ toString txId ++ ":" ++ toString round

namespace Miner

def overrideParents (s : Miner) : List String := (s.parasite.map ParasiteFault.selectPrivateParents).getD []

def blockParents (overrideParents : List String) (s : Miner) : List String :=
  if overrideParents = [] then getParents s.pow else overrideParents

def mineBlock (env : MiningRound) (overrideParents : List String) (s : Miner) : Option MinedBlock :=
  s.queue.head?.map fun pending =>
    ⟨blockHash s.publicId pending.id env.round, s.blockParents overrideParents, pending, s.received⟩

def stepBlock (env : MiningRound) (s : Miner) : Option MinedBlock :=
  if guardMine env (s.beforeMining env) then (s.beforeMining env).mineBlock env s.overrideParents else none

end Miner

namespace Miners
variable (cfg : Miners)

def startStep (s : Miner) (arrived : List (Packet PoWMessage)) : Miner :=
  { s with inStream := s.inStream ++ arrived, outbox := [] }

/-- The miners, who write down their protocol steps. -/
def history : Lib.Lossy.Protocol InterfaceId (Miner × List MinerStep) (Packet PoWMessage) :=
  cfg.protocol.logged fun p round arrived s => ⟨round, (startStep s arrived).stepBlock (cfg.env p round)⟩

theorem history_react (p : InterfaceId) (round : Nat) (arrived : List (Packet PoWMessage))
    (s : Miner × List MinerStep) : cfg.history.react p round arrived s =
      (((startStep s.1 arrived).tryPerformComputation (cfg.env p round),
        s.2 ++ [⟨round, (startStep s.1 arrived).stepBlock (cfg.env p round)⟩]),
        ((startStep s.1 arrived).tryPerformComputation (cfg.env p round)).outbox) := rfl

instance (p : InterfaceId) (pkt : Packet PoWMessage) : Decidable (cfg.history.accepts p pkt) :=
  inferInstanceAs (Decidable (_ = _))

end Miners

abbrev MinerHistory := Lib.Lossy.Net InterfaceId (Miner × List MinerStep) (Packet PoWMessage)

/-- No miner takes two protocol steps in one round. -/
def OncePerRound (net : MinerHistory) : Lib.Lossy.Event InterfaceId (Packet PoWMessage) → Prop
  | .react p _ => ∀ step ∈ (net.nodes p).2, step.round ≠ net.time
  | .tick => True

instance (net : MinerHistory) :
    (e : Lib.Lossy.Event InterfaceId (Packet PoWMessage)) → Decidable (OncePerRound net e)
  | .react .. => inferInstanceAs (Decidable (∀ step ∈ _, _))
  | .tick => .isTrue trivial

namespace Miner
variable {s r : Miner} {env : MiningRound} {ok ok' : PoWContent → Prop}

/-! ## What a protocol step does -/

def withBlock (prefer : PreferCandidate) (b : MinedBlock) (flag : Bool) (s : Miner) : Miner :=
  { s with queue := s.queue.tail, pow := s.pow.registerBlock prefer b.hash b.parents s.publicId flag }

theorem mine_cases {parents : List String} {b : MinedBlock} (h : s.mineBlock env parents = some b) :
    s.queue = b.tx :: s.queue.tail ∧ b.hash = blockHash s.publicId b.tx.id env.round ∧
    b.parents = s.blockParents parents ∧ b.received = s.received ∧
    (s.mine env parents = s.withBlock env.prefer b (parents ≠ []) ∨
      ∃ record, (s.withBlock env.prefer b (parents ≠ [])).pow.findBlock b.hash = some record ∧
        s.mine env parents = (s.withBlock env.prefer b (parents ≠ [])).broadcast
          (s.buildBlockMessage env record b.tx)) := by
  unfold mineBlock at h
  cases hqueue : s.queue with
  | nil =>
    rw [hqueue] at h
    cases h
  | cons pending rest =>
    rw [hqueue] at h
    obtain rfl := Option.some.inj h
    refine ⟨rfl, rfl, rfl, rfl, ?_⟩
    unfold mine withBlock
    rw [hqueue]
    dsimp only
    split
    · exact .inl rfl
    · rename_i record hrecord
      exact .inr ⟨record, hrecord, rfl⟩

theorem tryPerformComputation_cases (env : MiningRound) (s : Miner) :
    (s.stepBlock env = none ∧ s.tryPerformComputation env = s.beforeMining env) ∨
    ∃ b, s.stepBlock env = some b ∧ (s.beforeMining env).mineBlock env s.overrideParents = some b ∧
      s.tryPerformComputation env = mine env s.overrideParents (s.beforeMining env) := by
  rw [tryPerformComputation_eq]
  unfold runProtocolStep stepBlock
  dsimp only
  by_cases hmines : guardMine env (s.beforeMining env)
  · rw [if_pos hmines, if_pos hmines]
    cases hblock : (s.beforeMining env).mineBlock env s.overrideParents with
    | none =>
      have hqueue : (s.beforeMining env).queue = [] := by
        unfold mineBlock at hblock
        exact List.head?_eq_none_iff.mp (Option.map_eq_none_iff.mp hblock)
      simp [guardMine, hqueue] at hmines
    | some b => exact .inr ⟨b, rfl, rfl, rfl⟩
  · rw [if_neg hmines, if_neg hmines]
    exact .inl ⟨rfl, rfl⟩

/-! ## What a broadcast does -/

def Publishes (s r : Miner) : Prop :=
  ∃ outbox parasite releases, r = { s with outbox := outbox, parasite := parasite, releases := releases }

theorem Publishes.refl (s : Miner) : Publishes s s := ⟨_, _, _, rfl⟩

theorem Publishes.trans {t : Miner} (h : Publishes s r) (h' : Publishes r t) : Publishes s t := by
  obtain ⟨_, _, _, rfl⟩ := h
  obtain ⟨_, _, _, rfl⟩ := h'
  exact ⟨_, _, _, rfl⟩

theorem Sends.publishes (h : Sends s r) : Publishes s r := by
  obtain ⟨sent, rfl⟩ := h
  exact ⟨_, _, _, rfl⟩

theorem publishes_tryRelease (s : Miner) : Publishes s s.tryRelease := by
  unfold tryRelease
  cases s.parasite with
  | none => exact .refl s
  | some f =>
    dsimp only
    split_ifs
    · refine .trans (r := { s with
        parasite := some f.released
        releases := s.releases ++ [⟨f.privateChain, s.received⟩] }) ⟨_, _, _, rfl⟩ ?_
      exact (sends_foldl sends_networkBroadcast f.releaseMessages _).publishes
    · exact .refl s

theorem publishes_broadcast (s : Miner) (msg : PoWMessage) : Publishes s (s.broadcast msg) := by
  cases hf : s.parasite with
  | none =>
    rw [broadcast_honest hf]
    exact (sends_networkBroadcast s msg).publishes
  | some f =>
    rw [broadcast_attacker hf]
    have hsend : Publishes s (s.onSend msg .broadcast []).1 := by
      unfold onSend
      rw [if_neg (by simp)]
      cases msg.content with
      | tx tx => exact .refl s
      | block b =>
        refine .trans ?_ (publishes_tryRelease _)
        refine .trans ?_ (sends_foldl (fun t collaborator => t.sends_unicastTo _ collaborator) _ _).publishes
        exact ⟨_, _, _, rfl⟩
    split_ifs
    · exact hsend
    · exact hsend.trans (sends_networkBroadcast _ _).publishes

/-! ## The messages of a miner -/

/-- Everything that the miner has to read, to send or to release is `ok`. -/
structure Vouched (ok : PoWContent → Prop) (s : Miner) : Prop where
  inStream : ∀ pkt ∈ s.inStream, ok pkt.message.content
  outbox : ∀ pkt ∈ s.outbox, ok pkt.message.content
  withheld : ∀ f ∈ s.parasite, ∀ stored ∈ f.privateChain, stored.hash ≠ "" ∧
    ∃ b, stored.message.content = .block b ∧ b.hash = stored.hash ∧ ok (.block b)

/-- What is `ok` does not depend on the flag that a fault sets. -/
def ParasiteBlind (ok : PoWContent → Prop) : Prop :=
  ∀ b, ok (.block b) → ok (.block { b with parasite := true })

theorem Vouched.mono (h : Vouched ok s) (hok : ∀ c, ok c → ok' c) : Vouched ok' s := by
  refine ⟨fun pkt hpkt => hok _ (h.inStream pkt hpkt), fun pkt hpkt => hok _ (h.outbox pkt hpkt), ?_⟩
  intro f hf stored hstored
  obtain ⟨hne, b, hcontent, hhash, hb⟩ := h.withheld f hf stored hstored
  exact ⟨hne, b, hcontent, hhash, hok _ hb⟩

theorem vouched_init (ok : PoWContent → Prop) (cfg : Miners) (p : InterfaceId) : (cfg.init p).Vouched ok where
  inStream := fun _ hpkt => absurd hpkt List.not_mem_nil
  outbox := fun _ hpkt => absurd hpkt List.not_mem_nil
  withheld := by
    intro f hf stored hstored
    have hf' : (if p ∈ cfg.attackers then some _ else none) = some f := hf
    split_ifs at hf'
    obtain rfl := Option.some.inj hf'
    exact absurd hstored List.not_mem_nil

theorem Vouched.startStep (h : Vouched ok s) {arrived : List (Packet PoWMessage)}
    (harrived : ∀ pkt ∈ arrived, ok pkt.message.content) : (Miners.startStep s arrived).Vouched ok where
  inStream := by
    intro pkt hpkt
    rcases List.mem_append.mp hpkt with hold | hnew
    · exact h.inStream pkt hold
    · exact harrived pkt hnew
  outbox := fun _ hpkt => absurd hpkt List.not_mem_nil
  withheld := h.withheld

theorem Vouched.readAll (h : Vouched ok s) : Vouched ok { s with inStream := [] } :=
  ⟨fun _ hpkt => absurd hpkt List.not_mem_nil, h.outbox, h.withheld⟩

theorem Vouched.unicastTo (h : Vouched ok s) {msg : PoWMessage} (hmsg : ok msg.content)
    (dest : InterfaceId) : Vouched ok (s.unicastTo msg dest) := by
  unfold Miner.unicastTo
  split_ifs
  · refine ⟨h.inStream, fun pkt hpkt => ?_, h.withheld⟩
    rcases List.mem_append.mp hpkt with hpkt | hpkt
    · exact h.outbox pkt hpkt
    · obtain rfl := List.mem_singleton.mp hpkt
      exact hmsg
  · exact h

theorem Vouched.networkBroadcast (h : Vouched ok s) {msg : PoWMessage} (hmsg : ok msg.content) :
    Vouched ok (s.networkBroadcast msg) :=
  List.foldlRecOn s.neighbors _ h fun _ h _ _ => h.unicastTo hmsg _

theorem Vouched.tryRelease (h : Vouched ok s) : Vouched ok s.tryRelease := by
  unfold Miner.tryRelease
  cases hf : s.parasite with
  | none => exact h
  | some f =>
    dsimp only
    split_ifs
    · have hchain := h.withheld f hf
      have hreleased : Vouched ok { s with
          parasite := some f.released
          releases := s.releases ++ [⟨f.privateChain, s.received⟩] } := by
        refine ⟨h.inStream, h.outbox, fun g hg stored hstored => ?_⟩
        obtain rfl := Option.some.inj hg
        exact absurd hstored List.not_mem_nil
      refine List.foldlRecOn f.releaseMessages _ hreleased fun t ht msg hmsg => ht.networkBroadcast ?_
      obtain ⟨stored, hstored, rfl⟩ := List.mem_map.mp hmsg
      rw [List.mem_insertionSort] at hstored
      obtain ⟨-, b, hcontent, -, hb⟩ := hchain stored hstored
      change ok stored.message.content
      rw [hcontent]
      exact hb
    · exact h

theorem Vouched.storePrivate (h : Vouched ok s) {msg : PoWMessage} (hmsg : ok msg.content) :
    Vouched ok (s.updateParasite (·.storePrivate msg)) := by
  refine ⟨h.inStream, h.outbox, fun f hf => ?_⟩
  obtain ⟨g, hg, rfl⟩ := Option.map_eq_some_iff.mp hf
  have hold := h.withheld g hg
  unfold ParasiteFault.storePrivate
  cases hcontent : msg.content with
  | tx tx => exact hold
  | block b =>
    dsimp only
    split_ifs with hempty
    · exact hold
    · exact hold
    · intro stored hstored
      rcases List.mem_append.mp hstored with hstored | hstored
      · exact hold stored hstored
      · obtain rfl := List.mem_singleton.mp hstored
        exact ⟨hempty, b, hcontent, rfl, hcontent ▸ hmsg⟩

theorem Vouched.broadcast (hblind : ParasiteBlind ok) (h : Vouched ok s) {msg : PoWMessage}
    (hmsg : ok msg.content) : Vouched ok (s.broadcast msg) := by
  cases hf : s.parasite with
  | none =>
    rw [broadcast_honest hf]
    exact h.networkBroadcast hmsg
  | some f =>
    rw [broadcast_attacker hf]
    have hsend : Vouched ok (s.onSend msg .broadcast []).1 ∧
        ok (s.onSend msg .broadcast []).2.1.content := by
      unfold Miner.onSend
      rw [if_neg (by simp)]
      cases hcontent : msg.content with
      | tx tx =>
        refine ⟨h, ?_⟩
        change ok msg.content
        exact hmsg
      | block b =>
        have hb : ok (.block { b with parasite := true }) := hblind b (hcontent ▸ hmsg)
        refine ⟨Vouched.tryRelease ?_, hb⟩
        refine List.foldlRecOn _ _ ?_ fun t ht collaborator _ => ht.unicastTo ?_ collaborator
        · exact h.storePrivate hb
        · exact hb
    split_ifs
    · exact hsend.1
    · exact hsend.1.networkBroadcast hsend.2

end Miner

end Quantas
