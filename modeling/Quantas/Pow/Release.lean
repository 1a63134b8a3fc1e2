import Quantas.Pow.Miner

/-!
# When a parasite releases

The fault compares the height of its withheld blocks with `publicHeight`, which only a release raises. So it
releases with the lead that it is configured for as long as no public block that the peer has received is
higher than `publicHeight` (`released_with_lead`); a public block that arrives and is not told to the fault
makes it release early.
-/

namespace Quantas

/-- Some withheld block is at least `lead` higher than every public block received. -/
def Release.Leads (lead : Int) (r : Release) : Prop :=
  ∃ stored ∈ r.withheld, ∀ msg ∈ r.received, ∀ b ∈ msg.publicBlock?, b.length + lead ≤ stored.height

instance (lead : Int) (r : Release) : Decidable (r.Leads lead) :=
  inferInstanceAs (Decidable (∃ stored ∈ _, ∀ msg ∈ _, ∀ b ∈ _, _))

namespace Miner
variable {s : Miner} {env : MiningRound}

/-! ## What a send changes -/

def Sends (s r : Miner) : Prop := ∃ sent, r = { s with outbox := s.outbox ++ sent }

theorem Sends.refl (s : Miner) : Sends s s := ⟨[], by rw [List.append_nil]⟩

theorem Sends.trans {r t : Miner} (h : Sends s r) (h' : Sends r t) : Sends s t := by
  obtain ⟨sent, rfl⟩ := h
  obtain ⟨sent', rfl⟩ := h'
  exact ⟨sent ++ sent', by rw [List.append_assoc]⟩

theorem sends_unicastTo (s : Miner) (msg : PoWMessage) (dest : InterfaceId) : Sends s (s.unicastTo msg dest) := by
  unfold unicastTo
  split_ifs
  · exact ⟨_, rfl⟩
  · exact Sends.refl s

theorem sends_foldl {α : Type*} {f : Miner → α → Miner} (hf : ∀ s a, Sends s (f s a)) (l : List α)
    (s : Miner) : Sends s (l.foldl f s) :=
  List.foldlRecOn l f (Sends.refl s) fun _ h a _ => h.trans (hf _ a)

theorem sends_networkBroadcast (s : Miner) (msg : PoWMessage) : Sends s (s.networkBroadcast msg) :=
  sends_foldl (fun s nbr => sends_unicastTo s msg nbr) s.neighbors s

/-! ## The fault manager -/

theorem broadcast_honest (h : s.parasite = none) (msg : PoWMessage) :
    s.broadcast msg = s.networkBroadcast msg := by
  unfold broadcast faultManager
  rw [h]
  rfl

theorem broadcast_attacker {f : ParasiteFault} (h : s.parasite = some f) (msg : PoWMessage) :
    s.broadcast msg = if (s.onSend msg .broadcast []).2.2 then (s.onSend msg .broadcast []).1
      else networkBroadcast (s.onSend msg .broadcast []).1 (s.onSend msg .broadcast []).2.1 := by
  unfold broadcast faultManager
  rw [h]
  cases hskip : (s.onSend msg .broadcast []).2.2 <;>
    simp [ByzantinePeer.unlessSkipped, FaultManager.applySend, FaultManager.attach, FaultManager.addFault,
      FaultManager.addSendFaults, FaultManager.knownSendTypes, parasiteFault, FaultManager.consult,
      Function.update, hskip]

theorem tryPerformComputation_eq (env : MiningRound) (s : Miner) :
    s.tryPerformComputation env =
      runProtocolStep env ((s.parasite.map ParasiteFault.selectPrivateParents).getD []) s := by
  unfold tryPerformComputation faultManager
  cases h : s.parasite with
  | none => rfl
  | some f =>
    simp [FaultManager.applyPerformComputation, FaultManager.attach, FaultManager.addFault, parasiteFault,
      FaultManager.consult, h]

/-- The fault knows of every public block that the peer has taken from its in-stream. -/
def UpToDate (s : Miner) : Prop :=
  ∀ f ∈ s.parasite, ∀ msg ∈ s.received, ∀ b ∈ msg.publicBlock?, b.length ≤ f.publicHeight

instance (s : Miner) : Decidable s.UpToDate := inferInstanceAs (Decidable (∀ f ∈ _, ∀ msg ∈ _, ∀ b ∈ _, _))

/-- The message about the block that the miner mines on these parents, as the fault withholds it. -/
def minedMessage (env : MiningRound) (parents : List String) (s : Miner) : Option PoWMessage :=
  s.queue.head?.bind fun pending =>
    let hash := toString s.publicId ++ ":" ++ toString pending.id ++ ":" ++ toString env.round
    let pow := s.pow.registerBlock env.prefer hash (if parents = [] then getParents s.pow else parents) s.publicId
      (parents ≠ [])
    (pow.findBlock hash).map fun record =>
      { content := .block { hash := record.hash, parents := record.parents, miner := s.publicId
                            length := record.height, parasite := true, tx := pending, roundMined := env.round }
        fromId := s.publicId }

/-- With the block mined next, the withheld blocks are high enough to be released. -/
def ReleasesNext (env : MiningRound) (parents : List String) (s : Miner) : Prop :=
  ∃ f ∈ s.parasite, ∃ msg ∈ s.minedMessage env parents, (f.storePrivate msg).Releases

instance (env : MiningRound) (parents : List String) (s : Miner) : Decidable (s.ReleasesNext env parents) :=
  inferInstanceAs (Decidable (∃ f ∈ _, ∃ msg ∈ _, _))

end Miner

/-! ## The invariant -/

/-- The thresholds of a fault, and `privateHeight` is the height of a withheld block. -/
structure ParasiteFault.Consistent (lead : Int) (f : ParasiteFault) : Prop where
  threshold : lead ≤ f.leadThreshold
  pos : 1 ≤ f.leadThreshold
  publicHeight : 0 ≤ f.publicHeight
  privateHeight : f.privateHeight = 0 ∨ ∃ stored ∈ f.privateChain, stored.height = f.privateHeight

structure Miner.Led (lead : Int) (s : Miner) : Prop where
  parasite : ∀ f ∈ s.parasite, f.Consistent lead
  releases : ∀ r ∈ s.releases, r.Leads lead

section Steps
variable {lead : Int} {f : ParasiteFault} {s r : Miner} {env : MiningRound}

theorem ParasiteFault.Consistent.storePrivate (h : f.Consistent lead) (msg : PoWMessage) :
    (f.storePrivate msg).Consistent lead ∧ (f.storePrivate msg).publicHeight = f.publicHeight := by
  unfold ParasiteFault.storePrivate
  cases msg.content with
  | tx tx => exact ⟨h, rfl⟩
  | block b =>
    dsimp only
    split_ifs
    · exact ⟨h, rfl⟩
    · exact ⟨h, rfl⟩
    · refine ⟨⟨h.threshold, h.pos, h.publicHeight, ?_⟩, rfl⟩
      show max f.privateHeight b.length = 0 ∨ _
      rcases le_total b.length f.privateHeight with hle | hle
      · rw [max_eq_left hle]
        refine h.privateHeight.imp_right fun ⟨stored, hmem, heq⟩ => ⟨stored, ?_, ?_⟩
        · exact List.mem_append_left _ hmem
        · exact heq
      · refine .inr ⟨_, List.mem_append_right _ (List.mem_singleton.mpr rfl), ?_⟩
        show b.length = max f.privateHeight b.length
        rw [max_eq_right hle]

theorem ParasiteFault.Consistent.released (h : f.Consistent lead) : f.released.Consistent lead :=
  ⟨h.threshold, h.pos, h.publicHeight.trans (le_max_left _ _), .inl rfl⟩

theorem Miner.Led.sends (h : s.Led lead) (hsends : s.Sends r) : r.Led lead := by
  obtain ⟨sent, rfl⟩ := hsends
  exact ⟨h.parasite, h.releases⟩

theorem Miner.Led.tryRelease (h : s.Led lead) (hguard : (∃ f ∈ s.parasite, f.Releases) → s.UpToDate) :
    s.tryRelease.Led lead := by
  unfold Miner.tryRelease
  cases hf : s.parasite with
  | none => exact h
  | some f =>
    dsimp only
    split_ifs with hreleases
    swap
    · exact h
    refine Miner.Led.sends ?_ (Miner.sends_foldl Miner.sends_networkBroadcast f.releaseMessages _)
    have hconsistent := h.parasite f hf
    refine ⟨fun f' hf' => ?_, fun r hr => ?_⟩
    · obtain rfl := Option.mem_some.mp hf'
      exact hconsistent.released
    rcases List.mem_append.mp hr with hr | hr
    · exact h.releases r hr
    obtain rfl := List.mem_singleton.mp hr
    -- `privateHeight` is positive here, so a withheld block has it
    have hlead := not_lt.mp hreleases.2
    have hpos := hconsistent.pos
    have hpublic := hconsistent.publicHeight
    have hthreshold := hconsistent.threshold
    obtain ⟨stored, hmem, hheight⟩ := hconsistent.privateHeight.resolve_left (by omega)
    refine ⟨stored, hmem, fun msg hmsg b hb => ?_⟩
    have hb := hguard ⟨f, hf, hreleases⟩ f hf msg hmsg b hb
    omega

theorem Miner.Led.storePrivate (h : s.Led lead) (msg : PoWMessage) :
    (s.updateParasite (·.storePrivate msg)).Led lead := by
  refine ⟨fun f hf => ?_, h.releases⟩
  obtain ⟨g, hg, rfl⟩ := Option.map_eq_some_iff.mp hf
  exact ((h.parasite g hg).storePrivate msg).1

theorem Miner.Led.upToDate_storePrivate (h : s.Led lead) (hupToDate : s.UpToDate) (msg : PoWMessage) :
    (s.updateParasite (·.storePrivate msg)).UpToDate := by
  intro f hf m hm b hb
  obtain ⟨g, hg, rfl⟩ := Option.map_eq_some_iff.mp hf
  rw [((h.parasite g hg).storePrivate msg).2]
  exact hupToDate g hg m hm b hb

theorem Miner.UpToDate.sends (h : s.UpToDate) (hsends : s.Sends r) : r.UpToDate := by
  obtain ⟨sent, rfl⟩ := hsends
  exact h

theorem Miner.sends_broadcast_tx (s : Miner) (tx : PendingTx) (fromId : InterfaceId) :
    s.Sends (s.broadcast { content := .tx tx, fromId := fromId }) := by
  cases hf : s.parasite with
  | none =>
    rw [Miner.broadcast_honest hf]
    exact Miner.sends_networkBroadcast s _
  | some f =>
    rw [Miner.broadcast_attacker hf]
    exact Miner.sends_networkBroadcast s _

theorem Miner.Led.broadcast_block (h : s.Led lead) (b : AnnouncedBlock) (fromId : InterfaceId)
    (hguard : (∃ f ∈ s.parasite, (f.storePrivate
      { content := .block { b with parasite := true }, fromId := fromId }).Releases) → s.UpToDate) :
    (s.broadcast { content := .block b, fromId := fromId }).Led lead := by
  cases hf : s.parasite with
  | none =>
    rw [Miner.broadcast_honest hf]
    exact h.sends (Miner.sends_networkBroadcast s _)
  | some f =>
    rw [Miner.broadcast_attacker hf]
    have hstored := h.storePrivate { content := .block { b with parasite := true }, fromId := fromId }
    have hsends := Miner.sends_foldl (fun t collaborator => t.sends_unicastTo
      { content := .block { b with parasite := true }, fromId := fromId, parasitePrivate := true } collaborator)
      ((s.updateParasite (·.storePrivate
        { content := .block { b with parasite := true }, fromId := fromId })).collaborators.filter
          (· ≠ (s.updateParasite (·.storePrivate
            { content := .block { b with parasite := true }, fromId := fromId })).publicId))
      (s.updateParasite (·.storePrivate { content := .block { b with parasite := true }, fromId := fromId }))
    refine (hstored.sends hsends).tryRelease fun hreleases => ?_
    have hupToDate : s.UpToDate := by
      obtain ⟨sent, heq⟩ := hsends
      rw [heq] at hreleases
      obtain ⟨g, hg, hreleases⟩ := hreleases
      obtain ⟨f', hf', rfl⟩ := Option.map_eq_some_iff.mp hg
      exact hguard ⟨f', hf', hreleases⟩
    exact Miner.UpToDate.sends (h.upToDate_storePrivate hupToDate _) hsends

/-! ## The protocol step -/

theorem Miner.onPacket_parasite (prefer : PreferCandidate) (s : Miner) (pkt : Packet PoWMessage) :
    (s.onPacket prefer pkt).parasite = s.parasite ∧ (s.onPacket prefer pkt).releases = s.releases := by
  unfold Miner.onPacket
  cases pkt.message.content <;> dsimp only <;> split_ifs <;> exact ⟨rfl, rfl⟩

theorem Miner.beforeMining_parasite (env : MiningRound) (s : Miner) :
    (s.beforeMining env).parasite = s.parasite ∧ (s.beforeMining env).releases = s.releases := by
  have hstream : (s.checkInStrm env.prefer).parasite = s.parasite ∧
      (s.checkInStrm env.prefer).releases = s.releases := by
    refine List.foldlRecOn (motive := fun t : Miner => t.parasite = s.parasite ∧ t.releases = s.releases)
      s.inStream _ ⟨rfl, rfl⟩ fun t ht pkt _ => ?_
    obtain ⟨hparasite, hreleases⟩ := t.onPacket_parasite env.prefer pkt
    exact ⟨hparasite.trans ht.1, hreleases.trans ht.2⟩
  unfold Miner.beforeMining Miner.submit
  split_ifs
  · obtain ⟨sent, heq⟩ := Miner.sends_broadcast_tx
      { s.checkInStrm env.prefer with
        localSubmitted := (s.checkInStrm env.prefer).localSubmitted + 1
        queue := (s.checkInStrm env.prefer).queue ++
          [⟨(s.checkInStrm env.prefer).localSubmitted + 1, env.round, (s.checkInStrm env.prefer).publicId⟩]
        knownTransactions := ((s.checkInStrm env.prefer).publicId,
          (s.checkInStrm env.prefer).localSubmitted + 1) :: (s.checkInStrm env.prefer).knownTransactions }
      ⟨(s.checkInStrm env.prefer).localSubmitted + 1, env.round, (s.checkInStrm env.prefer).publicId⟩
      (s.checkInStrm env.prefer).publicId
    dsimp only
    rw [heq]
    exact hstream
  · exact hstream

theorem Miner.Led.mine (h : s.Led lead) {parents : List String}
    (hguard : s.ReleasesNext env parents → s.UpToDate) : (s.mine env parents).Led lead := by
  unfold Miner.mine
  unfold Miner.ReleasesNext Miner.minedMessage at hguard
  cases hqueue : s.queue with
  | nil => exact h
  | cons pending rest =>
    rw [hqueue, List.head?_cons, Option.bind_some] at hguard
    dsimp only at hguard ⊢
    split
    · exact ⟨h.parasite, h.releases⟩
    · rename_i record hrecord
      rw [hrecord] at hguard
      have hled : ∀ pow, Miner.Led lead { s with queue := rest, pow := pow } :=
        fun _ => ⟨h.parasite, h.releases⟩
      refine (hled _).broadcast_block _ _ fun ⟨f, hf, hreleases⟩ => ?_
      exact hguard ⟨f, hf, _, rfl, hreleases⟩

theorem Miner.Led.tryPerformComputation (h : s.Led lead)
    (hguard : (s.beforeMining env).guardMine env →
      (s.beforeMining env).ReleasesNext env ((s.parasite.map ParasiteFault.selectPrivateParents).getD []) →
        (s.beforeMining env).UpToDate) :
    (s.tryPerformComputation env).Led lead := by
  obtain ⟨hparasite, hreleases⟩ := s.beforeMining_parasite env
  have hbefore : (s.beforeMining env).Led lead := ⟨hparasite ▸ h.parasite, hreleases ▸ h.releases⟩
  rw [Miner.tryPerformComputation_eq]
  unfold Miner.runProtocolStep
  dsimp only
  split_ifs with hmines
  · exact hbefore.mine (hguard hmines)
  · exact hbefore

end Steps

/-! ## Runs -/

namespace Miners

/-- Whoever mines a block that makes it release is up to date with the public blocks that it has received. -/
def ReleasesUpToDate (cfg : Miners) (sys : MinerSystem) : Lib.Lossy.Event InterfaceId (Packet PoWMessage) → Prop
  | .react p arrived =>
    let s := Miner.beforeMining (cfg.env p sys.time)
      { sys.nodes p with inStream := (sys.nodes p).inStream ++ arrived, outbox := [] }
    s.guardMine (cfg.env p sys.time) →
      s.ReleasesNext (cfg.env p sys.time)
        (((sys.nodes p).parasite.map ParasiteFault.selectPrivateParents).getD []) → s.UpToDate
  | .tick => True

instance (cfg : Miners) (sys : MinerSystem) : (e : Lib.Lossy.Event InterfaceId (Packet PoWMessage)) →
    Decidable (ReleasesUpToDate cfg sys e)
  | .react .. => inferInstanceAs (Decidable (_ → _ → _))
  | .tick => .isTrue trivial

/-- **A release has its lead.** In a run in which every attacker that mines a block on which it releases has received
no public block above the highest that it has released before, the withheld blocks of every release are
`leadThreshold` ahead of all public blocks that its peer has received. -/
theorem released_with_lead (cfg : Miners) (sys : MinerSystem)
    (h : cfg.machine.ReachedUnder (ReleasesUpToDate cfg) sys) (p : InterfaceId) :
    ∀ r ∈ (sys.nodes p).releases, r.Leads cfg.leadThreshold := by
  suffices hall : ∀ p, (sys.nodes p).Led cfg.leadThreshold from (hall p).releases
  refine Lib.Lossy.Protocol.invariant (I := fun sys => ∀ p, (sys.nodes p).Led cfg.leadThreshold)
    (fun p => ?_) (fun _ _ hall => hall) (fun sys p arrived hall hguard _ _ => ?_) h
  · refine ⟨fun f hf => ?_, by simp [protocol, init]⟩
    have hf' : (if p ∈ cfg.attackers then some _ else none) = some f := hf
    split_ifs at hf'
    obtain rfl := Option.some.inj hf'
    exact ⟨le_max_right _ _, le_max_left _ _, le_rfl, .inl rfl⟩
  · refine Lib.Lossy.Net.forall_after (Q := fun _ s => Miner.Led cfg.leadThreshold s) ?_ fun q _ => hall q
    exact Miner.Led.tryPerformComputation ⟨(hall p).parasite, (hall p).releases⟩ hguard

/-! ## Two runs -/

/-- Two miners that mine a block in every round; miner 0 is an attacker who is to lead by two. -/
def oneAttacker : Miners where
  prefer := PoWBitcoin.preferCandidate
  peers := [0, 1]
  neighbors := fun p => [1 - p]
  attackers := [0]
  leadThreshold := 2
  submitRate := 1
  mineRate := fun _ => 1
  mineDenominator := fun _ => 1
  submitDraw := fun _ _ => 0
  mineDraw := fun _ _ => 0

def honestBlock : Packet PoWMessage :=
  ⟨1, 0, { content := .block ⟨"1:1:0", [GENESIS], 1, 1, false, ⟨1, 0, 1⟩, 0⟩, fromId := 1 }⟩

/-- The honest block arrives when the attacker has released two blocks; two more follow. -/
def blockLate : List (Lib.Lossy.Event InterfaceId (Packet PoWMessage)) :=
  [.react 0 [], .react 1 [], .tick, .react 0 [], .tick, .react 0 [honestBlock], .tick, .react 0 []]

theorem released_with_lead_blockLate :
    ∃ sys, oneAttacker.machine.ReachedUnder (ReleasesUpToDate oneAttacker) sys ∧
      (sys.nodes 0).releases.map (fun r => (r.withheld.length, r.received.length)) = [(2, 0), (2, 1)] ∧
      ∀ r ∈ (sys.nodes 0).releases, r.Leads 2 := by
  have hrun : (oneAttacker.machine.runUnder (ReleasesUpToDate oneAttacker) ⟨0, oneAttacker.init, []⟩ blockLate).map
      (fun sys => (sys.nodes 0).releases.map fun r => (r.withheld.length, r.received.length)) =
        some [(2, 0), (2, 1)] := by
    decide +kernel
  obtain ⟨sys, hsys, hreleases⟩ := Option.map_eq_some_iff.mp hrun
  have hreached := Lib.Machine.reachedUnder_of_runUnder (.start rfl) hsys
  exact ⟨sys, hreached, hreleases, released_with_lead oneAttacker sys hreached 0⟩

/-- The honest block arrives in time: the attacker releases at height two with height one in public. -/
def blockInTime : List (Lib.Lossy.Event InterfaceId (Packet PoWMessage)) :=
  [.react 0 [], .react 1 [], .tick, .react 0 [honestBlock]]

/-- An attacker releases its blocks with a lead of one where two are asked for. -/
theorem blockInTime_released_early :
    ¬ ∀ (cfg : Miners) (sys : MinerSystem), cfg.machine.Reached sys →
      ∀ p, ∀ r ∈ (sys.nodes p).releases, r.Leads cfg.leadThreshold := by
  intro hall
  have hrun : (oneAttacker.machine.run ⟨0, oneAttacker.init, []⟩ blockInTime).map
      (fun sys => (sys.nodes 0).releases.map fun r => decide (r.Leads 2)) = some [false] := by
    decide +kernel
  obtain ⟨sys, hsys, hreleases⟩ := Option.map_eq_some_iff.mp hrun
  obtain ⟨r, hr, hlead⟩ := List.mem_map.mp (hreleases ▸ List.mem_singleton.mpr rfl)
  exact of_decide_eq_false hlead (hall oneAttacker sys (Lib.Machine.reached_of_run (.start rfl) hsys) 0 r hr)

end Miners

end Quantas
