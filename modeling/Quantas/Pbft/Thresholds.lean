import Quantas.Lib.Quorum
import Quantas.Pbft.Outcome

/-!
# PBFT: what the thresholds are worth

A certificate needs more than `quorum = 2f` votes, with `f = (n - 1) / 3`. Two such sets of members share more
than `f` members only when `n = 3f + 1`; a leader sends no prepare, so `2f + 1` correct replicas with the
leader among them are one prepare short; and the checkpoint test counts messages where the others count
senders.
-/

namespace Quantas.Pbft

variable {ctx : Ctx}

/-! ## Intersection -/

/-- Any two sets of members above the quorum have more than `f` members in common. -/
def QuorumsIntersect (ctx : Ctx) : Prop :=
  ∀ A B : Finset InterfaceId, A ⊆ ctx.members.toFinset → B ⊆ ctx.members.toFinset →
    quorum ctx < A.card → quorum ctx < B.card → f ctx < (A ∩ B).card

/-- **Quorums intersect.** They do so in a correct replica exactly in the committees of `3f + 1` members. -/
theorem quorumsIntersect_iff {c : Committee} (hmembers : ctx.members = c.members) (hsize : 1 ≤ c.size) :
    QuorumsIntersect ctx ↔ c.size % 3 = 1 := by
  have hcard : ctx.members.toFinset.card = c.size := by rw [hmembers, c.card_toFinset]
  have hf : f ctx = (c.size - 1) / 3 := by rw [f, hmembers, Committee.size]
  have hquorum : quorum ctx = 2 * ((c.size - 1) / 3) := by rw [quorum, hf]
  constructor
  · intro h
    have hle : quorum ctx + 1 ≤ ctx.members.toFinset.card := by omega
    obtain ⟨A, hA, B, hB, hcardA, hcardB, hinter⟩ := Lib.exists_card_inter ctx.members.toFinset hle hle
    have hshared := h A B hA hB (by omega) (by omega)
    omega
  · intro h A B hA hB hcardA hcardB
    have hshared := Lib.card_add_card_le hA hB
    omega

def replicaOf (n : Nat) : Ctx where
  self := 0
  members := (Committee.ofSize n).members
  round := 0
  fault := none
  digestOf := fun req => String.ofList (List.replicate req.requestId 'r')
  computeStateDigest := fun reqs => String.ofList (List.replicate reqs.length 's')

theorem quorumsIntersect_one : QuorumsIntersect (replicaOf 1) ↔ (Committee.ofSize 1).size % 3 = 1 :=
  quorumsIntersect_iff (c := Committee.ofSize 1) rfl (by decide)

/-- Among 20 replicas, two quorums of 13 share 6 members, which may all be faulty. -/
theorem twentyReplicas_share : ¬ QuorumsIntersect (replicaOf 20) := by
  intro h
  have hshared := h ((Finset.range 13).image Int.ofNat) ((Finset.Ico 7 20).image Int.ofNat)
    (by decide) (by decide) (by decide) (by decide)
  revert hshared
  decide

/-! ## Who is counted -/

/-- The log holds a message of one type from `z` for view `v`, sequence number `n` and digest `d`. -/
def HeardFrom (ctx : Ctx) (c : PBFTConsensus) (type : PhaseType) (v n : Nat) (d : String) (z : InterfaceId) :
    Prop :=
  ∃ m, .phase m ∈ c.receivedMessages ∧ m.messageType = type ∧ m.seqNum = n ∧ m.view = v ∧
    m.proposalView = v ∧ ctx.digestOf m.request = d ∧ m.fromId = z

section
variable {c : PBFTConsensus} {v n : Nat} {d : String}

theorem mem_senders {type : PhaseType} {z : InterfaceId} :
    z ∈ senders ctx c type v n d ↔ HeardFrom ctx c type v n d z := by
  unfold senders
  rw [List.mem_toFinset, List.mem_map]
  constructor
  · rintro ⟨m, hm, hfrom⟩
    obtain ⟨hmem, hmatch⟩ := List.mem_filter.mp hm
    obtain ⟨hlog, htype, hseq, hview⟩ := mem_phaseMessages.mp hmem
    obtain ⟨hproposal, -, hdigest⟩ := of_decide_eq_true hmatch
    exact ⟨m, hlog, htype, hseq, hview, hproposal, hdigest, hfrom⟩
  · rintro ⟨m, hlog, htype, hseq, hview, hproposal, hdigest, hfrom⟩
    refine ⟨m, List.mem_filter.mpr ⟨mem_phaseMessages.mpr ⟨hlog, htype, hseq, hview⟩, ?_⟩, hfrom⟩
    exact decide_eq_true ⟨hproposal, hseq, hdigest⟩

theorem hasPrePrepare_iff :
    hasPrePrepare ctx c v n d = true ↔ HeardFrom ctx c .prePrepare v n d (leaderFor ctx v) := by
  unfold hasPrePrepare
  rw [List.any_eq_true]
  constructor
  · rintro ⟨m, hmem, hmatch⟩
    obtain ⟨hlog, htype, hseq, hview⟩ := mem_phaseMessages.mp hmem
    obtain ⟨hproposal, -, hdigest, hfrom⟩ := of_decide_eq_true hmatch
    exact ⟨m, hlog, htype, hseq, hview, hproposal, hdigest, hfrom⟩
  · rintro ⟨m, hlog, htype, hseq, hview, hproposal, hdigest, hfrom⟩
    refine ⟨m, mem_phaseMessages.mpr ⟨hlog, htype, hseq, hview⟩, ?_⟩
    exact decide_eq_true ⟨hproposal, hseq, hdigest, hfrom⟩

theorem isPrepared_iff : isPrepared ctx c v n d = true ↔
    HeardFrom ctx c .prePrepare v n d (leaderFor ctx v) ∧
      quorum ctx < (senders ctx c .prepare v n d).card := by
  rw [isPrepared, Bool.and_eq_true_iff, hasPrePrepare_iff, decide_eq_true_iff, countPrepares]

end

/-! ## Who prepares -/

def Ctx.of (ctx : Ctx) (z : InterfaceId) : Ctx := { ctx with self := z, fault := none }

/-- The pre-prepare phase in view `v` sends a prepare from some of its states. -/
def SendsPrepare (ctx : Ctx) (v : Nat) : Prop :=
  ∃ s : Local, s.phase = .prePrepare ∧ s.view = v ∧ s.outbox = [] ∧ ∃ pkt ∈ (call ctx s).1.outbox,
    ∃ m, pkt.message = .phase m ∧ m.messageType = .prepare ∧ m.view = v

theorem sendsPrepare_iff {z : InterfaceId} (hz : z ∈ ctx.members) {v : Nat} :
    SendsPrepare (ctx.of z) v ↔ z ≠ leaderFor ctx v := by
  constructor
  · rintro ⟨s, hphase, rfl, houtbox, pkt, hpkt, m, hmessage, htype, -⟩
    obtain ⟨ms, hemits, houtcome⟩ := call_steps (ctx.of z) s
    have hm : Message.phase m ∈ ms := by
      rw [hemits.outbox, houtbox, List.nil_append, List.mem_flatMap] at hpkt
      obtain ⟨msg, hmsg, hsent⟩ := hpkt
      obtain ⟨-, -, heq⟩ := (mem_packets_of_no_fault (ctx.of z) rfl).mp hsent
      rwa [← hmessage, heq]
    cases houtcome with
    | prepare pp _ _ _ hself => exact hself
    | idle => cases hm
    | viewChange => simp at hm
    | proposeFirst =>
      obtain rfl : m = _ := by simpa using hm
      cases htype
    | proposeOwn =>
      obtain rfl : m = _ := by simpa using hm
      cases htype
    | commit _ _ hphase' => cases hphase.symm.trans hphase'
    | decide _ _ hphase' => cases hphase.symm.trans hphase'
    | enterNewView _ _ hphase' => cases hphase.symm.trans hphase'
    | install _ _ hphase' => cases hphase.symm.trans hphase'
  · intro hleader
    let pp : PhaseMessage := ⟨.prePrepare, 0, v, ⟨0, leaderFor ctx v, 0, false⟩, v, leaderFor ctx v⟩
    let s : Local := { view := v, viewChangeTimer := ctx.round, receivedMessages := [.phase pp] }
    have hstable : maybeStableCheckpoint (ctx.of z) s = s := by
      simp [maybeStableCheckpoint, stableCheckpointReady, checkpoints, Message.checkpoint?, s]
    have hproposal : leaderProposal (ctx.of z) s.toPBFTConsensus = some pp := by
      simp [leaderProposal, phaseMessages, Message.phase?, nextSeq, s, pp, leaderFor, Ctx.of]
    have hcall := call_prepare hstable rfl (lt_irrefl _) hleader hproposal
    refine ⟨s, rfl, rfl, rfl, ⟨z, z, .phase { pp with messageType := .prepare, fromId := z }⟩, ?_, _, rfl, rfl,
      rfl⟩
    rw [hcall]
    exact (mem_packets_of_no_fault (ctx.of z) rfl).mpr ⟨rfl, hz, rfl⟩

/-- **One prepare short.** Let the log hold the leader's pre-prepare and the prepare of every member of `L`
that sends one, where `L` is `2k + 1` of `3k + 1` members with the leader among them. Then the request is
prepared exactly when one more prepare is there, from outside of `L` or under the leader's name; with the
commits of all of `L` it is committed. -/
theorem prepared_iff_oneMore {c : Committee} (hmembers : ctx.members = c.members) (k : Nat)
    (hsize : c.size = 3 * k + 1) (s : PBFTConsensus) (v n : Nat) (d : String) (L : Finset InterfaceId)
    (hL : L ⊆ ctx.members.toFinset) (hcard : L.card = 2 * k + 1) (hleader : leaderFor ctx v ∈ L)
    (hpp : HeardFrom ctx s .prePrepare v n d (leaderFor ctx v))
    (hprepares : ∀ z ∈ L, SendsPrepare (ctx.of z) v → HeardFrom ctx s .prepare v n d z) :
    (isPrepared ctx s v n d = true ∧
        ((∀ z ∈ L, HeardFrom ctx s .commit v n d z) → isCommitted ctx s v n d = true)) ↔
      ∃ z, (z ∉ L ∨ z = leaderFor ctx v) ∧ HeardFrom ctx s .prepare v n d z := by
  have hquorum : quorum ctx = 2 * k := by
    have hlength : ctx.members.length = 3 * k + 1 := by rw [hmembers, ← hsize, Committee.size]
    rw [quorum, f, hlength]
    omega
  have hbackups : L.erase (leaderFor ctx v) ⊆ senders ctx s .prepare v n d := by
    intro z hz
    obtain ⟨hne, hzL⟩ := Finset.mem_erase.mp hz
    have hmem : z ∈ ctx.members := List.mem_toFinset.mp (hL hzL)
    exact mem_senders.mpr (hprepares z hzL ((sendsPrepare_iff hmem).mpr hne))
  have hcard' : (L.erase (leaderFor ctx v)).card = 2 * k := by
    rw [Finset.card_erase_of_mem hleader, hcard]
    omega
  have hcommitted : (∀ z ∈ L, HeardFrom ctx s .commit v n d z) → isCommitted ctx s v n d = true := by
    intro hcommits
    have hle : L.card ≤ (senders ctx s .commit v n d).card :=
      Finset.card_le_card fun z hz => mem_senders.mpr (hcommits z hz)
    apply decide_eq_true
    show quorum ctx < (senders ctx s .commit v n d).card
    omega
  constructor
  · intro h
    obtain ⟨-, hcount⟩ := isPrepared_iff.mp h.1
    have hmore : (L.erase (leaderFor ctx v)).card < (senders ctx s .prepare v n d).card := by omega
    obtain ⟨z, hz, hnew⟩ := Finset.exists_mem_notMem_of_card_lt_card hmore
    refine ⟨z, ?_, mem_senders.mp hz⟩
    rw [Finset.mem_erase, not_and_or, not_not] at hnew
    exact hnew.symm
  · intro h
    obtain ⟨z, hz, hheard⟩ := h
    have hnew : z ∉ L.erase (leaderFor ctx v) := by
      rw [Finset.mem_erase, not_and_or, not_not]
      exact hz.symm
    have hle := Finset.card_le_card (Finset.insert_subset (mem_senders.mpr hheard) hbackups)
    rw [Finset.card_insert_of_notMem hnew] at hle
    exact ⟨isPrepared_iff.mpr ⟨hpp, by omega⟩, hcommitted⟩

/-- A message of one type from `z` for the request that replica 0 proposes first. -/
def aboutFirst (type : PhaseType) (z : InterfaceId) : Message :=
  .phase ⟨type, 0, 0, ⟨0, 0, 0, false⟩, 0, z⟩

/-- The log of replica 0 with its proposal and the prepares of some replicas. -/
def preparedBy (zs : List InterfaceId) : PBFTConsensus where
  receivedMessages := aboutFirst .prePrepare 0 :: zs.map (aboutFirst .prepare)

theorem heardFrom_preparedBy {zs : List InterfaceId} {z : InterfaceId} (hz : z ∈ zs) :
    HeardFrom (replicaOf 4) (preparedBy zs) .prepare 0 0 "" z :=
  ⟨_, List.mem_cons_of_mem _ (List.mem_map_of_mem hz), rfl, rfl, rfl, rfl, rfl, rfl⟩

theorem heardFrom_leader (zs : List InterfaceId) :
    HeardFrom (replicaOf 4) (preparedBy zs) .prePrepare 0 0 "" (leaderFor (replicaOf 4) 0) :=
  ⟨_, List.mem_cons_self, rfl, rfl, rfl, rfl, rfl, by decide⟩

theorem backup_of_sendsPrepare {z : InterfaceId} (hz : z ∈ ({0, 1, 2} : Finset InterfaceId))
    (h : SendsPrepare ((replicaOf 4).of z) 0) : z = 1 ∨ z = 2 := by
  have hmember : ∀ z ∈ ({0, 1, 2} : Finset InterfaceId), z ∈ (replicaOf 4).members := by decide
  have hbackup : ∀ z ∈ ({0, 1, 2} : Finset InterfaceId), z ≠ leaderFor (replicaOf 4) 0 → z = 1 ∨ z = 2 := by
    decide
  exact hbackup z hz ((sendsPrepare_iff (hmember z hz)).mp h)

theorem prepared_iff_oneMore_four :
    (isPrepared (replicaOf 4) (preparedBy [1, 2, 3]) 0 0 "" = true ∧
        ((∀ z ∈ ({0, 1, 2} : Finset InterfaceId),
          HeardFrom (replicaOf 4) (preparedBy [1, 2, 3]) .commit 0 0 "" z) →
          isCommitted (replicaOf 4) (preparedBy [1, 2, 3]) 0 0 "" = true)) ↔
      ∃ z, (z ∉ ({0, 1, 2} : Finset InterfaceId) ∨ z = leaderFor (replicaOf 4) 0) ∧
        HeardFrom (replicaOf 4) (preparedBy [1, 2, 3]) .prepare 0 0 "" z := by
  refine prepared_iff_oneMore (c := Committee.ofSize 4) rfl 1 (by decide) _ 0 0 "" {0, 1, 2} (by decide)
    (by decide) (by decide) (heardFrom_leader _) fun z hz hsends => heardFrom_preparedBy ?_
  rcases backup_of_sendsPrepare hz hsends with rfl | rfl
  · decide
  · decide

/-- Three correct replicas out of four, the leader among them, do not prepare. -/
theorem threeOfFour_notPrepared :
    HeardFrom (replicaOf 4) (preparedBy [1, 2]) .prePrepare 0 0 "" (leaderFor (replicaOf 4) 0) ∧
      (∀ z ∈ ({0, 1, 2} : Finset InterfaceId), SendsPrepare ((replicaOf 4).of z) 0 →
        HeardFrom (replicaOf 4) (preparedBy [1, 2]) .prepare 0 0 "" z) ∧
      isPrepared (replicaOf 4) (preparedBy [1, 2]) 0 0 "" = false := by
  refine ⟨heardFrom_leader _, fun z hz hsends => heardFrom_preparedBy ?_, by decide⟩
  rcases backup_of_sendsPrepare hz hsends with rfl | rfl
  · decide
  · decide

/-! ## Duplicates -/

/-- The checkpoint messages with one digest for one sequence number in the own view, counted with repeats. -/
def checkpointVotes (c : PBFTConsensus) (seq : Nat) (d : String) : Nat :=
  ((checkpoints c seq c.view).map Checkpoint.digest).count d

theorem stableCheckpointReady_iff {c : PBFTConsensus} {seq : Nat} : stableCheckpointReady ctx c seq = true ↔
    seq % checkpointInterval = 0 ∧ ∃ d, quorum ctx < checkpointVotes c seq d := by
  unfold stableCheckpointReady
  by_cases hseq : seq % checkpointInterval = 0
  · rw [if_neg (not_not.mpr hseq)]
    simp only [List.any_eq_true, decide_eq_true_eq]
    constructor
    · rintro ⟨d, -, hcount⟩
      exact ⟨hseq, d, hcount⟩
    · rintro ⟨-, d, hcount⟩
      exact ⟨d, List.count_pos_iff.mp (Nat.zero_lt_of_lt hcount), hcount⟩
  · rw [if_pos hseq]
    simp [hseq]

theorem mem_vcSenders {c : PBFTConsensus} {z : InterfaceId} : z ∈ vcSenders c ↔
    ∃ vc, .viewChange vc ∈ c.receivedMessages ∧ vc.seqNum = c.viewChangeAnchorSeq ∧ vc.view + 1 = c.view ∧
      vc.newView = c.view ∧ vc.fromId = z := by
  unfold vcSenders
  rw [List.mem_toFinset, List.mem_map]
  constructor
  · rintro ⟨vc, hvc, hfrom⟩
    obtain ⟨hmem, hnew⟩ := List.mem_filter.mp hvc
    obtain ⟨hlog, hseq, hview⟩ := mem_viewChangesBefore.mp hmem
    exact ⟨vc, hlog, hseq, hview, of_decide_eq_true hnew, hfrom⟩
  · rintro ⟨vc, hlog, hseq, hview, hnew, hfrom⟩
    refine ⟨vc, List.mem_filter.mpr ⟨mem_viewChangesBefore.mpr ⟨hlog, hseq, hview⟩, ?_⟩, hfrom⟩
    exact decide_eq_true hnew

/-- Delivering a message changes the truth of none of the tests. -/
structure Insensitive (ctx : Ctx) (s : Local) (msg : Message) : Prop where
  prepared : ∀ v n d, isPrepared ctx (onMessage ctx msg s).toPBFTConsensus v n d =
    isPrepared ctx s.toPBFTConsensus v n d
  committed : ∀ v n d, isCommitted ctx (onMessage ctx msg s).toPBFTConsensus v n d =
    isCommitted ctx s.toPBFTConsensus v n d
  stable : ∀ seq, stableCheckpointReady ctx (onMessage ctx msg s).toPBFTConsensus seq =
    stableCheckpointReady ctx s.toPBFTConsensus seq
  viewChange : quorum ctx < (vcSenders (onMessage ctx msg s).toPBFTConsensus).card ↔
    quorum ctx < (vcSenders s.toPBFTConsensus).card

/-- The message is a checkpoint of the own view whose digest has exactly a quorum of messages, at a sequence
number that is not ready yet. -/
def CompletesCheckpoint (ctx : Ctx) (c : PBFTConsensus) (msg : Message) : Prop :=
  ∃ k, msg = .checkpoint k ∧ k.seqNum % checkpointInterval = 0 ∧ k.view = c.view ∧
    checkpointVotes c k.seqNum k.digest = quorum ctx ∧ stableCheckpointReady ctx c k.seqNum = false

section
variable {s : Local} {msg : Message}

theorem onMessage_eq (hconsensus : ∀ req, msg ≠ .request req) :
    onMessage ctx msg s = { s with receivedMessages := s.receivedMessages ++ [msg] } := by
  cases msg with
  | request req => exact absurd rfl (hconsensus req)
  | _ => rfl

theorem mem_onMessage (ctx : Ctx) (hconsensus : ∀ req, msg ≠ .request req) (hmsg : msg ∈ s.receivedMessages)
    (m : Message) : m ∈ (onMessage ctx msg s).receivedMessages ↔ m ∈ s.receivedMessages := by
  rw [onMessage_eq hconsensus, List.mem_append, List.mem_singleton]
  constructor
  · rintro (hm | rfl)
    · exact hm
    · exact hmsg
  · exact Or.inl

theorem checkpointVotes_onMessage (ctx : Ctx) (hconsensus : ∀ req, msg ≠ .request req) (seq : Nat)
    (d : String) :
    checkpointVotes (onMessage ctx msg s).toPBFTConsensus seq d = checkpointVotes s.toPBFTConsensus seq d +
      if ∃ k ∈ msg.checkpoint?, k.seqNum = seq ∧ k.view = s.view ∧ k.digest = d then 1 else 0 := by
  rw [onMessage_eq hconsensus]
  unfold checkpointVotes checkpoints
  have hsingle : [msg].filterMap Message.checkpoint? = msg.checkpoint?.toList := by
    cases msg <;> rfl
  simp only [List.filterMap_append, List.filter_append, List.map_append, List.count_append,
    Nat.add_left_cancel_iff]
  rw [hsingle]
  generalize msg.checkpoint? = o
  cases o with
  | none => simp
  | some k =>
    by_cases hmatch : k.seqNum = seq ∧ k.view = s.view
    · by_cases hdigest : k.digest = d
      · simp [hmatch, hdigest]
      · simp [hmatch, hdigest]
    · simp [hmatch, ← and_assoc]

/-- **Duplicates.** A further copy of a Consensus message that is in the log already changes none of the
tests, unless it is a checkpoint message that completes a quorum. -/
theorem insensitive_iff (hconsensus : ∀ req, msg ≠ .request req) (hmsg : msg ∈ s.receivedMessages) :
    Insensitive ctx s msg ↔ ¬ CompletesCheckpoint ctx s.toPBFTConsensus msg := by
  have hmem := mem_onMessage ctx hconsensus hmsg
  have hview : (onMessage ctx msg s).view = s.view := (onMessage_same ctx msg s).1
  have hsenders : ∀ type v n d, senders ctx (onMessage ctx msg s).toPBFTConsensus type v n d =
      senders ctx s.toPBFTConsensus type v n d := by
    intro type v n d
    ext z
    simp only [mem_senders, HeardFrom, hmem]
  have hvotes := fun seq d => checkpointVotes_onMessage (s := s) ctx hconsensus seq d
  constructor
  · rintro h ⟨k, rfl, hseq, hkview, hcount, hnot⟩
    -- one more copy and the digest is above the quorum
    have hready : stableCheckpointReady ctx (onMessage ctx (.checkpoint k) s).toPBFTConsensus k.seqNum = true := by
      apply stableCheckpointReady_iff.mpr
      refine ⟨hseq, k.digest, ?_⟩
      rw [hvotes, if_pos ⟨k, rfl, rfl, hkview, rfl⟩]
      omega
    rw [h.stable, hnot] at hready
    cases hready
  · intro h
    refine ⟨?prepared, ?committed, ?stable, ?viewChange⟩
    case prepared =>
      intro v n d
      rw [Bool.eq_iff_iff, isPrepared_iff, isPrepared_iff, hsenders]
      simp only [HeardFrom, hmem]
    case committed =>
      intro v n d
      rw [isCommitted, isCommitted, countCommits, countCommits, hsenders]
    case stable =>
      intro seq
      rw [Bool.eq_iff_iff, stableCheckpointReady_iff, stableCheckpointReady_iff]
      refine and_congr_right fun hseq => ⟨?_, ?_⟩
      · rintro ⟨d, hcount⟩
        rw [hvotes] at hcount
        by_cases hcopy : ∃ k ∈ msg.checkpoint?, k.seqNum = seq ∧ k.view = s.view ∧ k.digest = d
        · by_contra hnone
          obtain ⟨k, hk, rfl, hkview, rfl⟩ := hcopy
          obtain rfl := Message.checkpoint?_eq_some.mp hk
          rw [if_pos ⟨k, rfl, rfl, hkview, rfl⟩] at hcount
          have hle : ¬ quorum ctx < checkpointVotes s.toPBFTConsensus k.seqNum k.digest := fun hlt =>
            hnone ⟨_, hlt⟩
          refine h ⟨k, rfl, hseq, hkview, by omega, ?_⟩
          rw [Bool.eq_false_iff, ne_eq, stableCheckpointReady_iff]
          exact fun hready => hnone hready.2
        · rw [if_neg hcopy] at hcount
          exact ⟨d, hcount⟩
      · rintro ⟨d, hcount⟩
        refine ⟨d, ?_⟩
        rw [hvotes]
        omega
    case viewChange =>
      have hsame : vcSenders (onMessage ctx msg s).toPBFTConsensus = vcSenders s.toPBFTConsensus := by
        ext z
        have hanchor : (onMessage ctx msg s).viewChangeAnchorSeq = s.viewChangeAnchorSeq := by
          rw [onMessage_eq hconsensus]
        simp only [mem_vcSenders, hmem, hview, hanchor]
      rw [hsame]

end

/-- Replica 0 at sequence number 10, with checkpoint messages of the given replicas. -/
def checkpointsFrom (zs : List InterfaceId) : Local where
  receivedMessages := zs.map fun z => .checkpoint ⟨10, "", z, 0⟩

theorem insensitive_iff_three :
    Insensitive (replicaOf 4) (checkpointsFrom [0, 1, 2]) (.checkpoint ⟨10, "", 1, 0⟩) ↔
      ¬ CompletesCheckpoint (replicaOf 4) (checkpointsFrom [0, 1, 2]).toPBFTConsensus
        (.checkpoint ⟨10, "", 1, 0⟩) :=
  insensitive_iff (by simp) (by decide)

/-- With the checkpoint messages of two replicas out of four, a second copy of one of them makes the
checkpoint stable. -/
theorem secondCopy_completes :
    Message.checkpoint ⟨10, "", 1, 0⟩ ∈ (checkpointsFrom [0, 1]).receivedMessages ∧
      ¬ Insensitive (replicaOf 4) (checkpointsFrom [0, 1]) (.checkpoint ⟨10, "", 1, 0⟩) := by
  refine ⟨by decide, fun h => ?_⟩
  have hstable := h.stable 10
  revert hstable
  decide

end Quantas.Pbft
