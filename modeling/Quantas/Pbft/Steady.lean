import Quantas.Pbft.Lockstep

/-!
# PBFT: one request in every three rounds

Without faults a committee of four or more goes through the same three rounds in lock-step again and again: the
leader of view 0 has proposed, the others have prepared, all have committed (`Stage`). In the next round all
decide, and the leader proposes its next request. No timer runs out on the way.
-/

namespace Quantas.Pbft

namespace Lockstep
variable (cfg : Config)

/-- The `k`-th request of the leader of view 0. -/
def request (k : Nat) : ClientRequest where
  requestId := k
  submitterId := cfg.leaderFor 0
  roundSubmitted := 3 * k + 1

/-- A replica that has decided `k` requests, each in the third round after its submission. -/
structure Replica (k : Nat) (phase : Phase) (S : PhaseMessage → Prop) (c : PBFTConsensus) : Prop where
  view : c.view = 0
  confirmedTrans : c.confirmedTrans = (List.range k).map (request cfg)
  latency : c.latency = 3 * k
  timer : 3 * k + 4 ≤ c.viewChangeTimer
  phase : c.phase = phase
  slot : Slot c k S

structure Leads (k : Nat) (c : PBFTConsensus) : Prop where
  unhandledRequests : c.unhandledRequests = [(3 * k + 1, request cfg k)]
  currentClientRequestId : c.currentClientRequestId = k + 1

/-- The packets of replica `p` in one round: its vote if it is one of the voters, and beside it checkpoints and,
from the leader, requests. -/
structure Sends (k : Nat) (type : PhaseType) (voters : InterfaceId → Prop) (p : InterfaceId)
    (outbox : List (Packet Message)) : Prop where
  source : ∀ pkt ∈ outbox, pkt.source = p
  phases : ∀ pkt ∈ outbox, ∀ m, pkt.message = .phase m → voters p ∧ m = votes k (request cfg k) type p
  all : voters p → ∀ q ∈ cfg.committee.members, ⟨p, q, .phase (votes k (request cfg k) type p)⟩ ∈ outbox
  requests : ∀ pkt ∈ outbox, ∀ req, pkt.message = .request req → p = cfg.leaderFor 0

structure Carries (k : Nat) (type : PhaseType) (voters : InterfaceId → Prop) (fresh : List (Packet Message)) :
    Prop where
  phases : ∀ pkt ∈ fresh, ∀ m, pkt.message = .phase m →
    voters pkt.source ∧ m = votes k (request cfg k) type pkt.source
  all : ∀ z, voters z → ∀ q ∈ cfg.committee.members, ⟨z, q, .phase (votes k (request cfg k) type z)⟩ ∈ fresh
  requests : ∀ pkt ∈ fresh, ∀ req, pkt.message = .request req → pkt.source = cfg.leaderFor 0

structure Stage (k round : Nat) (type : PhaseType) (voters : InterfaceId → Prop) (phase : InterfaceId → Phase)
    (slot : InterfaceId → PhaseMessage → Prop) (s : Lockstep) : Prop where
  round : s.round = round
  replica : ∀ p ∈ cfg.committee.members, Replica cfg k (phase p) (slot p) (s.peers p)
  leads : Leads cfg k (s.peers (cfg.leaderFor 0))
  fresh : Carries cfg k type voters s.fresh

def Backup (z : InterfaceId) : Prop := z ∈ cfg.committee.members ∧ z ≠ cfg.leaderFor 0

def Proposed (k : Nat) : Lockstep → Prop :=
  Stage cfg k (3 * k + 1) .prePrepare (· = cfg.leaderFor 0)
    (fun p => if p = cfg.leaderFor 0 then .prepare else .prePrepare)
    fun p m => p = cfg.leaderFor 0 ∧
      Ballots k (request cfg k) (cfg.leaderFor 0) (fun _ => False) (fun _ => False) m

def Prepared (k : Nat) : Lockstep → Prop :=
  Stage cfg k (3 * k + 2) .prepare (Backup cfg) (fun _ => .prepare)
    fun p => Ballots k (request cfg k) (cfg.leaderFor 0) (fun z => z = p ∧ z ≠ cfg.leaderFor 0) fun _ => False

def Committed (k : Nat) : Lockstep → Prop :=
  Stage cfg k (3 * k + 3) .commit (· ∈ cfg.committee.members) (fun _ => .commit)
    fun p => Ballots k (request cfg k) (cfg.leaderFor 0) (Backup cfg) (· = p)

variable {cfg} {fuel k : Nat} {s : Lockstep} {sys : System} {schedule : Schedule} {p : InterfaceId}

/-! ## One round -/

theorem step_of_results (hfits : schedule.Fits cfg s.fresh) {result : InterfaceId → Local}
    (hresult : ∀ p ∈ cfg.committee.members, performComputation
      (({ s.toSystem with round := s.round + 1 } : System).ctx cfg p) fuel (schedule.inStream p)
      (s.toSystem.start p) = some (result p)) :
    ∃ s', step cfg fuel s schedule = some s' ∧ s'.round = s.round + 1 ∧
      (∀ p ∈ cfg.committee.members, s'.peers p = (result p).toPBFTConsensus) ∧
      s'.fresh = schedule.order.flatMap fun p => (result p).outbox := by
  have hnodup : schedule.order.Nodup := hfits.1.nodup_iff.mpr cfg.committee.nodup
  have hround : schedule.order.foldlM (compute cfg fuel schedule) { s.toSystem with round := s.round + 1 } = _ :=
    foldlM_compute hnodup fun p hp => hresult p (hfits.1.subset hp)
  unfold step
  rw [if_pos hfits, hround, Option.map_some]
  refine ⟨_, rfl, rfl, fun p hp => if_pos (hfits.1.symm.subset hp), ?_⟩
  exact List.drop_left

variable (fuel) in
theorem advance (type : PhaseType) (voters : InterfaceId → Prop) (P : InterfaceId → PBFTConsensus → Prop)
    (hfits : schedule.Fits cfg s.fresh) (hvoters : ∀ z, voters z → z ∈ cfg.committee.members)
    (hlocal : ∀ p ∈ cfg.committee.members, ∃ r, performComputation
      (({ s.toSystem with round := s.round + 1 } : System).ctx cfg p) fuel (schedule.inStream p)
      (s.toSystem.start p) = some r ∧ P p r.toPBFTConsensus ∧ Sends cfg k type voters p r.outbox) :
    ∃ s', step cfg fuel s schedule = some s' ∧ s'.round = s.round + 1 ∧
      (∀ p ∈ cfg.committee.members, P p (s'.peers p)) ∧ Carries cfg k type voters s'.fresh := by
  have : Nonempty Local := ⟨{}⟩
  choose! result hresult using hlocal
  obtain ⟨s', hstep, hround, hpeers, hfresh⟩ := step_of_results hfits fun p hp => (hresult p hp).1
  refine ⟨s', hstep, hround, fun p hp => ?_, ?_⟩
  · rw [hpeers p hp]
    exact (hresult p hp).2.1
  have hsender : ∀ pkt ∈ s'.fresh, ∃ p ∈ cfg.committee.members, pkt ∈ (result p).outbox := by
    intro pkt hpkt
    rw [hfresh] at hpkt
    obtain ⟨p, hp, hmem⟩ := List.mem_flatMap.mp hpkt
    exact ⟨p, hfits.1.subset hp, hmem⟩
  refine ⟨fun pkt hpkt m hm => ?_, fun z hz q hq => ?_, fun pkt hpkt req hreq => ?_⟩
  · obtain ⟨p, hp, hmem⟩ := hsender pkt hpkt
    have hsends := (hresult p hp).2.2
    rw [hsends.source pkt hmem]
    exact hsends.phases pkt hmem m hm
  · rw [hfresh, List.mem_flatMap]
    have hmember := hvoters z hz
    exact ⟨z, hfits.1.symm.subset hmember, (hresult z hmember).2.2.all hz q hq⟩
  · obtain ⟨p, hp, hmem⟩ := hsender pkt hpkt
    have hsends := (hresult p hp).2.2
    rw [hsends.source pkt hmem]
    exact hsends.requests pkt hmem req hreq

/-! ## The in-stream -/

theorem onMessage_logs (ctx : Ctx) (msg : Message) (s : Local) : ∃ log queue,
    onMessage ctx msg s = { s with
      receivedMessages := s.receivedMessages ++ log
      unhandledRequests := queue } ∧
    (∀ m, .phase m ∈ log ↔ .phase m = msg) ∧
    ((∀ req, msg ≠ .request req) → queue = s.unhandledRequests) := by
  cases msg with
  | request req => exact ⟨[], _, by rw [List.append_nil]; rfl, by simp, fun h => absurd rfl (h req)⟩
  | phase m => exact ⟨[.phase m], s.unhandledRequests, rfl, by simp, fun _ => rfl⟩
  | checkpoint m => exact ⟨[.checkpoint m], s.unhandledRequests, rfl, by simp, fun _ => rfl⟩
  | viewChange m => exact ⟨[.viewChange m], s.unhandledRequests, rfl, by simp, fun _ => rfl⟩
  | newView m => exact ⟨[.newView m], s.unhandledRequests, rfl, by simp, fun _ => rfl⟩

theorem foldl_onMessage (ctx : Ctx) (ms : List Message) (s : Local) : ∃ log queue,
    ms.foldl (fun s msg => onMessage ctx msg s) s = { s with
      receivedMessages := s.receivedMessages ++ log
      unhandledRequests := queue } ∧
    (∀ m, .phase m ∈ log ↔ .phase m ∈ ms) ∧
    ((∀ req, .request req ∉ ms) → queue = s.unhandledRequests) := by
  induction ms generalizing s with
  | nil => exact ⟨[], s.unhandledRequests, by simp, by simp, fun _ => rfl⟩
  | cons msg ms ih =>
    obtain ⟨log, queue, heq, hlog, hqueue⟩ := onMessage_logs ctx msg s
    obtain ⟨log', queue', heq', hlog', hqueue'⟩ := ih (onMessage ctx msg s)
    rw [heq] at heq' hqueue'
    rw [List.foldl_cons, heq, heq']
    refine ⟨log ++ log', queue', by simp, fun m => ?_, fun hnone => ?_⟩
    · rw [List.mem_append, hlog, hlog', List.mem_cons]
    · rw [hqueue' fun req hreq => hnone req (List.mem_cons_of_mem _ hreq)]
      apply hqueue
      intro req hreq
      exact hnone req (hreq ▸ List.mem_cons_self)

theorem Carries.mem_inStream {type : PhaseType} {voters : InterfaceId → Prop}
    (h : Carries cfg k type voters s.fresh) (hfits : schedule.Fits cfg s.fresh)
    (hp : p ∈ cfg.committee.members) (m : PhaseMessage) :
    .phase m ∈ schedule.inStream p ↔ ∃ z, (voters z ∧ z ≠ p) ∧ m = votes k (request cfg k) type z := by
  rw [hfits.mem_inStream hp]
  constructor
  · intro hm
    obtain ⟨z, hz, hpkt⟩ := hm
    obtain ⟨hvoter, heq⟩ := h.phases _ hpkt m rfl
    exact ⟨z, ⟨hvoter, hz⟩, heq⟩
  · intro hm
    obtain ⟨z, ⟨hvoter, hz⟩, rfl⟩ := hm
    exact ⟨z, hz, h.all z hvoter p hp⟩

theorem Carries.request_notMem {type : PhaseType} {voters : InterfaceId → Prop}
    (h : Carries cfg k type voters s.fresh) (hfits : schedule.Fits cfg s.fresh)
    (hp : cfg.leaderFor 0 ∈ cfg.committee.members) (req : ClientRequest) :
    .request req ∉ schedule.inStream (cfg.leaderFor 0) := by
  intro hmem
  obtain ⟨z, hz, hpkt⟩ := (hfits.mem_inStream hp).mp hmem
  exact hz (h.requests _ hpkt req rfl)

/-! ## From stage to stage -/

/-- The context of replica `p` in the round that begins. -/
abbrev nextCtx (cfg : Config) (s : Lockstep) (p : InterfaceId) : Ctx :=
  ({ s.toSystem with round := s.round + 1 } : System).ctx cfg p

theorem crowded (hsize : 4 ≤ cfg.committee.size) : Crowded (nextCtx cfg s p) := by
  have hlength : 4 ≤ cfg.committee.members.length := hsize
  have hquorum : quorum (nextCtx cfg s p) = 2 * ((cfg.committee.members.length - 1) / 3) := rfl
  refine ⟨cfg.committee.nodup, ?_, ?_, ?_⟩
  · show cfg.committee.members.getD (0 % _) NO_PEER_ID ∈ cfg.committee.members
    rw [Nat.zero_mod, List.getD_eq_getElem _ _ (by omega)]
    exact List.getElem_mem _
  · show quorum (nextCtx cfg s p) + 1 < cfg.committee.members.length
    rw [hquorum]
    omega
  · rw [hquorum]
    omega

/-- What a replica has taken over from the round before. -/
structure Carried (c : PBFTConsensus) (leads : Prop) (t : Local) : Prop where
  confirmedTrans : t.confirmedTrans = c.confirmedTrans
  latency : t.latency = c.latency
  viewChangeTimer : t.viewChangeTimer = c.viewChangeTimer
  currentClientRequestId : t.currentClientRequestId = c.currentClientRequestId
  unhandledRequests : leads → t.unhandledRequests = c.unhandledRequests
  outbox : t.outbox = []

theorem Replica.working {phase : Phase} {S : PhaseMessage → Prop} {c : PBFTConsensus} (h : Replica cfg k phase S c)
    {ctx : Ctx} (hround : ctx.round ≤ 3 * k + 4) : Working ctx c k phase S where
  view := h.view
  length := by
    rw [h.confirmedTrans, List.length_map, List.length_range]
  timer := hround.trans h.timer
  phase := h.phase
  slot := h.slot

theorem Replica.received {phase : Phase} {S : PhaseMessage → Prop} {type : PhaseType}
    {voters : InterfaceId → Prop} (h : Replica cfg k phase S (s.peers p)) (hround : s.round + 1 ≤ 3 * k + 4)
    (hfresh : Carries cfg k type voters s.fresh) (hfits : schedule.Fits cfg s.fresh)
    (hp : p ∈ cfg.committee.members) :
    ∃ t, (schedule.inStream p).foldl (fun t msg => onMessage (nextCtx cfg s p) msg t) (s.toSystem.start p) = t ∧
      Working (nextCtx cfg s p) t.toPBFTConsensus k phase
        (fun m => S m ∨ ∃ z, (voters z ∧ z ≠ p) ∧ m = votes k (request cfg k) type z) ∧
      Carried (s.peers p) (p = cfg.leaderFor 0) t := by
  obtain ⟨log, queue, heq, hlog, hqueue⟩ :=
    foldl_onMessage (nextCtx cfg s p) (schedule.inStream p) (s.toSystem.start p)
  have hworking : Working (nextCtx cfg s p) (s.peers p) k phase S := h.working hround
  have hvotes : ∀ m, .phase m ∈ log ↔ ∃ z, (voters z ∧ z ≠ p) ∧ m = votes k (request cfg k) type z :=
    fun m => (hlog m).trans (hfresh.mem_inStream hfits hp m)
  refine ⟨_, heq, ⟨hworking.view, hworking.length, hworking.timer, hworking.phase, ?_⟩,
    ⟨rfl, rfl, rfl, rfl, fun hleads => ?_, rfl⟩⟩
  · have happend : Slot { s.peers p with
        receivedMessages := (s.peers p).receivedMessages ++ log
        unhandledRequests := queue } k _ := hworking.slot.append rfl fun m hm => by
      obtain ⟨z, -, rfl⟩ := (hvotes m).mp hm
      exact le_rfl
    apply happend.congr
    intro m
    rw [hvotes]
  · subst hleads
    exact hqueue (hfresh.request_notMem hfits hp)

theorem Replica.of_working {phase phase' : Phase} {S S' : PhaseMessage → Prop} {c : PBFTConsensus} {ctx : Ctx}
    {leads : Prop} {t r : Local} (h : Replica cfg k phase S c) (ht : Carried c leads t)
    (hkept : Untouched t.toPBFTConsensus r.toPBFTConsensus) (hr : Working ctx r.toPBFTConsensus k phase' S') :
    Replica cfg k phase' S' r.toPBFTConsensus where
  view := hr.view
  confirmedTrans := by rw [hkept.confirmedTrans, ht.confirmedTrans, h.confirmedTrans]
  latency := by rw [hkept.latency, ht.latency, h.latency]
  timer := by
    rw [hkept.viewChangeTimer, ht.viewChangeTimer]
    exact h.timer
  phase := hr.phase
  slot := hr.slot

theorem Leads.of_working {c : PBFTConsensus} {leads : Prop} {t r : Local} (h : Leads cfg k c) (hleads : leads)
    (ht : Carried c leads t) (hkept : Untouched t.toPBFTConsensus r.toPBFTConsensus) :
    Leads cfg k r.toPBFTConsensus where
  unhandledRequests := by rw [hkept.unhandledRequests, ht.unhandledRequests hleads, h.unhandledRequests]
  currentClientRequestId := by
    rw [hkept.currentClientRequestId, ht.currentClientRequestId, h.currentClientRequestId]

theorem sends_nothing {type : PhaseType} {voters : InterfaceId → Prop} (hp : ¬ voters p) :
    Sends cfg k type voters p [] where
  source := fun _ hpkt => absurd hpkt List.not_mem_nil
  phases := fun _ hpkt => absurd hpkt List.not_mem_nil
  all := fun h => absurd h hp
  requests := fun _ hpkt => absurd hpkt List.not_mem_nil

theorem sends_vote (hfree : ∀ q, cfg.Honest q) {type : PhaseType} {voters : InterfaceId → Prop} (hp : voters p) :
    Sends cfg k type voters p (packets (nextCtx cfg s p) (.phase (votes k (request cfg k) type p))) where
  source := fun pkt hpkt => ((mem_packets_of_no_fault (nextCtx cfg s p) (hfree p)).mp hpkt).1
  phases := by
    intro pkt hpkt m hm
    have hmessage := ((mem_packets_of_no_fault (nextCtx cfg s p) (hfree p)).mp hpkt).2.2
    exact ⟨hp, Message.phase.inj (hm.symm.trans hmessage)⟩
  all := fun _ q hq => (mem_packets_of_no_fault (nextCtx cfg s p) (hfree p)).mpr ⟨rfl, hq, rfl⟩
  requests := by
    intro pkt hpkt req hreq
    have hmessage := ((mem_packets_of_no_fault (nextCtx cfg s p) (hfree p)).mp hpkt).2.2
    exact absurd (hreq.symm.trans hmessage) (by simp)

variable (hfree : ∀ q, cfg.Honest q) (hsize : 4 ≤ cfg.committee.size) (hfuel : 2 ≤ fuel)
include hfree hsize hfuel

theorem Proposed.next (h : Proposed cfg k s) (hfits : schedule.Fits cfg s.fresh) :
    ∃ s', step cfg fuel s schedule = some s' ∧ Prepared cfg k s' := by
  have hround : s.round + 1 ≤ 3 * k + 4 := by
    have hround := h.round
    omega
  have hleader : cfg.leaderFor 0 ∈ cfg.committee.members := (crowded (s := s) (p := 0) hsize).leader
  obtain ⟨s', hstep, hround', hall, hfresh⟩ := advance (k := k) fuel .prepare (Backup cfg)
    (fun p c => Replica cfg k .prepare (Ballots k (request cfg k) (cfg.leaderFor 0)
      (fun z => z = p ∧ z ≠ cfg.leaderFor 0) fun _ => False) c ∧ (p = cfg.leaderFor 0 → Leads cfg k c))
    hfits (fun z hz => hz.1) fun p hp => by
      have hreplica := h.replica p hp
      obtain ⟨t, ht, hworking, hcarried⟩ := hreplica.received hround h.fresh hfits hp
      have hcrowded := crowded (s := s) (p := p) hsize
      by_cases hself : p = cfg.leaderFor 0
      · rw [if_pos hself] at hworking hreplica
        have hslot := hworking.congr (Ballots k (request cfg k) (cfg.leaderFor 0)
            (fun z => z = p ∧ z ≠ cfg.leaderFor 0) fun _ => False) fun m => by
          rw [hself]
          unfold Ballots
          simp
        obtain ⟨r, hends, hr, hkept, houtbox⟩ := waits hslot fun t hcheckpoint ht =>
          call_waits_prepare hcheckpoint ht (hcrowded.not_quorum_lt (p := p) fun z hz =>
            ((mem_senders_prepare ht.slot).mp hz).1)
        refine ⟨r, ?_, ⟨hreplica.of_working hcarried hkept hr, fun _ => ?_⟩, ?_⟩
        · unfold performComputation
          rw [ht]
          exact hends fuel (by omega)
        · exact (hself ▸ h.leads).of_working hself hcarried hkept
        · rw [houtbox, hcarried.outbox]
          exact sends_nothing fun hbackup => hbackup.2 hself
      · rw [if_neg hself] at hworking hreplica
        have hslot := hworking.congr (Ballots k (request cfg k) (cfg.leaderFor 0)
            (fun _ => False) fun _ => False) fun m => by
          unfold Ballots
          simp [hself, Ne.symm hself]
        obtain ⟨r, hends, hr, hkept, houtbox⟩ := prepares hcrowded hself hslot
        have hr' := hr.congr (Ballots k (request cfg k) (cfg.leaderFor 0)
            (fun z => z = p ∧ z ≠ cfg.leaderFor 0) fun _ => False) fun m => by
          apply Ballots.congr
          · intro z
            exact ⟨fun hz => ⟨hz, hz ▸ hself⟩, fun hz => hz.1⟩
          · simp
        refine ⟨r, ?_, ⟨hreplica.of_working hcarried hkept hr', fun heq => absurd heq hself⟩, ?_⟩
        · unfold performComputation
          rw [ht]
          exact hends fuel hfuel
        · rw [houtbox, hcarried.outbox, List.nil_append]
          exact sends_vote hfree ⟨hp, hself⟩
  refine ⟨s', hstep, ?_, fun p hp => (hall p hp).1, (hall _ hleader).2 rfl, hfresh⟩
  rw [hround', h.round]

theorem Prepared.next (h : Prepared cfg k s) (hfits : schedule.Fits cfg s.fresh) :
    ∃ s', step cfg fuel s schedule = some s' ∧ Committed cfg k s' := by
  have hround : s.round + 1 ≤ 3 * k + 4 := by
    have hround := h.round
    omega
  have hleader : cfg.leaderFor 0 ∈ cfg.committee.members := (crowded (s := s) (p := 0) hsize).leader
  obtain ⟨s', hstep, hround', hall, hfresh⟩ := advance (k := k) fuel .commit (· ∈ cfg.committee.members)
    (fun p c => Replica cfg k .commit (Ballots k (request cfg k) (cfg.leaderFor 0) (Backup cfg) (· = p)) c ∧
      (p = cfg.leaderFor 0 → Leads cfg k c)) hfits (fun z hz => hz) fun p hp => by
      have hreplica := h.replica p hp
      obtain ⟨t, ht, hworking, hcarried⟩ := hreplica.received hround h.fresh hfits hp
      have hslot := hworking.congr (Ballots k (request cfg k) (cfg.leaderFor 0) (Backup cfg)
          fun _ => False) fun m => by
        rw [Ballots.prepare]
        apply Ballots.congr
        · intro z
          constructor
          · intro hz
            rcases hz with ⟨rfl, hne⟩ | hz
            · exact ⟨hp, hne⟩
            · exact hz.1
          · intro hz
            by_cases hzp : z = p
            · exact .inl ⟨hzp, hz.2⟩
            · exact .inr ⟨hz, hzp⟩
        · simp
      obtain ⟨r, hends, hr, hkept, houtbox⟩ := commits (crowded hsize) hslot
      refine ⟨r, ?_, ⟨hreplica.of_working hcarried hkept hr, fun hself => ?_⟩, ?_⟩
      · unfold performComputation
        rw [ht]
        exact hends fuel hfuel
      · exact (hself ▸ h.leads).of_working hself hcarried hkept
      · rw [houtbox, hcarried.outbox, List.nil_append]
        exact sends_vote hfree hp
  refine ⟨s', hstep, ?_, fun p hp => (hall p hp).1, (hall _ hleader).2 rfl, hfresh⟩
  rw [hround', h.round]

omit hsize hfuel in
theorem sends_proposal {pkts : List (Packet Message)} (hpkts : CheckpointPackets p pkts)
    (hself : p = cfg.leaderFor 0) :
    Sends cfg k .prePrepare (· = cfg.leaderFor 0) p (pkts ++
      packets (nextCtx cfg s p) (.request (request cfg k)) ++
      packets (nextCtx cfg s p) (.phase (votes k (request cfg k) .prePrepare p))) := by
  have hvote : Sends cfg k .prePrepare (· = cfg.leaderFor 0) p (packets (nextCtx cfg s p) _) := sends_vote hfree hself
  have hrequest : ∀ pkt, pkt ∈ packets (nextCtx cfg s p) (.request (request cfg k)) ↔ _ := fun pkt =>
    mem_packets_of_no_fault (nextCtx cfg s p) (hfree p)
  refine ⟨fun pkt hpkt => ?_, fun pkt hpkt m hm => ?_, fun hp q hq => ?_, fun _ _ _ _ => hself⟩
  · rcases List.mem_append.mp hpkt with hpkt | hpkt
    · rcases List.mem_append.mp hpkt with hpkt | hpkt
      · exact (hpkts pkt hpkt).1
      · exact ((hrequest pkt).mp hpkt).1
    · exact hvote.source pkt hpkt
  · rcases List.mem_append.mp hpkt with hpkt | hpkt
    · rcases List.mem_append.mp hpkt with hpkt | hpkt
      · obtain ⟨-, c, hc⟩ := hpkts pkt hpkt
        exact absurd (hm.symm.trans hc) (by simp)
      · exact absurd (hm.symm.trans ((hrequest pkt).mp hpkt).2.2) (by simp)
    · exact hvote.phases pkt hpkt m hm
  · exact List.mem_append_right _ (hvote.all hp q hq)

omit hfree hsize hfuel in
theorem sends_checkpoints {pkts : List (Packet Message)} (hpkts : CheckpointPackets p pkts)
    (hself : p ≠ cfg.leaderFor 0) : Sends cfg k .prePrepare (· = cfg.leaderFor 0) p pkts where
  source := fun pkt hpkt => (hpkts pkt hpkt).1
  phases := by
    intro pkt hpkt m hm
    obtain ⟨-, c, hc⟩ := hpkts pkt hpkt
    exact absurd (hm.symm.trans hc) (by simp)
  all := fun h => absurd h hself
  requests := by
    intro pkt hpkt req hreq
    obtain ⟨-, c, hc⟩ := hpkts pkt hpkt
    exact absurd (hreq.symm.trans hc) (by simp)

structure Turned (cfg : Config) (k : Nat) (p : InterfaceId) (t : Local) : Prop where
  confirmedTrans : t.confirmedTrans = (List.range k).map (request cfg)
  latency : t.latency = 3 * k
  timer : 3 * k + 4 ≤ t.viewChangeTimer
  outbox : CheckpointPackets p t.outbox
  leads : p = cfg.leaderFor 0 → t.unhandledRequests = [] ∧ t.currentClientRequestId = k

omit hsize hfuel in
theorem Turned.opens {t : Local} (h : Turned cfg k p t) (hround : s.round + 1 = 3 * k + 1)
    (hworking : Working (nextCtx cfg s p) t.toPBFTConsensus k .prePrepare fun _ => False) :
    ∃ r, EndsIn (nextCtx cfg s p) 1 t r ∧
      (Replica cfg k (if p = cfg.leaderFor 0 then .prepare else .prePrepare) (fun m => p = cfg.leaderFor 0 ∧
        Ballots k (request cfg k) (cfg.leaderFor 0) (fun _ => False) (fun _ => False) m) r.toPBFTConsensus ∧
      (p = cfg.leaderFor 0 → Leads cfg k r.toPBFTConsensus)) ∧
      Sends cfg k .prePrepare (· = cfg.leaderFor 0) p r.outbox := by
  by_cases hself : p = cfg.leaderFor 0
  · obtain ⟨hqueue, hcounter⟩ := h.leads hself
    have hnew : newRequest (nextCtx cfg s p) t.toPBFTConsensus = request cfg k := by
      unfold newRequest request
      rw [hcounter, ← hround, ← hself]
      rfl
    obtain ⟨r, hends, hr, hconfirmed, hlatency, htimer, hqueue', hcounter', houtbox⟩ :=
      proposes hself hworking hqueue
    rw [hnew] at hr hqueue' houtbox
    refine ⟨r, hends, ⟨⟨hr.view, hconfirmed.trans h.confirmedTrans, hlatency.trans h.latency, ?_, ?_, ?_⟩,
      fun _ => ⟨?_, ?_⟩⟩, ?_⟩
    · rw [htimer]
      exact h.timer
    · rw [if_pos hself]
      exact hr.phase
    · apply hr.slot.congr
      intro m
      exact (and_iff_right hself).symm
    · rw [hqueue', ← hround]
      rfl
    · rw [hcounter', hcounter]
    · rw [houtbox]
      exact sends_proposal hfree h.outbox hself
  · obtain ⟨r, hends, hr, hkept, houtbox⟩ := waits hworking fun t hcheckpoint ht =>
      call_waits_prePrepare hcheckpoint ht hself
    refine ⟨r, hends, ⟨⟨hr.view, hkept.confirmedTrans.trans h.confirmedTrans, hkept.latency.trans h.latency,
      ?_, ?_, ?_⟩, fun heq => absurd heq hself⟩, ?_⟩
    · rw [hkept.viewChangeTimer]
      exact h.timer
    · rw [if_neg hself]
      exact hr.phase
    · apply hr.slot.congr
      intro m
      simp [hself]
    · rw [houtbox]
      exact sends_checkpoints h.outbox hself

theorem Committed.next (h : Committed cfg k s) (hfits : schedule.Fits cfg s.fresh) :
    ∃ s', step cfg fuel s schedule = some s' ∧ Proposed cfg (k + 1) s' := by
  have hround : s.round + 1 = 3 * (k + 1) + 1 := by
    have hround := h.round
    omega
  have hleader : cfg.leaderFor 0 ∈ cfg.committee.members := (crowded (s := s) (p := 0) hsize).leader
  obtain ⟨s', hstep, hround', hall, hfresh⟩ := advance (k := k + 1) fuel .prePrepare (· = cfg.leaderFor 0)
    (fun p c => Replica cfg (k + 1) (if p = cfg.leaderFor 0 then .prepare else .prePrepare)
      (fun m => p = cfg.leaderFor 0 ∧
        Ballots (k + 1) (request cfg (k + 1)) (cfg.leaderFor 0) (fun _ => False) (fun _ => False) m) c ∧
      (p = cfg.leaderFor 0 → Leads cfg (k + 1) c)) hfits (fun z hz => hz ▸ hleader) fun p hp => by
      have hreplica := h.replica p hp
      obtain ⟨t, ht, hworking, hcarried⟩ := hreplica.received (by omega) h.fresh hfits hp
      have hslot := hworking.congr (Ballots k (request cfg k) (cfg.leaderFor 0) (Backup cfg)
          (· ∈ cfg.committee.members)) fun m => by
        rw [Ballots.commit]
        apply Ballots.congr
        · simp
        · intro z
          constructor
          · intro hz
            rcases hz with rfl | hz
            · exact hp
            · exact hz.1
          · intro hz
            by_cases hzp : z = p
            · exact .inl hzp
            · exact .inr ⟨hz, hzp⟩
      obtain ⟨t', hcall, hworking', s₀, hkept, houtbox, hdecided⟩ := decides (crowded hsize) (hfree p) hslot
      have hturned : Turned cfg (k + 1) p t' := by
        refine ⟨?_, ?_, ?_, ?_, fun hself => ?_⟩
        · rw [hdecided.confirmedTrans, hkept.confirmedTrans, hcarried.confirmedTrans, hreplica.confirmedTrans,
            List.range_succ, List.map_append]
          rfl
        · rw [hdecided.latency, hkept.latency, hcarried.latency, hreplica.latency]
          show (3 * k : Int) + (((s.round + 1 : Nat) : Int) - ((3 * k + 1 : Nat) : Int)) = 3 * ((k + 1 : Nat) : Int)
          rw [hround]
          push_cast
          ring
        · rw [hdecided.timer]
          show 3 * (k + 1) + 4 ≤ s.round + 1 + 10
          omega
        · obtain ⟨pkts, hpkts, hcheckpoints⟩ := hdecided.outbox
          rw [hpkts, houtbox, hcarried.outbox, List.nil_append]
          exact hcheckpoints
        · have hleads : Leads cfg k (s.peers p) := hself ▸ h.leads
          rw [hdecided.unhandledRequests, hdecided.currentClientRequestId, hkept.unhandledRequests,
            hkept.currentClientRequestId, hcarried.unhandledRequests hself, hcarried.currentClientRequestId,
            hleads.unhandledRequests, hleads.currentClientRequestId]
          simp [eraseRequest]
      obtain ⟨r, hends, hr, hsends⟩ := hturned.opens hfree hround hworking'
      refine ⟨r, ?_, hr, hsends⟩
      unfold performComputation
      rw [ht]
      exact hends.next hcall fuel hfuel
  refine ⟨s', hstep, ?_, fun p hp => (hall p hp).1, (hall _ hleader).2 rfl, hfresh⟩
  rw [hround', hround]

theorem initial_next (hfits : schedule.Fits cfg initial.fresh) :
    ∃ s', step cfg fuel initial schedule = some s' ∧ Proposed cfg 0 s' := by
  have hleader : cfg.leaderFor 0 ∈ cfg.committee.members := (crowded (s := initial) (p := 0) hsize).leader
  obtain ⟨s', hstep, hround', hall, hfresh⟩ := advance (s := initial) (k := 0) fuel .prePrepare (· = cfg.leaderFor 0)
    (fun p c => Replica cfg 0 (if p = cfg.leaderFor 0 then .prepare else .prePrepare)
      (fun m => p = cfg.leaderFor 0 ∧
        Ballots 0 (request cfg 0) (cfg.leaderFor 0) (fun _ => False) (fun _ => False) m) c ∧
      (p = cfg.leaderFor 0 → Leads cfg 0 c)) hfits (fun z hz => hz ▸ hleader) fun p hp => by
      have hempty : schedule.inStream p = [] := by
        apply List.eq_nil_iff_forall_not_mem.mpr
        intro m hm
        obtain ⟨z, -, hmem⟩ := (hfits.mem_inStream hp).mp hm
        exact absurd hmem List.not_mem_nil
      have hturned : Turned cfg 0 p (initial.toSystem.start p) :=
        ⟨rfl, rfl, by show 4 ≤ 10; omega, fun pkt hpkt => absurd hpkt List.not_mem_nil, fun _ => ⟨rfl, rfl⟩⟩
      have hworking : Working (nextCtx cfg initial p) (initial.toSystem.start p).toPBFTConsensus 0 .prePrepare
          fun _ => False :=
        ⟨rfl, rfl, by show 1 ≤ 10; omega, rfl, fun m => ⟨fun hm => absurd hm.1 List.not_mem_nil, False.elim⟩⟩
      obtain ⟨r, hends, hr, hsends⟩ := hturned.opens hfree (s := initial) rfl hworking
      refine ⟨r, ?_, hr, hsends⟩
      unfold performComputation
      rw [hempty]
      exact hends fuel (by omega)
  exact ⟨s', hstep, hround', fun p hp => (hall p hp).1, (hall _ hleader).2 rfl, hfresh⟩

/-! ## Whole runs -/

omit hfree hsize hfuel in
def OnCourse (cfg : Config) (s : Lockstep) : Prop :=
  s = initial ∨ ∃ k, Proposed cfg k s ∨ Prepared cfg k s ∨ Committed cfg k s

theorem OnCourse.next (h : OnCourse cfg s) (hfits : schedule.Fits cfg s.fresh) :
    ∃ s', step cfg fuel s schedule = some s' ∧ OnCourse cfg s' := by
  rcases h with rfl | ⟨k, h | h | h⟩
  · obtain ⟨s', hstep, h'⟩ := initial_next hfree hsize hfuel hfits
    exact ⟨s', hstep, .inr ⟨0, .inl h'⟩⟩
  · obtain ⟨s', hstep, h'⟩ := Proposed.next hfree hsize hfuel h hfits
    exact ⟨s', hstep, .inr ⟨k, .inr (.inl h')⟩⟩
  · obtain ⟨s', hstep, h'⟩ := Prepared.next hfree hsize hfuel h hfits
    exact ⟨s', hstep, .inr ⟨k, .inr (.inr h')⟩⟩
  · obtain ⟨s', hstep, h'⟩ := Committed.next hfree hsize hfuel h hfits
    exact ⟨s', hstep, .inr ⟨k + 1, .inl h'⟩⟩

theorem onCourse_of_reached (h : (lockstep cfg fuel).Reached s) : OnCourse cfg s := by
  apply h.invariant
  · intro s hs
    exact .inl hs
  intro s schedule s' ih _ hstep
  change step cfg fuel s schedule = some s' at hstep
  have hfits : schedule.Fits cfg s.fresh := by
    by_contra hfits
    unfold step at hstep
    rw [if_neg hfits] at hstep
    cases hstep
  obtain ⟨s₁, hstep₁, hnext⟩ := ih.next hfree hsize hfuel hfits
  exact Option.some.inj (hstep₁.symm.trans hstep) ▸ hnext

omit hfree hsize hfuel in
theorem OnCourse.progress (h : OnCourse cfg s) (hp : p ∈ cfg.committee.members) :
    (s.peers p).confirmedTrans = (List.range ((s.round - 1) / 3)).map (request cfg) ∧
      (s.peers p).latency = 3 * (((s.round - 1) / 3 : Nat) : Int) ∧ (s.peers p).view = 0 := by
  have hstage : ∀ {k round : Nat} {type : PhaseType} {voters : InterfaceId → Prop} {phase : InterfaceId → Phase}
      {slot : InterfaceId → PhaseMessage → Prop}, Stage cfg k round type voters phase slot s →
      (round - 1) / 3 = k → (s.peers p).confirmedTrans = (List.range ((s.round - 1) / 3)).map (request cfg) ∧
        (s.peers p).latency = 3 * (((s.round - 1) / 3 : Nat) : Int) ∧ (s.peers p).view = 0 := by
    intro k round type voters phase slot hstage hk
    have hreplica := hstage.replica p hp
    rw [hstage.round, hk]
    exact ⟨hreplica.confirmedTrans, hreplica.latency, hreplica.view⟩
  rcases h with rfl | ⟨k, h | h | h⟩
  · exact ⟨rfl, rfl, rfl⟩
  · exact hstage h (by omega)
  · exact hstage h (by omega)
  · exact hstage h (by omega)

end Lockstep

theorem endOfRound_of_uniform {cs : List PBFTConsensus} (hne : cs ≠ []) {n : Nat} (requests : List ClientRequest)
    (hlength : requests.length = n) (hflip : ∀ req ∈ requests, req.faultFlip = false)
    (hall : ∀ c ∈ cs, c.confirmedTrans = requests ∧ c.latency = 3 * (n : Int)) :
    endOfRound cs = { latency := if 0 < n then 3 else 0, faultyConfirmed := 0, throughput := n } := by
  have hpos : 0 < cs.length := List.length_pos_of_ne_nil hne
  have hposq : (0 : ℚ) < cs.length := by exact_mod_cast hpos
  have hlengths : cs.map (fun c => c.confirmedTrans.length) = List.replicate cs.length n := by
    apply List.eq_replicate_iff.mpr
    refine ⟨List.length_map _, fun x hx => ?_⟩
    obtain ⟨c, hc, rfl⟩ := List.mem_map.mp hx
    rw [(hall c hc).1, hlength]
  have hlatencies : cs.map (fun c => c.latency) = List.replicate cs.length (3 * (n : Int)) := by
    apply List.eq_replicate_iff.mpr
    refine ⟨List.length_map _, fun x hx => ?_⟩
    obtain ⟨c, hc, rfl⟩ := List.mem_map.mp hx
    exact (hall c hc).2
  have hfaulty : cs.map (fun c => c.confirmedTrans.countP fun trans => trans.faultFlip) =
      List.replicate cs.length 0 := by
    apply List.eq_replicate_iff.mpr
    refine ⟨List.length_map _, fun x hx => ?_⟩
    obtain ⟨c, hc, rfl⟩ := List.mem_map.mp hx
    rw [(hall c hc).1, List.countP_eq_zero]
    intro req hreq
    rw [hflip req hreq]
    simp
  unfold endOfRound
  dsimp only
  rw [hlengths, hlatencies, hfaulty, List.sum_replicate, List.sum_replicate, List.sum_replicate]
  simp only [smul_eq_mul, nsmul_eq_mul, mul_zero]
  by_cases hn : 0 < n
  · have hnq : (0 : ℚ) < n := by exact_mod_cast hn
    rw [if_pos (Nat.mul_pos hpos hn), if_pos hn]
    push_cast
    congr 1
    · field_simp
    · simp
    · field_simp
  · obtain rfl : n = 0 := by omega
    simp

namespace Lockstep
variable {cfg : Config} {fuel : Nat} {s : Lockstep}

/-- **One request in every three rounds.** Four or more replicas without faults in lock-step, in whatever order
they move and take their messages: after so many rounds all have confirmed the same requests of the first leader,
one for every three rounds, each three rounds after its submission, and none has left view 0. The report says so,
no round gets stuck, and the state is one that some interleaving reaches. -/
theorem decides_every_third_round (hfree : ∀ q, cfg.Honest q) (hsize : 4 ≤ cfg.committee.size) (hfuel : 2 ≤ fuel)
    (h : (lockstep cfg fuel).Reached s) :
    (∀ p ∈ cfg.committee.members,
      (s.peers p).confirmedTrans = (List.range ((s.round - 1) / 3)).map (request cfg) ∧ (s.peers p).view = 0) ∧
    endOfRound (cfg.committee.members.map s.peers) =
      { latency := if 4 ≤ s.round then 3 else 0
        faultyConfirmed := 0
        throughput := ((s.round - 1) / 3 : Nat) } ∧
    (∀ schedule : Schedule, schedule.Fits cfg s.fresh → ∃ s', (lockstep cfg fuel).step s schedule = some s') ∧
    (machine cfg).Reached s.toSystem := by
  have hcourse := onCourse_of_reached hfree hsize hfuel h
  refine ⟨fun p hp => ?_, ?_, fun schedule hfits => ?_, (reached_machine h).1⟩
  · obtain ⟨hconfirmed, -, hview⟩ := hcourse.progress hp
    exact ⟨hconfirmed, hview⟩
  · have hne : cfg.committee.members.map s.peers ≠ [] := by
      intro hnil
      have hzero := congrArg List.length hnil
      rw [List.length_map] at hzero
      change cfg.committee.size = 0 at hzero
      omega
    rw [endOfRound_of_uniform hne (n := (s.round - 1) / 3) ((List.range ((s.round - 1) / 3)).map (request cfg))
      (by simp) (by simp [request]) fun c hc => by
        obtain ⟨p, hp, rfl⟩ := List.mem_map.mp hc
        obtain ⟨hconfirmed, hlatency, -⟩ := hcourse.progress hp
        exact ⟨hconfirmed, hlatency⟩]
    have hiff : 0 < (s.round - 1) / 3 ↔ 4 ≤ s.round := by omega
    simp only [hiff]
  · obtain ⟨s', hstep, -⟩ := hcourse.next hfree hsize hfuel hfits
    exact ⟨s', hstep⟩

def fourInStep : Config := System.committeeOf 4 fun _ => none

/-- Four replicas that move and take their messages in the order of their ids. -/
def inOrder (fresh : List (Packet Message)) : Schedule where
  order := [0, 1, 2, 3]
  inStream := arrivals fresh

def rounds : Nat → Lockstep → Option Lockstep
  | 0, s => some s
  | n + 1, s => (step fourInStep 2 s (inOrder s.fresh)).bind (rounds n)

theorem rounds_reached {n : Nat} {s s' : Lockstep} (hs : (lockstep fourInStep 2).Reached s)
    (h : rounds n s = some s') : (lockstep fourInStep 2).Reached s' := by
  induction n generalizing s with
  | zero => exact Option.some.inj h ▸ hs
  | succ n ih =>
    obtain ⟨t, ht, hrest⟩ := Option.bind_eq_some_iff.mp h
    exact ih (.next hs trivial ht) hrest

theorem decides_every_third_round_seven : ∃ s, (lockstep fourInStep 2).Reached s ∧ s.round = 7 ∧
    (s.peers 2).confirmedTrans = [⟨0, 0, 1, false⟩, ⟨1, 0, 4, false⟩] := by
  have hrun : (rounds 7 initial).map (fun s => s.round) = some 7 := by
    decide +kernel
  obtain ⟨s, hs, hround⟩ := Option.map_eq_some_iff.mp hrun
  have hreached := rounds_reached (.start rfl) hs
  have hfree : ∀ q, fourInStep.Honest q := fun _ => rfl
  obtain ⟨hconfirmed, -⟩ := (decides_every_third_round hfree (by decide) le_rfl hreached).1 2 (by decide)
  refine ⟨s, hreached, hround, ?_⟩
  rw [hconfirmed, hround]
  decide

end Lockstep

end Quantas.Pbft
