import Quantas.Raft.Steady

/-!
# Raft in lock-step

The rounds of a whole committee: before the first request (`Waiting`), while the leader's request is on its way to
the others (`Asked`), and while their answers are on their way back (`Answered`). Each stage is followed by the
next, so the leader confirms a request in every second round (`confirms_every_second_round`).
-/

namespace Quantas.Raft

variable {cfg : Config} {jitter : InterfaceId → Int} {draws : InterfaceId → Nat → List Nat}

/-! ## The packets of a round -/

def Forwards (out : List (Packet Message)) : Prop :=
  ∀ pkt ∈ out, pkt.target = 0 ∧ ∃ request, pkt.message = .clientRequest request

theorem mem_toMembers {sys : System} {msg : Message} {pkt : Packet Message} :
    pkt ∈ toMembers (sys.ctx cfg 0) msg ↔
      pkt.source = 0 ∧ pkt.message = msg ∧ pkt.target ∈ cfg.committee.members ∧ pkt.target ≠ 0 := by
  unfold toMembers
  rw [List.mem_map]
  constructor
  · intro h
    obtain ⟨dest, hdest, rfl⟩ := h
    obtain ⟨hdest, hneighbor⟩ := List.mem_filter.mp hdest
    exact ⟨rfl, rfl, hdest, (System.mem_neighbors.mp (of_decide_eq_true hneighbor)).2⟩
  · intro h
    obtain ⟨source, target, message⟩ := pkt
    obtain ⟨rfl, rfl, hdest, hne⟩ := h
    exact ⟨target, List.mem_filter.mpr ⟨hdest, decide_eq_true (System.mem_neighbors.mpr ⟨hdest, hne⟩)⟩, rfl⟩

theorem filter_toMembers {sys : System} (msg : Message) {p : InterfaceId} (hp : p ∈ cfg.committee.members) (hne : p ≠ 0) :
    (toMembers (sys.ctx cfg 0) msg).filter (fun pkt => decide (pkt.target = p)) = [⟨0, p, msg⟩] := by
  have hneighbors : cfg.committee.members.filter (· ∈ (sys.ctx cfg 0).neighbors) =
      cfg.committee.members.filter (· ≠ 0) := by
    apply List.filter_congr
    intro q hq
    apply decide_eq_decide.mpr
    rw [System.mem_neighbors]
    exact and_iff_right hq
  have hmem : p ∈ cfg.committee.members.filter (· ≠ 0) := List.mem_filter.mpr ⟨hp, decide_eq_true hne⟩
  unfold toMembers
  rw [List.filter_map, System.ctx_members, hneighbors]
  change List.map _ ((cfg.committee.members.filter (· ≠ 0)).filter fun q => decide (q = p)) = _
  rw [List.filter_eq, List.count_eq_one_of_mem (cfg.committee.nodup.filter _) hmem]
  rfl

/-! ## The outcome of a round -/

section Network
variable (R : Lib.Lossy.Rounds (protocol cfg jitter draws))

/-- The system in which round `r` begins. -/
def systemAt (r : Nat) : System := asSystem (R.net r)

/-- What the computation of peer `p` in a round ends in. -/
def outcome (r : Nat) (p : InterfaceId) : Local :=
  drainAndTick ((systemAt R r).ctx cfg p) ((R.inStream r p).map (·.message)) ((systemAt R r).start p (draws p r))

variable {R}

theorem systemAt_round (r : Nat) : (systemAt R r).round = r + 1 :=
  congrArg (· + 1) (R.time cfg.committee.nodup r)

theorem nodes_succ {p : InterfaceId} (hp : p ∈ cfg.committee.members) (r : Nat) :
    (R.net (r + 1)).nodes p = (outcome R r p).toRaftConsensus := by
  have hnode := R.node cfg.committee.nodup hp r
  have hround := systemAt_round (R := R) r
  unfold outcome System.ctx
  rw [hround]
  exact hnode

theorem sends_outcome (r : Nat) (p : InterfaceId) : R.sends r p = (outcome R r p).outbox := by
  have hround := systemAt_round (R := R) r
  unfold outcome System.ctx
  rw [hround]
  rfl

theorem systemAt_reached (hjitter : ∀ p, 0 ≤ jitter p ∧ jitter p < 5) (r : Nat) (p : InterfaceId) :
    (machine cfg).Reached ((systemAt R r).after p ((systemAt R r).start p (draws p r))) := by
  rw [System.after_start]
  exact asSystem_reached hjitter (R.reached r)

theorem received_sent {p : InterfaceId} (hp : p ∈ cfg.committee.members) (r : Nat) :
    ∀ pkt ∈ R.inStream r p, pkt ∈ (systemAt R r).sent ∧ pkt.target = p :=
  fun pkt hpkt => ⟨R.earlier r p hp pkt hpkt, R.accepted cfg.committee.nodup hp hpkt⟩

/-! ## The stages -/

variable (R)

structure Waiting (r : Nat) : Prop where
  leader : Idle cfg ((R.net r).nodes 0)
  followers : ∀ p ∈ cfg.committee.members, p ≠ 0 → Steady cfg [] 100 ((R.net r).nodes p)
  toLeader : ∀ pkt ∈ R.inStream r 0, ∃ request, pkt.message = .clientRequest request
  toFollowers : ∀ p ∈ cfg.committee.members, p ≠ 0 → R.inStream r p = []

/-- Round `r` has put `K` into flight, and has confirmed `last`. -/
structure Asked (r : Nat) (K : Request) (seen : List Confirmation) (last : Option Confirmation) : Prop where
  leader : Awaits cfg K [] (seen ++ last.toList) r ((R.net r).nodes 0)
  announceable : Announceable (seen ++ last.toList)
  followers : ∀ p ∈ cfg.committee.members, p ≠ 0 → Steady cfg seen 0 ((R.net r).nodes p)
  toLeader : ∀ pkt ∈ R.inStream r 0, ∃ request, pkt.message = .clientRequest request
  toFollowers : ∀ p ∈ cfg.committee.members, p ≠ 0 →
    ((R.inStream r p).map (·.message)).Perm (last.toList.map commitMessage ++ [.request K 0 0])

/-- All have answered `K`, which is in flight since round `r`. -/
structure Answered (r : Nat) (K : Request) (confirmed : List Confirmation) : Prop where
  leader : Awaits cfg K [] confirmed r ((R.net (r + 1)).nodes 0)
  announceable : Announceable confirmed
  followers : ∀ p ∈ cfg.committee.members, p ≠ 0 →
    Steady cfg confirmed (r + 1 + cfg.timeoutSpacing) ((R.net (r + 1)).nodes p)
  answers : Answers cfg K (R.inStream (r + 1) 0)
  all : ∀ q ∈ cfg.committee.members, q ≠ 0 → ∃ pkt ∈ R.inStream (r + 1) 0, ∃ termNum submitted,
    pkt.message = .respondRequest K q termNum submitted
  toFollowers : ∀ p ∈ cfg.committee.members, p ≠ 0 → R.inStream (r + 1) p = []

variable {R}

section Delivery
variable (hlock : R.LockStep) (hmember : 0 ∈ cfg.committee.members)
include hlock hmember

theorem toLeader_sent {r : Nat} (hleader : ∀ pkt ∈ R.sends r 0, pkt.target ≠ 0) {pkt : Packet Message}
    (hpkt : pkt ∈ R.inStream (r + 1) 0) : ∃ p ∈ cfg.committee.members, p ≠ 0 ∧ pkt ∈ R.sends r p := by
  obtain ⟨⟨p, hp, hsent⟩, htarget⟩ := (hlock.mem_inStream hmember).mp hpkt
  refine ⟨p, hp, ?_, hsent⟩
  intro hzero
  subst hzero
  exact hleader pkt hsent htarget

theorem toFollower_perm {r : Nat}
    (hfollowers : ∀ p ∈ cfg.committee.members, p ≠ 0 → ∀ pkt ∈ R.sends r p, pkt.target = 0) {p : InterfaceId}
    (hp : p ∈ cfg.committee.members) (hne : p ≠ 0) :
    (R.inStream (r + 1) p).Perm ((R.sends r 0).filter fun pkt => decide (pkt.target = p)) := by
  apply hlock.inStream_of_one cfg.committee.nodup hp hmember
  intro q hq hqne pkt hpkt htarget
  exact hne (htarget.symm.trans (hfollowers q hq hqne pkt hpkt))

end Delivery

theorem follower_rests {r : Nat} {p : InterfaceId} {confirmed : List Confirmation} {deadline : Int} (hne : p ≠ 0)
    (hnone : R.inStream r p = []) (hround : (r : Int) + 1 < deadline)
    (h : Steady cfg confirmed deadline ((R.net r).nodes p)) :
    Steady cfg confirmed deadline (outcome R r p).toRaftConsensus ∧ Forwards (outcome R r p).outbox := by
  have hdeadline : ((systemAt R r).ctx cfg p).round < deadline := by
    change (((systemAt R r).round : Nat) : Int) < deadline
    rw [systemAt_round]
    exact hround
  obtain ⟨hsteady, out, hout, hforwards⟩ := Steady.tick (s := (systemAt R r).start p (draws p r)) hne h hdeadline
  unfold outcome
  rw [hnone]
  refine ⟨hsteady, ?_⟩
  have houtbox : (drainAndTick ((systemAt R r).ctx cfg p) [] ((systemAt R r).start p (draws p r))).outbox = out := hout
  rw [List.map_nil, houtbox]
  exact hforwards

/-! ## One stage after the other -/

section Stages
variable (hlock : R.LockStep) (hmember : 0 ∈ cfg.committee.members)
include hlock hmember

theorem asked_of_launched {r : Nat} {K : Request} {seen : List Confirmation} {last : Option Confirmation}
    (hlaunched : Launched cfg ((systemAt R r).ctx cfg 0) K (seen ++ last.toList)
      (last.toList.flatMap fun c => toMembers ((systemAt R r).ctx cfg 0) (commitMessage c)) (outcome R r 0))
    (hannounceable : Announceable (seen ++ last.toList))
    (hfollowers : ∀ p ∈ cfg.committee.members, p ≠ 0 →
      Steady cfg seen 0 (outcome R r p).toRaftConsensus ∧ Forwards (outcome R r p).outbox) :
    Asked R (r + 1) K seen last := by
  have hsent := hlaunched.outbox
  rw [← sends_outcome] at hsent
  have hround : ((systemAt R r).ctx cfg 0).round = ((r + 1 : Nat) : Int) := by
    change (((systemAt R r).round : Nat) : Int) = _
    rw [systemAt_round]
  have hothers : ∀ p ∈ cfg.committee.members, p ≠ 0 → Forwards (R.sends r p) := by
    intro p hp hne
    rw [sends_outcome]
    exact (hfollowers p hp hne).2
  have haway : ∀ pkt ∈ R.sends r 0, pkt.target ≠ 0 := by
    intro pkt hpkt
    rw [hsent] at hpkt
    rcases List.mem_append.mp hpkt with hpkt | hpkt
    · obtain ⟨c, -, hpkt⟩ := List.mem_flatMap.mp hpkt
      exact (mem_toMembers.mp hpkt).2.2.2
    · exact (mem_toMembers.mp hpkt).2.2.2
  refine ⟨?_, hannounceable, fun p hp hne => ?_, fun pkt hpkt => ?_, fun p hp hne => ?_⟩
  · rw [nodes_succ hmember, ← hround]
    exact hlaunched.awaits
  · rw [nodes_succ hp]
    exact (hfollowers p hp hne).1
  · obtain ⟨p, hp, hne, hpkt⟩ := toLeader_sent hlock hmember haway hpkt
    exact (hothers p hp hne pkt hpkt).2
  · have hperm := (toFollower_perm hlock hmember (fun q hq hqne pkt hpkt => (hothers q hq hqne pkt hpkt).1) hp hne).map
      fun pkt => pkt.message
    rw [hsent, List.filter_append, filter_toMembers _ hp hne, List.map_append] at hperm
    refine hperm.trans (List.Perm.of_eq ?_)
    cases last with
    | none => rfl
    | some c =>
      rw [Option.toList_some, List.flatMap_singleton, filter_toMembers _ hp hne]
      rfl

variable (hjitter : ∀ p, 0 ≤ jitter p ∧ jitter p < 5) (hspacing : 2 ≤ cfg.timeoutSpacing)
include hjitter hspacing

theorem Waiting.next {r : Nat} (hr : r + 1 < 100) (h : Waiting R r) :
    Waiting R (r + 1) ∨ ∃ K, Asked R (r + 1) K [] none := by
  have hround : (systemAt R r).round < 100 := by
    rw [systemAt_round]
    exact hr
  have hfollowers : ∀ p ∈ cfg.committee.members, p ≠ 0 →
      Steady cfg [] 100 (outcome R r p).toRaftConsensus ∧ Forwards (outcome R r p).outbox := by
    intro p hp hne
    exact follower_rests hne (h.toFollowers p hp hne) (by omega) (h.followers p hp hne)
  have hothers : ∀ p ∈ cfg.committee.members, p ≠ 0 → Forwards (R.sends r p) := by
    intro p hp hne
    rw [sends_outcome]
    exact (hfollowers p hp hne).2
  rcases Idle.round (s := (systemAt R r).start 0 (draws 0 r)) hmember (received_sent hmember r) (by omega) h.toLeader
    hround (systemAt_reached hjitter r 0) h.leader rfl with ⟨hidle, houtbox⟩ | ⟨K, hlaunched⟩
  · left
    have hsent : R.sends r 0 = [] := by
      rw [sends_outcome]
      exact houtbox
    refine ⟨?_, fun p hp hne => ?_, fun pkt hpkt => ?_, fun p hp hne => ?_⟩
    · rw [nodes_succ hmember]
      exact hidle
    · rw [nodes_succ hp]
      exact (hfollowers p hp hne).1
    · have hnone : ∀ pkt ∈ R.sends r 0, pkt.target ≠ 0 := by
        rw [hsent]
        exact fun pkt hpkt => absurd hpkt List.not_mem_nil
      obtain ⟨p, hp, hne, hpkt⟩ := toLeader_sent hlock hmember hnone hpkt
      exact (hothers p hp hne pkt hpkt).2
    · have hperm := toFollower_perm hlock hmember (fun q hq hqne pkt hpkt => (hothers q hq hqne pkt hpkt).1) hp hne
      rw [hsent] at hperm
      exact hperm.eq_nil
  · right
    refine ⟨K, asked_of_launched hlock hmember hlaunched ?_ fun p hp hne => ?_⟩
    · exact fun c hc => absurd hc List.not_mem_nil
    · obtain ⟨hsteady, hforwards⟩ := hfollowers p hp hne
      exact ⟨hsteady.weaken (by omega), hforwards⟩

theorem Asked.next {r : Nat} {K : Request} {seen : List Confirmation} {last : Option Confirmation}
    (h : Asked R r K seen last) : Answered R r K (seen ++ last.toList) := by
  have hround : ∀ p, ((systemAt R r).ctx cfg p).round = (r : Int) + 1 := by
    intro p
    change (((systemAt R r).round : Nat) : Int) = _
    rw [systemAt_round]
    rfl
  have hvalid : keyValid (extractKey K) := (of_decide_eq_true h.leader.live).1
  have hfollowers : ∀ p ∈ cfg.committee.members, p ≠ 0 →
      Steady cfg (seen ++ last.toList) (r + 1 + cfg.timeoutSpacing) (outcome R r p).toRaftConsensus ∧
        ∃ out submitted, (outcome R r p).outbox = ⟨p, 0, .respondRequest K p 0 submitted⟩ :: out ∧ Forwards out := by
    intro p hp hne
    have hleader : 0 ∈ ((systemAt R r).ctx cfg p).neighbors := System.mem_neighbors.mpr ⟨hmember, hne.symm⟩
    have hlast : Announceable last.toList := fun c hc => h.announceable c (List.mem_append_right _ hc)
    obtain ⟨hsteady, out, hout, hforwards⟩ := Steady.attend (s := (systemAt R r).start p (draws p r)) hne hleader
      (by omega) hlast hvalid (h.toFollowers p hp hne) (h.followers p hp hne) rfl
    rw [hround] at hsteady
    exact ⟨hsteady, out, _, hout, hforwards⟩
  have hsystem : ((systemAt R r).round : Int) < r + cfg.timeoutSpacing := by
    rw [systemAt_round]
    omega
  obtain ⟨hawaits, houtbox⟩ := Awaits.listen (s := (systemAt R r).start 0 (draws 0 r)) hmember
    (received_sent hmember r) h.toLeader hsystem (systemAt_reached hjitter r 0) h.leader
  have hsent : R.sends r 0 = [] := by
    rw [sends_outcome]
    exact houtbox
  have hnone : ∀ pkt ∈ R.sends r 0, pkt.target ≠ 0 := by
    rw [hsent]
    exact fun pkt hpkt => absurd hpkt List.not_mem_nil
  refine ⟨?_, h.announceable, fun p hp hne => ?_, fun pkt hpkt => ?_, fun q hq hne => ?_, fun p hp hne => ?_⟩
  · rw [nodes_succ hmember]
    exact hawaits
  · rw [nodes_succ hp]
    exact (hfollowers p hp hne).1
  · obtain ⟨p, hp, hne, hpkt⟩ := toLeader_sent hlock hmember hnone hpkt
    obtain ⟨-, out, submitted, hout, hforwards⟩ := hfollowers p hp hne
    rw [sends_outcome, hout] at hpkt
    rcases List.mem_cons.mp hpkt with rfl | hpkt
    · exact .inr ⟨p, hp, 0, submitted, rfl⟩
    · exact .inl (hforwards pkt hpkt).2
  · obtain ⟨-, out, submitted, hout, -⟩ := hfollowers q hq hne
    refine ⟨⟨q, 0, .respondRequest K q 0 submitted⟩, (hlock.mem_inStream hmember).mpr ⟨⟨q, hq, ?_⟩, rfl⟩, 0, submitted, rfl⟩
    rw [sends_outcome, hout]
    exact List.mem_cons_self
  · have hthere : ∀ q ∈ cfg.committee.members, q ≠ 0 → ∀ pkt ∈ R.sends r q, pkt.target = 0 := by
      intro q hq hqne pkt hpkt
      obtain ⟨-, out, submitted, hout, hforwards⟩ := hfollowers q hq hqne
      rw [sends_outcome, hout] at hpkt
      rcases List.mem_cons.mp hpkt with rfl | hpkt
      · rfl
      · exact (hforwards pkt hpkt).1
    have hperm := toFollower_perm hlock hmember hthere hp hne
    rw [hsent] at hperm
    exact hperm.eq_nil

theorem Answered.next (hsize : 3 ≤ cfg.committee.size) {r : Nat} {K : Request} {confirmed : List Confirmation}
    (h : Answered R r K confirmed) : ∃ K', Asked R (r + 2) K' confirmed (some ⟨K, r, (r : Int) + 2, 0⟩) := by
  have hvalid : keyValid (extractKey K) := (of_decide_eq_true h.leader.live).1
  have hsystem : ((systemAt R (r + 1)).round : Int) = (r : Int) + 2 := by
    rw [systemAt_round]
    rfl
  obtain ⟨K', hlaunched⟩ := Awaits.collect (s := (systemAt R (r + 1)).start 0 (draws 0 (r + 1))) hmember
    (received_sent hmember (r + 1)) hsize (by omega) h.answers h.all (systemAt_reached hjitter (r + 1) 0) h.leader
  rw [hsystem] at hlaunched
  refine ⟨K', asked_of_launched hlock hmember ⟨hlaunched.awaits, ?_⟩ ?_ fun p hp hne => ?_⟩
  · rw [Option.toList_some, List.flatMap_singleton]
    exact hlaunched.outbox
  · intro c hc
    rcases List.mem_append.mp hc with hc | hc
    · exact h.announceable c hc
    · obtain rfl := List.mem_singleton.mp hc
      exact ⟨hvalid, rfl⟩
  · have hrests := follower_rests hne (h.toFollowers p hp hne) (by push_cast; omega) (h.followers p hp hne)
    exact ⟨hrests.1.weaken (by omega), hrests.2⟩

end Stages

/-! ## The run -/

/-- The confirmations follow each other at a distance of two rounds, each two rounds after its submission. -/
def Paced (first : Nat) (confirmed : List Confirmation) : Prop :=
  confirmed.map (fun c => (c.roundSubmitted, c.roundCommitted)) =
    (List.range confirmed.length).map fun k : Nat => ((first : Int) + 2 * k, (first : Int) + 2 * k + 2)

theorem Paced.concat {first : Nat} {confirmed : List Confirmation} (h : Paced first confirmed) {c : Confirmation}
    (hsubmitted : c.roundSubmitted = first + 2 * confirmed.length) (hcommitted : c.roundCommitted = c.roundSubmitted + 2) :
    Paced first (confirmed ++ [c]) := by
  unfold Paced at h ⊢
  rw [List.map_append, h, List.length_append, List.length_singleton, List.range_succ, List.map_append, List.map_singleton,
    List.map_singleton, hcommitted, hsubmitted]

theorem Paced.latency {first : Nat} {confirmed : List Confirmation} (h : Paced first confirmed) :
    (confirmed.map fun c => c.roundCommitted - c.roundSubmitted).sum = 2 * confirmed.length := by
  have hdifference := congrArg (List.map fun rounds : Int × Int => rounds.2 - rounds.1) h
  rw [List.map_map, List.map_map] at hdifference
  have htwo : ((fun rounds : Int × Int => rounds.2 - rounds.1) ∘
      fun k : Nat => ((first : Int) + 2 * k, (first : Int) + 2 * k + 2)) = fun _ => 2 := by
    funext k
    exact add_sub_cancel_left _ _
  rw [htwo, List.map_const', List.length_range] at hdifference
  change List.map (fun c => c.roundCommitted - c.roundSubmitted) confirmed = _ at hdifference
  rw [hdifference, List.sum_replicate, nsmul_eq_mul, mul_comm]

theorem Paced.take {first : Nat} {confirmed : List Confirmation} (h : Paced first confirmed) (n : Nat) :
    Paced first (confirmed.take n) := by
  unfold Paced at h ⊢
  rw [List.map_take, h, List.length_take, ← List.map_take, List.take_range]

/-- Where a committee stands `n` rounds after its first request. -/
structure Progress (R : Lib.Lossy.Rounds (protocol cfg jitter draws)) (first n : Nat) : Prop where
  leader : ∃ K confirmed started, Awaits cfg K [] confirmed started ((R.net (first + n)).nodes 0) ∧
    Paced first confirmed ∧ confirmed.length = n / 2
  followers : ∀ p ∈ cfg.committee.members, p ≠ 0 → ∃ deadline, Steady cfg
    (((R.net (first + n)).nodes 0).confirmedTrans.take ((n - 1) / 2)) deadline ((R.net (first + n)).nodes p)

section Run
variable (hlock : R.LockStep) (hmember : 0 ∈ cfg.committee.members) (hsize : 3 ≤ cfg.committee.size)
  (hjitter : ∀ p, 0 ≤ jitter p ∧ jitter p < 5) (hspacing : 2 ≤ cfg.timeoutSpacing)
include hlock hmember hjitter hspacing

theorem waiting_of_idle {first : Nat} (hfirst : first < 100)
    (hbefore : ∀ r < first, ((R.net r).nodes 0).hasInFlight = false) {r : Nat} (hr : r < first) : Waiting R r := by
  induction r with
  | zero =>
    have hpeer : ∀ p, (R.net 0).nodes p = initialPeer cfg (jitter p) := by
      intro p
      rw [show R.net 0 = ⟨0, _, []⟩ from R.starts]
      rfl
    have hsteady : ∀ p, Steady cfg [] 100 ((R.net 0).nodes p) := by
      intro p
      rw [hpeer]
      refine ⟨rfl, rfl, rfl, rfl, ?_, rfl, rfl⟩
      have hdraw := (hjitter p).1
      change (100 : Int) ≤ 0 + 100 + jitter p
      omega
    refine ⟨⟨hsteady 0, ?_, ?_⟩, fun p _ _ => hsteady p, fun pkt hpkt => ?_, fun p hp _ => hlock.first p hp⟩
    · rw [hpeer]
      exact ⟨⟨fun c hc => absurd hc List.not_mem_nil, List.nodup_nil⟩, ⟨rfl, fun r hr => absurd hr List.not_mem_nil⟩,
        rfl, rfl⟩
    · rw [hpeer]
      rfl
    · rw [hlock.first 0 hmember] at hpkt
      exact absurd hpkt List.not_mem_nil
  | succ r ih =>
    rcases (ih (by omega)).next hlock hmember hjitter hspacing (by omega) with hwaiting | ⟨K, hasked⟩
    · exact hwaiting
    · have hidle := hbefore (r + 1) hr
      rw [hasked.leader.hasInFlight] at hidle
      cases hidle

theorem asked_first {first : Nat} (hfirst : first < 100) (hflight : ((R.net first).nodes 0).hasInFlight = true)
    (hbefore : ∀ r < first, ((R.net r).nodes 0).hasInFlight = false) : ∃ K, Asked R first K [] none := by
  cases first with
  | zero =>
    rw [show R.net 0 = ⟨0, _, []⟩ from R.starts] at hflight
    cases hflight
  | succ r =>
    have hwaiting := waiting_of_idle hlock hmember hjitter hspacing hfirst hbefore (Nat.lt_succ_self r)
    rcases hwaiting.next hlock hmember hjitter hspacing (by omega) with hwaiting | hasked
    · rw [hwaiting.leader.ready.hasInFlight] at hflight
      cases hflight
    · exact hasked

include hsize

theorem asked_of_first {first : Nat} {K₀ : Request} (h : Asked R first K₀ [] none) (k : Nat) :
    ∃ K seen last, Asked R (first + 2 * k) K seen last ∧ Paced first (seen ++ last.toList) ∧
      (seen ++ last.toList).length = k ∧ seen.length = k - 1 := by
  induction k with
  | zero => exact ⟨K₀, [], none, h, rfl, rfl, rfl⟩
  | succ k ih =>
    obtain ⟨K, seen, last, hasked, hpaced, hlength, -⟩ := ih
    obtain ⟨K', hasked'⟩ := (hasked.next hlock hmember hjitter hspacing).next hlock hmember hjitter hspacing hsize
    refine ⟨K', seen ++ last.toList, _, hasked', hpaced.concat ?_ rfl, ?_, hlength⟩
    · rw [hlength]
      push_cast
      rfl
    · rw [List.length_append, hlength]
      rfl

theorem progress {first : Nat} {K₀ : Request} (h : Asked R first K₀ [] none) (n : Nat) : Progress R first n := by
  obtain ⟨K, seen, last, hasked, hpaced, hlength, hseen⟩ :=
    asked_of_first hlock hmember hsize hjitter hspacing h (n / 2)
  rcases Nat.even_or_odd' n with ⟨k, rfl | rfl⟩
  · have hk : 2 * k / 2 = k := by omega
    rw [hk] at hasked hlength hseen
    refine ⟨⟨K, _, _, hasked.leader, hpaced, by omega⟩, fun p hp hne => ⟨0, ?_⟩⟩
    have htake : (seen ++ last.toList).take ((2 * k - 1) / 2) = seen := by
      rw [show (2 * k - 1) / 2 = seen.length from by omega, List.take_left]
    rw [hasked.leader.steady.confirmedTrans, htake]
    exact hasked.followers p hp hne
  · have hk : (2 * k + 1) / 2 = k := by omega
    rw [hk] at hasked hlength hseen
    have hanswered := hasked.next hlock hmember hjitter hspacing
    refine ⟨⟨K, _, _, hanswered.leader, hpaced, by omega⟩, fun p hp hne =>
      ⟨((first + 2 * k : Nat) : Int) + 1 + cfg.timeoutSpacing, ?_⟩⟩
    · have htake : (seen ++ last.toList).take ((2 * k + 1 - 1) / 2) = seen ++ last.toList := by
        rw [show (2 * k + 1 - 1) / 2 = (seen ++ last.toList).length from by omega, List.take_length]
      have hconfirmed := hanswered.leader.steady.confirmedTrans
      change ((R.net (first + (2 * k + 1))).nodes 0).confirmedTrans = _ at hconfirmed
      rw [hconfirmed, htake]
      exact hanswered.followers p hp hne

end Run

end Network

/-! ## The values of `endOfRound` -/

/-- The values that `endOfRound` pushes. -/
structure Metrics where
  latency : ℚ
  throughput : ℚ
  leaderChanges : Int

def endOfRound (peers : List RaftConsensus) : Metrics :=
  let totalConfirmed : Nat := (peers.map fun c => c.confirmedTrans.length).sum
  let totalLatency : Int := (peers.map fun c => c.latency).sum
  { latency := if 0 < totalConfirmed then totalLatency / totalConfirmed else 0
    throughput := if peers ≠ [] then totalConfirmed / peers.length else 0
    leaderChanges := (peers.map fun c => c.leaderChanges).sum }

theorem endOfRound_of_steady {peers : List RaftConsensus}
    (h : ∀ c ∈ peers, c.leaderChanges = 0 ∧ c.latency = 2 * c.confirmedTrans.length) (hpeers : peers ≠ []) :
    endOfRound peers =
      { latency := if 0 < (peers.map fun c => c.confirmedTrans.length).sum then 2 else 0
        throughput := (peers.map fun c => c.confirmedTrans.length).sum / peers.length
        leaderChanges := 0 } := by
  have hlatency : (peers.map fun c => c.latency).sum = 2 * ((peers.map fun c => c.confirmedTrans.length).sum : Nat) := by
    rw [Nat.cast_list_sum, List.map_map, ← List.sum_map_mul_left]
    exact congrArg List.sum (List.map_congr_left fun c hc => (h c hc).2)
  have hchanges : (peers.map fun c => c.leaderChanges).sum = 0 := by
    apply List.sum_eq_zero
    intro changes hmem
    obtain ⟨c, hc, rfl⟩ := List.mem_map.mp hmem
    exact (h c hc).1
  unfold endOfRound
  dsimp only
  rw [hlatency, hchanges, if_pos hpeers]
  split_ifs with hpos
  · have hne : (((peers.map fun c => c.confirmedTrans.length).sum : Nat) : ℚ) ≠ 0 := Nat.cast_ne_zero.mpr hpos.ne'
    rw [Int.cast_mul, Int.cast_natCast, mul_div_assoc, div_self hne]
    norm_num
  · rfl

theorem sum_confirmed {members : List InterfaceId} {count : InterfaceId → Nat} {n : Nat} (hmember : 0 ∈ members)
    (hothers : ∀ p ∈ members.erase 0, count p = n) :
    (members.map count).sum = count 0 + (members.length - 1) * n := by
  have hconst : (members.erase 0).map count = List.replicate (members.length - 1) n := by
    rw [← List.length_erase_of_mem hmember, ← List.map_const']
    exact List.map_congr_left hothers
  rw [((List.perm_cons_erase hmember).map count).sum_eq, List.map_cons, List.sum_cons, hconst, List.sum_replicate,
    smul_eq_mul]

section Steady
variable {R : Lib.Lossy.Rounds (protocol cfg jitter draws)}

/-- **A request in every second round.** A committee of three or more, in lock-step from the start, puts its first
request into flight before the first timer runs out. From then on the leader always has one in flight; it has
confirmed one for every two rounds, each two rounds after its submission and no key twice, and the others have
confirmed the same, one round later. No peer ever takes part in an election. -/
theorem confirms_every_second_round (hlock : R.LockStep) (hmember : 0 ∈ cfg.committee.members)
    (hsize : 3 ≤ cfg.committee.size) (hjitter : ∀ p, 0 ≤ jitter p ∧ jitter p < 5) (hspacing : 2 ≤ cfg.timeoutSpacing)
    {first : Nat} (hfirst : first < 100) (hflight : ((R.net first).nodes 0).hasInFlight = true)
    (hbefore : ∀ r < first, ((R.net r).nodes 0).hasInFlight = false) (n : Nat) :
    let leader := (R.net (first + n)).nodes 0
    (leader.hasInFlight = true ∧ leader.confirmedTrans.length = n / 2 ∧ Paced first leader.confirmedTrans ∧
      (leader.confirmedTrans.map fun c => extractKey c.request).Nodup) ∧
    (∀ p ∈ cfg.committee.members, p ≠ 0 →
      ((R.net (first + n)).nodes p).confirmedTrans = leader.confirmedTrans.take ((n - 1) / 2)) ∧
    (∀ p ∈ cfg.committee.members, ((R.net (first + n)).nodes p).leaderId = 0 ∧ ((R.net (first + n)).nodes p).term = 0) ∧
    endOfRound (cfg.committee.members.map (R.net (first + n)).nodes) =
      { latency := if 2 ≤ n then 2 else 0
        throughput := (n / 2 + (cfg.committee.size - 1) * ((n - 1) / 2) : Nat) / cfg.committee.size
        leaderChanges := 0 } := by
  obtain ⟨K₀, hasked⟩ := asked_first hlock hmember hjitter hspacing hfirst hflight hbefore
  obtain ⟨⟨K, confirmed, started, hleader, hpaced, hlength⟩, hfollowers⟩ :=
    progress hlock hmember hsize hjitter hspacing hasked n
  have hconfirmed := hleader.steady.confirmedTrans
  rw [hconfirmed] at hfollowers
  -- every member is steady, with confirmations that keep the pace
  have hall : ∀ p ∈ cfg.committee.members, ∃ deadline own, Paced first own ∧
      own.length = (if p = 0 then n / 2 else (n - 1) / 2) ∧ Steady cfg own deadline ((R.net (first + n)).nodes p) := by
    intro p hp
    by_cases hzero : p = 0
    · subst hzero
      exact ⟨_, confirmed, hpaced, by rw [if_pos rfl, hlength], hleader.steady⟩
    · obtain ⟨deadline, hsteady⟩ := hfollowers p hp hzero
      refine ⟨deadline, _, hpaced.take _, ?_, hsteady⟩
      rw [if_neg hzero, List.length_take]
      omega
  refine ⟨⟨hleader.hasInFlight, ?_, ?_, ?_⟩, fun p hp hne => ?_, fun p hp => ?_, ?_⟩
  · rw [hconfirmed, hlength]
  · rw [hconfirmed]
    exact hpaced
  · rw [hconfirmed]
    exact hleader.distinct.nodup
  · obtain ⟨deadline, hsteady⟩ := hfollowers p hp hne
    rw [hconfirmed]
    exact hsteady.confirmedTrans
  · obtain ⟨deadline, own, -, -, hsteady⟩ := hall p hp
    exact ⟨hsteady.leaderId, hsteady.term⟩
  · have hne : cfg.committee.members.map (R.net (first + n)).nodes ≠ [] := by
      intro hnil
      rw [List.map_eq_nil_iff.mp hnil] at hmember
      exact List.not_mem_nil hmember
    have hcount : ∀ p ∈ cfg.committee.members, ((R.net (first + n)).nodes p).confirmedTrans.length =
        if p = 0 then n / 2 else (n - 1) / 2 := by
      intro p hp
      obtain ⟨deadline, own, -, hown, hsteady⟩ := hall p hp
      rw [hsteady.confirmedTrans, hown]
    have hsum : (cfg.committee.members.map fun p => ((R.net (first + n)).nodes p).confirmedTrans.length).sum =
        n / 2 + (cfg.committee.size - 1) * ((n - 1) / 2) := by
      rw [sum_confirmed hmember (n := (n - 1) / 2)]
      · rw [hcount 0 hmember, if_pos rfl]
        rfl
      · intro p hp
        obtain ⟨hzero, hp⟩ := cfg.committee.nodup.mem_erase_iff.mp hp
        rw [hcount p hp, if_neg hzero]
    rw [endOfRound_of_steady _ hne, List.map_map, List.length_map]
    · change Metrics.mk (if 0 < (cfg.committee.members.map fun p =>
          ((R.net (first + n)).nodes p).confirmedTrans.length).sum then 2 else 0)
        (((cfg.committee.members.map fun p => ((R.net (first + n)).nodes p).confirmedTrans.length).sum : Nat) /
          cfg.committee.members.length) 0 = _
      have hiff : 0 < n / 2 + (cfg.committee.size - 1) * ((n - 1) / 2) ↔ 2 ≤ n := by
        constructor
        · intro hpos
          by_contra hlt
          rw [show n / 2 = 0 from by omega, show (n - 1) / 2 = 0 from by omega] at hpos
          simp at hpos
        · intro hle
          have hhalf : 0 < n / 2 := by omega
          omega
      rw [hsum]
      simp only [hiff]
      rfl
    · intro c hc
      obtain ⟨p, hp, rfl⟩ := List.mem_map.mp hc
      obtain ⟨deadline, own, hown, -, hsteady⟩ := hall p hp
      refine ⟨hsteady.leaderChanges, ?_⟩
      rw [hsteady.latency, hsteady.confirmedTrans]
      exact hown.latency

/-- Three peers in lock-step that generate a request whenever they tick. -/
theorem confirms_every_second_round_triangle :
    let R := Lib.Lossy.Rounds.inStep (protocol { committee := .ofSize 3 } (fun _ => 0) fun _ _ => [])
    (((R.net 5).nodes 0).confirmedTrans.map fun c => (c.roundSubmitted, c.roundCommitted)) = [(1, 3), (3, 5)] ∧
      endOfRound ([0, 1, 2].map (R.net 5).nodes) = { latency := 2, throughput := 4 / 3, leaderChanges := 0 } := by
  intro R
  have hlock : R.LockStep := Lib.Lossy.Rounds.inStep_lockStep (Committee.ofSize 3).nodup
  have hflight : ((R.net 1).nodes 0).hasInFlight = true := by decide +kernel
  have hbefore : ∀ r < 1, ((R.net r).nodes 0).hasInFlight = false := by
    intro r hr
    rw [Nat.lt_one_iff.mp hr]
    rfl
  obtain ⟨⟨-, hlength, hpaced, -⟩, -, -, hmetrics⟩ := confirms_every_second_round hlock (by decide) (by decide)
    (fun _ => by decide) (by decide) (by decide) hflight hbefore 4
  rw [show 1 + 4 = 5 from rfl] at hlength hpaced hmetrics
  generalize R.net 5 = net at hlength hpaced hmetrics ⊢
  refine ⟨?_, ?_⟩
  · unfold Paced at hpaced
    rw [hpaced, hlength]
    decide
  · refine hmetrics.trans ?_
    norm_num [Committee.size, Committee.ofSize]

end Steady

end Quantas.Raft
