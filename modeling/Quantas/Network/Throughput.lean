import Quantas.Network.ChannelContract
import Quantas.Network.PushLoop

/-!
# The budget of a channel

The constructor of a channel computes a budget for its whole life: `maxMsgsRec` packets for each remaining round. The
product is formed in `size_t` and kept as an `int`, whose zero means that nothing can be sent and whose negative values
mean that nothing is counted. `Copying` is the life of a channel copy by copy, with the verdict on each; every life of
pushes is one of these (`copying_of_life`).
-/

namespace Quantas.Abstract
open Lib Channel

/-- A channel with the verdicts on the copies pushed to it: whether it accepted them. -/
structure Copying (μ : Type) where
  channel : Channel μ
  currentRound : Nat
  verdicts : List Bool := []

/-- What may happen to a channel, with every turn of the loop of `pushPacket` by itself. -/
inductive CopyEvent (μ : Type)
  | incrementRound
  | turn (pkt : Packet μ) (draws : CopyDraws)
  | receive (draws : ShuffleDraws)

namespace Copying
variable {μ : Type}

def step (s : Copying μ) : CopyEvent μ → Option (Copying μ)
  | .incrementRound => some { s with currentRound := s.currentRound + 1 }
  | .turn pkt draws =>
    match s.channel.turn pkt draws with
    | .ok (channel, p) => some { s with channel, verdicts := s.verdicts ++ [p.isSome] }
    | .error _ => none
  | .receive draws => some { s with channel := (s.channel.receive s.currentRound draws).1 }

/-- The lives of a channel that is created in round `created` of `lastRound`. -/
def machine (μ : Type) (params : ChannelParams) (created lastRound : Nat) : Machine (Copying μ) (CopyEvent μ) where
  initial s := s = { channel := .setParameters params created lastRound, currentRound := created }
  step := step

/-- The size limit is not hit: there is room for each copy that is pushed. -/
def HasRoom (s : Copying μ) : CopyEvent μ → Prop
  | .turn _ _ => 0 < s.channel.room
  | _ => True

/-- The copies accepted are the first `limit` ones. -/
def AcceptsFirst (limit : Int) (s : Copying μ) : Prop :=
  ∀ (i : Nat) v, s.verdicts[i]? = some v → (v = true ↔ (i : Int) < limit)

/-! ## Every life is one of turns -/

variable {params : ChannelParams} {created lastRound : Nat}

theorem step_turn_ok {s : Copying μ} {pkt : Packet μ} {draws : CopyDraws} {channel : Channel μ}
    {p : Option (Packet μ)} (h : s.channel.turn pkt draws = .ok (channel, p)) :
    (machine μ params created lastRound).step s (.turn pkt draws) =
      some { s with channel, verdicts := s.verdicts ++ [p.isSome] } := by
  simp only [machine, step, h]

theorem reached_pushCopies {room : Nat} {copy : Nat → CopyDraws} {s : Copying μ} {ch : Channel μ} {pkt : Packet μ}
    {copies : List (Packet μ)} (hs : (machine μ params created lastRound).Reached s)
    (h : pushCopies room copy s.channel pkt = .ok (ch, copies)) :
    ∃ s', (machine μ params created lastRound).Reached s' ∧ s'.channel = ch ∧ s'.currentRound = s.currentRound ∧
      s'.verdicts.count true = s.verdicts.count true + copies.length := by
  induction room generalizing copy s ch pkt copies with
  | zero =>
    obtain ⟨rfl, rfl⟩ := Prod.mk.inj (Except.ok.inj h)
    exact ⟨s, hs, rfl, rfl, rfl⟩
  | succ room ih =>
    rw [pushCopies_succ] at h
    cases hturn : s.channel.turn pkt (copy 0) with
    | error thrown =>
      rw [hturn] at h
      cases h
    | ok r =>
      obtain ⟨channel, p⟩ := r
      rw [hturn] at h
      have hnext := hs.next trivial (step_turn_ok hturn)
      cases p with
      | none =>
        obtain ⟨rfl, rfl⟩ := Prod.mk.inj (Except.ok.inj h)
        refine ⟨_, hnext, rfl, rfl, ?_⟩
        simp
      | some p =>
        dsimp only at h
        split_ifs at h
        · cases hrest : pushCopies room (fun k => copy (k + 1)) channel p with
          | error thrown =>
            rw [hrest] at h
            cases h
          | ok r =>
            rw [hrest] at h
            obtain ⟨rfl, rfl⟩ := Prod.mk.inj (Except.ok.inj h)
            obtain ⟨s', hs', hchannel, hround, hcount⟩ := ih hnext hrest
            refine ⟨s', hs', hchannel, hround, ?_⟩
            rw [hcount, List.count_append, List.length_cons]
            simp only [Option.isSome_some, List.count_singleton_self]
            omega
        · obtain ⟨rfl, rfl⟩ := Prod.mk.inj (Except.ok.inj h)
          refine ⟨_, hnext, rfl, rfl, ?_⟩
          simp [List.count_append]

theorem copying_of_life {s : Life μ} (hs : (Life.machine μ params created lastRound).Reached s) :
    ∃ t, (machine μ params created lastRound).Reached t ∧ t.channel = s.channel ∧
      t.currentRound = s.currentRound ∧ t.verdicts.count true = s.accepted.length := by
  induction hs with
  | start hinit =>
    obtain rfl := hinit
    exact ⟨_, .start rfl, rfl, rfl, rfl⟩
  | @next s s' e hr hg hstep ih =>
    obtain ⟨t, ht, hchannel, hround, hcount⟩ := ih
    cases e with
    | incrementRound =>
      obtain rfl := Option.some.inj hstep
      refine ⟨_, ht.next trivial (e := .incrementRound) rfl, hchannel, ?_, hcount⟩
      exact congrArg (· + 1) hround
    | pushPacket pkt draws =>
      simp only [Life.machine, Life.step] at hstep
      split_ifs at hstep
      cases hpush : s.channel.pushPacket pkt draws with
      | error thrown =>
        rw [hpush] at hstep
        cases hstep
      | ok r =>
        obtain ⟨channel, copies⟩ := r
        rw [hpush] at hstep
        obtain rfl := Option.some.inj hstep
        unfold Channel.pushPacket at hpush
        split_ifs at hpush
        · obtain ⟨rfl, rfl⟩ := Prod.mk.inj (Except.ok.inj hpush)
          exact ⟨t, ht, hchannel, hround, by simpa using hcount⟩
        · rw [← hchannel] at hpush
          obtain ⟨t', ht', hchannel', hround', hcount'⟩ := reached_pushCopies ht hpush
          refine ⟨t', ht', hchannel', hround'.trans hround, ?_⟩
          rw [hcount', hcount, List.length_append]
    | receive draws =>
      obtain rfl := Option.some.inj hstep
      refine ⟨_, ht.next trivial (e := .receive draws) rfl, ?_, hround, hcount⟩
      rw [← hchannel, ← hround]
      rfl

/-! ## A budget that fits -/

structure Spent (limit : Int) (s : Copying μ) : Prop where
  left : s.channel.throughputLeft = max 0 (limit - s.verdicts.length)
  first : s.AcceptsFirst limit

theorem AcceptsFirst.append {limit : Int} {s : Copying μ} (h : s.AcceptsFirst limit) {v : Bool}
    (hv : v = true ↔ (s.verdicts.length : Int) < limit) (channel : Channel μ) :
    AcceptsFirst limit { s with channel, verdicts := s.verdicts ++ [v] } := by
  intro i w hw
  rcases Nat.lt_trichotomy i s.verdicts.length with hlt | rfl | hgt
  · rw [List.getElem?_append_left hlt] at hw
    exact h i w hw
  · rw [List.getElem?_append_right le_rfl, Nat.sub_self, List.getElem?_cons_zero] at hw
    rw [← Option.some.inj hw]
    exact hv
  · rw [List.getElem?_eq_none (by simp; omega)] at hw
    cases hw

theorem Spent.step {limit : Int} {s s' : Copying μ} (h : s.Spent limit) {e : CopyEvent μ}
    (hroom : s.HasRoom e) (hstep : s.step e = some s') : s'.Spent limit := by
  cases e with
  | incrementRound =>
    obtain rfl := Option.some.inj hstep
    exact ⟨h.left, h.first⟩
  | receive draws =>
    obtain rfl := Option.some.inj hstep
    exact ⟨(s.channel.receive_spec s.currentRound draws).throughputLeft.trans h.left, h.first⟩
  | turn pkt draws =>
    have hleft := h.left
    by_cases hsend : s.channel.canSend
    · have hlimit : (s.verdicts.length : Int) < limit := by
        have hne := (canSend_iff.mp hsend).1
        omega
      cases hd : s.channel.computeRandomDelay draws.delay with
      | error what =>
        simp only [Copying.step, turn_of_error hsend hd] at hstep
        cases hstep
      | ok d =>
        simp only [Copying.step, turn_of_ok hsend hd, Option.isSome_some] at hstep
        obtain rfl := Option.some.inj hstep
        refine ⟨?_, h.first.append (by simpa using hlimit) _⟩
        show (s.channel.enqueue _).throughputLeft = _
        rw [throughputLeft_enqueue (by omega), List.length_append, List.length_singleton]
        push_cast
        omega
    · have hlimit : ¬ (s.verdicts.length : Int) < limit := by
        intro hlt
        apply hsend
        exact canSend_iff.mpr ⟨by omega, hroom⟩
      simp only [Copying.step, turn_of_not_canSend hsend, Option.isSome_none] at hstep
      obtain rfl := Option.some.inj hstep
      refine ⟨?_, h.first.append (by simpa using hlimit) _⟩
      show s.channel.throughputLeft = _
      rw [List.length_append, List.length_singleton]
      push_cast
      omega

/-! ## A budget that does not fit -/

theorem throughputLeft_setParameters {m : Int} (hparams : params.maxMsgsRec = some m) (hm : 1 ≤ m ∧ m ≤ INT_MAX)
    (r : Nat) : (setParameters params created (created + r) : Channel μ).throughputLeft =
      getInt (toSizeT (toSizeT m * toSizeT r)) := by
  have hkept : getInt m = m := by
    apply getInt_eq
    unfold IsInt
    omega
  have hrounds : ((created + r : Nat) : Int) - created = r := by
    push_cast
    omega
  simp only [setParameters, ChannelProperties.ofParams, hparams, Option.getD_some, hkept, hrounds]

theorem throughputLeft_le : (setParameters params created lastRound : Channel μ).throughputLeft ≤ INT_MAX := by
  unfold setParameters
  dsimp only
  generalize toSizeT _ = product
  exact (isInt_getInt product).2

/-- A channel that delivers in the next round and moves `m` packets a round. -/
def nextRound (m : Int) : ChannelParams where
  maxMsgsRec := some m
  type := some "ONE"

/-- A queue that was emptied before, in a round in which a packet of round 0 has arrived. -/
structure Drained (m : Int) (s : Copying μ) : Prop where
  properties : s.channel.properties = .ofParams (nextRound m)
  empty : s.channel.packetQueue = []
  later : 1 ≤ s.currentRound

section drained
variable {m : Int}

theorem Drained.room_pos {s : Copying μ} (h : s.Drained m) : 0 < s.channel.room := by
  unfold room
  rw [h.properties, h.empty]
  show 0 < toSizeT (getInt INT_MAX) - 0
  decide

theorem Drained.delay {s : Copying μ} (h : s.Drained m) : s.channel.computeRandomDelay 0 = .ok 1 := by
  unfold computeRandomDelay
  rw [h.properties]
  rfl

variable [Inhabited μ]

def sample : Packet μ := { source := 0, target := 0, message := default, round := 0 }

theorem receive_sample {s : Copying μ} (h : s.Drained m) (hm : 1 ≤ m ∧ m ≤ INT_MAX) {ch : Channel μ}
    (hqueue : ch.packetQueue = [delayed sample 1]) (hprops : ch.properties = s.channel.properties)
    (draws : ShuffleDraws) :
    (ch.receive s.currentRound draws).1 = { ch with packetQueue := [] } := by
  have hkept : getInt m = m := by
    apply getInt_eq
    unfold IsInt
    omega
  have hshuffle : ch.shuffleChannel draws = ch := by
    unfold shuffleChannel
    rw [hqueue, if_neg (by simp)]
  have hrec : ch.properties.maxMsgsRec = m := by
    rw [hprops, h.properties]
    exact hkept
  have harrived : (delayed (sample : Packet μ) 1).hasArrived s.currentRound := by
    have hone : toSizeT (getInt (0 + max 1 1)) = 1 := by decide
    show decide (toSizeT (getInt (0 + max 1 1)) ≤ s.currentRound) = true
    rw [hone]
    exact decide_eq_true h.later
  unfold Channel.receive
  simp only [hshuffle, hqueue, hrec]
  rw [popArrived, if_pos ⟨harrived, by rw [Nat.cast_zero]; omega⟩]
  rfl

theorem Drained.pass {s : Copying μ} (h : s.Drained m) (hm : 1 ≤ m ∧ m ≤ INT_MAX)
    (hs : (machine μ params created lastRound).ReachedUnder HasRoom s) (hleft : s.channel.throughputLeft ≠ 0) :
    ∃ s', (machine μ params created lastRound).ReachedUnder HasRoom s' ∧ s'.Drained m ∧
      s'.channel.throughputLeft =
        (if 0 < s.channel.throughputLeft then s.channel.throughputLeft - 1 else s.channel.throughputLeft) ∧
      s'.verdicts = s.verdicts ++ [true] := by
  have hsend : s.channel.canSend := canSend_iff.mpr ⟨hleft, h.room_pos⟩
  let draws : CopyDraws := { delay := 0, setDelay := 0, duplicate := 0 }
  have hturn : s.channel.turn sample draws = .ok (s.channel.enqueue (delayed sample 1), some (delayed sample 1)) :=
    turn_of_ok hsend h.delay
  have hroom : s.HasRoom (.turn sample draws) := h.room_pos
  have hpushed := hs.next hroom (step_turn_ok hturn)
  have hqueue : (s.channel.enqueue (delayed sample 1)).packetQueue = [delayed sample 1] := by
    rw [packetQueue_enqueue, h.empty, List.nil_append]
  have hprops : (s.channel.enqueue (delayed sample 1)).properties = s.channel.properties := properties_enqueue _
  have hfree : ∀ s : Copying μ, s.HasRoom (.receive { reorder := 0, places := id }) := fun _ => trivial
  have hreceived := hpushed.next (hfree _) rfl
  refine ⟨_, hreceived, ⟨?_, ?_, h.later⟩, ?_, rfl⟩
  · rw [receive_sample h hm hqueue hprops]
    exact hprops.trans h.properties
  · rw [receive_sample h hm hqueue hprops]
  · rw [receive_sample h hm hqueue hprops]
    show s.channel.consumeThroughput.throughputLeft = _
    unfold consumeThroughput
    split_ifs <;> rfl

theorem exists_passed {b : Int} (hm : 1 ≤ m ∧ m ≤ INT_MAX) {r : Nat}
    (hb : (setParameters (nextRound m) 0 r : Channel μ).throughputLeft = b) (k : Nat) (hk : 0 ≤ b → (k : Int) ≤ b) :
    ∃ s, (machine μ (nextRound m) 0 r).ReachedUnder HasRoom s ∧ s.Drained m ∧
      s.channel.throughputLeft = (if 0 ≤ b then b - k else b) ∧ s.verdicts = List.replicate k true := by
  induction k with
  | zero =>
    have hstart : (machine μ (nextRound m) 0 r).ReachedUnder HasRoom
        { channel := setParameters (nextRound m) 0 r, currentRound := 0 } := .start rfl
    have hfree : ∀ s : Copying μ, s.HasRoom .incrementRound := fun _ => trivial
    refine ⟨_, hstart.next (hfree _) rfl, ⟨rfl, rfl, Nat.le_refl 1⟩, ?_, rfl⟩
    show (setParameters (nextRound m) 0 r : Channel μ).throughputLeft = _
    rw [hb]
    split_ifs <;> omega
  | succ k ih =>
    obtain ⟨s, hs, hdrained, hleft, hverdicts⟩ := ih (by omega)
    have hne : s.channel.throughputLeft ≠ 0 := by
      rw [hleft]
      split_ifs <;> omega
    obtain ⟨s', hs', hdrained', hleft', hverdicts'⟩ := hdrained.pass hm hs hne
    refine ⟨s', hs', hdrained', ?_, ?_⟩
    · rw [hleft', hleft]
      push_cast
      split_ifs <;> omega
    · rw [hverdicts', hverdicts, List.replicate_succ']

theorem misjudges (hm : 1 ≤ m ∧ m ≤ INT_MAX) {r : Nat} (hfits : INT_MAX < m * r) :
    ∃ s, (machine μ (nextRound m) 0 (0 + r)).ReachedUnder HasRoom s ∧ ¬ s.AcceptsFirst (m * r) := by
  rw [Nat.zero_add]
  obtain ⟨b, hb⟩ : ∃ b, (setParameters (nextRound m) 0 r : Channel μ).throughputLeft = b := ⟨_, rfl⟩
  have hmax : b ≤ INT_MAX := by
    rw [← hb]
    exact throughputLeft_le
  rcases lt_or_ge b 0 with hneg | hnonneg
  · -- nothing is counted, and the copy after the last one is accepted
    obtain ⟨s, hs, hdrained, hleft, hverdicts⟩ := exists_passed hm hb (m * r).toNat (by omega)
    rw [if_neg (by omega)] at hleft
    obtain ⟨s', hs', -, -, hverdicts'⟩ := hdrained.pass hm hs (by omega)
    refine ⟨s', hs', fun hfirst => ?_⟩
    have hlast : s'.verdicts[(m * r).toNat]? = some true := by
      rw [hverdicts', hverdicts, List.getElem?_append_right (by simp)]
      simp
    have := (hfirst _ _ hlast).mp rfl
    omega
  · -- the budget is spent before the last copy
    obtain ⟨s, hs, hdrained, hleft, hverdicts⟩ := exists_passed hm hb b.toNat (by omega)
    rw [if_pos hnonneg] at hleft
    have hspent : ¬ s.channel.canSend := fun hsend => (canSend_iff.mp hsend).1 (by omega)
    let draws : CopyDraws := { delay := 0, setDelay := 0, duplicate := 0 }
    have hroom : s.HasRoom (.turn sample draws) := hdrained.room_pos
    refine ⟨_, hs.next hroom (step_turn_ok (turn_of_not_canSend hspent draws)), fun hfirst => ?_⟩
    have hlast : (s.verdicts ++ [false])[b.toNat]? = some false := by
      rw [hverdicts, List.getElem?_append_right (by simp)]
      simp
    exact Bool.false_ne_true ((hfirst _ _ hlast).mpr (by omega))

end drained

/-- **When the budget of a channel is exact.** For every `maxMsgsRec` and every number of remaining rounds, a channel
that always has room accepts exactly the first `maxMsgsRec * r` copies pushed to it, whatever else is configured and
drawn, if and only if the product is an `int`; and only then is it the budget that the constructor keeps. -/
theorem budget_exact_iff [Inhabited μ] {m : Int} (hm : 1 ≤ m ∧ m ≤ INT_MAX) (r : Nat) :
    ((∀ params created s, params.maxMsgsRec = some m →
        (machine μ params created (created + r)).ReachedUnder HasRoom s → s.AcceptsFirst (m * r)) ↔
      m * r ≤ INT_MAX) ∧
    ((∀ params created, params.maxMsgsRec = some m →
        (setParameters params created (created + r) : Channel μ).throughputLeft = m * r) ↔ m * r ≤ INT_MAX) := by
  have hbudget : m * r ≤ INT_MAX → ∀ params created, params.maxMsgsRec = some m →
      (setParameters params created (created + r) : Channel μ).throughputLeft = m * r := by
    intro hfits params created hparams
    rw [throughputLeft_setParameters hparams hm]
    exact budget_eq (by omega) (by omega) hfits hm.2
  constructor
  · constructor
    · intro hall
      by_contra hfits
      obtain ⟨s, hs, hfirst⟩ := misjudges (μ := μ) hm (not_le.mp hfits)
      exact hfirst (hall _ 0 s rfl hs)
    · intro hfits params created s hparams hs
      have hnonneg : 0 ≤ m * r := mul_nonneg (by omega) (by omega)
      have hspent : s.Spent (m * r) := by
        refine hs.invariant ?_ fun s e s' hspent hroom hstep => hspent.step hroom hstep
        rintro s rfl
        refine ⟨?_, fun i v hv => by cases hv⟩
        rw [hbudget hfits params created hparams, List.length_nil]
        omega
      exact hspent.first
  · constructor
    · intro hall
      rw [← hall (nextRound m) 0 rfl]
      exact throughputLeft_le
    · exact hbudget

theorem budget_exact_six : ∃ s : Copying String, (machine String (nextRound 2) 0 3).ReachedUnder HasRoom s ∧
    s.verdicts = List.replicate 6 true ∧ s.AcceptsFirst (2 * (3 : Nat)) := by
  have hbudget : (setParameters (nextRound 2) 0 3 : Channel String).throughputLeft = 6 := by decide
  obtain ⟨s, hs, -, -, hverdicts⟩ := exists_passed (by decide) hbudget 6 (fun _ => le_rfl)
  have hexact := (budget_exact_iff (μ := String) (m := 2) (by decide) 3).1.mpr (by decide)
  exact ⟨s, hs, hverdicts, hexact (nextRound 2) 0 s rfl hs⟩

/-- With `2^30` packets a round and four rounds the budget is computed as zero, and the first packet is refused. -/
theorem budget_wraps :
    let params : ChannelParams := { maxMsgsRec := some (2 ^ 30) }
    let ch : Channel String := setParameters params 0 4
    let draws : PushDraws := { drop := 0, copy := fun _ => { delay := 0, setDelay := 0, duplicate := 0 } }
    ch.throughputLeft = 0 ∧ 0 < ch.room ∧ appended ch (ch.pushPacket (.make 0 0 1 "m") draws) = [] := by
  decide +kernel

end Copying

end Quantas.Abstract
