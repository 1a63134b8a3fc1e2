import Quantas.Network.Topology

/-!
# Channels

A channel of the simulated network: a queue of packets with a delay for each, a size, and a budget of
packets for its whole life. `pushPacket` may drop a packet or enqueue several copies of it, `receive` is
what one round takes out of the channel, after a shuffle that happens with `reorderProbability`.

Every random choice is a parameter. A draw of an integer is a `Nat`, reduced to the range asked for; a draw
of a real number between 0 and 1 is a `ℚ`, which `trueWithProbability` compares with a probability. The
properties keep their `int`s as integers; the conversions that the source makes, to `int` (`getInt`) and to
`size_t` (`toSizeT`), are explicit.

`Pushed` says what a `pushPacket` call that returns has done, and `pushPacket_ok` when it returns;
`receive_spec` says what a round takes out.
-/

namespace Quantas.Abstract

def INT_MAX : Int := 2 ^ 31 - 1

/-- The conversion to `size_t`. -/
def toSizeT (v : Int) : Nat := (v % 2 ^ 64).toNat

/-! ## Random draws -/

def uniformInt (minVal maxVal : Int) (draw : Nat) : Except String Int :=
  if minVal > maxVal then .error "uniformInt: minVal > maxVal"
  else .ok (minVal + draw % (maxVal - minVal + 1))

def trueWithProbability (p draw : ℚ) : Bool :=
  if p ≤ 0 then false else if p ≥ 1 then true else draw < p

def poissonInt (lambda : Int) (draw : Nat) : Except String Int :=
  if lambda ≤ 0 then
    .error ("poissonInt: mean (lambda) must be > 0, received: " ++ toString lambda ++ ".000000")
  else .ok draw

def clamp (v lo hi : Int) : Int := if v < lo then lo else if hi < v then hi else v

/-- `std::shuffle`: each element goes to a place among those behind it that a draw chooses. -/
def shuffle {α : Type*} (draws : Nat → Nat) : List α → List α
  | [] => []
  | x :: xs => (shuffle draws xs).insertIdx (draws xs.length % (xs.length + 1)) x

/-! ## Properties -/

inductive DelayStyle
  | uniform | poisson | one
  deriving DecidableEq, Repr

/-- The description of a distribution; `none` where a key is absent. -/
structure ChannelParams where
  dropProbability : Option ℚ := none
  reorderProbability : Option ℚ := none
  duplicateProbability : Option ℚ := none
  maxMsgsRec : Option Int := none
  size : Option Int := none
  avgDelay : Option Int := none
  minDelay : Option Int := none
  maxDelay : Option Int := none
  type : Option String := none

structure ChannelProperties where
  dropProbability : ℚ
  reorderProbability : ℚ
  duplicateProbability : ℚ
  maxMsgsRec : Int
  size : Int
  avgDelay : Int
  minDelay : Int
  maxDelay : Int
  delayStyle : DelayStyle
  deriving DecidableEq, Repr

/-- `ChannelProperties::setParameters`. An unknown type leaves the style that the object began with. -/
def ChannelProperties.ofParams (params : ChannelParams) : ChannelProperties where
  dropProbability := params.dropProbability.getD 0
  reorderProbability := params.reorderProbability.getD 0
  duplicateProbability := params.duplicateProbability.getD 0
  maxMsgsRec := getInt (params.maxMsgsRec.getD 1)
  size := getInt (params.size.getD INT_MAX)
  avgDelay := getInt (params.avgDelay.getD 1)
  minDelay := getInt (params.minDelay.getD 1)
  maxDelay := getInt (params.maxDelay.getD 1)
  delayStyle :=
    let t := params.type.getD "UNIFORM"
    if t = "UNIFORM" then .uniform else if t = "POISSON" then .poisson else if t = "ONE" then .one
    else .uniform

/-! ## Packets on their way -/

/-- A packet with its delay and the round in which it was made. -/
structure Packet (μ : Type) extends Quantas.Packet μ where
  delay : Int := 0
  round : Int
  deriving DecidableEq, Repr

namespace Packet
variable {μ : Type}

/-- The constructor and the setters that `unicastTo` calls, in round `now`. -/
def make (now : Nat) (source target : InterfaceId) (message : μ) : Packet μ :=
  { source, target, message, round := getInt now }

def setDelay (p : Packet μ) (maxDelay minDelay : Int) (draw : Nat) : Except String (Packet μ) := do
  let maxDelay := if maxDelay < 1 then 1 else maxDelay
  let minDelay := if minDelay < 1 then 1 else minDelay
  let minDelay := if minDelay > maxDelay then maxDelay else minDelay
  let delay ← uniformInt minDelay maxDelay draw
  return { p with delay }

/-- `currentRound() >= _round + _delay`: a sum of `int`s, compared as a `size_t`. -/
def hasArrived (now : Nat) (p : Packet μ) : Bool := toSizeT (getInt (p.round + p.delay)) ≤ now

end Packet

/-! ## Channels -/

/-- The draws of one turn of the loop of `pushPacket`. -/
structure CopyDraws where
  delay : Nat
  setDelay : Nat
  duplicate : ℚ

/-- The draws of a `pushPacket` call. -/
structure PushDraws where
  drop : ℚ
  copy : Nat → CopyDraws

/-- The draws of a `shuffleChannel` call. -/
structure ShuffleDraws where
  reorder : ℚ
  places : Nat → Nat

structure Channel (μ : Type) where
  properties : ChannelProperties
  throughputLeft : Int
  packetQueue : List (Packet μ) := []
  deriving DecidableEq

namespace Channel
variable {μ : Type} (ch : Channel μ)

/-- The constructor, in round `currentRound` of `lastRound`. The product is computed in `size_t`. -/
def setParameters (params : ChannelParams) (currentRound lastRound : Nat) : Channel μ where
  properties := .ofParams params
  throughputLeft := getInt (toSizeT
    (toSizeT (ChannelProperties.ofParams params).maxMsgsRec * toSizeT ((lastRound : Int) - currentRound)))

def canSend : Bool :=
  ch.throughputLeft ≠ 0 ∧ toSizeT ch.properties.size > ch.packetQueue.length

def consumeThroughput : Channel μ :=
  if ch.throughputLeft > 0 then { ch with throughputLeft := ch.throughputLeft - 1 } else ch

def computeRandomDelay (draw : Nat) : Except String Int :=
  match ch.properties.delayStyle with
  | .uniform => uniformInt ch.properties.minDelay ch.properties.maxDelay draw
  | .poisson => do
    let delay ← poissonInt ch.properties.avgDelay draw
    return clamp delay ch.properties.minDelay ch.properties.maxDelay
  | .one => return 1

def room : Nat := toSizeT ch.properties.size - ch.packetQueue.length

structure Thrown (μ : Type) where
  what : String
  channel : Channel μ

/-- The loop of `pushPacket`, with the copies that it pushes back. It is counted down by the room, which
every turn lessens; when there is none, `canSend` is false. -/
def pushCopies : Nat → (Nat → CopyDraws) → Channel μ → Packet μ →
    Except (Thrown μ) (Channel μ × List (Packet μ))
  | 0, _, ch, _ => return (ch, [])
  | room + 1, copy, ch, pkt =>
    if ch.canSend then do
      let ch := ch.consumeThroughput
      let d ← (ch.computeRandomDelay (copy 0).delay).mapError (Thrown.mk · ch)
      let pkt ← (pkt.setDelay d d (copy 0).setDelay).mapError (Thrown.mk · ch)
      let ch := { ch with packetQueue := ch.packetQueue ++ [pkt] }
      if trueWithProbability ch.properties.duplicateProbability (copy 0).duplicate then do
        let (ch, copies) ← pushCopies room (fun k => copy (k + 1)) ch pkt
        return (ch, pkt :: copies)
      else return (ch, [pkt])
    else return (ch, [])

/-- `pushPacket`: the channel after it, and the copies accepted. -/
def pushPacket (pkt : Packet μ) (draws : PushDraws) :
    Except (Thrown μ) (Channel μ × List (Packet μ)) :=
  if trueWithProbability ch.properties.dropProbability draws.drop then return (ch, [])
  else pushCopies ch.room draws.copy ch pkt

def shuffleChannel (draws : ShuffleDraws) : Channel μ :=
  if ch.packetQueue.length > 1 ∧ trueWithProbability ch.properties.reorderProbability draws.reorder then
    { ch with packetQueue := shuffle draws.places ch.packetQueue }
  else ch

/-- The loop of `receive`, after `recCount` packets: those that it still moves, and what stays. -/
def popArrived (now : Nat) (maxMsgsRec : Int) : Nat → List (Packet μ) → List (Packet μ) × List (Packet μ)
  | _, [] => ([], [])
  | recCount, p :: queue =>
    if p.hasArrived now ∧ (recCount : Int) < maxMsgsRec then
      let (moved, queue) := popArrived now maxMsgsRec (recCount + 1) queue
      (p :: moved, queue)
    else ([], p :: queue)

/-- What `receive` does to one inbound channel: the channel after it, and the packets moved. -/
def receive (now : Nat) (draws : ShuffleDraws) : Channel μ × List (Packet μ) :=
  let ch := ch.shuffleChannel draws
  let (moved, packetQueue) := popArrived now ch.properties.maxMsgsRec 0 ch.packetQueue
  ({ ch with packetQueue }, moved)

end Channel

/-! ## Integers -/

/-- The values of an `int`. -/
abbrev IsInt (v : Int) : Prop := -2 ^ 31 ≤ v ∧ v ≤ INT_MAX

theorem isInt_getInt (v : Int) : IsInt (getInt v) := by
  have hlo := Int.le_bmod (x := v) (m := 2 ^ 32) (by norm_num)
  have hhi := Int.bmod_lt (x := v) (m := 2 ^ 32) (by norm_num)
  unfold IsInt getInt INT_MAX
  norm_num at hlo hhi ⊢
  omega

theorem getInt_eq {v : Int} (h : IsInt v) : getInt v = v := by
  unfold IsInt INT_MAX at h
  apply Int.bmod_eq_of_le <;> norm_num <;> omega

theorem toSizeT_eq {v : Int} (h₀ : 0 ≤ v) (h : v < 2 ^ 64) : (toSizeT v : Int) = v := by
  unfold toSizeT
  omega

theorem uniformInt_ok {minVal maxVal : Int} (h : minVal ≤ maxVal) (draw : Nat) :
    ∃ v, uniformInt minVal maxVal draw = .ok v := by
  unfold uniformInt
  rw [if_neg (not_lt.mpr h)]
  exact ⟨_, rfl⟩

theorem uniformInt_range {minVal maxVal v : Int} {draw : Nat} (h : uniformInt minVal maxVal draw = .ok v) :
    minVal ≤ v ∧ v ≤ maxVal := by
  unfold uniformInt at h
  by_cases hlt : minVal > maxVal
  · rw [if_pos hlt] at h
    cases h
  · rw [if_neg hlt] at h
    obtain rfl := Except.ok.inj h
    have hlo := Int.emod_nonneg draw (show maxVal - minVal + 1 ≠ 0 by omega)
    have hhi := Int.emod_lt_of_pos draw (show 0 < maxVal - minVal + 1 by omega)
    omega

theorem clamp_le {v lo hi bound : Int} (hlo : lo ≤ bound) (hhi : hi ≤ bound) : clamp v lo hi ≤ bound := by
  unfold clamp
  split_ifs <;> omega

theorem shuffle_perm {α : Type*} (draws : Nat → Nat) (xs : List α) : (shuffle draws xs).Perm xs := by
  induction xs with
  | nil => exact .nil
  | cons x xs ih =>
    have hplace : draws xs.length % (xs.length + 1) ≤ (shuffle draws xs).length := by
      rw [ih.length_eq]
      exact Nat.le_of_lt_succ (Nat.mod_lt _ (Nat.succ_pos _))
    exact (List.perm_insertIdx x _ hplace).trans (ih.cons x)

theorem shuffle_congr {α : Type*} {draws draws' : Nat → Nat} {xs : List α}
    (h : ∀ n < xs.length, draws n = draws' n) : shuffle draws xs = shuffle draws' xs := by
  induction xs with
  | nil => rfl
  | cons x xs ih =>
    rw [shuffle, shuffle, h xs.length (Nat.lt_succ_self _), ih fun n hn => h n (hn.trans (Nat.lt_succ_self _))]

theorem insertIdx_length {α : Type*} (front back : List α) (x : α) :
    (front ++ back).insertIdx front.length x = front ++ x :: back := by
  induction front with
  | nil => exact List.insertIdx_zero
  | cons y front ih => rw [List.cons_append, List.length_cons, List.insertIdx_succ_cons, ih, List.cons_append]

theorem exists_shuffle_eq {α : Type*} {xs ys : List α} (h : ys.Perm xs) : ∃ draws, shuffle draws xs = ys := by
  induction xs generalizing ys with
  | nil => exact ⟨id, h.eq_nil.symm⟩
  | cons x xs ih =>
    obtain ⟨front, back, rfl⟩ := List.append_of_mem (h.mem_iff.mpr List.mem_cons_self)
    have hrest : (front ++ back).Perm xs := (List.perm_middle.symm.trans h).cons_inv
    have hplace : front.length < xs.length + 1 := by
      rw [← hrest.length_eq, List.length_append]
      omega
    obtain ⟨draws, hdraws⟩ := ih hrest
    refine ⟨Function.update draws xs.length front.length, ?_⟩
    rw [shuffle, Function.update_self, Nat.mod_eq_of_lt hplace, shuffle_congr fun n hn =>
      Function.update_of_ne hn.ne _ _, hdraws]
    exact insertIdx_length front back x

/-! ## What a push does -/

namespace Channel
variable {μ : Type} {ch ch' : Channel μ} {pkt : Packet μ}

/-- The integers among the properties are `int`s. -/
def Ints (ch : Channel μ) : Prop :=
  IsInt ch.properties.size ∧ IsInt ch.properties.minDelay ∧ IsInt ch.properties.maxDelay

/-- A copy of `pkt` with a delay of its own. -/
def IsCopy (pkt p : Packet μ) : Prop :=
  1 ≤ p.delay ∧ p.delay ≤ INT_MAX ∧ p = { pkt with delay := p.delay }

/-- What has happened when a push of `pkt` has turned `ch` into `ch'`, accepting `copies`. -/
structure Pushed (ch ch' : Channel μ) (pkt : Packet μ) (copies : List (Packet μ)) : Prop where
  properties : ch'.properties = ch.properties
  queue : ch'.packetQueue = ch.packetQueue ++ copies
  isCopy : ∀ p ∈ copies, IsCopy pkt p
  /-- The queue stays within the size. -/
  size : copies ≠ [] → ch'.packetQueue.length ≤ toSizeT ch.properties.size
  /-- A budget that is not negative pays for every copy. -/
  budget : 0 ≤ ch.throughputLeft →
    0 ≤ ch'.throughputLeft ∧ ch'.throughputLeft + copies.length = ch.throughputLeft

theorem Pushed.none (ch : Channel μ) (pkt : Packet μ) : Pushed ch ch pkt [] :=
  ⟨rfl, (List.append_nil _).symm, fun _ h => absurd h List.not_mem_nil, fun h => absurd rfl h,
    fun h => ⟨h, add_zero _⟩⟩

theorem consumeThroughput_properties : ch.consumeThroughput.properties = ch.properties := by
  unfold consumeThroughput
  split_ifs <;> rfl

theorem consumeThroughput_packetQueue : ch.consumeThroughput.packetQueue = ch.packetQueue := by
  unfold consumeThroughput
  split_ifs <;> rfl

theorem consumeThroughput_throughputLeft (h : 0 ≤ ch.throughputLeft) (hsend : ch.canSend) :
    0 ≤ ch.consumeThroughput.throughputLeft ∧
      ch.consumeThroughput.throughputLeft + 1 = ch.throughputLeft := by
  have hne := (of_decide_eq_true hsend).1
  unfold consumeThroughput
  rw [if_pos (by omega)]
  simp only
  omega

theorem computeRandomDelay_le (hints : ch.Ints) {draw : Nat} {d : Int}
    (h : ch.computeRandomDelay draw = .ok d) : d ≤ INT_MAX := by
  obtain ⟨-, hmin, hmax⟩ := hints
  unfold computeRandomDelay at h
  cases hstyle : ch.properties.delayStyle with
  | uniform =>
    simp only [hstyle] at h
    exact (uniformInt_range h).2.trans hmax.2
  | poisson =>
    simp only [hstyle] at h
    obtain ⟨v, -, h⟩ := bind_ok h
    obtain rfl := Except.ok.inj h
    exact clamp_le hmin.2 hmax.2
  | one =>
    simp only [hstyle] at h
    obtain rfl := Except.ok.inj h
    decide

theorem setDelay_eq (pkt : Packet μ) (d : Int) (draw : Nat) :
    pkt.setDelay d d draw = .ok { pkt with delay := max 1 d } := by
  have hone : ∀ v : Int, uniformInt v v draw = .ok v := fun v => by
    unfold uniformInt
    rw [if_neg (lt_irrefl v), sub_self, zero_add, Int.emod_one, add_zero]
  have hmax : (if d < 1 then 1 else d) = max 1 d := by
    split_ifs <;> omega
  unfold Packet.setDelay
  simp only [hmax, gt_iff_lt, lt_self_iff_false, if_false, hone]
  rfl

/-- One turn of the loop, which pushes `p` back. -/
def enqueue (ch : Channel μ) (p : Packet μ) : Channel μ :=
  { ch.consumeThroughput with packetQueue := ch.consumeThroughput.packetQueue ++ [p] }

theorem properties_enqueue (p : Packet μ) : (ch.enqueue p).properties = ch.properties :=
  consumeThroughput_properties

theorem packetQueue_enqueue (p : Packet μ) : (ch.enqueue p).packetQueue = ch.packetQueue ++ [p] := by
  show ch.consumeThroughput.packetQueue ++ [p] = ch.packetQueue ++ [p]
  rw [consumeThroughput_packetQueue]

theorem mapError_ok {ε ε' α : Type} {f : ε → ε'} {x : Except ε α} {a : α} (h : x.mapError f = .ok a) :
    x = .ok a := by
  cases x with
  | error e => cases h
  | ok b => exact congrArg _ (Except.ok.inj h)

/-- A turn of the loop that returns has drawn a delay and pushed a copy with it; then the loop goes on, if
the draw asks for a duplicate. -/
theorem pushCopies_turn {room : Nat} {copy : Nat → CopyDraws} {copies : List (Packet μ)}
    (hsend : ch.canSend) (h : pushCopies (room + 1) copy ch pkt = .ok (ch', copies)) :
    ∃ d, ch.consumeThroughput.computeRandomDelay (copy 0).delay = .ok d ∧
      ∃ p : Packet μ, p = { pkt with delay := max 1 d } ∧
        (copies = [p] ∧ ch' = ch.enqueue p ∨ ∃ rest, copies = p :: rest ∧
          pushCopies room (fun k => copy (k + 1)) (ch.enqueue p) p = .ok (ch', rest)) := by
  rw [pushCopies, if_pos hsend] at h
  obtain ⟨d, hd, h⟩ := bind_ok h
  obtain ⟨p, hp, h⟩ := bind_ok h
  have hp := mapError_ok hp
  rw [setDelay_eq] at hp
  refine ⟨d, mapError_ok hd, p, (Except.ok.inj hp).symm, ?_⟩
  by_cases hdup : trueWithProbability ch.consumeThroughput.properties.duplicateProbability (copy 0).duplicate
  · rw [if_pos hdup] at h
    obtain ⟨⟨ch₁, rest⟩, hrest, h⟩ := bind_ok h
    obtain ⟨rfl, rfl⟩ := Prod.mk.inj (Except.ok.inj h)
    exact .inr ⟨rest, rfl, hrest⟩
  · rw [if_neg hdup] at h
    obtain ⟨rfl, rfl⟩ := Prod.mk.inj (Except.ok.inj h)
    exact .inl ⟨rfl, rfl⟩

theorem IsCopy.trans {p q : Packet μ} (hp : IsCopy pkt p) (hq : IsCopy p q) : IsCopy pkt q := by
  refine ⟨hq.1, hq.2.1, hq.2.2.trans ?_⟩
  rw [hp.2.2]

theorem Pushed.cons {p : Packet μ} {copies : List (Packet μ)} (hsend : ch.canSend) (hp : IsCopy pkt p)
    (h : Pushed (ch.enqueue p) ch' p copies) : Pushed ch ch' pkt (p :: copies) where
  properties := h.properties.trans (properties_enqueue p)
  queue := by
    rw [h.queue, packetQueue_enqueue, List.append_assoc, List.singleton_append]
  isCopy := fun q hq => by
    rcases List.mem_cons.mp hq with rfl | hq
    · exact hp
    · exact hp.trans (h.isCopy q hq)
  size := fun _ => by
    by_cases hnil : copies = []
    · have hroom := (of_decide_eq_true hsend).2
      rw [h.queue, hnil, List.append_nil, packetQueue_enqueue, List.length_append, List.length_singleton]
      exact hroom
    · have hsize := h.size hnil
      rwa [properties_enqueue] at hsize
  budget := fun hnonneg => by
    have hspent := consumeThroughput_throughputLeft hnonneg hsend
    have hrest := h.budget hspent.1
    refine ⟨hrest.1, ?_⟩
    show ch'.throughputLeft + ((copies.length + 1 : Nat) : Int) = ch.throughputLeft
    have hleft : ch'.throughputLeft + copies.length = ch.consumeThroughput.throughputLeft := hrest.2
    push_cast
    omega

theorem Ints.of_properties (hints : ch.Ints) (h : ch'.properties = ch.properties) : ch'.Ints := by
  unfold Ints
  rw [h]
  exact hints

theorem pushCopies_spec {room : Nat} {copy : Nat → CopyDraws} {copies : List (Packet μ)}
    (hints : ch.Ints) (h : pushCopies room copy ch pkt = .ok (ch', copies)) : Pushed ch ch' pkt copies := by
  induction room generalizing copy ch pkt copies with
  | zero =>
    obtain ⟨rfl, rfl⟩ := Prod.mk.inj (Except.ok.inj h)
    exact .none _ _
  | succ room ih =>
    by_cases hsend : ch.canSend
    · obtain ⟨d, hd, p, hp, hturn⟩ := pushCopies_turn hsend h
      have hd' := computeRandomDelay_le (hints.of_properties consumeThroughput_properties) hd
      have hcopy : IsCopy pkt p := by
        subst hp
        exact ⟨le_max_left 1 d, max_le (by decide) hd', rfl⟩
      rcases hturn with ⟨rfl, rfl⟩ | ⟨rest, rfl, hrest⟩
      · exact .cons hsend hcopy (.none _ _)
      · exact .cons hsend hcopy (ih (hints.of_properties consumeThroughput_properties) hrest)
    · rw [pushCopies, if_neg hsend] at h
      obtain ⟨rfl, rfl⟩ := Prod.mk.inj (Except.ok.inj h)
      exact .none _ _

/-- **A push that returns.** It has appended copies of the packet, as many as the size and the budget
allow or fewer, and has changed nothing else but the budget. -/
theorem pushPacket_spec {draws : PushDraws} {copies : List (Packet μ)} (hints : ch.Ints)
    (h : ch.pushPacket pkt draws = .ok (ch', copies)) : Pushed ch ch' pkt copies := by
  unfold pushPacket at h
  by_cases hdrop : trueWithProbability ch.properties.dropProbability draws.drop
  · rw [if_pos hdrop] at h
    obtain ⟨rfl, rfl⟩ := Prod.mk.inj (Except.ok.inj h)
    exact .none _ _
  · rw [if_neg hdrop] at h
    exact pushCopies_spec hints h

/-! ## When a push returns -/

/-- The properties for which no draw throws. -/
structure Drawable (p : ChannelProperties) : Prop where
  avgDelay : 0 < p.avgDelay
  delays : p.minDelay ≤ p.maxDelay

theorem computeRandomDelay_ok (h : Drawable ch.properties) (draw : Nat) :
    ∃ d, ch.computeRandomDelay draw = .ok d := by
  unfold computeRandomDelay
  cases ch.properties.delayStyle with
  | uniform => exact uniformInt_ok h.delays draw
  | poisson =>
    simp only [poissonInt, if_neg (not_le.mpr h.avgDelay)]
    exact ⟨_, rfl⟩
  | one => exact ⟨1, rfl⟩

theorem pushCopies_ok (room : Nat) (copy : Nat → CopyDraws) (pkt : Packet μ)
    (h : Drawable ch.properties) : ∃ r, pushCopies room copy ch pkt = .ok r := by
  induction room generalizing copy ch pkt with
  | zero => exact ⟨_, rfl⟩
  | succ room ih =>
    rw [pushCopies]
    by_cases hsend : ch.canSend
    · rw [if_pos hsend]
      have hsame : ch.consumeThroughput.properties = ch.properties := consumeThroughput_properties
      obtain ⟨d, hd⟩ := computeRandomDelay_ok (hsame ▸ h) (copy 0).delay
      simp only [hd, setDelay_eq, Except.mapError, bind, Except.bind]
      by_cases hdup :
          trueWithProbability ch.consumeThroughput.properties.duplicateProbability (copy 0).duplicate
      · rw [if_pos hdup]
        have hnext : Drawable (ch.enqueue { pkt with delay := max 1 d }).properties := hsame ▸ h
        obtain ⟨r, hr⟩ := ih (fun k => copy (k + 1)) { pkt with delay := max 1 d } hnext
        unfold enqueue at hr
        rw [hr]
        exact ⟨_, rfl⟩
      · rw [if_neg hdup]
        exact ⟨_, rfl⟩
    · rw [if_neg hsend]
      exact ⟨_, rfl⟩

theorem pushPacket_ok (h : Drawable ch.properties) (pkt : Packet μ) (draws : PushDraws) :
    ∃ r, ch.pushPacket pkt draws = .ok r := by
  unfold pushPacket
  by_cases hdrop : trueWithProbability ch.properties.dropProbability draws.drop
  · rw [if_pos hdrop]
    exact ⟨_, rfl⟩
  · rw [if_neg hdrop]
    exact pushCopies_ok _ _ _ h

/-! ## What a round takes out -/

theorem popArrived_append (now : Nat) (maxMsgsRec : Int) (recCount : Nat) (queue : List (Packet μ)) :
    (popArrived now maxMsgsRec recCount queue).1 ++ (popArrived now maxMsgsRec recCount queue).2 = queue := by
  induction queue generalizing recCount with
  | nil => rfl
  | cons p queue ih =>
    rw [popArrived]
    by_cases hpop : p.hasArrived now ∧ (recCount : Int) < maxMsgsRec
    · rw [if_pos hpop]
      exact congrArg (p :: ·) (ih (recCount + 1))
    · rw [if_neg hpop]
      rfl

theorem popArrived_hasArrived (now : Nat) (maxMsgsRec : Int) (recCount : Nat) (queue : List (Packet μ)) :
    ∀ p ∈ (popArrived now maxMsgsRec recCount queue).1, p.hasArrived now := by
  induction queue generalizing recCount with
  | nil => exact fun _ h => absurd h List.not_mem_nil
  | cons p queue ih =>
    intro q hq
    rw [popArrived] at hq
    by_cases hpop : p.hasArrived now ∧ (recCount : Int) < maxMsgsRec
    · rw [if_pos hpop] at hq
      rcases List.mem_cons.mp hq with rfl | hq
      · exact hpop.1
      · exact ih (recCount + 1) q hq
    · rw [if_neg hpop] at hq
      exact absurd hq List.not_mem_nil

theorem popArrived_length (now : Nat) {maxMsgsRec : Int} {recCount : Nat} (queue : List (Packet μ))
    (h : (recCount : Int) ≤ maxMsgsRec) :
    recCount + ((popArrived now maxMsgsRec recCount queue).1.length : Int) ≤ maxMsgsRec := by
  induction queue generalizing recCount with
  | nil =>
    show (recCount : Int) + ((0 : Nat) : Int) ≤ maxMsgsRec
    omega
  | cons p queue ih =>
    rw [popArrived]
    by_cases hpop : p.hasArrived now ∧ (recCount : Int) < maxMsgsRec
    · rw [if_pos hpop]
      have hrest := @ih (recCount + 1) (by omega)
      simp only [List.length_cons]
      push_cast at hrest ⊢
      omega
    · rw [if_neg hpop]
      show (recCount : Int) + ((0 : Nat) : Int) ≤ maxMsgsRec
      omega

theorem shuffleChannel_properties (ch : Channel μ) (draws : ShuffleDraws) :
    (ch.shuffleChannel draws).properties = ch.properties := by
  unfold shuffleChannel
  split_ifs <;> rfl

theorem shuffleChannel_throughputLeft (ch : Channel μ) (draws : ShuffleDraws) :
    (ch.shuffleChannel draws).throughputLeft = ch.throughputLeft := by
  unfold shuffleChannel
  split_ifs <;> rfl

theorem shuffleChannel_perm (ch : Channel μ) (draws : ShuffleDraws) :
    (ch.shuffleChannel draws).packetQueue.Perm ch.packetQueue := by
  unfold shuffleChannel
  split_ifs
  · exact shuffle_perm _ _
  · exact .refl _

theorem shuffleChannel_eq (h : ch.properties.reorderProbability ≤ 0) (draws : ShuffleDraws) :
    ch.shuffleChannel draws = ch := by
  unfold shuffleChannel trueWithProbability
  rw [if_pos h, if_neg (fun hboth => Bool.false_ne_true hboth.2)]

/-- What has happened when a receive in round `now` has turned `ch` into `ch'`, moving `moved`. -/
structure Received (ch ch' : Channel μ) (now : Nat) (moved : List (Packet μ)) : Prop where
  properties : ch'.properties = ch.properties
  throughputLeft : ch'.throughputLeft = ch.throughputLeft
  perm : (moved ++ ch'.packetQueue).Perm ch.packetQueue
  inOrder : ch.properties.reorderProbability ≤ 0 → moved ++ ch'.packetQueue = ch.packetQueue
  hasArrived : ∀ p ∈ moved, p.hasArrived now
  rate : 0 ≤ ch.properties.maxMsgsRec → (moved.length : Int) ≤ ch.properties.maxMsgsRec

/-- **A receive.** It moves packets that have arrived from the front of the queue, which has been shuffled
before if the channel reorders. -/
theorem receive_spec (ch : Channel μ) (now : Nat) (draws : ShuffleDraws) :
    Received ch (ch.receive now draws).1 now (ch.receive now draws).2 := by
  have hsplit : (ch.receive now draws).2 ++ (ch.receive now draws).1.packetQueue =
      (ch.shuffleChannel draws).packetQueue := popArrived_append _ _ _ _
  refine ⟨ch.shuffleChannel_properties draws, ch.shuffleChannel_throughputLeft draws, ?_, fun hzero => ?_,
    popArrived_hasArrived _ _ _ _, fun hrate => ?_⟩
  · rw [hsplit]
    exact ch.shuffleChannel_perm draws
  · rw [hsplit, shuffleChannel_eq hzero]
  · rw [← ch.shuffleChannel_properties draws] at hrate ⊢
    have hlength := popArrived_length now (ch.shuffleChannel draws).packetQueue hrate
    rwa [Nat.cast_zero, zero_add] at hlength

end Channel

/-- A packet that has arrived has waited for its delay. A sum beyond `INT_MAX` wraps around to a negative
`int`, which as a `size_t` is beyond the sum. -/
theorem Packet.le_of_hasArrived {μ : Type} {p : Packet μ} {now : Nat} (hround : IsInt p.round)
    (hdelay : IsInt p.delay) (h : p.hasArrived now) : p.round + p.delay ≤ now := by
  have harrived : toSizeT (getInt (p.round + p.delay)) ≤ now := of_decide_eq_true h
  unfold toSizeT getInt at harrived
  unfold IsInt INT_MAX at hround hdelay
  rw [Int.bmod_def] at harrived
  norm_num at harrived hround hdelay
  split_ifs at harrived <;> omega

end Quantas.Abstract
