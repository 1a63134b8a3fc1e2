import Quantas.Network.Channel

/-!
# The copies of one push

`pushPacket` copies a packet in a loop whose every turn checks the budget and the room, draws a delay, and draws
whether another copy follows. The loop ends because each turn takes a place in the queue, even when a duplicate always
follows. Since the delay is drawn inside the loop, the copies of one call share it only when there is nothing to draw
or no second copy.
-/

namespace Quantas.Abstract.Channel
variable {μ : Type} {ch ch' : Channel μ} {pkt : Packet μ}

/-! ## Turns -/

/-- One turn of the loop of `pushPacket`, up to its last draw: the channel after it, and the copy pushed back unless
the channel cannot send. -/
def turn (ch : Channel μ) (pkt : Packet μ) (draws : CopyDraws) :
    Except (Thrown μ) (Channel μ × Option (Packet μ)) :=
  if ch.canSend then do
    let ch := ch.consumeThroughput
    let d ← (ch.computeRandomDelay draws.delay).mapError (Thrown.mk · ch)
    let pkt ← (pkt.setDelay d d draws.setDelay).mapError (Thrown.mk · ch)
    return ({ ch with packetQueue := ch.packetQueue ++ [pkt] }, some pkt)
  else return (ch, none)

/-- The loop of `pushPacket` as it stands, for at most `fuel` turns. -/
def pushLoop : Nat → (Nat → CopyDraws) → Channel μ → Packet μ →
    Option (Except (Thrown μ) (Channel μ × List (Packet μ)))
  | 0, _, _, _ => none
  | fuel + 1, copy, ch, pkt =>
    match ch.turn pkt (copy 0) with
    | .error thrown => some (.error thrown)
    | .ok (ch, none) => some (.ok (ch, []))
    | .ok (ch, some p) =>
      if trueWithProbability ch.properties.duplicateProbability (copy 0).duplicate then
        (pushLoop fuel (fun k => copy (k + 1)) ch p).map (Except.map fun r => (r.1, p :: r.2))
      else some (.ok (ch, [p]))

/-- The packet with the delay `d`, as `setDelay` sets it. -/
def delayed (pkt : Packet μ) (d : Int) : Packet μ := { pkt with delay := max 1 d }

theorem computeRandomDelay_congr (h : ch'.properties = ch.properties) (draw : Nat) :
    ch'.computeRandomDelay draw = ch.computeRandomDelay draw := by
  unfold computeRandomDelay
  rw [h]

theorem turn_of_not_canSend (h : ¬ ch.canSend) (draws : CopyDraws) : ch.turn pkt draws = .ok (ch, none) := by
  unfold turn
  rw [if_neg h]
  rfl

theorem turn_of_ok (h : ch.canSend) {draws : CopyDraws} {d : Int} (hd : ch.computeRandomDelay draws.delay = .ok d) :
    ch.turn pkt draws = .ok (ch.enqueue (delayed pkt d), some (delayed pkt d)) := by
  unfold turn
  rw [if_pos h]
  simp only [computeRandomDelay_congr consumeThroughput_properties, hd, setDelay_eq, Except.mapError, bind,
    Except.bind]
  rfl

theorem turn_of_error (h : ch.canSend) {draws : CopyDraws} {what : String}
    (hd : ch.computeRandomDelay draws.delay = .error what) :
    ch.turn pkt draws = .error ⟨what, ch.consumeThroughput⟩ := by
  unfold turn
  rw [if_pos h]
  simp only [computeRandomDelay_congr consumeThroughput_properties, hd, Except.mapError, bind, Except.bind]

theorem pushCopies_succ (room : Nat) (copy : Nat → CopyDraws) :
    pushCopies (room + 1) copy ch pkt =
      match ch.turn pkt (copy 0) with
      | .error thrown => .error thrown
      | .ok (ch, none) => .ok (ch, [])
      | .ok (ch, some p) =>
        if trueWithProbability ch.properties.duplicateProbability (copy 0).duplicate then
          (pushCopies room (fun k => copy (k + 1)) ch p).map fun r => (r.1, p :: r.2)
        else .ok (ch, [p]) := by
  rw [pushCopies]
  by_cases hsend : ch.canSend
  · rw [if_pos hsend]
    cases hd : ch.computeRandomDelay (copy 0).delay with
    | error what =>
      rw [turn_of_error hsend hd]
      simp only [computeRandomDelay_congr consumeThroughput_properties, hd, Except.mapError, bind, Except.bind]
    | ok d =>
      rw [turn_of_ok hsend hd]
      simp only [computeRandomDelay_congr consumeThroughput_properties, hd, setDelay_eq, Except.mapError, bind,
        Except.bind]
      show (if trueWithProbability ch.consumeThroughput.properties.duplicateProbability (copy 0).duplicate then _
        else _) = (if trueWithProbability ch.consumeThroughput.properties.duplicateProbability (copy 0).duplicate
        then _ else _)
      split_ifs
      · unfold enqueue delayed
        generalize pushCopies room _ _ _ = outcome
        cases outcome with
        | error thrown => rfl
        | ok r => rfl
      · rfl
  · rw [if_neg hsend, turn_of_not_canSend hsend]
    rfl

/-! ## The loop ends -/

theorem room_pos_of_canSend (h : ch.canSend) : 0 < ch.room := by
  have hroom := (of_decide_eq_true h).2
  unfold room
  omega

theorem room_enqueue (p : Packet μ) : (ch.enqueue p).room = ch.room - 1 := by
  unfold room
  rw [properties_enqueue, packetQueue_enqueue, List.length_append, List.length_singleton]
  omega

/-- **The loop of a push ends.** Whatever is drawn, it takes at most one turn more than there is room, and does what
`pushCopies` does. -/
theorem pushLoop_ends {fuel : Nat} (copy : Nat → CopyDraws) (ch : Channel μ) (pkt : Packet μ)
    (h : ch.room < fuel) : pushLoop fuel copy ch pkt = some (pushCopies ch.room copy ch pkt) := by
  induction fuel generalizing copy ch pkt with
  | zero => omega
  | succ fuel ih =>
    rw [pushLoop]
    by_cases hsend : ch.canSend
    · obtain ⟨room, hroom⟩ : ∃ room, ch.room = room + 1 := ⟨ch.room - 1, by have := room_pos_of_canSend hsend; omega⟩
      rw [hroom, pushCopies_succ]
      cases hd : ch.computeRandomDelay (copy 0).delay with
      | error what => rw [turn_of_error hsend hd]
      | ok d =>
        rw [turn_of_ok hsend hd]
        dsimp only
        split_ifs
        · have hnext : (ch.enqueue (delayed pkt d)).room = ch.room - 1 := room_enqueue _
          rw [ih _ _ _ (by omega), hnext, hroom]
          rfl
        · rfl
    · rw [turn_of_not_canSend hsend]
      cases hroom : ch.room with
      | zero => rfl
      | succ room =>
        rw [pushCopies_succ, turn_of_not_canSend hsend]

/-! ## The copies -/

def queueAfter : Except (Thrown μ) (Channel μ × List (Packet μ)) → List (Packet μ)
  | .ok (ch, _) => ch.packetQueue
  | .error thrown => thrown.channel.packetQueue

def appended (ch : Channel μ) (outcome : Except (Thrown μ) (Channel μ × List (Packet μ))) : List (Packet μ) :=
  (queueAfter outcome).drop ch.packetQueue.length

theorem queueAfter_map {f : List (Packet μ) → List (Packet μ)}
    (outcome : Except (Thrown μ) (Channel μ × List (Packet μ))) :
    queueAfter (outcome.map fun r => (r.1, f r.2)) = queueAfter outcome := by
  cases outcome <;> rfl

theorem queueAfter_turn {room : Nat} {copy : Nat → CopyDraws} {d : Int} (hsend : ch.canSend)
    (hd : ch.computeRandomDelay (copy 0).delay = .ok d) :
    queueAfter (pushCopies (room + 1) copy ch pkt) =
      if trueWithProbability ch.properties.duplicateProbability (copy 0).duplicate then
        queueAfter (pushCopies room (fun k => copy (k + 1)) (ch.enqueue (delayed pkt d)) (delayed pkt d))
      else ch.packetQueue ++ [delayed pkt d] := by
  rw [pushCopies_succ, turn_of_ok hsend hd]
  dsimp only
  rw [properties_enqueue]
  split_ifs
  · exact queueAfter_map (f := fun copies => delayed pkt d :: copies) _
  · exact packetQueue_enqueue _

theorem queueAfter_pushCopies (room : Nat) (copy : Nat → CopyDraws) (ch : Channel μ) (pkt : Packet μ) :
    ∃ copies, queueAfter (pushCopies room copy ch pkt) = ch.packetQueue ++ copies ∧
      ∀ p ∈ copies, ∃ draw d, ch.computeRandomDelay draw = .ok d ∧ p = delayed pkt d := by
  induction room generalizing copy ch pkt with
  | zero => exact ⟨[], (List.append_nil _).symm, by simp⟩
  | succ room ih =>
    by_cases hsend : ch.canSend
    · cases hd : ch.computeRandomDelay (copy 0).delay with
      | error what =>
        refine ⟨[], ?_, by simp⟩
        rw [pushCopies_succ, turn_of_error hsend hd, List.append_nil]
        exact consumeThroughput_packetQueue
      | ok d =>
        have hfirst : ∀ p ∈ [delayed pkt d], ∃ draw d, ch.computeRandomDelay draw = .ok d ∧ p = delayed pkt d := by
          intro p hp
          exact ⟨_, d, hd, List.mem_singleton.mp hp⟩
        rw [queueAfter_turn hsend hd]
        split_ifs
        · obtain ⟨copies, hqueue, hcopies⟩ :=
            ih (fun k => copy (k + 1)) (ch.enqueue (delayed pkt d)) (delayed pkt d)
          refine ⟨delayed pkt d :: copies, ?_, ?_⟩
          · rw [hqueue, packetQueue_enqueue, List.append_assoc, List.singleton_append]
          · intro p hp
            rcases List.mem_cons.mp hp with rfl | hp
            · exact ⟨_, d, hd, rfl⟩
            · obtain ⟨draw, d', hd', rfl⟩ := hcopies p hp
              exact ⟨draw, d', (computeRandomDelay_congr (properties_enqueue _) _).symm.trans hd', rfl⟩
        · exact ⟨_, rfl, hfirst⟩
    · refine ⟨[], ?_, by simp⟩
      rw [pushCopies_succ, turn_of_not_canSend hsend, List.append_nil]
      rfl

/-! ## When the copies share their delay -/

/-- The delays that the channel draws are raised to one number, or every draw throws. -/
def OneDelay (p : ChannelProperties) : Prop :=
  match p.delayStyle with
  | .one => True
  | .uniform => p.maxDelay < p.minDelay ∨ max 1 p.minDelay = max 1 p.maxDelay
  | .poisson => p.avgDelay ≤ 0 ∨ max 1 p.minDelay = max 1 p.maxDelay

/-- A call may append a second copy. -/
structure TwoCopies (ch : Channel μ) : Prop where
  kept : ch.properties.dropProbability < 1
  duplicated : 0 < ch.properties.duplicateProbability
  budget : ch.throughputLeft ≠ 0 ∧ ch.throughputLeft ≠ 1
  room : 2 ≤ ch.room

theorem max_one_of_oneDelay (h : OneDelay ch.properties) {draw draw' : Nat} {d d' : Int}
    (hd : ch.computeRandomDelay draw = .ok d) (hd' : ch.computeRandomDelay draw' = .ok d') : max 1 d = max 1 d' := by
  unfold OneDelay at h
  unfold computeRandomDelay at hd hd'
  cases hstyle : ch.properties.delayStyle with
  | one =>
    simp only [hstyle] at hd hd'
    rw [← Except.ok.inj hd, ← Except.ok.inj hd']
  | uniform =>
    simp only [hstyle] at h hd hd'
    have hrange := uniformInt_range hd
    have hrange' := uniformInt_range hd'
    omega
  | poisson =>
    simp only [hstyle] at h hd hd'
    obtain ⟨v, hv, hd⟩ := bind_ok hd
    obtain ⟨v', hv', hd'⟩ := bind_ok hd'
    have hpos : ¬ ch.properties.avgDelay ≤ 0 := by
      intro hle
      rw [poissonInt, if_pos hle] at hv
      cases hv
    rw [poissonInt, if_neg hpos] at hv hv'
    obtain rfl := Except.ok.inj hv
    obtain rfl := Except.ok.inj hv'
    obtain rfl := Except.ok.inj hd
    obtain rfl := Except.ok.inj hd'
    have hsame := h.resolve_left hpos
    unfold clamp
    split_ifs <;> omega

theorem exists_delays (h : ¬ OneDelay ch.properties) :
    ∃ draw draw' d d', ch.computeRandomDelay draw = .ok d ∧ ch.computeRandomDelay draw' = .ok d' ∧
      max 1 d ≠ max 1 d' := by
  unfold OneDelay at h
  unfold computeRandomDelay
  cases hstyle : ch.properties.delayStyle with
  | one => simp [hstyle] at h
  | uniform =>
    simp only [hstyle, not_or, not_lt] at h
    obtain ⟨hle, hne⟩ := h
    have hdraw : ∀ draw : Nat, uniformInt ch.properties.minDelay ch.properties.maxDelay draw =
        .ok (ch.properties.minDelay + draw % (ch.properties.maxDelay - ch.properties.minDelay + 1)) := by
      intro draw
      unfold uniformInt
      rw [if_neg (by omega)]
    have hspan : (((ch.properties.maxDelay - ch.properties.minDelay).toNat : Int) %
        (ch.properties.maxDelay - ch.properties.minDelay + 1)) =
          ch.properties.maxDelay - ch.properties.minDelay := by
      rw [Int.toNat_of_nonneg (by omega), Int.emod_eq_of_lt (by omega) (by omega)]
    refine ⟨0, (ch.properties.maxDelay - ch.properties.minDelay).toNat, _, _, hdraw _, hdraw _, ?_⟩
    rw [hspan, Nat.cast_zero, Int.zero_emod, add_zero, add_sub_cancel]
    exact hne
  | poisson =>
    simp only [hstyle, not_or, not_le] at h
    obtain ⟨hpos, hne⟩ := h
    have hdraw : ∀ draw : Nat, (do
        let delay ← poissonInt ch.properties.avgDelay draw
        return clamp delay ch.properties.minDelay ch.properties.maxDelay : Except String Int) =
          .ok (clamp draw ch.properties.minDelay ch.properties.maxDelay) := by
      intro draw
      rw [poissonInt, if_neg (by omega)]
      rfl
    refine ⟨0, (max ch.properties.minDelay ch.properties.maxDelay).toNat, _, _, hdraw _, hdraw _, ?_⟩
    unfold clamp
    split_ifs <;> omega

theorem trueWithProbability_pos {p draw : ℚ} (h : trueWithProbability p draw) : 0 < p := by
  unfold trueWithProbability at h
  by_contra hle
  rw [if_pos (not_lt.mp hle)] at h
  cases h

theorem trueWithProbability_zero {p : ℚ} (h : 0 < p) : trueWithProbability p 0 := by
  unfold trueWithProbability
  rw [if_neg (not_le.mpr h)]
  split_ifs
  · rfl
  · exact decide_eq_true h

theorem not_trueWithProbability_self {p : ℚ} (h : p < 1) : ¬ trueWithProbability p p := by
  unfold trueWithProbability
  split_ifs with hzero hone
  · simp
  · exact absurd h (not_lt.mpr hone)
  · simp

theorem throughputLeft_enqueue (h : 0 < ch.throughputLeft) (p : Packet μ) :
    (ch.enqueue p).throughputLeft = ch.throughputLeft - 1 := by
  show ch.consumeThroughput.throughputLeft = _
  unfold consumeThroughput
  rw [if_pos h]

theorem throughputLeft_enqueue_of_le (h : ch.throughputLeft ≤ 0) (p : Packet μ) :
    (ch.enqueue p).throughputLeft = ch.throughputLeft := by
  show ch.consumeThroughput.throughputLeft = _
  unfold consumeThroughput
  rw [if_neg (not_lt.mpr h)]

theorem canSend_iff : ch.canSend ↔ ch.throughputLeft ≠ 0 ∧ 0 < ch.room := by
  unfold canSend room
  rw [decide_eq_true_iff]
  omega

theorem length_le_one (h : ¬ ch.TwoCopies) (hkept : ch.properties.dropProbability < 1) (copy : Nat → CopyDraws)
    (pkt : Packet μ) :
    ∃ copies, queueAfter (pushCopies ch.room copy ch pkt) = ch.packetQueue ++ copies ∧ copies.length ≤ 1 := by
  by_cases hsend : ch.canSend
  · obtain ⟨hbudget, hroom⟩ := canSend_iff.mp hsend
    obtain ⟨room, hsucc⟩ : ∃ room, ch.room = room + 1 := ⟨ch.room - 1, by omega⟩
    rw [hsucc]
    cases hd : ch.computeRandomDelay (copy 0).delay with
    | error what =>
      refine ⟨[], ?_, by simp⟩
      rw [pushCopies_succ, turn_of_error hsend hd, List.append_nil]
      exact consumeThroughput_packetQueue
    | ok d =>
      refine ⟨[delayed pkt d], ?_, by simp⟩
      rw [queueAfter_turn hsend hd]
      split_ifs with hdup
      · cases room with
        | zero => exact packetQueue_enqueue _
        | succ room =>
          -- there is room for a second copy, so the budget was for one
          have hone : ch.throughputLeft = 1 := by
            by_contra hne
            exact h ⟨hkept, trueWithProbability_pos hdup, ⟨hbudget, hne⟩, by omega⟩
          have hspent : ¬ (ch.enqueue (delayed pkt d)).canSend := by
            intro hagain
            have hleft : (ch.enqueue (delayed pkt d)).throughputLeft = ch.throughputLeft - 1 :=
              throughputLeft_enqueue (by omega) _
            exact (canSend_iff.mp hagain).1 (by omega)
          rw [pushCopies_succ, turn_of_not_canSend hspent]
          exact packetQueue_enqueue _
      · rfl
  · refine ⟨[], ?_, by simp⟩
    cases ch.room with
    | zero => exact (List.append_nil _).symm
    | succ room =>
      rw [pushCopies_succ, turn_of_not_canSend hsend, List.append_nil]
      rfl

theorem exists_two_copies (h : ch.TwoCopies) {draw draw' : Nat} {d d' : Int}
    (hd : ch.computeRandomDelay draw = .ok d) (hd' : ch.computeRandomDelay draw' = .ok d') (pkt : Packet μ) :
    ∃ draws : PushDraws, delayed pkt d ∈ appended ch (ch.pushPacket pkt draws) ∧
      delayed pkt d' ∈ appended ch (ch.pushPacket pkt draws) := by
  obtain ⟨hkept, hdup, hbudget, hroom⟩ := h
  let copy : Nat → CopyDraws := fun k => { delay := if k = 0 then draw else draw', setDelay := 0, duplicate := 0 }
  obtain ⟨room, hsucc⟩ : ∃ room, ch.room = room + 2 := ⟨ch.room - 2, by omega⟩
  refine ⟨{ drop := ch.properties.dropProbability, copy }, ?_⟩
  have hpush : ch.pushPacket pkt { drop := ch.properties.dropProbability, copy } =
      pushCopies (room + 2) copy ch pkt := by
    rw [pushPacket, if_neg (not_trueWithProbability_self hkept), hsucc]
  rw [hpush]
  have hsend : ch.canSend := canSend_iff.mpr ⟨hbudget.1, by omega⟩
  let next := ch.enqueue (delayed pkt d)
  have hprops : next.properties = ch.properties := properties_enqueue _
  have hagain : next.canSend := by
    apply canSend_iff.mpr
    constructor
    · rcases lt_or_ge 0 ch.throughputLeft with hpos | hle
      · rw [throughputLeft_enqueue hpos]
        omega
      · rw [throughputLeft_enqueue_of_le hle]
        exact hbudget.1
    · rw [room_enqueue]
      omega
  have hqueue : next.packetQueue = ch.packetQueue ++ [delayed pkt d] := packetQueue_enqueue _
  have hfirst : queueAfter (pushCopies (room + 2) copy ch pkt) =
      queueAfter (pushCopies (room + 1) (fun k => copy (k + 1)) next (delayed pkt d)) := by
    rw [queueAfter_turn hsend hd, if_pos (trueWithProbability_zero hdup)]
  have hdelay : next.computeRandomDelay draw' = .ok d' := (computeRandomDelay_congr hprops draw').trans hd'
  have hsecond : ∃ rest, queueAfter (pushCopies (room + 1) (fun k => copy (k + 1)) next (delayed pkt d)) =
      next.packetQueue ++ delayed pkt d' :: rest := by
    rw [queueAfter_turn hagain hdelay, hprops, if_pos (trueWithProbability_zero hdup)]
    obtain ⟨rest, hrest, -⟩ := queueAfter_pushCopies room (fun k => copy (k + 1 + 1))
      (next.enqueue (delayed (delayed pkt d) d')) (delayed (delayed pkt d) d')
    refine ⟨rest, hrest.trans ?_⟩
    rw [packetQueue_enqueue, List.append_assoc, List.singleton_append]
    rfl
  obtain ⟨rest, hrest⟩ := hsecond
  have happended : appended ch (pushCopies (room + 2) copy ch pkt) =
      delayed pkt d :: delayed pkt d' :: rest := by
    rw [appended, hfirst, hrest, hqueue, List.append_assoc, List.drop_left]
    rfl
  rw [happended]
  simp

/-- What the description of `duplicateProbability` promises of every push of `pkt`: its loop ends, and its copies are
the same packet, with one delay, body, source, target and round. -/
def DuplicatesAlike (ch : Channel μ) (pkt : Packet μ) : Prop :=
  ∀ draws : PushDraws,
    (∀ fuel, ch.room < fuel → pushLoop fuel draws.copy ch pkt = some (pushCopies ch.room draws.copy ch pkt)) ∧
      ∀ p ∈ appended ch (ch.pushPacket pkt draws), ∀ q ∈ appended ch (ch.pushPacket pkt draws), p = q

/-- **When duplicates share their delay.** For every state of a channel and every packet, the copies of a push are
alike whatever is drawn exactly when the channel has one delay to draw or the call cannot append a second copy. -/
theorem duplicates_alike_iff (ch : Channel μ) (pkt : Packet μ) :
    ch.DuplicatesAlike pkt ↔ OneDelay ch.properties ∨ ¬ ch.TwoCopies := by
  constructor
  · intro h
    by_contra hnone
    obtain ⟨hdelays, htwo⟩ := not_or.mp hnone
    obtain ⟨draw, draw', d, d', hd, hd', hne⟩ := exists_delays hdelays
    obtain ⟨draws, hmem, hmem'⟩ := exists_two_copies (not_not.mp htwo) hd hd' pkt
    exact hne (congrArg Packet.delay ((h draws).2 _ hmem _ hmem'))
  · intro h draws
    refine ⟨fun fuel hfuel => pushLoop_ends draws.copy ch pkt hfuel, ?_⟩
    intro p hp q hq
    unfold pushPacket at hp hq
    by_cases hdrop : trueWithProbability ch.properties.dropProbability draws.drop
    · rw [if_pos hdrop] at hp
      have hnothing : appended ch (.ok (ch, [])) = [] := List.drop_length
      exact absurd (hnothing ▸ hp) List.not_mem_nil
    rw [if_neg hdrop] at hp hq
    rcases h with hdelay | htwo
    · obtain ⟨copies, hqueue, hcopies⟩ := queueAfter_pushCopies ch.room draws.copy ch pkt
      rw [appended, hqueue, List.drop_left] at hp hq
      obtain ⟨_, d, hd, rfl⟩ := hcopies p hp
      obtain ⟨_, d', hd', rfl⟩ := hcopies q hq
      unfold delayed
      rw [max_one_of_oneDelay hdelay hd hd']
    · have hkept : ch.properties.dropProbability < 1 := by
        by_contra hone
        apply hdrop
        unfold trueWithProbability
        rw [if_neg (by linarith [not_lt.mp hone]), if_pos (not_lt.mp hone)]
      obtain ⟨copies, hqueue, hlength⟩ := length_le_one htwo hkept draws.copy pkt
      rw [appended, hqueue, List.drop_left] at hp hq
      cases copies with
      | nil => exact absurd hp List.not_mem_nil
      | cons a rest =>
        obtain rfl : rest = [] := by
          apply List.eq_nil_of_length_eq_zero
          rw [List.length_cons] at hlength
          omega
        rw [List.mem_singleton.mp hp, List.mem_singleton.mp hq]

def alwaysTwice : ChannelParams where
  duplicateProbability := some 1
  size := some 2
  minDelay := some 1
  maxDelay := some 3
  maxMsgsRec := some 2

theorem duplicates_differ :
    let ch : Channel String := .setParameters alwaysTwice 0 5
    let draws : PushDraws := { drop := 0, copy := fun k => { delay := 2 * k, setDelay := 0, duplicate := 0 } }
    (appended ch (ch.pushPacket (.make 0 0 1 "m") draws)).map (·.delay) = [1, 3] := by
  decide +kernel

end Quantas.Abstract.Channel
