import Quantas.Lib.Footprint
import Quantas.Network.Channel
import Quantas.Network.Wiring

/-!
# A round and its schedule

`Simulation::run` lets a pool of threads call every peer's `receive`, waits, lets it call every peer's
`tryPerformComputation`, and waits again. A phase is a list of positions, in the order in which the calls of
their peers happen to take effect: whatever the partition of the index range among the threads, and however
they interleave, that list is a permutation of the range.

Random draws are fixed: each channel has a draw for each push into it and for each receive from it, counted in
`Line`. A peer's own draws are part of its state. A computation may read and write what is its peer's own
(`Own`), its interface among it, and send; it cannot get hold of a channel that the interface was not given. An
exception ends the call that it leaves.

`round_schedule_independent` says that the state after a round does not depend on the two lists.
-/

namespace Quantas.Abstract

open Lib

/-! ## The state -/

/-- What belongs to the peer at position `i`: its own state, and its network interface, whose channels are
among those that the network gave it. -/
structure Own (net : Network) (i : Nat) (σ μ : Type) where
  state : σ
  crashRecoveryRound : Nat := 0
  publicId : InterfaceId
  neighbors : List InterfaceId
  inStream : List (Packet μ) := []
  inBoundChannels : List (InterfaceId × Quantas.Channel)
  outBoundChannels : List (InterfaceId × Quantas.Channel)
  inBound_subset : inBoundChannels ⊆ (net.peers i).inBoundChannels
  outBound_subset : outBoundChannels ⊆ (net.peers i).outBoundChannels

/-- A channel, and how often it has been pushed into and received from. -/
structure Line (μ : Type) where
  channel : Channel μ
  pushes : Nat := 0
  receives : Nat := 0

namespace Line
variable {μ : Type} (line : Line μ)

def push (pkt : Packet μ) (draws : PushDraws) : Line μ × Option String :=
  match line.channel.pushPacket pkt draws with
  | .ok (channel, _) => ({ line with channel, pushes := line.pushes + 1 }, none)
  | .error thrown => ({ line with channel := thrown.channel, pushes := line.pushes + 1 }, some thrown.what)

def receive (now : Nat) (draws : ShuffleDraws) : Line μ × List (Packet μ) :=
  let (channel, moved) := line.channel.receive now draws
  ({ line with channel, receives := line.receives + 1 }, moved)

end Line

/-- The peers by position, and the channels by handle. -/
structure World (net : Network) (σ μ : Type) where
  peers : (i : Nat) → Own net i σ μ
  lines : Nat → Line μ

/-- The draws of the channels: those of the `k`-th push and of the `k`-th receive, by handle. -/
structure Draws where
  push : Nat → Nat → PushDraws
  shuffle : Nat → Nat → ShuffleDraws

/-- A `unicastTo` call, and what the peer has become by then. -/
structure Send (net : Network) (i : Nat) (σ μ : Type) where
  own : Own net i σ μ
  msg : μ
  dest : InterfaceId

/-- What a computation does: its sends, and what the peer is in the end. -/
structure Computation (net : Network) (i : Nat) (σ μ : Type) where
  sends : List (Send net i σ μ)
  own : Own net i σ μ

/-- `performComputation`, a function of the position, the round and what is the peer's own. -/
abbrev Algorithm (net : Network) (σ μ : Type) :=
  (i : Nat) → Nat → Own net i σ μ → Computation net i σ μ

namespace World
variable {net : Network} {σ μ : Type} (now : Nat) (draws : Draws)

def setPeer (w : World net σ μ) (i : Nat) (own : Own net i σ μ) : World net σ μ :=
  { w with peers := Function.update w.peers i own }

def setLine (w : World net σ μ) (handle : Nat) (line : Line μ) : World net σ μ :=
  { w with lines := Function.update w.lines handle line }

/-! ## The receive phase -/

/-- The body of the loop of `receive`, for the channel with the given handle. -/
def receiveFrom (i handle : Nat) (w : World net σ μ) : World net σ μ :=
  let (line, moved) := (w.lines handle).receive now (draws.shuffle handle (w.lines handle).receives)
  let own := w.peers i
  (w.setPeer i { own with inStream := own.inStream ++ moved }).setLine handle line

/-- The channels of a multimap in the order of its iterator. -/
def iterate (channels : List (InterfaceId × Quantas.Channel)) : List (InterfaceId × Quantas.Channel) :=
  channels.insertionSort fun a b => a.1 ≤ b.1

/-- `NetworkInterfaceAbstract::receive`. -/
def receive (i : Nat) (w : World net σ μ) : World net σ μ :=
  (iterate (w.peers i).inBoundChannels).foldl (fun w e => w.receiveFrom now draws i e.2.handle) w

/-! ## The compute phase -/

/-- Pushes a packet into the channel with the given handle; the exception is what it throws. -/
def pushPacket (handle : Nat) (pkt : Packet μ) (w : World net σ μ) : World net σ μ × Option String :=
  let (line, thrown) := (w.lines handle).push pkt (draws.push handle (w.lines handle).pushes)
  (w.setLine handle line, thrown)

/-- The loop of `unicastTo` over the channels under one key. -/
def pushAll (pkt : Packet μ) :
    List (InterfaceId × Quantas.Channel) → World net σ μ → World net σ μ × Option String
  | [], w => (w, none)
  | e :: rest, w =>
    let (w, thrown) := w.pushPacket draws e.2.handle pkt
    match thrown with
    | none => pushAll pkt rest w
    | some what => (w, some what)

/-- `NetworkInterfaceAbstract::unicastTo`. -/
def unicastTo (i : Nat) (msg : μ) (nbr : InterfaceId) (w : World net σ μ) : World net σ μ × Option String :=
  let own := w.peers i
  if nbr ∈ own.neighbors then
    w.pushAll draws (.make now own.publicId nbr msg) (own.outBoundChannels.filter (·.1 = nbr))
  else (w, none)

/-- The sends of a computation, up to one that throws; then the rest of the computation. -/
def runSends (i : Nat) (last : Own net i σ μ) : List (Send net i σ μ) → World net σ μ → World net σ μ
  | [], w => w.setPeer i last
  | s :: rest, w =>
    let (w, thrown) := (w.setPeer i s.own).unicastTo now draws i s.msg s.dest
    match thrown with
    | none => runSends i last rest w
    | some _ => w

def tryPerformComputation (performComputation : Algorithm net σ μ) (i : Nat) (w : World net σ μ) :
    World net σ μ :=
  let own := w.peers i
  if own.crashRecoveryRound > now then w
  else
    let c := performComputation i now own
    w.runSends now draws i c.own c.sends

/-- A round: the calls of the receive phase, in the order of `receives`, then those of the compute phase, in
the order of `computes`. -/
def round (performComputation : Algorithm net σ μ) (receives computes : List Nat) (w : World net σ μ) :
    World net σ μ :=
  computes.foldl (fun w i => w.tryPerformComputation now draws performComputation i)
    (receives.foldl (fun w i => w.receive now draws i) w)

/-! ## The cells -/

end World

inductive Cell
  | peer (i : Nat)
  | line (handle : Nat)

def Cell.Content (net : Network) (σ μ : Type) : Cell → Type
  | .peer i => Own net i σ μ
  | .line _ => Line μ

namespace World
variable {net : Network} {σ μ : Type} {now : Nat} {draws : Draws}

def read : (k : Cell) → World net σ μ → k.Content net σ μ
  | .peer i, w => w.peers i
  | .line handle, w => w.lines handle

theorem ext_cells (w w' : World net σ μ) (h : ∀ k, read k w = read k w') : w = w' := by
  obtain ⟨peers, lines⟩ := w
  obtain ⟨peers', lines'⟩ := w'
  obtain rfl : peers = peers' := funext fun i => h (.peer i)
  obtain rfl : lines = lines' := funext fun handle => h (.line handle)
  rfl

@[simp] theorem setPeer_self (w : World net σ μ) {i : Nat} (own : Own net i σ μ) :
    (w.setPeer i own).peers i = own :=
  Function.update_self ..

theorem setPeer_other (w : World net σ μ) {i j : Nat} (own : Own net i σ μ) (h : j ≠ i) :
    (w.setPeer i own).peers j = w.peers j :=
  Function.update_of_ne h _ _

@[simp] theorem setLine_self (w : World net σ μ) (handle : Nat) (line : Line μ) :
    (w.setLine handle line).lines handle = line :=
  Function.update_self ..

theorem setLine_other (w : World net σ μ) {handle other : Nat} (line : Line μ) (h : other ≠ handle) :
    (w.setLine handle line).lines other = w.lines other :=
  Function.update_of_ne h _ _

section cells
variable {S : Set Cell} {i handle : Nat}

theorem dependsOn_peer (hi : .peer i ∈ S) : DependsOn read S fun w : World net σ μ => w.peers i :=
  fun _ _ h => h _ hi

theorem dependsOn_line (hh : .line handle ∈ S) :
    DependsOn read S fun w : World net σ μ => w.lines handle :=
  fun _ _ h => h _ hh

theorem within_setPeer (hi : .peer i ∈ S) (own : Own net i σ μ) :
    Within read S fun w : World net σ μ => w.setPeer i own := by
  refine Within.write hi own (fun w => setPeer_self w own) fun w k hk => ?_
  cases k with
  | peer j => exact setPeer_other w own fun heq => hk (congrArg Cell.peer heq)
  | line handle => rfl

theorem within_setLine (hh : .line handle ∈ S) (line : Line μ) :
    Within read S fun w : World net σ μ => w.setLine handle line := by
  refine Within.write hh line (fun w => setLine_self w handle line) fun w k hk => ?_
  cases k with
  | peer j => rfl
  | line other => exact setLine_other w line fun heq => hk (congrArg Cell.line heq)

theorem within_receiveFrom (hi : .peer i ∈ S) (hh : .line handle ∈ S) :
    Within read S fun w : World net σ μ => w.receiveFrom now draws i handle := by
  have hv : DependsOn read S fun w : World net σ μ => (w.peers i, w.lines handle) := fun w w' h =>
    Prod.ext (dependsOn_peer hi w w' h) (dependsOn_line hh w w' h)
  exact Within.choose (fun v w =>
    let (line, moved) := v.2.receive now (draws.shuffle handle v.2.receives)
    (w.setPeer i { v.1 with inStream := v.1.inStream ++ moved }).setLine handle line) hv
    fun w => (within_setLine hh _).comp (within_setPeer hi _)

theorem returns_pushPacket (hh : .line handle ∈ S) (pkt : Packet μ) :
    Returns read S fun w : World net σ μ => w.pushPacket draws handle pkt where
  within := Within.choose
    (fun line w => w.setLine handle (line.push pkt (draws.push handle line.pushes)).1) (dependsOn_line hh)
    fun w => within_setLine hh _
  result w w' h := by
    have hline : w.lines handle = w'.lines handle := dependsOn_line hh w w' h
    exact congrArg (fun line : Line μ => (line.push pkt (draws.push handle line.pushes)).2) hline

theorem returns_pushAll (pkt : Packet μ) {channels : List (InterfaceId × Quantas.Channel)}
    (h : ∀ e ∈ channels, .line e.2.handle ∈ S) :
    Returns read S fun w : World net σ μ => w.pushAll draws pkt channels := by
  induction channels with
  | nil => exact .pure none
  | cons e rest ih =>
    have hpush : Returns read S fun w : World net σ μ => w.pushPacket draws e.2.handle pkt :=
      returns_pushPacket (h e List.mem_cons_self) pkt
    refine hpush.bind (fun thrown w => match thrown with
      | none => w.pushAll draws pkt rest
      | some what => (w, some what)) fun thrown => ?_
    cases thrown with
    | none => exact ih fun e he => h e (List.mem_cons_of_mem _ he)
    | some what => exact .pure (some what)

end cells

/-! ## The footprints of the calls -/

def footprint (i : Nat) (channels : List (InterfaceId × Quantas.Channel)) : Set Cell :=
  {k | k = .peer i ∨ ∃ e ∈ channels, k = .line e.2.handle}

theorem peer_mem_footprint (i : Nat) (channels : List (InterfaceId × Quantas.Channel)) :
    Cell.peer i ∈ footprint i channels := .inl rfl

theorem line_mem_footprint (i : Nat) {channels : List (InterfaceId × Quantas.Channel)}
    {e : InterfaceId × Quantas.Channel} (he : e ∈ channels) :
    Cell.line e.2.handle ∈ footprint i channels := .inr ⟨e, he, rfl⟩

theorem within_receive (i : Nat) :
    Within read (footprint i (net.peers i).inBoundChannels) fun w : World net σ μ =>
      w.receive now draws i := by
  refine Within.choose (fun own w => (iterate own.inBoundChannels).foldl
    (fun w e => w.receiveFrom now draws i e.2.handle) w) (dependsOn_peer (peer_mem_footprint i _)) fun w => ?_
  apply Within.foldl
  intro e he
  have hmem : e ∈ (w.peers i).inBoundChannels := (List.perm_insertionSort _ _).mem_iff.mp he
  exact within_receiveFrom (peer_mem_footprint i _) (line_mem_footprint i ((w.peers i).inBound_subset hmem))

theorem returns_unicastTo (i : Nat) (msg : μ) (nbr : InterfaceId) :
    Returns read (footprint i (net.peers i).outBoundChannels) fun w : World net σ μ =>
      w.unicastTo now draws i msg nbr := by
  refine Returns.choose (fun (own : Own net i σ μ) w => if nbr ∈ own.neighbors then
      w.pushAll draws (.make now own.publicId nbr msg) (own.outBoundChannels.filter (·.1 = nbr))
    else (w, none)) (dependsOn_peer (peer_mem_footprint i _)) fun w => ?_
  by_cases hnbr : nbr ∈ (w.peers i).neighbors
  · simp only [if_pos hnbr]
    apply returns_pushAll
    intro e he
    exact line_mem_footprint i ((w.peers i).outBound_subset (List.mem_of_mem_filter he))
  · simp only [if_neg hnbr]
    exact .pure none

theorem within_runSends (i : Nat) (last : Own net i σ μ) (sends : List (Send net i σ μ)) :
    Within read (footprint i (net.peers i).outBoundChannels) fun w : World net σ μ =>
      w.runSends now draws i last sends := by
  induction sends with
  | nil => exact within_setPeer (peer_mem_footprint i _) last
  | cons s rest ih =>
    have hsend : Returns read (footprint i (net.peers i).outBoundChannels) fun w : World net σ μ =>
        (w.setPeer i s.own).unicastTo now draws i s.msg s.dest :=
      (returns_unicastTo i s.msg s.dest).after (within_setPeer (peer_mem_footprint i _) s.own)
    refine hsend.andThen (fun thrown w => match thrown with
      | none => w.runSends now draws i last rest
      | some _ => w) fun thrown => ?_
    cases thrown with
    | none => exact ih
    | some what => exact .id

theorem within_tryPerformComputation (performComputation : Algorithm net σ μ) (i : Nat) :
    Within read (footprint i (net.peers i).outBoundChannels) fun w : World net σ μ =>
      w.tryPerformComputation now draws performComputation i := by
  refine Within.choose (fun (own : Own net i σ μ) w => if own.crashRecoveryRound > now then w else
    w.runSends now draws i (performComputation i now own).own (performComputation i now own).sends)
    (dependsOn_peer (peer_mem_footprint i _)) fun w => ?_
  by_cases hcrashed : (w.peers i).crashRecoveryRound > now
  · simp only [if_pos hcrashed]
    exact .id
  · simp only [if_neg hcrashed]
    exact within_runSends i _ _

end World

/-! ## Networks whose peers share no channel -/

/-- No two peers have an inbound channel in common, nor an outbound one. -/
structure Separate (net : Network) : Prop where
  inBound : ∀ i j, i ≠ j → ∀ e ∈ (net.peers i).inBoundChannels, ∀ e' ∈ (net.peers j).inBoundChannels,
    e.2.handle ≠ e'.2.handle
  outBound : ∀ i j, i ≠ j → ∀ e ∈ (net.peers i).outBoundChannels, ∀ e' ∈ (net.peers j).outBoundChannels,
    e.2.handle ≠ e'.2.handle

theorem disjoint_footprint {i j : Nat} (hij : i ≠ j) {channels channels' : List (InterfaceId × Quantas.Channel)}
    (h : ∀ e ∈ channels, ∀ e' ∈ channels', e.2.handle ≠ e'.2.handle) :
    Disjoint (World.footprint i channels) (World.footprint j channels') := by
  rw [Set.disjoint_left]
  rintro k (rfl | ⟨e, he, rfl⟩) (hk | ⟨e', he', hk⟩)
  · exact hij (Cell.peer.inj hk)
  · cases hk
  · cases hk
  · exact h e he e' he' (Cell.line.inj hk)

theorem separate_initNetwork (t : TopologyConfig) (order : Equiv.Perm (Fin t.size)) :
    Separate (Network.initNetwork t order) := by
  have hhandle : ∀ z ∈ (Network.bare order).pairs.zipIdx, ∀ z' ∈ (Network.bare order).pairs.zipIdx,
      z.2 = z'.2 → z = z' := by
    intro z hz z' hz' h
    rw [List.mem_zipIdx_iff_getElem?] at hz hz'
    refine Prod.ext (Option.some.inj ?_) h
    rw [← hz, ← hz', h]
  constructor
  · intro i j hij e he e' he' h
    obtain ⟨z, hz, hi, rfl⟩ := (Network.mem_inBound order).mp he
    obtain ⟨z', hz', hj, rfl⟩ := (Network.mem_inBound order).mp he'
    obtain rfl := hhandle z hz z' hz' h
    exact hij (hi.symm.trans hj)
  · intro i j hij e he e' he' h
    obtain ⟨z, hz, hi, rfl⟩ := (Network.mem_outBound order).mp he
    obtain ⟨z', hz', hj, rfl⟩ := (Network.mem_outBound order).mp he'
    obtain rfl := hhandle z hz z' hz' h
    exact hij (hi.symm.trans hj)

/-! ## The schedule does not matter -/

section schedule
variable {net : Network} {σ μ : Type} (performComputation : Algorithm net σ μ)

theorem World.round_perm (hsep : Separate net) (now : Nat) (draws : Draws) (w : World net σ μ)
    {receives receives' computes computes' : List Nat} (hreceives : receives.Perm receives')
    (hcomputes : computes.Perm computes') :
    w.round now draws performComputation receives computes =
      w.round now draws performComputation receives' computes' := by
  have hreceive : receives.foldl (fun w i => w.receive now draws i) w =
      receives'.foldl (fun w i => w.receive now draws i) w :=
    foldl_perm World.ext_cells World.within_receive
      (fun i j hij => disjoint_footprint hij (hsep.inBound i j hij)) hreceives w
  unfold World.round
  rw [hreceive]
  exact foldl_perm World.ext_cells (World.within_tryPerformComputation performComputation)
    (fun i j hij => disjoint_footprint hij (hsep.outBound i j hij)) hcomputes _

/-- The rounds of a simulation from round `now` on, each with its draws and the orders of its two phases.
`endOfRound` may read and change everything. -/
def World.run (endOfRound : Nat → World net σ μ → World net σ μ) (now : Nat) :
    List (Draws × List Nat × List Nat) → World net σ μ → World net σ μ
  | [], w => w
  | (draws, receives, computes) :: rest, w =>
    World.run endOfRound (now + 1) rest (endOfRound now (w.round now draws performComputation receives computes))

def SameRounds : List (Draws × List Nat × List Nat) → List (Draws × List Nat × List Nat) → Prop :=
  List.Forall₂ fun r r' => r.1 = r'.1 ∧ r.2.1.Perm r'.2.1 ∧ r.2.2.Perm r'.2.2

theorem World.run_schedule (hsep : Separate net) (endOfRound : Nat → World net σ μ → World net σ μ)
    {rounds rounds' : List (Draws × List Nat × List Nat)} (h : SameRounds rounds rounds') (now : Nat)
    (w : World net σ μ) :
    w.run performComputation endOfRound now rounds = w.run performComputation endOfRound now rounds' := by
  induction h generalizing now w with
  | nil => rfl
  | @cons r r' rest rest' hr hrest ih =>
    obtain ⟨hdraws, hreceives, hcomputes⟩ := hr
    rw [World.run, World.run, ← hdraws, World.round_perm performComputation hsep now r.1 w hreceives hcomputes]
    exact ih _ _

end schedule

/-- **A round does not depend on its schedule.** On a network that `initNetwork` has built, whatever the state
at the start of the round, the calls of each phase may be made in any two orders. -/
theorem round_schedule_independent {t : TopologyConfig} {order : Equiv.Perm (Fin t.size)} {σ μ : Type}
    (performComputation : Algorithm (Network.initNetwork t order) σ μ) (now : Nat) (draws : Draws)
    (w : World (Network.initNetwork t order) σ μ) {receives receives' computes computes' : List Nat}
    (hreceives : receives.Perm (List.range t.size)) (hreceives' : receives'.Perm (List.range t.size))
    (hcomputes : computes.Perm (List.range t.size)) (hcomputes' : computes'.Perm (List.range t.size)) :
    w.round now draws performComputation receives computes =
      w.round now draws performComputation receives' computes' :=
  World.round_perm performComputation (separate_initNetwork t order) now draws w
    (hreceives.trans hreceives'.symm) (hcomputes.trans hcomputes'.symm)

/-- The peers as `initNetwork` leaves them, with the channels that `createInitialChannels` has made. -/
def World.initial (net : Network) {σ μ : Type} (state : Nat → σ) (params : ChannelParams) (lastRound : Nat) :
    World net σ μ where
  peers i :=
    { state := state i
      publicId := (net.peers i).publicId
      neighbors := (net.peers i).neighbors
      inBoundChannels := (net.peers i).inBoundChannels
      outBoundChannels := (net.peers i).outBoundChannels
      inBound_subset := List.Subset.refl _
      outBound_subset := List.Subset.refl _ }
  lines _ := { channel := .setParameters params 0 lastRound }

def greeting (net : Network) : Algorithm net Unit String := fun _ _ own =>
  { sends := own.neighbors.head?.toList.map fun nbr => { own, msg := "hello", dest := nbr }, own }

/-- All draws in the middle of their range, and all shuffles the identity. -/
def Draws.middle : Draws where
  push _ _ := { drop := 1 / 2, copy := fun _ => { delay := 1, setDelay := 1, duplicate := 1 / 2 } }
  shuffle _ _ := { reorder := 1 / 2, places := id }

theorem round_schedule_independent_triangle :
    (World.initial (Network.initNetwork Network.triangle (Equiv.refl _)) (fun _ => ()) {} 5).round 1 .middle
        (greeting _) [0, 1, 2] [0, 1, 2] =
      (World.initial (Network.initNetwork Network.triangle (Equiv.refl _)) (fun _ => ()) {} 5).round 1 .middle
        (greeting _) [2, 0, 1] [1, 0, 2] :=
  round_schedule_independent (greeting _) 1 .middle _ (by decide) (by decide) (by decide) (by decide)

end Quantas.Abstract
