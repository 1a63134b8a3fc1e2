import Quantas.Network.Schedule
import Quantas.Network.ThreadPool

/-!
# The simulation on its thread pool

`Simulation::run` hands the index ranges of the peers to the thread pool. A worker runs the calls of its range
one after the other, and other workers act between any two of its accesses to a channel or a peer. An exception
leaves the whole range: the peers behind the one whose call throws get no call in that phase.

Whatever the number of threads and however they interleave, a run of the simulation ends, in the world that the
ranges give one after the other; and where no channel can throw, that is the world of `World.run`, in which all
peers take their turns in order (`simulation_parallel`).
-/

namespace Quantas.Abstract

open Lib

namespace World
variable {net : Network} {σ μ : Type} (now : Nat) (draws : Draws)

/-! ## The calls as programs -/

/-- The loop of `receive` over the channels with the given handles, and then `rest`. -/
def receiveChannels (i : Nat) (rest : Prog (World net σ μ)) : List Nat → Prog (World net σ μ)
  | [] => rest
  | handle :: handles =>
    .step (fun w => w.receiveFrom now draws i handle) fun _ => receiveChannels i rest handles

/-- `receive` of the peer at position `i`, and then `rest`. -/
def receiveCall (i : Nat) (rest : Prog (World net σ μ)) : Prog (World net σ μ) :=
  .step id fun w =>
    receiveChannels now draws i rest ((iterate (w.peers i).inBoundChannels).map fun e => e.2.handle)

/-- `receive` of the peers at the given positions. -/
def receiveCalls : List Nat → Prog (World net σ μ)
  | [] => .done
  | i :: is => receiveCall now draws i (receiveCalls is)

/-- The loop of `unicastTo` over the channels under one key. An exception ends the program. -/
def pushChannels (pkt : Packet μ) (rest : Prog (World net σ μ)) :
    List (InterfaceId × Quantas.Channel) → Prog (World net σ μ)
  | [] => rest
  | e :: channels =>
    .step (fun w => (w.pushPacket draws e.2.handle pkt).1) fun w =>
      match (w.pushPacket draws e.2.handle pkt).2 with
      | none => pushChannels pkt rest channels
      | some _ => .done

/-- The sends of a computation and its end, and then `rest`. -/
def sendMessages (i : Nat) (last : Own net i σ μ) (rest : Prog (World net σ μ)) :
    List (Send net i σ μ) → Prog (World net σ μ)
  | [] => .step (fun w => w.setPeer i last) fun _ => rest
  | s :: sends =>
    .step (fun w => w.setPeer i s.own) fun _ =>
      if s.dest ∈ s.own.neighbors then
        pushChannels draws (.make now s.own.publicId s.dest s.msg) (sendMessages i last rest sends)
          (s.own.outBoundChannels.filter (·.1 = s.dest))
      else sendMessages i last rest sends

/-- `tryPerformComputation` of the peer at position `i`, and then `rest`. -/
def computeCall (performComputation : Algorithm net σ μ) (i : Nat) (rest : Prog (World net σ μ)) :
    Prog (World net σ μ) :=
  .step id fun w =>
    if (w.peers i).crashRecoveryRound > now then rest
    else
      let c := performComputation i now (w.peers i)
      sendMessages now draws i c.own rest c.sends

/-- `tryPerformComputation` of the peers at the given positions. -/
def computeCalls (performComputation : Algorithm net σ μ) : List Nat → Prog (World net σ μ)
  | [] => .done
  | i :: is => computeCall now draws performComputation i (computeCalls performComputation is)

end World

/-- The positions that the loops of `Network::receive` and `Network::tryPerformComputation` visit, in a network
of `size` peers. -/
def positions (size : Nat) (first after : Int) : List Nat :=
  BS.indices first (if after < size then after else size)

/-- The rounds of `Simulation::run` from round `now` on, as stages of its main thread. `endOfRound` sees the
peers and not the channels. -/
def Simulation.script {net : Network} {σ μ : Type} (thread_count size : Nat)
    (performComputation : Algorithm net σ μ)
    (endOfRound : Nat → ((i : Nat) → Own net i σ μ) → (i : Nat) → Own net i σ μ) (now : Nat) :
    List Draws → List (BS.Stage (World net σ μ))
  | [] => []
  | draws :: rest =>
    .loop (BS.parallelize_loop thread_count 0 size
      (fun a b => World.receiveCalls now draws (positions size a b)) 0) ::
    .loop (BS.parallelize_loop thread_count 0 size
      (fun a b => World.computeCalls now draws performComputation (positions size a b)) 0) ::
    .serial (fun w => { w with peers := endOfRound now w.peers }) ::
    script thread_count size performComputation endOfRound (now + 1) rest

namespace World
variable {net : Network} {σ μ : Type} {now : Nat} {draws : Draws}

/-! ## Their footprints -/

section footprints
variable {S : Set Cell} {i : Nat} {rest : Prog (World net σ μ)} (hrest : rest.Local read S)
include hrest

theorem receiveChannels_isLocal (hi : .peer i ∈ S) {handles : List Nat} (h : ∀ k ∈ handles, .line k ∈ S) :
    (receiveChannels now draws i rest handles).Local read S := by
  induction handles with
  | nil => exact hrest
  | cons k handles ih =>
    refine .step (within_receiveFrom hi (h k List.mem_cons_self)) (fun _ _ _ => rfl) fun _ => ?_
    exact ih fun k' hk' => h k' (List.mem_cons_of_mem k hk')

theorem receiveCall_isLocal (hfoot : footprint i (net.peers i).inBoundChannels ⊆ S) :
    (receiveCall now draws i rest).Local read S := by
  have hi : Cell.peer i ∈ S := hfoot (peer_mem_footprint i _)
  refine .step .id ?_ fun w => ?_
  · intro w w' h
    have hpeer : w.peers i = w'.peers i := dependsOn_peer hi w w' h
    simp only [hpeer]
  · apply receiveChannels_isLocal hrest hi
    intro k hk
    obtain ⟨e, he, rfl⟩ := List.mem_map.mp hk
    have hmem : e ∈ (w.peers i).inBoundChannels := (List.perm_insertionSort _ _).mem_iff.mp he
    exact hfoot (line_mem_footprint i ((w.peers i).inBound_subset hmem))

theorem pushChannels_isLocal (pkt : Packet μ) {channels : List (InterfaceId × Quantas.Channel)}
    (h : ∀ e ∈ channels, .line e.2.handle ∈ S) : (pushChannels draws pkt rest channels).Local read S := by
  induction channels with
  | nil => exact hrest
  | cons e channels ih =>
    have hpush : Returns read S fun w : World net σ μ => w.pushPacket draws e.2.handle pkt :=
      returns_pushPacket (h e List.mem_cons_self) pkt
    refine .step hpush.within ?_ fun w => ?_
    · intro w w' hagree
      have hres := hpush.result w w' hagree
      dsimp only at hres ⊢
      rw [hres]
    · cases (w.pushPacket draws e.2.handle pkt).2 with
      | none => exact ih fun e' he' => h e' (List.mem_cons_of_mem e he')
      | some what => exact .done

theorem sendMessages_isLocal (hfoot : footprint i (net.peers i).outBoundChannels ⊆ S) (last : Own net i σ μ)
    (sends : List (Send net i σ μ)) : (sendMessages now draws i last rest sends).Local read S := by
  have hi : Cell.peer i ∈ S := hfoot (peer_mem_footprint i _)
  induction sends with
  | nil => exact .step (within_setPeer hi last) (fun _ _ _ => rfl) fun _ => hrest
  | cons s sends ih =>
    refine .step (within_setPeer hi s.own) (fun _ _ _ => rfl) fun _ => ?_
    by_cases hdest : s.dest ∈ s.own.neighbors
    · rw [if_pos hdest]
      apply pushChannels_isLocal ih
      intro e he
      exact hfoot (line_mem_footprint i (s.own.outBound_subset (List.mem_of_mem_filter he)))
    · rw [if_neg hdest]
      exact ih

theorem computeCall_isLocal (performComputation : Algorithm net σ μ)
    (hfoot : footprint i (net.peers i).outBoundChannels ⊆ S) :
    (computeCall now draws performComputation i rest).Local read S := by
  have hi : Cell.peer i ∈ S := hfoot (peer_mem_footprint i _)
  refine .step .id ?_ fun w => ?_
  · intro w w' h
    have hpeer : w.peers i = w'.peers i := dependsOn_peer hi w w' h
    simp only [hpeer]
  · by_cases hcrashed : (w.peers i).crashRecoveryRound > now
    · rw [if_pos hcrashed]
      exact hrest
    · rw [if_neg hcrashed]
      exact sendMessages_isLocal hrest hfoot _ _

end footprints

def footprints (channels : Nat → List (InterfaceId × Quantas.Channel)) (is : List Nat) : Set Cell :=
  {k | ∃ i ∈ is, k ∈ footprint i (channels i)}

theorem footprint_subset {channels : Nat → List (InterfaceId × Quantas.Channel)} {is : List Nat} {i : Nat}
    (hi : i ∈ is) : footprint i (channels i) ⊆ footprints channels is := fun _ hk => ⟨i, hi, hk⟩

theorem calls_isLocal {call : Nat → Prog (World net σ μ) → Prog (World net σ μ)}
    {channels : Nat → List (InterfaceId × Quantas.Channel)} {calls : List Nat → Prog (World net σ μ)}
    (hcall : ∀ (S : Set Cell) i rest, rest.Local read S → footprint i (channels i) ⊆ S →
      (call i rest).Local read S)
    (hnil : calls [] = .done) (hcons : ∀ i is, calls (i :: is) = call i (calls is)) (is : List Nat) :
    (calls is).Local read (footprints channels is) := by
  induction is with
  | nil =>
    rw [hnil]
    exact .done
  | cons i is ih =>
    rw [hcons]
    have hsub : footprints channels is ⊆ footprints channels (i :: is) := fun k ⟨j, hj, hk⟩ =>
      ⟨j, List.mem_cons_of_mem i hj, hk⟩
    exact hcall _ i _ (ih.mono hsub) (footprint_subset List.mem_cons_self)

theorem parallel_ranges {channels : Nat → List (InterfaceId × Quantas.Channel)}
    {calls : List Nat → Prog (World net σ μ)}
    (hdisj : ∀ i j, i ≠ j → Disjoint (footprint i (channels i)) (footprint j (channels j)))
    (hlocal : ∀ is, (calls is).Local read (footprints channels is)) {ranges : List (List Nat)}
    (hnodup : ranges.flatten.Nodup) : BS.Parallel read (ranges.map calls) := by
  have happart := (List.nodup_flatten.mp hnodup).2
  rw [List.pairwise_iff_getElem] at happart
  refine ⟨fun k => footprints channels (ranges[k]?.getD []), ?_, ?_⟩
  · have hcommon : ∀ a b : Nat, a < b → ∀ i ∈ ranges[a]?.getD [], ∀ j ∈ ranges[b]?.getD [], i ≠ j := by
      intro a b hab i hi j hj heq
      subst heq
      by_cases hb : b < ranges.length
      · rw [List.getElem?_eq_getElem (hab.trans hb)] at hi
        rw [List.getElem?_eq_getElem hb] at hj
        exact happart a b (hab.trans hb) hb hab hi hj
      · rw [List.getElem?_eq_none (not_lt.mp hb)] at hj
        cases hj
    intro a b hab
    rw [Set.disjoint_left]
    rintro k ⟨i, hi, hki⟩ ⟨j, hj, hkj⟩
    have hij : i ≠ j := by
      rcases lt_or_gt_of_ne hab with hlt | hgt
      · exact hcommon a b hlt i hi j hj
      · exact (hcommon b a hgt j hj i hi).symm
    exact Set.disjoint_left.mp (hdisj i j hij) hki hkj
  · intro k
    dsimp only
    rw [List.getElem?_map]
    cases ranges[k]? with
    | none => exact .done
    | some is => exact hlocal is

/-! ## Their results -/

theorem run_receiveChannels (i : Nat) (rest : Prog (World net σ μ)) (handles : List Nat) (w : World net σ μ) :
    (receiveChannels now draws i rest handles).run w =
      rest.run (handles.foldl (fun w k => w.receiveFrom now draws i k) w) := by
  induction handles generalizing w with
  | nil => rfl
  | cons k handles ih => exact ih _

theorem run_receiveCalls (is : List Nat) (w : World net σ μ) :
    (receiveCalls now draws is).run w = is.foldl (fun w i => w.receive now draws i) w := by
  induction is generalizing w with
  | nil => rfl
  | cons i is ih =>
    rw [receiveCalls, receiveCall, Prog.run, run_receiveChannels, ih, List.foldl_cons]
    congr 1
    unfold receive
    rw [List.foldl_map]
    rfl

def Drawable (w : World net σ μ) : Prop :=
  ∀ handle, (w.lines handle).channel.Ints ∧ Channel.Drawable (w.lines handle).channel.properties

section drawable
variable (now : Nat) (draws : Draws)

theorem Drawable.setPeer {w : World net σ μ} (h : w.Drawable) (i : Nat) (own : Own net i σ μ) :
    (w.setPeer i own).Drawable := h

theorem Drawable.setLine {w : World net σ μ} (h : w.Drawable) (handle : Nat) {line : Line μ}
    (hsame : line.channel.properties = (w.lines handle).channel.properties) :
    (w.setLine handle line).Drawable := by
  intro other
  by_cases heq : other = handle
  · subst heq
    rw [setLine_self]
    exact ⟨(h other).1.of_properties hsame, hsame ▸ (h other).2⟩
  · rw [setLine_other w line heq]
    exact h other

theorem Drawable.receive {w : World net σ μ} (h : w.Drawable) (i : Nat) : (w.receive now draws i).Drawable := by
  unfold World.receive
  generalize iterate (w.peers i).inBoundChannels = channels
  induction channels generalizing w with
  | nil => exact h
  | cons e channels ih =>
    apply ih
    exact (h.setPeer i _).setLine _ (Channel.shuffleChannel_properties _ _)

theorem Drawable.pushPacket {w : World net σ μ} (h : w.Drawable) (handle : Nat) (pkt : Packet μ) :
    (w.pushPacket draws handle pkt).1.Drawable ∧ (w.pushPacket draws handle pkt).2 = none := by
  obtain ⟨⟨channel, copies⟩, hok⟩ :=
    Channel.pushPacket_ok (h handle).2 pkt (draws.push handle (w.lines handle).pushes)
  have hpushed := Channel.pushPacket_spec (h handle).1 hok
  unfold World.pushPacket Line.push
  rw [hok]
  exact ⟨h.setLine handle hpushed.properties, rfl⟩

theorem Drawable.pushAll {w : World net σ μ} (h : w.Drawable) (pkt : Packet μ)
    (channels : List (InterfaceId × Quantas.Channel)) :
    (w.pushAll draws pkt channels).1.Drawable ∧ (w.pushAll draws pkt channels).2 = none ∧
      ∀ rest, (pushChannels draws pkt rest channels).run w = rest.run (w.pushAll draws pkt channels).1 := by
  induction channels generalizing w with
  | nil => exact ⟨h, rfl, fun _ => rfl⟩
  | cons e channels ih =>
    obtain ⟨hafter, hnone⟩ := h.pushPacket draws e.2.handle pkt
    have hall : w.pushAll draws pkt (e :: channels) =
        (w.pushPacket draws e.2.handle pkt).1.pushAll draws pkt channels := by
      rw [World.pushAll]
      dsimp only
      rw [hnone]
    obtain ⟨hdrawable, hok, hrun⟩ := ih hafter
    rw [hall]
    refine ⟨hdrawable, hok, fun rest => ?_⟩
    rw [pushChannels, Prog.run, hnone]
    exact hrun rest

theorem Drawable.runSends {w : World net σ μ} (h : w.Drawable) (i : Nat) (last : Own net i σ μ)
    (sends : List (Send net i σ μ)) :
    (w.runSends now draws i last sends).Drawable ∧
      ∀ rest, (sendMessages now draws i last rest sends).run w =
        rest.run (w.runSends now draws i last sends) := by
  induction sends generalizing w with
  | nil => exact ⟨h.setPeer i last, fun _ => rfl⟩
  | cons s sends ih =>
    have hset : (w.setPeer i s.own).Drawable := h.setPeer i s.own
    by_cases hdest : s.dest ∈ s.own.neighbors
    · obtain ⟨hafter, hnone, hpush⟩ := hset.pushAll draws
        (.make now s.own.publicId s.dest s.msg) (s.own.outBoundChannels.filter (·.1 = s.dest))
      have hsend : (w.setPeer i s.own).unicastTo now draws i s.msg s.dest =
          (w.setPeer i s.own).pushAll draws (.make now s.own.publicId s.dest s.msg)
            (s.own.outBoundChannels.filter (·.1 = s.dest)) := by
        unfold unicastTo
        rw [setPeer_self]
        exact if_pos hdest
      obtain ⟨hdrawable, hrun⟩ := ih hafter
      rw [World.runSends]
      dsimp only
      rw [hsend, hnone]
      refine ⟨hdrawable, fun rest => ?_⟩
      rw [sendMessages, Prog.run, if_pos hdest, hpush, hrun]
    · have hsend : (w.setPeer i s.own).unicastTo now draws i s.msg s.dest = (w.setPeer i s.own, none) := by
        unfold unicastTo
        rw [setPeer_self]
        exact if_neg hdest
      obtain ⟨hdrawable, hrun⟩ := ih hset
      rw [World.runSends]
      dsimp only
      rw [hsend]
      refine ⟨hdrawable, fun rest => ?_⟩
      rw [sendMessages, Prog.run, if_neg hdest, hrun]

theorem Drawable.tryPerformComputation {w : World net σ μ} (h : w.Drawable)
    (performComputation : Algorithm net σ μ) (i : Nat) :
    (w.tryPerformComputation now draws performComputation i).Drawable ∧
      ∀ rest, (computeCall now draws performComputation i rest).run w =
        rest.run (w.tryPerformComputation now draws performComputation i) := by
  unfold World.tryPerformComputation
  by_cases hcrashed : (w.peers i).crashRecoveryRound > now
  · dsimp only
    rw [if_pos hcrashed]
    refine ⟨h, fun rest => ?_⟩
    rw [computeCall, Prog.run, if_pos hcrashed]
    rfl
  · dsimp only
    rw [if_neg hcrashed]
    obtain ⟨hdrawable, hrun⟩ := h.runSends now draws i
      (performComputation i now (w.peers i)).own (performComputation i now (w.peers i)).sends
    refine ⟨hdrawable, fun rest => ?_⟩
    rw [computeCall, Prog.run, if_neg hcrashed]
    exact hrun rest

theorem Drawable.computeCalls {w : World net σ μ} (h : w.Drawable) (performComputation : Algorithm net σ μ)
    (is : List Nat) :
    (is.foldl (fun w i => w.tryPerformComputation now draws performComputation i) w).Drawable ∧
      (World.computeCalls now draws performComputation is).run w =
        is.foldl (fun w i => w.tryPerformComputation now draws performComputation i) w := by
  induction is generalizing w with
  | nil => exact ⟨h, rfl⟩
  | cons i is ih =>
    obtain ⟨hdrawable, hrun⟩ := h.tryPerformComputation now draws performComputation i
    obtain ⟨hall, hcalls⟩ := ih hdrawable
    refine ⟨hall, ?_⟩
    rw [World.computeCalls, hrun]
    exact hcalls

theorem Drawable.receives {w : World net σ μ} (h : w.Drawable) (is : List Nat) :
    (is.foldl (fun w i => w.receive now draws i) w).Drawable := by
  induction is generalizing w with
  | nil => exact h
  | cons i is ih => exact ih (h.receive now draws i)

theorem Drawable.round {w : World net σ μ} (h : w.Drawable) (performComputation : Algorithm net σ μ)
    (receives computes : List Nat) : (w.round now draws performComputation receives computes).Drawable :=
  ((h.receives now draws receives).computeCalls now draws performComputation computes).1

end drawable

end World

/-! ## The ranges of the thread pool -/

section pool
variable {net : Network} {σ μ : Type} {thread_count : Nat} (hthreads : 0 < thread_count) (size : Nat)
include hthreads

theorem ranges_eq {α : Type*} (calls : List Nat → α) :
    BS.parallelize_loop thread_count 0 size (fun a b => calls (positions size a b)) 0 =
      (BS.parallelize_loop thread_count 0 size BS.indices 0).map calls := by
  rw [BS.map_parallelize_loop]
  apply BS.parallelize_loop_congr hthreads
  intro a b hb
  have hend : (if (b : Int) < size then (b : Int) else size) = b := by
    split_ifs with hlt
    · rfl
    · omega
  rw [positions, hend]

theorem nodup_ranges : (BS.parallelize_loop thread_count 0 size BS.indices 0).flatten.Nodup := by
  rw [BS.flatten_parallelize_loop hthreads]
  exact List.nodup_range

theorem foldl_ranges {calls : List Nat → Prog (World net σ μ)} {call : World net σ μ → Nat → World net σ μ}
    {P : World net σ μ → Prop} (hkeep : ∀ (is : List Nat) w, P w → P (is.foldl call w))
    (hrun : ∀ is w, P w → (calls is).run w = is.foldl call w) {w : World net σ μ} (hw : P w) :
    (BS.parallelize_loop thread_count 0 size (fun a b => calls (positions size a b)) 0).foldl
      (fun w p => p.run w) w = (List.range size).foldl call w := by
  rw [ranges_eq hthreads, ← BS.flatten_parallelize_loop hthreads size]
  generalize BS.parallelize_loop thread_count 0 size BS.indices 0 = ranges
  induction ranges generalizing w with
  | nil => rfl
  | cons is ranges ih =>
    rw [List.map_cons, List.foldl_cons, List.flatten_cons, List.foldl_append, hrun is w hw]
    exact ih (hkeep is w hw)

variable (hsep : Separate net) (performComputation : Algorithm net σ μ)
  (endOfRound : Nat → ((i : Nat) → Own net i σ μ) → (i : Nat) → Own net i σ μ)
include hsep

theorem parallel_script (now : Nat) (rounds : List Draws) :
    ∀ blocks, .loop blocks ∈ Simulation.script thread_count size performComputation endOfRound now rounds →
      BS.Parallel World.read blocks := by
  induction rounds generalizing now with
  | nil =>
    intro blocks h
    cases h
  | cons draws rounds ih =>
    intro blocks h
    rw [Simulation.script] at h
    rcases List.mem_cons.mp h with heq | h
    · rw [BS.Stage.loop.inj heq, ranges_eq hthreads]
      apply World.parallel_ranges (fun i j hij => disjoint_footprint hij (hsep.inBound i j hij)) ?_
        (nodup_ranges hthreads size)
      exact World.calls_isLocal (fun S i rest hrest hfoot => World.receiveCall_isLocal hrest hfoot) rfl
        fun _ _ => rfl
    · rcases List.mem_cons.mp h with heq | h
      · rw [BS.Stage.loop.inj heq, ranges_eq hthreads]
        apply World.parallel_ranges (fun i j hij => disjoint_footprint hij (hsep.outBound i j hij)) ?_
          (nodup_ranges hthreads size)
        exact World.calls_isLocal
          (fun S i rest hrest hfoot => World.computeCall_isLocal hrest performComputation hfoot) rfl fun _ _ => rfl
      · rcases List.mem_cons.mp h with heq | h
        · cases heq
        · exact ih (now + 1) blocks h

omit hsep in
theorem alone_script (now : Nat) (rounds : List Draws) {w : World net σ μ} (hw : w.Drawable) :
    BS.alone (Simulation.script thread_count size performComputation endOfRound now rounds) w =
      w.run performComputation (fun now w => { w with peers := endOfRound now w.peers }) now
        (rounds.map fun draws => (draws, List.range size, List.range size)) := by
  induction rounds generalizing now w with
  | nil => rfl
  | cons draws rounds ih =>
    have hreceives : ∀ w : World net σ μ, w.Drawable → (BS.Stage.loop (BS.parallelize_loop thread_count 0 size
        (fun a b => World.receiveCalls now draws (positions size a b)) 0)).alone w =
          (List.range size).foldl (fun w i => w.receive now draws i) w := fun w hw =>
      foldl_ranges hthreads size (fun is w h => h.receives now draws is)
        (fun is w _ => World.run_receiveCalls is w) hw
    have hcomputes : ∀ w : World net σ μ, w.Drawable → (BS.Stage.loop (BS.parallelize_loop thread_count 0 size
        (fun a b => World.computeCalls now draws performComputation (positions size a b)) 0)).alone w =
          (List.range size).foldl (fun w i => w.tryPerformComputation now draws performComputation i) w :=
      fun w hw => foldl_ranges hthreads size
        (fun is w h => (h.computeCalls now draws performComputation is).1)
        (fun is w h => (h.computeCalls now draws performComputation is).2) hw
    have hround := hw.round now draws performComputation (List.range size) (List.range size)
    rw [Simulation.script, BS.alone, List.foldl_cons, hreceives w hw, List.foldl_cons,
      hcomputes _ (hw.receives now draws _), List.foldl_cons, List.map_cons, World.run]
    exact ih (now + 1) hround

end pool

/-- **The threads do not matter.** On a network that `initNetwork` has built, whatever the number of threads: a
run of the simulation on the thread pool never gets stuck and comes to its end; the world is then the one that
the ranges give one after the other, and, if no channel can throw, that of the rounds in which all peers take
their turns in order; and `wait_for_tasks` waits for the workers to be idle and for nothing else. -/
theorem simulation_parallel {t : TopologyConfig} {order : Equiv.Perm (Fin t.size)} {σ μ : Type}
    {thread_count : Nat} (hthreads : 0 < thread_count) (hfits : thread_count < 2 ^ 32)
    (performComputation : Algorithm (Network.initNetwork t order) σ μ)
    (endOfRound : Nat → ((i : Nat) → Own (Network.initNetwork t order) i σ μ) →
      (i : Nat) → Own (Network.initNetwork t order) i σ μ) (now : Nat) (rounds : List Draws)
    (w : World (Network.initNetwork t order) σ μ) :
    (∀ s, (BS.poolMachine thread_count
        (Simulation.script thread_count t.size performComputation endOfRound now rounds) w).Reached s →
      (s.Finished ∨ ∃ e s', s.step thread_count e = some s') ∧
      (s.Finished → s.world =
        BS.alone (Simulation.script thread_count t.size performComputation endOfRound now rounds) w) ∧
      (s.Finished → w.Drawable → s.world =
        w.run performComputation (fun now w => { w with peers := endOfRound now w.peers }) now
          (rounds.map fun draws => (draws, List.range t.size, List.range t.size))) ∧
      (s.Finished → (s.tasks_total = 0 ↔ ∀ k, s.workers k = .idle))) ∧
    WellFounded fun s' s : BS.Pool (World (Network.initNetwork t order) σ μ) =>
      ∃ e, s.step thread_count e = some s' := by
  refine ⟨fun s hs => ?_, BS.Pool.wellFounded_step thread_count⟩
  have hsep := separate_initNetwork t order
  have hacc := BS.Pool.accounted_of_reached World.ext_cells
    (parallel_script hthreads t.size hsep performComputation endOfRound now rounds) hs
  have hcounted := BS.Pool.counted_of_reached hs
  refine ⟨hacc.progress hthreads hcounted.workers, hacc.finished, fun hfinished hw => ?_, fun hfinished => ?_⟩
  · rw [hacc.finished hfinished]
    exact alone_script hthreads t.size performComputation endOfRound now rounds hw
  · have hempty := hacc.tasks_eq_nil hfinished
    have hlt : s.tasks.length + thread_count < 2 ^ 64 := by
      rw [hempty, List.length_nil]
      omega
    rw [hcounted.tasks_total_eq_zero hfinished.2.2.1 hlt]
    exact and_iff_right hempty

theorem World.drawable_initial (net : Network) {σ μ : Type} (state : Nat → σ) {params : ChannelParams}
    (h : Channel.Drawable (.ofParams params)) (lastRound : Nat) :
    (World.initial net state params lastRound : World net σ μ).Drawable := fun _ =>
  ⟨⟨isInt_getInt _, isInt_getInt _, isInt_getInt _⟩, h⟩

/-- The script of one round of a triangle of peers that greet one another, on two threads. -/
def greetingScript : List (BS.Stage (World (Network.initNetwork Network.triangle (Equiv.refl _)) Unit String)) :=
  Simulation.script 2 Network.triangle.size (greeting _) (fun _ peers => peers) 1 [.middle]

def greetingWorld : World (Network.initNetwork Network.triangle (Equiv.refl _)) Unit String :=
  World.initial _ (fun _ => ()) {} 5

theorem simulation_parallel_triangle :
    ∃ s, (BS.poolMachine 2 greetingScript greetingWorld).Reached s ∧ s.Finished ∧
      s.world = greetingWorld.run (greeting _) (fun _ w => w) 1 [(.middle, [0, 1, 2], [0, 1, 2])] := by
  have htwo : 0 < 2 := by decide
  have hscript := parallel_script htwo Network.triangle.size
    (separate_initNetwork Network.triangle (Equiv.refl _)) (greeting _) (fun _ peers => peers) 1 [.middle]
  have hdrawable : greetingWorld.Drawable := World.drawable_initial _ _ ⟨by decide, by decide⟩ 5
  obtain ⟨s, hs, hfinished⟩ := BS.Pool.exists_finished htwo World.ext_cells hscript
  refine ⟨s, hs, hfinished, ?_⟩
  have hparallel := simulation_parallel htwo (by decide) (greeting _) (fun _ peers => peers) 1 [.middle] greetingWorld
  exact (hparallel.1 s hs).2.2.1 hfinished hdrawable

end Quantas.Abstract
