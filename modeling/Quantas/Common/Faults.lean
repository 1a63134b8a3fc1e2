import Quantas.Common.Packet

/-!
# Faults and the operations of a Byzantine peer

`FaultManager` sorts the attached faults by the operation whose hook they override, and its `apply*`
functions consult these hooks in order of attachment. `ByzantinePeer` puts that consultation in front
of a send or of a round's computation, with two exceptions that are part of the source: `broadcastBut`
goes straight to the network interface, and so does `receive`, so `applyReceive` has no caller.

Every operation records what it did as a list of events: the hooks consulted, each with its answer,
and whether the default behaviour took place. `Complete` says what the record of one operation looks
like when the hooks are complete, and `hooks_complete_iff` says which runs have only such records.
-/

namespace Quantas

inductive SendType
  | unicast | broadcast | multicast | randomMulticast | broadcastBut
  deriving DecidableEq, Repr

inductive Operation
  | unicastTo
  | send (sendType : SendType)
  | receive
  | performComputation
  deriving DecidableEq, Repr

/-- A fault: what it overrides, and its hooks. `σ` is all that a hook may read and change (the peer, its
network interface, the fault's own fields), `μ` the messages. A hook answers whether it overrode the
operation; `id` is the fault's address. -/
structure Fault (σ μ : Type) where
  id : Nat
  overridesUnicastTo : Bool := false
  overridesSendType : SendType → Bool := fun _ => false
  overridesReceive : Bool := false
  overridesPerformComputation : Bool := false
  onUnicastTo : σ → μ → InterfaceId → σ × μ × Bool := fun s m _ => (s, m, false)
  onSend : σ → μ → SendType → List InterfaceId → σ × μ × Bool := fun s m _ _ => (s, m, false)
  onReceive : σ → μ → InterfaceId → σ × μ × Bool := fun s m _ => (s, m, false)
  onPerformComputation : σ → σ × Bool := fun s => (s, false)

variable {σ μ : Type}

def Fault.declares (f : Fault σ μ) : Operation → Bool
  | .unicastTo => f.overridesUnicastTo
  | .send t => f.overridesSendType t
  | .receive => f.overridesReceive
  | .performComputation => f.overridesPerformComputation

/-- What an operation did: it consulted the hook of a fault, which overrode it or not, or it ran the
default behaviour. -/
inductive Event
  | hook (fault : Nat) (op : Operation) (overrode : Bool)
  | default (op : Operation)
  deriving DecidableEq, Repr

/-! ## The fault manager -/

structure FaultManager (σ μ : Type) where
  unicastToFaults : List (Fault σ μ) := []
  sendFaults : SendType → List (Fault σ μ) := fun _ => []
  receiveFaults : List (Fault σ μ) := []
  computationFaults : List (Fault σ μ) := []

namespace FaultManager

def knownSendTypes : List SendType :=
  [.unicast, .broadcast, .multicast, .randomMulticast, .broadcastBut]

/-- The loop of `addFault` over the known send types. -/
def addSendFaults (fault : Fault σ μ) :
    List SendType → (SendType → List (Fault σ μ)) → SendType → List (Fault σ μ)
  | [], sendFaults => sendFaults
  | t :: ts, sendFaults =>
    addSendFaults fault ts
      (if fault.overridesSendType t then Function.update sendFaults t (sendFaults t ++ [fault])
       else sendFaults)

def addFault (m : FaultManager σ μ) (fault : Fault σ μ) : FaultManager σ μ where
  unicastToFaults :=
    if fault.overridesUnicastTo then m.unicastToFaults ++ [fault] else m.unicastToFaults
  sendFaults := addSendFaults fault knownSendTypes m.sendFaults
  receiveFaults := if fault.overridesReceive then m.receiveFaults ++ [fault] else m.receiveFaults
  computationFaults :=
    if fault.overridesPerformComputation then m.computationFaults ++ [fault]
    else m.computationFaults

/-- The manager of a peer to which the faults were added in this order. -/
def attach (faults : List (Fault σ μ)) : FaultManager σ μ := faults.foldl addFault {}

/-- `overridden |= f->on…(…)` for every fault of a list: the hooks may rewrite the message, and every
one of them is consulted, also after one has answered true. -/
def consult (op : Operation) (hook : Fault σ μ → σ → μ → σ × μ × Bool) :
    List (Fault σ μ) → σ → μ → σ × μ × Bool × List Event
  | [], s, msg => (s, msg, false, [])
  | f :: fs, s, msg =>
    let r := hook f s msg
    let rest := consult op hook fs r.1 r.2.1
    (rest.1, rest.2.1, r.2.2 || rest.2.2.1, .hook f.id op r.2.2 :: rest.2.2.2)

def applyUnicastTo (m : FaultManager σ μ) (s : σ) (msg : μ) (dest : InterfaceId) :
    σ × μ × Bool × List Event :=
  consult .unicastTo (fun f s msg => f.onUnicastTo s msg dest) m.unicastToFaults s msg

def applySend (m : FaultManager σ μ) (s : σ) (msg : μ) (t : SendType)
    (targets : List InterfaceId := []) : σ × μ × Bool × List Event :=
  consult (.send t) (fun f s msg => f.onSend s msg t targets) (m.sendFaults t) s msg

/-- `applyReceive`; no operation of `ByzantinePeer` calls it. -/
def applyReceive (m : FaultManager σ μ) (s : σ) (msg : μ) (src : InterfaceId) :
    σ × μ × Bool × List Event :=
  consult .receive (fun f s msg => f.onReceive s msg src) m.receiveFaults s msg

def applyPerformComputation (m : FaultManager σ μ) (s : σ) (msg : μ) : σ × μ × Bool × List Event :=
  consult .performComputation
    (fun f s msg => ((f.onPerformComputation s).1, msg, (f.onPerformComputation s).2))
    m.computationFaults s msg

end FaultManager

/-! ## The operations of a Byzantine peer -/

/-- The default behaviours: those of the network interface, and the protocol's own computation.
`pushInStream` moves one arrived packet to the in-stream. -/
structure Defaults (σ μ : Type) where
  isCrashed : σ → Bool
  unicastTo : σ → μ → InterfaceId → σ
  unicast : σ → μ → σ
  multicast : σ → μ → List InterfaceId → σ
  broadcast : σ → μ → σ
  broadcastBut : σ → μ → InterfaceId → σ
  randomMulticast : σ → μ → σ
  pushInStream : σ → InterfaceId → μ → σ
  performComputation : σ → σ

/-- A call of one of the peer's operations. `receive` carries the packets that have arrived on the
inbound channels, each with its source. -/
inductive Call (μ : Type)
  | unicastTo (msg : μ) (dest : InterfaceId)
  | unicast (msg : μ)
  | multicast (msg : μ) (targets : List InterfaceId)
  | broadcast (msg : μ)
  | broadcastBut (msg : μ) (id : InterfaceId)
  | randomMulticast (msg : μ)
  | receive (arrived : List (InterfaceId × μ))
  | tryPerformComputation
  deriving DecidableEq, Repr

abbrev OpRecord := Operation × List Event

namespace ByzantinePeer
variable (d : Defaults σ μ) (faultManager : FaultManager σ μ)

/-- `if (!skipRegular) …`, after the hooks have been consulted. -/
def unlessSkipped (op : Operation) (r : σ × μ × Bool × List Event) (regular : σ → μ → σ) :
    σ × List OpRecord :=
  if r.2.2.1 then (r.1, [(op, r.2.2.2)])
  else (regular r.1 r.2.1, [(op, r.2.2.2 ++ [.default op])])

def unicastTo (s : σ) (msg : μ) (dest : InterfaceId) : σ × List OpRecord :=
  unlessSkipped .unicastTo (faultManager.applyUnicastTo s msg dest) fun s msg =>
    d.unicastTo s msg dest

def unicast (s : σ) (msg : μ) : σ × List OpRecord :=
  unlessSkipped (.send .unicast) (faultManager.applySend s msg .unicast) d.unicast

def multicast (s : σ) (msg : μ) (targets : List InterfaceId) : σ × List OpRecord :=
  unlessSkipped (.send .multicast) (faultManager.applySend s msg .multicast targets) fun s msg =>
    d.multicast s msg targets

def broadcast (s : σ) (msg : μ) : σ × List OpRecord :=
  unlessSkipped (.send .broadcast) (faultManager.applySend s msg .broadcast) d.broadcast

/-- `broadcastBut` does not ask the fault manager. -/
def broadcastBut (s : σ) (msg : μ) (id : InterfaceId) : σ × List OpRecord :=
  (d.broadcastBut s msg id, [(.send .broadcastBut, [.default (.send .broadcastBut)])])

def randomMulticast (s : σ) (msg : μ) : σ × List OpRecord :=
  unlessSkipped (.send .randomMulticast) (faultManager.applySend s msg .randomMulticast)
    d.randomMulticast

/-- `receive` moves every arrived packet to the in-stream; it does not ask the fault manager. -/
def receive : σ → List (InterfaceId × μ) → σ × List OpRecord
  | s, [] => (s, [])
  | s, (src, msg) :: arrived =>
    let rest := receive (d.pushInStream s src msg) arrived
    (rest.1, (.receive, [.default .receive]) :: rest.2)

/-- `tryPerformComputation`. A crashed peer performs no operation. The hooks of a computation have no
message; `msg` fills its place. -/
def tryPerformComputation (s : σ) (msg : μ) : σ × List OpRecord :=
  if d.isCrashed s then (s, [])
  else
    unlessSkipped .performComputation (faultManager.applyPerformComputation s msg) fun s _ =>
      d.performComputation s

def perform [Inhabited μ] (s : σ) : Call μ → σ × List OpRecord
  | .unicastTo msg dest => unicastTo d faultManager s msg dest
  | .unicast msg => unicast d faultManager s msg
  | .multicast msg targets => multicast d faultManager s msg targets
  | .broadcast msg => broadcast d faultManager s msg
  | .broadcastBut msg id => broadcastBut d s msg id
  | .randomMulticast msg => randomMulticast d faultManager s msg
  | .receive arrived => receive d s arrived
  | .tryPerformComputation => tryPerformComputation d faultManager s default

/-- The records of a run: the calls of the peer's operations, one after the other. -/
def records [Inhabited μ] (s : σ) : List (Call μ) → List OpRecord
  | [] => []
  | c :: cs => (perform d faultManager s c).2 ++ records (perform d faultManager s c).1 cs

end ByzantinePeer

/-! ## Complete hooks -/

/-- The record of an operation with complete hooks: first some hooks, those of all attached faults that
declare the operation among them; then the default behaviour, unless one of these hooks returned
true. -/
def Complete (faults : List (Fault σ μ)) (r : OpRecord) : Prop :=
  ∃ hooks : List (Nat × Bool),
    r.2 = hooks.map (fun h => .hook h.1 r.1 h.2) ++
      (if hooks.any (·.2) then [] else [.default r.1]) ∧
    ∀ f ∈ faults, f.declares r.1 → f.id ∈ hooks.map (·.1)

namespace FaultManager

@[simp] theorem addSendFaults_apply (fault : Fault σ μ) (ts : List SendType) (hts : ts.Nodup)
    (sendFaults : SendType → List (Fault σ μ)) (t : SendType) :
    addSendFaults fault ts sendFaults t =
      if t ∈ ts ∧ fault.overridesSendType t then sendFaults t ++ [fault] else sendFaults t := by
  induction ts generalizing sendFaults with
  | nil => simp [addSendFaults]
  | cons t' ts ih =>
    obtain ⟨hnotMem, hts⟩ := List.nodup_cons.mp hts
    rw [addSendFaults, ih hts]
    by_cases htt : t = t'
    · subst htt
      by_cases ho : fault.overridesSendType t <;> simp [hnotMem, ho]
    · by_cases ho : fault.overridesSendType t' <;> simp [htt, ho]

def consulted (m : FaultManager σ μ) : Operation → List (Fault σ μ)
  | .unicastTo => m.unicastToFaults
  | .send t => m.sendFaults t
  | .receive => m.receiveFaults
  | .performComputation => m.computationFaults

theorem consulted_addFault (m : FaultManager σ μ) (f : Fault σ μ) (op : Operation) :
    (m.addFault f).consulted op = m.consulted op ++ [f].filter (·.declares op) := by
  cases op with
  | unicastTo => by_cases h : f.overridesUnicastTo <;> simp [consulted, addFault, Fault.declares, h]
  | send t =>
    have hnodup : knownSendTypes.Nodup := by decide
    have hmem : t ∈ knownSendTypes := by cases t <;> decide
    by_cases h : f.overridesSendType t <;>
      simp [consulted, addFault, Fault.declares, addSendFaults_apply _ _ hnodup, hmem, h]
  | receive => by_cases h : f.overridesReceive <;> simp [consulted, addFault, Fault.declares, h]
  | performComputation =>
    by_cases h : f.overridesPerformComputation <;> simp [consulted, addFault, Fault.declares, h]

theorem consulted_attach (faults : List (Fault σ μ)) (op : Operation) :
    (attach faults).consulted op = faults.filter (·.declares op) := by
  have h : ∀ m : FaultManager σ μ,
      (faults.foldl addFault m).consulted op = m.consulted op ++ faults.filter (·.declares op) := by
    induction faults with
    | nil => simp
    | cons f fs ih =>
      intro m
      rw [List.foldl_cons, ih, consulted_addFault, List.append_assoc, ← List.filter_append,
        List.singleton_append]
  rw [attach, h]
  cases op <;> rfl

theorem consult_events (op : Operation) (hook : Fault σ μ → σ → μ → σ × μ × Bool)
    (fs : List (Fault σ μ)) (s : σ) (msg : μ) :
    ∃ hooks : List (Nat × Bool), (consult op hook fs s msg).2.2.2 =
        hooks.map (fun h => .hook h.1 op h.2) ∧
      (consult op hook fs s msg).2.2.1 = hooks.any (·.2) ∧ hooks.map (·.1) = fs.map (·.id) := by
  induction fs generalizing s msg with
  | nil => exact ⟨[], rfl, rfl, rfl⟩
  | cons f fs ih =>
    obtain ⟨hooks, hevents, hanswer, hids⟩ := ih (hook f s msg).1 (hook f s msg).2.1
    refine ⟨(f.id, (hook f s msg).2.2) :: hooks, ?_, ?_, ?_⟩
    · simp [consult, hevents]
    · simp [consult, hanswer]
    · simp [hids]

end FaultManager

namespace ByzantinePeer

open FaultManager

theorem complete_of_consult (faults : List (Fault σ μ)) (op : Operation)
    (hook : Fault σ μ → σ → μ → σ × μ × Bool) (s : σ) (msg : μ) (regular : σ → μ → σ)
    (r : OpRecord)
    (hr : r ∈ (unlessSkipped op (consult op hook ((attach faults).consulted op) s msg) regular).2) :
    Complete faults r := by
  obtain ⟨hooks, hevents, hanswer, hids⟩ :=
    consult_events op hook ((attach faults).consulted op) s msg
  have hdeclared : ∀ f ∈ faults, f.declares op → f.id ∈ hooks.map (·.1) := by
    intro f hf hdecl
    rw [hids, consulted_attach]
    exact List.mem_map_of_mem (List.mem_filter.mpr ⟨hf, hdecl⟩)
  unfold unlessSkipped at hr
  rw [hanswer, hevents] at hr
  by_cases hskip : hooks.any (·.2) = true
  · rw [if_pos hskip] at hr
    obtain rfl := List.mem_singleton.mp hr
    exact ⟨hooks, by simp only [hskip, if_true, List.append_nil], hdeclared⟩
  · rw [if_neg hskip] at hr
    obtain rfl := List.mem_singleton.mp hr
    exact ⟨hooks, by simp only [hskip, Bool.false_eq_true, if_false], hdeclared⟩

theorem complete_default_iff (faults : List (Fault σ μ)) (op : Operation) :
    Complete faults (op, [.default op]) ↔ ∀ f ∈ faults, f.declares op = false := by
  constructor
  · rintro ⟨hooks, hevents, hdeclared⟩ f hf
    have hnil : hooks = [] := by
      cases hooks with
      | nil => rfl
      | cons h hs => simp at hevents
    subst hnil
    by_contra hdecl
    simpa using hdeclared f hf (by simpa using hdecl)
  · intro h
    exact ⟨[], by simp, fun f hf hdecl => by simp [h f hf] at hdecl⟩

theorem mem_receive {d : Defaults σ μ} {s : σ} {arrived : List (InterfaceId × μ)} {r : OpRecord} :
    r ∈ (receive d s arrived).2 ↔ arrived ≠ [] ∧ r = (.receive, [.default .receive]) := by
  induction arrived generalizing s with
  | nil => simp [receive]
  | cons a arrived ih =>
    obtain ⟨src, msg⟩ := a
    rw [receive, List.mem_cons, ih]
    simp only [ne_eq, reduceCtorEq, not_false_eq_true, true_and]
    exact ⟨fun h => h.elim id (·.2), Or.inl⟩

/-- The condition under which a call meets the law: no fault declares `broadcastBut` if it is one, and
no fault overrides the reception if it delivers a message. -/
def CallCovered (faults : List (Fault σ μ)) : Call μ → Prop
  | .broadcastBut _ _ => ∀ f ∈ faults, f.overridesSendType .broadcastBut = false
  | .receive arrived => arrived ≠ [] → ∀ f ∈ faults, f.overridesReceive = false
  | _ => True

theorem perform_complete_iff [Inhabited μ] (d : Defaults σ μ) (faults : List (Fault σ μ)) (s : σ)
    (c : Call μ) :
    (∀ r ∈ (perform d (attach faults) s c).2, Complete faults r) ↔ CallCovered faults c := by
  cases c with
  | broadcastBut msg id =>
    rw [perform, broadcastBut, CallCovered, List.forall_mem_singleton, complete_default_iff]
    rfl
  | receive arrived =>
    simp only [perform, CallCovered, mem_receive, and_imp, forall_eq_apply_imp_iff]
    exact forall_congr' fun _ => complete_default_iff faults .receive
  | unicastTo msg dest =>
    exact iff_of_true (fun r => complete_of_consult faults .unicastTo _ s msg _ r) trivial
  | unicast msg =>
    exact iff_of_true (fun r => complete_of_consult faults (.send .unicast) _ s msg _ r) trivial
  | multicast msg targets =>
    exact iff_of_true (fun r => complete_of_consult faults (.send .multicast) _ s msg _ r) trivial
  | broadcast msg =>
    exact iff_of_true (fun r => complete_of_consult faults (.send .broadcast) _ s msg _ r) trivial
  | randomMulticast msg =>
    exact iff_of_true (fun r => complete_of_consult faults (.send .randomMulticast) _ s msg _ r)
      trivial
  | tryPerformComputation =>
    refine iff_of_true (fun r hr => ?_) trivial
    rw [perform, tryPerformComputation] at hr
    split_ifs at hr
    · exact absurd hr List.not_mem_nil
    · exact complete_of_consult faults .performComputation _ s default _ r hr

/-- **When the hooks are complete.** In a run of a peer with these faults every operation consults the
hooks of all faults that declare it, before its default, and suppresses the default exactly when one of
them returned true, if and only if the run calls `broadcastBut` only when no fault declares it, and
receives messages only when no fault overrides the reception. -/
theorem hooks_complete_iff [Inhabited μ] (d : Defaults σ μ) (faults : List (Fault σ μ)) (s : σ)
    (calls : List (Call μ)) :
    (∀ r ∈ records d (attach faults) s calls, Complete faults r) ↔
      ∀ c ∈ calls, CallCovered faults c := by
  induction calls generalizing s with
  | nil => simp [records]
  | cons c cs ih =>
    simp only [records, List.forall_mem_append, List.forall_mem_cons, ih,
      perform_complete_iff d faults s c]

def dropInbound : Fault Unit Nat where
  id := 0
  overridesReceive := true
  onReceive := fun s msg _ => (s, msg, true)

def silent : Defaults Unit Nat where
  isCrashed := fun _ => false
  unicastTo := fun s _ _ => s
  unicast := fun s _ => s
  multicast := fun s _ _ => s
  broadcast := fun s _ => s
  broadcastBut := fun s _ _ => s
  randomMulticast := fun s _ => s
  pushInStream := fun s _ _ => s
  performComputation := fun s => s

/-- One message from peer 1 reaches the in-stream past the fault that drops all of them. -/
theorem inbound_hook_not_consulted :
    ¬ ∀ r ∈ records silent (attach [dropInbound]) () [.receive [(1, 7)]],
      Complete [dropInbound] r := by
  intro h
  have hdeclared := (complete_default_iff [dropInbound] .receive).mp
    (h (.receive, [.default .receive]) (by decide))
  exact absurd (hdeclared dropInbound (List.mem_singleton_self _)) (by decide)

end ByzantinePeer

end Quantas
