import Quantas.Common.Packet

/-!
# PBFT: messages and equivocation

Pre-prepare, prepare and commit messages have the same fields, and a prepare or commit is made from a
pre-prepare by changing the type and the sender. Fields that are the same in all messages (`type`,
`consensusId`) are left out. `EquivocateFault` sends two versions of a message to two groups.
-/

namespace Quantas.Pbft

structure ClientRequest where
  requestId : Nat
  submitterId : InterfaceId
  roundSubmitted : Nat
  faultFlip : Bool := false
  deriving DecidableEq, Repr

/-- What makes two requests the same client request. -/
def ClientRequest.key (r : ClientRequest) : InterfaceId × Nat := (r.submitterId, r.requestId)

inductive PhaseType
  | prePrepare
  | prepare
  | commit
  deriving DecidableEq, Repr

/-- A message of the normal case; `request` and `proposalView` are its `proposal`. -/
structure PhaseMessage where
  messageType : PhaseType
  seqNum : Nat
  view : Nat
  request : ClientRequest
  proposalView : Nat
  fromId : InterfaceId
  deriving DecidableEq, Repr

structure Checkpoint where
  seqNum : Nat
  digest : String
  fromId : InterfaceId
  view : Nat
  deriving DecidableEq, Repr

structure ViewChange where
  seqNum : Nat
  newView : Nat
  view : Nat
  lastStable : Nat
  preparedProof : List PhaseMessage
  fromId : InterfaceId
  deriving DecidableEq, Repr

structure NewView where
  seqNum : Nat
  view : Nat
  lastStable : Nat
  preparedProof : List PhaseMessage
  fromId : InterfaceId
  deriving DecidableEq, Repr

inductive Message
  /-- `"type": "Request"`. -/
  | request (request : ClientRequest)
  | phase (m : PhaseMessage)
  | checkpoint (m : Checkpoint)
  | viewChange (m : ViewChange)
  | newView (m : NewView)
  deriving DecidableEq, Repr

namespace Message

/-- `from_id`, which requests do not have. -/
def fromId : Message → Option InterfaceId
  | .request _ => none
  | .phase m => some m.fromId
  | .checkpoint m => some m.fromId
  | .viewChange m => some m.fromId
  | .newView m => some m.fromId

def seqNum : Message → Nat
  | .request _ => 0
  | .phase m => m.seqNum
  | .checkpoint m => m.seqNum
  | .viewChange m => m.seqNum
  | .newView m => m.seqNum

/-- The pre-prepares in a message: itself, or its `preparedProof`. -/
def proposals : Message → List PhaseMessage
  | .phase m => if m.messageType = .prePrepare then [m] else []
  | .viewChange m => m.preparedProof
  | .newView m => m.preparedProof
  | _ => []

def requests : Message → List ClientRequest
  | .request r => [r]
  | .phase m => [m.request]
  | .checkpoint _ => []
  | .viewChange m => m.preparedProof.map PhaseMessage.request
  | .newView m => m.preparedProof.map PhaseMessage.request

/-! The kinds of message. -/

def phase? : Message → Option PhaseMessage
  | .phase m => some m
  | _ => none

def checkpoint? : Message → Option Checkpoint
  | .checkpoint m => some m
  | _ => none

def viewChange? : Message → Option ViewChange
  | .viewChange m => some m
  | _ => none

def newView? : Message → Option NewView
  | .newView m => some m
  | _ => none

@[simp] theorem phase?_eq_some {msg : Message} {m : PhaseMessage} :
    msg.phase? = some m ↔ msg = .phase m := by
  cases msg <;> simp [phase?]

@[simp] theorem checkpoint?_eq_some {msg : Message} {m : Checkpoint} :
    msg.checkpoint? = some m ↔ msg = .checkpoint m := by
  cases msg <;> simp [checkpoint?]

@[simp] theorem viewChange?_eq_some {msg : Message} {m : ViewChange} :
    msg.viewChange? = some m ↔ msg = .viewChange m := by
  cases msg <;> simp [viewChange?]

@[simp] theorem newView?_eq_some {msg : Message} {m : NewView} :
    msg.newView? = some m ↔ msg = .newView m := by
  cases msg <;> simp [newView?]

end Message

/-! ## Equivocation -/

/-- A fault with its two groups; `initParameters` makes it applicable to pre-prepare, prepare, commit and
checkpoint messages. -/
structure EquivocateFault where
  quorumA : List InterfaceId
  quorumB : List InterfaceId
  deriving DecidableEq, Repr

namespace EquivocateFault

def unflipped (digest : String) : String :=
  if "#flip".toList <:+ digest.toList then String.ofList (digest.toList.take (digest.length - 5))
  else digest

def variants : Message → Option (Message × Message)
  | .phase m =>
    some (.phase { m with request := { m.request with faultFlip := false } },
      .phase { m with request := { m.request with faultFlip := true } })
  | .checkpoint m =>
    some (.checkpoint { m with digest := unflipped m.digest },
      .checkpoint { m with digest := unflipped m.digest ++ "#flip" })
  | _ => none

/-- `onSend` of a multicast: what is sent to whom, or `none` when the multicast is left alone. -/
def onSend (fault : EquivocateFault) (msg : Message) (targets : List InterfaceId) :
    Option (List (InterfaceId × Message)) :=
  match variants msg with
  | none => none
  | some (normal, alt) =>
    if targets = [] then none
    else some ((targets.filter (· ∈ fault.quorumA)).map (·, normal) ++
      (targets.filter (· ∈ fault.quorumB)).map (·, alt))

theorem variants_fromId {msg normal alt : Message} (h : variants msg = some (normal, alt)) :
    normal.fromId = msg.fromId ∧ alt.fromId = msg.fromId := by
  cases msg with
  | phase m =>
    obtain ⟨rfl, rfl⟩ := Prod.mk.inj (Option.some.inj h)
    exact ⟨rfl, rfl⟩
  | checkpoint m =>
    obtain ⟨rfl, rfl⟩ := Prod.mk.inj (Option.some.inj h)
    exact ⟨rfl, rfl⟩
  | request _ => cases h
  | viewChange _ => cases h
  | newView _ => cases h

theorem onSend_fromId {fault : EquivocateFault} {msg : Message} {targets : List InterfaceId}
    {sends : List (InterfaceId × Message)} (h : fault.onSend msg targets = some sends) :
    ∀ x ∈ sends, x.1 ∈ targets ∧ x.2.fromId = msg.fromId := by
  unfold onSend at h
  cases hvariants : variants msg with
  | none =>
    rw [hvariants] at h
    cases h
  | some pair =>
    obtain ⟨hnormal, halt⟩ := variants_fromId hvariants
    rw [hvariants] at h
    simp only at h
    split_ifs at h
    obtain rfl := Option.some.inj h
    intro x hx
    rcases List.mem_append.mp hx with hx | hx
    · obtain ⟨target, htarget, rfl⟩ := List.mem_map.mp hx
      exact ⟨(List.mem_filter.mp htarget).1, hnormal⟩
    · obtain ⟨target, htarget, rfl⟩ := List.mem_map.mp hx
      exact ⟨(List.mem_filter.mp htarget).1, halt⟩

end EquivocateFault

end Quantas.Pbft
