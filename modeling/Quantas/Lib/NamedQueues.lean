import Mathlib

/-!
# Named message queues

Queues that processes find by name. A name denotes at most one queue at a time; `remove` frees the name and
leaves the queue to those who hold a handle on it, so the queues that have carried one name are told apart by
a stamp. A queue is first in, first out and has a capacity.
-/

namespace Lib

structure NamedQueues (N S M : Type*) where
  /-- The queue that a name denotes now, by its stamp. -/
  linked : N → Option S
  /-- What the queue of a name and a stamp holds, oldest first. -/
  messages : N → S → List M

namespace NamedQueues
variable {N S M : Type*}

def empty : NamedQueues N S M := { linked := fun _ => none, messages := fun _ _ => [] }

variable [DecidableEq N] (q : NamedQueues N S M) {name other : N}

def link (name : N) (stamp : S) : NamedQueues N S M :=
  { q with linked := Function.update q.linked name (some stamp) }

def remove (name : N) : NamedQueues N S M := { q with linked := Function.update q.linked name none }

variable {q}

@[simp] theorem remove_messages : (q.remove name).messages = q.messages := rfl

@[simp] theorem remove_linked_self : (q.remove name).linked name = none := by
  simp [remove]

@[simp] theorem remove_linked_of_ne (h : other ≠ name) :
    (q.remove name).linked other = q.linked other := by
  simp [remove, h]

@[simp] theorem link_messages {stamp : S} : (q.link name stamp).messages = q.messages := rfl

@[simp] theorem link_linked_self {stamp : S} : (q.link name stamp).linked name = some stamp := by
  simp [link]

@[simp] theorem link_linked_of_ne {stamp : S} (h : other ≠ name) :
    (q.link name stamp).linked other = q.linked other := by
  simp [link, h]

variable [DecidableEq S] (q)

def store (name : N) (stamp : S) (content : List M) : NamedQueues N S M :=
  { q with messages := Function.update q.messages name (Function.update (q.messages name) stamp content) }

def create (name : N) (stamp : S) : Option (NamedQueues N S M) :=
  if q.linked name = none then some ((q.store name stamp []).link name stamp) else none

def send (capacity : Nat) (name : N) (stamp : S) (m : M) : Option (NamedQueues N S M) :=
  if (q.messages name stamp).length < capacity then some (q.store name stamp (q.messages name stamp ++ [m]))
  else none

def receive (name : N) (stamp : S) : Option (M × NamedQueues N S M) :=
  match q.messages name stamp with
  | [] => none
  | m :: rest => some (m, q.store name stamp rest)

variable {q} {stamp stamp' : S}

@[simp] theorem store_linked {content : List M} : (q.store name stamp content).linked = q.linked := rfl

@[simp] theorem store_messages_name {content : List M} :
    (q.store name stamp content).messages name = Function.update (q.messages name) stamp content := by
  simp [store]

theorem store_messages_self {content : List M} :
    (q.store name stamp content).messages name stamp = content := by
  simp [store]

@[simp] theorem store_messages_of_name_ne {content : List M} (h : other ≠ name) :
    (q.store name stamp content).messages other = q.messages other := by
  simp [store, h]

@[simp] theorem store_messages_of_stamp_ne {content : List M} (h : stamp' ≠ stamp) :
    (q.store name stamp content).messages name stamp' = q.messages name stamp' := by
  simp [store, h]

variable {q' : NamedQueues N S M}

theorem create_eq_some (h : q.create name stamp = some q') :
    q.linked name = none ∧ q' = (q.store name stamp []).link name stamp := by
  unfold create at h
  split_ifs at h with hfree
  exact ⟨hfree, (Option.some.inj h).symm⟩

theorem send_eq_some {capacity : Nat} {m : M} (h : q.send capacity name stamp m = some q') :
    q' = q.store name stamp (q.messages name stamp ++ [m]) := by
  unfold send at h
  split_ifs at h with hroom
  exact (Option.some.inj h).symm

theorem receive_eq_some {m : M} (h : q.receive name stamp = some (m, q')) :
    ∃ rest, q.messages name stamp = m :: rest ∧ q' = q.store name stamp rest := by
  unfold receive at h
  split at h
  · simp at h
  · rename_i m₁ rest hcontent
    obtain ⟨rfl, rfl⟩ := Prod.mk.inj (Option.some.inj h)
    exact ⟨rest, hcontent, rfl⟩

end NamedQueues

end Lib
