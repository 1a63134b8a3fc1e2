import Quantas.Lib.Interleaving
import Quantas.Lib.Transition

/-!
# The thread pool

`Simulation::run` keeps one `thread_pool` and uses it in one way: `parallelize_loop` cuts an index range into
blocks and submits each as a task, `wait` waits for their futures, and what stands between two loops runs on
the main thread alone.

A state of the pool is what its threads share; an event is one atomic action of the main thread or of a worker.
The body of a task is a program, of which a worker takes one step at a time, so that the steps of tasks
interleave at will. An exception inside a body ends the body: its future is ready all the same. A worker makes
the future ready before it takes the task off `tasks_total`, so the next loop may begin while it has still to do
that; and the main thread counts a task only after the queue is unlocked, when a worker may have finished it.

Where the bodies of each loop are local to disjoint parts of the world, every run of the pool comes to its end,
in the world that the main thread would reach alone (`Pool.result`, `Pool.progress`, `Pool.wellFounded_step`).
-/

namespace Quantas.BS

open Lib

/-! ## Blocks -/

/-- `blocks`. The indices are `int`s, the numbers of blocks and of indices are `size_t`s. -/
structure Blocks where
  block_size : Nat
  first_index : Int
  index_after_last : Int
  num_blocks : Nat
  total_size : Nat
  deriving DecidableEq, Repr

def Blocks.make (first_index index_after_last : Int) (num_blocks : Nat) : Blocks :=
  let first := if index_after_last < first_index then index_after_last else first_index
  let after := if index_after_last < first_index then first_index else index_after_last
  let total_size := (after - first).toNat
  let block_size := total_size / num_blocks
  if block_size = 0 then
    { block_size := 1, first_index := first, index_after_last := after,
      num_blocks := if total_size > 1 then total_size else 1, total_size }
  else { block_size, first_index := first, index_after_last := after, num_blocks, total_size }

namespace Blocks
variable (b : Blocks)

def start (i : Nat) : Int := (i * b.block_size : Nat) + b.first_index

def stop (i : Nat) : Int :=
  if i = b.num_blocks - 1 then b.index_after_last else ((i + 1) * b.block_size : Nat) + b.first_index

end Blocks

/-- The tasks that `parallelize_loop` submits, in that order; 0 for `num_blocks` stands for one block for each
thread. -/
def parallelize_loop {α : Type*} (thread_count : Nat) (first_index index_after_last : Int)
    (loop : Int → Int → α) (num_blocks : Nat) : List α :=
  let blks := Blocks.make first_index index_after_last (if num_blocks ≠ 0 then num_blocks else thread_count)
  if blks.total_size > 0 then (List.range blks.num_blocks).map fun i => loop (blks.start i) (blks.stop i)
  else []

/-- The indices that a loop visits from `first` on. -/
def indices (first after : Int) : List Nat := List.range' first.toNat (after - first).toNat

theorem indices_append {a b c : Nat} (hab : a ≤ b) (hbc : b ≤ c) :
    indices a b ++ indices b c = indices a c := by
  have hsplit : ((c : Int) - a).toNat = ((b : Int) - a).toNat + ((c : Int) - b).toNat := by omega
  have hstart : (b : Int).toNat = (a : Int).toNat + ((b : Int) - a).toNat := by omega
  unfold indices
  rw [hsplit, hstart]
  exact List.range'_append_1

theorem flatten_indices (size k : Nat) :
    ((List.range k).map fun i => indices (i * size : Nat) ((i + 1) * size : Nat)).flatten =
      indices 0 (k * size : Nat) := by
  induction k with
  | zero => rw [List.range_zero, List.map_nil, zero_mul]; rfl
  | succ k ih =>
    rw [List.range_succ, List.map_append, List.flatten_append, ih, List.map_singleton, List.flatten_singleton]
    exact indices_append (a := 0) (Nat.zero_le _) (Nat.mul_le_mul_right _ (Nat.le_succ k))

theorem map_parallelize_loop {α β : Type*} (thread_count : Nat) (first after : Int) (loop : Int → Int → α)
    (num_blocks : Nat) (f : α → β) :
    (parallelize_loop thread_count first after loop num_blocks).map f =
      parallelize_loop thread_count first after (fun a b => f (loop a b)) num_blocks := by
  unfold parallelize_loop
  rw [apply_ite (List.map f), List.map_map]
  rfl

section loop
variable {thread_count : Nat} (hthreads : 0 < thread_count) (n : Nat)
include hthreads

theorem parallelize_loop_eq {α : Type*} (loop : Int → Int → α) : ∃ size k : Nat, k * size ≤ n ∧
    parallelize_loop thread_count 0 n loop 0 = if n = 0 then [] else
      (List.range k).map (fun i => loop (i * size : Nat) ((i + 1) * size : Nat)) ++ [loop (k * size : Nat) n] := by
  have hlt : ¬ (n : Int) < 0 := by omega
  have htotal : ((n : Int) - 0).toNat = n := by omega
  -- the constructor's two cases, which differ in the size and the number of the blocks
  obtain ⟨size, k, hsize, hmake⟩ : ∃ size k : Nat, (n ≠ 0 → (k + 1) * size ≤ n) ∧
      Blocks.make 0 n thread_count = ⟨size, 0, n, k + 1, n⟩ := by
    unfold Blocks.make
    simp only [if_neg hlt, htotal]
    by_cases hsmall : n / thread_count = 0
    · have hcount : (if n > 1 then n else 1) = n - 1 + 1 := by split_ifs <;> omega
      refine ⟨1, n - 1, by omega, ?_⟩
      rw [if_pos hsmall, hcount]
    · refine ⟨n / thread_count, thread_count - 1, ?_, ?_⟩
      · intro _
        rw [Nat.sub_add_cancel hthreads]
        exact Nat.mul_div_le n thread_count
      · rw [if_neg hsmall, Nat.sub_add_cancel hthreads]
  unfold parallelize_loop
  simp only [ne_eq, not_true, if_false, hmake]
  by_cases hn : n = 0
  · refine ⟨0, 0, Nat.zero_le _, ?_⟩
    rw [if_pos hn, if_neg (by omega)]
  · refine ⟨size, k, (Nat.mul_le_mul_right size (Nat.le_succ k)).trans (hsize hn), ?_⟩
    rw [if_neg hn, if_pos (by omega), List.range_succ, List.map_append, List.map_singleton]
    have hfirst : ∀ i ∈ List.range k, loop (Blocks.start ⟨size, 0, n, k + 1, n⟩ i)
        (Blocks.stop ⟨size, 0, n, k + 1, n⟩ i) = loop (i * size : Nat) ((i + 1) * size : Nat) := by
      intro i hi
      have hik : i < k := List.mem_range.mp hi
      rw [Blocks.start, Blocks.stop, if_neg (by show ¬ i = k + 1 - 1; omega), add_zero, add_zero]
    have hlast : loop (Blocks.start ⟨size, 0, n, k + 1, n⟩ k) (Blocks.stop ⟨size, 0, n, k + 1, n⟩ k) =
        loop (k * size : Nat) n := by
      rw [Blocks.start, Blocks.stop, if_pos (by show k = k + 1 - 1; omega), add_zero]
    rw [List.map_congr_left hfirst, hlast]

/-- **The blocks of a loop visit every index once, and in order.** -/
theorem flatten_parallelize_loop : (parallelize_loop thread_count 0 n indices 0).flatten = List.range n := by
  obtain ⟨size, k, hsize, heq⟩ := parallelize_loop_eq hthreads n indices
  rw [heq]
  by_cases hn : n = 0
  · rw [if_pos hn, hn]
    rfl
  · rw [if_neg hn, List.flatten_append, flatten_indices, List.flatten_singleton, List.range_eq_range']
    exact indices_append (a := 0) (Nat.zero_le _) hsize

theorem parallelize_loop_congr {α : Type*} {loop loop' : Int → Int → α}
    (h : ∀ a b : Nat, b ≤ n → loop a b = loop' a b) :
    parallelize_loop thread_count 0 n loop 0 = parallelize_loop thread_count 0 n loop' 0 := by
  have hpair : parallelize_loop thread_count 0 n loop 0 =
      (parallelize_loop thread_count 0 n Prod.mk 0).map fun r => loop r.1 r.2 := by
    rw [map_parallelize_loop]
  have hpair' : parallelize_loop thread_count 0 n loop' 0 =
      (parallelize_loop thread_count 0 n Prod.mk 0).map fun r => loop' r.1 r.2 := by
    rw [map_parallelize_loop]
  obtain ⟨size, k, hsize, heq⟩ := parallelize_loop_eq hthreads n (Prod.mk : Int → Int → Int × Int)
  rw [hpair, hpair', heq]
  by_cases hn : n = 0
  · rw [if_pos hn]
    rfl
  · rw [if_neg hn, List.map_append, List.map_append, List.map_map, List.map_map]
    congr 1
    · apply List.map_congr_left
      intro i hi
      apply h
      exact (Nat.mul_le_mul_right size (List.mem_range.mp hi)).trans hsize
    · exact congrArg (fun x => [x]) (h _ _ le_rfl)

end loop

/-! ## The pool -/

/-- What the main thread does: a loop that it cuts into blocks and waits for, or something of its own. -/
inductive Stage (W : Type*)
  | loop (blocks : List (Prog W))
  | serial (act : W → W)

/-- A worker waits for a task, or runs one, or has made its future ready and not yet lowered `tasks_total`. -/
inductive Worker (W : Type*)
  | idle
  | busy (task : Nat) (rest : Prog W)
  | returning

/-- How much of `tasks_total` a worker stands for. -/
def Worker.load {W : Type*} : Worker W → Nat
  | idle => 0
  | busy _ _ => 1
  | returning => 1

@[simp] theorem Worker.load_idle {W : Type*} : (idle : Worker W).load = 0 := rfl

@[simp] theorem Worker.load_busy {W : Type*} (k : Nat) (p : Prog W) : (busy k p).load = 1 := rfl

@[simp] theorem Worker.load_returning {W : Type*} : (returning : Worker W).load = 1 := rfl

def Worker.holds {W : Type*} : Worker W → Multiset (Prog W)
  | idle => 0
  | busy _ p => {p}
  | returning => 0

/-- What the threads share. The main thread has submitted the current loop but for the blocks in `todo`; `mf`
are the futures that it has got for that loop, and `script` is what it does after it. A task is the body of a
block with the number of its promise. -/
structure Pool (W : Type*) where
  script : List (Stage W)
  todo : List (Prog W) := []
  uncounted : Bool := false
  promises : Nat := 0
  mf : List Nat := []
  tasks : List (Nat × Prog W) := []
  tasks_total : BitVec 64 := 0
  workers : Nat → Worker W := fun _ => .idle
  ready : Finset Nat := ∅
  world : W

/-- An atomic action of the main thread, or of the worker with the given number. -/
inductive PoolEvent
  /-- `tasks.push`, in `submit`. -/
  | submit
  /-- `++tasks_total`, after it. -/
  | count
  /-- `wait` returns, and the main thread goes on. -/
  | next
  /-- `tasks.pop`. -/
  | take (t : Nat)
  /-- One step of the body of the task. -/
  | work (t : Nat)
  /-- `set_value`, or `set_exception`. -/
  | finish (t : Nat)
  /-- `--tasks_total`. -/
  | giveBack (t : Nat)
  deriving DecidableEq, Repr

namespace Pool
variable {W : Type*} (thread_count : Nat) (s : Pool W)

/-- `wait` returns: all blocks are submitted, and all their futures are ready. -/
def Waited : Prop := s.todo = [] ∧ s.uncounted = false ∧ ∀ k ∈ s.mf, k ∈ s.ready

instance : Decidable s.Waited := inferInstanceAs (Decidable (_ ∧ _ ∧ _))

def setWorker (t : Nat) (worker : Worker W) : Pool W :=
  { s with workers := Function.update s.workers t worker }

def step : PoolEvent → Option (Pool W)
  | .submit =>
    match s.todo, s.uncounted with
    | p :: rest, false => some { s with
        todo := rest
        uncounted := true
        promises := s.promises + 1
        mf := s.mf ++ [s.promises]
        tasks := s.tasks ++ [(s.promises, p)] }
    | _, _ => none
  | .count => if s.uncounted then some { s with uncounted := false, tasks_total := s.tasks_total + 1 } else none
  | .next =>
    if s.Waited then
      match s.script with
      | [] => none
      | .loop blocks :: rest => some { s with script := rest, todo := blocks, mf := [] }
      | .serial act :: rest => some { s with script := rest, mf := [], world := act s.world }
    else none
  | .take t =>
    if t < thread_count then
      match s.workers t, s.tasks with
      | .idle, (k, p) :: rest => some { s.setWorker t (.busy k p) with tasks := rest }
      | _, _ => none
    else none
  | .work t =>
    if t < thread_count then
      match s.workers t with
      | .busy k (.step act next) => some { s.setWorker t (.busy k (next s.world)) with world := act s.world }
      | _ => none
    else none
  | .finish t =>
    if t < thread_count then
      match s.workers t with
      | .busy k .done => some { s.setWorker t .returning with ready := insert k s.ready }
      | _ => none
    else none
  | .giveBack t =>
    if t < thread_count then
      match s.workers t with
      | .returning => some { s.setWorker t .idle with tasks_total := s.tasks_total - 1 }
      | _ => none
    else none

def fresh (script : List (Stage W)) (world : W) : Pool W := { script, world }

end Pool

def poolMachine {W : Type*} (thread_count : Nat) (script : List (Stage W)) (world : W) :
    Machine (Pool W) PoolEvent where
  initial s := s = Pool.fresh script world
  step := Pool.step thread_count

/-! ## What the main thread would do alone -/

variable {W κ : Type*} {ν : κ → Type*} {read : (k : κ) → W → ν k}

def Stage.alone : Stage W → W → W
  | loop blocks, w => blocks.foldl (fun w p => p.run w) w
  | serial act, w => act w

def alone (script : List (Stage W)) (w : W) : W := script.foldl (fun w stage => stage.alone w) w

def Parallel (read : (k : κ) → W → ν k) (blocks : List (Prog W)) : Prop :=
  ∃ foot : Nat → Set κ, (∀ i j, i ≠ j → Disjoint (foot i) (foot j)) ∧
    ∀ i, (blocks[i]?.getD Prog.done).Local read (foot i)

namespace Pool
variable {thread_count : Nat} {s s' : Pool W}

theorem step_cases {e : PoolEvent} (h : s.step thread_count e = some s') :
    (∃ p rest, e = .submit ∧ s.todo = p :: rest ∧ s.uncounted = false ∧
      s' = { s with
        todo := rest
        uncounted := true
        promises := s.promises + 1
        mf := s.mf ++ [s.promises]
        tasks := s.tasks ++ [(s.promises, p)] }) ∨
    (e = .count ∧ s.uncounted = true ∧
      s' = { s with uncounted := false, tasks_total := s.tasks_total + 1 }) ∨
    (∃ blocks rest, e = .next ∧ s.Waited ∧ s.script = .loop blocks :: rest ∧
      s' = { s with script := rest, todo := blocks, mf := [] }) ∨
    (∃ act rest, e = .next ∧ s.Waited ∧ s.script = .serial act :: rest ∧
      s' = { s with script := rest, mf := [], world := act s.world }) ∨
    (∃ t k p rest, e = .take t ∧ t < thread_count ∧ s.workers t = .idle ∧ s.tasks = (k, p) :: rest ∧
      s' = { s.setWorker t (.busy k p) with tasks := rest }) ∨
    (∃ t k act next, e = .work t ∧ t < thread_count ∧ s.workers t = .busy k (.step act next) ∧
      s' = { s.setWorker t (.busy k (next s.world)) with world := act s.world }) ∨
    (∃ t k, e = .finish t ∧ t < thread_count ∧ s.workers t = .busy k .done ∧
      s' = { s.setWorker t .returning with ready := insert k s.ready }) ∨
    (∃ t, e = .giveBack t ∧ t < thread_count ∧ s.workers t = .returning ∧
      s' = { s.setWorker t .idle with tasks_total := s.tasks_total - 1 }) := by
  cases e with
  | submit =>
    rw [step] at h
    split at h
    · rename_i p rest htodo huncounted
      exact .inl ⟨p, rest, rfl, htodo, huncounted, (Option.some.inj h).symm⟩
    · cases h
  | count =>
    rw [step] at h
    split_ifs at h with hcount
    exact .inr (.inl ⟨rfl, hcount, (Option.some.inj h).symm⟩)
  | next =>
    rw [step] at h
    split_ifs at h with hwaited
    split at h
    · cases h
    · rename_i blocks rest hscript
      exact .inr (.inr (.inl ⟨blocks, rest, rfl, hwaited, hscript, (Option.some.inj h).symm⟩))
    · rename_i act rest hscript
      exact .inr (.inr (.inr (.inl ⟨act, rest, rfl, hwaited, hscript, (Option.some.inj h).symm⟩)))
  | take t =>
    rw [step] at h
    split_ifs at h with ht
    split at h
    · rename_i k p rest hidle htasks
      exact .inr (.inr (.inr (.inr (.inl ⟨t, k, p, rest, rfl, ht, hidle, htasks, (Option.some.inj h).symm⟩))))
    · cases h
  | work t =>
    rw [step] at h
    split_ifs at h with ht
    split at h
    · rename_i k act next hbusy
      exact .inr (.inr (.inr (.inr (.inr (.inl ⟨t, k, act, next, rfl, ht, hbusy, (Option.some.inj h).symm⟩)))))
    · cases h
  | finish t =>
    rw [step] at h
    split_ifs at h with ht
    split at h
    · rename_i k hbusy
      exact .inr (.inr (.inr (.inr (.inr (.inr (.inl ⟨t, k, rfl, ht, hbusy, (Option.some.inj h).symm⟩))))))
    · cases h
  | giveBack t =>
    rw [step] at h
    split_ifs at h with ht
    split at h
    · rename_i hreturning
      exact .inr (.inr (.inr (.inr (.inr (.inr (.inr ⟨t, rfl, ht, hreturning, (Option.some.inj h).symm⟩))))))
    · cases h

/-! ## The tasks -/

/-- Where the tasks of the current loop are, and what is left of them: `left k` of the one with promise `k`,
which is local to `foot k`. The promises from `base` on are those of the loop. -/
structure Inv (read : (k : κ) → W → ν k) (s : Pool W) (base : Nat) (foot : Nat → Set κ)
    (left : Nat → Prog W) : Prop where
  disjoint : ∀ i j, i ≠ j → Disjoint (foot i) (foot j)
  isLocal : ∀ k, (left k).Local read (foot k)
  mf : s.mf = List.range' base s.mf.length
  promises : s.promises = base + s.mf.length
  todo : ∀ j p, s.todo[j]? = some p → left (s.promises + j) = p
  queued : ∀ k p, (k, p) ∈ s.tasks → left k = p ∧ k < s.promises ∧ k ∉ s.ready
  nodup : (s.tasks.map Prod.fst).Nodup
  busy : ∀ t k p, s.workers t = .busy k p → left k = p ∧ k < s.promises ∧ k ∉ s.ready ∧ ∀ q, (k, q) ∉ s.tasks
  distinct : ∀ t t' k p p', s.workers t = .busy k p → s.workers t' = .busy k p' → t = t'
  ready : ∀ k ∈ s.ready, left k = .done ∧ k < s.promises
  covered : ∀ k < s.promises, k ∈ s.ready ∨ (∃ p, (k, p) ∈ s.tasks) ∨ ∃ t p, s.workers t = .busy k p
  earlier : ∀ k < base, k ∈ s.ready

/-- The tasks of the current loop run to their ends, and then the rest of the script. -/
def outcome (s : Pool W) (left : Nat → Prog W) : W :=
  alone s.script (Prog.finish (s.mf ++ List.range' s.promises s.todo.length) left s.world)

/-- Some tasks account for the state, the loops to come are parallel, and the outcome is `result`. -/
def Accounted (read : (k : κ) → W → ν k) (result : W) (s : Pool W) : Prop :=
  (∀ blocks, .loop blocks ∈ s.script → Parallel read blocks) ∧
    ∃ base foot left, Inv read s base foot left ∧ s.outcome left = result

namespace Inv
variable {base : Nat} {foot : Nat → Set κ} {left : Nat → Prog W}

theorem nodup_ids (h : Inv read s base foot left) :
    (s.mf ++ List.range' s.promises s.todo.length).Nodup := by
  rw [h.mf, h.promises, List.range'_append_1]
  exact List.nodup_range'

theorem mem_mf (h : Inv read s base foot left) {k : Nat} (hk : k < s.promises) (hready : k ∉ s.ready) :
    k ∈ s.mf := by
  have hbase : base ≤ k := not_lt.mp fun hlt => hready (h.earlier k hlt)
  rw [h.mf, List.mem_range'_1]
  rw [h.promises] at hk
  exact ⟨hbase, hk⟩

theorem outcome_waited (h : Inv read s base foot left) (hwaited : s.Waited) :
    s.outcome left = alone s.script s.world := by
  obtain ⟨htodo, -, hready⟩ := hwaited
  rw [outcome, htodo, List.length_nil, List.range'_zero, List.append_nil, Prog.finish_done]
  intro k hk
  exact (h.ready k (hready k hk)).1

theorem all_ready (h : Inv read s base foot left) (hwaited : s.Waited) : ∀ k < s.promises, k ∈ s.ready := by
  intro k hk
  by_contra hready
  exact hready (hwaited.2.2 k (h.mem_mf hk hready))

end Inv

theorem finish_range' (blocks : List (Prog W)) (base : Nat) (left : Nat → Prog W)
    (h : ∀ j p, blocks[j]? = some p → left (base + j) = p) (w : W) :
    Prog.finish (List.range' base blocks.length) left w = blocks.foldl (fun w p => p.run w) w := by
  induction blocks generalizing base w with
  | nil => rfl
  | cons p blocks ih =>
    have hp : left base = p := h 0 p rfl
    rw [List.length_cons, List.range'_succ, Prog.finish, List.foldl_cons, List.foldl_cons, hp]
    apply ih
    intro j q hq
    rw [Nat.add_assoc, Nat.add_comm 1 j]
    exact h (j + 1) q hq

/-! ### What each action does to the tasks -/

@[simp] theorem setWorker_self (t : Nat) (worker : Worker W) : (s.setWorker t worker).workers t = worker :=
  Function.update_self ..

theorem setWorker_other {t t' : Nat} (worker : Worker W) (h : t' ≠ t) :
    (s.setWorker t worker).workers t' = s.workers t' :=
  Function.update_of_ne h _ _

theorem busy_setWorker {t t' k : Nat} {worker : Worker W} {p : Prog W}
    (h : (s.setWorker t worker).workers t' = .busy k p) :
    (t' = t ∧ worker = .busy k p) ∨ (t' ≠ t ∧ s.workers t' = .busy k p) := by
  by_cases ht : t' = t
  · subst ht
    rw [setWorker_self] at h
    exact .inl ⟨rfl, h⟩
  · rw [setWorker_other worker ht] at h
    exact .inr ⟨ht, h⟩

theorem distinct_setWorker {t : Nat} {worker : Worker W}
    (h : ∀ t₁ t₂ k p₁ p₂, s.workers t₁ = .busy k p₁ → s.workers t₂ = .busy k p₂ → t₁ = t₂)
    (hnew : ∀ k p, worker = .busy k p → ∀ t' q, s.workers t' = .busy k q → t' = t) :
    ∀ t₁ t₂ k p₁ p₂, (s.setWorker t worker).workers t₁ = .busy k p₁ →
      (s.setWorker t worker).workers t₂ = .busy k p₂ → t₁ = t₂ := by
  intro t₁ t₂ k p₁ p₂ h₁ h₂
  rcases busy_setWorker h₁ with ⟨ht₁, heq₁⟩ | ⟨-, hb₁⟩
  · rcases busy_setWorker h₂ with ⟨ht₂, -⟩ | ⟨-, hb₂⟩
    · exact ht₁.trans ht₂.symm
    · exact ht₁.trans (hnew k p₁ heq₁ t₂ p₂ hb₂).symm
  · rcases busy_setWorker h₂ with ⟨ht₂, heq₂⟩ | ⟨-, hb₂⟩
    · exact (hnew k p₂ heq₂ t₁ p₁ hb₁).trans ht₂.symm
    · exact h t₁ t₂ k p₁ p₂ hb₁ hb₂

section actions
variable {base : Nat} {foot : Nat → Set κ} {left : Nat → Prog W}

theorem Inv.submit (h : Inv read s base foot left) {p : Prog W} {rest : List (Prog W)}
    (htodo : s.todo = p :: rest) : Inv read { s with
      todo := rest
      uncounted := true
      promises := s.promises + 1
      mf := s.mf ++ [s.promises]
      tasks := s.tasks ++ [(s.promises, p)] } base foot left where
  disjoint := h.disjoint
  isLocal := h.isLocal
  mf := by
    show s.mf ++ [s.promises] = List.range' base (s.mf ++ [s.promises]).length
    rw [List.length_append, List.length_singleton, List.range'_concat, ← h.mf, h.promises, Nat.one_mul]
  promises := by
    show s.promises + 1 = base + (s.mf ++ [s.promises]).length
    rw [List.length_append, List.length_singleton, h.promises]
    rfl
  todo := by
    intro j q hq
    have hnext : s.todo[j + 1]? = some q := by
      rw [htodo, List.getElem?_cons_succ]
      exact hq
    show left (s.promises + 1 + j) = q
    rw [Nat.add_assoc, Nat.add_comm 1 j]
    exact h.todo (j + 1) q hnext
  queued := by
    intro k q hk
    rcases List.mem_append.mp hk with hk | hk
    · obtain ⟨hleft, hlt, hready⟩ := h.queued k q hk
      exact ⟨hleft, Nat.lt_succ_of_lt hlt, hready⟩
    · obtain ⟨rfl, rfl⟩ := Prod.mk.inj (List.mem_singleton.mp hk)
      refine ⟨h.todo 0 q ?_, Nat.lt_succ_self _, fun hready => ?_⟩
      · rw [htodo]
        rfl
      · exact absurd (h.ready _ hready).2 (lt_irrefl _)
  nodup := by
    have hfresh : s.promises ∉ s.tasks.map Prod.fst := by
      intro hmem
      obtain ⟨⟨k, q⟩, hk, heq⟩ := List.mem_map.mp hmem
      have hlt := (h.queued k q hk).2.1
      simp only at heq
      omega
    show ((s.tasks ++ [(s.promises, p)]).map Prod.fst).Nodup
    rw [List.map_append, List.map_singleton, ← List.concat_eq_append, List.nodup_concat]
    exact ⟨hfresh, h.nodup⟩
  busy := by
    intro t k q hbusy
    obtain ⟨hleft, hlt, hready, htasks⟩ := h.busy t k q hbusy
    refine ⟨hleft, Nat.lt_succ_of_lt hlt, hready, fun q' hmem => ?_⟩
    rcases List.mem_append.mp hmem with hmem | hmem
    · exact htasks q' hmem
    · obtain ⟨rfl, -⟩ := Prod.mk.inj (List.mem_singleton.mp hmem)
      exact absurd hlt (lt_irrefl _)
  distinct := h.distinct
  ready := fun k hk => ⟨(h.ready k hk).1, Nat.lt_succ_of_lt (h.ready k hk).2⟩
  covered := by
    intro k hk
    rcases Nat.lt_succ_iff_lt_or_eq.mp hk with hlt | rfl
    · rcases h.covered k hlt with hready | ⟨q, hq⟩ | hbusy
      · exact .inl hready
      · exact .inr (.inl ⟨q, List.mem_append_left _ hq⟩)
      · exact .inr (.inr hbusy)
    · exact .inr (.inl ⟨p, List.mem_append_right _ (List.mem_singleton.mpr rfl)⟩)
  earlier := h.earlier

theorem Inv.take (h : Inv read s base foot left) {t k : Nat} {p : Prog W} {rest : List (Nat × Prog W)}
    (hidle : s.workers t = .idle) (htasks : s.tasks = (k, p) :: rest) :
    Inv read { s.setWorker t (.busy k p) with tasks := rest } base foot left := by
  have hhead : (k, p) ∈ s.tasks := htasks ▸ List.mem_cons_self
  have htail : ∀ x ∈ rest, x ∈ s.tasks := fun x hx => htasks ▸ List.mem_cons_of_mem _ hx
  have hnodup := h.nodup
  rw [htasks, List.map_cons, List.nodup_cons] at hnodup
  obtain ⟨hleft, hlt, hready⟩ := h.queued k p hhead
  refine ⟨h.disjoint, h.isLocal, h.mf, h.promises, h.todo, fun k' q hq => h.queued k' q (htail _ hq), hnodup.2,
    ?_, ?_, h.ready, ?_, h.earlier⟩
  · intro t' k' q hbusy
    rcases busy_setWorker hbusy with ⟨-, heq⟩ | ⟨-, hbusy⟩
    · obtain ⟨rfl, rfl⟩ := Worker.busy.inj heq
      exact ⟨hleft, hlt, hready, fun q hq => hnodup.1 (List.mem_map.mpr ⟨_, hq, rfl⟩)⟩
    · obtain ⟨hleft', hlt', hready', hqueue⟩ := h.busy t' k' q hbusy
      exact ⟨hleft', hlt', hready', fun q' hq' => hqueue q' (htail _ hq')⟩
  · apply distinct_setWorker h.distinct
    intro k' q heq t' q' hb
    obtain ⟨rfl, -⟩ := Worker.busy.inj heq
    exact absurd hhead ((h.busy t' _ q' hb).2.2.2 p)
  · intro k' hk'
    rcases h.covered k' hk' with hr | ⟨q, hq⟩ | ⟨t', q, hb⟩
    · exact .inl hr
    · rw [htasks] at hq
      rcases List.mem_cons.mp hq with heq | hq
      · obtain ⟨rfl, rfl⟩ := Prod.mk.inj heq
        exact .inr (.inr ⟨t, q, setWorker_self t _⟩)
      · exact .inr (.inl ⟨q, hq⟩)
    · have hne : t' ≠ t := by
        rintro rfl
        rw [hidle] at hb
        cases hb
      exact .inr (.inr ⟨t', q, (setWorker_other _ hne).trans hb⟩)

theorem Inv.work (h : Inv read s base foot left) {t k : Nat} {act : W → W} {next : W → Prog W}
    (hbusy : s.workers t = .busy k (.step act next)) :
    Inv read { s.setWorker t (.busy k (next s.world)) with world := act s.world } base foot
      (Function.update left k (next s.world)) := by
  obtain ⟨hleft, hlt, hready, hqueue⟩ := h.busy t k _ hbusy
  have hother : ∀ k', k' ≠ k → Function.update left k (next s.world) k' = left k' := fun k' hk' =>
    Function.update_of_ne hk' _ _
  refine ⟨h.disjoint, ?_, h.mf, h.promises, ?_, ?_, h.nodup, ?_, ?_, ?_, ?_, h.earlier⟩
  · intro k'
    by_cases hk' : k' = k
    · subst hk'
      rw [Function.update_self]
      have hlocal := h.isLocal k'
      rw [hleft] at hlocal
      cases hlocal with
      | step _ _ hrest => exact hrest s.world
    · rw [hother k' hk']
      exact h.isLocal k'
  · intro j p hp
    show Function.update left k (next s.world) (s.promises + j) = p
    rw [hother _ (by omega)]
    exact h.todo j p hp
  · intro k' p hp
    obtain ⟨hleft', hlt', hready'⟩ := h.queued k' p hp
    have hne : k' ≠ k := by
      rintro rfl
      exact hqueue p hp
    rw [hother k' hne]
    exact ⟨hleft', hlt', hready'⟩
  · intro t' k' p hb
    rcases busy_setWorker hb with ⟨-, heq⟩ | ⟨hne, hb'⟩
    · obtain ⟨rfl, rfl⟩ := Worker.busy.inj heq
      exact ⟨Function.update_self .., hlt, hready, hqueue⟩
    · have hkne : k' ≠ k := by
        rintro rfl
        exact hne (h.distinct t' t k' p _ hb' hbusy)
      rw [hother k' hkne]
      exact h.busy t' k' p hb'
  · apply distinct_setWorker h.distinct
    intro k' q heq t' q' hb
    obtain ⟨rfl, -⟩ := Worker.busy.inj heq
    exact h.distinct t' t _ q' _ hb hbusy
  · intro k' hk'
    have hne : k' ≠ k := by
      rintro rfl
      exact hready hk'
    rw [hother k' hne]
    exact h.ready k' hk'
  · intro k' hk'
    rcases h.covered k' hk' with hr | hq | ⟨t', p, hb⟩
    · exact .inl hr
    · exact .inr (.inl hq)
    · by_cases ht : t' = t
      · subst ht
        rw [hbusy] at hb
        obtain ⟨rfl, -⟩ := Worker.busy.inj hb
        exact .inr (.inr ⟨t', _, setWorker_self t' _⟩)
      · exact .inr (.inr ⟨t', p, (setWorker_other _ ht).trans hb⟩)

theorem outcome_work (hext : ∀ w w', (∀ k, read k w = read k w') → w = w') (h : Inv read s base foot left)
    {t k : Nat} {act : W → W} {next : W → Prog W} (hbusy : s.workers t = .busy k (.step act next)) :
    outcome { s.setWorker t (.busy k (next s.world)) with world := act s.world }
      (Function.update left k (next s.world)) = s.outcome left := by
  obtain ⟨hleft, hlt, hready, -⟩ := h.busy t k _ hbusy
  have hmem : k ∈ s.mf ++ List.range' s.promises s.todo.length := List.mem_append_left _ (h.mem_mf hlt hready)
  exact congrArg (alone s.script)
    (Prog.finish_step hext h.disjoint h.isLocal h.nodup_ids hmem hleft s.world)

theorem Inv.finish (h : Inv read s base foot left) {t k : Nat} (hbusy : s.workers t = .busy k .done) :
    Inv read { s.setWorker t .returning with ready := insert k s.ready } base foot left := by
  obtain ⟨hleft, hlt, hready, hqueue⟩ := h.busy t k _ hbusy
  refine ⟨h.disjoint, h.isLocal, h.mf, h.promises, h.todo, ?_, h.nodup, ?_, ?_, ?_, ?_,
    fun k' hk' => Finset.mem_insert_of_mem (h.earlier k' hk')⟩
  · intro k' p hp
    obtain ⟨hleft', hlt', hready'⟩ := h.queued k' p hp
    refine ⟨hleft', hlt', fun hmem => ?_⟩
    rcases Finset.mem_insert.mp hmem with rfl | hmem
    · exact hqueue p hp
    · exact hready' hmem
  · intro t' k' p hb
    rcases busy_setWorker hb with ⟨-, heq⟩ | ⟨hne, hb'⟩
    · cases heq
    · obtain ⟨hleft', hlt', hready', hqueue'⟩ := h.busy t' k' p hb'
      refine ⟨hleft', hlt', fun hmem => ?_, hqueue'⟩
      rcases Finset.mem_insert.mp hmem with rfl | hmem
      · exact hne (h.distinct t' t k' p _ hb' hbusy)
      · exact hready' hmem
  · apply distinct_setWorker h.distinct
    intro k' q heq
    cases heq
  · intro k' hk'
    rcases Finset.mem_insert.mp hk' with rfl | hk'
    · exact ⟨hleft, hlt⟩
    · exact h.ready k' hk'
  · intro k' hk'
    rcases h.covered k' hk' with hr | hq | ⟨t', p, hb⟩
    · exact .inl (Finset.mem_insert_of_mem hr)
    · exact .inr (.inl hq)
    · by_cases ht : t' = t
      · subst ht
        rw [hbusy] at hb
        obtain ⟨rfl, -⟩ := Worker.busy.inj hb
        exact .inl (Finset.mem_insert_self ..)
      · exact .inr (.inr ⟨t', p, (setWorker_other _ ht).trans hb⟩)

theorem Inv.giveBack (h : Inv read s base foot left) {t : Nat} (hreturning : s.workers t = .returning)
    (total : BitVec 64) : Inv read { s.setWorker t .idle with tasks_total := total } base foot left := by
  have hsame : ∀ t' k p, (s.setWorker t .idle).workers t' = .busy k p ↔ s.workers t' = .busy k p := by
    intro t' k p
    by_cases ht : t' = t
    · subst ht
      rw [setWorker_self, hreturning]
      constructor <;> intro hb <;> cases hb
    · rw [setWorker_other _ ht]
  refine ⟨h.disjoint, h.isLocal, h.mf, h.promises, h.todo, h.queued, h.nodup, ?_, ?_, h.ready, ?_, h.earlier⟩
  · intro t' k p hb
    exact h.busy t' k p ((hsame t' k p).mp hb)
  · intro t₁ t₂ k p₁ p₂ h₁ h₂
    exact h.distinct t₁ t₂ k p₁ p₂ ((hsame t₁ k p₁).mp h₁) ((hsame t₂ k p₂).mp h₂)
  · intro k hk
    rcases h.covered k hk with hr | hq | ⟨t', p, hb⟩
    · exact .inl hr
    · exact .inr (.inl hq)
    · exact .inr (.inr ⟨t', p, (hsame t' k p).mpr hb⟩)

end actions

theorem Inv.restart {base : Nat} {foot : Nat → Set κ} {left : Nat → Prog W} (h : Inv read s base foot left)
    (hwaited : s.Waited) (foot' : Nat → Set κ) (left' : Nat → Prog W)
    (hdisj : ∀ i j, i ≠ j → Disjoint (foot' i) (foot' j)) (hlocal : ∀ k, (left' k).Local read (foot' k))
    (hdone : ∀ k < s.promises, left' k = .done) (script : List (Stage W)) (todo : List (Prog W))
    (htodo : ∀ j p, todo[j]? = some p → left' (s.promises + j) = p) (world : W) :
    Inv read { s with script, todo, mf := [], world } s.promises foot' left' := by
  have hall := h.all_ready hwaited
  refine ⟨hdisj, hlocal, rfl, rfl, htodo, ?_, h.nodup, ?_, h.distinct, ?_, ?_, hall⟩
  · intro k p hp
    obtain ⟨-, hlt, hready⟩ := h.queued k p hp
    exact absurd (hall k hlt) hready
  · intro t k p hb
    obtain ⟨-, hlt, hready, -⟩ := h.busy t k p hb
    exact absurd (hall k hlt) hready
  · intro k hk
    have hlt := (h.ready k hk).2
    exact ⟨hdone k hlt, hlt⟩
  · intro k hk
    exact .inl (hall k hk)

/-- The bodies of a loop's blocks by promise, where `first` is that of the first block. -/
def numbered (first : Nat) (blocks : List (Prog W)) (k : Nat) : Prog W :=
  if k < first then .done else blocks[k - first]?.getD .done

def shifted (first : Nat) (foot : Nat → Set κ) (k : Nat) : Set κ := if k < first then ∅ else foot (k - first)

theorem numbered_add {first : Nat} {blocks : List (Prog W)} (j : Nat) (p : Prog W) (h : blocks[j]? = some p) :
    numbered first blocks (first + j) = p := by
  rw [numbered, if_neg (by omega), Nat.add_sub_cancel_left, h]
  rfl

theorem shifted_disjoint (first : Nat) {foot : Nat → Set κ} (h : ∀ i j, i ≠ j → Disjoint (foot i) (foot j))
    (i j : Nat) (hij : i ≠ j) : Disjoint (shifted first foot i) (shifted first foot j) := by
  unfold shifted
  by_cases hi : i < first
  · rw [if_pos hi]
    exact Set.empty_disjoint _
  · by_cases hj : j < first
    · rw [if_pos hj]
      exact Set.disjoint_empty _
    · rw [if_neg hi, if_neg hj]
      exact h _ _ (by omega)

theorem numbered_isLocal (first : Nat) {blocks : List (Prog W)} {foot : Nat → Set κ}
    (h : ∀ i, (blocks[i]?.getD Prog.done).Local read (foot i)) (k : Nat) :
    (numbered first blocks k).Local read (shifted first foot k) := by
  unfold numbered shifted
  by_cases hk : k < first
  · rw [if_pos hk, if_pos hk]
    exact .done
  · rw [if_neg hk, if_neg hk]
    exact h _

variable {result : W}

theorem accounted_fresh {script : List (Stage W)} {world : W}
    (h : ∀ blocks, .loop blocks ∈ script → Parallel read blocks) :
    Accounted read (alone script world) (fresh script world) := by
  refine ⟨h, 0, fun _ => ∅, fun _ => .done, ?_, rfl⟩
  refine ⟨fun _ _ _ => Set.empty_disjoint _, fun _ => .done, rfl, rfl, ?_, ?_, List.nodup_nil, ?_, ?_, ?_, ?_, ?_⟩
  · intro j p hp
    cases hp
  · intro k p hp
    cases hp
  · intro t k p hb
    cases hb
  · intro t t' k p p' hb
    cases hb
  · intro k hk
    cases hk
  · intro k hk
    exact absurd hk (Nat.not_lt_zero k)
  · intro k hk
    exact absurd hk (Nat.not_lt_zero k)

theorem Accounted.step (hext : ∀ w w', (∀ k, read k w = read k w') → w = w') {e : PoolEvent}
    (h : Accounted read result s) (hstep : s.step thread_count e = some s') : Accounted read result s' := by
  obtain ⟨hscript, base, foot, left, inv, hresult⟩ := h
  rcases step_cases hstep with ⟨p, rest, -, htodo, -, rfl⟩ | ⟨-, -, rfl⟩ | ⟨blocks, rest, -, hwaited, heq, rfl⟩ |
    ⟨act, rest, -, hwaited, heq, rfl⟩ | ⟨t, k, p, rest, -, -, hidle, htasks, rfl⟩ |
    ⟨t, k, act, next, -, -, hbusy, rfl⟩ | ⟨t, k, -, -, hbusy, rfl⟩ | ⟨t, -, -, hreturning, rfl⟩
  · refine ⟨hscript, base, foot, left, inv.submit htodo, ?_⟩
    rw [← hresult, outcome, outcome, htodo, List.length_cons, List.range'_succ, List.append_assoc]
    rfl
  · refine ⟨hscript, base, foot, left, ?_, hresult⟩
    exact ⟨inv.disjoint, inv.isLocal, inv.mf, inv.promises, inv.todo, inv.queued, inv.nodup, inv.busy,
      inv.distinct, inv.ready, inv.covered, inv.earlier⟩
  · obtain ⟨foot', hdisj, hlocal⟩ := hscript blocks (heq ▸ List.mem_cons_self)
    refine ⟨fun b hb => hscript b (heq ▸ List.mem_cons_of_mem _ hb), s.promises, shifted s.promises foot',
      numbered s.promises blocks, ?_, ?_⟩
    · exact inv.restart hwaited _ _ (shifted_disjoint _ hdisj) (numbered_isLocal _ hlocal)
        (fun k hk => if_pos hk) rest blocks numbered_add s.world
    · have hfinish := finish_range' blocks s.promises _ (fun j p => numbered_add j p) s.world
      have halone := inv.outcome_waited hwaited
      rw [hresult, heq] at halone
      rw [halone]
      exact congrArg (alone rest) hfinish
  · refine ⟨fun b hb => hscript b (heq ▸ List.mem_cons_of_mem _ hb), s.promises, fun _ => ∅, fun _ => .done, ?_, ?_⟩
    · apply inv.restart hwaited (fun _ => ∅) (fun _ => .done) (fun _ _ _ => Set.empty_disjoint _) (fun _ => .done)
        (fun _ _ => rfl) rest s.todo
      intro j p hp
      rw [hwaited.1] at hp
      cases hp
    · have halone := inv.outcome_waited hwaited
      rw [hresult, heq] at halone
      rw [halone, outcome, hwaited.1]
      rfl
  · exact ⟨hscript, base, foot, left, inv.take hidle htasks, hresult⟩
  · exact ⟨hscript, base, foot, _, inv.work hbusy, (outcome_work hext inv hbusy).trans hresult⟩
  · exact ⟨hscript, base, foot, left, inv.finish hbusy, hresult⟩
  · exact ⟨hscript, base, foot, left, inv.giveBack hreturning _, hresult⟩

theorem accounted_of_reached {script : List (Stage W)} {world : W}
    (hext : ∀ w w', (∀ k, read k w = read k w') → w = w')
    (hscript : ∀ blocks, .loop blocks ∈ script → Parallel read blocks)
    (h : (poolMachine thread_count script world).Reached s) : Accounted read (alone script world) s := by
  refine h.invariant (P := Accounted read (alone script world)) ?_ ?_
  · rintro s rfl
    exact accounted_fresh hscript
  · intro s e s' inv _ hstep
    exact inv.step hext hstep

def Finished (s : Pool W) : Prop := s.script = [] ∧ s.Waited

instance (s : Pool W) : Decidable s.Finished :=
  haveI : Decidable (s.script = []) := match s.script with
    | [] => .isTrue rfl
    | _ :: _ => .isFalse (by simp)
  inferInstanceAs (Decidable (_ ∧ _))

/-- **The interleaving does not matter.** When the main thread is through, the world is the one that it would
have come to alone. -/
theorem Accounted.finished (h : Accounted read result s) (hfinished : s.Finished) : s.world = result := by
  obtain ⟨-, base, foot, left, inv, hresult⟩ := h
  have halone := inv.outcome_waited hfinished.2
  rw [hresult, hfinished.1] at halone
  exact halone.symm

theorem Accounted.tasks_eq_nil (h : Accounted read result s) (hfinished : s.Finished) : s.tasks = [] := by
  obtain ⟨-, base, foot, left, inv, -⟩ := h
  apply List.eq_nil_iff_forall_not_mem.mpr
  rintro ⟨k, p⟩ hp
  obtain ⟨-, hlt, hready⟩ := inv.queued k p hp
  exact hready (inv.all_ready hfinished.2 k hlt)

/-! ### Progress -/

theorem exists_step_worker {t : Nat} (ht : t < thread_count) (h : s.workers t ≠ .idle) :
    ∃ e s', s.step thread_count e = some s' := by
  cases hw : s.workers t with
  | idle => exact absurd hw h
  | busy k p =>
    cases p with
    | done => exact ⟨.finish t, _, by rw [step, if_pos ht, hw]⟩
    | step act next => exact ⟨.work t, _, by rw [step, if_pos ht, hw]⟩
  | returning => exact ⟨.giveBack t, _, by rw [step, if_pos ht, hw]⟩

/-- **The pool never gets stuck** before the main thread is through: while a future that it waits for is not
ready, the task is queued or a worker has it. -/
theorem Accounted.progress (hthreads : 0 < thread_count) (h : Accounted read result s)
    (hworkers : ∀ t, s.workers t ≠ .idle → t < thread_count) :
    s.Finished ∨ ∃ e s', s.step thread_count e = some s' := by
  obtain ⟨-, base, foot, left, inv, -⟩ := h
  by_cases hidle : ∀ t, s.workers t = .idle
  · cases htasks : s.tasks with
    | cons x rest =>
      exact .inr ⟨.take 0, _, by rw [Pool.step, if_pos hthreads, hidle 0, htasks]⟩
    | nil =>
      by_cases huncounted : s.uncounted = true
      · exact .inr ⟨.count, _, by rw [Pool.step, if_pos huncounted]⟩
      · have hcounted : s.uncounted = false := Bool.not_eq_true _ ▸ huncounted
        cases htodo : s.todo with
        | cons p rest => exact .inr ⟨.submit, _, by rw [Pool.step, htodo, hcounted]⟩
        | nil =>
          have hwaited : s.Waited := by
            refine ⟨htodo, hcounted, fun k hk => ?_⟩
            have hlt : k < s.promises := by
              rw [inv.mf, List.mem_range'_1] at hk
              rw [inv.promises]
              exact hk.2
            rcases inv.covered k hlt with hready | ⟨p, hp⟩ | ⟨t, p, hb⟩
            · exact hready
            · rw [htasks] at hp
              cases hp
            · rw [hidle t] at hb
              cases hb
          cases hscript : s.script with
          | nil => exact .inl ⟨hscript, hwaited⟩
          | cons stage rest =>
            cases stage with
            | loop blocks => exact .inr ⟨.next, _, by rw [Pool.step, if_pos hwaited, hscript]⟩
            | serial act => exact .inr ⟨.next, _, by rw [Pool.step, if_pos hwaited, hscript]⟩
  · obtain ⟨t, ht⟩ := not_forall.mp hidle
    exact .inr (exists_step_worker (hworkers t ht) ht)

/-! ### The count of tasks -/

theorem sum_setWorker {M : Type*} [AddCommMonoid M] {t : Nat} (ht : t < thread_count) (worker : Worker W)
    (f : Worker W → M) :
    ∑ t' ∈ Finset.range thread_count, f ((s.setWorker t worker).workers t') =
      f worker + ∑ t' ∈ (Finset.range thread_count).erase t, f (s.workers t') := by
  rw [← Finset.add_sum_erase _ _ (Finset.mem_range.mpr ht), setWorker_self]
  congr 1
  apply Finset.sum_congr rfl
  intro t' ht'
  rw [setWorker_other _ (Finset.ne_of_mem_erase ht')]

theorem sum_workers {M : Type*} [AddCommMonoid M] {t : Nat} (ht : t < thread_count) (f : Worker W → M) :
    ∑ t' ∈ Finset.range thread_count, f (s.workers t') =
      f (s.workers t) + ∑ t' ∈ (Finset.range thread_count).erase t, f (s.workers t') :=
  (Finset.add_sum_erase _ _ (Finset.mem_range.mpr ht)).symm

def unfinished (thread_count : Nat) (s : Pool W) : Nat :=
  s.tasks.length + ∑ t ∈ Finset.range thread_count, (s.workers t).load

/-- `tasks_total` counts the unfinished tasks, modulo 2^64, but for one that is still to be counted. Only the
pool's own workers ever work. -/
structure Counted (thread_count : Nat) (s : Pool W) : Prop where
  total : s.tasks_total + (if s.uncounted then 1 else 0) = BitVec.ofNat 64 (s.unfinished thread_count)
  workers : ∀ t, s.workers t ≠ .idle → t < thread_count

theorem Counted.setWorker_workers (h : s.Counted thread_count) {t : Nat} (ht : t < thread_count)
    (worker : Worker W) : ∀ t', (s.setWorker t worker).workers t' ≠ .idle → t' < thread_count := by
  intro t' hne
  by_cases heq : t' = t
  · exact heq ▸ ht
  · rw [setWorker_other _ heq] at hne
    exact h.workers t' hne

theorem load_setWorker {t : Nat} (ht : t < thread_count) (worker : Worker W) :
    ∑ t' ∈ Finset.range thread_count, ((s.setWorker t worker).workers t').load + (s.workers t).load =
      ∑ t' ∈ Finset.range thread_count, (s.workers t').load + worker.load := by
  have hafter := sum_setWorker (s := s) ht worker Worker.load
  have hbefore := sum_workers (s := s) ht Worker.load
  omega

theorem ofNat_succ (n : Nat) : BitVec.ofNat 64 (n + 1) = BitVec.ofNat 64 n + 1 := BitVec.ofNat_add n 1

theorem Counted.step {e : PoolEvent} (h : s.Counted thread_count)
    (hstep : s.step thread_count e = some s') : s'.Counted thread_count := by
  have htotal := h.total
  rcases step_cases hstep with ⟨p, rest, -, htodo, hcounted, rfl⟩ | ⟨-, hcount, rfl⟩ |
    ⟨blocks, rest, -, hwaited, heq, rfl⟩ | ⟨act, rest, -, hwaited, heq, rfl⟩ |
    ⟨t, k, p, rest, -, ht, hidle, htasks, rfl⟩ | ⟨t, k, act, next, -, ht, hbusy, rfl⟩ |
    ⟨t, k, -, ht, hbusy, rfl⟩ | ⟨t, -, ht, hreturning, rfl⟩
  · refine ⟨?_, h.workers⟩
    have hunfinished : unfinished thread_count { s with
        todo := rest, uncounted := true, promises := s.promises + 1, mf := s.mf ++ [s.promises]
        tasks := s.tasks ++ [(s.promises, p)] } = s.unfinished thread_count + 1 := by
      unfold unfinished
      rw [List.length_append, List.length_singleton, Nat.add_right_comm]
    rw [hcounted, if_neg Bool.false_ne_true, add_zero] at htotal
    rw [hunfinished, ofNat_succ, ← htotal]
    rfl
  · refine ⟨?_, h.workers⟩
    rw [hcount, if_pos rfl] at htotal
    show s.tasks_total + 1 + 0 = _
    rw [add_zero, htotal]
    rfl
  · exact ⟨htotal, h.workers⟩
  · exact ⟨htotal, h.workers⟩
  · refine ⟨?_, h.setWorker_workers ht _⟩
    have hload := load_setWorker (s := s) ht (.busy k p)
    have hunfinished : unfinished thread_count { s.setWorker t (.busy k p) with tasks := rest } =
        s.unfinished thread_count := by
      unfold unfinished
      rw [hidle] at hload
      rw [htasks, List.length_cons]
      simp only [Worker.load] at hload ⊢
      omega
    rw [hunfinished]
    exact htotal
  · refine ⟨?_, h.setWorker_workers ht _⟩
    have hload := load_setWorker (s := s) ht (.busy k (next s.world))
    rw [hbusy] at hload
    refine htotal.trans (congrArg (BitVec.ofNat 64) ?_)
    exact congrArg (s.tasks.length + ·) (Nat.add_right_cancel hload).symm
  · refine ⟨?_, h.setWorker_workers ht _⟩
    have hload := load_setWorker (s := s) ht .returning
    rw [hbusy] at hload
    refine htotal.trans (congrArg (BitVec.ofNat 64) ?_)
    exact congrArg (s.tasks.length + ·) (Nat.add_right_cancel hload).symm
  · refine ⟨?_, h.setWorker_workers ht _⟩
    have hload := load_setWorker (s := s) ht .idle
    rw [hreturning] at hload
    have hunfinished : s.unfinished thread_count =
        unfinished thread_count { s.setWorker t .idle with tasks_total := s.tasks_total - 1 } + 1 := by
      unfold unfinished
      simp only [Worker.load] at hload ⊢
      show _ = s.tasks.length + _ + 1
      omega
    rw [hunfinished, ofNat_succ] at htotal
    show s.tasks_total - 1 + (if s.uncounted then 1 else 0) = _
    rw [sub_add_eq_add_sub, htotal, add_sub_cancel_right]

theorem counted_of_reached {script : List (Stage W)} {world : W}
    (h : (poolMachine thread_count script world).Reached s) : s.Counted thread_count := by
  refine h.invariant (P := Counted thread_count) ?_ ?_
  · rintro s rfl
    refine ⟨?_, fun t ht => absurd rfl ht⟩
    have hidle : ∑ t ∈ Finset.range thread_count, ((fresh script world).workers t).load = 0 :=
      Finset.sum_eq_zero fun t _ => rfl
    have hnone : unfinished thread_count (fresh script world) = 0 := by
      rw [unfinished, hidle]
      rfl
    rw [hnone]
    rfl
  · intro s e s' inv _ hstep
    exact inv.step hstep

/-- `wait_for_tasks` waits for `tasks_total` to be 0. Unless the last task is still to be counted, that is so when
no task is queued and all workers are idle. -/
theorem Counted.tasks_total_eq_zero (h : s.Counted thread_count) (hcounted : s.uncounted = false)
    (hlt : s.tasks.length + thread_count < 2 ^ 64) :
    s.tasks_total = 0 ↔ s.tasks = [] ∧ ∀ t, s.workers t = .idle := by
  have htotal := h.total
  rw [hcounted, if_neg Bool.false_ne_true, add_zero] at htotal
  have hload : ∀ t ∈ Finset.range thread_count, (s.workers t).load ≤ 1 := by
    intro t _
    cases s.workers t with
    | idle => exact Nat.zero_le 1
    | busy k p => exact le_rfl
    | returning => exact le_rfl
  have hsum := Finset.sum_le_card_nsmul (Finset.range thread_count) (fun t => (s.workers t).load) 1 hload
  rw [Finset.card_range, smul_eq_mul, mul_one] at hsum
  have hbound : s.unfinished thread_count < 2 ^ 64 := (Nat.add_le_add_left hsum _).trans_lt hlt
  have hzero : s.tasks_total = 0 ↔ s.unfinished thread_count = 0 := by
    rw [htotal, ← BitVec.toNat_inj, BitVec.toNat_ofNat, Nat.mod_eq_of_lt hbound]
    rfl
  rw [hzero, unfinished, Nat.add_eq_zero_iff, List.length_eq_zero_iff, Finset.sum_eq_zero_iff]
  refine and_congr_right fun _ => ⟨fun hall t => ?_, fun hall t _ => ?_⟩
  · by_contra hne
    have hzero := hall t (Finset.mem_range.mpr (h.workers t hne))
    cases hw : s.workers t with
    | idle => exact hne hw
    | busy k p => rw [hw] at hzero; cases hzero
    | returning => rw [hw] at hzero; cases hzero
  · rw [hall t]
    rfl

/-! ### Termination -/

def bodies (thread_count : Nat) (s : Pool W) : Multiset (Prog W) :=
  s.todo + (s.tasks.map Prod.snd : Multiset (Prog W)) + ∑ t ∈ Finset.range thread_count, (s.workers t).holds

def chores (thread_count : Nat) (s : Pool W) : Nat :=
  4 * s.todo.length + s.uncounted.toNat + s.tasks.length + s.unfinished thread_count

/-- What an action uses up: a stage of the script, or else a step of a body or a whole one, or else a chore. -/
def Uses (thread_count : Nat) : Pool W → Pool W → Prop :=
  InvImage (Prod.Lex (· < ·) (Prod.Lex (Relation.CutExpand Prog.Next) (· < ·)))
    fun s => (s.script.length, s.bodies thread_count, s.chores thread_count)

theorem wellFounded_uses (thread_count : Nat) : WellFounded (Uses thread_count : Pool W → Pool W → Prop) :=
  InvImage.wf _ (WellFounded.prod_lex Nat.lt_wfRel.wf
    (WellFounded.prod_lex Prog.wellFounded_next.cutExpand Nat.lt_wfRel.wf))

theorem uses_script (h : s'.script.length < s.script.length) : Uses thread_count s' s := Prod.Lex.left _ _ h

theorem uses_body (hscript : s'.script = s.script)
    (h : Relation.CutExpand Prog.Next (s'.bodies thread_count) (s.bodies thread_count)) :
    Uses thread_count s' s := by
  show Prod.Lex _ _ (s'.script.length, _) (s.script.length, _)
  rw [hscript]
  exact Prod.Lex.right _ (Prod.Lex.left _ _ h)

theorem uses_chore (hscript : s'.script = s.script) (hbodies : s'.bodies thread_count = s.bodies thread_count)
    (h : s'.chores thread_count < s.chores thread_count) : Uses thread_count s' s := by
  show Prod.Lex _ _ (s'.script.length, s'.bodies thread_count, _) (s.script.length, s.bodies thread_count, _)
  rw [hscript, hbodies]
  exact Prod.Lex.right _ (Prod.Lex.right _ h)

theorem uses_of_step {e : PoolEvent} (h : s.step thread_count e = some s') : Uses thread_count s' s := by
  rcases step_cases h with ⟨p, rest, -, htodo, hcounted, rfl⟩ | ⟨-, hcount, rfl⟩ |
    ⟨blocks, rest, -, hwaited, heq, rfl⟩ | ⟨act, rest, -, hwaited, heq, rfl⟩ |
    ⟨t, k, p, rest, -, ht, hidle, htasks, rfl⟩ | ⟨t, k, act, next, -, ht, hbusy, rfl⟩ |
    ⟨t, k, -, ht, hbusy, rfl⟩ | ⟨t, -, ht, hreturning, rfl⟩
  · apply uses_chore
    · rfl
    · unfold bodies
      congr 1
      rw [htodo, List.map_append, List.map_singleton, ← Multiset.coe_add, Multiset.coe_singleton,
        ← Multiset.cons_coe p, ← Multiset.singleton_add p]
      ac_rfl
    · unfold chores unfinished
      rw [htodo, hcounted, List.length_append, List.length_singleton, List.length_cons]
      dsimp only [Bool.toNat_true, Bool.toNat_false]
      omega
  · apply uses_chore
    · rfl
    · rfl
    · unfold chores unfinished
      rw [hcount]
      dsimp only [Bool.toNat_true, Bool.toNat_false]
      omega
  · apply uses_script
    rw [heq]
    exact Nat.lt_succ_self _
  · apply uses_script
    rw [heq]
    exact Nat.lt_succ_self _
  · apply uses_chore
    · rfl
    · have hafter := sum_setWorker (s := s) ht (.busy k p) Worker.holds
      have hbefore := sum_workers (s := s) ht Worker.holds
      rw [hidle] at hbefore
      unfold bodies
      rw [hbefore, htasks, List.map_cons, ← Multiset.cons_coe, ← Multiset.singleton_add]
      dsimp only
      rw [hafter]
      simp only [Worker.holds, zero_add]
      ac_rfl
    · have hload := load_setWorker (s := s) ht (.busy k p)
      rw [hidle] at hload
      unfold chores unfinished
      rw [htasks, List.length_cons]
      simp only [Worker.load_idle, Worker.load_busy] at hload
      dsimp only [setWorker] at hload ⊢
      omega
  · apply uses_body
    · rfl
    · have hafter := sum_setWorker (s := s) ht (.busy k (next s.world)) Worker.holds
      have hbefore := sum_workers (s := s) ht Worker.holds
      rw [hbusy] at hbefore
      unfold bodies
      dsimp only
      rw [hbefore, hafter]
      apply (Relation.cutExpand_add_left _).mpr
      apply (Relation.cutExpand_add_right _).mpr
      exact Relation.cutExpand_singleton_singleton ⟨act, next, s.world, rfl, rfl⟩
  · apply uses_body
    · rfl
    · have hafter := sum_setWorker (s := s) ht .returning Worker.holds
      have hbefore := sum_workers (s := s) ht Worker.holds
      rw [hbusy] at hbefore
      unfold bodies
      dsimp only
      rw [hbefore, hafter]
      apply (Relation.cutExpand_add_left _).mpr
      apply (Relation.cutExpand_add_right _).mpr
      exact Relation.cutExpand_singleton fun p hp => absurd hp (Multiset.notMem_zero p)
  · apply uses_chore
    · rfl
    · have hafter := sum_setWorker (s := s) ht .idle Worker.holds
      have hbefore := sum_workers (s := s) ht Worker.holds
      rw [hreturning] at hbefore
      unfold bodies
      dsimp only
      rw [hbefore, hafter]
      rfl
    · have hload := load_setWorker (s := s) ht .idle
      rw [hreturning] at hload
      unfold chores unfinished
      simp only [Worker.load_idle, Worker.load_returning] at hload
      dsimp only [setWorker] at hload ⊢
      omega

/-- **Every run of the pool ends.** -/
theorem wellFounded_step (thread_count : Nat) :
    WellFounded fun s' s : Pool W => ∃ e, s.step thread_count e = some s' :=
  Subrelation.wf (fun ⟨_, h⟩ => uses_of_step h) (wellFounded_uses thread_count)

theorem exists_finished {script : List (Stage W)} {world : W} (hthreads : 0 < thread_count)
    (hext : ∀ w w', (∀ k, read k w = read k w') → w = w')
    (hscript : ∀ blocks, .loop blocks ∈ script → Parallel read blocks) :
    ∃ s, (poolMachine thread_count script world).Reached s ∧ s.Finished := by
  have hall : ∀ s, (poolMachine thread_count script world).Reached s →
      ∃ s', (poolMachine thread_count script world).Reached s' ∧ s'.Finished := by
    intro s
    apply (wellFounded_step thread_count).induction s
    intro s ih hs
    have hacc := accounted_of_reached hext hscript hs
    rcases hacc.progress hthreads (counted_of_reached hs).workers with hfinished | ⟨e, s', hstep⟩
    · exact ⟨s, hs, hfinished⟩
    · exact ih s' ⟨e, hstep⟩ (.next hs trivial hstep)
  exact hall _ (.start rfl)

end Pool

end Quantas.BS
