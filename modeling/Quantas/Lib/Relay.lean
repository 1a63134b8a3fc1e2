import Quantas.Lib.Transition

/-!
# Relayed requests

Parties pass requests on. A party that submits a request or is handed one either is its target, or forwards it to
another party, or drops it. `Journey` is a request with the parties that have had it, in order. The machine hands
requests over in any order; `lose` and `duplicate` are the two faults of the network.

`reached_rule` turns four facts about one party (what it keeps, and what it makes of a request that it submits or
is handed) into facts about every journey of every run. `mem_serials` says that a run without loss keeps every
request. A rank that falls at every hop makes journeys simple.
-/

namespace Lib

inductive Verdict (ι μ : Type*)
  | satisfied (message : μ)
  | forwarded (next : ι) (message : μ)
  | dropped (message : μ)

/-- The parties and what they do; `δ` is what a step may draw or read from its surroundings. -/
structure Relay (ι σ μ δ : Type*) where
  parties : List ι
  start : ι → σ
  tick : ι → σ → δ → σ
  submit : ι → σ → Nat → δ → σ × Verdict ι μ
  handle : ι → σ → μ → δ → σ × Verdict ι μ

/-- A request: its serial number, the parties that have had it, and what it carries. -/
structure Journey (ι μ : Type*) where
  serial : Nat
  visited : List ι
  message : μ
  deriving DecidableEq, Repr

/-- `inFlight` has the party that each request is sent to. -/
structure RelayState (ι σ μ : Type*) where
  party : ι → σ
  issued : Nat := 0
  inFlight : List (ι × Journey ι μ) := []
  satisfied : List (Journey ι μ) := []
  dropped : List (Journey ι μ) := []

inductive RelayEvent (ι δ : Type*)
  | tick (i : ι) (d : δ)
  | submit (i : ι) (d : δ)
  | deliver (k : Nat) (d : δ)
  | lose (k : Nat)
  | duplicate (k : Nat)
  deriving DecidableEq, Repr

def RelayEvent.lossless {ι δ : Type*} : RelayEvent ι δ → Bool
  | .lose _ => false
  | _ => true

namespace RelayState
variable {ι σ μ : Type*} (s : RelayState ι σ μ)

def file (serial : Nat) (visited : List ι) : Verdict ι μ → RelayState ι σ μ
  | .satisfied message => { s with satisfied := s.satisfied ++ [⟨serial, visited, message⟩] }
  | .forwarded next message => { s with inFlight := s.inFlight ++ [(next, ⟨serial, visited, message⟩)] }
  | .dropped message => { s with dropped := s.dropped ++ [⟨serial, visited, message⟩] }

@[simp] theorem file_issued (serial : Nat) (visited : List ι) (v : Verdict ι μ) :
    (s.file serial visited v).issued = s.issued := by
  cases v <;> rfl

/-- The serial numbers of all requests that the network still has or has ended. -/
def serials : List Nat :=
  s.inFlight.map (fun f => f.2.serial) ++ s.satisfied.map Journey.serial ++ s.dropped.map Journey.serial

end RelayState

namespace Relay
variable {ι σ μ δ : Type*} [DecidableEq ι] (R : Relay ι σ μ δ)

def step (s : RelayState ι σ μ) : RelayEvent ι δ → Option (RelayState ι σ μ)
  | .tick i d =>
    if i ∈ R.parties then some { s with party := Function.update s.party i (R.tick i (s.party i) d) } else none
  | .submit i d =>
    if i ∈ R.parties then
      let result := R.submit i (s.party i) s.issued d
      some ({ s with party := Function.update s.party i result.1, issued := s.issued + 1 }.file s.issued [i] result.2)
    else none
  | .deliver k d =>
    match s.inFlight[k]? with
    | none => none
    | some (i, j) =>
      let result := R.handle i (s.party i) j.message d
      some ({ s with party := Function.update s.party i result.1, inFlight := s.inFlight.eraseIdx k }.file
        j.serial (j.visited ++ [i]) result.2)
  | .lose k => if k < s.inFlight.length then some { s with inFlight := s.inFlight.eraseIdx k } else none
  | .duplicate k =>
    match s.inFlight[k]? with
    | none => none
    | some f => some { s with inFlight := s.inFlight ++ [f] }

def machine : Machine (RelayState ι σ μ) (RelayEvent ι δ) where
  initial s := s = { party := R.start }
  step := R.step

abbrev ReachedLossless : RelayState ι σ μ → Prop :=
  R.machine.ReachedUnder fun _ e => e.lossless = true

/-! ## The rule -/

/-- What holds of the parties and, by where it is, of each request. -/
structure Contract (ι σ μ : Type*) where
  party : ι → σ → Prop
  inFlight : List ι → ι → μ → Prop
  satisfied : List ι → μ → Prop
  dropped : List ι → μ → Prop

def Contract.admits (C : Contract ι σ μ) (visited : List ι) : Verdict ι μ → Prop
  | .satisfied message => C.satisfied visited message
  | .forwarded next message => C.inFlight visited next message
  | .dropped message => C.dropped visited message

/-- The parties keep the contract, and so do the requests that they submit and are handed. -/
structure Contract.Kept (C : Contract ι σ μ) : Prop where
  start : ∀ i, C.party i (R.start i)
  tick : ∀ i ∈ R.parties, ∀ p d, C.party i p → C.party i (R.tick i p d)
  submit : ∀ i ∈ R.parties, ∀ p k d, C.party i p →
    C.party i (R.submit i p k d).1 ∧ C.admits [i] (R.submit i p k d).2
  handle : ∀ i p m visited d, C.party i p → C.inFlight visited i m →
    C.party i (R.handle i p m d).1 ∧ C.admits (visited ++ [i]) (R.handle i p m d).2

structure Contract.Holds (C : Contract ι σ μ) (s : RelayState ι σ μ) : Prop where
  party : ∀ i, C.party i (s.party i)
  inFlight : ∀ f ∈ s.inFlight, C.inFlight f.2.visited f.1 f.2.message
  satisfied : ∀ j ∈ s.satisfied, C.satisfied j.visited j.message
  dropped : ∀ j ∈ s.dropped, C.dropped j.visited j.message

variable {R} {C : Contract ι σ μ} {s s' : RelayState ι σ μ}

omit [DecidableEq ι] in
theorem Contract.Holds.file (h : C.Holds s) {serial : Nat} {visited : List ι} {v : Verdict ι μ}
    (hv : C.admits visited v) : C.Holds (s.file serial visited v) := by
  cases v with
  | satisfied message =>
    refine ⟨h.party, h.inFlight, ?_, h.dropped⟩
    intro j hj
    rcases List.mem_append.mp hj with hj | hj
    · exact h.satisfied j hj
    · obtain rfl := List.mem_singleton.mp hj
      exact hv
  | forwarded next message =>
    refine ⟨h.party, ?_, h.satisfied, h.dropped⟩
    intro f hf
    rcases List.mem_append.mp hf with hf | hf
    · exact h.inFlight f hf
    · obtain rfl := List.mem_singleton.mp hf
      exact hv
  | dropped message =>
    refine ⟨h.party, h.inFlight, h.satisfied, ?_⟩
    intro j hj
    rcases List.mem_append.mp hj with hj | hj
    · exact h.dropped j hj
    · obtain rfl := List.mem_singleton.mp hj
      exact hv

theorem Contract.Holds.update (h : C.Holds s) {i : ι} {p : σ} (hp : C.party i p) (issued : Nat) :
    C.Holds { s with party := Function.update s.party i p, issued := issued } := by
  refine ⟨?_, h.inFlight, h.satisfied, h.dropped⟩
  intro j
  by_cases hj : j = i
  · subst hj
    simpa using hp
  · simpa [hj] using h.party j

omit [DecidableEq ι] in
theorem Contract.Holds.erase (h : C.Holds s) (k : Nat) : C.Holds { s with inFlight := s.inFlight.eraseIdx k } :=
  ⟨h.party, fun f hf => h.inFlight f (List.mem_of_mem_eraseIdx hf), h.satisfied, h.dropped⟩

theorem Contract.Holds.step (hkept : C.Kept R) (h : C.Holds s) {e : RelayEvent ι δ}
    (he : R.step s e = some s') : C.Holds s' := by
  cases e with
  | tick i d =>
    simp only [Relay.step] at he
    split_ifs at he with hi
    exact Option.some.inj he ▸ h.update (hkept.tick i hi _ d (h.party i)) s.issued
  | submit i d =>
    simp only [Relay.step] at he
    split_ifs at he with hi
    obtain ⟨hp, hv⟩ := hkept.submit i hi _ s.issued d (h.party i)
    exact Option.some.inj he ▸ (h.update hp (s.issued + 1)).file hv
  | deliver k d =>
    simp only [Relay.step] at he
    rcases hk : s.inFlight[k]? with _ | ⟨i, j⟩
    · simp [hk] at he
    · simp only [hk] at he
      have hj := h.inFlight (i, j) (List.mem_of_getElem? hk)
      obtain ⟨hp, hv⟩ := hkept.handle i _ j.message j.visited d (h.party i) hj
      exact Option.some.inj he ▸ ((h.update hp s.issued).erase k).file hv
  | lose k =>
    simp only [Relay.step] at he
    split_ifs at he
    exact Option.some.inj he ▸ h.erase k
  | duplicate k =>
    simp only [Relay.step] at he
    rcases hk : s.inFlight[k]? with _ | f
    · simp [hk] at he
    · simp only [hk] at he
      obtain rfl := Option.some.inj he
      refine ⟨h.party, ?_, h.satisfied, h.dropped⟩
      intro g hg
      rcases List.mem_append.mp hg with hg | hg
      · exact h.inFlight g hg
      · obtain rfl := List.mem_singleton.mp hg
        exact h.inFlight _ (List.mem_of_getElem? hk)

theorem reached_rule (hkept : C.Kept R) {guard : RelayState ι σ μ → RelayEvent ι δ → Prop}
    (hr : R.machine.ReachedUnder guard s) : C.Holds s := by
  apply Machine.ReachedUnder.invariant (P := C.Holds) _ _ hr
  · rintro s rfl
    exact ⟨hkept.start, by simp, by simp, by simp⟩
  · intro s e s' h _ he
    exact h.step hkept he

/-! ## Lossless runs -/

omit [DecidableEq ι] in
theorem mem_serials_file {serial k : Nat} {visited : List ι} {v : Verdict ι μ} :
    k ∈ (s.file serial visited v).serials ↔ k = serial ∨ k ∈ s.serials := by
  cases v <;> simp only [RelayState.serials, RelayState.file, List.map_append, List.map_cons, List.map_nil,
    List.mem_append, List.mem_singleton] <;> tauto

omit [DecidableEq ι] in
theorem mem_serials_eraseIdx {n k : Nat} {f : ι × Journey ι μ} (hf : s.inFlight[n]? = some f)
    (hk : k ∈ s.serials) : k = f.2.serial ∨ k ∈ { s with inFlight := s.inFlight.eraseIdx n }.serials := by
  obtain ⟨hlt, hget⟩ := List.getElem?_eq_some_iff.mp hf
  have hperm := (List.getElem_cons_eraseIdx_perm hlt).map fun f : ι × Journey ι μ => f.2.serial
  rw [List.map_cons, hget] at hperm
  simp only [RelayState.serials, List.mem_append, ← hperm.mem_iff, List.mem_cons] at hk ⊢
  tauto

/-- **No request gets lost.** In a run without loss every request that was issued is in flight, satisfied or
dropped. -/
theorem mem_serials (hr : R.ReachedLossless s) {k : Nat} (hk : k < s.issued) : k ∈ s.serials := by
  suffices hall : ∀ k < s.issued, k ∈ s.serials from hall k hk
  apply Machine.ReachedUnder.invariant (P := fun s : RelayState ι σ μ => ∀ k < s.issued, k ∈ s.serials)
    _ _ hr
  · rintro s rfl k hk
    exact absurd hk (Nat.not_lt_zero k)
  · intro s e s' h hlossless he k hk
    cases e with
    | tick i d =>
      simp only [machine, Relay.step] at he
      split_ifs at he
      obtain rfl := Option.some.inj he
      exact h k hk
    | submit i d =>
      simp only [machine, Relay.step] at he
      split_ifs at he
      obtain rfl := Option.some.inj he
      rw [RelayState.file_issued] at hk
      rw [mem_serials_file]
      rcases Nat.lt_succ_iff_lt_or_eq.mp hk with hlt | heq
      · exact Or.inr (h k hlt)
      · exact Or.inl heq
    | deliver n d =>
      simp only [machine, Relay.step] at he
      rcases hn : s.inFlight[n]? with _ | ⟨i, j⟩
      · simp [hn] at he
      · simp only [hn] at he
        obtain rfl := Option.some.inj he
        rw [RelayState.file_issued] at hk
        rw [mem_serials_file]
        exact mem_serials_eraseIdx hn (h k hk)
    | lose n => cases hlossless
    | duplicate n =>
      simp only [machine, Relay.step] at he
      rcases hn : s.inFlight[n]? with _ | f
      · simp [hn] at he
      · simp only [hn] at he
        obtain rfl := Option.some.inj he
        have hmem := h k hk
        simp only [RelayState.serials, List.map_append, List.mem_append] at hmem ⊢
        tauto

/-! ## Runs step by step -/

theorem exists_submit (hr : R.machine.Reached s) {i next : ι} (hi : i ∈ R.parties) {d : δ} {p : σ} {m : μ}
    (h : R.submit i (s.party i) s.issued d = (p, .forwarded next m)) :
    ∃ s', R.machine.Reached s' ∧ s'.inFlight = s.inFlight ++ [(next, ⟨s.issued, [i], m⟩)] := by
  have he : R.machine.step s (.submit i d) = some (({ s with
      party := Function.update s.party i p, issued := s.issued + 1 } : RelayState ι σ μ).file s.issued [i]
      (.forwarded next m)) := by
    simp only [machine, Relay.step, if_pos hi, h]
  exact ⟨_, .next hr trivial he, rfl⟩

theorem exists_deliver (hr : R.machine.Reached s) {i next : ι} {j : Journey ι μ} {n : Nat}
    (hn : s.inFlight[n]? = some (i, j)) {d : δ} {p : σ} {m : μ}
    (h : R.handle i (s.party i) j.message d = (p, .forwarded next m)) :
    ∃ s', R.machine.Reached s' ∧
      s'.inFlight = s.inFlight.eraseIdx n ++ [(next, ⟨j.serial, j.visited ++ [i], m⟩)] := by
  have he : R.machine.step s (.deliver n d) = some (({ s with
      party := Function.update s.party i p, inFlight := s.inFlight.eraseIdx n } : RelayState ι σ μ).file j.serial
      (j.visited ++ [i]) (.forwarded next m)) := by
    simp only [machine, Relay.step, hn, h]
  exact ⟨_, .next hr trivial he, rfl⟩

/-! ## Ranks -/

omit [DecidableEq ι] in
theorem nodup_of_rank (rank : ι → Nat) {path : List ι} (h : path.IsChain fun a b => rank b < rank a) :
    path.Nodup := by
  have htrans : path.Pairwise fun a b => rank b < rank a := by
    have : Trans (fun a b : ι => rank b < rank a) (fun a b => rank b < rank a) fun a b => rank b < rank a :=
      ⟨fun hab hbc => lt_trans hbc hab⟩
    exact List.isChain_iff_pairwise.mp h
  apply htrans.imp
  rintro a b hlt rfl
  exact lt_irrefl _ hlt

omit [DecidableEq ι] in
theorem isChain_concat {rel : ι → ι → Prop} {path : List ι} {a b : ι} (h : (path ++ [a]).IsChain rel)
    (hab : rel a b) : (path ++ [a] ++ [b]).IsChain rel := by
  rw [List.append_assoc, List.isChain_append]
  rw [List.isChain_append] at h
  refine ⟨h.1, by simpa using hab, ?_⟩
  intro x hx y hy
  exact h.2.2 x hx y (by simpa using hy)

end Relay

end Lib
