import Quantas.Lib.Relay

/-!
# What the parties of a relay count

A party that satisfies a request may add to a number that it keeps. `Account.Kept.balanced`: the numbers of all parties
together are what the satisfied requests are due, whatever the network does. Without faults no request is lost or
doubled (`count_eq`), and where requests come to a bounded number of parties, deliveries alone end all of them
(`deliveries_le`).
-/

namespace Lib

/-- When one party's number grows by `k`, so does the sum. -/
theorem sum_map_update {ι σ M : Type*} [DecidableEq ι] [AddCommMonoid M] {l : List ι} (hl : l.Nodup) {i : ι}
    (hi : i ∈ l) (held : σ → M) (party : ι → σ) {p : σ} {k : M} (hp : held p = held (party i) + k) :
    (l.map fun j => held (Function.update party i p j)).sum = (l.map fun j => held (party j)).sum + k := by
  induction l with
  | nil => exact absurd hi List.not_mem_nil
  | cons j l ih =>
    obtain ⟨hj, hl⟩ := List.nodup_cons.mp hl
    rw [List.map_cons, List.sum_cons, List.map_cons, List.sum_cons]
    by_cases hij : i = j
    · subst hij
      have hrest : (l.map fun j => held (Function.update party i p j)) = l.map fun j => held (party j) := by
        apply List.map_congr_left
        intro j' hj'
        rw [Function.update_of_ne]
        rintro rfl
        exact hj hj'
      rw [Function.update_self, hrest, hp]
      exact add_right_comm _ _ _
    · rw [ih hl ((List.mem_cons.mp hi).resolve_left hij), Function.update_of_ne (Ne.symm hij)]
      exact (add_assoc _ _ _).symm

/-- A number that a party keeps, and what a request adds to it where it is satisfied. -/
structure Account (σ μ : Type*) where
  held : σ → Nat
  due : μ → Nat

namespace RelayEvent
variable {ι δ : Type*}

/-- The network neither loses nor doubles a request in the step. -/
def faultless : RelayEvent ι δ → Bool
  | .lose _ => false
  | .duplicate _ => false
  | _ => true

/-- The step submits nothing, and the network does what it should. -/
def onward : RelayEvent ι δ → Bool
  | .tick _ _ => true
  | .deliver _ _ => true
  | _ => false

def delivers : RelayEvent ι δ → Bool
  | .deliver _ _ => true
  | _ => false

end RelayEvent

namespace Account
variable {ι σ μ δ : Type*} (A : Account σ μ)

def booked : Verdict ι μ → Nat
  | .satisfied message => A.due message
  | _ => 0

/-- The parties keep their numbers as the account says. -/
structure Kept (R : Relay ι σ μ δ) : Prop where
  start : ∀ i, A.held (R.start i) = 0
  tick : ∀ i p d, A.held (R.tick i p d) = A.held p
  submit : ∀ i p k d, A.held (R.submit i p k d).1 = A.held p + A.booked (R.submit i p k d).2
  handle : ∀ i p m d, A.held (R.handle i p m d).1 = A.held p + A.booked (R.handle i p m d).2

def total (R : Relay ι σ μ δ) (s : RelayState ι σ μ) : Nat := (R.parties.map fun i => A.held (s.party i)).sum

def earned (s : RelayState ι σ μ) : Nat := (s.satisfied.map fun j => A.due j.message).sum

theorem earned_file (s : RelayState ι σ μ) (serial : Nat) (visited : List ι) (v : Verdict ι μ) :
    A.earned (s.file serial visited v) = A.earned s + A.booked v := by
  cases v with
  | satisfied message =>
    unfold earned RelayState.file booked
    rw [List.map_append, List.sum_append, List.map_singleton, List.sum_singleton]
  | forwarded next message => rfl
  | dropped message => rfl

variable [DecidableEq ι]
variable {R : Relay ι σ μ δ} {C : Relay.Contract ι σ μ} {s s' : RelayState ι σ μ}

theorem total_file_update (hnodup : R.parties.Nodup) {i : ι} (hi : i ∈ R.parties) {p : σ} {v : Verdict ι μ}
    (hp : A.held p = A.held (s.party i) + A.booked v) (t : RelayState ι σ μ)
    (ht : t.party = Function.update s.party i p) (serial : Nat) (visited : List ι) :
    A.total R (t.file serial visited v) = A.total R s + A.booked v := by
  have hparty : (t.file serial visited v).party = Function.update s.party i p := by
    cases v <;> exact ht
  unfold total
  rw [hparty]
  exact sum_map_update hnodup hi A.held s.party hp

variable {A} in
/-- **The books balance.** -/
theorem Kept.balanced (hkept : A.Kept R) (hC : C.Kept R)
    (hmember : ∀ visited i m, C.inFlight visited i m → i ∈ R.parties)
    (hnodup : R.parties.Nodup) {guard : RelayState ι σ μ → RelayEvent ι δ → Prop}
    (hr : R.machine.ReachedUnder guard s) : A.total R s = A.earned s := by
  suffices h : C.Holds s ∧ A.total R s = A.earned s from h.2
  refine hr.invariant (P := fun s => C.Holds s ∧ A.total R s = A.earned s) ?_ ?_
  · intro s hs
    obtain rfl : s = { party := R.start } := hs
    refine ⟨⟨hC.start, by simp, by simp, by simp⟩, ?_⟩
    have hzero : R.parties.map (fun i => A.held (R.start i)) = R.parties.map fun _ => 0 :=
      List.map_congr_left fun i _ => hkept.start i
    unfold total earned
    rw [hzero, List.map_nil, List.sum_nil]
    simp
  · intro s e s' h _ he
    obtain ⟨hholds, hbalance⟩ := h
    refine ⟨hholds.step hC he, ?_⟩
    cases e with
    | tick i d =>
      simp only [Relay.machine, Relay.step] at he
      split_ifs at he with hi
      obtain rfl := Option.some.inj he
      have hsum := sum_map_update hnodup hi A.held s.party ((hkept.tick i _ d).trans (Nat.add_zero _).symm)
      exact (hsum.trans (Nat.add_zero _)).trans hbalance
    | submit i d =>
      simp only [Relay.machine, Relay.step] at he
      split_ifs at he with hi
      obtain rfl := Option.some.inj he
      rw [A.total_file_update hnodup hi (hkept.submit i (s.party i) s.issued d) _ rfl, earned_file, hbalance]
      rfl
    | deliver k d =>
      simp only [Relay.machine, Relay.step] at he
      rcases hk : s.inFlight[k]? with _ | ⟨i, j⟩
      · simp [hk] at he
      · simp only [hk] at he
        obtain rfl := Option.some.inj he
        have hi := hmember _ _ _ (hholds.inFlight (i, j) (List.mem_of_getElem? hk))
        rw [A.total_file_update hnodup hi (hkept.handle i (s.party i) j.message d) _ rfl, earned_file, hbalance]
        rfl
    | lose k =>
      simp only [Relay.machine, Relay.step] at he
      split_ifs at he
      exact Option.some.inj he ▸ hbalance
    | duplicate k =>
      simp only [Relay.machine, Relay.step] at he
      rcases hk : s.inFlight[k]? with _ | f
      · simp [hk] at he
      · simp only [hk] at he
        exact Option.some.inj he ▸ hbalance

end Account

namespace Relay
variable {ι σ μ δ : Type*} [DecidableEq ι] {R : Relay ι σ μ δ} {C : Contract ι σ μ} {s s' : RelayState ι σ μ}

omit [DecidableEq ι] in
theorem length_file (serial : Nat) (visited : List ι) (v : Verdict ι μ) :
    (s.file serial visited v).inFlight.length + (s.file serial visited v).satisfied.length +
        (s.file serial visited v).dropped.length =
      s.inFlight.length + s.satisfied.length + s.dropped.length + 1 := by
  cases v <;> simp only [RelayState.file, List.length_append, List.length_singleton] <;> omega

def count (s : RelayState ι σ μ) : Nat := s.inFlight.length + s.satisfied.length + s.dropped.length

theorem count_step {e : RelayEvent ι δ} (hfaultless : e.faultless = true) (he : R.step s e = some s') :
    count s' + s.issued = count s + s'.issued := by
  unfold count
  cases e with
  | tick i d =>
    simp only [Relay.step] at he
    split_ifs at he
    exact Option.some.inj he ▸ rfl
  | submit i d =>
    simp only [Relay.step] at he
    split_ifs at he
    obtain rfl := Option.some.inj he
    rw [length_file, RelayState.file_issued]
    dsimp only
    omega
  | deliver k d =>
    simp only [Relay.step] at he
    rcases hk : s.inFlight[k]? with _ | ⟨i, j⟩
    · simp [hk] at he
    · simp only [hk] at he
      obtain rfl := Option.some.inj he
      have hlength := List.length_eraseIdx_add_one (List.getElem?_eq_some_iff.mp hk).1
      rw [length_file, RelayState.file_issued]
      dsimp only
      omega
  | lose k => cases hfaultless
  | duplicate k => cases hfaultless

/-- **Every request is in one place.** Without loss and duplication there are as many requests as were issued. -/
theorem count_eq (hr : R.machine.ReachedUnder (fun _ e => e.faultless = true) s) : count s = s.issued := by
  refine hr.invariant (P := fun s : RelayState ι σ μ => count s = s.issued) ?_ ?_
  · intro s hs
    obtain rfl : s = { party := R.start } := hs
    rfl
  · intro s e s' h hfaultless he
    have hstep := count_step hfaultless he
    omega

/-! ## Deliveries come to an end -/

/-- How many parties the requests in flight may still come to, where a request comes to at most `B` before the
last. -/
def load (B : Nat) (s : RelayState ι σ μ) : Nat := (s.inFlight.map fun f => B + 1 - f.2.visited.length).sum

omit [DecidableEq ι] in
theorem load_file (B : Nat) (serial : Nat) (visited : List ι) (v : Verdict ι μ) :
    load B (s.file serial visited v) ≤ load B s + (B + 1 - visited.length) := by
  cases v with
  | forwarded next message =>
    unfold load RelayState.file
    rw [List.map_append, List.sum_append, List.map_singleton, List.sum_singleton]
  | satisfied message => exact Nat.le_add_right _ _
  | dropped message => exact Nat.le_add_right _ _

theorem visited_ne_nil {guard : RelayState ι σ μ → RelayEvent ι δ → Prop} (hr : R.machine.ReachedUnder guard s) :
    ∀ f ∈ s.inFlight, f.2.visited ≠ [] := by
  let C : Contract ι σ μ :=
    { party := fun _ _ => True
      inFlight := fun visited _ _ => visited ≠ []
      satisfied := fun _ _ => True
      dropped := fun _ _ => True }
  have hadmits : ∀ (visited : List ι) i v, C.admits (visited ++ [i]) v := by
    intro visited i v
    cases v with
    | forwarded next message => exact List.append_ne_nil_of_right_ne_nil visited (List.cons_ne_nil i [])
    | satisfied message => trivial
    | dropped message => trivial
  have hkept : C.Kept R :=
    ⟨fun _ => trivial, fun _ _ _ _ _ => trivial, fun i _ _ _ _ _ => ⟨trivial, hadmits [] i _⟩,
      fun i _ _ visited _ _ _ => ⟨trivial, hadmits visited i _⟩⟩
  exact (reached_rule hkept hr).inFlight

theorem load_le (B : Nat) {guard : RelayState ι σ μ → RelayEvent ι δ → Prop} (hr : R.machine.ReachedUnder guard s) :
    load B s ≤ s.inFlight.length * B := by
  have hsum : (s.inFlight.map fun f => B + 1 - f.2.visited.length).sum ≤
      (s.inFlight.map fun f => B + 1 - f.2.visited.length).length • B := by
    apply List.sum_le_card_nsmul
    intro x hx
    obtain ⟨f, hf, rfl⟩ := List.mem_map.mp hx
    have hpos := List.length_pos_of_ne_nil (visited_ne_nil hr f hf)
    omega
  rw [List.length_map, smul_eq_mul] at hsum
  exact hsum

theorem load_deliver {B : Nat} (hbound : ∀ visited i m, C.inFlight visited i m → visited.length ≤ B) (h : C.Holds s)
    {k : Nat} {d : δ} (he : R.step s (.deliver k d) = some s') : load B s' + 1 ≤ load B s := by
  simp only [Relay.step] at he
  rcases hk : s.inFlight[k]? with _ | ⟨i, j⟩
  · simp [hk] at he
  · simp only [hk] at he
    obtain rfl := Option.some.inj he
    obtain ⟨hlt, hget⟩ := List.getElem?_eq_some_iff.mp hk
    have hlength : j.visited.length ≤ B := hbound _ _ _ (h.inFlight (i, j) (List.mem_of_getElem? hk))
    have hperm := (List.getElem_cons_eraseIdx_perm hlt).map fun f : ι × Journey ι μ => B + 1 - f.2.visited.length
    have hsum := hperm.sum_eq
    rw [List.map_cons, hget, List.sum_cons] at hsum
    have hfile := load_file (s := { s with
      party := Function.update s.party i (R.handle i (s.party i) j.message d).1
      inFlight := s.inFlight.eraseIdx k }) B j.serial (j.visited ++ [i]) (R.handle i (s.party i) j.message d).2
    rw [List.length_append, List.length_singleton] at hfile
    unfold load at hfile ⊢
    dsimp only at hsum hfile ⊢
    omega

theorem Contract.Holds.run (hkept : C.Kept R) (h : C.Holds s) {es : List (RelayEvent ι δ)}
    (hrun : R.machine.run s es = some s') : C.Holds s' := by
  induction es generalizing s with
  | nil => exact Option.some.inj hrun ▸ h
  | cons e es ih =>
    obtain ⟨mid, hmid, hrest⟩ := Option.bind_eq_some_iff.mp hrun
    exact ih (h.step hkept hmid) hrest

/-- **Deliveries come to an end**: a run that submits nothing makes no more of them than the load. -/
theorem deliveries_le {B : Nat} (hkept : C.Kept R) (hbound : ∀ visited i m, C.inFlight visited i m → visited.length ≤ B)
    (h : C.Holds s) {es : List (RelayEvent ι δ)} (honward : ∀ e ∈ es, e.onward = true)
    (hrun : R.machine.run s es = some s') : es.countP RelayEvent.delivers + load B s' ≤ load B s := by
  induction es generalizing s with
  | nil =>
    obtain rfl := Option.some.inj hrun
    rw [List.countP_nil, Nat.zero_add]
  | cons e es ih =>
    obtain ⟨mid, hmid, hrest⟩ := Option.bind_eq_some_iff.mp hrun
    have hle := ih (h.step hkept hmid) (fun e' he' => honward e' (List.mem_cons_of_mem e he')) hrest
    have honward := honward e List.mem_cons_self
    cases e with
    | tick i d =>
      have hsame : load B mid = load B s := by
        simp only [machine, Relay.step] at hmid
        split_ifs at hmid
        exact Option.some.inj hmid ▸ rfl
      rw [List.countP_cons_of_neg (by simp [RelayEvent.delivers]), ← hsame]
      exact hle
    | deliver k d =>
      have hdeliver := load_deliver hbound h hmid
      rw [List.countP_cons_of_pos rfl]
      omega
    | submit i d => cases honward
    | lose k => cases honward
    | duplicate k => cases honward

theorem count_run {es : List (RelayEvent ι δ)} (honward : ∀ e ∈ es, e.onward = true)
    (hrun : R.machine.run s es = some s') : count s' = count s := by
  induction es generalizing s with
  | nil => exact Option.some.inj hrun ▸ rfl
  | cons e es ih =>
    obtain ⟨mid, hmid, hrest⟩ := Option.bind_eq_some_iff.mp hrun
    have hsame := ih (fun e' he' => honward e' (List.mem_cons_of_mem e he')) hrest
    have honward := honward e List.mem_cons_self
    have hfaultless : e.faultless = true := by
      cases e <;> first | rfl | cases honward
    have hissued : mid.issued = s.issued := by
      cases e with
      | tick i d =>
        simp only [machine, Relay.step] at hmid
        split_ifs at hmid
        exact Option.some.inj hmid ▸ rfl
      | deliver k d =>
        simp only [machine, Relay.step] at hmid
        rcases hk : s.inFlight[k]? with _ | ⟨i, j⟩
        · simp [hk] at hmid
        · simp only [hk] at hmid
          rw [← Option.some.inj hmid, RelayState.file_issued]
      | submit i d => cases honward
      | lose k => cases honward
      | duplicate k => cases honward
    have hstep := count_step hfaultless hmid
    omega

theorem exists_drained {B : Nat} (hkept : C.Kept R) (hbound : ∀ visited i m, C.inFlight visited i m → visited.length ≤ B)
    (d : δ) (h : C.Holds s) : ∃ es s', (∀ e ∈ es, e.onward = true) ∧ R.machine.run s es = some s' ∧ s'.inFlight = [] := by
  induction hload : load B s using Nat.strong_induction_on generalizing s with
  | h n ih =>
    subst hload
    cases hflight : s.inFlight with
    | nil => exact ⟨[], s, fun _ he => absurd he List.not_mem_nil, rfl, hflight⟩
    | cons f rest =>
      obtain ⟨mid, hmid⟩ : ∃ mid, R.step s (.deliver 0 d) = some mid := by
        simp only [Relay.step, hflight, List.getElem?_cons_zero]
        exact ⟨_, rfl⟩
      obtain ⟨es, s', honward, hrun, hnil⟩ := ih _ (load_deliver hbound h hmid) (h.step hkept hmid) rfl
      refine ⟨.deliver 0 d :: es, s', ?_, ?_, hnil⟩
      · intro e he
        rcases List.mem_cons.mp he with rfl | he
        · rfl
        · exact honward e he
      · exact Option.bind_eq_some_iff.mpr ⟨mid, hmid, hrun⟩

end Relay

end Lib
