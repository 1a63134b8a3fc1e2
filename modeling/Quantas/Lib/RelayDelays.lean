import Quantas.Lib.RelayAccounts

/-!
# The delays of a relay

A party that satisfies a request may add to a sum that it keeps the time since the request was made. `ofRun` reads
these delays off a run. `Kept.balanced`: the sums of all parties together are the sum of the delays, whatever the
network does. `Kept.within`: where the times of the steps never fall, no delay is negative or longer than the run.
-/

namespace Lib

/-- There is none of an empty list. -/
def mean (xs : List Int) : Option ℚ := if 0 < xs.length then some (xs.sum / xs.length) else none

theorem mean_mem {xs : List Int} {last : Int} (hx : ∀ x ∈ xs, 0 ≤ x ∧ x ≤ last) :
    ∀ average ∈ mean xs, 0 ≤ average ∧ average ≤ last := by
  intro average haverage
  unfold mean at haverage
  split_ifs at haverage with hpos
  · obtain rfl := Option.some.inj haverage
    have hpos' : (0 : ℚ) < xs.length := Nat.cast_pos.mpr hpos
    have hsum : xs.sum ≤ xs.length • last := List.sum_le_card_nsmul xs last fun x h => (hx x h).2
    have hnonneg : 0 ≤ xs.sum := List.sum_nonneg fun x h => (hx x h).1
    rw [nsmul_eq_mul] at hsum
    refine ⟨div_nonneg (Int.cast_nonneg hnonneg) hpos'.le, ?_⟩
    rw [div_le_iff₀ hpos', mul_comm]
    exact_mod_cast hsum
  · cases haverage

/-- A sum that a party keeps, the time of a step, and the time at which a request was made. -/
structure Delays (σ μ δ : Type*) where
  held : σ → Int
  now : δ → Int
  made : μ → Int

def RelayEvent.draw {ι δ : Type*} : RelayEvent ι δ → Option δ
  | .tick _ d => some d
  | .submit _ d => some d
  | .deliver _ d => some d
  | .lose _ => none
  | .duplicate _ => none

namespace Delays
variable {ι σ μ δ : Type*} (D : Delays σ μ δ)

def clock (es : List (RelayEvent ι δ)) : List Int := es.filterMap fun e => e.draw.map D.now

def ofVerdict (d : δ) : Verdict ι μ → List Int
  | .satisfied message => [D.now d - D.made message]
  | _ => []

/-- A request that is not dropped was made at `t`. -/
def MadeAt (t : Int) : Verdict ι μ → Prop
  | .satisfied message => D.made message = t
  | .forwarded _ message => D.made message = t
  | .dropped _ => True

/-- The parties keep their sums as the delays say, and no party changes the time at which a request was made. -/
structure Kept (R : Relay ι σ μ δ) : Prop where
  start : ∀ i, D.held (R.start i) = 0
  tick : ∀ i p d, D.held (R.tick i p d) = D.held p
  submit : ∀ i p k d, D.held (R.submit i p k d).1 = D.held p + (D.ofVerdict d (R.submit i p k d).2).sum ∧
    D.MadeAt (D.now d) (R.submit i p k d).2
  handle : ∀ i p m d, D.held (R.handle i p m d).1 = D.held p + (D.ofVerdict d (R.handle i p m d).2).sum ∧
    D.MadeAt (D.made m) (R.handle i p m d).2

def total (R : Relay ι σ μ δ) (s : RelayState ι σ μ) : Int := (R.parties.map fun i => D.held (s.party i)).sum

def ofStep (R : Relay ι σ μ δ) (s : RelayState ι σ μ) : RelayEvent ι δ → List Int
  | .submit i d => D.ofVerdict d (R.submit i (s.party i) s.issued d).2
  | .deliver k d =>
    match s.inFlight[k]? with
    | none => []
    | some (i, j) => D.ofVerdict d (R.handle i (s.party i) j.message d).2
  | _ => []

variable [DecidableEq ι]

/-- The delays of the requests that a run satisfies, in their order. -/
def ofRun (R : Relay ι σ μ δ) : RelayState ι σ μ → List (RelayEvent ι δ) → List Int
  | _, [] => []
  | s, e :: es => D.ofStep R s e ++ (R.step s e).elim [] fun s' => ofRun R s' es

variable {D} {R : Relay ι σ μ δ} {C : Relay.Contract ι σ μ} {s s' : RelayState ι σ μ}

theorem ofRun_cons {e : RelayEvent ι δ} (he : R.step s e = some s') (es : List (RelayEvent ι δ)) :
    D.ofRun R s (e :: es) = D.ofStep R s e ++ D.ofRun R s' es := by
  show _ ++ (R.step s e).elim _ _ = _
  rw [he]
  rfl

omit [DecidableEq ι] in
theorem ofStep_deliver {k : Nat} {i : ι} {j : Journey ι μ} (hk : s.inFlight[k]? = some (i, j)) (d : δ) :
    D.ofStep R s (.deliver k d) = D.ofVerdict d (R.handle i (s.party i) j.message d).2 := by
  unfold ofStep
  simp only [hk]

/-! ## The sums -/

theorem total_file_update (hnodup : R.parties.Nodup) {i : ι} (hi : i ∈ R.parties) {p : σ} {d : δ} {v : Verdict ι μ}
    (hp : D.held p = D.held (s.party i) + (D.ofVerdict d v).sum) (t : RelayState ι σ μ)
    (ht : t.party = Function.update s.party i p) (serial : Nat) (visited : List ι) :
    D.total R (t.file serial visited v) = D.total R s + (D.ofVerdict d v).sum := by
  have hparty : (t.file serial visited v).party = Function.update s.party i p := by
    cases v <;> exact ht
  unfold total
  rw [hparty]
  exact sum_map_update hnodup hi D.held s.party hp

omit [DecidableEq ι] in
theorem length_satisfied_file (d : δ) (serial : Nat) (visited : List ι) (v : Verdict ι μ) :
    (s.file serial visited v).satisfied.length = s.satisfied.length + (D.ofVerdict d v).length := by
  cases v with
  | satisfied message => exact List.length_append
  | forwarded next message => rfl
  | dropped message => rfl

/-- One step adds to the sums the delay of the request that it satisfies. -/
theorem Kept.step (hkept : D.Kept R) (hnodup : R.parties.Nodup)
    (hmember : ∀ f ∈ s.inFlight, f.1 ∈ R.parties) {e : RelayEvent ι δ} (he : R.step s e = some s') :
    D.total R s' = D.total R s + (D.ofStep R s e).sum ∧
      s'.satisfied.length = s.satisfied.length + (D.ofStep R s e).length := by
  cases e with
  | tick i d =>
    simp only [Relay.step] at he
    split_ifs at he with hi
    obtain rfl := Option.some.inj he
    refine ⟨?_, rfl⟩
    exact sum_map_update hnodup hi D.held s.party ((hkept.tick i _ d).trans (add_zero _).symm)
  | submit i d =>
    simp only [Relay.step] at he
    split_ifs at he with hi
    obtain rfl := Option.some.inj he
    exact ⟨total_file_update hnodup hi (hkept.submit i (s.party i) s.issued d).1 _ rfl _ _,
      length_satisfied_file d _ _ _⟩
  | deliver k d =>
    simp only [Relay.step] at he
    rcases hk : s.inFlight[k]? with _ | ⟨i, j⟩
    · simp [hk] at he
    · simp only [hk] at he
      obtain rfl := Option.some.inj he
      have hi := hmember (i, j) (List.mem_of_getElem? hk)
      rw [ofStep_deliver hk]
      exact ⟨total_file_update hnodup hi (hkept.handle i (s.party i) j.message d).1 _ rfl _ _,
        length_satisfied_file d _ _ _⟩
  | lose k =>
    simp only [Relay.step] at he
    split_ifs at he
    obtain rfl := Option.some.inj he
    exact ⟨(add_zero _).symm, rfl⟩
  | duplicate k =>
    simp only [Relay.step] at he
    rcases hk : s.inFlight[k]? with _ | f
    · simp [hk] at he
    · simp only [hk] at he
      obtain rfl := Option.some.inj he
      exact ⟨(add_zero _).symm, rfl⟩

theorem Kept.run (hkept : D.Kept R) (hC : C.Kept R) (hnodup : R.parties.Nodup)
    (hmember : ∀ visited i m, C.inFlight visited i m → i ∈ R.parties) (h : C.Holds s)
    {es : List (RelayEvent ι δ)} (hrun : R.machine.run s es = some s') :
    D.total R s' = D.total R s + (D.ofRun R s es).sum ∧
      s'.satisfied.length = s.satisfied.length + (D.ofRun R s es).length := by
  induction es generalizing s with
  | nil =>
    obtain rfl := Option.some.inj hrun
    exact ⟨(add_zero _).symm, rfl⟩
  | cons e es ih =>
    obtain ⟨mid, hmid, hrest⟩ := Option.bind_eq_some_iff.mp hrun
    have hstep : R.step s e = some mid := hmid
    obtain ⟨htotal, hlength⟩ := hkept.step hnodup (fun f hf => hmember _ _ _ (h.inFlight f hf)) hstep
    obtain ⟨htotal', hlength'⟩ := ih (h.step hC hmid) hrest
    rw [ofRun_cons hstep, List.sum_append, List.length_append]
    omega

/-- **The sums balance.** -/
theorem Kept.balanced (hkept : D.Kept R) (hC : C.Kept R) (hnodup : R.parties.Nodup)
    (hmember : ∀ visited i m, C.inFlight visited i m → i ∈ R.parties) {es : List (RelayEvent ι δ)}
    (hrun : R.machine.run { party := R.start } es = some s) :
    D.total R s = (D.ofRun R { party := R.start } es).sum ∧
      s.satisfied.length = (D.ofRun R { party := R.start } es).length := by
  have hholds : C.Holds { party := R.start } := ⟨hC.start, by simp, by simp, by simp⟩
  obtain ⟨htotal, hlength⟩ := hkept.run hC hnodup hmember hholds hrun
  have hzero : D.total R { party := R.start } = 0 := by
    unfold total
    rw [List.map_congr_left fun i _ => hkept.start i, List.map_const', List.sum_replicate, smul_zero]
  exact ⟨by omega, hlength.trans (Nat.zero_add _)⟩

/-! ## The times -/

omit [DecidableEq ι] in
theorem MadeAt.file {t : Int} {serial : Nat} {visited : List ι} {v : Verdict ι μ} (h : D.MadeAt t v) :
    ∀ f ∈ (s.file serial visited v).inFlight, f ∈ s.inFlight ∨ D.made f.2.message = t := by
  intro f hf
  cases v with
  | satisfied message => exact .inl hf
  | forwarded next message =>
    rcases List.mem_append.mp hf with hf | hf
    · exact .inl hf
    · obtain rfl := List.mem_singleton.mp hf
      exact .inr h
  | dropped message => exact .inl hf

/-- A request in flight after a step was in flight before it, or is made by it. -/
theorem Kept.inFlight (hkept : D.Kept R) {e : RelayEvent ι δ} (he : R.step s e = some s') :
    ∀ f ∈ s'.inFlight, (∃ f' ∈ s.inFlight, D.made f.2.message = D.made f'.2.message) ∨
      ∃ d ∈ e.draw, D.made f.2.message = D.now d := by
  intro f hf
  cases e with
  | tick i d =>
    simp only [Relay.step] at he
    split_ifs at he
    obtain rfl := Option.some.inj he
    exact .inl ⟨f, hf, rfl⟩
  | submit i d =>
    simp only [Relay.step] at he
    split_ifs at he
    obtain rfl := Option.some.inj he
    rcases (hkept.submit i (s.party i) s.issued d).2.file f hf with hf | hmade
    · exact .inl ⟨f, hf, rfl⟩
    · exact .inr ⟨d, rfl, hmade⟩
  | deliver k d =>
    simp only [Relay.step] at he
    rcases hk : s.inFlight[k]? with _ | ⟨i, j⟩
    · simp [hk] at he
    · simp only [hk] at he
      obtain rfl := Option.some.inj he
      rcases (hkept.handle i (s.party i) j.message d).2.file f hf with hf | hmade
      · exact .inl ⟨f, List.mem_of_mem_eraseIdx hf, rfl⟩
      · exact .inl ⟨(i, j), List.mem_of_getElem? hk, hmade⟩
  | lose k =>
    simp only [Relay.step] at he
    split_ifs at he
    obtain rfl := Option.some.inj he
    exact .inl ⟨f, List.mem_of_mem_eraseIdx hf, rfl⟩
  | duplicate k =>
    simp only [Relay.step] at he
    rcases hk : s.inFlight[k]? with _ | f'
    · simp [hk] at he
    · simp only [hk] at he
      obtain rfl := Option.some.inj he
      rcases List.mem_append.mp hf with hf | hf
      · exact .inl ⟨f, hf, rfl⟩
      · exact .inl ⟨f', List.mem_of_getElem? hk, congrArg (fun f => D.made f.2.message) (List.mem_singleton.mp hf)⟩

omit [DecidableEq ι] in
theorem MadeAt.delay {t : Int} {d : δ} {v : Verdict ι μ} (h : D.MadeAt t v) :
    ∀ x ∈ D.ofVerdict d v, x = D.now d - t := by
  intro x hx
  cases v with
  | satisfied message =>
    have hmade : D.made message = t := h
    rw [List.mem_singleton.mp hx, hmade]
  | forwarded next message => cases hx
  | dropped message => cases hx

omit [DecidableEq ι] in
theorem Kept.delay (hkept : D.Kept R) {e : RelayEvent ι δ} :
    ∀ x ∈ D.ofStep R s e, x = 0 ∨ ∃ f ∈ s.inFlight, ∃ d ∈ e.draw, x = D.now d - D.made f.2.message := by
  intro x hx
  cases e with
  | tick i d => cases hx
  | submit i d =>
    have hdelay := (hkept.submit i (s.party i) s.issued d).2.delay x hx
    exact .inl (hdelay.trans (sub_self _))
  | deliver k d =>
    rcases hk : s.inFlight[k]? with _ | ⟨i, j⟩
    · simp [ofStep, hk] at hx
    · rw [ofStep_deliver hk] at hx
      exact .inr ⟨(i, j), List.mem_of_getElem? hk, d, rfl,
        (hkept.handle i (s.party i) j.message d).2.delay x hx⟩
  | lose k => cases hx
  | duplicate k => cases hx

/-- **Delays lie within the run**, if no step is earlier than the one before. -/
theorem Kept.within (hkept : D.Kept R) {es : List (RelayEvent ι δ)} {last : Int}
    (hmade : ∀ f ∈ s.inFlight, 0 ≤ D.made f.2.message ∧ ∀ t ∈ D.clock es, D.made f.2.message ≤ t)
    (hsorted : (D.clock es).Pairwise (· ≤ ·)) (hclock : ∀ t ∈ D.clock es, 0 ≤ t ∧ t ≤ last) (hlast : 0 ≤ last) :
    ∀ x ∈ D.ofRun R s es, 0 ≤ x ∧ x ≤ last := by
  induction es generalizing s with
  | nil => exact fun x hx => absurd hx List.not_mem_nil
  | cons e es ih =>
    have hcons : D.clock (e :: es) = (e.draw.map D.now).toList ++ D.clock es := by
      unfold clock
      rw [List.filterMap_cons]
      cases e.draw <;> rfl
    have hnow : ∀ d ∈ e.draw, D.now d ∈ D.clock (e :: es) := by
      intro d hd
      rw [hcons, Option.mem_def.mp hd]
      exact List.mem_cons_self
    have hlater : ∀ t ∈ D.clock es, t ∈ D.clock (e :: es) := by
      intro t ht
      rw [hcons]
      exact List.mem_append_right _ ht
    have horder : ∀ d ∈ e.draw, ∀ t ∈ D.clock es, D.now d ≤ t := by
      intro d hd
      rw [hcons, Option.mem_def.mp hd] at hsorted
      exact (List.pairwise_cons.mp hsorted).1
    have hsorted' : (D.clock es).Pairwise (· ≤ ·) := by
      rw [hcons] at hsorted
      exact (List.pairwise_append.mp hsorted).2.1
    intro x hx
    rcases List.mem_append.mp hx with hx | hx
    · rcases hkept.delay x hx with rfl | ⟨f, hf, d, hd, rfl⟩
      · exact ⟨le_rfl, hlast⟩
      · have hbefore := (hmade f hf).2 _ (hnow d hd)
        have hfirst := (hmade f hf).1
        have hle := (hclock _ (hnow d hd)).2
        omega
    · cases he : R.step s e with
      | none =>
        rw [he] at hx
        cases hx
      | some mid =>
        rw [he] at hx
        refine ih (fun f hf => ?_) hsorted' (fun t ht => hclock t (hlater t ht)) x hx
        rcases hkept.inFlight he f hf with ⟨f', hf', hsame⟩ | ⟨d, hd, hsame⟩
        · rw [hsame]
          exact ⟨(hmade f' hf').1, fun t ht => (hmade f' hf').2 t (hlater t ht)⟩
        · rw [hsame]
          exact ⟨(hclock _ (hnow d hd)).1, horder d hd⟩

/-- The mean delay of a run lies within it. -/
theorem Kept.mean_within (hkept : D.Kept R) {es : List (RelayEvent ι δ)} {last : Int}
    (hsorted : (D.clock es).Pairwise (· ≤ ·)) (hclock : ∀ t ∈ D.clock es, 0 ≤ t ∧ t ≤ last) (hlast : 0 ≤ last) :
    ∀ average ∈ mean (D.ofRun R { party := R.start } es), 0 ≤ average ∧ average ≤ last :=
  mean_mem (hkept.within (by simp) hsorted hclock hlast)

end Delays

end Lib
