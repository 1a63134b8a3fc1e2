import Quantas.Pow.Promotion

/-!
# Blocks of a tree arriving at a ledger

`registerAll` is a run: a sequence of `registerBlock` calls. `Registration.DrawnFrom t` says that a call is about a
block of the tree `t`; repeats and orphans are allowed. `Settled.register` is what one such call does, and
`foldl_pick_max` turns its fold into a maximum when the subclass's choice goes by a key. `ParentFirst` are
the runs in which no block is ever an orphan.
-/

namespace Quantas

open Lib.RootedTree

/-- The arguments of one `registerBlock`. -/
structure Registration where
  hash : String
  parents : List String
  miner : InterfaceId := NO_PEER_ID
  parasiteFlag : Bool := false
  deriving DecidableEq, Repr

def PoW.registerAll (p : PoW) (prefer : PreferCandidate) (calls : List Registration) : PoW :=
  calls.foldl (fun p c => p.registerBlock prefer c.hash c.parents c.miner c.parasiteFlag) p

/-- A call about a block of the tree. -/
def Registration.DrawnFrom (t : BlockTree) (c : Registration) : Prop :=
  c.hash ∈ t.blocks ∧ (c.hash = GENESIS ∨ c.parents = [t.parent c.hash])

instance (t : BlockTree) (c : Registration) : Decidable (c.DrawnFrom t) :=
  inferInstanceAs (Decidable (_ ∧ _))

/-- What a ledger knows that knew `R` before the calls. -/
def registered (R : Finset String) (calls : List Registration) : Finset String :=
  R ∪ (calls.map Registration.hash).toFinset

abbrev registeredBlocks (calls : List Registration) : Finset String := registered {GENESIS} calls

section
variable {t : BlockTree} {R : Finset String} {p : PoW} {prefer : PreferCandidate}

@[simp] theorem registered_nil : registered R [] = R := by simp [registered]

theorem registered_append (l l' : List Registration) :
    registered R (l ++ l') = registered (registered R l) l' := by
  simp [registered, Finset.union_assoc]

theorem registered_concat (l : List Registration) (c : Registration) :
    registered R (l ++ [c]) = insert c.hash (registered R l) := by
  ext x
  simp [registered]

theorem mem_registered {x : String} {l : List Registration} :
    x ∈ registered R l ↔ x ∈ R ∨ ∃ c ∈ l, c.hash = x := by
  simp [registered]

theorem PoW.registerAll_append (l l' : List Registration) :
    p.registerAll prefer (l ++ l') = (p.registerAll prefer l).registerAll prefer l' :=
  List.foldl_append

theorem PoW.registerAll_concat (l : List Registration) (c : Registration) :
    p.registerAll prefer (l ++ [c]) = (p.registerAll prefer l).registerBlock prefer c.hash c.parents
      c.miner c.parasiteFlag := by
  rw [registerAll_append]
  rfl

/-! ## One call -/

/-- `D` is what a new block `h` connects, with `h` itself at the head. -/
structure Connects (t : BlockTree) (R : Finset String) (h : String) (D : List String) : Prop where
  nodup : D.Nodup
  mem : ∀ x, x ∈ D ↔ t.Anc h x ∧ t.Rooted (insert h R) x
  head : ∀ x l, D = x :: l → x = h

theorem Settled.register {better : Finset String → String → String → Prop} (hp : Settled t R p)
    (hd : Decides t prefer better) {c : Registration} (hc : c.DrawnFrom t) :
    Settled t (insert c.hash R) (p.registerBlock prefer c.hash c.parents c.miner c.parasiteFlag) ∧
    (c.hash ∈ R →
      (p.registerBlock prefer c.hash c.parents c.miner c.parasiteFlag).bestHash = p.bestHash) ∧
    (c.hash ∉ R → ∃ D, Connects t R c.hash D ∧
      (p.registerBlock prefer c.hash c.parents c.miner c.parasiteFlag).bestHash =
        D.foldl (pick (better (insert c.hash R))) p.bestHash) := by
  obtain ⟨hmem, hparents⟩ := hc
  by_cases hh : c.hash ∈ R
  · obtain ⟨hsettled, hbest⟩ :=
      hp.register_known prefer hh c.parents c.miner c.parasiteFlag
    refine ⟨?_, fun _ => hbest, fun h => absurd hh h⟩
    rw [Finset.insert_eq_of_mem hh]
    exact hsettled
  · have hparents := hparents.resolve_left fun heq => hh (heq ▸ hp.genesis)
    rw [hparents]
    obtain ⟨hsettled, D, hnodup, hD, hhead, hfold⟩ :=
      hp.register_new hd hmem hh c.miner c.parasiteFlag
    exact ⟨hsettled, fun h => absurd h hh, fun _ => ⟨D, ⟨hnodup, hD, hhead⟩, hfold⟩⟩

theorem Settled.registerAll {better : Finset String → String → String → Prop} (hp : Settled t R p)
    (hd : Decides t prefer better) {calls : List Registration} (hcalls : ∀ c ∈ calls, c.DrawnFrom t) :
    Settled t (registered R calls) (p.registerAll prefer calls) := by
  induction calls using List.reverseRecOn with
  | nil => rwa [registered_nil]
  | append_singleton l c ih =>
    rw [registered_concat, PoW.registerAll_concat]
    have hl := ih fun c hc => hcalls c (List.mem_append_left _ hc)
    exact (hl.register hd (hcalls c (by simp))).1

/-! ## Choices that go by a key -/

theorem foldl_pick_max {κ : Type*} [LinearOrder κ] (key : String → κ) (better : String → String → Prop)
    (l : List String) (y : String)
    (hb : ∀ a ∈ l, ∀ b, b = y ∨ b ∈ l → (better a b ↔ key b < key a)) :
    ∀ z, z = y ∨ z ∈ l → key z ≤ key (l.foldl (pick better) y) := by
  induction l generalizing y with
  | nil =>
    rintro z (rfl | hz)
    · exact le_rfl
    · cases hz
  | cons x l ih =>
    have hxy := hb x List.mem_cons_self y (.inl rfl)
    have hmax := ih (pick better y x) fun a ha b hbm => by
      refine hb a (List.mem_cons_of_mem x ha) b ?_
      rcases hbm with rfl | hbm
      · rcases pick_eq better y x with h | h
        · exact .inl h
        · exact .inr (by rw [h]; exact List.mem_cons_self)
      · exact .inr (List.mem_cons_of_mem x hbm)
    have hkeys : key y ≤ key (pick better y x) ∧ key x ≤ key (pick better y x) := by
      unfold pick
      by_cases h : better x y
      · rw [if_pos h]
        exact ⟨(hxy.mp h).le, le_rfl⟩
      · rw [if_neg h]
        exact ⟨le_rfl, not_lt.mp fun hlt => h (hxy.mpr hlt)⟩
    have htop := hmax _ (.inl rfl)
    rw [List.foldl_cons]
    rintro z (rfl | hz)
    · exact hkeys.1.trans htop
    · rcases List.mem_cons.mp hz with rfl | hz
      · exact hkeys.2.trans htop
      · exact hmax z (.inr hz)

/-! ## The longest chain -/

theorem BlockTree.rooted_blocks {x : String} (hx : x ∈ t.blocks) : t.Rooted t.blocks x := by
  intro a ha
  induction ha with
  | refl => exact hx
  | step hb _ ih => exact ih (t.parent_mem _ hx hb)

/-- Blocks in the order of the longest-chain rule: deeper is more, and then the smaller hash is. -/
def BlockTree.rank (t : BlockTree) (x : String) : Lex (Nat × Stringᵒᵈ) :=
  toLex (t.depth x, OrderDual.toDual x)

theorem eq_of_ties {m n : Nat} {x y : String} (h : n < m ∨ n = m ∧ x ≤ y) (h' : m < n ∨ m = n ∧ y ≤ x) : x = y := by
  rcases h with h | ⟨h, hle⟩ <;> rcases h' with h' | ⟨h', hle'⟩
  · omega
  · omega
  · omega
  · exact le_antisymm hle hle'

/-- Of the connected blocks `b` is the one furthest from GENESIS, and of these the one with the smallest
hash. -/
def BlockTree.Longest (t : BlockTree) (R : Finset String) (b : String) : Prop :=
  t.Rooted R b ∧ ∀ x, t.Rooted R x → t.depth x < t.depth b ∨ t.depth x = t.depth b ∧ b ≤ x

theorem BlockTree.rank_le_iff {x y : String} :
    t.rank x ≤ t.rank y ↔ t.depth x < t.depth y ∨ t.depth x = t.depth y ∧ y ≤ x := by
  rw [rank, rank, Prod.Lex.toLex_le_toLex]
  rfl

theorem BlockTree.rank_lt_iff {x y : String} :
    t.rank x < t.rank y ↔ t.depth x < t.depth y ∨ t.depth x = t.depth y ∧ y < x := by
  rw [rank, rank, Prod.Lex.toLex_lt_toLex]
  rfl

namespace BlockTree.Longest
variable {b b' : String}

theorem unique (hb : t.Longest R b) (hb' : t.Longest R b') : b = b' :=
  eq_of_ties (hb.2 b' hb'.1) (hb'.2 b hb.1)

theorem eq_of_anc (hb : t.Longest R b) {x : String} (hx : t.Rooted R x) (hanc : t.Anc b x) : x = b := by
  refine (hanc.eq_of_depth_le ?_).symm
  rcases hb.2 x hx with h | ⟨h, -⟩ <;> omega

theorem singleton : t.Longest {GENESIS} GENESIS := by
  refine ⟨rooted_root.mpr (Finset.mem_singleton_self _), fun x hx => ?_⟩
  obtain rfl := Finset.mem_singleton.mp hx.mem
  exact .inr ⟨rfl, le_rfl⟩

end BlockTree.Longest

/-! ## Parents first -/

def ParentFirst (t : BlockTree) (calls : List Registration) : Prop :=
  ∀ l c l', calls = l ++ c :: l' → c.hash ∈ registeredBlocks l ∨ t.parent c.hash ∈ registeredBlocks l

instance (t : BlockTree) (calls : List Registration) : Decidable (ParentFirst t calls) :=
  decidable_of_iff (∀ i : Fin calls.length, calls[i].hash ∈ registeredBlocks (calls.take i) ∨
      t.parent calls[i].hash ∈ registeredBlocks (calls.take i)) <| by
    constructor
    · rintro h l c l' rfl
      simpa using h ⟨l.length, by simp⟩
    · intro h i
      refine h (calls.take i) calls[i] (calls.drop (i + 1)) ?_
      rw [Fin.getElem_fin, List.getElem_cons_drop, List.take_append_drop]

theorem ParentFirst.of_append {l l' : List Registration} (h : ParentFirst t (l ++ l')) : ParentFirst t l :=
  fun l₁ c l₂ hsplit => h l₁ c (l₂ ++ l') (by rw [hsplit, List.append_assoc, List.cons_append])

theorem ParentFirst.rooted {calls : List Registration} (h : ParentFirst t calls) (x : String)
    (hx : x ∈ registeredBlocks calls) : t.Rooted (registeredBlocks calls) x := by
  induction calls using List.reverseRecOn generalizing x with
  | nil =>
    rw [registeredBlocks, registered_nil, Finset.mem_singleton] at hx
    subst hx
    exact rooted_root.mpr (Finset.mem_singleton_self _)
  | append_singleton l c ih =>
    rw [registeredBlocks, registered_concat] at hx ⊢
    have hold : ∀ y ∈ registeredBlocks l, t.Rooted (insert c.hash (registered {GENESIS} l)) y := by
      exact fun y hy => (ih h.of_append y hy).mono (Finset.subset_insert c.hash _)
    rcases Finset.mem_insert.mp hx with rfl | hx
    · rcases h l c [] rfl with hknown | hparent
      · exact hold _ hknown
      · by_cases hne : c.hash = GENESIS
        · rw [hne]
          exact rooted_root.mpr (hne ▸ Finset.mem_insert_self _ _)
        · exact (rooted_iff hne).mpr ⟨Finset.mem_insert_self _ _, hold _ hparent⟩
    · exact hold x hx

theorem exists_parentFirst (S : Finset String) (hS : S ⊆ t.blocks) (hgenesis : GENESIS ∈ S)
    (hclosed : ∀ x ∈ S, x ≠ GENESIS → t.parent x ∈ S) :
    ∃ calls : List Registration, (∀ c ∈ calls, c.DrawnFrom t) ∧ ParentFirst t calls ∧
      registeredBlocks calls = S := by
  induction hn : S.card generalizing S with
  | zero => exact absurd hgenesis (by rw [Finset.card_eq_zero.mp hn]; exact Finset.notMem_empty _)
  | succ n ih =>
    obtain ⟨m, hm, hmax⟩ := S.exists_max_image t.depth ⟨GENESIS, hgenesis⟩
    by_cases hne : m = GENESIS
    · refine ⟨[], by simp, ?_, ?_⟩
      · intro l c l' hsplit
        exact absurd (congrArg List.length hsplit) (by simp)
      · rw [registeredBlocks, registered_nil]
        refine (Finset.eq_singleton_iff_unique_mem.mpr ⟨hgenesis, fun x hx => ?_⟩).symm
        by_contra hx'
        have hdepth := depth_of_ne (t := t.toRootedTree) hx'
        have hle := hmax x hx
        rw [hne, depth_root] at hle
        omega
    · -- a deepest block comes last
      have hleaf : ∀ x ∈ S.erase m, x ≠ GENESIS → t.parent x ∈ S.erase m := by
        intro x hx hx'
        have hxS := Finset.mem_of_mem_erase hx
        refine Finset.mem_erase.mpr ⟨fun heq => ?_, hclosed x hxS hx'⟩
        have hdepth := depth_of_ne (t := t.toRootedTree) hx'
        have hle := hmax x hxS
        rw [heq] at hdepth
        omega
      obtain ⟨calls, hdrawn, hfirst, hregistered⟩ := ih (S.erase m) ((Finset.erase_subset _ _).trans hS)
        (Finset.mem_erase.mpr ⟨Ne.symm hne, hgenesis⟩) hleaf (by rw [Finset.card_erase_of_mem hm, hn]; rfl)
      refine ⟨calls ++ [{ hash := m, parents := [t.parent m] }], ?_, ?_, ?_⟩
      · intro c hc
        rcases List.mem_append.mp hc with hc | hc
        · exact hdrawn c hc
        · rw [List.mem_singleton.mp hc]
          exact ⟨hS hm, .inr rfl⟩
      · intro l c l' hsplit
        rcases List.eq_nil_or_concat l' with rfl | ⟨l', c', rfl⟩
        · obtain ⟨rfl, hc⟩ := List.append_inj' hsplit rfl
          rw [List.singleton_inj] at hc
          rw [← hc, hregistered]
          refine .inr (Finset.mem_erase.mpr ⟨fun heq => ?_, hclosed m hm hne⟩)
          exact not_anc_parent hne (by rw [heq]; exact .refl m)
        · have hsplit' : calls ++ [{ hash := m, parents := [t.parent m] }] = (l ++ c :: l') ++ [c'] := by
            simpa using hsplit
          exact hfirst l c l' (List.append_inj' hsplit' rfl).1
      · rw [registeredBlocks, registered_concat, ← registeredBlocks, hregistered, Finset.insert_erase hm]

end

/-! ## A tree that tells the rules apart -/

def bushyTree : BlockTree where
  parent b :=
    if b = "a2" then "a1" else if b = "a1" then "a"
    else if b = "y1" ∨ b = "y2" ∨ b = "y3" then "x" else GENESIS
  acyclic b := by
    refine ⟨3, ?_⟩
    simp only [Function.iterate_succ_apply, Function.iterate_zero_apply]
    split_ifs <;> simp_all [GENESIS]
  blocks := {GENESIS, "a", "a1", "a2", "x", "y1", "y2", "y3"}
  genesis_mem := by decide
  parent_mem := by decide

/-- The call for a block of `bushyTree`. -/
def bushyCall (hash : String) : Registration := { hash, parents := [bushyTree.parent hash] }

end Quantas
