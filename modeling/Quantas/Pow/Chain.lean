import Quantas.Pow.Union

/-!
# The way back to GENESIS

`chainToGenesis` follows first parents from a block and puts GENESIS in front of what it has found. Unlike the other
walks of the ledger it does not keep what it has visited, and it does not look where the walk broke off: below a block
that is its own ancestor it does not return, and in front of a block whose first parent is not known, or that has
none, it names GENESIS as a parent that the block does not have.
-/

namespace Quantas.PoW
variable (p : PoW)

/-- The loop of `chainToGenesis`, for at most `fuel` turns; the path is listed from its first entry. -/
def chainLoop : Nat → String → Option (List String)
  | 0, _ => none
  | fuel + 1, currentHash =>
    match p.findBlock currentHash with
    | none => some []
    | some current =>
      match current.parents with
      | [] => some [currentHash]
      | parent :: _ => (chainLoop fuel parent).map (currentHash :: ·)

/-- `chainToGenesis`, whose loop takes at most `fuel` turns. -/
def chainToGenesis (fuel : Nat) (tip : String) : Option (List String) :=
  (p.chainLoop fuel tip).map fun path =>
    (if path.getLast? = some GENESIS then path else path ++ [GENESIS]).reverse

def firstParent (hash : String) : Option String := (p.findBlock hash).bind fun b => b.parents.head?

/-- `b` is followed by its first parent `a`. -/
def FirstParent (b a : String) : Prop := p.firstParent b = some a

/-- The first-parent line of a block comes to another one. -/
def LineReaches (b a : String) : Prop := Relation.ReflTransGen p.FirstParent b a

/-- What a chain to GENESIS should be: it ends with the block, each element is the first recorded parent of the next
one, and it starts with GENESIS if the first-parent line comes there. -/
structure RealChain (tip : String) (chain : List String) : Prop where
  ends : chain.getLast? = some tip
  linked : chain.IsChain fun a b => p.FirstParent b a
  starts : p.LineReaches tip GENESIS → chain.head? = some GENESIS

variable {p}

/-! ## The walk -/

theorem firstParent_eq_some {b a : String} :
    p.FirstParent b a ↔ ∃ block, p.findBlock b = some block ∧ ∃ rest, block.parents = a :: rest := by
  unfold FirstParent firstParent
  rw [Option.bind_eq_some_iff]
  apply exists_congr
  intro block
  rw [List.head?_eq_some_iff]

theorem chainLoop_mono {fuel fuel' : Nat} {hash : String} {path : List String} (h : p.chainLoop fuel hash = some path)
    (hle : fuel ≤ fuel') : p.chainLoop fuel' hash = some path := by
  induction fuel generalizing fuel' hash path with
  | zero => cases h
  | succ fuel ih =>
    obtain ⟨more, rfl⟩ : ∃ more, fuel' = more + 1 := ⟨fuel' - 1, by omega⟩
    unfold chainLoop at h ⊢
    cases hfind : p.findBlock hash with
    | none =>
      simp only [hfind] at h ⊢
      exact h
    | some b =>
      simp only [hfind] at h ⊢
      cases hparents : b.parents with
      | nil =>
        simp only [hparents] at h ⊢
        exact h
      | cons parent rest =>
        simp only [hparents] at h ⊢
        obtain ⟨path', hpath', rfl⟩ := Option.map_eq_some_iff.mp h
        rw [ih hpath' (by omega)]
        rfl

theorem chainLoop_spec {fuel : Nat} {hash : String} {path : List String} (h : p.chainLoop fuel hash = some path) :
    (path = [] ∧ p.findBlock hash = none) ∨
      ∃ rest, path = hash :: rest ∧ path.IsChain p.FirstParent := by
  induction fuel generalizing hash path with
  | zero => cases h
  | succ fuel ih =>
    unfold chainLoop at h
    cases hfind : p.findBlock hash with
    | none =>
      simp only [hfind] at h
      exact .inl ⟨(Option.some.inj h).symm, rfl⟩
    | some b =>
      simp only [hfind] at h
      cases hparents : b.parents with
      | nil =>
        simp only [hparents] at h
        exact .inr ⟨[], (Option.some.inj h).symm, by rw [← Option.some.inj h]; exact .singleton _⟩
      | cons parent others =>
        simp only [hparents] at h
        obtain ⟨path', hpath', rfl⟩ := Option.map_eq_some_iff.mp h
        refine .inr ⟨path', rfl, ?_⟩
        rcases ih hpath' with ⟨rfl, -⟩ | ⟨rest, rfl, hchain⟩
        · exact .singleton _
        · exact .cons_cons (firstParent_eq_some.mpr ⟨b, hfind, others, hparents⟩) hchain

theorem exists_chainLoop (hp : p.Linked) {tip : String} (h : p.LineReaches tip GENESIS) :
    ∃ fuel path, p.chainLoop fuel tip = some path ∧ path.getLast? = some GENESIS := by
  induction h using Relation.ReflTransGen.head_induction_on with
  | refl =>
    obtain ⟨b, hb, hparents⟩ := hp.findBlock_genesis
    refine ⟨1, [GENESIS], ?_, rfl⟩
    simp only [chainLoop, hb, hparents]
  | @head b a hstep hrest ih =>
    obtain ⟨fuel, path, hpath, hlast⟩ := ih
    obtain ⟨block, hblock, rest, hparents⟩ := firstParent_eq_some.mp hstep
    refine ⟨fuel + 1, b :: path, ?_, ?_⟩
    · simp only [chainLoop, hblock, hparents, hpath, Option.map_some]
    · rw [List.getLast?_cons, hlast]
      rfl

/-! ## The chain -/

theorem chainToGenesis_unique {fuel fuel' : Nat} {tip : String} {chain chain' : List String}
    (h : p.chainToGenesis fuel tip = some chain) (h' : p.chainToGenesis fuel' tip = some chain') : chain = chain' := by
  obtain ⟨path, hpath, rfl⟩ := Option.map_eq_some_iff.mp h
  obtain ⟨path', hpath', rfl⟩ := Option.map_eq_some_iff.mp h'
  have hsame := (chainLoop_mono hpath (le_max_left fuel fuel')).symm.trans
    (chainLoop_mono hpath' (le_max_right fuel fuel'))
  rw [Option.some.inj hsame]

theorem lineReaches_of_realChain {fuel : Nat} {tip : String} {chain : List String}
    (hknown : (p.findBlock tip).isSome) (h : p.chainToGenesis fuel tip = some chain) (hreal : p.RealChain tip chain) :
    p.LineReaches tip GENESIS := by
  obtain ⟨path, hpath, rfl⟩ := Option.map_eq_some_iff.mp h
  rcases chainLoop_spec hpath with ⟨-, hnone⟩ | ⟨rest, rfl, hchain⟩
  · rw [hnone] at hknown
    cases hknown
  · have hline : ∀ whole : List String, whole.IsChain p.FirstParent → whole.head? = some tip →
        whole.getLast? = some GENESIS → p.LineReaches tip GENESIS := by
      intro whole hwhole hhead hlast
      obtain ⟨tail, rfl⟩ := List.head?_eq_some_iff.mp hhead
      apply List.relationReflTransGen_of_exists_isChain_cons tail hwhole
      rw [List.getLast?_eq_some_getLast (List.cons_ne_nil _ _)] at hlast
      exact Option.some.inj hlast
    by_cases hlast : (tip :: rest).getLast? = some GENESIS
    · exact hline _ hchain rfl hlast
    · -- GENESIS was put in front, so it is the first parent of what follows it
      have hlinked := hreal.linked
      rw [if_neg hlast, List.isChain_reverse] at hlinked
      apply hline (tip :: rest ++ [GENESIS]) hlinked rfl
      exact List.getLast?_concat

theorem realChain_of_lineReaches (hp : p.Linked) {tip : String} (h : p.LineReaches tip GENESIS) :
    ∃ fuel chain, p.chainToGenesis fuel tip = some chain ∧ p.RealChain tip chain := by
  obtain ⟨fuel, path, hpath, hlast⟩ := exists_chainLoop hp h
  refine ⟨fuel, path.reverse, ?_, ?_⟩
  · rw [chainToGenesis, hpath, Option.map_some, if_pos hlast]
  · rcases chainLoop_spec hpath with ⟨rfl, -⟩ | ⟨rest, rfl, hchain⟩
    · cases hlast
    · refine ⟨?_, ?_, ?_⟩
      · rw [List.getLast?_reverse]
        rfl
      · rw [List.isChain_reverse]
        exact hchain
      · intro _
        rw [List.head?_reverse]
        exact hlast

theorem chainLoop_self {hash : String} (h : p.FirstParent hash hash) (fuel : Nat) : p.chainLoop fuel hash = none := by
  obtain ⟨b, hb, rest, hparents⟩ := firstParent_eq_some.mp h
  induction fuel with
  | zero => rfl
  | succ fuel ih => simp only [chainLoop, hb, hparents, ih, Option.map_none]

/-- **When `chainToGenesis` returns a real chain.** In every ledger that registrations make, whatever hashes and
parents they name, and for every registered hash: the function returns a chain that ends with the hash and leads from
first parent to child, exactly when the first-parent line of the hash comes to GENESIS. -/
theorem chain_real_iff (prefer : PreferCandidate) (calls : List Registration) {tip : String}
    (hknown : ((fresh.registerAll prefer calls).findBlock tip).isSome) :
    (∃ fuel chain, (fresh.registerAll prefer calls).chainToGenesis fuel tip = some chain ∧
      (fresh.registerAll prefer calls).RealChain tip chain) ↔
      (fresh.registerAll prefer calls).LineReaches tip GENESIS := by
  constructor
  · rintro ⟨fuel, chain, hreturns, hreal⟩
    exact lineReaches_of_realChain hknown hreturns hreal
  · exact realChain_of_lineReaches (Linked.fresh.registerAll calls)

theorem chain_real_two :
    let p := fresh.registerAll PoWBitcoin.preferCandidate [⟨"a", [GENESIS], 0, false⟩, ⟨"b", ["a", "c"], 0, false⟩]
    ∃ fuel chain, p.chainToGenesis fuel "b" = some chain ∧ p.RealChain "b" chain := by
  apply (chain_real_iff _ _ (by decide +kernel)).mpr
  have hb : firstParent (fresh.registerAll PoWBitcoin.preferCandidate
      [⟨"a", [GENESIS], 0, false⟩, ⟨"b", ["a", "c"], 0, false⟩]) "b" = some "a" := by decide +kernel
  have ha : firstParent (fresh.registerAll PoWBitcoin.preferCandidate
      [⟨"a", [GENESIS], 0, false⟩, ⟨"b", ["a", "c"], 0, false⟩]) "a" = some GENESIS := by decide +kernel
  exact .head hb (.single ha)

/-- A block that is its own parent keeps the walk from returning, and in front of an orphan stands a parent that it
does not have. -/
theorem chain_not_real :
    (∀ fuel, (fresh.registerAll PoWBitcoin.preferCandidate [⟨"a", ["a"], 0, false⟩]).chainToGenesis fuel "a" = none) ∧
      (fresh.registerAll PoWBitcoin.preferCandidate [⟨"b", ["x"], 0, false⟩]).chainToGenesis 2 "b" =
        some [GENESIS, "b"] ∧
      (fresh.registerAll PoWBitcoin.preferCandidate [⟨"b", ["x"], 0, false⟩]).firstParent "b" = some "x" := by
  refine ⟨fun fuel => ?_, by decide +kernel, by decide +kernel⟩
  have hself : firstParent (fresh.registerAll PoWBitcoin.preferCandidate [⟨"a", ["a"], 0, false⟩]) "a" =
      some "a" := by decide +kernel
  rw [chainToGenesis, chainLoop_self hself]
  rfl

end Quantas.PoW
