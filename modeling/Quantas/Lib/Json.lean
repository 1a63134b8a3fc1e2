import Mathlib

/-!
# JSON values, paths and assignments

A path is the list of member names on the way down from a value. `assign` is the assignment
`j[k₁]…[kₙ] = v`, which enters the members that are missing; it fails where a value on the way is neither
an object nor null. Its laws: the value assigned is read back (`get?_assign`), nothing beside the path
changes (`SameBut.of_assign`), and of two assignments to one path the second counts (`assign_assign`).
-/

namespace Lib

/-- A JSON value; the members of an object stand in the order of their names. -/
inductive Json
  | null
  | bool (b : Bool)
  | num (n : Int)
  | str (s : String)
  | arr (elements : List Json)
  | obj (members : List (String × Json))

namespace Json

def member (key : String) : Json → Option Json
  | obj members => members.lookup key
  | _ => none

def contains (j : Json) (key : String) : Bool := (j.member key).isSome

def get? : List String → Json → Option Json
  | [], j => some j
  | key :: path, j => (j.member key).bind (get? path)

def insertMember (key : String) (value : Json) : List (String × Json) → List (String × Json)
  | [] => [(key, value)]
  | m :: ms =>
    if m.1 = key then (key, value) :: ms
    else if key < m.1 then (key, value) :: m :: ms
    else m :: insertMember key value ms

def assign (value : Json) : List String → Json → Option Json
  | [], _ => some value
  | key :: path, obj members =>
    (assign value path ((members.lookup key).getD null)).map fun v => obj (insertMember key v members)
  | key :: path, null => (assign value path null).map fun v => obj [(key, v)]
  | _ :: _, _ => none

/-! ## Members -/

theorem get?_singleton (key : String) (j : Json) : get? [key] j = j.member key := by
  rw [get?]
  cases j.member key <;> rfl

theorem lookup_cons_ite (k name : String) (v : Json) (ms : List (String × Json)) :
    ((name, v) :: ms).lookup k = if k = name then some v else ms.lookup k := by
  rw [List.lookup_cons]
  by_cases hk : k = name
  · rw [if_pos hk, beq_iff_eq.mpr hk]
  · rw [if_neg hk, beq_eq_false_iff_ne.mpr hk]

theorem lookup_insertMember (key : String) (value : Json) (ms : List (String × Json)) (k : String) :
    (insertMember key value ms).lookup k = if k = key then some value else ms.lookup k := by
  induction ms with
  | nil => exact lookup_cons_ite k key value []
  | cons m ms ih =>
    obtain ⟨name, old⟩ := m
    rw [insertMember]
    dsimp only
    by_cases hname : name = key
    · subst hname
      rw [if_pos rfl, lookup_cons_ite, lookup_cons_ite]
      by_cases hk : k = name
      · rw [if_pos hk, if_pos hk]
      · rw [if_neg hk, if_neg hk, if_neg hk]
    rw [if_neg hname]
    by_cases hlt : key < name
    · rw [if_pos hlt, lookup_cons_ite]
    · rw [if_neg hlt, lookup_cons_ite, lookup_cons_ite, ih]
      by_cases hk : k = key
      · rw [if_pos hk, if_pos hk, if_neg fun h => hname (h.symm.trans hk)]
      · rw [if_neg hk, if_neg hk]

theorem insertMember_insertMember (key : String) (v w : Json) (ms : List (String × Json)) :
    insertMember key w (insertMember key v ms) = insertMember key w ms := by
  induction ms with
  | nil => simp [insertMember]
  | cons m ms ih =>
    rw [insertMember, insertMember]
    by_cases hname : m.1 = key
    · rw [if_pos hname, if_pos hname, insertMember, if_pos rfl]
    rw [if_neg hname, if_neg hname]
    by_cases hlt : key < m.1
    · rw [if_pos hlt, if_pos hlt, insertMember, if_pos rfl]
    · rw [if_neg hlt, if_neg hlt, insertMember, if_neg hname, if_neg hlt, ih]

theorem member_obj_insertMember (key : String) (value : Json) (ms : List (String × Json)) (k : String) :
    (obj (insertMember key value ms)).member k = if k = key then some value else (obj ms).member k :=
  lookup_insertMember key value ms k

/-! ## Assignments -/

theorem assign_cons {value : Json} {key : String} {path : List String} {j j' : Json}
    (h : assign value (key :: path) j = some j') :
    ∃ v, assign value path ((j.member key).getD null) = some v ∧ j'.member key = some v ∧
      ∀ k, k ≠ key → j'.member k = j.member k := by
  cases j with
  | obj ms =>
    obtain ⟨v, hv, rfl⟩ := Option.map_eq_some_iff.mp h
    refine ⟨v, hv, ?_, fun k hk => ?_⟩
    · rw [member_obj_insertMember, if_pos rfl]
    · rw [member_obj_insertMember, if_neg hk]
  | null =>
    obtain ⟨v, hv, rfl⟩ := Option.map_eq_some_iff.mp h
    refine ⟨v, hv, ?_, fun k hk => ?_⟩
    · exact (lookup_cons_ite key key v []).trans (if_pos rfl)
    · exact (lookup_cons_ite k key v []).trans (if_neg hk)
  | bool b => cases h
  | num n => cases h
  | str s => cases h
  | arr elements => cases h

theorem get?_assign {value : Json} {path : List String} {j j' : Json} (h : assign value path j = some j') :
    get? path j' = some value := by
  induction path generalizing j j' with
  | nil => exact h.symm
  | cons key path ih =>
    obtain ⟨v, hv, hmember, -⟩ := assign_cons h
    rw [get?, hmember, Option.bind_some]
    exact ih hv

/-- The two values agree beside the path, above which they need not be the same either. -/
def SameBut (path : List String) (j j' : Json) : Prop :=
  ∀ p, ¬ p <+: path → ¬ path <+: p → get? p j' = get? p j

theorem SameBut.of_assign {value : Json} {path : List String} {j j' : Json}
    (h : assign value path j = some j') : SameBut path j j' := by
  induction path generalizing j j' with
  | nil => exact fun p _ hp => absurd (List.nil_prefix) hp
  | cons key path ih =>
    obtain ⟨v, hv, hmember, hothers⟩ := assign_cons h
    intro p hp hpath
    cases p with
    | nil => exact absurd (List.nil_prefix) hp
    | cons k p =>
      rw [get?, get?]
      by_cases hk : k = key
      · subst hk
        rw [List.cons_prefix_cons] at hp hpath
        have hsame := ih hv p (fun h => hp ⟨rfl, h⟩) fun h => hpath ⟨rfl, h⟩
        rw [hmember, Option.bind_some, hsame]
        cases hold : j.member k with
        | some old => rfl
        | none =>
          -- nothing is below a missing member, nor below null
          cases p with
          | nil => exact absurd ⟨rfl, List.nil_prefix⟩ hp
          | cons k' p => rfl
      · rw [hothers k hk]

theorem assign_assign {v w : Json} {path : List String} {j j' : Json} (h : assign v path j = some j') :
    assign w path j' = assign w path j := by
  induction path generalizing j j' with
  | nil => rfl
  | cons key path ih =>
    cases j with
    | obj ms =>
      obtain ⟨u, hu, rfl⟩ := Option.map_eq_some_iff.mp h
      rw [assign, assign, lookup_insertMember, if_pos rfl, Option.getD_some, ih hu]
      refine congrArg (Option.map · _) (funext fun x => ?_)
      rw [insertMember_insertMember]
    | null =>
      obtain ⟨u, hu, rfl⟩ := Option.map_eq_some_iff.mp h
      have hlookup : ([(key, u)] : List (String × Json)).lookup key = some u :=
        (lookup_cons_ite key key u []).trans (if_pos rfl)
      rw [assign, assign, hlookup, Option.getD_some, ih hu]
      refine congrArg (Option.map · _) (funext fun x => ?_)
      rw [insertMember, if_pos rfl]
    | bool b => cases h
    | num n => cases h
    | str s => cases h
    | arr elements => cases h

/-- The values on the way down a path are objects, as far as they are there. -/
def Open : List String → Json → Prop
  | [], _ => True
  | key :: path, j => (∃ ms, j = obj ms) ∧ ∀ v, j.member key = some v → Open path v

theorem assign_null (value : Json) (path : List String) : ∃ v, assign value path null = some v := by
  induction path with
  | nil => exact ⟨value, rfl⟩
  | cons key path ih =>
    obtain ⟨v, hv⟩ := ih
    exact ⟨obj [(key, v)], by rw [assign, hv, Option.map_some]⟩

theorem Open.assign {path : List String} {j : Json} (h : Open path j) (value : Json) :
    ∃ j', Json.assign value path j = some j' := by
  induction path generalizing j with
  | nil => exact ⟨value, rfl⟩
  | cons key path ih =>
    obtain ⟨⟨ms, rfl⟩, hbelow⟩ := h
    rw [Json.assign]
    cases hold : ms.lookup key with
    | none =>
      obtain ⟨v, hv⟩ := assign_null value path
      exact ⟨_, by rw [Option.getD_none, hv, Option.map_some]⟩
    | some old =>
      obtain ⟨v, hv⟩ := ih (hbelow old hold)
      exact ⟨_, by rw [Option.getD_some, hv, Option.map_some]⟩

theorem open_of_assign_null {value : Json} {path : List String} {u : Json}
    (h : Json.assign value path null = some u) : Open path u := by
  induction path generalizing u with
  | nil => exact trivial
  | cons key path ih =>
    obtain ⟨w, hw, rfl⟩ := Option.map_eq_some_iff.mp h
    refine ⟨⟨_, rfl⟩, fun v hv => ?_⟩
    have hmember : (obj [(key, w)]).member key = some w :=
      (lookup_cons_ite key key w []).trans (if_pos rfl)
    rw [hmember, Option.some.injEq] at hv
    subst hv
    exact ih hw

theorem Open.of_assign {path : List String} {j j' value : Json} (h : Open path j)
    (hassign : Json.assign value path j = some j') : Open path j' := by
  induction path generalizing j j' with
  | nil => exact trivial
  | cons key path ih =>
    obtain ⟨⟨ms, rfl⟩, hbelow⟩ := h
    obtain ⟨u, hu, rfl⟩ := Option.map_eq_some_iff.mp hassign
    refine ⟨⟨_, rfl⟩, fun v hv => ?_⟩
    rw [member_obj_insertMember, if_pos rfl, Option.some.injEq] at hv
    subst hv
    cases hold : ms.lookup key with
    | some old =>
      rw [hold, Option.getD_some] at hu
      exact ih (hbelow old hold) hu
    | none =>
      rw [hold, Option.getD_none] at hu
      exact open_of_assign_null hu

theorem assign_above {w : Json} {path rest : List String} {j j' : Json}
    (h : assign w (path ++ rest) j = some j') (v : Json) : ∃ j'', assign v path j = some j'' := by
  induction path generalizing j j' with
  | nil => exact ⟨v, rfl⟩
  | cons key path ih =>
    cases j with
    | obj ms =>
      obtain ⟨u, hu, -⟩ := Option.map_eq_some_iff.mp h
      obtain ⟨x, hx⟩ := ih hu
      exact ⟨_, by rw [assign, hx, Option.map_some]⟩
    | null =>
      obtain ⟨u, hu, -⟩ := Option.map_eq_some_iff.mp h
      obtain ⟨x, hx⟩ := ih hu
      exact ⟨_, by rw [assign, hx, Option.map_some]⟩
    | bool b => cases h
    | num n => cases h
    | str s => cases h
    | arr elements => cases h

theorem assign_fill {w : Json} {path rest : List String} (hrest : rest ≠ []) {j j' : Json}
    (hnone : get? path j = none) (h : assign (obj []) path j = some j') :
    assign w (path ++ rest) j' = assign w (path ++ rest) j := by
  have hempty : assign w rest (obj []) = assign w rest null := by
    cases rest with
    | nil => exact absurd rfl hrest
    | cons key rest => rfl
  induction path generalizing j j' with
  | nil => cases hnone
  | cons key path ih =>
    -- the value assigned to below the member, null if there was none
    have hbelow : ∀ old u : Json, (path = [] → old = null) → (path ≠ [] → get? path old = none) →
        assign (obj []) path old = some u →
        assign w (path ++ rest) u = assign w (path ++ rest) old := by
      intro old u hnil hcons hu
      cases path with
      | nil =>
        rw [hnil rfl]
        obtain rfl := Option.some.inj hu
        exact hempty
      | cons k path => exact ih (hcons (List.cons_ne_nil k path)) hu
    have hnull : path ≠ [] → get? path null = none := by
      intro hne
      cases path with
      | nil => exact absurd rfl hne
      | cons k path => rfl
    cases j with
    | obj ms =>
      obtain ⟨u, hu, rfl⟩ := Option.map_eq_some_iff.mp h
      have hsame : assign w (path ++ rest) u = assign w (path ++ rest) ((ms.lookup key).getD null) := by
        refine hbelow _ u ?_ ?_ hu
        · intro hnil
          cases hold : ms.lookup key with
          | none => rfl
          | some old =>
            rw [get?, member, hold, Option.bind_some, hnil] at hnone
            cases hnone
        · intro hne
          cases hold : ms.lookup key with
          | none => exact hnull hne
          | some old =>
            rw [get?, member, hold, Option.bind_some] at hnone
            exact hnone
      rw [List.cons_append, assign, assign, lookup_insertMember, if_pos rfl, Option.getD_some, hsame]
      refine congrArg (Option.map · _) (funext fun x => ?_)
      rw [insertMember_insertMember]
    | null =>
      obtain ⟨u, hu, rfl⟩ := Option.map_eq_some_iff.mp h
      have hsame := hbelow null u (fun _ => rfl) hnull hu
      have hlookup : ([(key, u)] : List (String × Json)).lookup key = some u :=
        (lookup_cons_ite key key u []).trans (if_pos rfl)
      rw [List.cons_append, assign, assign, hlookup, Option.getD_some, hsame]
      refine congrArg (Option.map · _) (funext fun x => ?_)
      rw [insertMember, if_pos rfl]
    | bool b => cases h
    | num n => cases h
    | str s => cases h
    | arr elements => cases h

end Json

end Lib
