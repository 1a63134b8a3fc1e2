import Mathlib

/-!
# Conduits

A conduit is a queue together with its history: what has entered it, what it holds, and what has left it.
Entries join at the back (`enter`) and leave from the front (`leave`); while they are held they may be
rearranged (`rearrange`). Whatever is done, nothing is lost and nothing is invented (`Conserved`), and as
long as nothing is rearranged, nothing overtakes (`InOrder`).
-/

namespace Lib

/-- A queue and its history, in the order in which things happened. -/
structure Conduit (α : Type*) where
  entered : List α := []
  held : List α := []
  left : List α := []

namespace Conduit
variable {α : Type*} (c : Conduit α)

def enter (xs : List α) : Conduit α := { c with entered := c.entered ++ xs, held := c.held ++ xs }

def rearrange (ys : List α) : Conduit α := { c with held := ys }

/-- The entries `out` leave from the front of `out ++ rest`. -/
def leave (out rest : List α) : Conduit α := { c with held := rest, left := c.left ++ out }

def Conserved : Prop := (c.left ++ c.held).Perm c.entered

/-- The entries leave in the order in which they came. -/
def InOrder : Prop := c.left ++ c.held = c.entered

variable {c}

theorem Conserved.enter (h : c.Conserved) (xs : List α) : (c.enter xs).Conserved := by
  show (c.left ++ (c.held ++ xs)).Perm (c.entered ++ xs)
  rw [← List.append_assoc]
  exact h.append_right xs

theorem Conserved.rearrange (h : c.Conserved) {ys : List α} (hys : ys.Perm c.held) :
    (c.rearrange ys).Conserved :=
  (hys.append_left c.left).trans h

theorem Conserved.leave (h : c.Conserved) {out rest : List α} (hheld : out ++ rest = c.held) :
    (c.leave out rest).Conserved := by
  show (c.left ++ out ++ rest).Perm c.entered
  rw [List.append_assoc, hheld]
  exact h

theorem InOrder.enter (h : c.InOrder) (xs : List α) : (c.enter xs).InOrder := by
  show c.left ++ (c.held ++ xs) = c.entered ++ xs
  rw [← List.append_assoc, h]

theorem InOrder.leave (h : c.InOrder) {out rest : List α} (hheld : out ++ rest = c.held) :
    (c.leave out rest).InOrder := by
  show c.left ++ out ++ rest = c.entered
  rw [List.append_assoc, hheld, h]

end Conduit

end Lib
