import Mathlib.Logic.Relation

/-! A text cursor on a grid of `w` columns and `h` rows that scrolls at its end. -/

namespace BottlerOS.TextGrid

/-- A place on the grid. -/
@[ext] structure Cell (w h : Nat) where
  x : Nat
  y : Nat
  column : x < w
  row : y < h
  deriving DecidableEq

namespace Cell
variable {w h : Nat}

/-- The first column of the next row; the last row scrolls. -/
def newLine (c : Cell w h) : Cell w h :=
  ⟨0, min (c.y + 1) (h - 1), Nat.zero_lt_of_lt c.column, by have := c.row; omega⟩

/-- One place on, over the end of the row. -/
def advance (c : Cell w h) : Cell w h :=
  if room : c.x + 1 < w then { c with x := c.x + 1, column := room } else c.newLine

/-- One place back within the row. -/
def back (c : Cell w h) : Cell w h :=
  { c with x := c.x - 1, column := Nat.lt_of_le_of_lt (Nat.sub_le ..) c.column }

def home (c : Cell w h) : Cell w h :=
  ⟨0, 0, Nat.zero_lt_of_lt c.column, Nat.zero_lt_of_lt c.row⟩

/-- Whether one place back is the end of an earlier row. -/
def AtEdge (c : Cell w h) : Prop := c.x = 0 ∧ 0 < c.y

instance (c : Cell w h) : Decidable c.AtEdge := inferInstanceAs (Decidable (_ ∧ _))

end Cell

end BottlerOS.TextGrid
