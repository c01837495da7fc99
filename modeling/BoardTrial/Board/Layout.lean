import BoardTrial.TokenMap
import BoardTrial.Board.Box

/-!
# Layouts

Which tokens are on a board, and where they start. Tokens stand in rows on a square grid.

This module models the two layouts of the program. Other layouts cannot be built in it either.
-/

namespace BoardTrial

/-- A kind of board. -/
inductive Layout where
  /-- Circles above squares, without sizes. -/
  | standard
  /-- Large circles and squares above small circles and squares. -/
  | twoSizes
  deriving DecidableEq

namespace Layout

/-- The colors of a row of circles. -/
def circleRow : List Color := [.red, .black, .yellow, .white, .green]

/-- The colors of a row of squares. -/
def squareRow : List Color := [.black, .red, .white, .green, .yellow]

/-- A row of circles above a row of squares, of one size. -/
def pair (z : Option Size) : List (List Token) :=
  [circleRow.map fun c => ⟨c, .circle, z⟩, squareRow.map fun c => ⟨c, .square, z⟩]

/-- The tokens of a board, row by row. -/
def rows : Layout → List (List Token)
  | standard => pair none
  | twoSizes => pair (some .large) ++ pair (some .small)

/-- The tokens of a board. -/
def tokens (l : Layout) : List Token := l.rows.flatten

/-- How wide and high a token is, in pixels. -/
def extent (t : Token) : Nat :=
  match t.size with
  | some .small => 100
  | _ => 150

/-- How far apart the corners of neighboring tokens are, in pixels. -/
def pitch : Nat := 210

/-- Each token with the corner where it starts: how far from the left, and how far from the top. -/
def corners (l : Layout) : List (Token × Nat × Nat) :=
  (l.rows.zipIdx.map fun (row, j) => row.zipIdx.map fun (t, i) => (t, i * pitch, j * pitch)).flatten

/-- The box in which each token starts. -/
def boxes (l : Layout) : List (Token × Box) :=
  l.corners.map fun (t, left, top) =>
    (t, ⟨left.toFloat, top.toFloat, (extent t).toFloat, (extent t).toFloat⟩)

end Layout

end BoardTrial
