/-!
# Boxes

The rectangles that tokens take up on the screen, in pixels, and where their centers are. A
coordinate that is not a number gives way to one that is.

This module models the boxes of tokens, with what the program uses of a geometry library: the center
of a rectangle and the distance of two points.
-/

namespace BoardTrial

/-- The smaller of two numbers; of a number and something that is none, the number. -/
def smaller (a b : Float) : Float :=
  if a.isNaN then b else if b < a then b else a

/-- The larger of two numbers; of a number and something that is none, the number. -/
def larger (a b : Float) : Float :=
  if a.isNaN then b else if a < b then b else a

/-- A place on the screen. -/
structure Point where
  /-- How far to the right. -/
  x : Float
  /-- How far down. -/
  y : Float

namespace Point

/-- The distance between two places. -/
def distance (p q : Point) : Float :=
  let dx := p.x - q.x
  let dy := p.y - q.y
  (dx * dx + dy * dy).sqrt

end Point

/-- The box of a token. The width or height may be negative: then the box extends to the left of
its corner, or above it. -/
structure Box where
  /-- Where the corner is, from the left. -/
  left : Float := 0
  /-- Where the corner is, from the top. -/
  top : Float := 0
  /-- How wide the box is. -/
  width : Float := 0
  /-- How high the box is. -/
  height : Float := 0

namespace Box

/-- The box of a token that has not been seen. -/
def zero : Box := {}

/-- A box of the same size with its corner at another place. -/
def moveTo (b : Box) (left top : Float) : Box := { b with left, top }

/-- The upper left corner of the area. -/
def low (b : Box) : Point := ⟨smaller b.left (b.left + b.width), smaller b.top (b.top + b.height)⟩

/-- The lower right corner of the area. -/
def high (b : Box) : Point := ⟨larger b.left (b.left + b.width), larger b.top (b.top + b.height)⟩

/-- The middle of the area. -/
def center (b : Box) : Point := ⟨0.5 * (b.low.x + b.high.x), 0.5 * (b.low.y + b.high.y)⟩

end Box

end BoardTrial
