import BoardTrial.TokenMap
import BoardTrial.Board.Box

/-!
# Releases

Where the tokens were when one of them was released. Three questions are asked of a release: has
the token come further from another, is it left of another, is it between two others. The answers
go by the centers of boxes. A token that has not been seen has a box without extent in the corner of
the screen.

This module models the snapshot of places that goes with a release, and the questions it answers.
-/

namespace BoardTrial

/-- A token was released. -/
structure Release where
  /-- The token that was released. -/
  token : Token
  /-- Its box when its drag started. -/
  before : Box
  /-- Its box when it was released. -/
  after : Box
  /-- The last known boxes of tokens. -/
  known : TokenMap Box

namespace Release

/-- The box of a token at the release: for the released one, where it was released. -/
def boxOf (r : Release) (t : Token) : Box :=
  if t = r.token then r.after else (r.known.get? t).getD .zero

/-- The distance between the centers of two tokens. -/
def distance (r : Release) (a b : Token) : Float := (r.boxOf a).center.distance (r.boxOf b).center

/-- The released token has come further from `t`. -/
def isFurtherFrom (r : Release) (t : Token) : Bool :=
  let p := (r.boxOf t).center
  decide (r.before.center.distance p < r.after.center.distance p)

/-- The released token is to the left of `t`. -/
def isLeftOf (r : Release) (t : Token) : Bool :=
  decide (r.after.center.x < (r.boxOf t).center.x)

/-- The released token is between `a` and `b`, from left to right or from right to left. -/
def isBetween (r : Release) (a b : Token) : Bool :=
  let x := r.after.center.x
  let xa := (r.boxOf a).center.x
  let xb := (r.boxOf b).center.x
  decide (smaller xa xb < x) && decide (x < larger xa xb)

end Release

end BoardTrial
