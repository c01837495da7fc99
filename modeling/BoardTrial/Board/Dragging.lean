import BoardTrial.Board.Gesture
import BoardTrial.Interaction

/-!
# Dragging

What gestures amount to, said without boxes: an automaton that remembers only which token is being
dragged, and whether it was dropped onto the holding area. A live board submits just what this
automaton does.
-/

namespace BoardTrial

/-- A token being dragged, and whether it was dropped onto the holding area. -/
abbrev Dragging := Option (Token × Bool)

namespace Dragging

/-- What is submitted. -/
structure Output where
  /-- The interaction. -/
  interaction : Interaction
  /-- Whether it is told where the tokens are. -/
  withBoxes : Bool := false
  deriving DecidableEq

/-- What a gesture with a token on the board does. -/
def step (d : Dragging) : Gesture → Dragging × Option Output
  | .click t => (d, some { interaction := .touch t })
  | .drag t => (some (t, false), none)
  | .dropOn u =>
    match d with
    | some (t, _) => (none, some { interaction := .useToTouch t u })
    | none => (none, none)
  | .dropOnHoldingArea => (d.map fun (t, _) => (t, true), none)
  | .move _ _ _ => (d, none)
  | .release t =>
    match d with
    | some (u, true) => (none, some { interaction := .pickUp u })
    | some (_, false) | none => (none, some ⟨.touch t, true⟩)

/-- What a sequence of gestures submits on a board with some tokens. -/
def run (present : Token → Bool) : Dragging → List Gesture → List Output
  | _, [] => []
  | d, g :: gs =>
    if g.token?.all present then
      let (d, o) := d.step g
      o.toList ++ run present d gs
    else run present d gs

end Dragging

end BoardTrial
