import BoardTrial.Token

/-!
# Gestures

What a participant does on the board, as the screen sees it.

This module models the gestures of the program.
-/

namespace BoardTrial

/-- Something done on the board. -/
inductive Gesture where
  /-- A token is clicked. -/
  | click (t : Token)
  /-- The drag of a token starts. -/
  | drag (t : Token)
  /-- What is dragged is dropped onto a token. -/
  | dropOn (t : Token)
  /-- What is dragged is dropped onto the holding area. -/
  | dropOnHoldingArea
  /-- A token is moved to another place. Nothing is told of it. -/
  | move (t : Token) (left top : Float)
  /-- A token is released. -/
  | release (t : Token)

namespace Gesture

/-- The token of a gesture, if it has one. -/
def token? : Gesture → Option Token
  | click t | drag t | dropOn t | move t _ _ | release t => some t
  | dropOnHoldingArea => none

/-- Whether the places of a gesture are numbers. -/
def isNumeric : Gesture → Bool
  | move _ left top => !left.isNaN && !top.isNaN
  | click _ | drag _ | dropOn _ | dropOnHoldingArea | release _ => true

end Gesture

end BoardTrial
