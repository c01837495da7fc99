import BoardTrial.Board.Gesture
import BoardTrial.Board.Layout

/-!
# Boards

A board keeps the boxes of its tokens, and for each kind of gesture the token it was last made with.
A gesture changes the board and is told by a notification, which names no token: whoever listens
looks it up on the board.

This module models the board that the program keeps in memory in place of a screen. Not modelled:
the warnings it logs of gestures that cannot be made.
-/

namespace BoardTrial

/-- What is told of a gesture. -/
inductive Notification where
  /-- A token was clicked. -/
  | clicked
  /-- The drag of a token started. -/
  | dragged
  /-- Something was dropped onto a token. -/
  | droppedOnToken
  /-- Something was dropped onto the holding area. -/
  | droppedOnHoldingArea
  /-- A token was released. -/
  | released
  deriving DecidableEq

/-- The tokens on a board, and those the last gestures were made with. -/
structure Board where
  /-- The boxes of the tokens on the board. -/
  boxes : TokenMap Box := .empty
  /-- The token clicked last. -/
  clicked : Option Token := none
  /-- The token whose drag started last. -/
  dragged : Option Token := none
  /-- The token onto which something was dropped last. -/
  droppedOn : Option Token := none
  /-- The token released last. -/
  released : Option Token := none

namespace Board

/-- A board on which nothing has been done. -/
def ofLayout (l : Layout) : Board := { boxes := .ofList l.boxes }

/-- The tokens on the board. -/
def tokens (b : Board) : List Token := b.boxes.tokens

/-- Whether a token is on the board. -/
def contains (b : Board) (t : Token) : Bool := (b.boxes.get? t).isSome

/-- The box of a token; a token that is not on the board has the zero box. -/
def boxOf (b : Board) (t : Token) : Box := (b.boxes.get? t).getD .zero

/-- Whether a gesture can be made on the board: not with a token that is not there. -/
def admits (b : Board) (g : Gesture) : Bool := g.token?.all b.contains

/-- The board after a gesture, and what is told of it. A gesture that cannot be made does
nothing. -/
def apply (b : Board) (g : Gesture) : Board × Option Notification :=
  if b.admits g then
    match g with
    | .click t => ({ b with clicked := some t }, some .clicked)
    | .drag t => ({ b with dragged := some t }, some .dragged)
    | .dropOn t => ({ b with droppedOn := some t }, some .droppedOnToken)
    | .dropOnHoldingArea => (b, some .droppedOnHoldingArea)
    | .move t left top =>
      ({ b with boxes := b.boxes.insert t ((b.boxOf t).moveTo left top) }, none)
    | .release t => ({ b with released := some t }, some .released)
  else (b, none)

end Board

end BoardTrial
