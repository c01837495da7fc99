import BoardTrial.Board.Gesture
import BoardTrial.Board.Layout

/-!
# What has been done on a board

Where the tokens are, which drag is in progress and when a token was last seen, read off the
gestures that have been made, of which the latest comes first. Nothing is stored. A gesture that
cannot be made, because its token is not on the board, says nothing.
-/

namespace BoardTrial

/-- Where a gesture moves token `t`, if it does. -/
def Gesture.movedTo? (t : Token) : Gesture → Option (Float × Float)
  | move u left top => if u = t then some (left, top) else none
  | _ => none

namespace Layout

/-- Whether a gesture can be made: not with a token that is not on the board. -/
def admits (l : Layout) (g : Gesture) : Bool := g.token?.all l.tokens.contains

/-- The box of a token after what has been done: as large as at the start, with its corner where the
token was moved last, or where it starts. A token that is not on the board has the zero box. -/
def boxAfter (l : Layout) (past : List Gesture) (t : Token) : Box :=
  match l.boxes.lookup t with
  | none => .zero
  | some start =>
    match past.findSome? (·.movedTo? t) with
    | none => start
    | some (left, top) => start.moveTo left top

/-- A drag that has not ended. -/
structure PendingDrag where
  /-- The token dragged. -/
  token : Token
  /-- What had been done when the drag started. -/
  earlier : List Gesture
  /-- Whether it was dropped onto the holding area. -/
  held : Bool

/-- The drag in progress. A drop onto a token ends it, and so does any release. -/
def pendingDrag (l : Layout) : List Gesture → Option PendingDrag
  | [] => none
  | g :: earlier =>
    if l.admits g then
      match g with
      | .drag t => some ⟨t, earlier, false⟩
      | .dropOn _ | .release _ => none
      | .dropOnHoldingArea => (l.pendingDrag earlier).map ({ · with held := true })
      | .click _ | .move _ _ _ => l.pendingDrag earlier
    else l.pendingDrag earlier

/-- Whether a token was dropped onto the holding area, so that the next release picks it up. -/
def isHeld (l : Layout) (past : List Gesture) : Bool := (l.pendingDrag past).any (·.held)

/-- Whether a gesture shows where token `u` is. A click, a drag and a drop onto a token show that
token, and a release that is a touch shows all that are on the board. A move shows nothing. -/
def sees (l : Layout) (earlier : List Gesture) (u : Token) (g : Gesture) : Bool :=
  l.admits g &&
    match g with
    | .click t | .drag t | .dropOn t => t == u
    | .release _ => l.tokens.contains u && !l.isHeld earlier
    | .dropOnHoldingArea | .move _ _ _ => false

/-- What had been done when token `u` was last seen, if it was. -/
def lastSeen (l : Layout) (u : Token) : List Gesture → Option (List Gesture)
  | [] => none
  | g :: earlier => if l.sees earlier u g then some earlier else l.lastSeen u earlier

/-- Where a token was before a release: where the drag in progress started if it is dragged,
otherwise where it was last seen, or if it never was, where it is. -/
def boxBefore (l : Layout) (past : List Gesture) (t : Token) : Box :=
  let whenSeen := ((l.lastSeen t past).map (l.boxAfter · t)).getD (l.boxAfter past t)
  match l.pendingDrag past with
  | some d => if d.token = t then l.boxAfter d.earlier t else whenSeen
  | none => whenSeen

end Layout

end BoardTrial
