import BoardTrial.Board
import BoardTrial.Matching.Evidence

/-!
# From gestures to interactions

A recognizer listens to the notifications of a board and says which interactions they amount to.

* A click is a touch.
* A drag that ends on another token is a use of the dragged token to touch the other.
* A drag that goes to the holding area is a pick-up once the token is released.
* Any other release is a touch, told with where the tokens are.

It remembers the drag in progress, and the box each token had when it last took part in something.

This module models the controller between a board and a matcher, apart from both: what it hears,
looks up and submits. Not modelled: what it logs, such as warnings of notifications that it drops.
-/

namespace BoardTrial

/-- A drag in progress. -/
structure Drag where
  /-- The token dragged. -/
  token : Token
  /-- Its box when the drag started. -/
  origin : Box
  /-- Whether it was dropped onto the holding area. -/
  held : Bool

/-- What has been made of the notifications so far. -/
structure Recognizer where
  /-- The drag in progress. -/
  drag : Option Drag := none
  /-- The last known boxes of tokens. -/
  known : TokenMap Box := .empty

namespace Recognizer

/-- The last known box of a token; one that has not been seen has the zero box. -/
def knownBox (re : Recognizer) (t : Token) : Box := (re.known.get? t).getD .zero

/-- Takes note of the box of a token. -/
def observe (re : Recognizer) (b : Board) (t : Token) : Recognizer :=
  { re with known := re.known.insert t (b.boxOf t) }

/-- Takes note of the boxes of several tokens. -/
def observeAll (re : Recognizer) (b : Board) (ts : List Token) : Recognizer :=
  ts.foldl (fun re t => re.observe b t) re

/-- Where a token was before it was released: where its drag started, or if no drag of it is in
progress, where it was last known to be. -/
def boxBefore (re : Recognizer) (b : Board) (t : Token) : Box :=
  let lastKnown := (re.known.get? t).getD (b.boxOf t)
  match re.drag with
  | some d => if d.token = t then d.origin else lastKnown
  | none => lastKnown

/-- A token was released and is not picked up: it was touched. All tokens are seen then, the
released one last. -/
def touchReleased (re : Recognizer) (b : Board) (t : Token) : Recognizer × Submission :=
  let seen := ({ re with drag := none }.observeAll b (b.tokens.filter (· ≠ t))).observe b t
  (seen, ⟨.touch t, some ⟨t, re.boxBefore b t, b.boxOf t, seen.known⟩⟩)

/-- Hears a notification of board `b`: what is submitted, if anything. A notification is dropped
if the board names no token for it. -/
def notify (re : Recognizer) (b : Board) : Notification → Recognizer × Option Submission
  | .clicked =>
    match b.clicked with
    | none => (re, none)
    | some t => (re.observe b t, some { interaction := .touch t })
  | .dragged =>
    match b.dragged with
    | none => (re, none)
    | some t => ({ re.observe b t with drag := some ⟨t, b.boxOf t, false⟩ }, none)
  | .droppedOnToken =>
    match b.droppedOn with
    | none => (re, none)
    | some u =>
      let seen := re.observe b u
      match re.drag with
      | none => (seen, none)
      | some d => ({ seen with drag := none }, some { interaction := .useToTouch d.token u })
  | .droppedOnHoldingArea => ({ re with drag := re.drag.map ({ · with held := true }) }, none)
  | .released =>
    match re.drag.filter (·.held) with
    | some d => ({ re with drag := none }, some { interaction := .pickUp d.token })
    | none =>
      match b.released with
      | none => (re, none)
      | some t =>
        let (seen, s) := re.touchReleased b t
        (seen, some s)

end Recognizer

end BoardTrial
