import BoardTrial.Board.Recognizer
import BoardTrial.Matching.Matcher

/-!
# Live boards

A board, a recognizer that listens to it, and a judge that takes what is submitted. Nothing that the
judge answers comes back to the board or to the recognizer.

This module models the controller together with its board and the model behind it, which may be
anything that answers (`Judge`). A trial has a matcher there.
-/

namespace BoardTrial

/-- Something that takes submissions. -/
class Judge (J : Type) where
  /-- Takes a submission: what it did, and the judge afterwards. -/
  submit : J → Submission → Offer × J

instance : Judge Referee := ⟨Referee.submit⟩

/-- A judge, and a record of what it was given. -/
structure Recorded (J : Type) where
  /-- The judge. -/
  judge : J
  /-- What it was given, in the order in which it was. -/
  log : List Submission := []

/-- The record changes nothing for the judge. -/
instance {J : Type} [Judge J] : Judge (Recorded J) where
  submit r s :=
    let (o, judge) := Judge.submit r.judge s
    (o, ⟨judge, r.log ++ [s]⟩)

/-- A board whose gestures reach a judge. -/
structure LiveBoard (J : Type) where
  /-- The board. -/
  board : Board
  /-- What has been made of its notifications. -/
  recognizer : Recognizer := {}
  /-- The judge. -/
  judge : J

namespace LiveBoard

variable {J : Type} [Judge J]

/-- A live board on which nothing has been done. -/
def start (l : Layout) (judge : J) : LiveBoard J := { board := .ofLayout l, judge }

/-- Hears a notification: what the judge said, if something was submitted. -/
def notify (b : LiveBoard J) (n : Notification) : Option Offer × LiveBoard J :=
  match b.recognizer.notify b.board n with
  | (recognizer, none) => (none, { b with recognizer })
  | (recognizer, some s) =>
    let (o, judge) := Judge.submit b.judge s
    (some o, { b with recognizer, judge })

/-- Makes a gesture on the board: what the judge said, if something was submitted. -/
def perform (b : LiveBoard J) (g : Gesture) : Option Offer × LiveBoard J :=
  match b.board.apply g with
  | (board, none) => (none, { b with board })
  | (board, some n) => notify { b with board } n

/-- Makes gestures on the board one after another. -/
def performAll (b : LiveBoard J) (gs : List Gesture) : LiveBoard J :=
  gs.foldl (fun b g => (b.perform g).2) b

end LiveBoard

/-- A trial: a board whose gestures reach a matcher. -/
abbrev Trial := LiveBoard Referee

namespace Trial

/-- A trial in which nothing has been done. -/
def start (l : Layout) (r : Rule) (e : Evidence) : Trial :=
  { board := .ofLayout l, judge := .ofRule r e }

/-- Whether the result has been handed out. -/
def isConcluded (t : Trial) : Bool := t.judge.matcher.concluded

/-- Gives the trial up. -/
def expire (t : Trial) : Trial := { t with judge := t.judge.expire.2 }

end Trial

end BoardTrial
