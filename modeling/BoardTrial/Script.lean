import BoardTrial.Script.Line
import BoardTrial.Text.Blank
import BoardTrial.Text.Lines

/-!
# Scripts

A script is a list of gestures, one on each line. Lines that are blank or start with `#` say nothing
but are counted. A script with a line that is no gesture says nothing at all.

This module models the reading of scripts.
-/

namespace BoardTrial

/-- The first line of a script that is no gesture. -/
structure ScriptError where
  /-- Which line it is, counted from one. -/
  line : Nat
  /-- What is wrong with it. -/
  problem : LineProblem
  deriving DecidableEq

namespace ScriptError

/-- The message for a bad line. -/
def message (e : ScriptError) : String := "line " ++ toString e.line ++ ": " ++ e.problem.message

end ScriptError

namespace Script

/-- Whether a line says nothing: it is blank, or `#` is its first character that is not. -/
def isSilent (l : List Char) : Bool :=
  match l.dropWhile isBlank with
  | [] => true
  | c :: _ => c == '#'

/-- The gesture on line number `n`. -/
def readLine (n : Nat) (l : List Char) : Except ScriptError Gesture :=
  (Gesture.read l).mapError (⟨n, ·⟩)

/-- The gestures on lines of which the first has number `n`. -/
def readLines (n : Nat) : List (List Char) → Except ScriptError (List Gesture)
  | [] => .ok []
  | l :: ls =>
    if isSilent (dropLineEnd l) then readLines (n + 1) ls
    else do
      let g ← readLine n (dropLineEnd l)
      return g :: (← readLines (n + 1) ls)

/-- The gestures of a script, or its first bad line. -/
def read (src : String) : Except ScriptError (List Gesture) := readLines 1 (linesOf src.toList)

end Script

end BoardTrial
