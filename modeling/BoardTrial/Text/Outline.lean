/-!
# Outlines

A value written out by its constructors, on one line or one item to a line. Only the shape is kept
here; `BoardTrial.Text.Listing` says what the outline of a token, an interaction or a rule is.

This module stands for the printing of values for debugging in the standard library.
-/

namespace BoardTrial

/-- The brackets around the items of a group. -/
inductive Bracket where
  | round | square | curly
  deriving DecidableEq

namespace Bracket

/-- The left bracket. -/
def left : Bracket → String
  | round => "("
  | square => "["
  | curly => "\x7b"

/-- The right bracket. -/
def right : Bracket → String
  | round => ")"
  | square => "]"
  | curly => "\x7d"

/-- What stands between a bracket and an item on the same line. -/
def gap : Bracket → String
  | round | square => ""
  | curly => " "

end Bracket

/-- A value written out. -/
inductive Outline where
  /-- A word. -/
  | atom (text : String)
  /-- A labelled value. -/
  | field (label : String) (value : Outline)
  /-- Items in brackets, with what stands before the left bracket. -/
  | group (head : String) (bracket : Bracket) (items : List Outline)

namespace Outline

mutual

/-- The outline on one line, a comma between items. -/
def line : Outline → String
  | atom s => s
  | field l v => l ++ ": " ++ v.line
  | group h b [] => h ++ b.left ++ b.right
  | group h b (x :: xs) => h ++ b.left ++ b.gap ++ x.line ++ linesAfter xs ++ b.gap ++ b.right

/-- The items after the first, on one line. -/
def linesAfter : List Outline → String
  | [] => ""
  | x :: xs => ", " ++ x.line ++ linesAfter xs

end

/-- The blanks before an item inside `depth` brackets, four for each. -/
def margin (depth : Nat) : String := "".pushn ' ' (4 * depth)

mutual

/-- The outline with each item on a line of its own, followed by a comma, inside `depth` brackets.
The first line has no margin. -/
def block (depth : Nat) : Outline → String
  | atom s => s
  | field l v => l ++ ": " ++ v.block depth
  | group h b [] => h ++ b.left ++ b.right
  | group h b (x :: xs) =>
    h ++ b.left ++ "\n" ++ blocks (depth + 1) (x :: xs) ++ margin depth ++ b.right

/-- Items, each on its own lines. -/
def blocks (depth : Nat) : List Outline → String
  | [] => ""
  | x :: xs => margin depth ++ x.block depth ++ ",\n" ++ blocks depth xs

end

end Outline

end BoardTrial
