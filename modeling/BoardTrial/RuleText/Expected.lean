import BoardTrial.RuleText.Lexeme

/-!
# What may come next

The names a diagnostic gives to what could have stood where reading stopped: a lexeme, the end of
the text, or the part of a rule that could have begun there. `Expected.Admits` says which lexemes a
name stands for.

This module models the labels of the program's parsers, as they stand in its messages.
-/

namespace BoardTrial

/-- What could have come next. -/
inductive Expected where
  /-- This lexeme. -/
  | lexeme (l : Lexeme)
  /-- Nothing more. -/
  | endOfInput
  /-- A whole rule. -/
  | rule
  /-- The rule `nothing`. -/
  | nothing
  /-- The steps of a rule. -/
  | steps
  /-- One step. -/
  | step
  /-- One clause. -/
  | clause
  /-- One interaction. -/
  | interaction
  /-- A token. -/
  | token
  /-- A color. -/
  | color
  /-- A shape. -/
  | shape
  deriving DecidableEq

namespace Expected

/-- The name as diagnostics give it. A lexeme stands between backquotes. -/
def text : Expected → String
  | lexeme l => "`" ++ l.text ++ "`"
  | endOfInput => "end of input"
  | rule => "rule"
  | nothing => "nothing"
  | steps => "steps"
  | step => "step"
  | clause => "clause"
  | interaction => "interaction"
  | token => "token"
  | color => "color"
  | shape => "shape"

/-- The words an interaction can open with. -/
def openings : List Keyword := [.touch, .pick, .use, .move, .put]

/-- The lexeme can begin what is named. -/
def Admits : Expected → Lexeme → Prop
  | lexeme l, x => x = l
  | endOfInput, _ => False
  | rule, x => x = .newline ∨ x = .keyword .nothing ∨ ∃ k ∈ openings, x = .keyword k
  | nothing, x => x = .keyword .nothing
  | steps, x | step, x | clause, x | interaction, x => ∃ k ∈ openings, x = .keyword k
  | token, x => (∃ z, x = .size z) ∨ ∃ c, x = .color c
  | color, x => ∃ c, x = .color c
  | shape, x => ∃ s, x = .shape s

end Expected

end BoardTrial
