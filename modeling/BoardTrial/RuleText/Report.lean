import BoardTrial.RuleText.Diagnostic

/-!
# Reports

What is wrong with a text is drawn into it, one diagnostic after another. The drawing is done by a
renderer, which is not part of the program and of which nothing is said here: any function that is
given a text and a notice of what to draw, and writes something. What can be relied on is in
`BoardTrial.RuleText.Drawing`, and `BoardTrial.RuleText.Sketch` has a renderer to run.

The places of a notice are those of the diagnostic, which counts bytes. A renderer counts characters
unless it is told to count bytes, and it is not told so.

This module models the program's report up to the library that draws it.
-/

namespace BoardTrial

/-- What a renderer is asked to draw into a text, as an error and without colors. -/
structure Notice where
  /-- What is wrong with the text. -/
  title : String
  /-- The stretch of the text that the notice is about. -/
  place : Span
  /-- A stretch to be underlined, and what is said of it. -/
  label : Located String
  deriving DecidableEq

/-- Draws notices into texts. -/
structure Renderer where
  /-- Draws a notice into a text: what has been written, and whether the writing came to its end. -/
  draw : String → Notice → String × Bool
  /-- The characters that are drawn as they are, in one column each. -/
  isPlain : Char → Bool

/-- The notice that tells of a diagnostic. -/
def Diagnostic.notice (d : Diagnostic) : Notice :=
  ⟨"malformed rule", d.span, ⟨d.value.message, d.span⟩⟩

/-- The drawings of all diagnostics of a text, one after another, up to the first whose writing
fails. -/
def Renderer.report (R : Renderer) (src : String) : List Diagnostic → String
  | [] => ""
  | d :: ds =>
    match R.draw src d.notice with
    | (block, true) => block ++ R.report src ds
    | (block, false) => block

end BoardTrial
