import BoardTrial.RuleText.Report
import BoardTrial.RuleText.Spelling
import BoardTrial.Text.Blank
import BoardTrial.Text.Lines

/-!
# Drawings

What the drawing of a diagnostic has to show, said without drawing it: the line and column where a
stretch of the text begins, as many strokes below the line as the stretch has characters, and the
message hung from one of them.

A renderer is documented to show just that of any stretch it is asked for (`Renderer.Documented`),
where the stretch is on one line and every character of the text takes one column. Of tabs, of wide
characters and of characters that end lines besides the newline nothing is assumed.
-/

namespace BoardTrial

/-- `Falls p q line column`: of the text `p ++ q`, what is behind `p` falls on that line and column,
both counted from one. A newline belongs to the line it ends, and the end of the text to the line of
the last character. -/
inductive Falls : List Char → List Char → Nat → Nat → Prop where
  /-- A text begins with its first line and column. -/
  | first (q : List Char) : Falls [] q 1 1
  /-- A character behind a newline begins a line. -/
  | line {p q : List Char} {c : Char} {line column : Nat} : Falls p ('\n' :: c :: q) line column →
      Falls (p ++ ['\n']) (c :: q) (line + 1) 1
  /-- Anything else is one column further. -/
  | column {p q : List Char} {c : Char} {line column : Nat} : (c = '\n' → q = []) →
      Falls p (c :: q) line column → Falls (p ++ [c]) q line (column + 1)

/-- The place of the characters `w` behind the characters `p`, in characters. -/
def Span.counted (p w : List Char) : Span := ⟨p.length, p.length + w.length⟩

/-- The characters are on one line: at most the last of them is a newline. -/
def OneLine (w : List Char) : Prop := '\n' ∉ w.dropLast

/-- The notice, which counts characters, is about a stretch of one line of the text. -/
def Notice.OnLine (src : String) (n : Notice) : Prop :=
  ∃ p w q, src.toList = p ++ w ++ q ∧ OneLine w ∧ n.place = .counted p w ∧
    n.label.span = .counted p w

/-! ### What a block shows -/

/-- `Underlines width hook u`: the strokes `u` are `width` columns wide, and the message hangs from
the one behind the first `hook`. Where there is no character a bar holds the message. -/
inductive Underlines : Nat → Nat → String → Prop where
  /-- The message hangs from one of the strokes. -/
  | strokes (a b : Nat) : Underlines (a + 1 + b) a (times a '─' ++ "┬" ++ times b '─')
  /-- No stroke. -/
  | bar : Underlines 0 0 "│"

/-- `Shows b title line column width content message`: the block `b` says what is wrong, and on
which line and column. It shows the line, and below it, from that column on, `width` strokes with
the message hung from one of them. -/
def Shows (b title : String) (line column width : Nat) (content message : String) : Prop :=
  ∃ margin before hook strokes after lead, margin = (toString line).length + 2 ∧
    column = before + 1 ∧ Underlines width hook strokes ∧ b = unlines [
      "Error: " ++ title,
      times margin ' ' ++ "╭─[ <unknown>:" ++ toString line ++ ":" ++ toString column ++ " ]",
      times margin ' ' ++ "│",
      " " ++ toString line ++ " │ " ++ content,
      times margin ' ' ++ "│ " ++ times before ' ' ++ strokes ++ times after ' ',
      times margin ' ' ++ "│ " ++ times (before + hook) ' ' ++ "╰" ++ times lead '─' ++ " " ++
        message,
      times margin '─' ++ "╯"]

/-- The line of the text with that number, without the blank characters it ends with. -/
def lineText (src : String) (line : Nat) : String :=
  String.ofList (trimRight ((linesOf src.toList).getD (line - 1) []))

namespace Renderer

/-- Every character of the text is drawn as it is, in one column, unless it ends a line: then it is
a newline, or a carriage return before one. -/
def IsPlain (R : Renderer) (src : String) : Prop :=
  ∀ p c q, src.toList = p ++ c :: q →
    R.isPlain c = true ∨ c = '\n' ∨ c = '\r' ∧ q.head? = some '\n'

/-- What a renderer is documented to do. -/
structure Documented (R : Renderer) : Prop where
  /-- Writing to memory comes to its end. -/
  written (src : String) (n : Notice) : (R.draw src n).2 = true
  /-- Places count characters, and a stretch of one line of a plain text is shown there. -/
  shows {src : String} {n : Notice} {p w q : List Char} {line column : Nat} :
    R.IsPlain src → src.toList = p ++ w ++ q → OneLine w → n.place = .counted p w →
    n.label.span = .counted p w → Falls p (w ++ q) line column →
    Shows (R.draw src n).1 n.title line column w.length (lineText src line) n.label.value

end Renderer

namespace Diagnostic

/-- The notice of the diagnostic, which counts characters, is about the characters that the
diagnostic is about, which counts bytes. -/
def Agrees (src : String) (d : Diagnostic) : Prop :=
  ∃ p w q, src.toList = p ++ w ++ q ∧ d.span = .behind p w ∧ d.notice.place = .counted p w ∧
    d.notice.label.span = .counted p w

/-- The block `b` shows the diagnostic of the text: where its stretch begins, each character of the
stretch underlined, and the message. -/
def Right (src : String) (d : Diagnostic) (b : String) : Prop :=
  ∃ p w q line column, src.toList = p ++ w ++ q ∧ d.span = .behind p w ∧
    Falls p (w ++ q) line column ∧
    Shows b d.notice.title line column w.length (lineText src line) d.value.message

end Diagnostic

end BoardTrial
