import BoardTrial.RuleText.Report
import BoardTrial.Text.Blank
import BoardTrial.Text.Lines

/-!
# Sketches

A renderer for plain texts: a heading with the line and column, the line itself, the stretch
underlined, and the message hung below the underline. It is as good as any where each character
takes one column and only newlines end lines. It minds neither tabs nor characters of other widths,
and leaves out what does not end in the text.

It stands in for the library that draws reports where the program is run, and shows that what is
assumed of a renderer can be met (`Renderer.documented_sketch`). What is proved of reports holds of
any renderer.
-/

namespace BoardTrial

/-- A position in a text, line by line, counted from zero. -/
structure LinePosition where
  /-- The number of the line. -/
  line : Nat
  /-- How many characters of the line are before the position. -/
  column : Nat
  /-- The line, with the newline that ends it. -/
  content : List Char
  deriving DecidableEq

/-- Where the position `n` falls. The end of the text, and anything past it, falls on the last
line. -/
def locate (n : Nat) : List (List Char) → LinePosition
  | [] => ⟨0, n, []⟩
  | [l] => ⟨0, n, l⟩
  | l :: ls =>
    if n < l.length then ⟨0, n, l⟩
    else
      let p := locate (n - l.length) ls
      { p with line := p.line + 1 }

namespace Sketch

/-- The column of an underline of `width` columns from which the message hangs. -/
def hook (column width : Nat) : Nat := (column + column + width) / 2

/-- A stretch underlined; an empty one is marked by a bar. -/
def underline (column width : Nat) : String :=
  times column ' ' ++
    if width = 0 then "│ "
    else
      let before := hook column width - column
      times before '─' ++ "┬" ++ times (width - before - 1) '─' ++ "  "

/-- The message below an underline. -/
def hanging (column width : Nat) (message : String) : String :=
  let m := hook column width
  times m ' ' ++ "╰" ++ times (column + width + 2 - (m + 1)) '─' ++ " " ++ message

/-- The rows that show the line at `p` and what is wrong in it. A stretch that runs past the end of
the text is not drawn. -/
def rows (margin number : String) (p : LinePosition) (width : Nat) (fits : Bool)
    (message : String) : List String :=
  if fits then
    [" " ++ number ++ " │ " ++ String.ofList (trimRight p.content),
      margin ++ "│ " ++ underline p.column width,
      margin ++ "│ " ++ hanging p.column width message]
  else [margin ++ "│ "]

/-- The drawing of a notice. -/
def block (src : String) (n : Notice) : String :=
  let lines := linesOf src.toList
  let place := locate n.place.start lines
  let p := locate n.label.span.start lines
  let number := toString (p.line + 1)
  let margin := times (number.length + 2) ' '
  unlines <|
    ["Error: " ++ n.title,
      margin ++ "╭─[ <unknown>:" ++ toString (place.line + 1) ++ ":" ++
        toString (place.column + 1) ++ " ]",
      margin ++ "│"] ++
    rows margin number p n.label.span.length (decide (n.label.span.stop ≤ src.length))
      n.label.value ++
    [times (number.length + 2) '─' ++ "╯"]

end Sketch

/-- Sketches notices. The visible characters of ASCII and the letters of Latin-1 are plain. -/
def Renderer.sketch : Renderer where
  draw src n := (Sketch.block src n, true)
  isPlain c := (' ' ≤ c && c ≤ '~') || ('À' ≤ c && c ≤ 'ÿ')

/-- The report of what is wrong with a text. -/
def report (src : String) (ds : List Diagnostic) : String := Renderer.sketch.report src ds

end BoardTrial
