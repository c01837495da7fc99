import BoardTrial.Board.Gesture
import BoardTrial.Text.Decimal
import BoardTrial.Text.Word

/-!
# Gestures in writing

A gesture written on a line, such as `drop on holding area` or `move red circle to 420 60`. Words
are separated by spaces and tabs. Reading goes from left to right and stops at the first character
that cannot follow what was read; the problem names what could have stood there.

This module models the parser for one gesture in writing, with its messages. The program puts it
together from combinators, as it does its parser for rules.
-/

namespace BoardTrial

/-- What could have stood where reading a line stopped. -/
inductive Wanted where
  /-- This character. -/
  | char (c : Char)
  /-- Any character at all. -/
  | any
  /-- A word. -/
  | identifier
  /-- The name of a token. -/
  | token
  /-- A number. -/
  | pixels
  /-- A digit other than zero. -/
  | nonZeroDigit
  /-- Nothing more. -/
  | endOfInput
  deriving DecidableEq

namespace Wanted

/-- The name of what was wanted. A character stands between quotes. -/
def text : Wanted → String
  | char c => "'" ++ c.toString ++ "'"
  | any => "any"
  | identifier => "identifier"
  | token => "token"
  | pixels => "pixels"
  | nonZeroDigit => "non-zero digit"
  | endOfInput => "end of input"

/-- A list of things of which one was wanted: a comma after each but the last. -/
def listing : List Wanted → String
  | [] => ""
  | [w] => w.text
  | w :: ws => w.text ++ ", " ++ go ws
where
  /-- The things after the first. -/
  go : List Wanted → String
    | [] => ""
    | [w] => "or " ++ w.text
    | w :: ws => w.text ++ ", " ++ go ws

end Wanted

/-- Why a line is no gesture. -/
inductive LineProblem where
  /-- A character, or the end of the line, cannot follow. -/
  | unexpected (found : Option Char) (wanted : List Wanted)
  /-- A word is none of those that can stand there. -/
  | unknownWord (w : String)
  deriving DecidableEq

namespace LineProblem

/-- The message for a problem. -/
def message : LineProblem → String
  | unexpected none ws => "found end of input expected " ++ Wanted.listing ws
  | unexpected (some c) ws => "found '" ++ c.toString ++ "' expected " ++ Wanted.listing ws
  | unknownWord w => BoardTrial.unknownWord w

end LineProblem

namespace Line

/-- Reading stops before the characters `cs`. -/
def stop {α : Type} (cs : List Char) (ws : List Wanted) : Except LineProblem α :=
  .error (.unexpected cs.head? ws)

/-! ### Blanks -/

/-- The characters between words. -/
def isGap (c : Char) : Bool := c == ' ' || c == '\t'

/-- The characters around a gesture. -/
def isPadding (c : Char) : Bool := isGap c || c == '\r'

/-- A gap, as what was wanted. -/
def gapWanted : List Wanted := [.char ' ', .char '\t']

/-- Padding, as what was wanted. -/
def paddingWanted : List Wanted := [.char ' ', .char '\t', .char '\r']

/-- Reads the gap between two words: the characters left. -/
def gap : List Char → Except LineProblem (List Char)
  | [] => stop [] gapWanted
  | c :: cs => if isGap c then .ok (cs.dropWhile isGap) else stop (c :: cs) gapWanted

/-! ### Words -/

/-- What is left of the words that go on with `c`. -/
def goOn {α : Type} (c : Char) (words : List (List Char × α)) : List (List Char × α) :=
  words.filterMap fun
    | (d :: ds, a) => if d = c then some (ds, a) else none
    | ([], _) => none

/-- Reads one of some fixed words, none of which begins another. Where the word starts, `before`
could stand as well. -/
def choose {α : Type} (before : List Wanted) (words : List (List Char × α)) (cs : List Char) :
    Except LineProblem (α × List Char) :=
  match words.find? (·.1.isEmpty) with
  | some (_, a) => .ok (a, cs)
  | none =>
    let wanted := before ++ ((words.filterMap (·.1.head?)).eraseDups.map .char)
    match cs with
    | [] => stop [] wanted
    | c :: rest =>
      match goOn c words with
      | [] => stop (c :: rest) wanted
      | w :: ws => choose [] (w :: ws) rest

/-- Reads a fixed word: the characters left. -/
def fixed (before : List Wanted) (w : String) (cs : List Char) : Except LineProblem (List Char) :=
  (·.2) <$> choose before [(w.toList, ())] cs

/-- Reads a word for which `ofWord?` has a value. -/
def named {α : Type} (ofWord? : String → Option α) :
    List Char → Except LineProblem (α × List Char)
  | [] => stop [] [.any]
  | c :: cs =>
    if isWordStart c then
      let w := String.ofList (c :: cs.takeWhile isWordChar)
      match ofWord? w with
      | some a => .ok (a, cs.dropWhile isWordChar)
      | none => .error (.unknownWord w)
    else stop (c :: cs) [.identifier]

/-! ### Tokens -/

/-- Reads the color and shape of a token whose size is `z`. -/
def colorAndShape (z : Option Size) (cs : List Char) : Except LineProblem (Token × List Char) := do
  let (c, cs) ← named Color.ofWord? cs
  let cs ← gap cs
  let (s, cs) ← named Shape.ofWord? cs
  return (⟨c, s, z⟩, cs)

/-- Reads the name of a token. Where it starts, the characters in `also` could stand as well. -/
def token (also : List Wanted) (cs : List Char) : Except LineProblem (Token × List Char) :=
  match named Size.ofWord? cs, named Color.ofWord? cs with
  | .ok (z, cs), _ => do colorAndShape (some z) (← gap cs)
  | _, .ok _ => colorAndShape none cs
  | _, _ => stop cs (gapWanted ++ also ++ [.token])

/-! ### Numbers -/

/-- Reads the digits before the point: zero alone, or digits that start with another. -/
def whole (wanted : List Wanted) : List Char → Except LineProblem (List Char × List Char)
  | [] => stop [] wanted
  | c :: cs =>
    if c = '0' then .ok ([c], cs)
    else if c.isDigit then .ok (c :: cs.takeWhile Char.isDigit, cs.dropWhile Char.isDigit)
    else stop (c :: cs) wanted

/-- Reads a point and the digits behind it. A point without digits is not read. -/
def fraction : List Char → List Char × List Char
  | '.' :: d :: cs =>
    if d.isDigit then (d :: cs.takeWhile Char.isDigit, cs.dropWhile Char.isDigit)
    else ([], '.' :: d :: cs)
  | cs => ([], cs)

/-- Reads a number. -/
def pixels (cs : List Char) : Except LineProblem (Decimal × List Char) := do
  let negative := cs.head? = some '-'
  let digits := if negative then cs.tail else cs
  let wanted :=
    if negative then [if digits.isEmpty then .any else .nonZeroDigit, .char '0']
    else gapWanted ++ [.pixels]
  let (w, cs) ← whole wanted digits
  let (f, cs) := fraction cs
  return (⟨negative, w, f⟩, cs)

/-! ### Gestures -/

/-- The words a gesture can start with. -/
inductive Verb where
  | click | drag | drop | move | release
  deriving DecidableEq

/-- How the verbs are written. -/
def verbs : List (List Char × Verb) :=
  [("click".toList, .click), ("drag".toList, .drag), ("drop".toList, .drop),
    ("move".toList, .move), ("release".toList, .release)]

/-- Reads what follows a verb and the gap behind it. -/
def object (v : Verb) (cs : List Char) : Except LineProblem (Gesture × List Char) :=
  match v with
  | .click => do
    let (t, cs) ← token [] cs
    return (.click t, cs)
  | .drag => do
    let (t, cs) ← token [] cs
    return (.drag t, cs)
  | .release => do
    let (t, cs) ← token [] cs
    return (.release t, cs)
  | .drop => do
    let cs ← gap (← fixed gapWanted "on" cs)
    if cs.head? = some 'h' then
      let cs ← gap (← fixed [] "holding" cs)
      let cs ← fixed gapWanted "area" cs
      return (.dropOnHoldingArea, cs)
    else
      let (t, cs) ← token [.char 'h'] cs
      return (.dropOn t, cs)
  | .move => do
    let (t, cs) ← token [] cs
    let cs ← gap (← fixed gapWanted "to" (← gap cs))
    let (left, cs) ← pixels cs
    let (top, cs) ← pixels (← gap cs)
    return (.move t left.toFloat top.toFloat, cs)

end Line

/-- The gesture written on a line, or why there is none. -/
def Gesture.read (line : List Char) : Except LineProblem Gesture := do
  let (v, cs) ← Line.choose Line.paddingWanted Line.verbs (line.dropWhile Line.isPadding)
  let (g, cs) ← Line.object v (← Line.gap cs)
  match cs.dropWhile Line.isPadding with
  | [] => return g
  | c :: cs => Line.stop (c :: cs) (Line.paddingWanted ++ [.endOfInput])

end BoardTrial
