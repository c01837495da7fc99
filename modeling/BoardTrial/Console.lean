import BoardTrial.RuleText.Sketch
import BoardTrial.Session

/-!
# The console

A conversation in which rules are entered and then played on a board. The conversation is a machine
that takes one line after another and says what to print. The names of trials come from outside. The
machine knows no time: where it is to be printed there is a gap (`Piece.elapsed`).

This module models the program that holds the conversation: what it prints, colors among it, and on
which stream. Not modelled: the setting up of the log, and errors of reading and writing.
-/

namespace BoardTrial

/-- A piece of what the console prints. -/
inductive Piece where
  /-- Text for the output. -/
  | out (s : String)
  /-- Text for the error output. -/
  | err (s : String)
  /-- The milliseconds since the trial started, for the output. -/
  | elapsed

namespace Console

/-! ### Colors -/

/-- How a piece of text is shown on a terminal. -/
inductive Style where
  | bold | red | green | yellow | blue | magenta | cyan
  deriving DecidableEq

namespace Style

/-- The escape sequence that turns a style on. -/
def code : Style → String
  | bold => "\x1b[1m"
  | red => "\x1b[31m"
  | green => "\x1b[32m"
  | yellow => "\x1b[33m"
  | blue => "\x1b[34m"
  | magenta => "\x1b[35m"
  | cyan => "\x1b[36m"

/-- The escape sequence that turns all styles off. -/
def reset : String := "\x1b[0m"

end Style

/-- Text in some styles. -/
def styled (styles : List Style) (s : String) : String :=
  String.join (styles.map Style.code) ++ s ++ Style.reset

/-! ### Fixed texts -/

/-- A form of rule and what it asks for, the meanings below each other. -/
def ruleForm (form meaning : String) : String :=
  "  " ++ styled [.yellow] form ++ "".pushn ' ' (33 - form.length) ++ meaning ++ "\n"

/-- The forms a rule can have. -/
def ruleForms : List (String × String) :=
  [("nothing", "Expect no interaction"),
    ("touch A", "Touch a token"),
    ("pick up A", "Drop a token in the holding area"),
    ("use A to touch B", "Drop one token onto another"),
    ("move A away from B", "Move a token further from another"),
    ("put A left of B", "Place a token left of another"),
    ("put A between B and C", "Place a token between two others"),
    ("a, b", "Both, in any order"),
    ("a or b", "Either one"),
    ("one step per line", "Steps happen in order")]

/-- What is printed before anything is entered. -/
def banner : String :=
  styled [.bold, .cyan] "Welcome to the \"Token Board REPL\"!" ++ "\n\n" ++
  styled [.blue] "Enter a rule, one step per line, and finish it with an empty line." ++ "\n" ++
  styled [.blue] "Then play gestures on the board until the rule is satisfied." ++ "\n\n" ++
  styled [.green] "For example:" ++ "\n" ++
  "  " ++ styled [.magenta] "touch red square, touch yellow circle" ++ "\n" ++
  "  " ++ styled [.magenta] "pick up white circle" ++ "\n\n" ++
  styled [.bold, .cyan] "Rule Syntax:" ++ "\n\n" ++
  String.join (ruleForms.map fun f => ruleForm f.1 f.2) ++ "\n" ++
  styled [.bold, .cyan] "Gestures:" ++ "\n\n" ++
  "  " ++ styled [.green] "click A" ++ "\n" ++
  "  " ++ styled [.green] "drag A" ++ "\n" ++
  "  " ++ styled [.green] "drop on B" ++ " / " ++ styled [.green] "drop on holding area" ++ "\n" ++
  "  " ++ styled [.green] "move A to <left> <top>" ++ "\n" ++
  "  " ++ styled [.green] "release A" ++ "\n\n" ++
  Style.blue.code ++ "Tokens are written as [size] color shape, e.g. " ++
    Style.yellow.code ++ "small red circle" ++ Style.reset ++ "." ++ "\n" ++
  styled [.blue] "Use 'board' to list starting positions, 'exit' to abandon a trial." ++ "\n\n"

/-- The list of tokens and the corners where they start. -/
def listing (l : Layout) : String :=
  let rule := "==========================\n"
  let row := fun ((t, left, top) : Token × Nat × Nat) =>
    styled [.blue] ("    " ++ t.text) ++ ": starts at (" ++ toString left ++ ", " ++
      toString top ++ ")\n"
  rule ++ String.join (l.corners.map row) ++ rule

/-- What is printed of a result. -/
def resultPieces (r : TrialResult) : List Piece :=
  [.out (styled [.bold, .green] ("Trial " ++ r.outcome.word ++ "!") ++ "\n"),
    .out (Style.blue.code ++ "Accepted " ++ toString r.accepted.length ++
      " interaction(s) out of " ++ toString r.submissions ++ " submitted in "),
    .elapsed,
    .out (" ms." ++ Style.reset ++ "\n"),
    .out (String.join (r.accepted.map fun i => styled [.yellow] ("    " ++ i.text) ++ "\n"))]

/-- What is printed of an offer. -/
def offerPieces : Option Offer → List Piece
  | none => []
  | some .ignored => [.out (styled [.yellow] "Nothing pending matched." ++ "\n")]
  | some .advanced => [.out (styled [.green] "Progress made." ++ "\n")]
  | some .completed => [.out (styled [.green] "Step completed." ++ "\n")]

/-! ### The conversation -/

/-- What the next line is read as. -/
inductive Mode where
  /-- A line of a rule; `text` holds the lines before it. -/
  | rule (text : String)
  /-- The gesture on line number `line` of the trial called `name`. -/
  | play (name : String) (session : Session) (line : Nat)

/-- What is printed before a line is read. -/
def Mode.prompt : Mode → String
  | rule _ => Style.bold.code ++ Style.magenta.code ++ "> " ++ Style.reset
  | play _ _ _ => ">> "

/-- A rule is asked for. -/
def askForRule : Mode × List Piece :=
  (.rule "", [.out (styled [.bold, .cyan] "Enter a rule:" ++ "\n")])

/-- A rule has been entered: if it can be read, a trial called `name` starts. -/
def beginTrial (l : Layout) (name text : String) : Mode × List Piece :=
  match Session.ofText l text none with
  | .ok s =>
    (.play name s 1, [.out (styled [.green] ("Trial " ++ name ++ " started, go ahead.") ++ "\n")])
  | .error ds =>
    let (mode, pieces) := askForRule
    (mode, [.err (report text ds), .out (styled [.yellow] "Rule invalid, try again." ++ "\n")] ++
      pieces)

/-- What is printed of a trial that has stopped, and what comes after it. -/
def endTrial (name : String) (s : Session) : Mode × List Piece :=
  let told :=
    match s.finished.1 with
    | .ok (some r) => resultPieces r
    | .ok none => []
    | .error e =>
      [.err (styled [.magenta] ("Trial ended without a result: " ++ e.message name) ++ "\n")]
  let (mode, pieces) := askForRule
  (mode, told ++ pieces)

/-- A gesture has been entered on line `n` of a trial. -/
def makeGesture (name : String) (s : Session) (n : Nat) (line : List Char) : Mode × List Piece :=
  match Gesture.read line with
  | .error p =>
    let e : ScriptError := ⟨n, p⟩
    (.play name s (n + 1), [.err (styled [.red] ("Could not read gesture: " ++ e.message) ++ "\n")])
  | .ok g =>
    match s.call g with
    | (.ok ack, s) =>
      if ack.concluded then
        let (mode, pieces) := endTrial name s
        (mode, offerPieces ack.offer ++ pieces)
      else (.play name s (n + 1), offerPieces ack.offer)
    | (.error e, s) =>
      let (mode, pieces) := endTrial name s
      (mode,
        .err (styled [.magenta] ("Failed to send gesture: " ++ e.message name) ++ "\n") :: pieces)

/-- Whether a line is a command, in capital or small letters. -/
def isCommand (name : String) (line : List Char) : Bool := line.map Char.toLower == name.toList

/-- Takes a line: what the next one is read as, and what is printed. A trial that starts with it is
called `name`. -/
def feed (l : Layout) (name : String) (mode : Mode) (line : List Char) : Mode × List Piece :=
  let trimmed := trim line
  match mode with
  | .rule text =>
    if trimmed.isEmpty then
      if text.isEmpty then (mode, []) else beginTrial l name text
    else (.rule (text ++ String.ofList (trimRight line) ++ "\n"), [])
  | .play trial s n =>
    if trimmed.isEmpty then (.play trial s (n + 1), [])
    else if isCommand "exit" trimmed || isCommand "quit" trimmed then askForRule
    else if isCommand "board" trimmed then (.play trial s (n + 1), [.out (listing l)])
    else makeGesture trial s n trimmed

/-- The lines are at their end: what comes next, if anything. A rule that has been entered is still
played, and a trial that goes on is left. -/
def close (l : Layout) (name : String) : Mode → Option (Mode × List Piece)
  | .rule text => if text.isEmpty then none else some (beginTrial l name text)
  | .play _ _ _ =>
    let (mode, pieces) := askForRule
    some (mode, .out "\n" :: pieces)

/-! ### Whole conversations -/

/-- The board that the arguments of the program ask for. -/
def layoutOf (args : List String) : Layout :=
  if args.head? = some "two-sizes" then .twoSizes else .standard

/-- What is printed before the first line is read. -/
def opening : Mode × List Piece :=
  let (mode, pieces) := askForRule
  (mode, .out banner :: pieces ++ [.out mode.prompt])

/-- Takes a line, and asks for the next. -/
def turn (l : Layout) (name : String) (mode : Mode) (line : List Char) : Mode × List Piece :=
  let (mode, pieces) := feed l name mode line
  (mode, pieces ++ [.out mode.prompt])

/-- What is printed after the lines are at their end, in at most `n` turns. -/
def closing (l : Layout) (name : String) : Nat → Mode → List Piece
  | 0, _ => []
  | n + 1, mode =>
    match close l name mode with
    | none => []
    | some (next, pieces) => pieces ++ .out next.prompt :: closing l name n next

/-- What is printed after the lines are at their end. A rule, its trial and the rule asked for after
that are all that can still come. -/
def farewell (l : Layout) (name : String) (mode : Mode) : List Piece := closing l name 3 mode

end Console

end BoardTrial
