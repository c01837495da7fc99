import BoardTrial.Script.Line
import BoardTrial.Text.Numeral

/-!
# The language of written gestures

Which lines are gestures in writing, said without reading: padding, a command whose words have gaps
between them, and padding again. A line is put together from its parts (`WrittenGesture.text`), each
of which is well formed by its type, and the parts say which gesture it is
(`WrittenGesture.gesture`). Every gesture whose places are numbers is written in this way
(`WrittenGesture.ofGesture`).
-/

namespace BoardTrial

namespace Written

/-- A word letter by letter. -/
def letters (w : String) : List Char := w.toList

/-- A gap between words: spaces and tabs, at least one. -/
@[ext]
structure Gap where
  /-- The characters. -/
  chars : List Char
  /-- There is at least one. -/
  ne_nil : chars ≠ []
  /-- They are spaces and tabs. -/
  blank : ∀ c ∈ chars, c = ' ' ∨ c = '\t'

/-- Padding around a command: spaces, tabs and carriage returns, or nothing. -/
@[ext]
structure Padding where
  /-- The characters. -/
  chars : List Char
  /-- They are spaces, tabs and carriage returns. -/
  blank : ∀ c ∈ chars, c = ' ' ∨ c = '\t' ∨ c = '\r'

/-- The name of a token: its size if it has one, its color, its shape, with gaps between. -/
structure TokenName where
  /-- The size and the gap behind it. -/
  size : Option (Size × Gap)
  /-- The color. -/
  color : Color
  /-- The gap behind the color. -/
  gap : Gap
  /-- The shape. -/
  shape : Shape

namespace TokenName

/-- The name in writing. -/
def text (n : TokenName) : List Char :=
  (n.size.elim [] fun (z, g) => letters z.word ++ g.chars) ++ letters n.color.word ++ n.gap.chars ++
    letters n.shape.word

/-- The token of the name. -/
def token (n : TokenName) : Token := ⟨n.color, n.shape, n.size.map (·.1)⟩

/-- The name of a token, with these gaps behind its size and its color. -/
def ofToken (gap gap' : Gap) (t : Token) : TokenName := ⟨t.size.map (·, gap), t.color, gap', t.shape⟩

end TokenName

/-- A command: the words for a gesture, with gaps between them. -/
inductive Command where
  /-- `click t`. -/
  | click (gap : Gap) (name : TokenName)
  /-- `drag t`. -/
  | drag (gap : Gap) (name : TokenName)
  /-- `release t`. -/
  | release (gap : Gap) (name : TokenName)
  /-- `drop on t`. -/
  | dropOn (gap gap' : Gap) (name : TokenName)
  /-- `drop on holding area`. -/
  | dropOnHoldingArea (gap gap' gap'' : Gap)
  /-- `move t to left top`. -/
  | move (gap : Gap) (name : TokenName) (gap' gap'' : Gap) (left : Numeral) (between : Gap)
    (top : Numeral)

namespace Command

/-- The command in writing. -/
def text : Command → List Char
  | click g n => letters "click" ++ g.chars ++ n.text
  | drag g n => letters "drag" ++ g.chars ++ n.text
  | release g n => letters "release" ++ g.chars ++ n.text
  | dropOn g h n => letters "drop" ++ g.chars ++ letters "on" ++ h.chars ++ n.text
  | dropOnHoldingArea g h k =>
    letters "drop" ++ g.chars ++ letters "on" ++ h.chars ++ letters "holding" ++ k.chars ++
      letters "area"
  | move g n h k l b t =>
    letters "move" ++ g.chars ++ n.text ++ h.chars ++ letters "to" ++ k.chars ++ l.text ++ b.chars ++
      t.text

/-- The gesture that the command says. -/
def gesture : Command → Gesture
  | click _ n => .click n.token
  | drag _ n => .drag n.token
  | release _ n => .release n.token
  | dropOn _ _ n => .dropOn n.token
  | dropOnHoldingArea _ _ _ => .dropOnHoldingArea
  | move _ n _ _ l _ t => .move n.token l.toFloat t.toFloat

/-- The command for a gesture, with these gaps. -/
def ofGesture (gap : Nat → Gap) : Gesture → Command
  | .click t => click (gap 0) (.ofToken (gap 1) (gap 2) t)
  | .drag t => drag (gap 0) (.ofToken (gap 1) (gap 2) t)
  | .release t => release (gap 0) (.ofToken (gap 1) (gap 2) t)
  | .dropOn t => dropOn (gap 0) (gap 1) (.ofToken (gap 2) (gap 3) t)
  | .dropOnHoldingArea => dropOnHoldingArea (gap 0) (gap 1) (gap 2)
  | .move t l m =>
    move (gap 0) (.ofToken (gap 1) (gap 2) t) (gap 3) (gap 4) (.ofFloat l) (gap 5) (.ofFloat m)

end Command

end Written

/-- A gesture in writing: a command with padding around it. -/
structure WrittenGesture where
  /-- The padding before the command. -/
  before : Written.Padding
  /-- The command. -/
  command : Written.Command
  /-- The padding behind the command. -/
  behind : Written.Padding

namespace WrittenGesture

/-- The line. -/
def text (w : WrittenGesture) : List Char := w.before.chars ++ w.command.text ++ w.behind.chars

/-- The gesture that the line says. -/
def gesture (w : WrittenGesture) : Gesture := w.command.gesture

/-- A gesture in writing, with this padding and these gaps. -/
def ofGesture (before behind : Written.Padding) (gap : Nat → Written.Gap) (g : Gesture) :
    WrittenGesture :=
  ⟨before, .ofGesture gap g, behind⟩

end WrittenGesture

end BoardTrial
