import BoardTrial.Token
import BoardTrial.Text.Span
import BoardTrial.Text.Word

/-!
# Lexemes

The words and marks of a rule's text. Spaces, tabs and carriage returns separate words and are
dropped; a newline is a mark of its own, for it ends a step. Reading fails at the first character
that neither is blank nor belongs to a word or mark. Places in the text are counted in bytes.

This module models the program's lexer, which is put together from combinators there. Of an error
only the character, its place and whether a word ends before it are kept: they make up its message.
-/

namespace BoardTrial

/-- The fixed words of the rule language. -/
inductive Keyword where
  | nothing | touch | pick | up | use | toWord | move | away | fromWord | put | left | of | between
  | and | or
  deriving DecidableEq

namespace Keyword

/-- Every fixed word. -/
def all : List Keyword :=
  [nothing, touch, pick, up, use, toWord, move, away, fromWord, put, left, of, between, and, or]

/-- How the word is written. -/
def word : Keyword → String
  | nothing => "nothing"
  | touch => "touch"
  | pick => "pick"
  | up => "up"
  | use => "use"
  | toWord => "to"
  | move => "move"
  | away => "away"
  | fromWord => "from"
  | put => "put"
  | left => "left"
  | of => "of"
  | between => "between"
  | and => "and"
  | or => "or"

/-- The fixed word written like this. -/
def ofWord? (w : String) : Option Keyword := all.find? (·.word == w)

@[simp] theorem ofWord?_word (k : Keyword) : ofWord? k.word = some k := by
  cases k <;> decide

theorem word_of_ofWord? {w : String} {k : Keyword} (h : ofWord? w = some k) : k.word = w := by
  simpa using List.find?_some h

end Keyword

/-- A word or mark of a rule's text. -/
inductive Lexeme where
  /-- A fixed word. -/
  | keyword (k : Keyword)
  /-- The mark between clauses of a step. -/
  | comma
  /-- The end of a line. -/
  | newline
  /-- A color. -/
  | color (c : Color)
  /-- A shape. -/
  | shape (s : Shape)
  /-- A size. -/
  | size (z : Size)
  /-- Any other word. No rule contains one. -/
  | unknown (w : String)
  deriving DecidableEq

namespace Lexeme

/-- The lexeme that a word stands for. -/
def ofWord (w : String) : Lexeme :=
  match Keyword.ofWord? w, Color.ofWord? w, Shape.ofWord? w, Size.ofWord? w with
  | some k, _, _, _ => keyword k
  | _, some c, _, _ => color c
  | _, _, some s, _ => shape s
  | _, _, _, some z => size z
  | _, _, _, _ => unknown w

/-- A lexeme as diagnostics name it. -/
def text : Lexeme → String
  | keyword k => k.word
  | comma => ","
  | newline => "newline"
  | color c => c.word
  | shape s => s.word
  | size z => z.word
  | unknown w => "\"" ++ w ++ "\""

/-! ### Characters -/

/-- The characters that separate words and mean nothing else. -/
def isSpacing (c : Char) : Bool := c == ' ' || c == '\t' || c == '\r'

/-! ### Reading -/

/-- A character that is neither blank nor belongs to a word or mark. -/
structure Stray where
  /-- The character. -/
  char : Char
  /-- Where it stands. -/
  offset : Nat
  /-- Whether it follows a word without a blank between. -/
  afterWord : Bool
  deriving DecidableEq

namespace Stray

/-- The bytes of the character. -/
def span (s : Stray) : Span := ⟨s.offset, s.offset + s.char.utf8Size⟩

end Stray

/-- The lexemes of a text that starts at byte `pos`; `afterWord` says whether a word ends there. -/
def readFrom (pos : Nat) (afterWord : Bool) : List Char → Except Stray (List (Located Lexeme))
  | [] => .ok []
  | c :: cs =>
    if isSpacing c then readFrom (pos + 1) false cs
    else if c = ',' then (⟨comma, pos, pos + 1⟩ :: ·) <$> readFrom (pos + 1) false cs
    else if c = '\n' then (⟨newline, pos, pos + 1⟩ :: ·) <$> readFrom (pos + 1) false cs
    else if isWordStart c then
      let w := c :: cs.takeWhile isWordChar
      (⟨ofWord (String.ofList w), pos, pos + w.length⟩ :: ·) <$>
        readFrom (pos + w.length) true (cs.dropWhile isWordChar)
    else .error ⟨c, pos, afterWord⟩
termination_by cs => cs.length
decreasing_by
  all_goals simp only [List.length_cons]
  any_goals omega
  exact Nat.lt_succ_of_le (List.dropWhile_suffix _).length_le

/-- The lexemes of a text, or the first character that belongs to none. -/
def read (src : String) : Except Stray (List (Located Lexeme)) := readFrom 0 false src.toList

end Lexeme

end BoardTrial
