import BoardTrial.RuleText.Lexeme
import Mathlib.Data.String.Basic

/-!
# Spelling

Which stretches of a text are lexemes, and which characters belong to none, said without reading
the text from its start. A text is taken apart as `p ++ w ++ q`: what is before a stretch, the
stretch, and what is behind it. Places are counted in bytes.
-/

namespace BoardTrial

namespace Span

/-- The place of the characters `w` behind the characters `p`, in bytes. -/
def behind (p w : List Char) : Span := ⟨String.utf8Len p, String.utf8Len p + String.utf8Len w⟩

/-- The span is that of a stretch of the text: it starts and stops between characters. -/
def Marks (s : Span) (src : String) : Prop := ∃ p w q, src.toList = p ++ w ++ q ∧ s = behind p w

/-- One span starts before another, and nothing belongs to both. -/
def Before (s t : Span) : Prop := s.start < t.start ∧ s.stop ≤ t.start

end Span

namespace Lexeme

/-- `Names w l`: the word `w` is how the lexeme `l` is written. A word that is none of the language
is a lexeme of its own. -/
inductive Names : String → Lexeme → Prop where
  /-- A fixed word. -/
  | keyword (k : Keyword) : Names k.word (keyword k)
  /-- A color. -/
  | color (c : Color) : Names c.word (color c)
  /-- A shape. -/
  | shape (s : Shape) : Names s.word (shape s)
  /-- A size. -/
  | size (z : Size) : Names z.word (size z)
  /-- Any other word. -/
  | unknown {w : String} : (∀ k : Keyword, w ≠ k.word) → (∀ c : Color, w ≠ c.word) →
      (∀ s : Shape, w ≠ s.word) → (∀ z : Size, w ≠ z.word) → Names w (unknown w)

/-- No word ends `p`: its last character, if it has one, is none that words are made of. -/
def Begins (p : List Char) : Prop := ∀ c ∈ p.getLast?, isWordChar c = false

/-- The characters do not go on with a word. -/
def Ends (q : List Char) : Prop := ∀ c ∈ q.head?, isWordChar c = false

/-- Between `p` and `q`, `w` is a maximal run of letters, digits and underscores. -/
structure IsRun (p w q : List Char) : Prop where
  /-- The run is not empty. -/
  ne_nil : w ≠ []
  /-- It is made of letters, digits and underscores. -/
  chars : ∀ c ∈ w, isWordChar c = true
  /-- No such character is before it. -/
  begins : Begins p
  /-- No such character is behind it. -/
  ends : Ends q

/-- Between `p` and `q`, `w` is a word: a maximal run that begins with no digit. -/
structure IsWord (p w q : List Char) : Prop extends IsRun p w q where
  /-- The first character is a letter or an underscore. -/
  start : ∀ c ∈ w.head?, isWordStart c = true

/-- `Stands p w q l`: between `p` and `q`, the characters `w` are the lexeme `l`. -/
inductive Stands (p : List Char) : List Char → List Char → Lexeme → Prop where
  /-- A comma. -/
  | comma {q : List Char} : Stands p [','] q comma
  /-- A newline. -/
  | newline {q : List Char} : Stands p ['\n'] q newline
  /-- A word, which is never read as less than a whole one. -/
  | word {w q : List Char} {l : Lexeme} : IsWord p w q → Names (String.ofList w) l → Stands p w q l

/-- The characters of which the texts of rules are made. -/
def isLegal (c : Char) : Bool := isWordChar c || isSpacing c || c == ',' || c == '\n'

/-- Every character is one of those that rules are made of, and no maximal run of letters, digits
and underscores begins with a digit. -/
structure Legal (cs : List Char) : Prop where
  /-- The characters are those of rules. -/
  chars : ∀ c ∈ cs, isLegal c = true
  /-- Runs begin with no digit. -/
  runs : ∀ p w q, cs = p ++ w ++ q → IsRun p w q → ∀ c ∈ w.head?, c.isDigit = false

/-- Behind `p`, the character is none of a rule, or a digit with which a run begins. -/
def Offends (p : List Char) (c : Char) : Prop := isLegal c = false ∨ c.isDigit = true ∧ Begins p

end Lexeme

end BoardTrial
