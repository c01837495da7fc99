import BoardTrial.RuleText.Spelling
import Mathlib.Logic.Relation

/-!
# Spacing

Changes to a text that leave alone what it says: to the blanks around its words, to the number of
newlines between its lines, and to the blank lines before the first and after the last of them.
-/

namespace BoardTrial

namespace Lexeme

/-- The characters end with a word. -/
def WordEnds (p : List Char) : Prop := ∃ a w, p = a ++ w ∧ IsWord a w []

/-- The characters begin with a word. -/
def WordBegins (q : List Char) : Prop := ∃ w b, q = w ++ b ∧ IsWord [] w b

/-- The characters are all blanks. -/
def Blank (s : List Char) : Prop := ∀ c ∈ s, isSpacing c = true

/-- The characters are newlines, at least one, and blanks. -/
structure Break (n : List Char) : Prop where
  /-- There is a newline. -/
  newline : '\n' ∈ n
  /-- There is nothing but newlines and blanks. -/
  layout : ∀ c ∈ n, isSpacing c = true ∨ c = '\n'

/-- `Respaced cs cs'`: in one place `cs'` is spaced differently from `cs`. -/
inductive Respaced : List Char → List Char → Prop where
  /-- Between `p` and `q` other blanks stand, and none only where no two words meet. -/
  | blanks {p s s' q : List Char} : Blank s → Blank s' →
      (WordEnds p → WordBegins q → s ≠ [] ∧ s' ≠ []) → Respaced (p ++ s ++ q) (p ++ s' ++ q)
  /-- Between `p` and `q` there are more newlines, or fewer, but at least one. -/
  | breaks {p n n' q : List Char} : Break n → Break n' → Respaced (p ++ n ++ q) (p ++ n' ++ q)
  /-- Before the text there are newlines. -/
  | before {n q : List Char} : Break n → Respaced (n ++ q) q
  /-- Behind the text there are newlines. -/
  | behind {p n : List Char} : Break n → Respaced (p ++ n) p

/-- Two texts differ only in how they are spaced. -/
def SpacedAlike : List Char → List Char → Prop := Relation.EqvGen Respaced

end Lexeme

end BoardTrial
