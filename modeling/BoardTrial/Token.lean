/-!
# Tokens

The objects a participant handles: a colored circle or square, on some boards in two sizes. A token
is named by the words for its size, color and shape, and the words read back.

This module models the vocabulary of the program and its tokens. The program keys its maps by the
size, color and shape of a token; here a token is its own key.
-/

namespace BoardTrial

/-- The fill of a token. -/
inductive Color where
  | red | black | yellow | white | green | blue | orange
  deriving DecidableEq

namespace Color

/-- Every color, in the order in which tokens are sorted. -/
def all : List Color := [red, black, yellow, white, green, blue, orange]

/-- The word for a color. -/
def word : Color → String
  | red => "red"
  | black => "black"
  | yellow => "yellow"
  | white => "white"
  | green => "green"
  | blue => "blue"
  | orange => "orange"

/-- The color a word names. -/
def ofWord? (w : String) : Option Color := all.find? (·.word == w)

/-- The place of a color among all. -/
def rank (c : Color) : Nat := all.idxOf c

end Color

/-- The outline of a token. -/
inductive Shape where
  | circle | square
  deriving DecidableEq

namespace Shape

/-- Both shapes, in the order in which tokens are sorted. -/
def all : List Shape := [circle, square]

/-- The word for a shape. -/
def word : Shape → String
  | circle => "circle"
  | square => "square"

/-- The shape a word names. -/
def ofWord? (w : String) : Option Shape := all.find? (·.word == w)

/-- The place of a shape among all. -/
def rank (s : Shape) : Nat := all.idxOf s

end Shape

/-- The size of a token, used only on boards with two sizes. -/
inductive Size where
  | small | large
  deriving DecidableEq

namespace Size

/-- Both sizes, in the order in which tokens are sorted. -/
def all : List Size := [small, large]

/-- The word for a size. -/
def word : Size → String
  | small => "small"
  | large => "large"

/-- The size a word names. -/
def ofWord? (w : String) : Option Size := all.find? (·.word == w)

/-- The place of a size among all. -/
def rank (s : Size) : Nat := all.idxOf s

end Size

/-- What is said of a word that was expected to name a color, a shape or a size and does not. -/
def unknownWord (w : String) : String := "unknown word `" ++ w ++ "`"

/-- An object on the board. A token without a size and one with a size are different tokens. -/
structure Token where
  /-- Its fill. -/
  color : Color
  /-- Its outline. -/
  shape : Shape
  /-- Its size, if it has one. -/
  size : Option Size
  deriving DecidableEq

namespace Token

/-- Whether the token carries a size. -/
def isSized (t : Token) : Bool := t.size.isSome

/-- The words that name the token: its size if it has one, its color, its shape. -/
def words (t : Token) : List String :=
  (t.size.map Size.word).toList ++ [t.color.word, t.shape.word]

/-- The name of the token, one space between words. -/
def text (t : Token) : String := " ".intercalate t.words

/-- The token that a list of words names. -/
def ofWords? : List String → Option Token
  | [c, s] => do return ⟨← Color.ofWord? c, ← Shape.ofWord? s, none⟩
  | [z, c, s] => do
    let size ← Size.ofWord? z
    return ⟨← Color.ofWord? c, ← Shape.ofWord? s, some size⟩
  | _ => none

/-- Tokens sort by color, then by shape, then by size, those without a size first. -/
def rank (t : Token) : Nat :=
  (t.color.rank * Shape.all.length + t.shape.rank) * (Size.all.length + 1) +
    (t.size.map (·.rank + 1)).getD 0

/-- Sorts tokens by rank. -/
def sort (ts : List Token) : List Token := ts.mergeSort fun a b => a.rank ≤ b.rank

end Token

/-! ### Words and values -/

@[simp] theorem Color.ofWord?_word (c : Color) : Color.ofWord? c.word = some c := by
  cases c <;> decide

@[simp] theorem Shape.ofWord?_word (s : Shape) : Shape.ofWord? s.word = some s := by
  cases s <;> decide

@[simp] theorem Size.ofWord?_word (s : Size) : Size.ofWord? s.word = some s := by
  cases s <;> decide

theorem Color.word_of_ofWord? {w : String} {c : Color} (h : Color.ofWord? w = some c) :
    c.word = w := by
  simpa using List.find?_some h

theorem Shape.word_of_ofWord? {w : String} {s : Shape} (h : Shape.ofWord? w = some s) :
    s.word = w := by
  simpa using List.find?_some h

theorem Size.word_of_ofWord? {w : String} {s : Size} (h : Size.ofWord? w = some s) :
    s.word = w := by
  simpa using List.find?_some h

/-- A word names at most one of a color, a shape and a size, so a name reads back. -/
@[simp] theorem Token.ofWords?_words (t : Token) : Token.ofWords? t.words = some t := by
  obtain ⟨c, s, z⟩ := t
  cases z <;> simp [Token.words, Token.ofWords?]

end BoardTrial
