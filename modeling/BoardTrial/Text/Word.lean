/-!
# Words

The characters that words are made of, in the text of a rule and in a gesture in writing. The
program's lexer and its parser for gestures take identifiers from the same combinator.
-/

namespace BoardTrial

/-- The characters a word may start with: letters of the Latin alphabet and the underscore. -/
def isWordStart (c : Char) : Bool := c.isAlpha || c == '_'

/-- The characters a word may go on with: also digits. -/
def isWordChar (c : Char) : Bool := c.isAlphanum || c == '_'

end BoardTrial
