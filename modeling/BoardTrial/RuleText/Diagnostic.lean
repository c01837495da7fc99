import BoardTrial.RuleText.Draft

/-!
# Reading a rule

`Rule.read` takes a text to the rule it says, or to everything that is wrong with it: a character
that belongs to no lexeme, else the interactions that mix tokens with and without a size, in reading
order, and after them the place where the text stops being a rule.

This module models the errors of lexer and parser, their messages and places, and the reading of a
text by both. Not modelled: what is logged of a rule that has been read.
-/

namespace BoardTrial

/-- Something wrong with the text of a rule. -/
inductive Problem where
  /-- A character belongs to no lexeme. -/
  | stray (c : Char) (afterWord : Bool)
  /-- An interaction mixes tokens with and without a size. -/
  | mixedSizes
  /-- The text cannot go on with what was found, or end where nothing was found. -/
  | unexpected (found : Option Lexeme) (expected : List Expected)
  deriving DecidableEq

namespace Problem

/-- Whether the text stops being a rule here. -/
def isUnexpected : Problem → Bool
  | unexpected _ _ => true
  | stray _ _ | mixedSizes => false

/-- What was found, and what could have stood there. -/
def foundInstead (found : String) (expected : List String) : String :=
  "found " ++ found ++ ", expected " ++ " or ".intercalate expected

/-- What could have stood in place of a stray character. A word that ends there could have gone
on. -/
def couldFollow (afterWord : Bool) : List String :=
  let blanks := ["` `", "`\t`", "`\r`"]
  (if afterWord then "identifier" :: blanks else blanks ++ ["identifier"]) ++
    ["`,`", "`\n`", "end of input"]

/-- The message for a problem. -/
def message : Problem → String
  | stray c afterWord => foundInstead ("`" ++ c.toString ++ "`") (couldFollow afterWord)
  | mixedSizes => "either every token of an interaction has a size or none does"
  | unexpected none expected => foundInstead "end of input" (expected.map Expected.text)
  | unexpected (some l) expected => foundInstead ("`" ++ l.text ++ "`") (expected.map Expected.text)

end Problem

/-- A problem and where it stands. -/
abbrev Diagnostic := Located Problem

namespace Diagnostic

/-- The line that sums up what is wrong with a text. -/
def summary (ds : List Diagnostic) : String :=
  "malformed rule: " ++ "; ".intercalate (ds.map (·.value.message))

/-- The problem of stopping before the end: at the lexeme that cannot follow, or at `stop` if the
text ends too early. -/
def ofRest (stop : Nat) (expected : List Expected) : List (Located Lexeme) → Diagnostic
  | [] => ⟨.unexpected none expected, .point stop⟩
  | x :: _ => ⟨.unexpected (some x.value) expected, x.span⟩

end Diagnostic

namespace Draft

/-- The interactions read that mix tokens with and without a size. -/
def mixed (d : Draft) : List Diagnostic :=
  (d.leaves.filter fun l => !l.value.isUniform).map fun l => ⟨.mixedSizes, l.span⟩

end Draft

namespace Scope

/-- Reads a list of lexemes that ends at `stop` as a part of the rule language: what is wrong with
it, and what it says if it can be read to the end. -/
def read (s : Scope) (stop : Nat) (xs : List (Located Lexeme)) : List Diagnostic × Option Rule :=
  match Draft.run s (.start s) xs with
  | (d, rest) =>
    match rest, d.rule? with
    | [], some r => (d.mixed, some r)
    | _, _ => (d.mixed ++ [.ofRest stop (d.place.expected.filter s.allowsExpected) rest], none)

end Scope

namespace Phrase

/-- Reads a list of lexemes that ends at `stop` as one phrase. -/
def read {α : Type} (p : Phrase α) (stop : Nat) (xs : List (Located Lexeme)) :
    Except Diagnostic α :=
  match p.run xs with
  | (p, rest) =>
    match rest, p.value? with
    | [], some a => .ok a
    | _, _ =>
      .error (.ofRest stop (if p.value?.isSome then [.endOfInput] else p.expected) rest)

end Phrase

namespace Rule

/-- The rule that lexemes spell, or what is wrong with them. -/
def ofLexemes (stop : Nat) (xs : List (Located Lexeme)) : Except (List Diagnostic) Rule :=
  match Scope.rule.read stop xs with
  | ([], some r) => .ok r
  | (ds, _) => .error ds

/-- The rule that a text says, or what is wrong with the text. -/
def read (src : String) : Except (List Diagnostic) Rule :=
  match Lexeme.read src with
  | .error c => .error [⟨.stray c.char c.afterWord, c.span⟩]
  | .ok xs => ofLexemes src.utf8ByteSize xs

/-- Everything that is wrong with a text. -/
def diagnostics (src : String) : List Diagnostic :=
  match read src with
  | .ok _ => []
  | .error ds => ds

end Rule

end BoardTrial
