import BoardTrial.Rule
import BoardTrial.Text.Outline

/-!
# Listings

Tokens, interactions and rules written out by their constructors.

This module models what is printed of a rule.
-/

namespace BoardTrial

/-- A word with a capital first letter. -/
def capitalized (w : String) : String :=
  match w.toList with
  | [] => w
  | c :: cs => String.ofList (c.toUpper :: cs)

namespace Outline

/-- A word as the name of a constructor. -/
def ofWord (w : String) : Outline := atom (capitalized w)

/-- A constructor with arguments. -/
def ofCall (name : String) (args : List Outline) : Outline := group name .round args

/-- A constructor with labelled arguments. -/
def ofRecord (name : String) (fields : List (String × Outline)) : Outline :=
  group (name ++ " ") .curly (fields.map fun f => field f.1 f.2)

/-- A list. -/
def ofList (items : List Outline) : Outline := group "" .square items

/-- A value that may be missing. -/
def ofOption : Option Outline → Outline
  | none => atom "None"
  | some x => ofCall "Some" [x]

end Outline

/-- A token written out. -/
def Token.outline (t : Token) : Outline :=
  .ofRecord "Token" [("color", .ofWord t.color.word), ("shape", .ofWord t.shape.word),
    ("size", .ofOption (t.size.map fun z => .ofWord z.word))]

/-- An interaction written out. -/
def Interaction.outline : Interaction → Outline
  | single x a => .ofRecord "Single" [("token", a.outline), ("action", .atom x.name)]
  | dual x a b =>
    .ofRecord "Dual" [("first", a.outline), ("second", b.outline), ("action", .atom x.name)]
  | triple x a b c =>
    .ofRecord "Triple" [("first", a.outline), ("second", b.outline), ("third", c.outline),
      ("action", .atom x.name)]

namespace Rule

mutual

/-- A rule written out. -/
def outline : Rule → Outline
  | doNothing => .atom "DoNothing"
  | leaf i => .ofCall "Leaf" [i.outline]
  | inOrder rs => .ofCall "InOrder" [.ofList (outlines rs)]
  | inAnyOrder rs => .ofCall "InAnyOrder" [.ofList (outlines rs)]
  | firstOrSecond a b => .ofCall "FirstOrSecond" [a.outline, b.outline]

/-- Several rules written out. -/
def outlines : List Rule → List Outline
  | [] => []
  | r :: rs => r.outline :: outlines rs

end

end Rule

end BoardTrial
