import BoardTrial.Token

/-!
# Interactions

What a participant can do with tokens. An interaction is an action on one, two or three tokens; the
first of them is the one acted with. Each action is meant for a fixed number of tokens. An
interaction with another number can be built, and has a text that no rule reads back.

This module models the actions and interactions of the program's syntax tree, with their texts.
-/

namespace BoardTrial

/-- The things a participant can do. -/
inductive Action where
  /-- Touch a token. -/
  | touch
  /-- Put a token into the holding area. -/
  | pickUp
  /-- Drop one token onto another. -/
  | useToTouch
  /-- Release a token further from another than it was. -/
  | moveAwayFrom
  /-- Release a token to the left of another. -/
  | putLeftOf
  /-- Release a token between two others. -/
  | putBetween
  deriving DecidableEq

namespace Action

/-- How many tokens the action is meant for. -/
def arity : Action → Nat
  | touch | pickUp => 1
  | useToTouch | moveAwayFrom | putLeftOf => 2
  | putBetween => 3

/-- Whether only the places of tokens can show that the action happened. -/
def isDirectional : Action → Bool
  | touch | pickUp | useToTouch => false
  | moveAwayFrom | putLeftOf | putBetween => true

/-- The name of the action. -/
def name : Action → String
  | touch => "Touch"
  | pickUp => "PickUp"
  | useToTouch => "UseToTouch"
  | moveAwayFrom => "MoveAwayFrom"
  | putLeftOf => "PutLeftOf"
  | putBetween => "PutBetween"

end Action

/-- An action on one, two or three tokens. -/
inductive Interaction where
  /-- An action on one token. -/
  | single (action : Action) (token : Token)
  /-- An action with a token on a second one. -/
  | dual (action : Action) (first second : Token)
  /-- An action with a token on a second and a third one. -/
  | triple (action : Action) (first second third : Token)
  deriving DecidableEq

namespace Interaction

/-- Touch `t`. -/
def touch (t : Token) : Interaction := .single .touch t

/-- Pick up `t`. -/
def pickUp (t : Token) : Interaction := .single .pickUp t

/-- Use `a` to touch `b`. -/
def useToTouch (a b : Token) : Interaction := .dual .useToTouch a b

/-- Move `a` away from `b`. -/
def moveAwayFrom (a b : Token) : Interaction := .dual .moveAwayFrom a b

/-- Put `a` left of `b`. -/
def putLeftOf (a b : Token) : Interaction := .dual .putLeftOf a b

/-- Put `a` between `b` and `c`. -/
def putBetween (a b c : Token) : Interaction := .triple .putBetween a b c

/-- The action of an interaction. -/
def action : Interaction → Action
  | single x _ | dual x _ _ | triple x _ _ _ => x

/-- The token acted with. -/
def primary : Interaction → Token
  | single _ a | dual _ a _ | triple _ a _ _ => a

/-- The tokens of an interaction, the one acted with first. -/
def tokens : Interaction → List Token
  | single _ a => [a]
  | dual _ a b => [a, b]
  | triple _ a b c => [a, b, c]

/-- The interaction of an action on a list of tokens, if there are one to three. -/
def ofTokens? (x : Action) : List Token → Option Interaction
  | [a] => some (single x a)
  | [a, b] => some (dual x a b)
  | [a, b, c] => some (triple x a b c)
  | _ => none

/-- The action has as many tokens as it is meant for. -/
def WellFormed (i : Interaction) : Prop := i.tokens.length = i.action.arity

instance (i : Interaction) : Decidable i.WellFormed := inferInstanceAs (Decidable (_ = _))

/-- Either every token has a size or none has. -/
def isUniform (i : Interaction) : Bool := i.tokens.all (·.isSized) || i.tokens.all (!·.isSized)

/-- Whether the token acted with has a size. -/
def isSized (i : Interaction) : Bool := i.primary.isSized

/-- The interaction in words. Without as many tokens as its action is meant for it is no phrase of
a rule: then the text names the action and the tokens between angle brackets. -/
def text : Interaction → String
  | single .touch a => "touch " ++ a.text
  | single .pickUp a => "pick up " ++ a.text
  | dual .useToTouch a b => "use " ++ a.text ++ " to touch " ++ b.text
  | dual .moveAwayFrom a b => "move " ++ a.text ++ " away from " ++ b.text
  | dual .putLeftOf a b => "put " ++ a.text ++ " left of " ++ b.text
  | triple .putBetween a b c => "put " ++ a.text ++ " between " ++ b.text ++ " and " ++ c.text
  | i => "<" ++ i.action.name ++ " on " ++ ", ".intercalate (i.tokens.map Token.text) ++ ">"

@[simp] theorem ofTokens?_tokens (i : Interaction) : ofTokens? i.action i.tokens = some i := by
  cases i <;> rfl

end Interaction

end BoardTrial
