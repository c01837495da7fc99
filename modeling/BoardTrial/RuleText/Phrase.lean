import BoardTrial.Interaction
import BoardTrial.RuleText.Expected

/-!
# Phrases

The wordings of the six interactions, lexeme by lexeme. A phrase is given by what may come next and
what is left after it, so that reading one lexeme (`Phrase.advance`) takes a phrase to a phrase. No
wording is the beginning of another, so a phrase is either done or has to go on.

This module models the parsers for tokens and interactions. The program puts them together from
combinators, which try one after another; here they are one automaton, without going back.
-/

namespace BoardTrial

/-- What is left of a phrase that ends in a value. -/
inductive Phrase (α : Type) where
  /-- The phrase is complete. -/
  | done (a : α)
  /-- A fixed word comes next. -/
  | word (k : Keyword) (next : Phrase α)
  /-- One of two fixed words comes next. -/
  | either (k₁ : Keyword) (next₁ : Phrase α) (k₂ : Keyword) (next₂ : Phrase α)
  /-- A token comes next. -/
  | token (next : Token → Phrase α)
  /-- The size of a token has been read; its color comes next. -/
  | color (z : Size) (next : Token → Phrase α)
  /-- A token has been read up to its color; its shape comes next. -/
  | shape (z : Option Size) (c : Color) (next : Token → Phrase α)

namespace Phrase

variable {α : Type}

/-- What is left after one more lexeme, if the phrase can go on with it. -/
def advance : Phrase α → Lexeme → Option (Phrase α)
  | word k next, .keyword l => if l = k then some next else none
  | either k₁ next₁ k₂ next₂, .keyword l =>
    if l = k₁ then some next₁ else if l = k₂ then some next₂ else none
  | token next, .size z => some (color z next)
  | token next, .color c => some (shape none c next)
  | color z next, .color c => some (shape (some z) c next)
  | shape z c next, .shape s => some (next ⟨c, s, z⟩)
  | _, _ => none

/-- What may come next. -/
def expected : Phrase α → List Expected
  | done _ => []
  | word k _ => [.lexeme (.keyword k)]
  | either k₁ _ k₂ _ => [.lexeme (.keyword k₁), .lexeme (.keyword k₂)]
  | token _ => [.token]
  | color _ _ => [.color]
  | shape _ _ _ => [.shape]

/-- A phrase can go on with a lexeme just when what is expected names it. -/
theorem isSome_advance (p : Phrase α) (x : Lexeme) :
    (p.advance x).isSome ↔ ∃ w ∈ p.expected, w.Admits x := by
  cases p <;> cases x <;> simp [advance, expected, Expected.Admits]
  repeat' split
  all_goals simp_all

/-- The value of a complete phrase. -/
def value? : Phrase α → Option α
  | done a => some a
  | _ => none

/-- The phrase for a token alone. -/
def ofToken : Phrase Token := token done

/-- What is left of an interaction after the word it opens with. -/
def ofOpening? : Keyword → Option (Phrase Interaction)
  | .touch => some <| token fun a => done (.touch a)
  | .pick => some <| word .up <| token fun a => done (.pickUp a)
  | .use => some <| token fun a => word .toWord <| word .touch <| token fun b =>
      done (.useToTouch a b)
  | .move => some <| token fun a => word .away <| word .fromWord <| token fun b =>
      done (.moveAwayFrom a b)
  | .put => some <| token fun a =>
      either .left (word .of <| token fun b => done (.putLeftOf a b))
        .between (token fun b => word .and <| token fun c => done (.putBetween a b c))
  | _ => none

/-- Goes on with a phrase as far as the lexemes allow: what is left of it, and the lexemes left. -/
def run : Phrase α → List (Located Lexeme) → Phrase α × List (Located Lexeme)
  | p, [] => (p, [])
  | p, x :: xs =>
    match p.advance x.value with
    | some q => run q xs
    | none => (p, x :: xs)

end Phrase

end BoardTrial
