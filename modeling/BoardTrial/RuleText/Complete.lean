import BoardTrial.RuleText.Diagnostic
import BoardTrial.RuleText.Grammar

/-!
# Complete interactions

The interactions that the beginning of a rule has completed, and where they stand, said by the
wordings alone. What begins a rule is cut from the left: into separators, interactions, and at its
end what an interaction begins with.
-/

namespace BoardTrial

namespace Interaction

/-- Some token has a size and some token has none. -/
def Mixes (i : Interaction) : Prop :=
  (∃ t ∈ i.tokens, t.size ≠ none) ∧ ∃ t ∈ i.tokens, t.size = none

instance (i : Interaction) : Decidable i.Mixes := inferInstanceAs (Decidable (_ ∧ _))

end Interaction

namespace Grammar

/-- Of the lexemes `pre ++ rest`, `pre` is as much as begins a sentence. -/
structure Stops (pre rest : List (Located Lexeme)) : Prop where
  /-- It begins one. -/
  viable : Viable (pre.map (·.value))
  /-- The first lexeme behind it cannot follow. -/
  next : ∀ x ∈ rest.head?, ¬ Viable (pre.map (·.value) ++ [x.value])

/-- What stands before, between and behind interactions, and the word for a rule without any. -/
inductive Separator : Lexeme → Prop where
  /-- Between alternatives. -/
  | or : Separator (.keyword .or)
  /-- Between clauses. -/
  | comma : Separator .comma
  /-- Between steps, and in blank lines. -/
  | newline : Separator .newline
  /-- The word `nothing`. -/
  | nothing : Separator (.keyword .nothing)

/-- The lexemes begin an interaction, but are not all of it. -/
def Unfinished (u : List Lexeme) : Prop := ∃ v i, v ≠ [] ∧ Leaf (u ++ v) i

/-- The span goes from the start of the first of the lexemes to the end of the last. -/
structure Covers (u : List (Located Lexeme)) (span : Span) : Prop where
  /-- It starts with the first. -/
  start : ∃ x ∈ u.head?, span.start = x.span.start
  /-- It stops with the last. -/
  stop : ∃ x ∈ u.getLast?, span.stop = x.span.stop

/-- `Completes xs ls`: what the lexemes `xs` complete are the interactions `ls`, in that order. -/
inductive Completes : List (Located Lexeme) → List (Located Interaction) → Prop where
  /-- What is left begins an interaction, or nothing is left. -/
  | rest {xs : List (Located Lexeme)} : Unfinished (xs.map (·.value)) → Completes xs []
  /-- A separator. -/
  | separator {x : Located Lexeme} {xs : List (Located Lexeme)} {ls : List (Located Interaction)} :
      Separator x.value → Completes xs ls → Completes (x :: xs) ls
  /-- An interaction. -/
  | leaf {u xs : List (Located Lexeme)} {ls : List (Located Interaction)} {i : Interaction}
      {span : Span} : Leaf (u.map (·.value)) i → Covers u span → Completes xs ls →
      Completes (u ++ xs) (⟨i, span⟩ :: ls)

end Grammar

/-- What is wrong with the sizes of interactions: one diagnostic for each that mixes tokens with and
without a size. -/
def Diagnostic.mixedSizes (ls : List (Located Interaction)) : List Diagnostic :=
  (ls.filter fun l => l.value.Mixes).map fun l => ⟨.mixedSizes, l.span⟩

end BoardTrial
