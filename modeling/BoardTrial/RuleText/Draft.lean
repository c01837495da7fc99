import BoardTrial.Rule
import BoardTrial.RuleText.Phrase

/-!
# Drafts of a rule

A rule's text is read lexeme by lexeme, from left to right and without looking ahead. What has been
read is kept in a `Draft`: the steps and clauses that are complete, the leaves met so far with their
places, and the place reached (`Place`), which decides what may come next. The same reading serves
for the parts of a rule: a `Scope` leaves out the separators that the part cannot contain.

This module models the parsers for clauses, steps and rules, as the automaton that goes on from that
of the phrases: where it stops, what it reports there and which tree it builds.
-/

namespace BoardTrial

/-- One step is its only clause, or clauses that may be done in any order. -/
def Rule.ofClauses : List Rule → Rule
  | [r] => r
  | rs => .inAnyOrder rs

/-- A rule is its only step, or steps to be done in order. -/
def Rule.ofSteps : List Rule → Rule
  | [r] => r
  | rs => .inOrder rs

/-- A part of a rule that begins with an interaction. -/
inductive Part where
  /-- One interaction. -/
  | interaction
  /-- An interaction, or two with `or` between. -/
  | clause
  /-- Clauses with commas between. -/
  | step
  deriving DecidableEq

namespace Part

/-- How diagnostics name the part. -/
def expected : Part → Expected
  | interaction => .interaction
  | clause => .clause
  | step => .step

end Part

/-- What a text is read as. -/
inductive Scope where
  /-- A part of a rule. -/
  | part (p : Part)
  /-- A whole rule. -/
  | rule
  deriving DecidableEq

namespace Scope

/-- Whether the text can contain the lexeme, as far as separators go. -/
def allows : Scope → Lexeme → Bool
  | part .interaction, .keyword .or | part .interaction, .comma | part .clause, .comma => false
  | part _, .newline => false
  | _, _ => true

/-- Whether the text can go on as named. -/
def allowsExpected (s : Scope) : Expected → Bool
  | .lexeme l => s.allows l
  | _ => true

end Scope

/-- How far the text has been read. -/
inductive Place where
  /-- Nothing has been read. -/
  | opening
  /-- Only newlines have been read. -/
  | blank
  /-- The word `nothing` has been read, and perhaps newlines. -/
  | afterNothing
  /-- A line ended, and with it a step. -/
  | lineStart
  /-- An interaction has to begin, and with it a part; after `or`, with the alternative before
  it. -/
  | leafStart (part : Part) (first : Option Interaction)
  /-- An interaction began at `start`, and `phrase` is left of it. -/
  | inLeaf (first : Option Interaction) (start : Nat) (phrase : Phrase Interaction)
  /-- The first interaction of a clause is complete. -/
  | afterLeaf (i : Interaction)
  /-- Both alternatives of a clause are complete. -/
  | afterAlternative (i j : Interaction)

namespace Place

/-- The place after a complete interaction. -/
def after (first : Option Interaction) (i : Interaction) : Place :=
  match first with
  | none => afterLeaf i
  | some j => afterAlternative j i

/-- What may come next in a whole rule. -/
def expected : Place → List Expected
  | opening => [.rule]
  | blank => [.lexeme .newline, .nothing, .steps]
  | afterNothing => [.lexeme .newline, .endOfInput]
  | lineStart => [.lexeme .newline, .step, .endOfInput]
  | leafStart part _ => [part.expected]
  | inLeaf _ _ phrase => phrase.expected
  | afterLeaf _ => [.lexeme (.keyword .or), .lexeme .comma, .lexeme .newline, .endOfInput]
  | afterAlternative _ _ => [.lexeme .comma, .lexeme .newline, .endOfInput]

end Place

/-- What has been read of a rule. -/
structure Draft where
  /-- The complete steps. -/
  steps : List Rule := []
  /-- The complete clauses of the step being read. -/
  clauses : List Rule := []
  /-- The complete interactions and where they stand. -/
  leaves : List (Located Interaction) := []
  /-- How far reading has come. -/
  place : Place

namespace Draft

/-- Begins an interaction with its opening word. -/
def beginLeaf (d : Draft) (first : Option Interaction) (x : Located Lexeme) : Option Draft :=
  match x.value with
  | .keyword k =>
    (Phrase.ofOpening? k).map fun p => { d with place := .inLeaf first x.span.start p }
  | _ => none

/-- Goes on with an interaction, and notes it if it is complete. -/
def continueLeaf (d : Draft) (first : Option Interaction) (start : Nat)
    (phrase : Phrase Interaction) (x : Located Lexeme) : Option Draft :=
  (phrase.advance x.value).map fun p =>
    match p.value? with
    | some i =>
      { d with leaves := d.leaves ++ [⟨i, ⟨start, x.span.stop⟩⟩], place := .after first i }
    | none => { d with place := .inLeaf first start p }

/-- Leaves a complete clause by the separator behind it. -/
def leaveClause (d : Draft) (r : Rule) : Lexeme → Option Draft
  | .comma => some { d with clauses := d.clauses ++ [r], place := .leafStart .clause none }
  | .newline => some { d with
      steps := d.steps ++ [.ofClauses (d.clauses ++ [r])], clauses := [], place := .lineStart }
  | _ => none

/-- Reads one more lexeme of a whole rule, if the text can go on with it. -/
def advance (d : Draft) (x : Located Lexeme) : Option Draft :=
  match d.place with
  | .opening | .blank =>
    match x.value with
    | .newline => some { d with place := .blank }
    | .keyword .nothing => some { d with place := .afterNothing }
    | _ => d.beginLeaf none x
  | .afterNothing => if x.value = .newline then some d else none
  | .lineStart => if x.value = .newline then some d else d.beginLeaf none x
  | .leafStart _ first => d.beginLeaf first x
  | .inLeaf first start phrase => d.continueLeaf first start phrase x
  | .afterLeaf i =>
    if x.value = .keyword .or then some { d with place := .leafStart .interaction (some i) }
    else d.leaveClause (.leaf i) x.value
  | .afterAlternative i j => d.leaveClause (.firstOrSecond (.leaf i) (.leaf j)) x.value

/-- The rule read, if the text may end here. -/
def rule? (d : Draft) : Option Rule :=
  let close (r : Rule) := Rule.ofSteps (d.steps ++ [.ofClauses (d.clauses ++ [r])])
  match d.place with
  | .afterNothing => some .doNothing
  | .lineStart => some (.ofSteps d.steps)
  | .afterLeaf i => some (close (.leaf i))
  | .afterAlternative i j => some (close (.firstOrSecond (.leaf i) (.leaf j)))
  | _ => none

/-- Reads on within a part as far as the lexemes allow: the draft reached, and the lexemes left. -/
def run (s : Scope) : Draft → List (Located Lexeme) → Draft × List (Located Lexeme)
  | d, [] => (d, [])
  | d, x :: xs =>
    match if s.allows x.value then d.advance x else none with
    | some e => run s e xs
    | none => (d, x :: xs)

/-- The draft from which a part is read. -/
def start : Scope → Draft
  | .part p => { place := .leafStart p none }
  | .rule => { place := .opening }

/-! ### What is expected is what can be read -/

theorem isSome_beginLeaf (d : Draft) (first : Option Interaction) (x : Located Lexeme) :
    (d.beginLeaf first x).isSome ↔ ∃ k ∈ Expected.openings, x.value = .keyword k := by
  unfold beginLeaf
  cases x.value with
  | keyword k => cases k <;> simp [Phrase.ofOpening?, Expected.openings]
  | _ => simp

/-- A text can go on with a lexeme just when what is expected names it. -/
theorem isSome_advance (d : Draft) (x : Located Lexeme) :
    (d.advance x).isSome ↔ ∃ w ∈ d.place.expected, w.Admits x.value := by
  unfold advance
  cases d.place with
  | opening =>
    simp only [Place.expected, List.mem_singleton, exists_eq_left, Expected.Admits]
    split <;> simp_all [isSome_beginLeaf]
  | blank =>
    simp only [Place.expected]
    split <;> simp_all [isSome_beginLeaf, Expected.Admits]
  | afterNothing => simp [Place.expected, Expected.Admits]
  | lineStart =>
    simp only [Place.expected]
    split <;> simp_all [isSome_beginLeaf, Expected.Admits]
  | leafStart part first =>
    cases part <;> simp [Place.expected, Part.expected, isSome_beginLeaf, Expected.Admits]
  | inLeaf first start phrase =>
    simp [continueLeaf, Phrase.isSome_advance, Place.expected]
  | afterLeaf i =>
    simp only [Place.expected]
    split
    · simp_all [Expected.Admits]
    · cases hx : x.value <;> simp_all [leaveClause, Expected.Admits]
  | afterAlternative i j =>
    cases x.value <;> simp [leaveClause, Place.expected, Expected.Admits]

end Draft

end BoardTrial
