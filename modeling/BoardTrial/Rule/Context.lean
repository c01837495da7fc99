import BoardTrial.Rule

/-!
# Contexts

A rule with a hole: what surrounds a part of a rule, whatever that part is.
-/

namespace BoardTrial

/-- A rule in which one part is left out. -/
inductive Rule.Context where
  /-- The whole rule is left out. -/
  | hole
  /-- The part is in one of several steps. -/
  | inOrder (before : List Rule) (step : Context) (after : List Rule)
  /-- The part is in one of several clauses. -/
  | inAnyOrder (before : List Rule) (clause : Context) (after : List Rule)
  /-- The part is in the first of two alternatives. -/
  | first (first : Context) (second : Rule)
  /-- The part is in the second of two alternatives. -/
  | second (first : Rule) (second : Context)

/-- The rule in which `r` is the part that was left out. -/
def Rule.Context.fill (r : Rule) : Rule.Context → Rule
  | hole => r
  | inOrder before step after => .inOrder (before ++ step.fill r :: after)
  | inAnyOrder before clause after => .inAnyOrder (before ++ clause.fill r :: after)
  | first a b => .firstOrSecond (a.fill r) b
  | second a b => .firstOrSecond a (b.fill r)

end BoardTrial
