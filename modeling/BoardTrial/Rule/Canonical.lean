import BoardTrial.Rule

/-!
# Canonical rules

The trees that the text of a rule can say. Sequences hold at least two steps, sets at least two
clauses, alternatives are leaves, and each leaf has as many tokens as its action is meant for, all
with a size or all without.
-/

namespace BoardTrial

/-- A leaf, or two leaves as alternatives. -/
inductive Rule.IsClause : Rule → Prop where
  /-- One leaf. -/
  | leaf {i : Interaction} : i.WellFormed → i.isUniform = true → IsClause (.leaf i)
  /-- Two leaves. -/
  | alternatives {i j : Interaction} : i.WellFormed → i.isUniform = true → j.WellFormed →
      j.isUniform = true → IsClause (.firstOrSecond (.leaf i) (.leaf j))

/-- A clause, or at least two clauses in any order. -/
inductive Rule.IsStep : Rule → Prop where
  /-- One clause. -/
  | clause {r : Rule} : r.IsClause → IsStep r
  /-- Several clauses. -/
  | clauses {rs : List Rule} : 2 ≤ rs.length → (∀ r ∈ rs, r.IsClause) → IsStep (.inAnyOrder rs)

/-- `nothing`, a step, or at least two steps in order. -/
inductive Rule.Canonical : Rule → Prop where
  /-- Nothing to do. -/
  | doNothing : Canonical .doNothing
  /-- One step. -/
  | step {r : Rule} : r.IsStep → Canonical r
  /-- Several steps. -/
  | steps {rs : List Rule} : 2 ≤ rs.length → (∀ r ∈ rs, r.IsStep) → Canonical (.inOrder rs)

end BoardTrial
