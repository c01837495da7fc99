import BoardTrial.Rule

/-!
# Performances

What a rule asks for, said without matching: the sequences of interactions that perform it, one
interaction for each leaf that has to be done. A sequence is performed by performing its steps one
after the other, a set by interleaving performances of its clauses, and alternatives by performing
one of them. Nothing performs `nothing`.
-/

namespace BoardTrial

/-- `Interleave xs ys zs`: `zs` has the members of `xs` and of `ys`, each in their order. -/
inductive Interleave {α : Type} : List α → List α → List α → Prop where
  /-- Nothing is left. -/
  | nil : Interleave [] [] []
  /-- The next member is one of the first list. -/
  | left {x : α} {xs ys zs : List α} : Interleave xs ys zs → Interleave (x :: xs) ys (x :: zs)
  /-- The next member is one of the second list. -/
  | right {y : α} {xs ys zs : List α} : Interleave xs ys zs → Interleave xs (y :: ys) (y :: zs)

/-- `Performance r w`: doing the interactions `w` in this order, and nothing else, performs `r`. -/
inductive Rule.Performance : Rule → List Interaction → Prop where
  /-- A leaf is performed by its interaction. -/
  | leaf (i : Interaction) : Performance (.leaf i) [i]
  /-- A sequence without steps is performed by doing nothing. -/
  | noSteps : Performance (.inOrder []) []
  /-- The first step is performed before the others. -/
  | steps {r : Rule} {rs : List Rule} {u v : List Interaction} :
      Performance r u → Performance (.inOrder rs) v → Performance (.inOrder (r :: rs)) (u ++ v)
  /-- A set without clauses is performed by doing nothing. -/
  | noClauses : Performance (.inAnyOrder []) []
  /-- The first clause is performed in between the others. -/
  | clauses {r : Rule} {rs : List Rule} {u v w : List Interaction} :
      Performance r u → Performance (.inAnyOrder rs) v → Interleave u v w →
        Performance (.inAnyOrder (r :: rs)) w
  /-- The first alternative is performed. -/
  | first {a : Rule} (b : Rule) {w : List Interaction} :
      Performance a w → Performance (.firstOrSecond a b) w
  /-- The second alternative is performed. -/
  | second (a : Rule) {b : Rule} {w : List Interaction} :
      Performance b w → Performance (.firstOrSecond a b) w

end BoardTrial
