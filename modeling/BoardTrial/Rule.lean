import BoardTrial.Interaction

/-!
# Rules

What a trial waits for, as a tree. Its text puts each step of a sequence on a line of its own, a
comma between things that may be done in any order, and `or` between alternatives. Every tree has a
text, but only some trees are what that text says (`Rule.Canonical`).

This module models the syntax tree of rules, with its text, its leaves and its equality.
-/

namespace BoardTrial

/-- What a trial waits for. -/
inductive Rule where
  /-- Never satisfied. -/
  | doNothing
  /-- One interaction. -/
  | leaf (i : Interaction)
  /-- Each step, one after the other. -/
  | inOrder (steps : List Rule)
  /-- Each clause, in any order. -/
  | inAnyOrder (clauses : List Rule)
  /-- One of two alternatives. -/
  | firstOrSecond (first second : Rule)

namespace Rule

mutual

/-- The leaves of a tree, from left to right. -/
def leaves : Rule → List Interaction
  | doNothing => []
  | leaf i => [i]
  | inOrder rs | inAnyOrder rs => leavesOfAll rs
  | firstOrSecond a b => a.leaves ++ b.leaves

/-- The leaves of several trees, from left to right. -/
def leavesOfAll : List Rule → List Interaction
  | [] => []
  | r :: rs => r.leaves ++ leavesOfAll rs

end

/-- How many leaves a tree has. -/
def leafCount (r : Rule) : Nat := r.leaves.length

mutual

/-- The text of a rule. -/
def text : Rule → String
  | doNothing => "nothing"
  | leaf i => i.text
  | inOrder rs => "\n".intercalate (texts rs)
  | inAnyOrder rs => ", ".intercalate (texts rs)
  | firstOrSecond a b => a.text ++ " or " ++ b.text

/-- The texts of several rules. -/
def texts : List Rule → List String
  | [] => []
  | r :: rs => r.text :: texts rs

end

mutual

/-- Whether two trees are the same. -/
def same : Rule → Rule → Bool
  | doNothing, doNothing => true
  | leaf i, leaf j => i == j
  | inOrder rs, inOrder ss | inAnyOrder rs, inAnyOrder ss => sameAll rs ss
  | firstOrSecond a b, firstOrSecond c d => same a c && same b d
  | _, _ => false

/-- Whether two lists of trees are the same. -/
def sameAll : List Rule → List Rule → Bool
  | [], [] => true
  | r :: rs, s :: ss => same r s && sameAll rs ss
  | _, _ => false

end

mutual

theorem same_iff : ∀ r s : Rule, same r s = true ↔ r = s
  | doNothing, s => by cases s <;> simp [same]
  | leaf _, s => by cases s <;> simp [same]
  | inOrder rs, s => by cases s <;> simp [same, sameAll_iff rs]
  | inAnyOrder rs, s => by cases s <;> simp [same, sameAll_iff rs]
  | firstOrSecond a b, s => by cases s <;> simp [same, same_iff a, same_iff b]

theorem sameAll_iff : ∀ rs ss : List Rule, sameAll rs ss = true ↔ rs = ss
  | [], ss => by cases ss <;> simp [sameAll]
  | r :: rs, ss => by cases ss <;> simp [sameAll, same_iff r, sameAll_iff rs]

end

instance : DecidableEq Rule := fun r s => decidable_of_iff _ (same_iff r s)

theorem leavesOfAll_eq_flatMap (rs : List Rule) : leavesOfAll rs = rs.flatMap leaves := by
  induction rs with
  | nil => rfl
  | cons r rs ih => simp [leavesOfAll, ih]

theorem leavesOfAll_append (rs ss : List Rule) :
    leavesOfAll (rs ++ ss) = leavesOfAll rs ++ leavesOfAll ss := by
  simp [leavesOfAll_eq_flatMap]

end Rule

end BoardTrial
