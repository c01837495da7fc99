import BoardTrial.Rule

/-!
# Completable rules

Whether a rule can be satisfied at all. Only `nothing` stands in the way, and what needs it.
-/

namespace BoardTrial

namespace Rule

mutual

/-- Whether a rule can be satisfied: a leaf can, `nothing` cannot, all steps and all clauses have to
be, and of alternatives one. -/
def isCompletable : Rule → Bool
  | doNothing => false
  | leaf _ => true
  | inOrder rs | inAnyOrder rs => areCompletable rs
  | firstOrSecond a b => a.isCompletable || b.isCompletable

/-- Whether all of several rules can be satisfied. -/
def areCompletable : List Rule → Bool
  | [] => true
  | r :: rs => r.isCompletable && areCompletable rs

end

theorem areCompletable_iff (rs : List Rule) :
    areCompletable rs = true ↔ ∀ r ∈ rs, r.isCompletable = true := by
  induction rs with
  | nil => simp [areCompletable]
  | cons r rs ih => simp [areCompletable, ih]

end Rule

end BoardTrial
