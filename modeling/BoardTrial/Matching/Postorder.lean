import BoardTrial.Matching.Plan

/-!
# Plans in postorder

The parts of a rule in postorder, each behind what is below it, are what the nodes of its plan stand
for. Which rule a node stands for can be read back from the plan (`Plan.ruleAt?`): the nodes right
below it are found by their numbers, and these are smaller than its own.
-/

namespace BoardTrial

namespace Rule

mutual

/-- The parts of a rule in postorder. The rule itself comes last. -/
def postorder : Rule → List Rule
  | doNothing => [doNothing]
  | leaf i => [leaf i]
  | inOrder rs => postorderOfAll rs ++ [inOrder rs]
  | inAnyOrder rs => postorderOfAll rs ++ [inAnyOrder rs]
  | firstOrSecond a b => a.postorder ++ b.postorder ++ [firstOrSecond a b]

/-- The parts of several rules in postorder. -/
def postorderOfAll : List Rule → List Rule
  | [] => []
  | r :: rs => r.postorder ++ postorderOfAll rs

end

/-- The interaction of a rule that is a leaf. -/
def interaction? : Rule → Option Interaction
  | leaf i => some i
  | _ => none

end Rule

namespace Plan

/-- The numbers from the start of what is below node `n` up to `n`. -/
def stretch (plan : Plan) (n : Nat) : List Nat :=
  List.range' (plan.startOf n) (n + 1 - plan.startOf n)

/-- The rule that a node stands for, given the rules that the nodes right below it stand for. -/
def ruleOf? (ruleAt? : Nat → Option Rule) : Node → Option Rule
  | .nothing => some .doNothing
  | .leaf i => some (.leaf i)
  | .inOrder cs => (cs.mapM ruleAt?).map .inOrder
  | .inAnyOrder cs => (cs.mapM ruleAt?).map .inAnyOrder
  | .firstOrSecond a b => (ruleAt? a).bind fun first => (ruleAt? b).map (.firstOrSecond first)

/-- The rule that node `n` stands for, if all nodes below it have numbers smaller than the node they
are right below. -/
def ruleAt? (plan : Plan) (n : Nat) : Option Rule :=
  match plan.node? n with
  | none => none
  | some node => ruleOf? (fun c => if _ : c < n then plan.ruleAt? c else none) node
termination_by n

end Plan

end BoardTrial
