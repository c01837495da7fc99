import BoardTrial.Matching.Progress

/-!
# Checked offers

Matching takes what it looks up to be there: the nodes of a plan, their flags and cursors, and the
node at which a sequence is. `Plan.offerAt?` is the same matching with a check before each look-up.
It gives nothing when a number is out of range.
-/

namespace BoardTrial

namespace Plan

/-- Whether node `n` can be looked up: it is in the plan, with a start, a flag and a cursor. -/
def inRange (plan : Plan) (p : Progress) (n : Nat) : Bool :=
  n < plan.nodes.size && n < plan.starts.size && n < p.satisfied.size && n < p.cursor.size

/-- Offers to one node after another until one does not ignore it. -/
def offerFirst? (offer : Nat → Progress → Option (Offer × Progress)) :
    List Nat → Progress → Option (Offer × Progress)
  | [], p => some (.ignored, p)
  | c :: cs, p =>
    match offer c p with
    | none => none
    | some (.ignored, p) => offerFirst? offer cs p
    | some (o, p) => some (o, p)

/-- Offers to node `n`, which is not satisfied, given how to offer to a node below it. -/
def offerNode? (plan : Plan) (accepts : Interaction → Bool)
    (offer : Nat → Progress → Option (Offer × Progress)) (n : Nat) (p : Progress) :
    Node → Option (Offer × Progress)
  | .nothing => some (.ignored, p)
  | .leaf i => some (if accepts i then (.completed, (p.satisfy n).record n) else (.ignored, p))
  | .inOrder cs =>
    match cs[p.cursorAt n]? with
    | none => none
    | some c =>
      match offer c p with
      | none => none
      | some (.completed, p) =>
        let p := p.skip n cs
        some (if p.cursorAt n = cs.length then (.completed, p.satisfy n) else (.advanced, p))
      | some (o, p) => some (o, p)
  | .inAnyOrder cs =>
    match offerFirst? offer cs p with
    | none => none
    | some (.completed, p) =>
      some (if cs.all p.isSatisfied then (.completed, p.satisfy n) else (.advanced, p))
    | some (o, p) => some (o, p)
  | .firstOrSecond a b =>
    match offer a p with
    | none => none
    | some (.completed, p) => some (.completed, plan.discard b (p.satisfy n))
    | some (oa, p) =>
      match offer b p with
      | none => none
      | some (.completed, p) => some (.completed, plan.discard a (p.satisfy n))
      | some (ob, p) => some (oa.either ob, p)

/-- Offers to node `n` if everything that is looked up is there: the node itself, the nodes right
below it, and so on with each node below it to which the offer is passed on. -/
def offerAt? (plan : Plan) (accepts : Interaction → Bool) (n : Nat) (p : Progress) :
    Option (Offer × Progress) :=
  if plan.inRange p n then
    if p.isSatisfied n then some (.ignored, p)
    else
      match plan.node? n with
      | none => none
      | some node =>
        if node.children.all (plan.inRange p) then
          plan.offerNode? accepts
            (fun c p => if _ : c < n then plan.offerAt? accepts c p else none) n p node
        else none
  else none
termination_by n

/-- Offers a submission to the whole rule, if everything that is looked up is there. -/
def offer? (plan : Plan) (e : Evidence) (s : Submission) (p : Progress) :
    Option (Offer × Progress) :=
  plan.offerAt? (e.accepts s) plan.root p

end Plan

end BoardTrial
