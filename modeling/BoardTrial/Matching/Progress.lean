import BoardTrial.Matching.Plan
import BoardTrial.Matching.Evidence

/-!
# Progress

How much of a plan has happened, and what a submission does to it. Offering a submission to a node
(`Plan.offerAt`) satisfies at most one pending leaf for each way the alternatives of the rule can
still go, and says whether anything changed and whether the node is now satisfied.

A sequence offers to its first node that is not satisfied. Nodes in any order are tried as they are
written, until one takes the submission. Both alternatives are offered the submission, and when one
is satisfied the leaves of the other are forgotten.

This module models the matching of one interaction after another against a plan.
-/

namespace BoardTrial

/-- How much of a plan has happened. -/
structure Progress where
  /-- By number, whether a node is satisfied. -/
  satisfied : Array Bool
  /-- By number, for nodes in sequence: how many of them are behind. -/
  cursor : Array Nat
  /-- The leaves that count, in the order in which they were satisfied. -/
  history : List Nat
  deriving DecidableEq

namespace Progress

/-- Nothing has happened to `n` nodes. -/
def zero (n : Nat) : Progress := ⟨Array.replicate n false, Array.replicate n 0, []⟩

/-- Whether node `n` is satisfied. -/
def isSatisfied (p : Progress) (n : Nat) : Bool := p.satisfied.getD n false

/-- How many nodes of the sequence `n` are behind. -/
def cursorAt (p : Progress) (n : Nat) : Nat := p.cursor.getD n 0

/-- Node `n` is satisfied. -/
def satisfy (p : Progress) (n : Nat) : Progress :=
  { p with satisfied := p.satisfied.setIfInBounds n true }

/-- Leaf `n` counts. -/
def record (p : Progress) (n : Nat) : Progress := { p with history := p.history ++ [n] }

/-- The satisfied nodes of the sequence `n` are put behind, up to the first that is not. -/
def skip (p : Progress) (n : Nat) (children : List Nat) : Progress :=
  let c := p.cursorAt n
  let c' := c + ((children.drop c).takeWhile p.isSatisfied).length
  { p with cursor := p.cursor.setIfInBounds n c' }

/-- The numbers of the satisfied nodes, in increasing order. -/
def satisfiedNodes (p : Progress) : List Nat :=
  (List.range p.satisfied.size).filter p.isSatisfied

/-! What each operation does to what can be seen of a progress. -/

@[simp] theorem isSatisfied_zero (n m : Nat) : (zero n).isSatisfied m = false := by
  simp [zero, isSatisfied, Array.getD_eq_getD_getElem?, Array.getElem?_replicate]
  split <;> rfl

theorem isSatisfied_satisfy (p : Progress) (n m : Nat) :
    (p.satisfy n).isSatisfied m = (p.isSatisfied m || decide (m = n ∧ n < p.satisfied.size)) := by
  simp only [isSatisfied, satisfy, Array.getD_eq_getD_getElem?, Array.getElem?_setIfInBounds]
  by_cases h : n = m
  · subst h
    by_cases hn : n < p.satisfied.size <;> simp [hn]
  · simp [h, Ne.symm h]

@[simp] theorem isSatisfied_record (p : Progress) (n m : Nat) :
    (p.record n).isSatisfied m = p.isSatisfied m := rfl

@[simp] theorem isSatisfied_skip (p : Progress) (n m : Nat) (cs : List Nat) :
    (p.skip n cs).isSatisfied m = p.isSatisfied m := rfl

@[simp] theorem cursorAt_satisfy (p : Progress) (n m : Nat) :
    (p.satisfy n).cursorAt m = p.cursorAt m := rfl

@[simp] theorem cursorAt_record (p : Progress) (n m : Nat) :
    (p.record n).cursorAt m = p.cursorAt m := rfl

theorem cursorAt_skip_of_ne (p : Progress) {n m : Nat} (cs : List Nat) (h : m ≠ n) :
    (p.skip n cs).cursorAt m = p.cursorAt m := by
  simp [cursorAt, skip, Array.getD_eq_getD_getElem?, Ne.symm h]

theorem cursorAt_skip_self (p : Progress) {n : Nat} (cs : List Nat) (h : n < p.cursor.size) :
    (p.skip n cs).cursorAt n =
      p.cursorAt n + ((cs.drop (p.cursorAt n)).takeWhile p.isSatisfied).length := by
  simp [cursorAt, skip, Array.getD_eq_getD_getElem?, h]

@[simp] theorem history_satisfy (p : Progress) (n : Nat) : (p.satisfy n).history = p.history := rfl

@[simp] theorem history_skip (p : Progress) (n : Nat) (cs : List Nat) :
    (p.skip n cs).history = p.history := rfl

@[simp] theorem history_record (p : Progress) (n : Nat) :
    (p.record n).history = p.history ++ [n] := rfl

end Progress

/-- What a submission did to a node. -/
inductive Offer where
  /-- Nothing. -/
  | ignored
  /-- Something below the node was satisfied, but not the node. -/
  | advanced
  /-- The node was satisfied. -/
  | completed
  deriving DecidableEq

namespace Offer

/-- What a submission did to two alternatives neither of which it satisfied. -/
def either (a b : Offer) : Offer :=
  if a = advanced ∨ b = advanced then advanced else ignored

end Offer

namespace Plan

/-- Forgets the leaves of `n`. -/
def discard (plan : Plan) (n : Nat) (p : Progress) : Progress :=
  { p with history := p.history.filter fun m => !plan.isWithin n m }

@[simp] theorem isSatisfied_discard (plan : Plan) (n m : Nat) (p : Progress) :
    (plan.discard n p).isSatisfied m = p.isSatisfied m := rfl

@[simp] theorem cursorAt_discard (plan : Plan) (n m : Nat) (p : Progress) :
    (plan.discard n p).cursorAt m = p.cursorAt m := rfl

/-! ### Before anything has happened -/

/-- Satisfies node `n` if the nodes below it leave nothing to wait for. -/
def settle (plan : Plan) (p : Progress) (n : Nat) : Progress :=
  match plan.node? n with
  | some (.inOrder cs) =>
    let p := p.skip n cs
    if p.cursorAt n = cs.length then p.satisfy n else p
  | some (.inAnyOrder cs) => if cs.all p.isSatisfied then p.satisfy n else p
  | some (.firstOrSecond a b) => if p.isSatisfied a || p.isSatisfied b then p.satisfy n else p
  | some .nothing | some (.leaf _) | none => p

/-- Nothing has happened. Sequences and sets without nodes are satisfied from the start. -/
def fresh (plan : Plan) : Progress :=
  (List.range plan.size).foldl plan.settle (.zero plan.size)

/-! ### Offers -/

/-- Offers to one node after another until one does not ignore it. -/
def offerFirst (offer : Nat → Progress → Offer × Progress) : List Nat → Progress → Offer × Progress
  | [], p => (.ignored, p)
  | c :: cs, p =>
    match offer c p with
    | (.ignored, p) => offerFirst offer cs p
    | (o, p) => (o, p)

/-- Offers to node `n`, which is not satisfied, given how to offer to a node below it. -/
def offerNode (plan : Plan) (accepts : Interaction → Bool)
    (offer : Nat → Progress → Offer × Progress) (n : Nat) (p : Progress) : Node → Offer × Progress
  | .nothing => (.ignored, p)
  | .leaf i => if accepts i then (.completed, (p.satisfy n).record n) else (.ignored, p)
  | .inOrder cs =>
    match cs[p.cursorAt n]? with
    | none => (.ignored, p)
    | some c =>
      match offer c p with
      | (.completed, p) =>
        let p := p.skip n cs
        if p.cursorAt n = cs.length then (.completed, p.satisfy n) else (.advanced, p)
      | (o, p) => (o, p)
  | .inAnyOrder cs =>
    match offerFirst offer cs p with
    | (.completed, p) =>
      if cs.all p.isSatisfied then (.completed, p.satisfy n) else (.advanced, p)
    | (o, p) => (o, p)
  | .firstOrSecond a b =>
    match offer a p with
    | (.completed, p) => (.completed, plan.discard b (p.satisfy n))
    | (oa, p) =>
      match offer b p with
      | (.completed, p) => (.completed, plan.discard a (p.satisfy n))
      | (ob, p) => (oa.either ob, p)

/-- Offers to node `n` a submission that is accepted for the interactions that `accepts` holds of.
The nodes below `n` have smaller numbers; no other node is ever offered to. -/
def offerAt (plan : Plan) (accepts : Interaction → Bool) (n : Nat) (p : Progress) :
    Offer × Progress :=
  if p.isSatisfied n then (.ignored, p)
  else
    match plan.node? n with
    | none => (.ignored, p)
    | some node =>
      plan.offerNode accepts
        (fun c p => if _ : c < n then plan.offerAt accepts c p else (.ignored, p)) n p node
termination_by n

/-- Offers a submission to the whole rule. -/
def offer (plan : Plan) (e : Evidence) (s : Submission) (p : Progress) : Offer × Progress :=
  plan.offerAt (e.accepts s) plan.root p

/-- What is offered one after another, from a progress on. -/
def offerAll (plan : Plan) (e : Evidence) (p : Progress) (ss : List Submission) : Progress :=
  ss.foldl (fun p s => (plan.offer e s p).2) p

/-- What is offered one after another, each with evidence of its own, from a progress on. -/
def offerEach (plan : Plan) (p : Progress) (os : List Offering) : Progress :=
  os.foldl (fun p o => (plan.offer o.evidence o.submission p).2) p

/-- What is answered to what is offered one after another, from a progress on. -/
def answers (plan : Plan) (p : Progress) : List Offering → List Offer
  | [] => []
  | o :: os =>
    let (answer, p) := plan.offer o.evidence o.submission p
    answer :: plan.answers p os

/-- Whether node `n` is a leaf that is not satisfied. -/
def isOpenLeaf (plan : Plan) (p : Progress) (n : Nat) : Bool :=
  (plan.interaction? n).isSome && !p.isSatisfied n

/-- The leaves that are not satisfied, in increasing order. -/
def openLeaves (plan : Plan) (p : Progress) : List Nat :=
  (List.range plan.size).filter (plan.isOpenLeaf p)

end Plan

end BoardTrial
