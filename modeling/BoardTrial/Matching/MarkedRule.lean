import BoardTrial.Matching.Progress

/-!
# Marked rules

Matching said on the tree itself: a rule in which each leaf that has been done is marked with the
time at which it was. Whether a part is done, and which interactions count for it, is read off its
marks, so nothing is numbered and nothing is ever taken back. `Plan.offer` does the same on numbered
nodes.
-/

namespace BoardTrial

/-- A rule with marks on its leaves. -/
inductive MarkedRule where
  /-- Never done. -/
  | doNothing
  /-- A leaf, with the time at which it was done. -/
  | leaf (i : Interaction) (time : Option Nat)
  /-- Steps to be done in order. -/
  | inOrder (steps : List MarkedRule)
  /-- Clauses to be done in any order. -/
  | inAnyOrder (clauses : List MarkedRule)
  /-- Alternatives of which one is to be done. -/
  | firstOrSecond (first second : MarkedRule)

namespace MarkedRule

mutual

/-- A rule in which nothing has been done. -/
def ofRule : Rule → MarkedRule
  | .doNothing => doNothing
  | .leaf i => leaf i none
  | .inOrder rs => inOrder (ofRules rs)
  | .inAnyOrder rs => inAnyOrder (ofRules rs)
  | .firstOrSecond a b => firstOrSecond (ofRule a) (ofRule b)

/-- Rules in which nothing has been done. -/
def ofRules : List Rule → List MarkedRule
  | [] => []
  | r :: rs => ofRule r :: ofRules rs

end

mutual

/-- Whether the rule is done. -/
def isDone : MarkedRule → Bool
  | doNothing => false
  | leaf _ time => time.isSome
  | inOrder ms | inAnyOrder ms => areDone ms
  | firstOrSecond a b => a.isDone || b.isDone

/-- Whether all of several rules are done. -/
def areDone : List MarkedRule → Bool
  | [] => true
  | m :: ms => m.isDone && areDone ms

end

mutual

/-- The leaves that count, from left to right, with their times. Of alternatives one of which is
done, only its leaves count. -/
def log : MarkedRule → List (Nat × Interaction)
  | doNothing => []
  | leaf i time => time.toList.map fun t => (t, i)
  | inOrder ms | inAnyOrder ms => logs ms
  | firstOrSecond a b =>
    if a.isDone then a.log else if b.isDone then b.log else a.log ++ b.log

/-- The leaves that count of several rules. -/
def logs : List MarkedRule → List (Nat × Interaction)
  | [] => []
  | m :: ms => m.log ++ logs ms

end

/-- What an offer did to a rule, by what it did below and whether the rule is done now. -/
def outcome (o : Offer) (done : Bool) : Offer :=
  match o, done with
  | .ignored, _ => .ignored
  | _, true => .completed
  | _, false => .advanced

mutual

/-- Offers to a rule at time `now` a submission that is accepted for the interactions that `accepts`
holds of. -/
def offer (accepts : Interaction → Bool) (now : Nat) (m : MarkedRule) : Offer × MarkedRule :=
  match m with
  | doNothing => (.ignored, m)
  | leaf i time =>
    if time.isNone && accepts i then (.completed, leaf i (some now)) else (.ignored, m)
  | inOrder ms =>
    let (o, ms) := offerNext accepts now ms
    (outcome o (areDone ms), inOrder ms)
  | inAnyOrder ms =>
    let (o, ms) := offerSome accepts now ms
    (outcome o (areDone ms), inAnyOrder ms)
  | firstOrSecond a b =>
    if a.isDone || b.isDone then (.ignored, m)
    else
      match offer accepts now a with
      | (.completed, a) => (.completed, firstOrSecond a b)
      | (oa, a) =>
        match offer accepts now b with
        | (.completed, b) => (.completed, firstOrSecond a b)
        | (ob, b) => (oa.either ob, firstOrSecond a b)

/-- Offers to the first rule that is not done. -/
def offerNext (accepts : Interaction → Bool) (now : Nat) :
    List MarkedRule → Offer × List MarkedRule
  | [] => (.ignored, [])
  | m :: ms =>
    if m.isDone then
      let (o, ms) := offerNext accepts now ms
      (o, m :: ms)
    else
      let (o, m) := offer accepts now m
      (o, m :: ms)

/-- Offers to one rule after another until one does not ignore it. -/
def offerSome (accepts : Interaction → Bool) (now : Nat) :
    List MarkedRule → Offer × List MarkedRule
  | [] => (.ignored, [])
  | m :: ms =>
    match offer accepts now m with
    | (.ignored, _) =>
      let (o, ms) := offerSome accepts now ms
      (o, m :: ms)
    | (o, m) => (o, m :: ms)

end

end MarkedRule

end BoardTrial
