import BoardTrial.Matching.MarkedRule

/-!
# Logged rules

Matching by recursion over the rule itself, as one would explain it: each part of the rule bears a
mark that says whether it is done, and a log of the interactions that count for it. A part takes its
log from the parts below it, in the order in which they happened, and alternatives only from the one
that is done. Nothing is numbered, and no log is ever searched. `Plan.offer` answers alike and leaves
the same marks and the same log (`Plan.refines_logged`).

A marked rule (`MarkedRule`) keeps marks on its leaves alone, and works out the rest.
-/

namespace BoardTrial

/-- What has happened at which time. -/
abbrev Log := List (Nat × Interaction)

/-- The entries in the order of their times. Those of one time stay in order. -/
def Log.byTime (log : Log) : Log := log.mergeSort fun x y => x.1 ≤ y.1

/-- A rule in which each part bears a mark and a log. -/
inductive LoggedRule where
  /-- Never done. -/
  | doNothing
  /-- A leaf. -/
  | leaf (i : Interaction) (done : Bool) (log : Log)
  /-- Steps to be done in order. -/
  | inOrder (steps : List LoggedRule) (done : Bool) (log : Log)
  /-- Clauses to be done in any order. -/
  | inAnyOrder (clauses : List LoggedRule) (done : Bool) (log : Log)
  /-- Alternatives of which one is to be done. -/
  | firstOrSecond (first second : LoggedRule) (done : Bool) (log : Log)

namespace LoggedRule

/-- Whether the rule is done. -/
def isDone : LoggedRule → Bool
  | doNothing => false
  | leaf _ done _ | inOrder _ done _ | inAnyOrder _ done _ | firstOrSecond _ _ done _ => done

/-- What counts for the rule. -/
def log : LoggedRule → Log
  | doNothing => []
  | leaf _ _ log | inOrder _ _ log | inAnyOrder _ _ log | firstOrSecond _ _ _ log => log

/-- What counts for several rules. -/
def joined (ms : List LoggedRule) : Log := Log.byTime (ms.flatMap log)

/-- The interactions that count, in the order in which they happened. -/
def accepted (m : LoggedRule) : List Interaction := m.log.map (·.2)

mutual

/-- A rule to which nothing has happened. Sequences and sets without parts are done. -/
def ofRule : Rule → LoggedRule
  | .doNothing => doNothing
  | .leaf i => leaf i false []
  | .inOrder rs =>
    let ms := ofRules rs
    inOrder ms (ms.all isDone) []
  | .inAnyOrder rs =>
    let ms := ofRules rs
    inAnyOrder ms (ms.all isDone) []
  | .firstOrSecond a b =>
    let a := ofRule a
    let b := ofRule b
    firstOrSecond a b (a.isDone || b.isDone) []

/-- Rules to which nothing has happened. -/
def ofRules : List Rule → List LoggedRule
  | [] => []
  | r :: rs => ofRule r :: ofRules rs

end

mutual

/-- Whether each part of a rule is done: the parts below it, and then itself. -/
def marks : LoggedRule → List Bool
  | doNothing => [false]
  | leaf _ done _ => [done]
  | inOrder ms done _ | inAnyOrder ms done _ => marksOfAll ms ++ [done]
  | firstOrSecond a b done _ => marks a ++ marks b ++ [done]

/-- Whether each part of several rules is done. -/
def marksOfAll : List LoggedRule → List Bool
  | [] => []
  | m :: ms => marks m ++ marksOfAll ms

end

mutual

/-- Offers to a rule at time `now` a submission that is accepted for the interactions that `accepts`
holds of. What is done ignores it. -/
def offer (accepts : Interaction → Bool) (now : Nat) (m : LoggedRule) : Offer × LoggedRule :=
  match m with
  | doNothing => (.ignored, m)
  | leaf i done _ =>
    if !done && accepts i then (.completed, leaf i true [(now, i)]) else (.ignored, m)
  | inOrder ms done _ =>
    if done then (.ignored, m)
    else
      let (o, ms) := offerNext accepts now ms
      let done := ms.all isDone
      (MarkedRule.outcome o done, inOrder ms done (joined ms))
  | inAnyOrder ms done _ =>
    if done then (.ignored, m)
    else
      let (o, ms) := offerSome accepts now ms
      let done := ms.all isDone
      (MarkedRule.outcome o done, inAnyOrder ms done (joined ms))
  | firstOrSecond a b done _ =>
    if done then (.ignored, m)
    else
      match offer accepts now a with
      | (.completed, a) => (.completed, firstOrSecond a b true a.log)
      | (oa, a) =>
        match offer accepts now b with
        | (.completed, b) => (.completed, firstOrSecond a b true b.log)
        | (ob, b) => (oa.either ob, firstOrSecond a b false (joined [a, b]))

/-- Offers to the first rule that is not done. -/
def offerNext (accepts : Interaction → Bool) (now : Nat) :
    List LoggedRule → Offer × List LoggedRule
  | [] => (.ignored, [])
  | m :: ms =>
    if m.isDone then
      let (o, ms) := offerNext accepts now ms
      (o, m :: ms)
    else
      let (o, m) := offer accepts now m
      (o, m :: ms)

/-- Offers to one rule after another until one does not ignore it. -/
def offerSome (accepts : Interaction → Bool) (now : Nat) :
    List LoggedRule → Offer × List LoggedRule
  | [] => (.ignored, [])
  | m :: ms =>
    match offer accepts now m with
    | (.ignored, _) =>
      let (o, ms) := offerSome accepts now ms
      (o, m :: ms)
    | (o, m) => (o, m :: ms)

end

/-- Offers submissions one after another, each at the time that says how many there were before. -/
def offerAll (e : Evidence) (m : LoggedRule) (ss : List Submission) : LoggedRule :=
  ss.zipIdx.foldl (fun m x => (m.offer (e.accepts x.1) x.2).2) m

end LoggedRule

end BoardTrial
