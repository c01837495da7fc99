import BoardTrial.Matching.Progress

/-!
# Matchers

A matcher takes submissions until its rule is satisfied or it is told to give up. Then it hands out
one result and takes nothing more.

This module models the matcher and its conclusion. In place of calling back, it replies with the
result; a referee collects what is called back. Not modelled: when a trial began and when it was
concluded, the response time between the two, and what is logged.
-/

namespace BoardTrial

/-- How a trial ended. -/
inductive Outcome where
  /-- The rule was satisfied. -/
  | satisfied
  /-- The trial was given up. -/
  | expired
  deriving DecidableEq

namespace Outcome

/-- The word for an outcome. -/
def word : Outcome → String
  | satisfied => "satisfied"
  | expired => "expired"

end Outcome

/-- What is told of a trial when it ends. -/
structure TrialResult where
  /-- The rule of the trial. -/
  rule : Rule
  /-- How it ended. -/
  outcome : Outcome
  /-- The interactions that counted, in the order in which they happened. -/
  accepted : List Interaction
  /-- How many submissions there were. -/
  submissions : Nat
  deriving DecidableEq

/-- A rule being matched. -/
structure Matcher where
  /-- The rule. -/
  rule : Rule
  /-- What decides whether a release shows an interaction. -/
  evidence : Evidence
  /-- The plan of the rule. -/
  plan : Plan
  /-- How much of it has happened. -/
  progress : Progress
  /-- How many submissions have been taken. -/
  submissions : Nat
  /-- Whether the result has been handed out. -/
  concluded : Bool

namespace Matcher

/-- A matcher that has taken nothing yet. -/
def ofRule (r : Rule) (e : Evidence) : Matcher :=
  let plan := Plan.ofRule r
  ⟨r, e, plan, plan.fresh, 0, false⟩

/-- Whether the rule is satisfied. -/
def isSatisfied (m : Matcher) : Bool := m.progress.isSatisfied m.plan.root

/-- The interactions that count so far, in the order in which they happened. -/
def accepted (m : Matcher) : List Interaction := m.progress.history.filterMap m.plan.interaction?

/-- The result, if the trial ends like this. -/
def result (m : Matcher) (o : Outcome) : TrialResult := ⟨m.rule, o, m.accepted, m.submissions⟩

/-- What came of asking a matcher for something. -/
structure Reply (α : Type) where
  /-- The answer. -/
  answer : α
  /-- The result, if it was handed out now. -/
  result : Option TrialResult
  /-- The matcher afterwards. -/
  next : Matcher

/-- Takes a submission, unless the result has been handed out. -/
def submit (m : Matcher) (s : Submission) : Reply Offer :=
  if m.concluded then ⟨.ignored, none, m⟩
  else
    let (o, p) := m.plan.offer m.evidence s m.progress
    let m := { m with progress := p, submissions := m.submissions + 1 }
    if m.isSatisfied then ⟨o, some (m.result .satisfied), { m with concluded := true }⟩
    else ⟨o, none, m⟩

/-- Gives up, unless the result has been handed out; the answer says whether it was now. -/
def expire (m : Matcher) : Reply Bool :=
  if m.concluded then ⟨false, none, m⟩
  else ⟨true, some (m.result .expired), { m with concluded := true }⟩

end Matcher

/-- A matcher together with the results it has handed out. -/
structure Referee where
  /-- The matcher. -/
  matcher : Matcher
  /-- The results, in the order in which they were handed out. -/
  results : List TrialResult := []

namespace Referee

/-- Nothing has been submitted. -/
def ofRule (r : Rule) (e : Evidence) : Referee := { matcher := .ofRule r e }

/-- Passes a submission on to the matcher. -/
def submit (r : Referee) (s : Submission) : Offer × Referee :=
  let reply := r.matcher.submit s
  (reply.answer, ⟨reply.next, r.results ++ reply.result.toList⟩)

/-- Lets the matcher give up. -/
def expire (r : Referee) : Bool × Referee :=
  let reply := r.matcher.expire
  (reply.answer, ⟨reply.next, r.results ++ reply.result.toList⟩)

end Referee

end BoardTrial
