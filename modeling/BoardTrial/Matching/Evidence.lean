import BoardTrial.Interaction
import BoardTrial.Board.Release

/-!
# Evidence

A participant who moves, puts or drops a token releases it, and a release looks the same whatever it
was meant for. Evidence decides from the places of tokens whether a release shows a directional
interaction.

This module models what makes a leaf accept a submission. As in the program, any evidence may be
used; the one by centers is that of trials.
-/

namespace BoardTrial

/-- Whether a release shows an interaction of the released token. -/
abbrev Evidence := Interaction → Release → Bool

/-- The evidence of centers. A token was moved away if it came further from the other one, put left
of another if it is to its left, and put between two others if it is between them. -/
def Evidence.centers : Evidence
  | .dual .moveAwayFrom _ b, r => r.isFurtherFrom b
  | .dual .putLeftOf _ b, r => r.isLeftOf b
  | .triple .putBetween _ b c, r => r.isBetween b c
  | _, _ => false

/-- What a participant was seen to do: an interaction, and if it ended in a release, where the
tokens were. -/
structure Submission where
  /-- The interaction. -/
  interaction : Interaction
  /-- The release, if there was one. -/
  release : Option Release := none

/-- Whether a submission is accepted for an expected interaction: it is that interaction, or the
touch by which the token acted with was released, and the release shows the interaction. -/
def Evidence.accepts (e : Evidence) (s : Submission) (expected : Interaction) : Bool :=
  s.interaction == expected ||
    match s.interaction, s.release with
    | .single .touch t, some r =>
      expected.action.isDirectional && expected.primary == t && r.token == t && e expected r
    | _, _ => false

/-- A submission, and the evidence that is asked about it. -/
structure Offering where
  /-- The evidence. -/
  evidence : Evidence
  /-- The submission. -/
  submission : Submission

/-- Whether the submission is accepted for an expected interaction. -/
def Offering.accepts (o : Offering) (expected : Interaction) : Bool :=
  o.evidence.accepts o.submission expected

end BoardTrial
