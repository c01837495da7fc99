import BoardTrial.Main
import BoardTrial.Rule.Canonical
import BoardTrial.Rule.Completable
import BoardTrial.Rule.Context
import BoardTrial.Rule.Performance
import BoardTrial.RuleText.Grammar
import BoardTrial.RuleText.Spelling
import BoardTrial.RuleText.Spacing
import BoardTrial.RuleText.Complete
import BoardTrial.RuleText.Drawing
import BoardTrial.Matching.MarkedRule
import BoardTrial.Matching.LoggedRule
import BoardTrial.Matching.CheckedOffer
import BoardTrial.Matching.Postorder
import BoardTrial.Board.Dragging
import BoardTrial.Board.Past
import BoardTrial.Text.Numeral
import BoardTrial.Script.Written
import BoardTrial.Proofs.Performance
import BoardTrial.Proofs.MarkedRule
import BoardTrial.Proofs.Chronology
import BoardTrial.Proofs.Greedy
import BoardTrial.Proofs.PlanLayout
import BoardTrial.Proofs.Tells
import BoardTrial.Proofs.PlanOffers
import BoardTrial.Proofs.PlanFollows
import BoardTrial.Proofs.PlanFresh
import BoardTrial.Proofs.PlanRuns
import BoardTrial.Proofs.LoggedRule
import BoardTrial.Proofs.Coherence
import BoardTrial.Proofs.CheckedOffers
import BoardTrial.Proofs.Recognition
import BoardTrial.Proofs.Results
import BoardTrial.Proofs.Conclusions
import BoardTrial.Proofs.Wordings
import BoardTrial.Proofs.Remainders
import BoardTrial.Proofs.Drafts
import BoardTrial.Proofs.Lexing
import BoardTrial.Proofs.Grammar
import BoardTrial.Proofs.RoundTrip
import BoardTrial.Proofs.Completion
import BoardTrial.Proofs.SessionSteps
import BoardTrial.Proofs.Linearization
import BoardTrial.Proofs.Dragging
import BoardTrial.Proofs.Endings
import BoardTrial.Proofs.Clauses
import BoardTrial.Proofs.Reordering
import BoardTrial.Proofs.Growth
import BoardTrial.Proofs.Replay
import BoardTrial.Proofs.Regrouping
import BoardTrial.Proofs.Places
import BoardTrial.Proofs.Origins
import BoardTrial.Proofs.Parts
import BoardTrial.Proofs.Postorder
import BoardTrial.Proofs.Survivors
import BoardTrial.Proofs.Sharing
import BoardTrial.Proofs.Unexpected
import BoardTrial.Proofs.Tiling
import BoardTrial.Proofs.Spacing
import BoardTrial.Proofs.Diagnoses
import BoardTrial.Proofs.Reports
import BoardTrial.Proofs.WrittenGestures
import BoardTrial.Proofs.Numerals
import BoardTrial.Proofs.Renderings
import BoardTrial.Proofs.Scripts
import BoardTrial.Proofs.Geometry
import BoardTrial.Proofs.CompletedTrials
