import TabletopDice.Completion
import TabletopDice.Main
import TabletopDice.Odds.Worksheet
import TabletopDice.Roll.Loose
import TabletopDice.Roll.Source
import TabletopDice.Proofs.Law
import TabletopDice.Proofs.Notation.Parse
import TabletopDice.Proofs.Odds.Ends
import TabletopDice.Proofs.Sample
import TabletopDice.Proofs.Odds.Cells
import TabletopDice.Proofs.Odds.Distribution
import TabletopDice.Proofs.Odds.Pool
import TabletopDice.Proofs.Odds.Sum
import TabletopDice.Proofs.Roll.Branch
import TabletopDice.Proofs.Odds.Chain
import TabletopDice.Proofs.Odds.Die
import TabletopDice.Proofs.Dice.Ranking
import TabletopDice.Proofs.Odds.Keep
import TabletopDice.Proofs.Odds.Dice
import TabletopDice.Proofs.Roll.Ending
import TabletopDice.Proofs.Odds.Support
import TabletopDice.Proofs.Odds.Bounds
import TabletopDice.Proofs.Odds.Excess
import TabletopDice.Proofs.Odds.Reach
import TabletopDice.Proofs.Odds.Rounded
import TabletopDice.Proofs.Odds.Drift
import TabletopDice.Proofs.Odds.Refusal
import TabletopDice.Proofs.Odds.Recipe
import TabletopDice.Proofs.Odds.Enclosure
import TabletopDice.Proofs.Odds.Ceiling
import TabletopDice.Proofs.Odds.Alike
import TabletopDice.Proofs.Odds.Idle
import TabletopDice.Proofs.Odds.Reordered
import TabletopDice.Proofs.Dice.Created
import TabletopDice.Proofs.Roll.Alike
import TabletopDice.Proofs.Roll.Idle
import TabletopDice.Proofs.Odds.Faults
import TabletopDice.Proofs.Roll.Shown
import TabletopDice.Proofs.Session
import TabletopDice.Proofs.Odds.Convolution
import TabletopDice.Proofs.Odds.Uncut
import TabletopDice.Proofs.Text.Case
import TabletopDice.Proofs.Notation.Relabel
import TabletopDice.Proofs.Notation.Case
import TabletopDice.Proofs.Roll.Relabel
import TabletopDice.Proofs.FrontEnds
import TabletopDice.Proofs.Dice.Selection
import TabletopDice.Proofs.Roll.Cause
import TabletopDice.Proofs.Roll.Record
import TabletopDice.Proofs.Text.Words
import TabletopDice.Proofs.Dice.Totals
import TabletopDice.Proofs.Report
import TabletopDice.Proofs.Odds.Tails
import TabletopDice.Proofs.Odds.Conditioned
import TabletopDice.Proofs.Odds.Canonical
import TabletopDice.Proofs.Notation.Clause
import TabletopDice.Proofs.Dice.Clauses
import TabletopDice.Proofs.Completion.Term
import TabletopDice.Proofs.Completion.Cycle
import TabletopDice.Proofs.Notation.Classes
import TabletopDice.Proofs.Notation.Canonical
import TabletopDice.Proofs.Dice.Edit
