import DurationCalculator.Main
import DurationCalculator.Value.Steps
import DurationCalculator.Duration.Steps
import DurationCalculator.Proofs.Grammar.Meaning
import DurationCalculator.Proofs.Evaluation.Misplaced
import DurationCalculator.Proofs.Evaluation.Agreement
import DurationCalculator.Proofs.Token.Acceptance
import DurationCalculator.Proofs.Token.ScanErrors
import DurationCalculator.Proofs.Evaluation.Unread
import DurationCalculator.Proofs.Evaluation.Reentry
import DurationCalculator.Proofs.Literal.Order
import DurationCalculator.Proofs.Literal.Cascade
import DurationCalculator.Proofs.Literal.Fraction
import DurationCalculator.Proofs.Evaluation.Groups
import DurationCalculator.Proofs.Evaluation.Kinds
import DurationCalculator.Proofs.Evaluation.Separators
import DurationCalculator.Proofs.Evaluation.FractionReentry
import DurationCalculator.Proofs.Evaluation.Continuations
import DurationCalculator.Proofs.CommandLine.Expression
import DurationCalculator.Proofs.Evaluation.Trace
import DurationCalculator.Proofs.Value.Outcome
import DurationCalculator.Proofs.Literal.Scanned
import DurationCalculator.Proofs.Evaluation.Compound
import DurationCalculator.Proofs.Binary64.Sign
import DurationCalculator.Proofs.Literal.Sign
import DurationCalculator.Proofs.TextField
import DurationCalculator.Proofs.Trace.Lines
import DurationCalculator.Proofs.Binary64.Integers
import DurationCalculator.Proofs.Evaluation.Parentheses
import DurationCalculator.Proofs.Literal.Shares
import DurationCalculator.Proofs.Calculation
import DurationCalculator.Proofs.CommandLine.Options
