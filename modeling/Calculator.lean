import Calculator.Text
import Calculator.Text.Lexeme
import Calculator.Operator
import Calculator.Decimal
import Calculator.Decimal.Shortest
import Calculator.Expression
import Calculator.Repair
import Calculator.Zone
import Calculator.Editor.Action
import Calculator.Interface
import Calculator.Grammar
import Calculator.Proofs.Tree.Reduction
import Calculator.Proofs.Postfix.Arrival
import Calculator.Proofs.Postfix.Order
import Calculator.Proofs.Expression.Passes
import Calculator.Proofs.Expression.Written
import Calculator.Proofs.Grammar.Slot
import Calculator.Proofs.Grammar.Recognition
import Calculator.Proofs.Postfix.Acceptance
import Calculator.Proofs.Binary64.Negation
import Calculator.Proofs.Decimal.BareNumber
import Calculator.Proofs.Editor.Coherence
import Calculator.Proofs.Typing.Position
import Calculator.Proofs.Typing.Word
import Calculator.Proofs.Typing.Standing
import Calculator.Proofs.Typing.Edit
import Calculator.Proofs.Typing.Session
import Calculator.Proofs.Repair.Mending
import Calculator.Proofs.Repair.Settled
import Calculator.Proofs.Repair.Termination
import Calculator.Proofs.Text.Nesting
import Calculator.Proofs.Text.Runs
import Calculator.Proofs.Postfix.Fault
import Calculator.Proofs.Expression.Respelling
import Calculator.Proofs.Expression.Fault
import Calculator.Proofs.Expression.Nesting
import Calculator.Proofs.Editor.Invariant
import Calculator.Proofs.Editor.Nesting
import Calculator.Proofs.Repair.Closing
import Calculator.Proofs.Expression.Points
import Calculator.Proofs.Decimal.Tidy
import Calculator.Proofs.Editor.Numerals
import Calculator.Proofs.Expression.Ending
import Calculator.Proofs.Repair.Outcome
import Calculator.Proofs.Editor.Commit
import Calculator.Proofs.Editor.Preview
import Calculator.Proofs.Session.History
import Calculator.Proofs.Expression.Linked
import Calculator.Proofs.Expression.Percent
import Calculator.Proofs.Session.Picture
import Calculator.Proofs.Editor.Percents
import Calculator.Proofs.Binary64.Division
import Calculator.Proofs.Expression.Group
import Calculator.Proofs.Session.Clearing
import Calculator.Proofs.Postfix.Group
import Calculator.Proofs.Expression.Operand
import Calculator.Proofs.Editor.Answer
import Calculator.Proofs.Binary64.Bits
import Calculator.Proofs.Binary64.Order
import Calculator.Proofs.Binary64.Nearest
import Calculator.Proofs.Decimal.Reading
import Calculator.Proofs.Decimal.Stability
import Calculator.Proofs.Binary64.Sign
import Calculator.Proofs.Postfix.Signs
import Calculator.Proofs.Expression.GroupPercent
import Calculator.Proofs.Expression.Hundreds
import Calculator.Proofs.Repair.Numerals
import Calculator.Proofs.Editor.Entry
import Calculator.Proofs.Binary64.Value
import Calculator.Proofs.Decimal.Result
import Calculator.Proofs.Zone.First
import Calculator.Proofs.Zone.StrayPercent
import Calculator.Proofs.Zone.ZeroDivisor
import Calculator.Proofs.Editor.Sign
import Calculator.Proofs.Token.Language
import Calculator.Proofs.Expression.Spelling
import Calculator.Proofs.Expression.Cause
import Calculator.Proofs.Tree.Rebuilding
import Calculator.Proofs.Postfix.Rearrangement
import Calculator.Proofs.Zone.Location
import Calculator.Proofs.Editor.Fields
import Calculator.Proofs.Repair.Slips
import Calculator.Proofs.Expression.Beginning
import Calculator.Proofs.Repair.Leftover
