import Reshape.Entries
import Reshape.Word
import Reshape.Text.Blank
import Reshape.Text.Integer
import Reshape.Text.Quoted
import Reshape.Number.Basic
import Reshape.Number.Decimal
import Reshape.Number.Shortest
import Reshape.Number.Text
import Reshape.Json.Basic
import Reshape.Json.Equality
import Reshape.Json.Locator
import Reshape.Json.Writer
import Reshape.Json.Codec
import Reshape.Json.Grammar
import Reshape.Json.Interchange
import Reshape.Json.Reference.Tree
import Reshape.Json.Reference.Reader
import Reshape.Json.Reference.Writer
import Reshape.Json.Reference.Value
import Reshape.Path.Component
import Reshape.Path.Parser
import Reshape.Path.Encoding
import Reshape.Machine.Stack
import Reshape.Machine.Limits
import Reshape.Machine.Cursor
import Reshape.Machine.View
import Reshape.Machine.Error
import Reshape.Machine.Event
import Reshape.Machine.State
import Reshape.Machine.Effect
import Reshape.Machine.Run
import Reshape.Machine.Fuel
import Reshape.Program.Comparison
import Reshape.Program.Instruction
import Reshape.Move.Strategy
import Reshape.Move.Route
import Reshape.Move.Program
import Reshape.Move.Apply
import Reshape.Proofs.Cursor.Change
import Reshape.Proofs.Cursor.Coherent
import Reshape.Proofs.Machine.Effect
import Reshape.Proofs.Machine.Composed
import Reshape.Proofs.Machine.Invariant
import Reshape.Proofs.Machine.Allowed
import Reshape.Proofs.Machine.Breadcrumbs
import Reshape.Proofs.Json.Place
import Reshape.Proofs.Json.Size
import Reshape.Proofs.Machine.Realize
import Reshape.Proofs.Move.Correct
import Reshape.Proofs.Move.Frame
import Reshape.Proofs.Move.PatternMove
import Reshape.Proofs.Move.Append
import Reshape.Proofs.Move.Replication
import Reshape.Proofs.Move.SimpleMove
import Reshape.Proofs.Machine.Footprint
import Reshape.Proofs.Machine.Step
import Reshape.Proofs.Machine.CleanUp
import Reshape.Proofs.Machine.Deleted
import Reshape.Proofs.Machine.Law
import Reshape.Proofs.Machine.Budget
import Reshape.Proofs.Machine.Lockstep
import Reshape.Proofs.Machine.Ceilings
import Reshape.Proofs.Machine.Afford
import Reshape.Proofs.Machine.Typing
import Reshape.Proofs.Move.Typing
import Reshape.Proofs.Move.Offset
import Reshape.Proofs.Move.SelfMove
import Reshape.Proofs.Move.Settled
import Reshape.Proofs.Move.Cost
import Reshape.Proofs.Move.Idempotent
import Reshape.Proofs.Path.RoundTrip
import Reshape.Proofs.Machine.Accounts
import Reshape.Proofs.Machine.Halting
import Reshape.Proofs.Machine.Touches
import Reshape.Proofs.Machine.Fresh
import Reshape.Proofs.Move.Batch
import Reshape.Proofs.Number.IntegerText
import Reshape.Proofs.Json.Contents
import Reshape.Proofs.Json.Lexeme
import Reshape.Proofs.Json.Reading
import Reshape.Proofs.Json.RoundTrip
import Reshape.Proofs.Json.Alike
import Reshape.Proofs.Json.Laws
import Reshape.Proofs.Json.Interchange
import Reshape.Proofs.Move.Commute
import Reshape.Proofs.Move.Accepted
import Reshape.Proofs.Machine.Rounds
import Reshape.Proofs.Machine.Operands
import Reshape.Proofs.Machine.Quiet
import Reshape.Proofs.Machine.Abreast
import Reshape.Proofs.Machine.Unrolled
import Reshape.Proofs.Path.Seam
import Reshape.Proofs.Machine.Lens
import Reshape.Proofs.Machine.Layers
import Reshape.Proofs.Move.Tally
import Reshape.Proofs.Path.Brackets
import Reshape.Proofs.Path.Spacing
import Reshape.Proofs.Machine.Ending
import Reshape.Proofs.Machine.Mapped
import Reshape.Proofs.Json.Growth
import Reshape.Proofs.Machine.Growth
import Reshape.Proofs.Entries
import Reshape.Proofs.Machine.Union
import Reshape.Proofs.Machine.Completions
import Reshape.Proofs.Number.Nearest
import Reshape.Proofs.Machine.Arithmetic
import Reshape.Proofs.Move.Descent
import Reshape.Proofs.Move.Heads
