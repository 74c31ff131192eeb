import Quaint.Step
import Quaint.Exec
import Quaint.Bytes
import Quaint.TypeCheck
import Quaint.Codegen
import Quaint.Transition
import Quaint.Control
import Quaint.Effect
import Quaint.Partial
import Quaint.Ancestry
import Quaint.Program
import Quaint.Activation
import Quaint.Reaping
import Quaint.Emit
import Quaint.Generated
import Quaint.Listing
import Quaint.Typing
import Quaint.Layout
import Quaint.Operand
import Quaint.Legality
import Quaint.Defined
import Quaint.Bounds
import Quaint.Storage
import Quaint.Linking
import Quaint.Above
import Quaint.Fetch
import Quaint.Progress
import Quaint.Timeouts
import Quaint.Munching
import Quaint.AddressOf
import Quaint.Precedence
import Quaint.Arguments
import Quaint.Recovery
import Quaint.WaitLabels
import Quaint.Starting
import Quaint.Parts
import Quaint.Shortcut
import Quaint.Critical
import Quaint.Exact
import Quaint.Aliases
import Quaint.Casting
import Quaint.Certain
import Quaint.Source
import Quaint.Arith
import Quaint.Window
import Quaint.Compute
import Quaint.Correct
import Quaint.Literals
import Quaint.Locating
import Quaint.Comments
import Quaint.Enumerations
import Quaint.Promotion
import Quaint.Cursors
import Quaint.Diagnosis
import Quaint.Tables
import Quaint.Solitary
import Quaint.Meaning
import Quaint.Nesting
import Quaint.Evaluate
import Quaint.Invoke
import Quaint.Perform
import Quaint.Recursion
import Quaint.Delivery
import Quaint.Formed
import Quaint.FiniteMap
import Quaint.Pipeline
import Quaint.Spacing
