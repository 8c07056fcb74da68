import LineScript.Builtin.Basic
import LineScript.Builtin.Methods
import LineScript.Fault
import LineScript.Grammar.Error
import LineScript.Grammar.Node
import LineScript.Grammar.Parser
import LineScript.Grammar.Reader
import LineScript.Host.Making
import LineScript.Host.Protocol
import LineScript.Number.Arithmetic
import LineScript.Number.Binary
import LineScript.Number.Layout
import LineScript.Number.Reading
import LineScript.Number.Shortest
import LineScript.Operation.Basic
import LineScript.Operation.Lowering
import LineScript.Proofs.Builtin.Calling
import LineScript.Proofs.Builtin.Progression
import LineScript.Proofs.Builtin.Slicing
import LineScript.Proofs.Builtin.Splitting
import LineScript.Proofs.Grammar.Alike
import LineScript.Proofs.Grammar.Bound
import LineScript.Proofs.Grammar.Climbing
import LineScript.Proofs.Grammar.Construct
import LineScript.Proofs.Grammar.Contained
import LineScript.Proofs.Grammar.Drawn
import LineScript.Proofs.Grammar.Enclosed
import LineScript.Proofs.Grammar.Ending
import LineScript.Proofs.Grammar.Expansion
import LineScript.Proofs.Grammar.Form
import LineScript.Proofs.Grammar.Guard
import LineScript.Proofs.Grammar.Header
import LineScript.Proofs.Grammar.Leniency
import LineScript.Proofs.Grammar.LineBody
import LineScript.Proofs.Grammar.Moves
import LineScript.Proofs.Grammar.Names
import LineScript.Proofs.Grammar.Nesting
import LineScript.Proofs.Grammar.OneLine
import LineScript.Proofs.Grammar.Parenthesis
import LineScript.Proofs.Grammar.Placing
import LineScript.Proofs.Grammar.Productions
import LineScript.Proofs.Grammar.Progress
import LineScript.Proofs.Grammar.Quoting
import LineScript.Proofs.Grammar.Recovery
import LineScript.Proofs.Grammar.Relocation
import LineScript.Proofs.Grammar.Rounds
import LineScript.Proofs.Grammar.Simulation
import LineScript.Proofs.Grammar.Whole
import LineScript.Proofs.Grammar.Wrapping
import LineScript.Proofs.Number.Bits
import LineScript.Proofs.Number.Integer
import LineScript.Proofs.Number.Numeral
import LineScript.Proofs.Number.Rounding
import LineScript.Proofs.Number.Shortest
import LineScript.Proofs.Number.Whole
import LineScript.Proofs.Operation.Imports
import LineScript.Proofs.Operation.Missing
import LineScript.Proofs.Operation.Reentry
import LineScript.Proofs.Operation.Restoring
import LineScript.Proofs.Operation.Tame
import LineScript.Proofs.Operation.Targets
import LineScript.Proofs.Resource.Canonical
import LineScript.Proofs.Resource.Normal
import LineScript.Proofs.Run.Abreast
import LineScript.Proofs.Run.Account
import LineScript.Proofs.Run.Beside
import LineScript.Proofs.Run.Calls
import LineScript.Proofs.Run.Chains
import LineScript.Proofs.Run.Course
import LineScript.Proofs.Run.Ends
import LineScript.Proofs.Run.Log
import LineScript.Proofs.Run.Matching
import LineScript.Proofs.Run.Places
import LineScript.Proofs.Run.Plan
import LineScript.Proofs.Run.Quiet
import LineScript.Proofs.Run.Refinement
import LineScript.Proofs.Run.Settled
import LineScript.Proofs.Run.Snapshot
import LineScript.Proofs.Run.Stepping
import LineScript.Proofs.Run.Steps
import LineScript.Proofs.Run.Structured
import LineScript.Proofs.Session.Exit
import LineScript.Proofs.Session.History
import LineScript.Proofs.Session.InPlace
import LineScript.Proofs.Session.Injection
import LineScript.Proofs.Session.LastActive
import LineScript.Proofs.Session.Locking
import LineScript.Proofs.Session.Stopping
import LineScript.Proofs.Session.Table
import LineScript.Proofs.Text.Occurrence
import LineScript.Proofs.Text.Pieces
import LineScript.Proofs.Token.Breaks
import LineScript.Proofs.Token.Columns
import LineScript.Proofs.Token.FirstLine
import LineScript.Proofs.Token.Fragments
import LineScript.Proofs.Token.Locality
import LineScript.Proofs.Token.Lossless
import LineScript.Proofs.Token.Numbers
import LineScript.Proofs.Token.Positions
import LineScript.Proofs.Token.Scanning
import LineScript.Proofs.Token.Splice
import LineScript.Proofs.Token.Words
import LineScript.Proofs.Value.Order
import LineScript.Proofs.World.Ancestry
import LineScript.Proofs.World.Backdrop
import LineScript.Proofs.World.Calm
import LineScript.Proofs.World.Copying
import LineScript.Proofs.World.Detour
import LineScript.Proofs.World.Equality
import LineScript.Proofs.World.Indexing
import LineScript.Proofs.World.Proper
import LineScript.Proofs.World.Readers
import LineScript.Proofs.World.Scoping
import LineScript.Proofs.World.Sealed
import LineScript.Proofs.World.Tables
import LineScript.Proofs.World.Writing
import LineScript.Resource
import LineScript.Run.Basic
import LineScript.Run.Evaluation
import LineScript.Run.Steps
import LineScript.Session
import LineScript.Session.Request
import LineScript.Source
import LineScript.Text.Blank
import LineScript.Text.Case
import LineScript.Text.Search
import LineScript.Token.Basic
import LineScript.Token.Operator
import LineScript.Token.Scanner
import LineScript.Value.Basic
import LineScript.Value.OrderedMap
import LineScript.Value.Path
import LineScript.World.Basic
import LineScript.World.Frames
import LineScript.World.Heap
import LineScript.World.Inspect
import LineScript.World.Liveness
import LineScript.World.Operators
