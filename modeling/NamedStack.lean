import NamedStack.Address.Base58
import NamedStack.Address.ScriptHash
import NamedStack.Bytes
import NamedStack.Command.Directory
import NamedStack.Command.Flags
import NamedStack.Command.Run
import NamedStack.Compile.Batch
import NamedStack.Compile.Unit
import NamedStack.Context.Basic
import NamedStack.Context.Branch
import NamedStack.Context.Routing
import NamedStack.Engine.Effect
import NamedStack.Engine.Run
import NamedStack.Environment
import NamedStack.Failure
import NamedStack.Format.Directive
import NamedStack.Format.Fill
import NamedStack.Format.Layout
import NamedStack.Format.Value
import NamedStack.Hash.Blocks
import NamedStack.Hash.Opcode
import NamedStack.Hash.Ripemd160
import NamedStack.Hash.Sha1
import NamedStack.Hash.Sha256
import NamedStack.Instr
import NamedStack.Log
import NamedStack.Machine.AltSlots
import NamedStack.Machine.State
import NamedStack.Main
import NamedStack.Metrics.Histogram
import NamedStack.Metrics.Registry
import NamedStack.Opcode
import NamedStack.Options
import NamedStack.Peephole.Rule
import NamedStack.Peephole.Rules
import NamedStack.Report
import NamedStack.Resolve.Expand
import NamedStack.Resolve.Measure
import NamedStack.Resolve.Run
import NamedStack.Resolve.Session
import NamedStack.Scalar
import NamedStack.Scope
import NamedStack.Script.Disassembly
import NamedStack.Script.Serialize
import NamedStack.Script.Token
import NamedStack.ScriptNum
import NamedStack.Source.Lexer
import NamedStack.Source.Parser
import NamedStack.Source.Program
import NamedStack.Step
import NamedStack.Template
import NamedStack.Text.Blank
import NamedStack.Text.Numeral
import NamedStack.Text.Printable
import NamedStack.Text.Quoted
import NamedStack.Text.Rune
import NamedStack.Proofs.ScriptNum.RoundTrip
import NamedStack.Proofs.Sequence
import NamedStack.Proofs.Text.Quoted
import NamedStack.Proofs.Log
import NamedStack.Proofs.Script.Tokens
import NamedStack.Proofs.Script.Decoding
import NamedStack.Proofs.Script.Canonical
import NamedStack.Proofs.Engine.Pieces
import NamedStack.Proofs.Engine.Refinement
import NamedStack.Proofs.Engine.Limits
import NamedStack.Proofs.Engine.Executed
import NamedStack.Proofs.Peephole.Filling
import NamedStack.Proofs.Peephole.Exchange
import NamedStack.Proofs.Peephole.Structural
import NamedStack.Proofs.Peephole.Acceptance
import NamedStack.Proofs.Peephole.Markers
import NamedStack.Proofs.Peephole.Weight
import NamedStack.Proofs.Peephole.Outline
import NamedStack.Proofs.Peephole.Convergence
import NamedStack.Proofs.Peephole.Thinning
import NamedStack.Proofs.Peephole.NullArithmetic
import NamedStack.Proofs.Peephole.Returns
import NamedStack.Proofs.AltSlots.Moves
import NamedStack.Proofs.AltSlots.Setup
import NamedStack.Proofs.AltSlots.Ledger
import NamedStack.Proofs.AltSlots.Runs
import NamedStack.Proofs.Context.Contents
import NamedStack.Proofs.Context.Levels
import NamedStack.Proofs.Context.Scan
import NamedStack.Proofs.Context.Later
import NamedStack.Proofs.Context.Counting
import NamedStack.Proofs.Context.Heights
import NamedStack.Proofs.Context.Positions
import NamedStack.Proofs.Context.Arms
import NamedStack.Proofs.Context.Nesting
import NamedStack.Proofs.Context.Grammar
import NamedStack.Proofs.Context.Weaving
import NamedStack.Proofs.Context.Tree
import NamedStack.Proofs.Context.Paths
import NamedStack.Proofs.Context.Definite
import NamedStack.Proofs.Context.Replay
import NamedStack.Proofs.Context.LastReads
import NamedStack.Proofs.Machine.Exchanges
import NamedStack.Proofs.Machine.Description
import NamedStack.Proofs.Machine.Beside
import NamedStack.Proofs.Machine.Straight
import NamedStack.Proofs.Machine.Written
import NamedStack.Proofs.Machine.Bounds
import NamedStack.Proofs.Source.Tokens
import NamedStack.Proofs.Source.Forms
import NamedStack.Proofs.Source.WellNamed
import NamedStack.Proofs.Source.Printed
import NamedStack.Proofs.Source.Fronts
import NamedStack.Proofs.Source.Scanning
import NamedStack.Proofs.Source.Windows
import NamedStack.Proofs.Source.Supply
import NamedStack.Proofs.Source.Buffering
import NamedStack.Proofs.Source.Literals
import NamedStack.Proofs.Source.Descent
import NamedStack.Proofs.Source.Faults
import NamedStack.Proofs.Named.Faithful
import NamedStack.Proofs.Named.Contexts
import NamedStack.Proofs.Named.Progress
import NamedStack.Proofs.Named.Passes
import NamedStack.Proofs.Named.Resolution
import NamedStack.Proofs.Resolve.Expansion
import NamedStack.Proofs.Resolve.Extensions
import NamedStack.Proofs.Resolve.Parameters
import NamedStack.Proofs.Resolve.Routed
import NamedStack.Proofs.Resolve.Visits
import NamedStack.Proofs.Resolve.Accepted
import NamedStack.Proofs.Resolve.Arms
import NamedStack.Proofs.Resolve.Told
import NamedStack.Proofs.Resolve.Effects
import NamedStack.Proofs.Resolve.Replacements
import NamedStack.Proofs.Resolve.Failures
import NamedStack.Proofs.Resolve.Measure
import NamedStack.Proofs.Resolve.NoReference
import NamedStack.Proofs.Resolve.Calls
import NamedStack.Proofs.Resolve.Recursion
import NamedStack.Proofs.Resolve.Capture
import NamedStack.Proofs.Resolve.Unfolding
import NamedStack.Proofs.Resolve.Progress
import NamedStack.Proofs.Resolve.Following
import NamedStack.Proofs.Resolve.Termination
import NamedStack.Proofs.Resolve.Alike
import NamedStack.Proofs.Resolve.Surroundings
import NamedStack.Proofs.Resolve.Assigning
import NamedStack.Proofs.Resolve.Bindings
import NamedStack.Proofs.Resolve.Multisig
import NamedStack.Proofs.Resolve.Linear
import NamedStack.Proofs.Resolve.Reads
import NamedStack.Proofs.Resolve.Trails
import NamedStack.Proofs.Resolve.Assigned
import NamedStack.Proofs.Compile.Acceptance
import NamedStack.Proofs.Compile.Resolved
import NamedStack.Proofs.Compile.Batch
