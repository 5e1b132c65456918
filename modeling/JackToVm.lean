import JackToVm.Build
import JackToVm.Build.Error
import JackToVm.Cli
import JackToVm.Compile
import JackToVm.Config
import JackToVm.Config.Document
import JackToVm.Config.Layout
import JackToVm.Config.Place
import JackToVm.Config.Scalar
import JackToVm.File.Disk
import JackToVm.File.Error
import JackToVm.Host
import JackToVm.Log
import JackToVm.Main
import JackToVm.Pass.Error
import JackToVm.Pass.Event
import JackToVm.Pass.Goal
import JackToVm.Pass.Run
import JackToVm.Path
import JackToVm.Position
import JackToVm.Scope
import JackToVm.Text.Blank
import JackToVm.Text.Quoted
import JackToVm.Text.Shapeless
import JackToVm.Token
import JackToVm.Token.Cursor
import JackToVm.Token.Expected
import JackToVm.Token.Item
import JackToVm.Token.Piece
import JackToVm.Token.Table
import JackToVm.Vm.Instruction
import JackToVm.Vm.Label
import JackToVm.Vm.Sink
import JackToVm.Proofs.Syntax
import JackToVm.Proofs.Unambiguous
import JackToVm.Proofs.Codegen
import JackToVm.Proofs.Repertoire
import JackToVm.Proofs.Yield
import JackToVm.Proofs.Sound
import JackToVm.Proofs.Reach
import JackToVm.Proofs.Refinement
import JackToVm.Proofs.Complete
import JackToVm.Proofs.Acceptance
import JackToVm.Proofs.Blame
import JackToVm.Proofs.Machine
import JackToVm.Proofs.Semantics
import JackToVm.Proofs.Distinct
import JackToVm.Proofs.Simulation
import JackToVm.Proofs.Blocks
import JackToVm.Proofs.Wrapping
import JackToVm.Proofs.Jumps
import JackToVm.Proofs.Depth
import JackToVm.Proofs.Allocation
import JackToVm.Proofs.Delivery
import JackToVm.Proofs.Parallel
import JackToVm.Proofs.Naming
import JackToVm.Proofs.Lines
import JackToVm.Proofs.Decoding
import JackToVm.Proofs.Numbering
import JackToVm.Proofs.Renumbering
import JackToVm.Proofs.Batch
import JackToVm.Proofs.Streaming
import JackToVm.Proofs.Gaps
import JackToVm.Proofs.Wording
import JackToVm.Proofs.Spelling
import JackToVm.Proofs.Tiling
import JackToVm.Proofs.Printing
import JackToVm.Proofs.Points
import JackToVm.Proofs.Slots
import JackToVm.Proofs.Isolation
import JackToVm.Proofs.Constants
import JackToVm.Proofs.Paths
import JackToVm.Proofs.Places
import JackToVm.Proofs.Discovery
import JackToVm.Proofs.Attempts
import JackToVm.Proofs.Atomicity
import JackToVm.Proofs.Outputs
import JackToVm.Proofs.Literals
import JackToVm.Proofs.Expressions
import JackToVm.Token.Operation
import JackToVm.Proofs.Lookahead
import JackToVm.Proofs.Declarations
import JackToVm.Proofs.Capacity
import JackToVm.Proofs.Exhaustion
import JackToVm.Proofs.Descent
import JackToVm.Proofs.Tracking
import JackToVm.Proofs.Contracts
import JackToVm.Proofs.Termination
import JackToVm.Proofs.Refusal
