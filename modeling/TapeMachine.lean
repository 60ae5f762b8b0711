import TapeMachine.Symbol
import TapeMachine.Tape.Basic
import TapeMachine.Tape.Text
import TapeMachine.Tape.Indexed
import TapeMachine.Text.DefaultIgnorable
import TapeMachine.Text.GraphemeExtend
import TapeMachine.Text.Unprintable
import TapeMachine.Text.Quoted
import TapeMachine.Numeral
import TapeMachine.Index
import TapeMachine.Key
import TapeMachine.Instruction
import TapeMachine.Scope
import TapeMachine.Graph.Basic
import TapeMachine.Graph.Search
import TapeMachine.Graph.Text
import TapeMachine.Compile.Error
import TapeMachine.Compile.Target
import TapeMachine.Compile.Event
import TapeMachine.Compile.Draft
import TapeMachine.Compile.Outline
import TapeMachine.Compile.Sequence
import TapeMachine.Compile.Basic
import TapeMachine.Check
import TapeMachine.Run.Basic
import TapeMachine.Run.Stepwise
import TapeMachine.Run.Event
import TapeMachine.Walk
import TapeMachine.Machine
import TapeMachine.Log
import TapeMachine.Proofs.Growth
import TapeMachine.Proofs.Outline
import TapeMachine.Proofs.Success
import TapeMachine.Proofs.Linking
import TapeMachine.Proofs.Checking
import TapeMachine.Proofs.Compiled
import TapeMachine.Proofs.Realised
import TapeMachine.Proofs.Simulation
import TapeMachine.Proofs.Cycle
import TapeMachine.Proofs.Termination
import TapeMachine.Proofs.Listing
import TapeMachine.Proofs.InsertionOrder
import TapeMachine.Proofs.Plan
import TapeMachine.Proofs.Returns
import TapeMachine.Proofs.Assembly
import TapeMachine.Proofs.Exact
import TapeMachine.Proofs.Sharing
import TapeMachine.Proofs.Flow
import TapeMachine.Proofs.Blueprint
import TapeMachine.Proofs.Renaming
import TapeMachine.Proofs.Rules
import TapeMachine.Proofs.Reordering
import TapeMachine.Proofs.Positional
import TapeMachine.Proofs.Edits
import TapeMachine.Proofs.Mirroring
import TapeMachine.Proofs.Naming
import TapeMachine.Proofs.Walks
import TapeMachine.Proofs.Ending
import TapeMachine.Proofs.Inlining
import TapeMachine.Proofs.Accounting
import TapeMachine.Proofs.Limits
import TapeMachine.Proofs.TapeText
import TapeMachine.Proofs.IndexedTape
import TapeMachine.Proofs.InfiniteTape
import TapeMachine.Proofs.Trimming
import TapeMachine.Proofs.Padding
import TapeMachine.Proofs.Searches
import TapeMachine.Proofs.Replay
import TapeMachine.Proofs.SelfLoops
import TapeMachine.Proofs.GraphText
import TapeMachine.Proofs.Keys
import TapeMachine.Proofs.Refusals
