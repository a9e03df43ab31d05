import MiniC.Main
import MiniC.Proofs.Code.Balance
import MiniC.Proofs.Code.Branches
import MiniC.Proofs.Machine.Cells
import MiniC.Proofs.Machine.Views
import MiniC.Proofs.Machine.Returns
import MiniC.Proofs.Source.Evaluation
import MiniC.Proofs.Source.Layout
import MiniC.Proofs.Heap.Contents
import MiniC.Proofs.Code.Calls
import MiniC.Proofs.Code.Slots
import MiniC.Proofs.Code.Data
import MiniC.Proofs.Machine.Starting
import MiniC.Proofs.Source.Arithmetic
import MiniC.Proofs.Source.Frames
import MiniC.Proofs.Source.Precedence
import MiniC.Proofs.Source.Preservation
import MiniC.Proofs.Source.Spelling
import MiniC.Proofs.Compiling.Cutoff
import MiniC.Proofs.Compiling.Concatenation
import MiniC.Proofs.Output.Tracing
import MiniC.Proofs.Output.Plain
import MiniC.Proofs.Names.Scopes
import MiniC.Proofs.Format.Integers
import MiniC.Proofs.Compiling.Termination
import MiniC.Proofs.Format.Texts
import MiniC.Proofs.Code.Arguments
import MiniC.Proofs.Code.Postfix
import MiniC.Proofs.Machine.Accesses
import MiniC.Proofs.Machine.Entry
import MiniC.Proofs.Code.Differences
import MiniC.Proofs.Syntax.Agreement
import MiniC.Proofs.Compiling.Tails
import MiniC.Proofs.Syntax.Phrases
import MiniC.Proofs.Code.Indexing
import MiniC.Proofs.Code.Decoding
import MiniC.Proofs.Machine.Chains
import MiniC.Proofs.Code.Traces
import MiniC.Proofs.Syntax.Lines
import MiniC.Proofs.Machine.Files
import MiniC.Proofs.Compiling.Patching
import MiniC.Proofs.Compiling.Pools
