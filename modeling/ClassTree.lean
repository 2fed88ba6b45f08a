import ClassTree.AccessFlags
import ClassTree.Bytes.BigEndian
import ClassTree.Bytes.Cursor
import ClassTree.Class
import ClassTree.Code.Attribute
import ClassTree.Code.DeadCode
import ClassTree.Code.Decoding
import ClassTree.Code.Encoding
import ClassTree.Code.Labels
import ClassTree.Code.Layout
import ClassTree.Code.Listing
import ClassTree.Code.Prepared
import ClassTree.Code.Widening
import ClassTree.CommandLine.Execution
import ClassTree.CommandLine.FileTree
import ClassTree.CommandLine.Request
import ClassTree.Context
import ClassTree.Decimal.Binary
import ClassTree.Decimal.Notation
import ClassTree.Decimal.Shortest
import ClassTree.Descriptor.Basic
import ClassTree.Descriptor.Parser
import ClassTree.Error
import ClassTree.Flow.ClassReference
import ClassTree.Flow.Depth
import ClassTree.Flow.Execution
import ClassTree.Flow.Graph
import ClassTree.Flow.Merge
import ClassTree.Flow.SlotFrame
import ClassTree.Flow.Types
import ClassTree.Hierarchy.Basic
import ClassTree.Hierarchy.Library
import ClassTree.Instruction
import ClassTree.Literal
import ClassTree.Lookup
import ClassTree.Main
import ClassTree.Method
import ClassTree.Name
import ClassTree.Numbering
import ClassTree.Opcode
import ClassTree.Path
import ClassTree.Pool.Builder
import ClassTree.Pool.Constant
import ClassTree.Pool.Slots
import ClassTree.Pool.Table
import ClassTree.Reading
import ClassTree.Relabelling
import ClassTree.Report.Declaration
import ClassTree.Report.Naming
import ClassTree.Report.Transcript
import ClassTree.Source
import ClassTree.StackMap.Entry
import ClassTree.StackMap.Frame
import ClassTree.StackMap.Reading
import ClassTree.Subroutine.Basic
import ClassTree.Subroutine.Inlining
import ClassTree.Text.Combining
import ClassTree.Text.Hexadecimal
import ClassTree.Text.ModifiedUtf8
import ClassTree.Text.Quoted
import ClassTree.Text.Unprintable
import ClassTree.Treatment
import ClassTree.VerificationType
import ClassTree.Version
import ClassTree.Writing
import ClassTree.Proofs.Flow.Merging
import ClassTree.Proofs.Flow.Absorption
import ClassTree.Proofs.Flow.Draining
import ClassTree.Proofs.Flow.PostFixpoint
import ClassTree.Proofs.Subroutine.Membership
import ClassTree.Proofs.Subroutine.Copies
import ClassTree.Proofs.Subroutine.Continuation
import ClassTree.Proofs.Pool.Building
import ClassTree.Proofs.Pool.Lookup
import ClassTree.Proofs.Bytes.Reading
import ClassTree.Proofs.Code.Operands
import ClassTree.Proofs.Code.Layout
import ClassTree.Proofs.Code.Labels
import ClassTree.Proofs.Code.Widening
import ClassTree.Proofs.Code.RoundTrip
import ClassTree.Proofs.StackMap.Pairing
import ClassTree.Proofs.Flow.WellFormed
import ClassTree.Proofs.Flow.Invariants
import ClassTree.Proofs.Code.DeadCode
import ClassTree.Proofs.Flow.Covering
import ClassTree.Proofs.Code.FrameTable
import ClassTree.Proofs.Numbering
import ClassTree.Proofs.Bytes.Advancing
import ClassTree.Proofs.Code.Starts
import ClassTree.Proofs.Code.Listing
import ClassTree.Proofs.Reading.Labels
import ClassTree.Proofs.Reading.Integrity
import ClassTree.Proofs.Subroutine.Traces
import ClassTree.Proofs.Subroutine.Cloning
import ClassTree.Proofs.Subroutine.Assembly
import ClassTree.Proofs.Subroutine.Placement
import ClassTree.Proofs.Subroutine.Origins
import ClassTree.Proofs.Subroutine.Mirroring
import ClassTree.Proofs.Subroutine.Equivalence
import ClassTree.Proofs.Code.FrameAttribute
import ClassTree.Proofs.Code.Ready
import ClassTree.Proofs.Code.Sections
import ClassTree.Proofs.Writing.Exactness
import ClassTree.Proofs.Pool.Requests
import ClassTree.Proofs.Flow.Depths
import ClassTree.Proofs.StackMap.Recovery
import ClassTree.Proofs.Code.Offsets
import ClassTree.Proofs.Code.Recovery
import ClassTree.Proofs.Reading.Attributes
import ClassTree.Proofs.Reading.Members
import ClassTree.Proofs.Reading.RoundTrip
import ClassTree.Proofs.Reading.Extent
import ClassTree.Proofs.Reading.Skipping
import ClassTree.Proofs.Writing.Renamed
import ClassTree.Proofs.Descriptor.Reading
import ClassTree.Proofs.Text.Groups
import ClassTree.Proofs.Code.Rounds
import ClassTree.Proofs.Code.DeadRuns
import ClassTree.Proofs.Flow.Joining
import ClassTree.Proofs.Flow.Nesting
import ClassTree.Proofs.Flow.Settling
import ClassTree.Proofs.Code.Splitting
import ClassTree.Proofs.Flow.Catching
import ClassTree.Proofs.Relabelling
import ClassTree.Proofs.Flow.Paths
import ClassTree.Proofs.Subroutine.Serving
import ClassTree.Proofs.Subroutine.SelfContained
import ClassTree.Proofs.Flow.SlotForm
import ClassTree.Proofs.Flow.Straight
import ClassTree.Proofs.Report.Naming
import ClassTree.Proofs.Flow.Construction
import ClassTree.Proofs.Flow.Creations
import ClassTree.Proofs.Code.Creations
import ClassTree.Proofs.Code.Drafts
import ClassTree.Proofs.Report.Transcript
import ClassTree.Proofs.Flow.Arrays
import ClassTree.Proofs.Pool.Addressing
import ClassTree.Proofs.Pool.Seeding
import ClassTree.Proofs.Reading.Canonical
import ClassTree.Proofs.Rewriting.Kept
import ClassTree.Proofs.Rewriting.Alignment
import ClassTree.Proofs.Rewriting.Methods
import ClassTree.Proofs.Rewriting.Bare
import ClassTree.Proofs.Rewriting.Steady
