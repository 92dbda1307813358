import StackLowering.Assembly.Image
import StackLowering.Assembly.Instruction
import StackLowering.Assembly.Line
import StackLowering.Assembly.Listing
import StackLowering.Binary.Reader
import StackLowering.Binary.Varint
import StackLowering.Block.Access
import StackLowering.Block.Addressing
import StackLowering.Block.Operator
import StackLowering.Block.Transfer
import StackLowering.Command.Basic
import StackLowering.Command.Keyword
import StackLowering.Command.Operator
import StackLowering.Command.Segment
import StackLowering.CommandLine.Options
import StackLowering.CommandLine.Run
import StackLowering.Disk.Access
import StackLowering.Disk.Change
import StackLowering.Disk.Path
import StackLowering.Disk.Volume
import StackLowering.Lowering.Basic
import StackLowering.Lowering.Scope
import StackLowering.Machine
import StackLowering.Main
import StackLowering.Program.Basic
import StackLowering.Program.Binary
import StackLowering.Program.Load
import StackLowering.Program.RoundTrip
import StackLowering.Refusal
import StackLowering.Result
import StackLowering.Source.Cut
import StackLowering.Source.Dump
import StackLowering.Source.Grammar
import StackLowering.Source.Line
import StackLowering.Source.Statement
import StackLowering.Source.Token
import StackLowering.StackCheck
import StackLowering.Symbol
import StackLowering.Text.Blank
import StackLowering.Text.Decimal
import StackLowering.Text.GraphemeExtend
import StackLowering.Text.Pieces
import StackLowering.Text.Quoted
import StackLowering.Text.Unprintable
import StackLowering.Text.Utf8
import StackLowering.Proofs.Assembly.Text
import StackLowering.Proofs.Lowering.Command
import StackLowering.Proofs.Lowering.Labels
import StackLowering.Proofs.Lowering.Site
import StackLowering.Proofs.Lowering.Acceptance
import StackLowering.Proofs.Lowering.InPlace
import StackLowering.Proofs.Lowering.History
import StackLowering.Proofs.Lowering.Scoping
import StackLowering.Proofs.StackCheck.Scan
import StackLowering.Proofs.StackCheck.Flow
import StackLowering.Proofs.StackCheck.Signed
import StackLowering.Proofs.StackCheck.Underflow
import StackLowering.Proofs.StackCheck.Soundness
import StackLowering.Assembly.Assembler
import StackLowering.Proofs.Assembly.Assembler
import StackLowering.Proofs.Machine.Block
import StackLowering.Proofs.Machine.CallReturn
import StackLowering.Proofs.Machine.Simulation
import StackLowering.Proofs.Program.Encoding
import StackLowering.Proofs.Source.Cutting
import StackLowering.Proofs.Source.Cursor
import StackLowering.Proofs.Source.InPlace
import StackLowering.Proofs.Source.Printing
import StackLowering.Proofs.Machine.Capture
import StackLowering.Proofs.Machine.Literals
import StackLowering.Proofs.Machine.Comparison
import StackLowering.Proofs.Machine.Footprint
import StackLowering.Proofs.StackCheck.Heights
import StackLowering.Proofs.Assembly.Renumbering
import StackLowering.Proofs.Program.Concatenation
import StackLowering.Proofs.Lowering.Annotation
import StackLowering.Proofs.Source.Located
import StackLowering.Proofs.Source.Rereading
import StackLowering.Proofs.Program.OutputText
import StackLowering.Proofs.Disk.Reading
import StackLowering.Proofs.Disk.Resolution
import StackLowering.Proofs.Disk.Writing
import StackLowering.Proofs.Disk.Atomicity
import StackLowering.Proofs.Disk.Extension
import StackLowering.Proofs.Program.Decoding
import StackLowering.Proofs.Program.Recording
import StackLowering.Proofs.Program.Normalising
import StackLowering.Proofs.Program.Loaded
import StackLowering.Proofs.CommandLine.Running
import StackLowering.Proofs.CommandLine.Failure
import StackLowering.Proofs.CommandLine.Artefacts
import StackLowering.Proofs.Program.OutputGrammar
import StackLowering.Proofs.Program.ListedAddresses
import StackLowering.Proofs.Program.MarkedLabels
import StackLowering.Proofs.Lowering.Numbering
import StackLowering.Proofs.Disk.Directory
import StackLowering.Proofs.Disk.Rewriting
import StackLowering.Proofs.Program.Directory
import StackLowering.Proofs.Program.StaticSymbols
import StackLowering.Proofs.Program.Reloading
import StackLowering.Proofs.CommandLine.Arguments
import StackLowering.Proofs.CommandLine.Repeating
import StackLowering.Proofs.CommandLine.BinaryInput
