import Accumulator.Assembly.Assemble
import Accumulator.Assembly.Error
import Accumulator.Assembly.Layout
import Accumulator.Assembly.Numeral
import Accumulator.Assembly.Statement
import Accumulator.Command.Directory
import Accumulator.Command.Options
import Accumulator.Command.Session
import Accumulator.Core
import Accumulator.Cursor
import Accumulator.Fault
import Accumulator.Host
import Accumulator.Instr.Basic
import Accumulator.Instr.Codec
import Accumulator.Instr.Exec
import Accumulator.Instr.Form
import Accumulator.Instr.Registers
import Accumulator.Machine.Basic
import Accumulator.Machine.Trace
import Accumulator.Main
import Accumulator.Memory
import Accumulator.Program.Basic
import Accumulator.Program.Builder
import Accumulator.Program.Image
import Accumulator.Program.Label
import Accumulator.Program.Listing
import Accumulator.Program.Segment
import Accumulator.Proofs.Bytecode
import Accumulator.Proofs.Form
import Accumulator.Proofs.Outcome
import Accumulator.Register
import Accumulator.Text.Blank
import Accumulator.Text.Glyphless
import Accumulator.Text.Hex
import Accumulator.Text.Line
import Accumulator.Text.Quoted
import Accumulator.Text.Utf8
import Accumulator.Word
import Accumulator.Proofs.Image
import Accumulator.Proofs.Layout
import Accumulator.Proofs.Translation
import Accumulator.Proofs.Assemble
import Accumulator.Proofs.RoundTrip
import Accumulator.Proofs.Exec
import Accumulator.Proofs.Run
import Accumulator.Proofs.Safety
import Accumulator.Proofs.Microcode
import Accumulator.Proofs.Lockstep
import Accumulator.Proofs.Limits
import Accumulator.Proofs.StepLimit
import Accumulator.Proofs.StackLimit
import Accumulator.Proofs.MemorySize
import Accumulator.Proofs.Numeral
import Accumulator.Proofs.Words
import Accumulator.Proofs.Line
import Accumulator.Proofs.Language
import Accumulator.Proofs.CallReturn
import Accumulator.Proofs.Atomicity
import Accumulator.Proofs.OutputLimit
import Accumulator.Proofs.Condition
import Accumulator.Proofs.Utf8
import Accumulator.Proofs.Compiled
import Accumulator.Proofs.CodeLimit
import Accumulator.Proofs.Mistake
import Accumulator.Proofs.Reported
import Accumulator.Proofs.Truncation
import Accumulator.Proofs.Session
import Accumulator.Proofs.Written
import Accumulator.Proofs.Reassembly
import Accumulator.Proofs.Literal
import Accumulator.Proofs.Printing
import Accumulator.Proofs.Builder
import Accumulator.Proofs.Overflow
import Accumulator.Proofs.Access
import Accumulator.Proofs.Overlay
import Accumulator.Proofs.StringRead
import Accumulator.Proofs.Editing
import Accumulator.Proofs.IntegerOperand
import Accumulator.Proofs.Diagnostic
import Accumulator.Proofs.ByteOrder
import Accumulator.Proofs.Location
import Accumulator.Proofs.Division
import Accumulator.Proofs.Listing
import Accumulator.Proofs.Fields
import Accumulator.Proofs.Stream
import Accumulator.Proofs.Interleaving
import Accumulator.Proofs.InPlace
