import LineBasic.Main
import LineBasic.Proofs.Check.Checked
import LineBasic.Proofs.Check.Demands
import LineBasic.Proofs.Check.Numbering
import LineBasic.Proofs.Check.Typing
import LineBasic.Proofs.Check.Violation
import LineBasic.Proofs.Command.Session
import LineBasic.Proofs.FirstPlace
import LineBasic.Proofs.Grammar.Canonical
import LineBasic.Proofs.Lowering.Arithmetic
import LineBasic.Proofs.Lowering.Assignment
import LineBasic.Proofs.Lowering.Condition
import LineBasic.Proofs.Lowering.Expression
import LineBasic.Proofs.Lowering.Layout
import LineBasic.Proofs.Lowering.Lines
import LineBasic.Proofs.Lowering.Narrative
import LineBasic.Proofs.Lowering.Printing
import LineBasic.Proofs.Lowering.Shape
import LineBasic.Proofs.Lowering.Simulation
import LineBasic.Proofs.Lowering.Statement
import LineBasic.Proofs.Machine.Calls
import LineBasic.Proofs.Machine.ControlFlow
import LineBasic.Proofs.Machine.Execution
import LineBasic.Proofs.Machine.History
import LineBasic.Proofs.Machine.StoreTyping
import LineBasic.Proofs.Machine.TypeSoundness
import LineBasic.Proofs.Processor.Basic
import LineBasic.Proofs.Processor.Labels
import LineBasic.Proofs.Processor.Steps
import LineBasic.Proofs.Check.TypeVerdict
import LineBasic.Proofs.Text.Position
import LineBasic.Proofs.Token.Lexing
import LineBasic.Proofs.Grammar.Spelling
import LineBasic.Proofs.Assembly.Names
import LineBasic.Proofs.Assembly.Listing
import LineBasic.Proofs.Lowering.References
import LineBasic.Proofs.Lowering.Closed
import LineBasic.Proofs.Lowering.AssemblyText
import LineBasic.Proofs.Token.Scanning
import LineBasic.Proofs.Grammar.Writing
import LineBasic.Proofs.Grammar.FirstFault
import LineBasic.Proofs.Machine.PrintedLines
import LineBasic.Proofs.Grammar.LetterCase
import LineBasic.Proofs.Lowering.TypedStorage
import LineBasic.Proofs.Token.Lexes
import LineBasic.Proofs.Grammar.Layout
import LineBasic.Proofs.Check.Renaming
import LineBasic.Proofs.Machine.Renaming
import LineBasic.Proofs.Grammar.SingleSign
import LineBasic.Proofs.Check.Capitals
import LineBasic.Proofs.Machine.Capitals
import LineBasic.Proofs.Assembly.Relabelling
import LineBasic.Proofs.Lowering.Capitals
import LineBasic.Proofs.Processor.Bytes
import LineBasic.Proofs.Processor.Eventually
import LineBasic.Proofs.Processor.StringToNumber
import LineBasic.Proofs.Processor.Routines
import LineBasic.Proofs.Processor.InputOutput
import LineBasic.Proofs.Lowering.Sites
import LineBasic.Proofs.Machine.NumberLines
import LineBasic.Proofs.Lowering.NumberInput
import LineBasic.Proofs.Lowering.Buffers
import LineBasic.Proofs.Lowering.TextBuffers
import LineBasic.Proofs.Machine.Failure
import LineBasic.Proofs.Machine.LimitedOutput
import LineBasic.Proofs.Machine.ExactArithmetic
import LineBasic.Proofs.Lowering.Evaluation
import LineBasic.Proofs.Grammar.Values
import LineBasic.Proofs.Machine.LineInput
import LineBasic.Proofs.Machine.UnreadInput
import LineBasic.Proofs.Grammar.Session
import LineBasic.Proofs.Program.OutlineReading
import LineBasic.Proofs.Program.Traversal
import LineBasic.Proofs.Scope.Index
