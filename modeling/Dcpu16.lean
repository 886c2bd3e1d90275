import Dcpu16.Assembly
import Dcpu16.Assembly.Listing
import Dcpu16.Assembly.Report
import Dcpu16.Builder
import Dcpu16.Builder.Session
import Dcpu16.Command.Disk
import Dcpu16.Command.Options
import Dcpu16.Command.Path
import Dcpu16.Command.Run
import Dcpu16.Image
import Dcpu16.Instruction
import Dcpu16.Issue
import Dcpu16.Journal
import Dcpu16.Line
import Dcpu16.Line.Parser
import Dcpu16.Log
import Dcpu16.Main
import Dcpu16.OpCode
import Dcpu16.Operand
import Dcpu16.Register
import Dcpu16.Text.Blank
import Dcpu16.Text.Hex
import Dcpu16.Text.Lines
import Dcpu16.Text.Table
import Dcpu16.Text.Utf16
import Dcpu16.Token
import Dcpu16.Token.Lexer
import Dcpu16.Proofs.Except
import Dcpu16.Proofs.Builder.Sketch
import Dcpu16.Proofs.Builder.Patching
import Dcpu16.Proofs.Builder.Refinement
import Dcpu16.Proofs.Assembly.Outline
import Dcpu16.Proofs.Assembly.Marking
import Dcpu16.Proofs.Assembly.Summary
import Dcpu16.Proofs.Assembly.TwoPass
import Dcpu16.Proofs.Assembly.Acceptance
import Dcpu16.Proofs.Assembly.Rejection
import Dcpu16.Proofs.Builder.History
import Dcpu16.Proofs.Builder.Sites
import Dcpu16.Proofs.Assembly.Closing
import Dcpu16.Proofs.Builder.Decoding
import Dcpu16.Proofs.Assembly.Growth
import Dcpu16.Proofs.Assembly.Partition
import Dcpu16.Proofs.Assembly.Moving
import Dcpu16.Proofs.Assembly.Concatenation
import Dcpu16.Proofs.Builder.Agreement
import Dcpu16.Proofs.Builder.Isolation
import Dcpu16.Proofs.Line.Labels
import Dcpu16.Proofs.Line.Respelling
import Dcpu16.Proofs.Line.Rewriting
import Dcpu16.Proofs.Line.Renaming
import Dcpu16.Proofs.Assembly.Renaming
import Dcpu16.Proofs.Builder.Refusal
import Dcpu16.Proofs.Token.Numeral
import Dcpu16.Proofs.Token.Spelling
import Dcpu16.Proofs.Command.Writing
import Dcpu16.Proofs.Command.AllOrNothing
import Dcpu16.Proofs.Command.Presentation
import Dcpu16.Proofs.Token.Passage
import Dcpu16.Proofs.Assembly.Substitution
import Dcpu16.Proofs.Line.Sums
import Dcpu16.Proofs.Assembly.Reordering
import Dcpu16.Proofs.Text.Utf16
import Dcpu16.Proofs.Line.Data
import Dcpu16.Proofs.Assembly.Data
import Dcpu16.Proofs.Line.Demand
import Dcpu16.Proofs.Assembly.Demand
import Dcpu16.Proofs.Line.Reserved
import Dcpu16.Proofs.Assembly.Reserved
import Dcpu16.Proofs.Text.Hex
import Dcpu16.Proofs.Image.HexDump
import Dcpu16.Proofs.Assembly.Journal
import Dcpu16.Proofs.Line.Recasing
import Dcpu16.Proofs.Assembly.Recasing
import Dcpu16.Proofs.Line.Expectation
import Dcpu16.Proofs.Assembly.Expectation
import Dcpu16.Proofs.Assembly.Tables
import Dcpu16.Proofs.Assembly.Ending
import Dcpu16.Proofs.Token.Literal
