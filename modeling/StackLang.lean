import StackLang.Text.Blank
import StackLang.Text.Decimal
import StackLang.Text.Lines
import StackLang.Token
import StackLang.Instruction.Basic
import StackLang.Instruction.Render
import StackLang.Dictionary
import StackLang.Reader.Error
import StackLang.Reader.Line
import StackLang.Reader.Basic
import StackLang.Arithmetic
import StackLang.Stack
import StackLang.IoFault
import StackLang.Sink
import StackLang.Machine.Limits
import StackLang.Machine.Fault
import StackLang.Machine.Event
import StackLang.Machine.Stats
import StackLang.Machine.Plan
import StackLang.Machine.Basic
import StackLang.Machine.Run
import StackLang.Machine.Fresh
import StackLang.Machine.Recursive
import StackLang.Machine.Checked
import StackLang.Session.Error
import StackLang.Session.Basic
import StackLang.Session.Program
import StackLang.CommandLine.Options
import StackLang.CommandLine.Settings
import StackLang.CommandLine.Log
import StackLang.CommandLine.Statistics
import StackLang.CommandLine.Invocation
import StackLang.Main
import StackLang.Proofs.Nesting
import StackLang.Proofs.Words
import StackLang.Proofs.Columns
import StackLang.Proofs.Grammar.Atom
import StackLang.Proofs.Grammar.Basic
import StackLang.Proofs.Grammar.Step
import StackLang.Proofs.Grammar.Soundness
import StackLang.Proofs.Grammar.Completeness
import StackLang.Proofs.RoundTrip
import StackLang.Proofs.WellFormed
import StackLang.Proofs.Spelling
import StackLang.Proofs.Prefixes
import StackLang.Proofs.Positions
import StackLang.Proofs.Plans
import StackLang.Proofs.Runs
import StackLang.Proofs.Histories
import StackLang.Proofs.KnownCalls
import StackLang.Proofs.Truncation
import StackLang.Proofs.Atomicity
import StackLang.Proofs.Steps
import StackLang.Proofs.Budget
import StackLang.Proofs.Frame
import StackLang.Proofs.ProgramText
import StackLang.Proofs.LineEnds
import StackLang.Proofs.Layout
import StackLang.Proofs.Programs
import StackLang.Proofs.Iteration
import StackLang.Proofs.OpenCalls
import StackLang.Proofs.Definitions
import StackLang.Proofs.MoreFunctions
import StackLang.Proofs.FailedLines
import StackLang.Proofs.Joining
import StackLang.Proofs.CallGraph
import StackLang.Proofs.CallNesting
import StackLang.Proofs.Observers
import StackLang.Proofs.Diagnostics
import StackLang.Proofs.Views
import StackLang.Proofs.Events
import StackLang.Proofs.Failures
import StackLang.Proofs.Trace
import StackLang.Proofs.Points
import StackLang.Proofs.Output
import StackLang.Proofs.Statistics
import StackLang.Proofs.FullSink
import StackLang.Proofs.ReadBack
import StackLang.Proofs.Inlining
import StackLang.Proofs.LineNumbers
import StackLang.Proofs.Checks
import StackLang.Proofs.MaximalRuns
import StackLang.Proofs.Integers
import StackLang.Proofs.Formulas
