import TapeLang.Cell
import TapeLang.CommandLine.Arguments
import TapeLang.CommandLine.Job
import TapeLang.Constants
import TapeLang.Decimal
import TapeLang.Dump
import TapeLang.Error
import TapeLang.Expansion
import TapeLang.Files.Basic
import TapeLang.Files.Tree
import TapeLang.Host.Basic
import TapeLang.Host.Buffered
import TapeLang.Host.Channel
import TapeLang.Host.Schedule
import TapeLang.Library
import TapeLang.Machine
import TapeLang.MacroSet
import TapeLang.Main
import TapeLang.Program.Block
import TapeLang.Program.Parser
import TapeLang.Program.Peephole
import TapeLang.Proofs.Addressed
import TapeLang.Proofs.Agreement
import TapeLang.Proofs.Answers
import TapeLang.Proofs.Arrangement
import TapeLang.Proofs.Brackets
import TapeLang.Proofs.Cancellation
import TapeLang.Proofs.CompiledRun
import TapeLang.Proofs.Constants.Bindings
import TapeLang.Proofs.Constants.Grammar
import TapeLang.Proofs.Constants.Joined
import TapeLang.Proofs.Constants.Lines
import TapeLang.Proofs.Consumption
import TapeLang.Proofs.Delivery
import TapeLang.Proofs.Directory
import TapeLang.Proofs.DumpReading
import TapeLang.Proofs.Effects
import TapeLang.Proofs.Execution
import TapeLang.Proofs.Expansion.Built
import TapeLang.Proofs.Expansion.Code
import TapeLang.Proofs.Expansion.Depth
import TapeLang.Proofs.Expansion.EitherOrder
import TapeLang.Proofs.Expansion.Enlarged
import TapeLang.Proofs.Expansion.Leftmost
import TapeLang.Proofs.Expansion.Memory
import TapeLang.Proofs.Expansion.Precompiled
import TapeLang.Proofs.Extension
import TapeLang.Proofs.FailedOutput
import TapeLang.Proofs.Fallible
import TapeLang.Proofs.Following
import TapeLang.Proofs.FrameStack
import TapeLang.Proofs.Holes
import TapeLang.Proofs.Hosts
import TapeLang.Proofs.Loading
import TapeLang.Proofs.Lockstep
import TapeLang.Proofs.MacroHistory
import TapeLang.Proofs.MacroIndex
import TapeLang.Proofs.Observing
import TapeLang.Proofs.Partners
import TapeLang.Proofs.Peephole.Behaviour
import TapeLang.Proofs.Peephole.Edge
import TapeLang.Proofs.Peephole.Exact
import TapeLang.Proofs.Peephole.NormalForm
import TapeLang.Proofs.Peephole.Observation
import TapeLang.Proofs.Peephole.Reduction
import TapeLang.Proofs.Peephole.Rewriting
import TapeLang.Proofs.Peephole.Simulation
import TapeLang.Proofs.Peephole.Sweeps
import TapeLang.Proofs.Peephole.Tracking
import TapeLang.Proofs.Peephole.Unmatched
import TapeLang.Proofs.Places
import TapeLang.Proofs.Printing
import TapeLang.Proofs.ProgramCounter
import TapeLang.Proofs.Reachable
import TapeLang.Proofs.Ribbon
import TapeLang.Proofs.Steps
import TapeLang.Proofs.Token.Lexemes
import TapeLang.Proofs.Token.Unreadable
import TapeLang.Proofs.Token.Writing
import TapeLang.Proofs.Wrapping
import TapeLang.Proofs.WrittenFile
import TapeLang.Settings
import TapeLang.Tape
import TapeLang.Template
import TapeLang.Text.Classes
import TapeLang.Text.Utf8
import TapeLang.Token.Basic
import TapeLang.Token.Lexer
