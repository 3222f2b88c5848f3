import MiniC.Text.Basic
import MiniC.Text.Decimal
import MiniC.Text.Utf8
import MiniC.Text.Blank
import MiniC.Text.LowerCase
import MiniC.Text.Printable
import MiniC.Text.Quoted
import MiniC.Number.Binary64
import MiniC.Token.Basic
import MiniC.Token.Listing
import MiniC.Diagnostic.Basic
import MiniC.Token.Scan
import MiniC.Grammar.Ast
import MiniC.Grammar.Tree
import MiniC.Grammar.Parser
import MiniC.Code.Operand
import MiniC.Code.Instruction
import MiniC.Code.Program
import MiniC.Symbol.Basic
import MiniC.Symbol.Scope
import MiniC.Symbol.Listing
import MiniC.Check.Rules
import MiniC.Code.Emitter
import MiniC.Codegen.Basic
import MiniC.Codegen.Expr
import MiniC.Codegen.Source
import MiniC.Machine.Memory
import MiniC.Machine.Failure
import MiniC.Machine.Step
import MiniC.Machine.Run
import MiniC.Assembly.Line
import MiniC.Assembly.Lower
import MiniC.Compile
import MiniC.Code.Listing
import MiniC.SExpr.Basic
import MiniC.SExpr.Read
import MiniC.SExpr.Match
import MiniC.TestCase
import MiniC.Number.Unsigned
import MiniC.Number.Duration
import MiniC.Command.Settings
import MiniC.Command.Arguments
import MiniC.Command.Request
import MiniC.Command.Host
import MiniC.Command.Folder
import MiniC.Command.Artifact
import MiniC.Command.Session
import MiniC.Main
import MiniC.Proofs.Reference.Semantics
import MiniC.Proofs.Lowering
import MiniC.Proofs.Machine.Safety
import MiniC.Proofs.Preservation.Program
import MiniC.Proofs.EmittedCode
import MiniC.Proofs.Listing
import MiniC.Proofs.Parsing.Acceptance
import MiniC.Proofs.Machine.Transitions
import MiniC.Proofs.Machine.Reports
import MiniC.Proofs.Machine.Resolved
import MiniC.Proofs.Layout
import MiniC.Proofs.Machine.Stack
import MiniC.Proofs.Parsing.Recovery
import MiniC.Proofs.Renaming.Compilation
import MiniC.Proofs.Assembly.Symbols
import MiniC.Proofs.ScopeTable
import MiniC.Proofs.Parsing.Fuel
import MiniC.Proofs.Parsing.Demand
import MiniC.Proofs.Parsing.Leaves
import MiniC.Proofs.Parsing.Precedence
import MiniC.Proofs.ActivationRecord
import MiniC.Proofs.Lexing.Segments
import MiniC.Proofs.Lexing.Separators
import MiniC.Proofs.Fractions
import MiniC.Proofs.Parsing.Order
import MiniC.Proofs.Normalization
import MiniC.Proofs.Machine.Limits
import MiniC.Proofs.Machine.Calls
import MiniC.Proofs.Processor.Semantics
import MiniC.Proofs.Processor.Instructions
import MiniC.Proofs.Processor.Images
import MiniC.Proofs.Processor.Frames
import MiniC.Proofs.Processor.Calls
import MiniC.Proofs.SExpr.Reading
import MiniC.Proofs.SExpr.Matching
import MiniC.Proofs.SExpr.ParseTree
import MiniC.Proofs.TestCase
import MiniC.Proofs.Lexing.Reports
import MiniC.Proofs.Assembly.Scratch
