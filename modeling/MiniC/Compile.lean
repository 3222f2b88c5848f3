import MiniC.Assembly.Lower
import MiniC.Codegen.Source
import MiniC.Grammar.Parser
import MiniC.Grammar.Tree

namespace MiniC

structure Compilation where
  stream : TokenStream
  parsed : Parsed
  symbols : List Symbol
  program : Program
  diagnostics : Diagnostics
  assembly : Option Text
deriving Repr

inductive CompileError where
  | fault (f : Fault)
  | openScopes (n : Nat)
  | lowering (e : LowerError)
deriving DecidableEq, Repr

namespace CompileError

def message : CompileError → Text
  | fault f => internalError ++ ": " ++ f.message?.getD []
  | openScopes n => internalError ++ ": " ++ Decimal.ofNat n ++ " scopes left open"
  | lowering e => e.message

def isUnresolved : CompileError → Bool
  | lowering e => e.isUnresolved
  | _ => false

end CompileError

namespace Compilation

def ok (c : Compilation) : Bool :=
  !c.diagnostics.hasErrors

def report (c : Compilation) : Text :=
  c.diagnostics.report

def tree (c : Compilation) : Tree :=
  c.parsed.source.tree

end Compilation

def generate (source : Source) : Except CompileError Codegen :=
  (Codegen.run source).mapError .fault

def assemble (diagnostics : Diagnostics) (p : Program) : Except CompileError (Option Text) :=
  if diagnostics.hasErrors then .ok none
  else ((Assembly.ofProgram p).map some).mapError .lowering

def compile (source : Text) : Except CompileError Compilation := do
  let stream := TokenStream.ofSource source
  let parsed := Parsed.ofTokens stream
  let g ← generate parsed.source
  if g.scopes.depth ≠ 0 then
    throw (.openScopes g.scopes.depth)
  let diagnostics : Diagnostics := ⟨stream.diagnostics, parsed.diagnostics, g.diagnostics⟩
  let program := g.emitter.program
  let assembly ← assemble diagnostics program
  return ⟨stream, parsed, g.scopes.all, program, diagnostics, assembly⟩

end MiniC
