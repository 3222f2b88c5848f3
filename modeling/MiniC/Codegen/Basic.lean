import MiniC.Check.Rules
import MiniC.Code.Emitter
import MiniC.Diagnostic.Basic
import MiniC.Grammar.Ast

namespace MiniC

/-- A loop around the statement at hand: where its next turn starts, and the jumps out of it that
    await their target. -/
structure Loop where
  start : Nat
  exits : List Nat := []
deriving DecidableEq, Repr

structure Codegen where
  scopes : Scopes := .initial
  emitter : Emitter := .initial
  errors : Array (Located SemanticError) := #[]
  function : Option Symbol := none
  loops : List Loop := []
deriving Repr

abbrev GenM := EStateM Fault Codegen

namespace Codegen

def emitting {α : Type} (action : EmitM α) : GenM α := fun g =>
  match action g.emitter with
  | .ok a e => .ok a { g with emitter := e }
  | .error fault e => .error fault { g with emitter := e }

instance : MonadLift EmitM GenM := ⟨emitting⟩

def report (line : Nat) (error : SemanticError) : GenM Unit :=
  modify fun g => { g with errors := g.errors.push ⟨line, error⟩ }

/-- Reports what a rule rejects, and gives whether it accepts. -/
def check (line : Nat) (verdict : Verdict) : GenM Bool := do
  if let some error := verdict.error? then
    report line error
  return verdict.isAccepted

def resolve? (name : Text) : GenM (Option Symbol) :=
  return (← get).scopes.resolve? name

def lookup (id : Ident) : GenM (Option Symbol) := do
  let symbol ← resolve? id.name
  let _ ← check id.line (Check.declared id.name symbol)
  return symbol

def declare (line : Nat) (s : Symbol) : GenM Bool := do
  let g ← get
  match g.scopes.declare s with
  | .ok scopes =>
    set { g with scopes := scopes }
    return true
  | .error earlier =>
    report line (.redeclared earlier.name)
    return false

def enterScope : GenM Unit :=
  modify fun g => { g with scopes := g.scopes.enter }

def exitScope : GenM Unit := do
  let g ← get
  match g.scopes.exit? with
  | some scopes => set { g with scopes := scopes }
  | none => throw .noOuterScope

end Codegen

end MiniC
