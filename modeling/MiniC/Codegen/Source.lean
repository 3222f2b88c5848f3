import MiniC.Codegen.Expr

namespace MiniC

def TypeName.ty : TypeName → Ty
  | .int => .int
  | .void => .void

namespace Codegen

open Emitter (emit here backpatch)

def condition (line : Nat) (x : Value) : GenM Operand := do
  if ← check line (Check.operand x) then
    return x.operand
  else
    return .imm 0

def jumpUnless (line : Nat) (x : Value) : GenM Nat := do
  let o ← condition line x
  emit { op := .jpf, a1 := o, a2 := .unresolved }

def landHere (jump : Nat) : GenM Unit := do
  backpatch jump (← here)

def enterLoop : GenM Nat := do
  let start ← here
  modify fun g => { g with loops := { start := start } :: g.loops }
  return start

def exitLoop : GenM Unit := do
  let g ← get
  match g.loops with
  | [] => throw .noLoop
  | l :: loops =>
    l.exits.forM landHere
    modify fun g => { g with loops := loops }

def leave (line : Nat) : GenM Unit := do
  let loops := (← get).loops
  if ← check line (Check.loopJump "break" (!loops.isEmpty)) then
    match loops with
    | [] => throw .noLoop
    | l :: outer =>
      let jump ← emit { op := .jp, a1 := .unresolved }
      modify fun g => { g with loops := { l with exits := l.exits ++ [jump] } :: outer }

def again (line : Nat) : GenM Unit := do
  let loops := (← get).loops
  if ← check line (Check.loopJump "continue" (!loops.isEmpty)) then
    match loops with
    | [] => throw .noLoop
    | l :: _ =>
      let _ ← emit { op := .jp, a1 := .label l.start }

def ret (line : Nat) (x : Option Value) : GenM Unit := do
  if let some function := (← get).function then
    let _ ← check line (Check.result function x)
  match x with
  | some { type := .int, operand, .. } =>
    let _ ← emit { op := .ret, a1 := operand }
  | _ =>
    let _ ← emit { op := .ret }

def variableType (id : Ident) (type : TypeName) : GenM Ty := do
  if ← check id.line (Check.variableType id.name type.ty) then
    return type.ty
  else
    return .error

/-- The number of elements of an array. A size that is absent, fractional or not positive counts
    as one. -/
def arrayLength (id : Ident) (size : Option Numeral) : GenM Word := do
  match size with
  | none => return 1
  | some n =>
    if n.real then
      return 1
    else if ← check id.line (Check.arraySize id.name n.value) then
      return n.value
    else
      return 1

def varDecl (d : VarDecl) : GenM Unit := do
  let type ← variableType d.id d.type
  let s : Symbol := { name := d.id.name, kind := .var, type := type, line := d.id.line }
  let s ←
    match d.extent with
    | .scalar => pure s
    | .array size => pure { s with kind := .array, length := ← arrayLength d.id size }
  let storage := (← get).emitter.free
  if ← declare d.id.line { s with storage := some storage } then
    let _ ← Emitter.allocate s

mutual

def stmt : Stmt → GenM Unit
  | .skipped | .empty => return
  | .expr e => do
    let _ ← expr e
  | .block vars body => do
    enterScope
    vars.forM varDecl
    stmts body
    exitScope
  | .ifThen line e body => do
    let x ← expr e
    let jump ← jumpUnless line x
    stmt body
    landHere jump
  | .ifElse line e body orElse => do
    let x ← expr e
    let jump ← jumpUnless line x
    stmt body
    let skip ← emit { op := .jp, a1 := .unresolved }
    landHere jump
    stmt orElse
    landHere skip
  | .loop line e body => do
    let start ← enterLoop
    let x ← expr e
    let jump ← jumpUnless line x
    stmt body
    let _ ← emit { op := .jp, a1 := .label start }
    landHere jump
    exitLoop
  | .ret line none => ret line none
  | .ret line (some e) => do
    let x ← expr e
    ret line (some x)
  | .leave line => leave line
  | .again line => again line

def stmts : List Stmt → GenM Unit
  | [] => return
  | s :: rest => do
    stmt s
    stmts rest

end

def parameter (id : Ident) (type : Ty) (isArray : Bool) : Symbol where
  name := id.name
  kind := if isArray then .array else .var
  type := type
  line := id.line
  isParam := true

def paramTypes (params : List Param) : List Ty :=
  params.filterMap fun
    | .unnamed _ => none
    | .named type id isArray => some (parameter id (if type = .int then .int else .error) isArray).valueType

/-- Declares a parameter. One whose name is taken has its slot all the same, so that those after
    it keep their places. -/
def param : Param → GenM Unit
  | .unnamed _ => return
  | .named type id isArray => do
    let s := parameter id (← variableType id type) isArray
    let storage := (← get).emitter.free
    let _ ← declare id.line { s with storage := some storage }
    let _ ← Emitter.allocate s

def mainName : Text := "main"

/-- A function: its name is known in its own body, and its parameters and the variables at the
    start of its body share one scope. -/
def funDecl (f : FunDecl) : GenM Unit := do
  let entry ← here
  let s : Symbol :=
    { name := f.id.name, kind := .func, type := f.type.ty, line := f.id.line,
      params := paramTypes f.params.toList, entry := entry }
  let _ ← declare f.id.line s
  let _ ← Emitter.beginFunction f.id.name
  enterScope
  modify fun g => { g with function := some s }
  f.params.toList.forM param
  Emitter.reserveResult
  if f.id.name = mainName then
    let _ ← check f.id.line (Check.mainSignature s)
    Emitter.setMain entry
  f.vars.forM varDecl
  stmts f.body
  Emitter.endFunction
  exitScope
  modify fun g => { g with function := none }

def decl : Decl → GenM Unit
  | .var d => varDecl d
  | .fn f => funDecl f

def source (s : Source) : GenM Unit := do
  s.decls.forM decl
  let main ← resolve? mainName
  let _ ← check s.endLine (Check.mainDeclared main)
  Emitter.finish

def run (s : Source) : Except Fault Codegen :=
  match source s {} with
  | .ok _ g => .ok g
  | .error fault _ => .error fault

def diagnostics (g : Codegen) : List Diagnostic :=
  g.errors.toList.map fun e => ⟨.semantic, e.line, e.cause.message⟩

end Codegen

end MiniC
