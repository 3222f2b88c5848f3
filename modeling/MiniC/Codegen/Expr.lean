import MiniC.Codegen.Basic

namespace MiniC

/-- The instruction that computes an operator; the operators that may leave out their right
    operand have none. -/
def BinaryOp.opcode? : BinaryOp → Option Opcode
  | .or | .and => none
  | .eq => some .eq
  | .ne => some .ne
  | .lt => some .lt
  | .le => some .le
  | .gt => some .gt
  | .ge => some .ge
  | .add => some .add
  | .sub => some .sub
  | .mul => some .mult
  | .div => some .div
  | .mod => some .mod

namespace Codegen

open Emitter (emit newTemp here backpatch)

def number (n : Numeral) : Value :=
  { type := if n.real then .real else .int, operand := .imm n.value }

def name (id : Ident) : GenM Value := do
  match ← lookup id with
  | none => return .reported
  | some s =>
    if ← check id.line (Check.name s) then
      if s.type = .error then
        return .reported
      else if s.kind = .array then
        return { type := .array, operand := s.location, symbol := some s }
      else
        return { type := .int, operand := s.location, symbol := some s, assignable := true }
    else
      return .reported

/-- An operand that holds the address of an array's first element. An array parameter holds it
    already. -/
def arrayBase (s : Symbol) : GenM Operand := do
  if s.isParam then
    return s.location
  else
    let base ← newTemp
    let _ ← emit { op := .addr, a1 := s.location, a3 := base }
    return base

def index (array : Ident) (subscript : Value) : GenM Value := do
  match ← lookup array with
  | none => return .reported
  | some s =>
    if ← check array.line (Check.index s subscript) then
      let base ← arrayBase s
      let address ← newTemp
      let _ ← emit { op := .elem, a1 := base, a2 := subscript.operand, a3 := address }
      return { type := .int, operand := address.deref, symbol := some s, assignable := true }
    else
      return .reported

structure Call where
  callee : Option Symbol
  line : Nat
  count : Nat := 0
  /-- The argument of the built-in function, which prints it once the call is complete. -/
  printed : Operand := .absent

def beginCall (id : Ident) : GenM Call := do
  match ← lookup id with
  | none => return { callee := none, line := id.line }
  | some s =>
    if ← check id.line (Check.callee s) then
      return { callee := some s, line := id.line }
    else
      return { callee := none, line := id.line }

/-- Passes one argument. Those beyond the last parameter are only counted. -/
def argument (c : Call) (x : Value) : GenM Call := do
  let next := { c with count := c.count + 1 }
  match c.callee with
  | none => return next
  | some s =>
    let _ ← check c.line (Check.argument s c.count x)
    if s.params.length ≤ c.count then
      return next
    else if s.builtin then
      return { next with printed := x.operand }
    else
      let passed ←
        match x.type, x.symbol with
        | .array, some array => arrayBase array
        | _, _ => pure x.operand
      let _ ← emit { op := .param, a1 := passed }
      return next

def endCall (c : Call) : GenM Value := do
  match c.callee with
  | none => return .reported
  | some s =>
    let _ ← check c.line (Check.argumentCount s c.count)
    if s.builtin then
      if c.count = s.params.length then
        let _ ← emit { op := .print, a1 := c.printed }
      return { type := .void, operand := .imm 0, symbol := some s }
    else if s.type = .void then
      let _ ← emit { op := .call, a1 := .label s.entry, a2 := .imm (.ofNat c.count) }
      return { type := .void, operand := .imm 0, symbol := some s }
    else
      let result ← newTemp
      let _ ← emit { op := .call, a1 := .label s.entry, a2 := .imm (.ofNat c.count), a3 := result }
      return { type := .int, operand := result, symbol := some s }

def unary (op : UnaryOp) (line : Nat) (x : Value) : GenM Value := do
  if ← check line (Check.operand x) then
    let result ← newTemp
    let _ ←
      match op with
      | .neg => emit { op := .sub, a1 := .imm 0, a2 := x.operand, a3 := result }
      | .not => emit { op := .eq, a1 := x.operand, a2 := .imm 0, a3 := result }
    return { type := .int, operand := result }
  else
    return .reported

def binary (op : BinaryOp) (line : Nat) (left right : Value) : GenM Value := do
  if ← check line (Check.operands left right) then
    match op.opcode? with
    | none => throw (.noOpcode op.punct.lexeme)
    | some code =>
      let result ← newTemp
      let _ ← emit { op := code, a1 := left.operand, a2 := right.operand, a3 := result }
      return { type := .int, operand := result }
  else
    return .reported

structure Logical where
  result : Operand
  jump : Nat

/-- Comes after the left operand of `&&` or `||`. Once that decides the result, the right operand
    is jumped over. -/
def beginLogical (conjunction : Bool) (line : Nat) (left : Value) : GenM (Option Logical) := do
  if ← check line (Check.operand left) then
    let result ← newTemp
    if conjunction then
      let _ ← emit { op := .assign, a1 := .imm 0, a2 := result }
      let jump ← emit { op := .jpf, a1 := left.operand, a2 := .unresolved }
      return some ⟨result, jump⟩
    else
      let zero ← newTemp
      let _ ← emit { op := .assign, a1 := .imm 1, a2 := result }
      let _ ← emit { op := .eq, a1 := left.operand, a2 := .imm 0, a3 := zero }
      let jump ← emit { op := .jpf, a1 := zero, a2 := .unresolved }
      return some ⟨result, jump⟩
  else
    return none

def endLogical (l : Option Logical) (line : Nat) (right : Value) : GenM Value := do
  let accepted ← check line (Check.operand right)
  match l with
  | none => return .reported
  | some l =>
    if accepted then
      let _ ← emit { op := .ne, a1 := right.operand, a2 := .imm 0, a3 := l.result }
    backpatch l.jump (← here)
    return if accepted then { type := .int, operand := l.result } else .reported

def assign (line : Nat) (target x : Value) : GenM Value := do
  if ← check line (Check.assignment target x) then
    let _ ← emit { op := .assign, a1 := x.operand, a2 := target.operand }
    return { type := .int, operand := target.operand }
  else
    return .reported

mutual

/-- Code for an expression. Operands and arguments come in the order of the source. -/
def expr : Expr → GenM Value
  | .missing => return .reported
  | .number n => return number n
  | .name id => name id
  | .index array subscript => do
    let x ← expr subscript
    index array x
  | .call callee args => do
    let c ← beginCall callee
    let c ← arguments c args
    endCall c
  | .unary op line operand => do
    let x ← expr operand
    unary op line x
  | .binary op line left right => do
    let x ← expr left
    match op with
    | .and | .or =>
      let l ← beginLogical (op = .and) line x
      let y ← expr right
      endLogical l line y
    | _ =>
      let y ← expr right
      binary op line x y
  | .assign line target value => do
    let x ← expr target
    let y ← expr value
    assign line x y

def arguments (c : Call) : List Expr → GenM Call
  | [] => return c
  | e :: rest => do
    let x ← expr e
    let c ← argument c x
    arguments c rest

end

end Codegen

end MiniC
