import MiniC.Code.Program
import MiniC.Symbol.Basic

namespace MiniC

inductive Fault where
  | noInstruction (index : Int)
  | notJump (op : Opcode) (index : Int)
  | noFunction
  | noOuterScope
  | noLoop
  | noOpcode (operator : Text)
deriving DecidableEq, Repr

namespace Fault

/-- The words for a fault. Those that break a precondition of the code's layout have none. -/
def message? : Fault → Option Text
  | noInstruction _ | noFunction | noLoop => none
  | notJump op index => some ("error: backpatch of " ++ op.name ++ " at " ++ Decimal.ofInt index)
  | noOuterScope => some "error: exit of the outermost scope"
  | noOpcode operator => some ("error: no instruction for operator " ++ operator)

end Fault

structure Emitter where
  code : Array Instruction := #[]
  functions : List Function := []
  current : Option Function := none
  nextGlobal : Word := dataBase
  temps : Nat := 0
  globalSize : Word := 0
deriving DecidableEq, Repr

abbrev EmitM := EStateM Fault Emitter

namespace Emitter

def program (e : Emitter) : Program :=
  ⟨e.code, e.functions ++ e.current.toList, e.globalSize⟩

def emit (i : Instruction) : EmitM Nat := do
  let e ← get
  set { e with code := e.code.push i }
  return e.code.size

def here : EmitM Nat :=
  return (← get).code.size

def backpatch (index target : Int) : EmitM Unit := do
  let e ← get
  match index with
  | .negSucc _ => throw (.noInstruction index)
  | .ofNat i =>
    match e.code[i]? with
    | none => throw (.noInstruction index)
    | some instruction =>
      match instruction.op.target? with
      | none => throw (.notJump instruction.op index)
      | some position =>
        set { e with
          code := e.code.setIfInBounds i (instruction.setOperand position (.label target)) }

def inFunction (e : Emitter) : Bool :=
  e.current.isSome

/-- The next free word: in the frame of the current function if there is one. -/
def free (e : Emitter) : Operand :=
  match e.current with
  | some f => .slot f.frame.size
  | none => .global e.nextGlobal

def take (e : Emitter) (name : Text) (kind : SlotKind) (size : Word) : Emitter :=
  match e.current with
  | some f => { e with current := some { f with frame := f.frame.push name kind size } }
  | none => { e with nextGlobal := e.nextGlobal + size }

def reserve (name : Text) (kind : SlotKind) (size : Word) : EmitM Operand := do
  let e ← get
  set (e.take name kind size)
  return e.free

def newTemp : EmitM Operand := do
  modify fun e => { e with temps := e.temps + 1 }
  let e ← get
  reserve ("t" ++ Decimal.ofNat e.temps) .temp wordSize

/-- The bytes that a symbol takes: an array that is no parameter holds all its elements. -/
def storageSize (s : Symbol) : Word :=
  if s.kind = .array ∧ s.isParam = false then s.length * wordSize else wordSize

def countParam (e : Emitter) : Emitter :=
  { e with current := e.current.map fun f =>
      { f with frame := { f.frame with params := f.frame.params + 1 } } }

def allocate (s : Symbol) : EmitM Operand := do
  if s.isParam then
    modify countParam
  reserve s.name (if s.isParam then .param else .var) (storageSize s)

/-- Emits the first instruction of a function and opens its frame. Its parameters come next, and
    then `reserveResult`. -/
def beginFunction (name : Text) : EmitM Nat := do
  let entry ← emit { op := .func, a1 := .imm 0, a2 := .imm 0 }
  modify fun e =>
    { e with
      functions := e.functions ++ e.current.toList
      current := some { name := name, entry := entry } }
  return entry

/-- Places the slot for the result right after the parameters. -/
def reserveResult : EmitM Unit := do
  if (← get).current.isNone then
    throw .noFunction
  let _ ← reserve "return" .ret wordSize

/-- Emits the return at the end of a function, and puts the size of its frame and the number of
    its parameters into its first instruction. -/
def endFunction : EmitM Unit := do
  let _ ← emit { op := .ret }
  let e ← get
  match e.current with
  | none => throw .noFunction
  | some f =>
    set { e with
      code := e.code.modify f.entry.toNat fun i =>
        { i with a1 := .imm f.frame.size, a2 := .imm f.frame.params }
      functions := e.functions ++ [{ f with stop := e.code.size }]
      current := none }

def setMain (entry : Int) : EmitM Unit :=
  backpatch 0 entry

def finish : EmitM Unit := do
  backpatch 1 (← here)
  modify fun e => { e with globalSize := e.nextGlobal - dataBase }

/-- A program that calls a main function not known yet, and halts. -/
def initial : Emitter where
  code := #[{ op := .call, a1 := .unresolved, a2 := .imm 0 }, { op := .jp, a1 := .unresolved }]

end Emitter

end MiniC
