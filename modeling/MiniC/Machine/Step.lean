import MiniC.Code.Program
import MiniC.Machine.Failure
import MiniC.Machine.Memory

namespace MiniC

def stackBase : Word := 1048576

structure Activation where
  ret : Int
  result : Operand
  fp : Word
  sp : Word
  params : Word := 0
deriving DecidableEq, Repr

structure Machine where
  program : Program
  memory : Memory := {}
  pc : Int := 0
  fp : Word := stackBase
  sp : Word := stackBase
  steps : Nat := 0
  halted : Bool := false
  output : Array Word := #[]
  /-- The arguments pushed and not taken by a call. -/
  args : Array Word := #[]
  /-- The arguments that the last call took. -/
  pending : Array Word := #[]
  /-- Whether a call has been made whose function is not entered yet. -/
  calling : Bool := false
  /-- The calls that have not returned, innermost first. -/
  activations : List Activation := []

abbrev MachineM := EStateM Failure Machine

namespace Machine

def address (o : Operand) (m : Machine) : Except Crash Word :=
  match o.kind with
  | .global => .ok (if o.indirect then m.memory.read o.value else o.value)
  | .slot =>
    .ok (if o.indirect then m.memory.read (m.fp + o.value) else m.fp + o.value)
  | _ => .error (.noAddress o)

def value (o : Operand) (m : Machine) : Except Crash Word :=
  if o.kind = .imm then .ok o.value
  else (m.address o).map m.memory.read

def store (o : Operand) (w : Word) (m : Machine) : Except Crash Machine :=
  (m.address o).map fun a => { m with memory := m.memory.write a w }

def look {α : Type} (f : Machine → Except Crash α) : MachineM α := fun m =>
  match f m with
  | .ok a => .ok a m
  | .error c => .error (.crash c) m

def read (o : Operand) : MachineM Word :=
  look (value o)

def write (o : Operand) (w : Word) : MachineM Unit := fun m =>
  match m.address o with
  | .ok a => .ok () { m with memory := m.memory.write a w }
  | .error c => .error (.crash c) m

def fault {α : Type} (cause : MachineFault) : MachineM α := fun m =>
  .error (.error ⟨.fault, m.pc, cause.message, none⟩) m

def valueOperands (i : Instruction) : List Operand :=
  match i.op with
  | .add | .sub | .mult | .div | .mod | .eq | .ne | .lt | .le | .gt | .ge | .elem => [i.a1, i.a2]
  | .assign | .jpf | .print | .param => [i.a1]
  | .ret => if i.a1.isAbsent then [] else [i.a1]
  | _ => []

def storageOperands (i : Instruction) : List Operand :=
  match i.op with
  | .add | .sub | .mult | .div | .mod | .eq | .ne | .lt | .le | .gt | .ge | .elem => [i.a3]
  | .assign => [i.a2]
  | .addr => [i.a1, i.a3]
  | .call => if i.a3.isAbsent then [] else [i.a3]
  | _ => []

def badOperand? (i : Instruction) : Option MachineFault :=
  match (valueOperands i).find? fun o => !(o.kind = .imm || o.isStorage) with
  | some o => some (.noValue o)
  | none => ((storageOperands i).find? fun o => !o.isStorage).map .noAddress

def ofBool (b : Bool) : Word :=
  if b then 1 else 0

/-- The operation of an instruction that computes a word from two. Division is apart. -/
def arithmetic? : Opcode → Option (Word → Word → Word)
  | .add => some (· + ·)
  | .sub => some (· - ·)
  | .mult => some (· * ·)
  | .eq => some fun x y => ofBool (x = y)
  | .ne => some fun x y => ofBool (x ≠ y)
  | .lt => some fun x y => ofBool (x < y)
  | .le => some fun x y => ofBool (x ≤ y)
  | .gt => some fun x y => ofBool (y < x)
  | .ge => some fun x y => ofBool (y ≤ x)
  | .elem => some fun x y => x + y * wordSize
  | _ => none

def compute (f : Word → Word → Word) (i : Instruction) : MachineM Unit := do
  let x ← read i.a1
  let y ← read i.a2
  write i.a3 (f x y)

def divide (f : Word → Word → Word) (i : Instruction) : MachineM Unit := do
  let y ← read i.a2
  if y = 0 then
    fault .divisionByZero
  else
    let x ← read i.a1
    write i.a3 (f x y)

/-- Takes the arguments of a call, remembers the caller, and gives the function's index. -/
def call (i : Instruction) (next : Int) : MachineM Int := do
  let m ← get
  let count := i.a2.value.toInt
  if (m.args.size : Int) < count then
    fault (.tooFewArguments i.a2.value m.args.size)
  else if count < 0 then
    throw (.crash .negativeCount)
  else
    let kept := m.args.size - count.toNat
    set { m with
      pending := m.args.extract kept m.args.size
      args := m.args.extract 0 kept
      activations := ⟨next, i.a3, m.fp, m.sp, 0⟩ :: m.activations
      calling := true }
    if m.program.isEntry i.a1.value.toInt then
      return i.a1.value.toInt
    else
      fault (.notFunction i.a1.value)

def enter (i : Instruction) : MachineM Unit := do
  if (← get).calling then
    modify fun m => { m with calling := false }
    let m ← get
    if i.a2.value.toInt ≠ m.pending.size then
      fault (.argumentCount i.a2.value m.pending.size)
    else
      match m.activations with
      | [] => throw (.crash .noActivation)
      | top :: rest =>
        set { m with
          fp := m.sp
          sp := m.sp + i.a1.value
          memory := m.memory.writeAll m.sp wordSize m.pending.toList
          activations := { top with params := i.a2.value } :: rest }
  else
    fault .notCalled

/-- Closes the frame of a function, hands its result to the caller, and gives the index at which
    the caller goes on. The result is also left in the frame, after the parameters. -/
def leave (i : Instruction) : MachineM Int := do
  let m ← get
  match m.activations with
  | [] => fault .noActivation
  | top :: rest =>
    let w ← if i.a1.isAbsent then pure 0 else read i.a1
    unless i.a1.isAbsent do
      modify fun m => { m with memory := m.memory.write (m.fp + top.params * wordSize) w }
    modify fun m => { m with fp := top.fp, sp := top.sp, activations := rest }
    unless top.result.isAbsent do
      write top.result w
    return top.ret

/-- Executes an instruction whose operands can serve, and gives the index of the next one. -/
def execute (i : Instruction) (next : Int) : MachineM Int := do
  match i.op with
  | .div =>
    divide (· / ·) i
    return next
  | .mod =>
    divide (· % ·) i
    return next
  | .assign =>
    write i.a2 (← read i.a1)
    return next
  | .addr =>
    write i.a3 (← look (address i.a1))
    return next
  | .jpf => return if (← read i.a1) = 0 then i.a2.value.toInt else next
  | .jp => return i.a1.value.toInt
  | .print =>
    let w ← read i.a1
    modify fun m => { m with output := m.output.push w }
    return next
  | .param =>
    let w ← read i.a1
    modify fun m => { m with args := m.args.push w }
    return next
  | .call => call i next
  | .func =>
    enter i
    return next
  | .ret => leave i
  | op =>
    match arithmetic? op with
    | some f =>
      compute f i
      return next
    | none => fault (.unknown op)

/-- Executes the instruction at hand. A machine that has reached the end of its program halts. -/
def step : MachineM Unit := do
  let m ← get
  if m.pc = m.program.code.size then
    set { m with halted := true }
  else
    match m.program.fetch? m.pc with
    | none => fault .jumpOutside
    | some i =>
      match badOperand? i with
      | some cause => fault cause
      | none =>
        modify fun m => { m with steps := m.steps + 1 }
        let next ← execute i (m.pc + 1)
        modify fun m => { m with pc := next }

end Machine

end MiniC
