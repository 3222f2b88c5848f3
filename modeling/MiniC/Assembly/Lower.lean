import MiniC.Assembly.Line
import MiniC.Code.Program

namespace MiniC

inductive LowerError where
  | jumpTarget (index : Nat) (target : Word)
  | callTarget (index : Nat) (target : Word)
  | noScratch (index : Nat)
  | noFunction (index : Nat)
  | slotOutside (o : Operand) (index : Nat)
  | notStorage (o : Operand) (index : Nat)
  | indirectAddress (index : Nat)
  | addressOf (o : Operand) (index : Nat)
  | returnOutside (index : Nat)
  | unknown (op : Opcode) (index : Nat)
deriving DecidableEq, Repr

namespace LowerError

def isUnresolved : LowerError → Bool
  | jumpTarget _ _ | callTarget _ _ => true
  | _ => false

def reason : LowerError → Text
  | jumpTarget index target =>
    "instruction " ++ Decimal.ofNat index ++ " jumps to " ++ Decimal.ofWord target
  | callTarget index target =>
    "instruction " ++ Decimal.ofNat index ++ " calls " ++ Decimal.ofWord target ++
      ", which is not a function"
  | noScratch index => "scratch registers exhausted at instruction " ++ Decimal.ofNat index
  | noFunction index => "FUNC at " ++ Decimal.ofNat index ++ " has no function"
  | slotOutside o index =>
    "frame slot " ++ o.render ++ " outside a function at " ++ Decimal.ofNat index
  | notStorage o index => "operand " ++ o.render ++ " is not a slot at " ++ Decimal.ofNat index
  | indirectAddress index => "address of indirect operand at " ++ Decimal.ofNat index
  | addressOf o index => "address of " ++ o.render ++ " at " ++ Decimal.ofNat index
  | returnOutside index => "RETURN outside a function at " ++ Decimal.ofNat index
  | unknown op index => "unknown instruction " ++ op.name ++ " at " ++ Decimal.ofNat index

end LowerError

/-- What is wrong inside the compiler, never with its input. -/
def internalError : Text := "internal compiler error"

def LowerError.message (e : LowerError) : Text :=
  internalError ++ (if e.isUnresolved then ": unresolved label: " else ": " : Text) ++ e.reason

namespace Assembly

def machineWord : Word := 8

def maxOffset : Word := 4095 * machineWord

def machineOffset (offset : Word) : Word :=
  offset / wordSize * machineWord

/-- The bytes of a frame, a multiple of 16. -/
def frameBytes (size : Word) : Word :=
  (machineOffset (size + wordSize - 1) + 15) &&& ~~~15

def scratch : List Reg :=
  [.x 9, .x 10, .x 11, .x 12, .x 13, .x 14, .x 15]

/-- The lowering of one instruction: where it stands, and what it has led to. -/
structure Lowering where
  index : Nat
  function : Option Function
  frame : Word
  free : List Reg := scratch
  /-- The most registers that have been taken at a time. -/
  peak : Nat := 0
  lines : Array Line := #[]

abbrev LowerM := EStateM LowerError Lowering

def line (l : Line) : LowerM Unit :=
  modify fun s => { s with lines := s.lines.push l }

def instr (i : Instr) : LowerM Unit :=
  line (.instr i)

def reg : LowerM Reg := do
  let s ← get
  match s.free with
  | [] => throw (.noScratch s.index)
  | r :: free =>
    set { s with free := free, peak := max s.peak (scratch.length - free.length) }
    return r

def freeAll : LowerM Unit :=
  modify fun s => { s with free := scratch }

def fail {α : Type} (error : Nat → LowerError) : LowerM α := do
  throw (error (← get).index)

/-- `d = a + n`. A number that is too large for an instruction is loaded into `t`, which may be
    `d`. -/
def addConstant (d a : Reg) (n : Word) (t : Reg) : LowerM Unit := do
  if n < 4096 then
    instr (.addImm d a n)
  else
    instr (.constant t n)
    instr (.add d a t)

/-- The operand at an offset in the frame. An address that is out of reach is computed in `t`. -/
def frameMem (offset : Word) (t : Reg) : LowerM Mem := do
  if offset ≤ maxOffset then
    return .offset (.x 29) offset
  else
    addConstant t (.x 29) offset t
    return .base t

def dataLabel : Label := .symbol "cm_data"

def globalAddress (d : Reg) (address : Word) : LowerM Unit := do
  let place : Place := ⟨dataLabel, machineOffset (address - dataBase)⟩
  instr (.adrp d place)
  instr (.addLow d d place)

def slotMem (o : Operand) (t : Reg) : LowerM Mem := do
  match o.kind with
  | .slot =>
    if (← get).function.isNone then
      fail (.slotOutside o)
    else
      frameMem (machineOffset o.value) t
  | .global =>
    globalAddress t o.value
    return .base t
  | _ => fail (.notStorage o)

/-- The operand for a word of storage. All addresses on the way to it are computed in `t`. -/
def storageMem (o : Operand) (t : Reg) : LowerM Mem := do
  let m ← slotMem { o with indirect := false } t
  if o.indirect then
    instr (.ldr t m)
    return .base t
  else
    return m

def loadInto (r : Reg) (o : Operand) : LowerM Unit := do
  if o.kind = .imm then
    if 0 ≤ o.value ∧ o.value < 65536 then
      instr (.movImm r o.value)
    else
      instr (.constant r o.value)
  else
    let m ← storageMem o r
    instr (.ldr r m)

def load (o : Operand) : LowerM Reg := do
  let r ← reg
  loadInto r o
  return r

def store (r : Reg) (o : Operand) : LowerM Unit := do
  let t ← reg
  let m ← storageMem o t
  instr (.str r m)

/-- An instruction that computes a word from two: `compute d a b` does so in registers. -/
def binary (i : Instruction) (compute : Reg → Reg → Reg → List Instr) : LowerM Unit := do
  let a ← load i.a1
  let b ← load i.a2
  let d ← reg
  (compute d a b).forM instr
  store d i.a3

def operation? : Opcode → Option (Reg → Reg → Reg → List Instr)
  | .add => some fun d a b => [.add d a b]
  | .sub => some fun d a b => [.sub d a b]
  | .mult => some fun d a b => [.mul d a b]
  | .div => some fun d a b => [.sdiv d a b]
  | .mod => some fun d a b => [.sdiv d a b, .msub d d b a]
  | .elem => some fun d a b => [.addScaled d a b]
  | .eq => some fun d a b => [.cmp a b, .cset d .eq]
  | .ne => some fun d a b => [.cmp a b, .cset d .ne]
  | .lt => some fun d a b => [.cmp a b, .cset d .lt]
  | .le => some fun d a b => [.cmp a b, .cset d .le]
  | .gt => some fun d a b => [.cmp a b, .cset d .gt]
  | .ge => some fun d a b => [.cmp a b, .cset d .ge]
  | _ => none

def storeAddress (i : Instruction) : LowerM Unit := do
  if i.a1.indirect then
    fail .indirectAddress
  else
    let r ← reg
    match i.a1.kind with
    | .slot => addConstant r (.x 29) (machineOffset i.a1.value) r
    | .global => globalAddress r i.a1.value
    | _ => fail (.addressOf i.a1)
    store r i.a3

def functionLabel (p : Program) (entry : Int) : Label :=
  match p.functionAt? entry with
  | some f => .symbol ("cm_" ++ f.name)
  | none => .symbol ("cm_f" ++ Decimal.ofInt entry)

def call (p : Program) (i : Instruction) : LowerM Unit := do
  instr (.call (functionLabel p i.a1.value.toInt))
  if 0 < i.a2.value then
    addConstant .sp .sp (i.a2.value * 16) (← reg)
  unless i.a3.isAbsent do
    store (.x 0) i.a3

def copyArgument (count : Word) (index : Nat) : LowerM Unit := do
  freeAll
  let i : Word := .ofNat index
  let r ← reg
  let source ← frameMem ((← get).frame + 16 + (count - 1 - i) * 16) r
  instr (.ldr r source)
  let target ← frameMem (machineOffset (i * wordSize)) (← reg)
  instr (.str r target)

def prologue (i : Instruction) : LowerM Unit := do
  instr (.storePair (.x 29) (.x 30) (.before .sp (-16)))
  let frame := (← get).frame
  if frame < 4096 then
    instr (.subImm .sp .sp frame)
  else
    let t ← reg
    instr (.constant t frame)
    instr (.sub .sp .sp t)
  instr (.mov (.x 29) .sp)
  (List.range i.a2.value.toNatClampNeg).forM (copyArgument i.a2.value)

def ret (i : Instruction) : LowerM Unit := do
  match (← get).function with
  | none => fail .returnOutside
  | some f =>
    unless i.a1.isAbsent do
      loadInto (.x 0) i.a1
      let m ← frameMem (machineOffset f.frame.returnOffset) (← reg)
      instr (.str (.x 0) m)
    instr (.jump (.epilogue f.entry))

def printWord (o : Operand) : LowerM Unit := do
  loadInto (.x 1) o
  instr (.adrp (.x 0) ⟨.format, 0⟩)
  instr (.addLow (.x 0) (.x 0) ⟨.format, 0⟩)
  instr (.call (.symbol "printf"))

def target (o : Operand) : Label :=
  .code o.value.toInt

def instruction (p : Program) (i : Instruction) : LowerM Unit := do
  match i.op with
  | .assign =>
    let r ← load i.a1
    store r i.a2
  | .addr => storeAddress i
  | .jpf =>
    let r ← load i.a1
    instr (.jumpIfZero r (target i.a2))
  | .jp => instr (.jump (target i.a1))
  | .print => printWord i.a1
  | .param =>
    let r ← load i.a1
    instr (.str r (.before .sp (-16)))
  | .call => call p i
  | .func => prologue i
  | .ret => ret i
  | op =>
    match operation? op with
    | some compute => binary i compute
    | none => fail (.unknown op)

def target? (i : Instruction) : Option Word :=
  i.op.target?.map fun position => (i.operand position).value

/-- What keeps an instruction from its target: a jump goes to an instruction or to the end of the
    program, a call to a function. -/
def targetError? (p : Program) (index : Nat) (i : Instruction) : Option LowerError :=
  match target? i with
  | none => none
  | some t =>
    if t.toInt < 0 ∨ p.code.size < t.toInt then some (.jumpTarget index t)
    else if i.op = .call ∧ p.isEntry t.toInt = false then some (.callTarget index t)
    else none

def firstTargetError? (p : Program) (index : Nat) : List Instruction → Option LowerError
  | [] => none
  | i :: rest =>
    match targetError? p index i with
    | some error => some error
    | none => firstTargetError? p (index + 1) rest

structure Context where
  function : Option Function := none
  frame : Word := 0

def openFunction (p : Program) (index : Nat) (i : Instruction) (c : Context) :
    Except LowerError (List Line × Context) :=
  if i.op = .func then
    match p.functionAt? index with
    | none => .error (.noFunction index)
    | some f =>
      .ok ([.blank, .label (.symbol ("cm_" ++ f.name))], ⟨some f, frameBytes i.a1.value⟩)
  else .ok ([], c)

def instructionLines (p : Program) (index : Nat) (i : Instruction) (c : Context) :
    Except LowerError (List Line) :=
  match instruction p i { index := index, function := c.function, frame := c.frame } with
  | .ok _ s => .ok s.lines.toList
  | .error e _ => .error e

def epilogueLines (f : Function) (frame : Word) : List Line :=
  let add : List Instr :=
    if frame < 4096 then [.addImm .sp .sp frame]
    else [.constant (.x 9) frame, .add .sp .sp (.x 9)]
  .label (.epilogue f.entry) :: .instr (.mov .sp (.x 29)) ::
    add.map Line.instr ++
      [.instr (.loadPair (.x 29) (.x 30) (.after .sp 16)), .instr .ret]

def closeFunction (index : Nat) (c : Context) : List Line × Context :=
  match c.function with
  | some f =>
    if f.stop = index + 1 then (epilogueLines f c.frame, { c with function := none }) else ([], c)
  | none => ([], c)

def body (p : Program) (targets : List Int) (index : Nat) (c : Context) :
    List Instruction → Except LowerError (List Line)
  | [] => .ok []
  | i :: rest => do
    let (opening, c) ← openFunction p index i c
    let label := if targets.contains index then [.label (.code index)] else []
    let lines ← instructionLines p index i c
    let (closing, c) := closeFunction index c
    let later ← body p targets (index + 1) c rest
    return opening ++ label ++ .source index i :: lines ++ closing ++ later

def mainLabel : Label := .symbol "main"

def header : List Line :=
  [.directive ".text", .directive ".globl main", .directive ".type main, %function",
    .label mainLabel, .instr (.storePair (.x 29) (.x 30) (.before .sp (-16))),
    .instr (.mov (.x 29) .sp)]

def footer (p : Program) : List Line :=
  let bytes := machineOffset p.globalSize
  let bytes := if bytes = 0 then machineWord else bytes
  [.label (.code p.code.size), .instr (.movImm (.w 0) 0),
    .instr (.loadPair (.x 29) (.x 30) (.after .sp 16)), .instr .ret, .blank, .directive ".bss",
    .directive ".balign 16", .label dataLabel, .directive (".zero " ++ Decimal.ofWord bytes),
    .blank, .directive ".section .rodata", .label .format,
    .directive ".asciz \"PRINT %ld\\n\""]

def lower (p : Program) : Except LowerError (List Line) := do
  let code := p.code.toList
  if let some error := firstTargetError? p 0 code then
    throw error
  let targets := code.filterMap fun i => (target? i).map Int64.toInt
  let lines ← body p targets 0 {} code
  return header ++ lines ++ footer p

def ofProgram (p : Program) : Except LowerError Text :=
  (lower p).map render

end Assembly

end MiniC
