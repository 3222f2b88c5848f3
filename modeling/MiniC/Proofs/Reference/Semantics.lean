import MiniC.Codegen.Source
import MiniC.Machine.Step
import MiniC.Proofs.Environment

namespace MiniC.Reference

/-- The cells of one variable or array. Those of a call carry the number of calls around it. -/
inductive Block where
  | global (declaration : Nat)
  | param (level position : Nat)
  | var (level declaration : Nat)
deriving DecidableEq, Repr

inductive Binding where
  | scalar (b : Block)
  | array (b : Block) (length : Nat)
  | function (f : FunDecl)
  | output
deriving Repr

abbrev Layer := Bindings Binding

abbrev Env := Scoped Binding

inductive Denotation where
  | word (w : Word)
  | cell (b : Block) (index : Nat)
  | array (b : Block) (length : Nat)
  | nothing
deriving Repr

structure Store where
  cells : Block → Nat → Option Word
  output : List Word := []

inductive Halt where
  | divisionByZero
  /-- An index lies outside its array. -/
  | outside
  /-- A local word is read before it is written. -/
  | unwritten
  /-- A call does not fit into the storage. -/
  | noRoom
  /-- The tree breaks a static rule. -/
  | illFormed
  | timeout
deriving DecidableEq, Repr

inductive Flow where
  | next
  | leave
  | again
  | ret (w : Word)
deriving Repr

abbrev EvalM := EStateM Halt Store

namespace Store

def write (σ : Store) (b : Block) (index : Nat) (w : Word) : Store :=
  { σ with cells := fun b' i => if b' = b ∧ i = index then some w else σ.cells b' i }

def fresh (σ : Store) (level : Nat) : Store :=
  { σ with
    cells := fun b i =>
      match b with
      | .global _ => σ.cells b i
      | .param l _ | .var l _ => if l = level then none else σ.cells b i }

def initial : Store where
  cells b _ :=
    match b with
    | .global _ => some 0
    | _ => none

end Store

def read : Denotation → EvalM Word
  | .word w => return w
  | .cell b i => do
    match (← get).cells b i with
    | some w => return w
    | none => throw .unwritten
  | _ => throw .illFormed

def element (b : Block) (length : Nat) (index : Word) : EvalM Denotation :=
  if 0 ≤ index.toInt ∧ index.toInt < length then return .cell b index.toNatClampNeg
  else throw .outside

def applyUnary : UnaryOp → Word → Word
  | .neg, x => -x
  | .not, x => Machine.ofBool (x = 0)

/-- An operator on two words. The operators that may leave out their right operand are apart. -/
def applyBinary (op : BinaryOp) (x y : Word) : EvalM Word :=
  match op with
  | .or | .and => throw .illFormed
  | .eq => return Machine.ofBool (x = y)
  | .ne => return Machine.ofBool (x ≠ y)
  | .lt => return Machine.ofBool (x < y)
  | .le => return Machine.ofBool (x ≤ y)
  | .gt => return Machine.ofBool (x > y)
  | .ge => return Machine.ofBool (x ≥ y)
  | .add => return x + y
  | .sub => return x - y
  | .mul => return x * y
  | .div => if y = 0 then throw .divisionByZero else return x / y
  | .mod => if y = 0 then throw .divisionByZero else return x % y

/-- The number of words of a variable. An array whose size is fractional has one element. -/
def words (d : VarDecl) : Nat :=
  match d.extent with
  | .scalar | .array none => 1
  | .array (some n) => if n.real then 1 else n.value.toNatClampNeg

def bind (d : VarDecl) (b : Block) : Text × Binding :=
  match d.extent with
  | .scalar => (d.id.name, .scalar b)
  | .array _ => (d.id.name, .array b (words d))

def bindVars (level n : Nat) : List VarDecl → Layer
  | [] => []
  | d :: rest => bind d (.var level n) :: bindVars level (n + 1) rest

mutual

def variablesIn : Stmt → List VarDecl
  | .block vars body => vars ++ variablesAll body
  | .ifThen _ _ body | .loop _ _ body => variablesIn body
  | .ifElse _ _ body orElse => variablesIn body ++ variablesIn orElse
  | _ => []

def variablesAll : List Stmt → List VarDecl
  | [] => []
  | s :: rest => variablesIn s ++ variablesAll rest

end

structure Call where
  env : Env
  level : Nat
  top : Nat

/-- Hands an argument to a parameter: a word is copied, an array is shared. -/
def bindParam (level position : Nat) : Param → Denotation → EvalM (Text × Binding)
  | .named _ id false, d => do
    let w ← read d
    modify fun σ => σ.write (.param level position) 0 w
    return (id.name, .scalar (.param level position))
  | .named _ id true, .array b length => return (id.name, .array b length)
  | _, _ => throw .illFormed

def bindParams (level position : Nat) : List Param → List Denotation → EvalM Layer
  | [], [] => return []
  | p :: params, d :: args => do
    let first ← bindParam level position p d
    return first :: (← bindParams level (position + 1) params args)
  | _, _ => throw .illFormed

def passed (d : Denotation) : EvalM Denotation := do
  match d with
  | .array _ _ => return d
  | _ => return .word (← read d)

section Evaluation

-- The global names, and the bytes that the frame of each function takes.
variable (globals : Layer) (frame : Text → Nat)

mutual

def expr (fuel : Nat) (c : Call) (e : Expr) : EvalM Denotation :=
  match fuel with
  | 0 => throw .timeout
  | fuel + 1 =>
    match e with
    | .missing => throw .illFormed
    | .number n => return if n.real then .nothing else .word n.value
    | .name id =>
      match c.env.find? id.name with
      | some (.scalar b) => return .cell b 0
      | some (.array b length) => return .array b length
      | _ => throw .illFormed
    | .index array subscript => do
      let d ← expr fuel c subscript
      let w ← read d
      match c.env.find? array.name with
      | some (.array b length) => element b length w
      | _ => throw .illFormed
    | .call callee args => do
      let values ← arguments fuel c args
      match c.env.find? callee.name with
      | some (.function f) => call fuel c f values
      | some .output =>
        match values with
        | [.word w] =>
          modify fun σ => { σ with output := σ.output ++ [w] }
          return .nothing
        | _ => throw .illFormed
      | _ => throw .illFormed
    | .unary op _ operand => do
      let d ← expr fuel c operand
      return .word (applyUnary op (← read d))
    | .binary .and _ left right => do
      let d ← expr fuel c left
      if (← read d) = 0 then
        return .word 0
      else
        let d ← expr fuel c right
        return .word (Machine.ofBool ((← read d) ≠ 0))
    | .binary .or _ left right => do
      let d ← expr fuel c left
      if (← read d) = 0 then
        let d ← expr fuel c right
        return .word (Machine.ofBool ((← read d) ≠ 0))
      else
        return .word 1
    | .binary op _ left right => do
      let d ← expr fuel c left
      let d' ← expr fuel c right
      let x ← read d
      let y ← read d'
      return .word (← applyBinary op x y)
    | .assign _ target value => do
      let d ← expr fuel c target
      let d' ← expr fuel c value
      let w ← read d'
      match d with
      | .cell b i =>
        modify fun σ => σ.write b i w
        return d
      | _ => throw .illFormed

def arguments (fuel : Nat) (c : Call) (args : List Expr) : EvalM (List Denotation) :=
  match fuel with
  | 0 => throw .timeout
  | fuel + 1 =>
    match args with
    | [] => return []
    | e :: rest => do
      let d ← expr fuel c e
      let d ← passed d
      return d :: (← arguments fuel c rest)

/-- Calls a function: its body is evaluated with the global names and its own. A body that ends
    without a result gives zero. -/
def call (fuel : Nat) (caller : Call) (f : FunDecl) (args : List Denotation) : EvalM Denotation :=
  match fuel with
  | 0 => throw .timeout
  | fuel + 1 => do
    let level := caller.level + 1
    let top := caller.top + frame f.id.name
    if 2 ^ 63 ≤ top then
      throw .noRoom
    modify fun σ => σ.fresh level
    let params ← bindParams level 0 f.params.toList args
    let c : Call := ⟨[params ++ bindVars level 0 f.vars, globals], level, top⟩
    match f.type, ← stmts fuel c f.vars.length f.body with
    | .void, _ => return .nothing
    | .int, .ret w => return .word w
    | .int, _ => return .word 0

def stmt (fuel : Nat) (c : Call) (n : Nat) (s : Stmt) : EvalM Flow :=
  match fuel with
  | 0 => throw .timeout
  | fuel + 1 =>
    match s with
    | .skipped => throw .illFormed
    | .empty => return .next
    | .expr e => do
      let _ ← expr fuel c e
      return .next
    | .block vars body =>
      stmts fuel { c with env := bindVars c.level n vars :: c.env } (n + vars.length) body
    | .ifThen _ e body => do
      let d ← expr fuel c e
      if (← read d) = 0 then return .next else stmt fuel c n body
    | .ifElse _ e body orElse => do
      let d ← expr fuel c e
      if (← read d) = 0 then stmt fuel c (n + (variablesIn body).length) orElse else stmt fuel c n body
    | .loop line e body => do
      let d ← expr fuel c e
      if (← read d) = 0 then
        return .next
      else
        match ← stmt fuel c n body with
        | .next | .again => stmt fuel c n (.loop line e body)
        | .leave => return .next
        | .ret w => return .ret w
    | .ret _ none => return .ret 0
    | .ret _ (some e) => do
      let d ← expr fuel c e
      return .ret (← read d)
    | .leave _ => return .leave
    | .again _ => return .again

def stmts (fuel : Nat) (c : Call) (n : Nat) (body : List Stmt) : EvalM Flow :=
  match fuel with
  | 0 => throw .timeout
  | fuel + 1 =>
    match body with
    | [] => return .next
    | s :: rest => do
      match ← stmt fuel c n s with
      | .next => stmts fuel c (n + (variablesIn s).length) rest
      | flow => return flow

end

end Evaluation

theorem expr_binary {op : BinaryOp} {operation : Opcode} (known : op.opcode? = some operation) (names : Layer)
    (size : Text → Nat) (fuel : Nat) (c : Call) (line : Nat) (left right : Expr) :
    expr names size (fuel + 1) c (.binary op line left right) = do
      let d ← expr names size fuel c left
      let d' ← expr names size fuel c right
      let a ← read d
      let b ← read d'
      return .word (← applyBinary op a b) := by
  cases op
  case or | and => cases known
  all_goals simp only [expr]

theorem stmt_ifThen (names : Layer) (size : Text → Nat) (fuel : Nat) (c : Call) (n line : Nat) (e : Expr) (body : Stmt) :
    stmt names size (fuel + 1) c n (.ifThen line e body) = (do
      let d ← expr names size fuel c e
      if (← read d) = 0 then return .next else stmt names size fuel c n body) := by
  simp only [stmt]

def bindGlobals (n : Nat) : List Decl → Layer
  | [] => []
  | .var d :: rest => bind d (.global n) :: bindGlobals (n + 1) rest
  | .fn f :: rest => (f.id.name, .function f) :: bindGlobals n rest

def globalNames (s : Source) : Layer :=
  (Symbol.output.name, .output) :: bindGlobals 0 s.decls

def run (frame : Text → Nat) (fuel : Nat) (s : Source) : EvalM Unit := do
  let globals := globalNames s
  let start : Call := ⟨[globals], 0, stackBase.toNatClampNeg⟩
  match globals.lookup Codegen.mainName with
  | some (.function main) =>
    let _ ← call globals frame fuel start main []
  | _ => throw .illFormed

def frameBytes (p : Program) (name : Text) : Nat :=
  (p.functions.find? (·.name = name)).elim 0 (·.frame.size.toNatClampNeg)

def allVariables (s : Source) : List VarDecl :=
  s.decls.flatMap fun
    | .var d => [d]
    | .fn f => f.vars ++ variablesAll f.body

def globalVariables (s : Source) : List VarDecl :=
  s.decls.filterMap fun
    | .var d => some d
    | .fn _ => none

/-- Whether the storage of a program fits: no size wraps around, neither that of a variable nor that
    of a frame, the globals end where the frames start, and every instruction has an index. -/
structure Fits (s : Source) (p : Program) : Prop where
  variablesIn : ∀ d ∈ allVariables s, 4 * words d < 2 ^ 63
  frames : ∀ f ∈ p.functions, (f.frame.slots.map (·.size.toNatClampNeg)).sum < 2 ^ 63
  globals : dataBase.toNatClampNeg + 4 * ((globalVariables s).map words).sum ≤ stackBase.toNatClampNeg
  code : p.code.size < 2 ^ 63

instance (s : Source) (p : Program) : Decidable (Fits s p) :=
  have := List.decidableBAll (fun d => 4 * words d < 2 ^ 63) (allVariables s)
  have := List.decidableBAll (fun f => (f.frame.slots.map (·.size.toNatClampNeg)).sum < 2 ^ 63) p.functions
  decidable_of_iff ((∀ d ∈ allVariables s, 4 * words d < 2 ^ 63) ∧
      (∀ f ∈ p.functions, (f.frame.slots.map (·.size.toNatClampNeg)).sum < 2 ^ 63) ∧
      dataBase.toNatClampNeg + 4 * ((globalVariables s).map words).sum ≤ stackBase.toNatClampNeg ∧ p.code.size < 2 ^ 63)
    ⟨fun h => ⟨h.1, h.2.1, h.2.2.1, h.2.2.2⟩, fun h => ⟨h.variablesIn, h.frames, h.globals, h.code⟩⟩

end MiniC.Reference
