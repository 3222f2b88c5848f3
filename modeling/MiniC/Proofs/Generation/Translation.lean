import MiniC.Proofs.Generation.Growth
import MiniC.Proofs.Reference.Semantics
import MiniC.Proofs.Typing.Rules

namespace MiniC

inductive Home where
  | var (location : Operand)
  /-- An array. The word of a parameter holds the address of the array. -/
  | array (location : Operand) (isParam : Bool)
  | function (entry : Nat) (result : TypeName) (params : List Ty)
  | output
deriving DecidableEq, Repr

def Symbol.home (s : Symbol) : Home :=
  match s.kind with
  | .var => .var s.location
  | .array => .array s.location s.isParam
  | .func =>
    if s.builtin then .output else .function s.entry (if s.type = .void then .void else .int) s.params

namespace Translation

/-- A place in the code of a function: an instruction, and the number of slots taken before it. -/
structure Place where
  pc : Nat
  slot : Nat
deriving DecidableEq, Repr

namespace Place

def next (p : Place) : Place :=
  ⟨p.pc + 1, p.slot⟩

def fill (p : Place) : Place :=
  ⟨p.pc + 1, p.slot + 1⟩

end Place

section Relations

variable (code : Array Instruction) (frame : List Slot)

def Temp (i : Nat) (o : Operand) : Prop :=
  ∃ s, frame[i]? = some s ∧ s.kind = .temp ∧ s.size = wordSize ∧ o = .slot s.offset

inductive BaseCode (location : Operand) : Bool → Place → Operand → Place → Prop where
  | param {p : Place} : BaseCode location true p location p
  | own {p : Place} {base : Operand} : Temp frame p.slot base →
    code[p.pc]? = some { op := .addr, a1 := location, a3 := base } → BaseCode location false p base p.fill

mutual

/-- The code of an expression between two places, its type and the operand that holds its value. -/
inductive ExprCode (Γ : Scoped Home) : Expr → Place → Ty → Operand → Place → Prop where
  | integer {n : Numeral} {p : Place} : n.real = false → ExprCode Γ (.number n) p .int (.imm n.value) p
  | real {n : Numeral} {p : Place} : n.real = true → ExprCode Γ (.number n) p .real (.imm n.value) p
  | var {id : Ident} {p : Place} {o : Operand} :
    Γ.find? id.name = some (.var o) → ExprCode Γ (.name id) p .int o p
  | array {id : Ident} {p : Place} {o : Operand} {isParam : Bool} :
    Γ.find? id.name = some (.array o isParam) → ExprCode Γ (.name id) p .array o p
  | index {id : Ident} {e : Expr} {p q r : Place} {o x base t : Operand} {isParam : Bool} :
    ExprCode Γ e p .int x q → Γ.find? id.name = some (.array o isParam) → BaseCode code frame o isParam q base r →
      Temp frame r.slot t → code[r.pc]? = some { op := .elem, a1 := base, a2 := x, a3 := t } →
      ExprCode Γ (.index id e) p .int t.deref r.fill
  | print {id : Ident} {e : Expr} {p q : Place} {x : Operand} :
    Γ.find? id.name = some .output → ExprCode Γ e p .int x q → code[q.pc]? = some { op := .print, a1 := x } →
      ExprCode Γ (.call id [e]) p .void (.imm 0) q.next
  | procedure {id : Ident} {args : List Expr} {p q : Place} {entry : Nat} {params : List Ty} :
    Γ.find? id.name = some (.function entry .void params) → ArgsCode Γ args p params q →
      code[q.pc]? = some { op := .call, a1 := .label entry, a2 := .imm (.ofNat args.length) } →
      ExprCode Γ (.call id args) p .void (.imm 0) q.next
  | function {id : Ident} {args : List Expr} {p q : Place} {entry : Nat} {params : List Ty} {t : Operand} :
    Γ.find? id.name = some (.function entry .int params) → ArgsCode Γ args p params q → Temp frame q.slot t →
      code[q.pc]? = some { op := .call, a1 := .label entry, a2 := .imm (.ofNat args.length), a3 := t } →
      ExprCode Γ (.call id args) p .int t q.fill
  | unary {op : UnaryOp} {line : Nat} {e : Expr} {p q : Place} {x t : Operand} :
    ExprCode Γ e p .int x q → Temp frame q.slot t → code[q.pc]? = some (Codegen.unaryInstruction op x t) →
      ExprCode Γ (.unary op line e) p .int t q.fill
  | binary {op : BinaryOp} {operation : Opcode} {line : Nat} {left right : Expr} {p q r : Place} {x y t : Operand} :
    op.opcode? = some operation → ExprCode Γ left p .int x q → ExprCode Γ right q .int y r → Temp frame r.slot t →
      code[r.pc]? = some { op := operation, a1 := x, a2 := y, a3 := t } →
      ExprCode Γ (.binary op line left right) p .int t r.fill
  | and {line : Nat} {left right : Expr} {p q r : Place} {x y t : Operand} :
    ExprCode Γ left p .int x q → Temp frame q.slot t → code[q.pc]? = some { op := .assign, a1 := .imm 0, a2 := t } →
      code[q.pc + 1]? = some { op := .jpf, a1 := x, a2 := .label (r.pc + 1 : Nat) } →
      ExprCode Γ right ⟨q.pc + 2, q.slot + 1⟩ .int y r →
      code[r.pc]? = some { op := .ne, a1 := y, a2 := .imm 0, a3 := t } →
      ExprCode Γ (.binary .and line left right) p .int t r.next
  | or {line : Nat} {left right : Expr} {p q r : Place} {x y t zero : Operand} :
    ExprCode Γ left p .int x q → Temp frame q.slot t → Temp frame (q.slot + 1) zero →
      code[q.pc]? = some { op := .assign, a1 := .imm 1, a2 := t } →
      code[q.pc + 1]? = some { op := .eq, a1 := x, a2 := .imm 0, a3 := zero } →
      code[q.pc + 2]? = some { op := .jpf, a1 := zero, a2 := .label (r.pc + 1 : Nat) } →
      ExprCode Γ right ⟨q.pc + 3, q.slot + 2⟩ .int y r →
      code[r.pc]? = some { op := .ne, a1 := y, a2 := .imm 0, a3 := t } →
      ExprCode Γ (.binary .or line left right) p .int t r.next
  | assign {line : Nat} {target value : Expr} {p q r : Place} {x y : Operand} :
    Typing.IsPlace target → ExprCode Γ target p .int x q → ExprCode Γ value q .int y r →
      code[r.pc]? = some { op := .assign, a1 := y, a2 := x } →
      ExprCode Γ (.assign line target value) p .int x r.next

inductive ArgsCode (Γ : Scoped Home) : List Expr → Place → List Ty → Place → Prop where
  | nil {p : Place} : ArgsCode Γ [] p [] p
  | word {e : Expr} {rest : List Expr} {p q r : Place} {x : Operand} {types : List Ty} :
    ExprCode Γ e p .int x q → code[q.pc]? = some { op := .param, a1 := x } → ArgsCode Γ rest q.next types r →
      ArgsCode Γ (e :: rest) p (.int :: types) r
  | array {id : Ident} {rest : List Expr} {p q r : Place} {o base : Operand} {isParam : Bool} {types : List Ty} :
    Γ.find? id.name = some (.array o isParam) → BaseCode code frame o isParam p base q →
      code[q.pc]? = some { op := .param, a1 := base } → ArgsCode Γ rest q.next types r →
      ArgsCode Γ (.name id :: rest) p (.array :: types) r

end

theorem ExprCode.place_of_array {code : Array Instruction} {frame : List Slot} {Γ : Scoped Home} {e : Expr}
    {p q : Place} {o : Operand} (h : ExprCode code frame Γ e p .array o q) : q = p := by
  cases h
  rfl

def varHome (d : VarDecl) (location : Operand) : Home :=
  match d.extent with
  | .scalar => .var location
  | .array _ => .array location false

inductive VarsPlaced : Nat → List VarDecl → Bindings Home → Prop where
  | nil {i : Nat} : VarsPlaced i [] []
  | cons {i : Nat} {d : VarDecl} {rest : List VarDecl} {homes : Bindings Home} {s : Slot} :
    frame[i]? = some s → s.kind = .var → s.size = .ofNat (Reference.words d) * wordSize →
      VarsPlaced (i + 1) rest homes → VarsPlaced i (d :: rest) ((d.id.name, varHome d (.slot s.offset)) :: homes)

structure Turn where
  start : Nat
  exit : Nat
deriving DecidableEq, Repr

mutual

/-- The code of a statement between two places, in a function with the given result. -/
inductive StmtCode (result : TypeName) : Option Turn → Scoped Home → Stmt → Place → Place → Prop where
  | empty {loop : Option Turn} {Γ : Scoped Home} {p : Place} : StmtCode result loop Γ .empty p p
  | expr {loop : Option Turn} {Γ : Scoped Home} {e : Expr} {type : Ty} {x : Operand} {p q : Place} :
    ExprCode code frame Γ e p type x q → StmtCode result loop Γ (.expr e) p q
  | block {loop : Option Turn} {Γ : Scoped Home} {vars : List VarDecl} {homes : Bindings Home} {body : List Stmt}
      {p q : Place} :
    VarsPlaced frame p.slot vars homes → StmtsCode result loop (homes :: Γ) body ⟨p.pc, p.slot + vars.length⟩ q →
      StmtCode result loop Γ (.block vars body) p q
  | ifThen {loop : Option Turn} {Γ : Scoped Home} {line : Nat} {e : Expr} {body : Stmt} {x : Operand}
      {p q r : Place} :
    ExprCode code frame Γ e p .int x q → code[q.pc]? = some { op := .jpf, a1 := x, a2 := .label r.pc } →
      StmtCode result loop Γ body q.next r → StmtCode result loop Γ (.ifThen line e body) p r
  | ifElse {loop : Option Turn} {Γ : Scoped Home} {line : Nat} {e : Expr} {body orElse : Stmt} {x : Operand}
      {p q r t : Place} :
    ExprCode code frame Γ e p .int x q → code[q.pc]? = some { op := .jpf, a1 := x, a2 := .label (r.pc + 1 : Nat) } →
      StmtCode result loop Γ body q.next r → code[r.pc]? = some { op := .jp, a1 := .label t.pc } →
      StmtCode result loop Γ orElse r.next t → StmtCode result loop Γ (.ifElse line e body orElse) p t
  | loop {loop : Option Turn} {Γ : Scoped Home} {line : Nat} {e : Expr} {body : Stmt} {x : Operand} {p q r : Place} :
    ExprCode code frame Γ e p .int x q → code[q.pc]? = some { op := .jpf, a1 := x, a2 := .label (r.pc + 1 : Nat) } →
      StmtCode result (some ⟨p.pc, r.pc + 1⟩) Γ body q.next r → code[r.pc]? = some { op := .jp, a1 := .label p.pc } →
      StmtCode result loop Γ (.loop line e body) p r.next
  | ret {loop : Option Turn} {Γ : Scoped Home} {line : Nat} {p : Place} :
    result = .void → code[p.pc]? = some { op := .ret } → StmtCode result loop Γ (.ret line none) p p.next
  | value {loop : Option Turn} {Γ : Scoped Home} {line : Nat} {e : Expr} {x : Operand} {p q : Place} :
    result = .int → ExprCode code frame Γ e p .int x q → code[q.pc]? = some { op := .ret, a1 := x } →
      StmtCode result loop Γ (.ret line (some e)) p q.next
  | leave {turn : Turn} {Γ : Scoped Home} {line : Nat} {p : Place} :
    code[p.pc]? = some { op := .jp, a1 := .label turn.exit } → StmtCode result (some turn) Γ (.leave line) p p.next
  | again {turn : Turn} {Γ : Scoped Home} {line : Nat} {p : Place} :
    code[p.pc]? = some { op := .jp, a1 := .label turn.start } → StmtCode result (some turn) Γ (.again line) p p.next

inductive StmtsCode (result : TypeName) : Option Turn → Scoped Home → List Stmt → Place → Place → Prop where
  | nil {loop : Option Turn} {Γ : Scoped Home} {p : Place} : StmtsCode result loop Γ [] p p
  | cons {loop : Option Turn} {Γ : Scoped Home} {s : Stmt} {rest : List Stmt} {p q r : Place} :
    StmtCode result loop Γ s p q → StmtsCode result loop Γ rest q r → StmtsCode result loop Γ (s :: rest) p r

end

inductive ParamsPlaced : Nat → List Param → Bindings Home → Prop where
  | nil {i : Nat} : ParamsPlaced i [] []
  | cons {i : Nat} {type : TypeName} {id : Ident} {isArray : Bool} {rest : List Param} {homes : Bindings Home}
      {s : Slot} :
    frame[i]? = some s → s.kind = .param → s.size = wordSize → ParamsPlaced (i + 1) rest homes →
      ParamsPlaced i (.named type id isArray :: rest)
        ((id.name, if isArray then .array (.slot s.offset) true else .var (.slot s.offset)) :: homes)

end Relations

def functionHome (f : FunDecl) (entry : Nat) : Text × Home :=
  (f.id.name, .function entry f.type (Typing.paramTypes f.params.toList))

/-- The code of a function from its entry up to its last instruction. Its frame holds the
    parameters, the result and the variables, and behind them the temporaries and the variables of
    inner blocks. -/
structure FunctionCode (code : Array Instruction) (globals : Bindings Home) (f : FunDecl) (fn : Function)
    (entry last : Nat) : Prop where
  name : fn.name = f.id.name
  startsAt : fn.entry = entry
  endsAt : fn.stop = (last + 1 : Nat)
  count : fn.frame.params = .ofNat f.params.toList.length
  packed : Slot.Packed 0 fn.frame.slots fn.frame.size
  enter : code[entry]? = some { op := .func, a1 := .imm fn.frame.size, a2 := .imm fn.frame.params }
  leave : code[last]? = some { op := .ret }
  result : ∃ s, fn.frame.slots[f.params.toList.length]? = some s ∧ s.kind = .ret ∧ s.size = wordSize
  body : ∃ params vars, ParamsPlaced fn.frame.slots 0 f.params.toList params ∧
    VarsPlaced fn.frame.slots (f.params.toList.length + 1) f.vars vars ∧
    StmtsCode code fn.frame.slots f.type none [params ++ vars, globals] f.body
      ⟨entry + 1, f.params.toList.length + 1 + f.vars.length⟩ ⟨last, fn.frame.slots.length⟩

/-- The code of declarations from an instruction and a global address on: the functions they lead
    to, and the global names before and after them. -/
inductive DeclsCode (code : Array Instruction) :
    Bindings Home → Nat → Word → List Decl → List Function → Bindings Home → Nat → Word → Prop where
  | nil {globals : Bindings Home} {pc : Nat} {data : Word} : DeclsCode code globals pc data [] [] globals pc data
  | var {globals final : Bindings Home} {pc stop : Nat} {data bound : Word} {d : VarDecl} {rest : List Decl}
      {functions : List Function} :
    DeclsCode code (globals ++ [(d.id.name, varHome d (.global data))]) pc
        (data + .ofNat (Reference.words d) * wordSize) rest functions final stop bound →
      DeclsCode code globals pc data (.var d :: rest) functions final stop bound
  | fn {globals final : Bindings Home} {pc last stop : Nat} {data bound : Word} {f : FunDecl} {rest : List Decl}
      {fn : Function} {functions : List Function} :
    FunctionCode code (globals ++ [functionHome f pc]) f fn pc last →
      DeclsCode code (globals ++ [functionHome f pc]) (last + 1) data rest functions final stop bound →
      DeclsCode code globals pc data (.fn f :: rest) (fn :: functions) final stop bound

/-- The code of a source: a call of the main function, a jump to the end, and the functions. -/
structure ProgramCode (s : Source) (p : Program) (entry : Nat) (globals : Bindings Home) : Prop where
  start : p.code[0]? = some { op := .call, a1 := .label entry, a2 := .imm 0 }
  halt : p.code[1]? = some { op := .jp, a1 := .label p.code.size }
  decls : DeclsCode p.code [(Symbol.output.name, .output)] 2 dataBase s.decls p.functions globals p.code.size
    (dataBase + p.globalSize)
  main : globals.lookup Codegen.mainName = some (.function entry .void [])

end Translation

end MiniC
