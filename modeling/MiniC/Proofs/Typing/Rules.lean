import MiniC.Codegen.Source
import MiniC.Proofs.Environment

namespace MiniC.Typing

inductive Declared where
  | var
  | array
  | function (result : TypeName) (params : List Ty)
deriving DecidableEq, Repr

abbrev Layer := Bindings Declared

abbrev Env := Scoped Declared

def IsPlace : Expr → Prop
  | .name _ | .index _ _ => True
  | _ => False

mutual

/-- The type of an expression. An array as a whole has a type of its own, and so has a fractional
    number, which no operator takes. -/
inductive HasType (Γ : Env) : Expr → Ty → Prop where
  | integer {n : Numeral} : n.real = false → HasType Γ (.number n) .int
  | real {n : Numeral} : n.real = true → HasType Γ (.number n) .real
  | var {id : Ident} : Γ.find? id.name = some .var → HasType Γ (.name id) .int
  | array {id : Ident} : Γ.find? id.name = some .array → HasType Γ (.name id) .array
  | index {id : Ident} {e : Expr} :
    Γ.find? id.name = some .array → HasType Γ e .int → HasType Γ (.index id e) .int
  | call {id : Ident} {args : List Expr} {result : TypeName} {params : List Ty} :
    Γ.find? id.name = some (.function result params) → HasTypes Γ args params →
      HasType Γ (.call id args) result.ty
  | unary {op : UnaryOp} {line : Nat} {e : Expr} : HasType Γ e .int → HasType Γ (.unary op line e) .int
  | binary {op : BinaryOp} {line : Nat} {left right : Expr} :
    HasType Γ left .int → HasType Γ right .int → HasType Γ (.binary op line left right) .int
  | assign {line : Nat} {target value : Expr} :
    IsPlace target → HasType Γ target .int → HasType Γ value .int → HasType Γ (.assign line target value) .int

/-- As many arguments as there are parameters, each of the type of its parameter. -/
inductive HasTypes (Γ : Env) : List Expr → List Ty → Prop where
  | nil : HasTypes Γ [] []
  | cons {e : Expr} {rest : List Expr} {type : Ty} {types : List Ty} :
    HasType Γ e type → HasTypes Γ rest types → HasTypes Γ (e :: rest) (type :: types)

end

/-- A declared variable is not void, and an array of it has a positive size. A fractional size
    counts as one. -/
structure VarOk (d : VarDecl) : Prop where
  type : d.type = .int
  size : ∀ n, d.extent = .array (some n) → n.real = false → 0 < n.value

def varLayer (vars : List VarDecl) : Layer :=
  vars.map fun d => (d.id.name, match d.extent with | .scalar => .var | .array _ => .array)

/-- A statement in a function with the given result, inside of a loop or not. -/
inductive StmtOk (result : TypeName) : Bool → Env → Stmt → Prop where
  | empty {inLoop : Bool} {Γ : Env} : StmtOk result inLoop Γ .empty
  | expr {inLoop : Bool} {Γ : Env} {e : Expr} {type : Ty} : HasType Γ e type → StmtOk result inLoop Γ (.expr e)
  | block {inLoop : Bool} {Γ : Env} {vars : List VarDecl} {body : List Stmt} :
    (∀ d ∈ vars, VarOk d) → (varLayer vars).names.Nodup →
      (∀ s ∈ body, StmtOk result inLoop (varLayer vars :: Γ) s) → StmtOk result inLoop Γ (.block vars body)
  | ifThen {inLoop : Bool} {Γ : Env} {line : Nat} {e : Expr} {body : Stmt} :
    HasType Γ e .int → StmtOk result inLoop Γ body → StmtOk result inLoop Γ (.ifThen line e body)
  | ifElse {inLoop : Bool} {Γ : Env} {line : Nat} {e : Expr} {body orElse : Stmt} :
    HasType Γ e .int → StmtOk result inLoop Γ body → StmtOk result inLoop Γ orElse →
      StmtOk result inLoop Γ (.ifElse line e body orElse)
  | loop {inLoop : Bool} {Γ : Env} {line : Nat} {e : Expr} {body : Stmt} :
    HasType Γ e .int → StmtOk result true Γ body → StmtOk result inLoop Γ (.loop line e body)
  | ret {inLoop : Bool} {Γ : Env} {line : Nat} : result = .void → StmtOk result inLoop Γ (.ret line none)
  | value {inLoop : Bool} {Γ : Env} {line : Nat} {e : Expr} :
    result = .int → HasType Γ e .int → StmtOk result inLoop Γ (.ret line (some e))
  | leave {Γ : Env} {line : Nat} : StmtOk result true Γ (.leave line)
  | again {Γ : Env} {line : Nat} : StmtOk result true Γ (.again line)

def ParamOk : Param → Prop
  | .unnamed _ => False
  | .named type _ _ => type = .int

def paramLayer (params : List Param) : Layer :=
  params.filterMap fun
    | .unnamed _ => none
    | .named _ id isArray => some (id.name, if isArray then .array else .var)

def paramTypes (params : List Param) : List Ty :=
  params.filterMap fun
    | .unnamed _ => none
    | .named _ _ isArray => some (if isArray then .array else .int)

def functionEntry (f : FunDecl) : Text × Declared :=
  (f.id.name, .function f.type (paramTypes f.params.toList))

def localLayer (f : FunDecl) : Layer :=
  paramLayer f.params.toList ++ varLayer f.vars

structure FunctionOk (globals : Layer) (f : FunDecl) : Prop where
  params : ∀ p ∈ f.params.toList, ParamOk p
  vars : ∀ d ∈ f.vars, VarOk d
  distinct : (localLayer f).names.Nodup
  main : f.id.name = Codegen.mainName → f.type = .void ∧ f.params.toList = []
  body : ∀ s ∈ f.body, StmtOk f.type false [localLayer f, globals] s

inductive DeclsOk : Layer → List Decl → Layer → Prop where
  | nil {globals : Layer} : DeclsOk globals [] globals
  | var {globals final : Layer} {d : VarDecl} {rest : List Decl} :
    VarOk d → d.id.name ∉ globals.names → DeclsOk (globals ++ varLayer [d]) rest final →
      DeclsOk globals (.var d :: rest) final
  | fn {globals final : Layer} {f : FunDecl} {rest : List Decl} :
    f.id.name ∉ globals.names → FunctionOk (globals ++ [functionEntry f]) f →
      DeclsOk (globals ++ [functionEntry f]) rest final → DeclsOk globals (.fn f :: rest) final

/-- The outermost scope before the first declaration: it holds the function that prints. -/
def predeclared : Layer :=
  [(Symbol.output.name, .function .void [.int])]

def WellTyped (s : Source) : Prop :=
  ∃ globals, DeclsOk predeclared s.decls globals ∧
    ∃ result params, globals.lookup Codegen.mainName = some (.function result params)

end MiniC.Typing
