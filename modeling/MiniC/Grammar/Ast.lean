import MiniC.Token.Basic

namespace MiniC

inductive TypeName where
  | int | void
deriving DecidableEq, Repr

structure Ident where
  name : Text
  line : Nat
deriving DecidableEq, Repr

inductive UnaryOp where
  | neg | not
deriving DecidableEq, Repr

inductive BinaryOp where
  | or | and | eq | ne | lt | le | gt | ge | add | sub | mul | div | mod
deriving DecidableEq, Repr

namespace UnaryOp

def punct : UnaryOp → Punct
  | neg => .minus
  | not => .bang

end UnaryOp

namespace BinaryOp

def punct : BinaryOp → Punct
  | or => .orOr
  | and => .andAnd
  | eq => .equal
  | ne => .notEqual
  | lt => .less
  | le => .lessEq
  | gt => .greater
  | ge => .greaterEq
  | add => .plus
  | sub => .minus
  | mul => .star
  | div => .slash
  | mod => .percent

def precedence : BinaryOp → Nat
  | or => 1
  | and => 2
  | eq | ne => 3
  | lt | le | gt | ge => 4
  | add | sub => 5
  | mul | div | mod => 6

end BinaryOp

namespace Punct

def binaryOp? : Punct → Option BinaryOp
  | orOr => some .or
  | andAnd => some .and
  | equal => some .eq
  | notEqual => some .ne
  | less => some .lt
  | lessEq => some .le
  | greater => some .gt
  | greaterEq => some .ge
  | plus => some .add
  | minus => some .sub
  | star => some .mul
  | slash => some .div
  | percent => some .mod
  | _ => none

def unaryOp? : Punct → Option UnaryOp
  | minus => some .neg
  | bang => some .not
  | _ => none

end Punct

/-- Expressions. An operator carries the line it stands on. -/
inductive Expr where
  | missing
  | number (n : Numeral)
  | name (id : Ident)
  | index (array : Ident) (subscript : Expr)
  | call (callee : Ident) (args : List Expr)
  | unary (op : UnaryOp) (line : Nat) (operand : Expr)
  | binary (op : BinaryOp) (line : Nat) (left right : Expr)
  | assign (line : Nat) (target value : Expr)
deriving Repr

/-- What a declared variable holds: one word, or an array. An array whose size is absent has one
    element. -/
inductive Extent where
  | scalar
  | array (size : Option Numeral)
deriving DecidableEq, Repr

structure VarDecl where
  type : TypeName
  id : Ident
  extent : Extent
deriving DecidableEq, Repr

/-- Statements. A keyword carries the line it stands on. -/
inductive Stmt where
  | skipped
  | empty
  | expr (e : Expr)
  | block (vars : List VarDecl) (body : List Stmt)
  | ifThen (line : Nat) (condition : Expr) (body : Stmt)
  | ifElse (line : Nat) (condition : Expr) (body orElse : Stmt)
  | loop (line : Nat) (condition : Expr) (body : Stmt)
  | ret (line : Nat) (value : Option Expr)
  | leave (line : Nat)
  | again (line : Nat)
deriving Repr

/-- A parameter; one whose name is absent declares nothing. -/
inductive Param where
  | unnamed (type : TypeName)
  | named (type : TypeName) (id : Ident) (isArray : Bool)
deriving DecidableEq, Repr

inductive Params where
  | void
  | list (params : List Param)
deriving DecidableEq, Repr

structure FunDecl where
  type : TypeName
  id : Ident
  params : Params
  vars : List VarDecl
  body : List Stmt
deriving Repr

inductive Decl where
  | var (d : VarDecl)
  | fn (f : FunDecl)
deriving Repr

structure Source where
  decls : List Decl
  endLine : Nat
deriving Repr

namespace Params

def toList : Params → List Param
  | void => []
  | list params => params

end Params

end MiniC
