import MiniC.Code.Operand

namespace MiniC

/-- The type of an expression or a symbol. The type `error` belongs to what has been reported. -/
inductive Ty where
  | error | int | void | array | real
deriving DecidableEq, Repr

namespace Ty

def name : Ty → Text
  | error => "error"
  | int => "int"
  | void => "void"
  | array => "array"
  | real => "real"

def code : Ty → Nat
  | error => 0
  | int => 1
  | void => 2
  | array => 3
  | real => 4

/-- The name of the type with a given number; every number without one counts as an error. -/
def nameOfCode : Int → Text
  | 1 => int.name
  | 2 => void.name
  | 3 => array.name
  | 4 => real.name
  | _ => error.name

end Ty

inductive SymbolKind where
  | var | array | func
deriving DecidableEq, Repr

namespace SymbolKind

def name : SymbolKind → Text
  | var => "var"
  | array => "array"
  | func => "func"

def code : SymbolKind → Nat
  | var => 0
  | array => 1
  | func => 2

def nameOfCode : Int → Text
  | 0 => var.name
  | 1 => array.name
  | 2 => func.name
  | n => "SymbolKind(" ++ Decimal.ofInt n ++ ")"

end SymbolKind

structure Symbol where
  name : Text
  kind : SymbolKind
  /-- The type of a variable or of an array's elements; the result type of a function. -/
  type : Ty
  scope : Nat := 0
  line : Int := 0
  params : List Ty := []
  entry : Nat := 0
  builtin : Bool := false
  /-- The number of an array's elements; zero for a parameter. -/
  length : Word := 0
  isParam : Bool := false
  storage : Option Operand := none
deriving DecidableEq, Repr

namespace Symbol

def location (s : Symbol) : Operand :=
  s.storage.getD .absent

/-- The type of the name where it stands for a value. -/
def valueType (s : Symbol) : Ty :=
  match s.kind with
  | .array => .array
  | .func => .error
  | .var => s.type

def output : Symbol where
  name := "output"
  kind := .func
  type := .void
  params := [.int]
  builtin := true

end Symbol

end MiniC
