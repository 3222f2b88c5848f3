import MiniC.Symbol.Scope

namespace MiniC

/-- What an expression stands for: its type, the operand that holds its value, and the variable,
    array or called function that it names. -/
structure Value where
  type : Ty
  operand : Operand
  symbol : Option Symbol := none
  assignable : Bool := false
deriving DecidableEq, Repr

def Value.reported : Value :=
  ⟨.error, .imm 0, none, false⟩

inductive SemanticError where
  | undefined (name : Text)
  | redeclared (name : Text)
  | voidVariable (name : Text)
  | arraySize (name : Text)
  | voidValue (callee : Text)
  | operandType (got : Ty)
  | notAssignable
  | assignedType (got : Ty)
  | notArray (name : Text)
  | indexType (array : Text) (got : Ty)
  | notCalled (name : Text)
  | notFunction (name : Text)
  | argumentType (position : Nat) (callee : Text) (want got : Ty)
  | argumentCount (callee : Text)
  | valueReturned (function : Text)
  | noValueReturned (function : Text)
  | returnType (function : Text) (got : Ty)
  | noLoop (keyword : Text)
  | mainSignature
  | noMain
deriving DecidableEq, Repr

namespace SemanticError

def message : SemanticError → Text
  | undefined name => "'" ++ name ++ "' is not defined."
  | redeclared name => "'" ++ name ++ "' is already defined in this scope."
  | voidVariable name => "Illegal type of void for '" ++ name ++ "'."
  | arraySize name => "Array size of '" ++ name ++ "' must be positive."
  | voidValue callee => "Void value of '" ++ callee ++ "' used in an expression."
  | operandType got => "Type mismatch in operands, Got " ++ got.name ++ " instead of int."
  | notAssignable => "Left side of assignment is not assignable."
  | assignedType got => "Type mismatch in assignment, Got " ++ got.name ++ " instead of int."
  | notArray name => "'" ++ name ++ "' is not an array."
  | indexType array got =>
    "Array index of '" ++ array ++ "' must be int, Got " ++ got.name ++ " instead."
  | notCalled name => "Function '" ++ name ++ "' used without a call."
  | notFunction name => "'" ++ name ++ "' is not a function."
  | argumentType position callee want got =>
    "Mismatch in type of argument " ++ Decimal.ofNat (position + 1) ++ " of '" ++ callee ++
      "'. Expected '" ++ want.name ++ "' but got '" ++ got.name ++ "' instead."
  | argumentCount callee => "Mismatch in numbers of arguments of '" ++ callee ++ "'."
  | valueReturned function =>
    "Function '" ++ function ++ "' of type void cannot return a value."
  | noValueReturned function =>
    "Function '" ++ function ++ "' must return a value of type int."
  | returnType function got =>
    "Function '" ++ function ++ "' must return int, got " ++ got.name ++ " instead."
  | noLoop keyword => "No 'while' found for '" ++ keyword ++ "'."
  | mainSignature => "main must be declared as void main(void)."
  | noMain => "main function not found."

end SemanticError

/-- The answer of a rule. What is spoiled has been reported before. -/
inductive Verdict where
  | accepted
  | spoiled
  | rejected (error : SemanticError)
deriving DecidableEq, Repr

namespace Verdict

def isAccepted (v : Verdict) : Bool :=
  v = accepted

def error? : Verdict → Option SemanticError
  | rejected error => some error
  | _ => none

def type (v : Verdict) : Ty :=
  if v.isAccepted then .int else .error

def require (holds : Bool) (error : SemanticError) : Verdict :=
  if holds then accepted else rejected error

end Verdict

namespace Check

def declared (name : Text) (symbol : Option Symbol) : Verdict :=
  .require symbol.isSome (.undefined name)

def variableType (name : Text) (type : Ty) : Verdict :=
  .require (type ≠ .void) (.voidVariable name)

def arraySize (name : Text) (n : Word) : Verdict :=
  .require (0 < n) (.arraySize name)

def voidCallee? (x : Value) : Option Symbol :=
  if x.type = .void then x.symbol.filter (·.kind = .func) else none

/-- Whether a value is an integer. If not, `mismatch` says so, but a call without result has a
    message of its own. -/
def integer (x : Value) (mismatch : Ty → SemanticError) : Verdict :=
  match x.type with
  | .int => .accepted
  | .error => .spoiled
  | got =>
    match voidCallee? x with
    | some callee => .rejected (.voidValue callee.name)
    | none => .rejected (mismatch got)

def operand (x : Value) : Verdict :=
  integer x .operandType

/-- Both operands of an operator. The right one is looked at only if the left one is accepted. -/
def operands (left right : Value) : Verdict :=
  match operand left with
  | .accepted => operand right
  | verdict => verdict

def assignment (target x : Value) : Verdict :=
  if target.type = .error then .spoiled
  else if target.assignable then integer x .assignedType
  else .rejected .notAssignable

def index (array : Symbol) (subscript : Value) : Verdict :=
  if array.kind = .array then
    match subscript.type with
    | .int => .accepted
    | .error => .spoiled
    | got => .rejected (.indexType array.name got)
  else .rejected (.notArray array.name)

def name (s : Symbol) : Verdict :=
  .require (s.kind ≠ .func) (.notCalled s.name)

def callee (s : Symbol) : Verdict :=
  .require (s.kind = .func) (.notFunction s.name)

def argument (callee : Symbol) (position : Nat) (x : Value) : Verdict :=
  match callee.params[position]? with
  | none => .accepted
  | some want =>
    if x.type = .error then .spoiled
    else .require (x.type = want ∨ want = .error) (.argumentType position callee.name want x.type)

def argumentCount (callee : Symbol) (count : Int) : Verdict :=
  .require (count = callee.params.length) (.argumentCount callee.name)

def result (function : Symbol) (x : Option Value) : Verdict :=
  if function.type = .void then
    .require x.isNone (.valueReturned function.name)
  else
    match x with
    | none => .rejected (.noValueReturned function.name)
    | some x => integer x (.returnType function.name)

def loopJump (keyword : Text) (inLoop : Bool) : Verdict :=
  .require inLoop (.noLoop keyword)

def mainSignature (main : Symbol) : Verdict :=
  .require (main.type = .void ∧ main.params = []) .mainSignature

def mainDeclared (main : Option Symbol) : Verdict :=
  .require (main.any fun s => s.kind = .func ∧ s.builtin = false) .noMain

end Check

end MiniC
