import MiniC.Code.Instruction
import MiniC.Text.Quoted

namespace MiniC

inductive FailureKind where
  | fault | stepLimit | timeout | resourceLimit
deriving DecidableEq, Repr

namespace FailureKind

def name : FailureKind → Text
  | fault => "fault"
  | stepLimit => "step limit"
  | timeout => "timeout"
  | resourceLimit => "resource limit"

def ofCode? : Int → Option FailureKind
  | 0 => some fault
  | 1 => some stepLimit
  | 2 => some timeout
  | 3 => some resourceLimit
  | _ => none

def nameOfCode (n : Int) : Text :=
  match ofCode? n with
  | some kind => kind.name
  | none => "RuntimeErrorKind(" ++ Decimal.ofInt n ++ ")"

end FailureKind

/-- The words for a failure of a running program. `kind` stands in for an empty message, and a
    negative index for a program that ran elsewhere. -/
def failureText (kind : Text) (pc : Int) (message : Text) (cause : Option Text) : Text :=
  let message := if message.isEmpty then kind else message
  (if 0 ≤ pc then "runtime error at " ++ Decimal.ofInt pc ++ ": " ++ message
    else "runtime error: " ++ message) ++
    (match cause with
      | some cause => ": " ++ cause
      | none => ([] : Text))

structure RuntimeError where
  kind : FailureKind
  pc : Int
  message : Text
  cause : Option Text := none
deriving DecidableEq, Repr

namespace RuntimeError

def render (e : RuntimeError) : Text :=
  failureText e.kind.name e.pc e.message e.cause

end RuntimeError

inductive MachineFault where
  | noValue (o : Operand)
  | noAddress (o : Operand)
  | jumpOutside
  | divisionByZero
  | tooFewArguments (wanted : Word) (pushed : Nat)
  | notCalled
  | argumentCount (wanted : Word) (got : Nat)
  | noActivation
  | notFunction (target : Word)
  | unknown (op : Opcode)
deriving DecidableEq, Repr

def MachineFault.message : MachineFault → Text
  | noValue o => "operand " ++ Text.quote o.render ++ " has no value"
  | noAddress o => "operand " ++ Text.quote o.render ++ " has no address"
  | jumpOutside => "jump outside the program"
  | divisionByZero => "division by zero"
  | tooFewArguments wanted pushed =>
    "call with " ++ Decimal.ofWord wanted ++ " arguments but " ++ Decimal.ofNat pushed ++ " pushed"
  | notCalled => "function entered without a call"
  | argumentCount wanted got =>
    "function takes " ++ Decimal.ofWord wanted ++ " arguments but got " ++ Decimal.ofNat got
  | noActivation => "return outside a function"
  | notFunction target => "call target " ++ Decimal.ofWord target ++ " is not a function"
  | unknown op => "unknown instruction " ++ op.name

inductive Crash where
  | noAddress (o : Operand)
  | negativeCount
  | noActivation
deriving DecidableEq, Repr

def Crash.message? : Crash → Option Text
  | noAddress o => some ("error: operand " ++ o.render ++ " has no address")
  | negativeCount | noActivation => none

inductive Failure where
  | error (e : RuntimeError)
  | crash (c : Crash)
deriving DecidableEq, Repr

end MiniC
