import MiniC.Code.Operand

namespace MiniC

inductive Opcode where
  | add | sub | mult | div | mod
  | eq | ne | lt | le | gt | ge
  | assign | addr | elem
  | jpf | jp
  | print | param | call | func | ret
  | unknown (name : Text)
deriving DecidableEq, Repr

namespace Opcode

def name : Opcode → Text
  | add => "ADD"
  | sub => "SUB"
  | mult => "MULT"
  | div => "DIV"
  | mod => "MOD"
  | eq => "EQ"
  | ne => "NE"
  | lt => "LT"
  | le => "LE"
  | gt => "GT"
  | ge => "GE"
  | assign => "ASSIGN"
  | addr => "ADDR"
  | elem => "ELEM"
  | jpf => "JPF"
  | jp => "JP"
  | print => "PRINT"
  | param => "PARAM"
  | call => "CALL"
  | func => "FUNC"
  | ret => "RETURN"
  | unknown name => name

def all : List Opcode :=
  [add, sub, mult, div, mod, eq, ne, lt, le, gt, ge, assign, addr, elem, jpf, jp, print, param,
    call, func, ret]

def ofName? (name : Text) : Option Opcode :=
  all.find? (·.name = name)

end Opcode

inductive Position where
  | first | second | third
deriving DecidableEq, Repr

def Opcode.target? : Opcode → Option Position
  | jp | call => some .first
  | jpf => some .second
  | _ => none

structure Instruction where
  op : Opcode
  a1 : Operand := .absent
  a2 : Operand := .absent
  a3 : Operand := .absent
deriving DecidableEq, Repr

namespace Instruction

def operand (i : Instruction) : Position → Operand
  | .first => i.a1
  | .second => i.a2
  | .third => i.a3

def setOperand (i : Instruction) (p : Position) (o : Operand) : Instruction :=
  match p with
  | .first => { i with a1 := o }
  | .second => { i with a2 := o }
  | .third => { i with a3 := o }

def operands (i : Instruction) : List Operand :=
  [i.a1, i.a2, i.a3]

def render (i : Instruction) : Text :=
  "(" ++ i.op.name ++ ", " ++ i.a1.render ++ ", " ++ i.a2.render ++ ", " ++ i.a3.render ++ ")"

end Instruction

end MiniC
