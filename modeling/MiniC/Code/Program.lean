import MiniC.Code.Instruction

namespace MiniC

def wordSize : Word := 4

def dataBase : Word := 500

inductive SlotKind where
  | param | ret | var | temp
deriving DecidableEq, Repr

namespace SlotKind

def name : SlotKind → Text
  | param => "param"
  | ret => "return"
  | var => "local"
  | temp => "temp"

/-- The name of the kind with a given number; every number without one counts as temporary. -/
def nameOfCode : Int → Text
  | 0 => param.name
  | 1 => ret.name
  | 2 => var.name
  | _ => temp.name

end SlotKind

structure Slot where
  name : Text
  kind : SlotKind
  offset : Word
  size : Word
deriving DecidableEq, Repr

structure Frame where
  slots : List Slot := []
  size : Word := 0
  params : Word := 0
deriving DecidableEq, Repr

namespace Frame

def push (f : Frame) (name : Text) (kind : SlotKind) (size : Word) : Frame :=
  { f with slots := f.slots ++ [⟨name, kind, f.size, size⟩], size := f.size + size }

def returnOffset (f : Frame) : Word :=
  f.params * wordSize

end Frame

/-- The instructions of one function: from its entry up to but not including its end. -/
structure Function where
  name : Text
  entry : Int
  stop : Int := 0
  frame : Frame := {}
deriving DecidableEq, Repr

/-- A three-address program. Instruction 0 calls the main function, and instruction 1 jumps past
    the last one, which halts. -/
structure Program where
  code : Array Instruction := #[]
  functions : List Function := []
  globalSize : Word := 0
deriving DecidableEq, Repr

namespace Program

def functionAt? (p : Program) (entry : Int) : Option Function :=
  p.functions.find? (·.entry = entry)

def fetch? (p : Program) (index : Int) : Option Instruction :=
  match index with
  | .ofNat i => p.code[i]?
  | .negSucc _ => none

def isEntry (p : Program) (index : Int) : Bool :=
  (p.fetch? index).any (·.op = .func)

def row (index : Nat) (i : Instruction) : Text :=
  Decimal.ofNat index ++ "\t" ++ i.render ++ "\n"

def rows (index : Nat) : List Instruction → Text
  | [] => []
  | i :: rest => row index i ++ rows (index + 1) rest

def listing (p : Program) : Text :=
  rows 0 p.code.toList

end Program

end MiniC
