import MiniC.Text.Decimal

namespace MiniC

inductive OperandKind where
  | none
  | imm
  | global
  | slot
  | label
deriving DecidableEq, Repr

/-- An argument of an instruction. An indirect operand names the word whose address is stored in
    the word that the direct one names. -/
structure Operand where
  kind : OperandKind
  value : Word
  indirect : Bool
deriving DecidableEq, Repr

namespace Operand

def absent : Operand :=
  ⟨.none, 0, false⟩

def imm (w : Word) : Operand :=
  ⟨.imm, w, false⟩

def global (address : Word) : Operand :=
  ⟨.global, address, false⟩

def slot (offset : Word) : Operand :=
  ⟨.slot, offset, false⟩

def label (index : Int) : Operand :=
  ⟨.label, .ofInt index, false⟩

def unresolved : Operand :=
  label (-1)

def deref (o : Operand) : Operand :=
  { o with indirect := true }

def isAbsent (o : Operand) : Bool :=
  o.kind = .none

def isStorage (o : Operand) : Bool :=
  o.kind = .global ∨ o.kind = .slot

def mark (o : Operand) : Text :=
  if o.indirect then "@" else []

def render (o : Operand) : Text :=
  match o.kind with
  | .none => []
  | .imm => "#" ++ Decimal.ofWord o.value
  | .global | .label => o.mark ++ Decimal.ofWord o.value
  | .slot => o.mark ++ "fp+" ++ Decimal.ofWord o.value

end Operand

end MiniC
