import MiniC.Code.Instruction

namespace MiniC.Assembly

inductive Reg where
  | x (n : Nat)
  /-- The lower half of `x n`. -/
  | w (n : Nat)
  | sp
deriving DecidableEq, Repr

inductive Label where
  | code (index : Int)
  | epilogue (entry : Int)
  | format
  | symbol (name : Text)
deriving DecidableEq, Repr

/-- The address of a label, or of a byte after it. -/
structure Place where
  label : Label
  offset : Word := 0
deriving DecidableEq, Repr

inductive Mem where
  | base (r : Reg)
  | offset (r : Reg) (n : Word)
  /-- The register is moved by `n`, and then gives the address. -/
  | before (r : Reg) (n : Word)
  /-- The register gives the address, and is then moved by `n`. -/
  | after (r : Reg) (n : Word)
deriving DecidableEq, Repr

inductive Condition where
  | eq | ne | lt | le | gt | ge
deriving DecidableEq, Repr

/-- Machine instructions. The destination comes first. -/
inductive Instr where
  | movImm (d : Reg) (n : Word)
  | mov (d s : Reg)
  | constant (d : Reg) (n : Word)
  | ldr (d : Reg) (m : Mem)
  | str (s : Reg) (m : Mem)
  | addImm (d a : Reg) (n : Word)
  | add (d a b : Reg)
  /-- Adds `b` times eight. -/
  | addScaled (d a b : Reg)
  /-- Adds the lower bits of an address to the page it lies on. -/
  | addLow (d a : Reg) (p : Place)
  | subImm (d a : Reg) (n : Word)
  | sub (d a b : Reg)
  | mul (d a b : Reg)
  | sdiv (d a b : Reg)
  | msub (d a b c : Reg)
  | cmp (a b : Reg)
  | cset (d : Reg) (c : Condition)
  | adrp (d : Reg) (p : Place)
  | jump (l : Label)
  | jumpIfZero (r : Reg) (l : Label)
  | call (l : Label)
  | storePair (a b : Reg) (m : Mem)
  | loadPair (a b : Reg) (m : Mem)
  | ret
deriving DecidableEq, Repr

inductive Line where
  | blank
  | label (l : Label)
  | directive (text : Text)
  | source (index : Nat) (i : Instruction)
  | instr (i : Instr)
deriving DecidableEq, Repr

namespace Reg

def render : Reg → Text
  | x n => "x" ++ Decimal.ofNat n
  | w n => "w" ++ Decimal.ofNat n
  | sp => "sp"

end Reg

namespace Label

def render : Label → Text
  | code index => ".L" ++ Decimal.ofInt index
  | epilogue entry => ".Lret_" ++ Decimal.ofInt entry
  | format => ".Lfmt"
  | symbol name => name

end Label

namespace Place

def render (p : Place) : Text :=
  if p.offset = 0 then p.label.render else p.label.render ++ "+" ++ Decimal.ofWord p.offset

end Place

namespace Mem

def render : Mem → Text
  | base r => "[" ++ r.render ++ "]"
  | offset r n => "[" ++ r.render ++ ", #" ++ Decimal.ofWord n ++ "]"
  | before r n => "[" ++ r.render ++ ", #" ++ Decimal.ofWord n ++ "]!"
  | after r n => "[" ++ r.render ++ "], #" ++ Decimal.ofWord n

end Mem

namespace Condition

def render : Condition → Text
  | eq => "eq"
  | ne => "ne"
  | lt => "lt"
  | le => "le"
  | gt => "gt"
  | ge => "ge"

end Condition

def written (mnemonic : Text) (operands : List Text) : Text :=
  mnemonic ++ " " ++ List.intercalate ", " operands

namespace Instr

def immediate (n : Word) : Text :=
  "#" ++ Decimal.ofWord n

def render : Instr → Text
  | movImm d n => written "mov" [d.render, immediate n]
  | mov d s => written "mov" [d.render, s.render]
  | constant d n => written "ldr" [d.render, "=" ++ Decimal.ofWord n]
  | ldr d m => written "ldr" [d.render, m.render]
  | str s m => written "str" [s.render, m.render]
  | addImm d a n => written "add" [d.render, a.render, immediate n]
  | add d a b => written "add" [d.render, a.render, b.render]
  | addScaled d a b => written "add" [d.render, a.render, b.render, "lsl #3"]
  | addLow d a p => written "add" [d.render, a.render, ":lo12:" ++ p.render]
  | subImm d a n => written "sub" [d.render, a.render, immediate n]
  | sub d a b => written "sub" [d.render, a.render, b.render]
  | mul d a b => written "mul" [d.render, a.render, b.render]
  | sdiv d a b => written "sdiv" [d.render, a.render, b.render]
  | msub d a b c => written "msub" [d.render, a.render, b.render, c.render]
  | cmp a b => written "cmp" [a.render, b.render]
  | cset d c => written "cset" [d.render, c.render]
  | adrp d p => written "adrp" [d.render, p.render]
  | jump l => written "b" [l.render]
  | jumpIfZero r l => written "cbz" [r.render, l.render]
  | call l => written "bl" [l.render]
  | storePair a b m => written "stp" [a.render, b.render, m.render]
  | loadPair a b m => written "ldp" [a.render, b.render, m.render]
  | ret => "ret"

end Instr

namespace Line

def render : Line → Text
  | blank => "\n"
  | label l => l.render ++ ":\n"
  | directive text => "\t" ++ text ++ "\n"
  | source index i => "\t// " ++ Decimal.ofNat index ++ "\t" ++ i.render ++ "\n"
  | instr i => "\t" ++ i.render ++ "\n"

end Line

def render (lines : List Line) : Text :=
  lines.flatMap Line.render

end MiniC.Assembly
