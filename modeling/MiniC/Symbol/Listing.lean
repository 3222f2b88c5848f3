import MiniC.Symbol.Basic
import MiniC.Text.Quoted

namespace MiniC.SymbolListing

/-- The column that shows where a symbol is stored, if it is. -/
def storage : Option Operand → Text
  | none => []
  | some o => "\t" ++ o.render

def row (number : Nat) (s : Symbol) : Text :=
  Decimal.ofNat number ++ ".\t" ++ s.name ++ "\t" ++ s.kind.name ++ "\t" ++ s.type.name ++
    "\tscope " ++ Decimal.ofNat s.scope ++ storage s.storage ++ "\n"

def rows (number : Nat) : List Symbol → Text
  | [] => []
  | s :: rest => row number s ++ rows (number + 1) rest

def render (symbols : List Symbol) : Text :=
  rows 1 symbols

def bool (b : Bool) : Text :=
  if b then "true" else "false"

def operandCode : OperandKind → Nat
  | .none => 0
  | .imm => 1
  | .global => 2
  | .slot => 3
  | .label => 4

/-- The field `name: value,` at the given depth of indentation. -/
def field (depth : Nat) (name : String) (value : Text) : Text :=
  List.replicate (2 * depth) ' '.toUInt8 ++ name ++ ": " ++ value ++ ",\n"

def closing (depth : Nat) : Text :=
  List.replicate (2 * depth) ' '.toUInt8 ++ "\x7d"

def typeRow (t : Ty) : Text :=
  "      " ++ Decimal.ofNat t.code ++ ",\n"

def types (params : List Ty) : Text :=
  match params with
  | [] => "nil"
  | _ => "[]Type\x7b\n" ++ params.flatMap typeRow ++ closing 2

def operand (o : Operand) : Text :=
  "Operand\x7b\n" ++ field 3 "Kind" (Decimal.ofNat (operandCode o.kind)) ++
    field 3 "Value" (Decimal.ofWord o.value) ++ field 3 "Indirect" (bool o.indirect) ++ closing 2

def details (s : Symbol) : Text :=
  "  &Symbol\x7b\n" ++ field 2 "Name" (Text.quote s.name) ++
    field 2 "Kind" (Decimal.ofNat s.kind.code) ++ field 2 "Type" (Decimal.ofNat s.type.code) ++
    field 2 "Scope" (Decimal.ofNat s.scope) ++ field 2 "Line" (Decimal.ofInt s.line) ++
    field 2 "Params" (types s.params) ++ field 2 "Entry" (Decimal.ofNat s.entry) ++
    field 2 "Builtin" (bool s.builtin) ++ field 2 "Length" (Decimal.ofWord s.length) ++
    field 2 "IsParam" (bool s.isParam) ++ field 2 "Loc" (operand s.location) ++
    field 2 "Allocated" (bool s.storage.isSome) ++ closing 1 ++ ",\n"

def renderDetails (symbols : List Symbol) : Text :=
  "[]*Symbol\x7b\n" ++ symbols.flatMap details ++ "\x7d"

end MiniC.SymbolListing
