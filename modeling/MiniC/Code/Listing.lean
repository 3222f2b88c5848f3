import MiniC.Code.Program
import MiniC.Text.Blank
import MiniC.Text.Quoted

namespace MiniC

inductive OperandError where
  | badImmediate (t : Text)
  | badOffset (t : Text)
  | badOperand (t : Text)
  | indirectTarget (t : Text)
deriving DecidableEq, Repr

def OperandError.message : OperandError → Text
  | badImmediate t => "bad immediate " ++ t.quote
  | badOffset t => "bad frame offset " ++ t.quote
  | badOperand t => "bad operand " ++ t.quote
  | indirectTarget t => "indirect jump target " ++ t.quote

namespace Operand

/-- A frame offset, an address or, in the place of a jump target, an index. -/
def parseWord (t : Text) (isTarget : Bool) : Except OperandError Operand :=
  match ("fp+" : Text).isPrefixOf? t with
  | some offset =>
    match Decimal.toWord? offset with
    | some w => .ok (.slot w)
    | none => .error (.badOffset t)
  | none =>
    match Decimal.toWord? t with
    | some w => .ok (if isTarget then ⟨.label, w, false⟩ else .global w)
    | none => .error (.badOperand t)

def parse (t : Text) (isTarget : Bool) : Except OperandError Operand :=
  match t with
  | [] => .ok .absent
  | c :: rest =>
    if c = '#'.toUInt8 then
      match Decimal.toWord? rest with
      | some w => .ok (.imm w)
      | none => .error (.badImmediate t)
    else if c = '@'.toUInt8 then do
      let o ← parseWord rest isTarget
      if isTarget then throw (.indirectTarget rest)
      return o.deref
    else parseWord t isTarget

end Operand

inductive RowError where
  | noInstruction
  | badIndex (t : Text)
  | outOfSequence (index : Word) (wanted : Nat)
  | noBrackets
  | fieldCount (n : Nat)
  | unknownOpcode (t : Text)
  | operand (e : OperandError)
deriving DecidableEq, Repr

def RowError.message : RowError → Text
  | noInstruction => "missing instruction after index"
  | badIndex t => "bad index " ++ t.quote
  | outOfSequence index wanted =>
    "index " ++ Decimal.ofWord index ++ " out of sequence, want " ++ Decimal.ofNat wanted
  | noBrackets => "instruction must be parenthesized"
  | fieldCount n => "want 4 fields, got " ++ Decimal.ofNat n
  | unknownOpcode t => "unknown opcode " ++ t.quote
  | operand e => e.message

inductive ListingError where
  | row (number : Nat) (e : RowError)
  | rowTooLong
deriving DecidableEq, Repr

def ListingError.message : ListingError → Text
  | row number e => "line " ++ Decimal.ofNat number ++ ": " ++ e.message
  | rowTooLong => "bufio.Scanner: token too long"

namespace Listing

def maxRow : Nat := 65536

def parseOperand (op : Opcode) (position : Position) (field : Text) : Except RowError Operand :=
  (Operand.parse field.trim (op.target? = some position)).mapError .operand

def parseFields : List Text → Except RowError Instruction
  | [op, a1, a2, a3] =>
    match Opcode.ofName? op.trim with
    | none => .error (.unknownOpcode op.trim)
    | some op => do
      let a1 ← parseOperand op .first a1
      let a2 ← parseOperand op .second a2
      let a3 ← parseOperand op .third a3
      return ⟨op, a1, a2, a3⟩
  | fields => .error (.fieldCount fields.length)

def inBrackets? (t : Text) : Option Text :=
  match ("(" : Text).isPrefixOf? t with
  | some rest =>
    if rest.getLast? = some ')'.toUInt8 then some rest.dropLast else none
  | none => none

def splitRow? (row : Text) : Option (Text × Text) :=
  row.cut? '\t'.toUInt8 <|> row.cut? ' '.toUInt8

def parseRow (row : Text) (wanted : Nat) : Except RowError Instruction :=
  match splitRow? row with
  | none => .error .noInstruction
  | some (index, rest) =>
    match Decimal.toWord? index.trim with
    | none => .error (.badIndex index)
    | some n =>
      if n.toInt ≠ wanted then .error (.outOfSequence n wanted)
      else
        match inBrackets? rest.trim with
        | none => .error .noBrackets
        | some inner => parseFields (inner.splitOn ','.toUInt8)

def parseRows (number : Nat) (code : Array Instruction) :
    List Text → Except ListingError (Array Instruction)
  | [] => .ok code
  | row :: rest =>
    if maxRow ≤ row.length then .error .rowTooLong
    else if row.trim.isEmpty then parseRows (number + 1) code rest
    else
      match parseRow row.trim code.size with
      | .error e => .error (.row number e)
      | .ok i => parseRows (number + 1) (code.push i) rest

def startTarget? (code : List Instruction) : Option Word :=
  match code with
  | { op := .call, a1, .. } :: _ => some a1.value
  | _ => none

def functionName (main : Option Word) (entry : Nat) : Text :=
  if main.map Int64.toInt = some entry then "main" else "f" ++ Decimal.ofNat entry

/-- The functions of the instructions from an index on. Each ends where the next one starts. -/
def functionsFrom (main : Option Word) (index : Nat) : List Instruction → List Function
  | [] => []
  | i :: rest =>
    let later := functionsFrom main (index + 1) rest
    if i.op = .func then
      let stop : Int := (later.head?.map (·.entry)).getD (index + 1 + rest.length)
      ⟨functionName main index, index, stop, { size := i.a1.value, params := i.a2.value }⟩ :: later
    else later

def coverGlobal (top : Word) (o : Operand) : Word :=
  if o.kind = .global ∧ top < o.value + wordSize then o.value + wordSize else top

def globalEnd (code : List Instruction) : Word :=
  (code.flatMap Instruction.operands).foldl coverGlobal dataBase

def layout (code : Array Instruction) : Program :=
  ⟨code, functionsFrom (startTarget? code.toList) 0 code.toList, globalEnd code.toList - dataBase⟩

def parse (t : Text) : Except ListingError Program :=
  (parseRows 1 #[] (t.splitOn '\n'.toUInt8)).map layout

end Listing

end MiniC
