import MiniC.Number.Binary64
import MiniC.Text.Quoted
import MiniC.Text.Decimal

namespace MiniC

abbrev Duration := Int

namespace Duration

inductive Error where
  | malformed
  | noUnit
  | unknownUnit (unit : Text)
deriving DecidableEq, Repr

/-- A byte of a duration that is quoted. All that is not plain ASCII is shown by its code. -/
def quoteUnit (b : UInt8) : Text :=
  if b < 0x20 ∨ 0x80 ≤ b then "\\x" ++ Text.hex 2 b.toNat
  else if b = '"'.toUInt8 ∨ b = '\\'.toUInt8 then ['\\'.toUInt8, b]
  else [b]

def quoted (t : Text) : Text :=
  "\"" ++ t.flatMap quoteUnit ++ "\""

def Error.message (t : Text) : Error → Text
  | malformed => "time: invalid duration " ++ quoted t
  | noUnit => "time: missing unit in duration " ++ quoted t
  | unknownUnit unit => "time: unknown unit " ++ quoted unit ++ " in duration " ++ quoted t

def second : Nat := 1000 * 1000 * 1000

/-- The units with their lengths. The micro sign and the Greek letter mu are both accepted. -/
def units : List (Text × Nat) :=
  [("ns", 1), ("us", 1000), ("µs", 1000), ("μs", 1000), ("ms", 1000 * 1000), ("s", second),
    ("m", 60 * second), ("h", 3600 * second)]

def bound : Nat := 1 <<< 63

def isNumberByte (c : UInt8) : Bool :=
  c = '.'.toUInt8 || Decimal.isDigit c

def fraction (t : Text) : Text × Text :=
  match t with
  | c :: rest =>
    if c = '.'.toUInt8 then rest.span Decimal.isDigit else ([], t)
  | [] => ([], [])

structure Fraction where
  value : Nat := 0
  scale : Binary64 := .ofNat 1
deriving DecidableEq, Repr

namespace Fraction

/-- Appends digits up to the first that would take the number beyond `bound`. -/
def append (f : Fraction) : Text → Fraction
  | [] => f
  | c :: rest =>
    let value := 10 * f.value + (c - '0'.toUInt8).toNat
    if bound < value then f else append ⟨value, f.scale.mul (.ofNat 10)⟩ rest

/-- The fraction of a unit of `size` nanoseconds. It is not exact: number and quotient are rounded
    before they are multiplied. -/
def nanoseconds (f : Fraction) (size : Nat) : Nat :=
  ((Binary64.ofNat f.value).mul ((Binary64.ofNat size).div f.scale)).floor

end Fraction

def term (t : Text) : Except Error (Nat × Text) := do
  let (whole, rest) := t.span Decimal.isDigit
  let (part, rest) := fraction rest
  if whole.isEmpty ∧ part.isEmpty ∨ bound < Decimal.value whole then
    throw .malformed
  let (unit, rest) := rest.span fun c => !isNumberByte c
  if unit.isEmpty then
    throw .noUnit
  match units.lookup unit with
  | none => throw (.unknownUnit unit)
  | some size =>
    let n := Decimal.value whole * size + (Fraction.append {} part).nanoseconds size
    if bound < n then throw .malformed else return (n, rest)

/-- The sum of the terms, where `total` is that of the terms before. Every term takes a byte. The
    sum is kept modulo `2 ^ 64`, so two terms as large as `bound` cancel out. -/
def sum (fuel total : Nat) (t : Text) : Except Error Nat :=
  match fuel, t with
  | _, [] => .ok total
  | 0, _ => .error .malformed
  | fuel + 1, t => do
    let (n, rest) ← term t
    let total := (total + n) % (2 * bound)
    if bound < total then throw .malformed
    sum fuel total rest

def magnitude (t : Text) : Except Error Nat :=
  if t = "0" then .ok 0
  else if t.isEmpty then .error .malformed
  else sum t.length 0 t

def parse (t : Text) : Except Error Duration :=
  match t with
  | [] => .error .malformed
  | c :: rest =>
    if c = '-'.toUInt8 then (magnitude rest).map fun n => -(n : Int)
    else do
      let n ← magnitude (if c = '+'.toUInt8 then rest else t)
      if n = bound then throw .malformed else return n

def seconds (n : Nat) : Text :=
  let micros := (n + 500) / 1000
  let part := Decimal.ofNat (micros % Decimal.unit 6)
  let zeros := List.replicate (6 - part.length) '0'.toUInt8
  Decimal.ofNat (micros / Decimal.unit 6) ++ "." ++ zeros ++ part

end Duration

end MiniC
