import MiniC.Text.Decimal

namespace MiniC.Unsigned

inductive Error where
  | malformed
  | tooLarge
deriving DecidableEq, Repr

def Error.message : Error → Text
  | malformed => "invalid syntax"
  | tooLarge => "value out of range"

def underscore : UInt8 := '_'.toUInt8

def lower (c : UInt8) : UInt8 := c ||| 0x20

def baseOf : Text → Nat × Text
  | c :: mark :: d :: rest =>
    if c ≠ '0'.toUInt8 then (10, c :: mark :: d :: rest)
    else if lower mark = 'b'.toUInt8 then (2, d :: rest)
    else if lower mark = 'o'.toUInt8 then (8, d :: rest)
    else if lower mark = 'x'.toUInt8 then (16, d :: rest)
    else (8, mark :: d :: rest)
  | c :: rest => if c = '0'.toUInt8 then (8, rest) else (10, c :: rest)
  | [] => (10, [])

def digitValue? (base : Nat) (c : UInt8) : Option Nat :=
  let value? :=
    if Decimal.isDigit c then some (c - '0'.toUInt8).toNat
    else if 'a'.toUInt8 ≤ lower c ∧ lower c ≤ 'z'.toUInt8 then
      some ((lower c - 'a'.toUInt8).toNat + 10)
    else none
  value?.filter (· < base)

/-- The value of the digits, where `n` is the value of those before. The first byte that is not a
    digit, or that makes the value too large, decides what is wrong. -/
def accumulate (base n : Nat) : Text → Except Error Nat
  | [] => .ok n
  | c :: rest =>
    if c = underscore then accumulate base n rest
    else
      match digitValue? base c with
      | none => .error .malformed
      | some d =>
        if 1 <<< 64 ≤ base * n + d then .error .tooLarge else accumulate base (base * n + d) rest

/-- Whether every underscore stands between two digits; the mark of the base counts as one. -/
def separates (afterDigit : Bool) : Text → Bool
  | [] => true
  | c :: rest =>
    if c = underscore then
      afterDigit && rest.head?.any (· ≠ underscore) && separates false rest
    else separates true rest

def parse (t : Text) : Except Error Nat :=
  if t.isEmpty then .error .malformed
  else do
    let (base, digits) := baseOf t
    let n ← accumulate base 0 digits
    if separates (base ≠ 10) digits then return n else throw .malformed

end MiniC.Unsigned
