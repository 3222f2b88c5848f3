import MiniC.Text.Basic

namespace MiniC.Decimal

def isDigit (c : UInt8) : Bool :=
  '0'.toUInt8 ≤ c ∧ c ≤ '9'.toUInt8

def digit (n : Nat) : UInt8 :=
  '0'.toUInt8 + n.toUInt8

def ofNat (n : Nat) : Text :=
  if n < 10 then [digit n] else ofNat (n / 10) ++ [digit (n % 10)]

def ofInt : Int → Text
  | .ofNat n => ofNat n
  | .negSucc n => '-'.toUInt8 :: ofNat (n + 1)

def ofWord (w : Word) : Text :=
  ofInt w.toInt

def value (digits : Text) : Nat :=
  digits.foldl (fun n c => 10 * n + (c - '0'.toUInt8).toNat) 0

/-- The value of the digit one that `places` digits follow. -/
def unit (places : Nat) : Nat :=
  Nat.pow 10 places

def toNat? (t : Text) : Option Nat :=
  if t ≠ [] ∧ t.all isDigit then some (value t) else none

def toInt? : Text → Option Int
  | [] => none
  | c :: rest =>
    if c = '-'.toUInt8 then (toNat? rest).map fun n => -(n : Int)
    else if c = '+'.toUInt8 then (toNat? rest).map fun n => (n : Int)
    else (toNat? (c :: rest)).map fun n => (n : Int)

def fitsWord (n : Int) : Bool :=
  Int64.minValue.toInt ≤ n ∧ n ≤ Int64.maxValue.toInt

def toWord? (t : Text) : Option Word :=
  (toInt? t).bind fun n => if fitsWord n then some (.ofInt n) else none

end MiniC.Decimal
