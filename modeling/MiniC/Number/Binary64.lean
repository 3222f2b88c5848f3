namespace MiniC

/-- The value `significand * 2 ^ exponent`. Operations bound the precision and the exponent from
    below only: a value may exceed the largest finite one of the format. -/
structure Binary64 where
  significand : Nat
  exponent : Int
deriving DecidableEq, Repr

namespace Binary64

/-- The integer nearest to `num / den`, the even one of two equally near. -/
def roundDiv (num den : Nat) : Nat :=
  let floor := num / den
  let twice := 2 * (num % den)
  if den < twice ∨ (twice = den ∧ floor % 2 = 1) then floor + 1 else floor

/-- `num / den` in units of `2 ^ exponent`, as a numerator and a denominator. -/
def inUnits (num den : Nat) (exponent : Int) : Nat × Nat :=
  match exponent with
  | .ofNat e => (num, den <<< e)
  | .negSucc e => (num <<< (e + 1), den)

/-- The exponent of the last place of a value of the format near `num / den`: the one at which
    the value has 53 bits, but not below that of the smallest values. -/
def lastPlace (num den : Nat) : Int :=
  let guess : Int := (num.log2 : Int) - den.log2 - 52
  let (n, d) := inUnits num den guess
  let exponent := if n / d < 1 <<< 52 then guess - 1 else guess
  max exponent (-1074)

def nearest (num den : Nat) : Binary64 :=
  let exponent := lastPlace num den
  let (n, d) := inUnits num den exponent
  ⟨roundDiv n d, exponent⟩

def ofNat (n : Nat) : Binary64 :=
  nearest n 1

def numerator (x : Binary64) : Nat :=
  match x.exponent with
  | .ofNat e => x.significand <<< e
  | .negSucc _ => x.significand

def denominator (x : Binary64) : Nat :=
  match x.exponent with
  | .ofNat _ => 1
  | .negSucc e => 1 <<< (e + 1)

def mul (x y : Binary64) : Binary64 :=
  nearest (x.numerator * y.numerator) (x.denominator * y.denominator)

def div (x y : Binary64) : Binary64 :=
  nearest (x.numerator * y.denominator) (x.denominator * y.numerator)

def floor (x : Binary64) : Nat :=
  x.numerator / x.denominator

/-- The integer part of the value of the format nearest to `num / den`; `none` if that exceeds
    the largest finite one. -/
def truncate? (num den : Nat) : Option Nat :=
  let whole := (nearest num den).floor
  if whole < 1 <<< 1024 then some whole else none

end Binary64

end MiniC
