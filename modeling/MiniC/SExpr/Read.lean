import MiniC.SExpr.Basic
import MiniC.Text.Quoted

namespace MiniC.SExpr

inductive ReadError where
  | endOfInput
  | unclosed (offset : Nat)
  | unexpectedClose (offset : Nat)
  | unexpectedByte (b : UInt8)
  | trailing (b : UInt8) (offset : Nat)
  | badEscape (b : UInt8)
  | unterminated
deriving DecidableEq, Repr

def ReadError.message : ReadError → Text
  | endOfInput => "unexpected end of input"
  | unclosed offset => "unclosed '(' at offset " ++ Decimal.ofNat offset
  | unexpectedClose offset => "unexpected ')' at offset " ++ Decimal.ofNat offset
  | unexpectedByte b => "unexpected character '" ++ Utf8.encode b.toNat ++ "'"
  | trailing b offset =>
    "unexpected " ++ Text.quoteByte b ++ " after datum at offset " ++ Decimal.ofNat offset
  | badEscape b => "invalid escape sequence: \\" ++ Utf8.encode b.toNat
  | unterminated => "unterminated string"

def isLetter (c : UInt8) : Bool :=
  ('a'.toUInt8 ≤ c ∧ c ≤ 'z'.toUInt8) ∨ ('A'.toUInt8 ≤ c ∧ c ≤ 'Z'.toUInt8)

def isSymbolByte (c : UInt8) : Bool :=
  isLetter c || Decimal.isDigit c || c = '-'.toUInt8 || c = '_'.toUInt8

def isBlank (c : UInt8) : Bool :=
  c = ' '.toUInt8 ∨ (0x09 ≤ c ∧ c ≤ 0x0D) ∨ c = 0x85 ∨ c = 0xA0

/-- The rest of a text after blanks and comments. -/
def skipBlank (inComment : Bool) : Text → Text
  | [] => []
  | c :: rest =>
    if inComment ∧ c ≠ '\n'.toUInt8 then skipBlank true rest
    else if c = ';'.toUInt8 then skipBlank true rest
    else if isBlank c then skipBlank false rest
    else c :: rest

theorem skipBlank_length_le (inComment : Bool) (t : Text) :
    (skipBlank inComment t).length ≤ t.length := by
  induction t generalizing inComment with
  | nil => simp [skipBlank]
  | cons c rest ih =>
    simp only [skipBlank]
    have next := ih true
    have blank := ih false
    split
    · simp only [List.length_cons]; omega
    · split
      · simp only [List.length_cons]; omega
      · split
        · simp only [List.length_cons]; omega
        · simp

def unescape? (c : UInt8) : Option UInt8 :=
  if c = '"'.toUInt8 ∨ c = '\\'.toUInt8 then some c
  else if c = 'n'.toUInt8 then some '\n'.toUInt8
  else if c = 't'.toUInt8 then some '\t'.toUInt8
  else none

/-- The contents of a string after its opening quote, and the number of bytes up to and including
    the closing one. -/
def stringBody : Text → Except ReadError (Text × Nat)
  | [] => .error .unterminated
  | c :: rest =>
    if c = '"'.toUInt8 then .ok ([], 1)
    else if c = '\\'.toUInt8 then
      match rest with
      | [] => .error .unterminated
      | e :: rest =>
        match unescape? e with
        | none => .error (.badEscape e)
        | some b => (stringBody rest).map fun (contents, n) => (b :: contents, n + 2)
    else (stringBody rest).map fun (contents, n) => (c :: contents, n + 1)

/-- The atom that starts with `c`, and the number of bytes after `c` that belong to it. -/
def atom (c : UInt8) (rest : Text) : Except ReadError (SExpr × Nat) :=
  if c = '"'.toUInt8 then (stringBody rest).map fun (contents, n) => (.string contents, n)
  else if c = '.'.toUInt8 ∧ (".." : Text).isPrefixOf rest then .ok (.ellipsis, 2)
  else if isLetter c then
    let name := rest.takeWhile isSymbolByte
    .ok (.symbol (c :: name), name.length)
  else if Decimal.isDigit c ∨
      ((c = '+'.toUInt8 ∨ c = '-'.toUInt8) ∧ rest.head?.any Decimal.isDigit) then
    let digits := rest.takeWhile Decimal.isDigit
    .ok (.integer (c :: digits), digits.length)
  else if c = '+'.toUInt8 ∨ c = '-'.toUInt8 then .ok (.symbol [c], 0)
  else .error (.unexpectedByte c)

/-- A list that has been opened: where, and its items so far, last first. -/
structure Open where
  offset : Nat
  items : List SExpr

/-- Adds a complete datum to the innermost open list. Without one the datum stands alone. -/
def complete (datum : SExpr) : List Open → Except SExpr (List Open)
  | [] => .error datum
  | top :: rest => .ok ({ top with items := datum :: top.items } :: rest)

/-- Reads the rest of a datum, given the lists that are open. `size` is the length of the whole
    text; the result is the datum and what follows it. -/
def readFrom (size : Nat) (stack : List Open) (t : Text) : Except ReadError (SExpr × Text) :=
  match _h : skipBlank false t with
  | [] =>
    match stack with
    | [] => .error .endOfInput
    | top :: _ => .error (.unclosed top.offset)
  | c :: rest =>
    let offset := size - (rest.length + 1)
    if c = '('.toUInt8 then readFrom size (⟨offset, []⟩ :: stack) rest
    else if c = ')'.toUInt8 then
      match stack with
      | [] => .error (.unexpectedClose offset)
      | top :: below =>
        match complete (.list top.items.reverse) below with
        | .error datum => .ok (datum, rest)
        | .ok stack => readFrom size stack rest
    else
      match atom c rest with
      | .error e => .error e
      | .ok (datum, n) =>
        match complete datum stack with
        | .error datum => .ok (datum, rest.drop n)
        | .ok stack => readFrom size stack (rest.drop n)
termination_by t.length
decreasing_by
  all_goals
    have := skipBlank_length_le false t
    rw [_h] at this
    simp only [List.length_cons, List.length_drop] at *
    omega

def read (t : Text) : Except ReadError SExpr :=
  match readFrom t.length [] t with
  | .error e => .error e
  | .ok (datum, rest) =>
    match skipBlank false rest with
    | [] => .ok datum
    | c :: rest => .error (.trailing c (t.length - (rest.length + 1)))

end MiniC.SExpr
