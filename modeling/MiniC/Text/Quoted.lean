import MiniC.Text.Utf8
import MiniC.Text.Printable

namespace MiniC.Text

def hexDigit (n : Nat) : UInt8 :=
  if n < 10 then '0'.toUInt8 + n.toUInt8 else 'a'.toUInt8 + (n - 10).toUInt8

def hex (width n : Nat) : Text :=
  match width with
  | 0 => []
  | width + 1 => hex width (n / 16) ++ [hexDigit (n % 16)]

/-- The letter that stands after a backslash for a control character. -/
def controlLetter? (code : Nat) : Option Char :=
  match code with
  | 0x07 => some 'a'
  | 0x08 => some 'b'
  | 0x09 => some 't'
  | 0x0A => some 'n'
  | 0x0B => some 'v'
  | 0x0C => some 'f'
  | 0x0D => some 'r'
  | _ => none

/-- A character as it is shown between the quotes `mark`. -/
def escapeCode (mark : Char) (code : Nat) : Text :=
  if code = mark.toNat ∨ code = '\\'.toNat then '\\'.toUInt8 :: Utf8.encode code
  else if isPrintable code then Utf8.encode code
  else
    match controlLetter? code with
    | some letter => ['\\'.toUInt8, letter.toUInt8]
    | none =>
      if code < 0x20 ∨ code = 0x7F then "\\x" ++ hex 2 code
      else if code < 0x10000 then "\\u" ++ hex 4 code
      else "\\U" ++ hex 8 code

def escape (mark : Char) (t : Text) : Text :=
  match t with
  | [] => []
  | b :: rest =>
    match _h : Utf8.decode? (b :: rest) with
    | some (code, width) => escapeCode mark code ++ escape mark ((b :: rest).drop width)
    | none => "\\x" ++ hex 2 b.toNat ++ escape mark rest
termination_by t.length
decreasing_by
  · have := Utf8.decode?_width_pos _h
    simp only [List.length_drop, List.length_cons]
    omega
  · simp

def quote (t : Text) : Text :=
  "\"" ++ escape '"' t ++ "\""

def quoteByte (b : UInt8) : Text :=
  "'" ++ escapeCode '\'' b.toNat ++ "'"

end MiniC.Text
