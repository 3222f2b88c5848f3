import MiniC.Diagnostic.Basic
import MiniC.Number.Binary64
import MiniC.Text.Quoted
import MiniC.Token.Basic

namespace MiniC

inductive LexicalFault where
  | invalidInput | invalidNumber | unmatchedComment | unclosedComment
deriving DecidableEq, Repr

def LexicalFault.name : LexicalFault → Text
  | invalidInput => "Invalid input"
  | invalidNumber => "Invalid number"
  | unmatchedComment => "Unmatched comment"
  | unclosedComment => "Unclosed comment"

structure LexicalError where
  lexeme : Text
  fault : LexicalFault
deriving DecidableEq, Repr

def LexicalError.message (e : LexicalError) : Text :=
  "(" ++ e.lexeme ++ ", " ++ e.fault.name ++ ")"

inductive SegmentClass where
  | blank
  | comment
  | token (terminal : Terminal)
  | malformed (error : LexicalError)
deriving DecidableEq, Repr

structure Segment where
  text : Text
  kind : SegmentClass
deriving DecidableEq, Repr

namespace Segment

def isBlank (c : UInt8) : Bool :=
  c = ' '.toUInt8 ∨ (0x09 ≤ c ∧ c ≤ 0x0D)

def isLetter (c : UInt8) : Bool :=
  ('a'.toUInt8 ≤ c ∧ c ≤ 'z'.toUInt8) ∨ ('A'.toUInt8 ≤ c ∧ c ≤ 'Z'.toUInt8) ∨ c = '_'.toUInt8

def isWord (c : UInt8) : Bool :=
  isLetter c || Decimal.isDigit c

def startsWith (p : UInt8 → Bool) (t : Text) : Bool :=
  t.head?.any p

def blank (t : Text) : Segment :=
  ⟨t.takeWhile isBlank, .blank⟩

def word (t : Text) : Segment :=
  let name := t.takeWhile isWord
  match Keyword.ofLexeme? name with
  | some k => ⟨name, .token (.keyword k)⟩
  | none => ⟨name, .token (.ident name)⟩

def malformed (t : Text) (fault : LexicalFault) : Segment :=
  ⟨t, .malformed ⟨t, fault⟩⟩

/-- A number as a word. The least word stands for a number that is too large. -/
def clampWord (n : Nat) : Word :=
  if Decimal.fitsWord n then .ofInt n else Int64.minValue

def integer (digits : Text) : Segment :=
  if Decimal.fitsWord (Decimal.value digits) then
    ⟨digits, .token (.number ⟨digits, .ofInt (Decimal.value digits), false⟩)⟩
  else malformed digits .invalidNumber

def real (whole fraction : Text) : Segment :=
  let numeral := whole ++ '.'.toUInt8 :: fraction
  match Binary64.truncate? (Decimal.value (whole ++ fraction)) (Decimal.unit fraction.length) with
  | some n => ⟨numeral, .token (.number ⟨numeral, clampWord n, true⟩)⟩
  | none => malformed numeral .invalidNumber

/-- A numeral: digits, with a point and more digits if it has a fractional part. A letter right
    after it spoils it. -/
def number (t : Text) : Segment :=
  let whole := t.takeWhile Decimal.isDigit
  let rest := t.dropWhile Decimal.isDigit
  if rest.head? = some '.'.toUInt8 then
    let fraction := rest.tail.takeWhile Decimal.isDigit
    let rest := rest.tail.dropWhile Decimal.isDigit
    let numeral := whole ++ '.'.toUInt8 :: fraction
    if fraction.isEmpty then malformed numeral .invalidNumber
    else if startsWith isLetter rest then
      malformed (numeral ++ rest.takeWhile isWord) .invalidNumber
    else real whole fraction
  else if startsWith isLetter rest then malformed (whole ++ rest.takeWhile isWord) .invalidNumber
  else integer whole

def lineComment (t : Text) : Segment :=
  ⟨t.takeWhile (· ≠ '\n'.toUInt8), .comment⟩

def closing? : Text → Option Text
  | [] => none
  | c :: rest =>
    if c = '*'.toUInt8 ∧ rest.head? = some '/'.toUInt8 then some [c, '/'.toUInt8]
    else (closing? rest).map (c :: ·)

/-- How much of an unclosed comment is shown. -/
def shownComment (t : Text) : Text :=
  if t.length ≤ 7 then t else t.take 7 ++ "..."

def blockComment (t : Text) : Segment :=
  match closing? (t.drop 2) with
  | some body => ⟨t.take 2 ++ body, .comment⟩
  | none => ⟨t, .malformed ⟨shownComment t, .unclosedComment⟩⟩

/-- One character outside the alphabet, or one byte that belongs to no character. -/
def invalid (t : Text) : Segment :=
  match Utf8.decode? t with
  | some (_, width) => malformed (t.take width) .invalidInput
  | none => ⟨t.take 1, .malformed ⟨Text.quote (t.take 1), .invalidInput⟩⟩

def single? (c : UInt8) : Option Punct :=
  [.plus, .minus, .star, .slash, .percent, .less, .greater, .assign, .bang, .semicolon, .comma,
    .lparen, .rparen, .lbracket, .rbracket, .lbrace, .rbrace].find? fun p => p.lexeme = [c]

def double? (c d : UInt8) : Option Punct :=
  [.lessEq, .greaterEq, .equal, .notEqual, .andAnd, .orOr].find? fun p => p.lexeme = [c, d]

def punct (p : Punct) : Segment :=
  ⟨p.lexeme, .token (.punct p)⟩

/-- The operator or mark at the start of a text, the longer one where two fit. -/
def symbol? : Text → Option Segment
  | [] => none
  | c :: rest =>
    match rest.head?.bind (double? c) with
    | some p => some (punct p)
    | none => (single? c).map punct

def first (t : Text) : Segment :=
  if startsWith isBlank t then blank t
  else if startsWith isLetter t then word t
  else if startsWith Decimal.isDigit t then number t
  else if ("//" : Text).isPrefixOf t then lineComment t
  else if ("/*" : Text).isPrefixOf t then blockComment t
  else if ("*/" : Text).isPrefixOf t then malformed (t.take 2) .unmatchedComment
  else (symbol? t).getD (invalid t)

def cut (t : Text) : List Segment :=
  match t with
  | [] => []
  | c :: rest =>
    let segment := first (c :: rest)
    segment :: cut (rest.drop (segment.text.length - 1))
termination_by t.length

end Segment

def Text.newlines (t : Text) : Nat :=
  t.count '\n'.toUInt8

/-- What lexing leaves: the tokens before the end of the source, the line of its end, and the
    malformed lexemes. -/
structure TokenStream where
  tokens : List Token
  endLine : Nat
  errors : List (Located LexicalError)
deriving DecidableEq, Repr

namespace TokenStream

def ofSegments (line : Nat) : List Segment → TokenStream
  | [] => ⟨[], line, []⟩
  | s :: rest =>
    let later := ofSegments (line + s.text.newlines) rest
    match s.kind with
    | .token terminal => { later with tokens := ⟨terminal, line⟩ :: later.tokens }
    | .malformed error => { later with errors := ⟨line, error⟩ :: later.errors }
    | .blank | .comment => later

def ofSource (source : Text) : TokenStream :=
  ofSegments 1 (Segment.cut source)

def endToken (s : TokenStream) : Token :=
  .endOfFile s.endLine

def all (s : TokenStream) : List Token :=
  s.tokens ++ [s.endToken]

def diagnostics (s : TokenStream) : List Diagnostic :=
  s.errors.map fun e => ⟨.lexical, e.line, e.cause.message⟩

end TokenStream

end MiniC
