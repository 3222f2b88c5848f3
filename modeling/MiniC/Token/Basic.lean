import MiniC.Text.Basic

namespace MiniC

inductive Keyword where
  | int | void | if_ | else_ | while_ | break_ | continue_ | return_
deriving DecidableEq, Repr

namespace Keyword

def spelling : Keyword → String
  | int => "int"
  | void => "void"
  | if_ => "if"
  | else_ => "else"
  | while_ => "while"
  | break_ => "break"
  | continue_ => "continue"
  | return_ => "return"

def all : List Keyword :=
  [int, void, if_, else_, while_, break_, continue_, return_]

def lexeme (k : Keyword) : Text :=
  .ofString k.spelling

def ofLexeme? (t : Text) : Option Keyword :=
  all.find? (·.lexeme = t)

end Keyword

inductive Punct where
  | plus | minus | star | slash | percent
  | less | lessEq | greater | greaterEq | equal | notEqual
  | assign | bang | andAnd | orOr
  | semicolon | comma
  | lparen | rparen | lbracket | rbracket | lbrace | rbrace
deriving DecidableEq, Repr

namespace Punct

def spelling : Punct → String
  | plus => "+"
  | minus => "-"
  | star => "*"
  | slash => "/"
  | percent => "%"
  | less => "<"
  | lessEq => "<="
  | greater => ">"
  | greaterEq => ">="
  | equal => "=="
  | notEqual => "!="
  | assign => "="
  | bang => "!"
  | andAnd => "&&"
  | orOr => "||"
  | semicolon => ";"
  | comma => ","
  | lparen => "("
  | rparen => ")"
  | lbracket => "["
  | rbracket => "]"
  | lbrace => "\x7b"
  | rbrace => "\x7d"

def lexeme (p : Punct) : Text :=
  .ofString p.spelling

end Punct

/-- A number as written, its value, and whether it has a fractional part. The value of a
    fractional number is its integer part. -/
structure Numeral where
  text : Text
  value : Word
  real : Bool
deriving DecidableEq, Repr

inductive Terminal where
  | keyword (k : Keyword)
  | ident (name : Text)
  | number (n : Numeral)
  | punct (p : Punct)
  | eof
deriving DecidableEq, Repr

structure Token where
  terminal : Terminal
  line : Nat
deriving DecidableEq, Repr

inductive LexemeKind where
  | keyword | ident | number | punct | comment | eof
  | other (name : Text)
deriving DecidableEq, Repr

def LexemeKind.name : LexemeKind → Text
  | keyword => "KEYWORD"
  | ident => "ID"
  | number => "NUM"
  | punct => "SYMBOL"
  | comment => "COMMENT"
  | eof => "EOF"
  | other name => name

structure Lexeme where
  kind : LexemeKind
  text : Text
  real : Bool
deriving DecidableEq, Repr

namespace Lexeme

def render (l : Lexeme) : Text :=
  match l.kind with
  | .eof => "EOF"
  | kind => "(" ++ kind.name ++ ", " ++ l.text ++ ")"

end Lexeme

def Keyword.shown (k : Keyword) : Lexeme :=
  ⟨.keyword, k.lexeme, false⟩

def Punct.shown (p : Punct) : Lexeme :=
  ⟨.punct, p.lexeme, false⟩

def Numeral.shown (n : Numeral) : Lexeme :=
  ⟨.number, n.text, n.real⟩

def Terminal.lexeme : Terminal → Lexeme
  | .keyword k => k.shown
  | .ident name => ⟨.ident, name, false⟩
  | .number n => n.shown
  | .punct p => p.shown
  | .eof => ⟨.eof, [], false⟩

namespace Token

def lexeme (t : Token) : Lexeme :=
  t.terminal.lexeme

def value (t : Token) : Word :=
  match t.terminal with
  | .number n => n.value
  | _ => 0

/-- The token after the last one, on the last line of the source. -/
def endOfFile (line : Nat) : Token :=
  ⟨.eof, line⟩

end Token

end MiniC
