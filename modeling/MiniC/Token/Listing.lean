import MiniC.Text.Decimal
import MiniC.Token.Basic

namespace MiniC.TokenListing

structure Entry where
  line : Int
  lexeme : Lexeme

def entry (t : Token) : Entry :=
  ⟨t.line, t.lexeme⟩

def rowEnd (line : Int) : Text :=
  if line = 0 then [] else "\n"

/-- The rest of a listing whose last row belongs to `line`, zero before the first row. -/
def rows (line : Int) : List Entry → Text
  | [] => rowEnd line
  | e :: rest =>
    if e.lexeme.kind = .eof then rows line rest
    else if e.line = line then " " ++ e.lexeme.render ++ rows line rest
    else
      rowEnd line ++ Decimal.ofInt e.line ++ ".\t" ++ e.lexeme.render ++ rows e.line rest

/-- One row for each run of tokens on the same line; the end of the source is not listed. -/
def render (entries : List Entry) : Text :=
  rows 0 entries

def ofTokens (tokens : List Token) : Text :=
  render (tokens.map entry)

end MiniC.TokenListing
