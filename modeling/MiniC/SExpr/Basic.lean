import MiniC.Text.Decimal

namespace MiniC

/-- A datum of an s-expression. In a pattern an ellipsis stands for any run of items. -/
inductive SExpr where
  | symbol (name : Text)
  | string (contents : Text)
  | integer (numeral : Text)
  | ellipsis
  | list (items : List SExpr)
deriving Repr

namespace SExpr

inductive Kind where
  | symbol | string | integer | ellipsis | list
deriving DecidableEq, Repr

namespace Kind

def name : Kind → Text
  | symbol => "symbol"
  | string => "string"
  | integer => "integer"
  | ellipsis => "ellipsis"
  | list => "list"

def ofCode? : Int → Option Kind
  | 0 => some symbol
  | 1 => some string
  | 2 => some integer
  | 3 => some ellipsis
  | 4 => some list
  | _ => none

def nameOfCode (n : Int) : Text :=
  match ofCode? n with
  | some kind => kind.name
  | none => "NodeType(" ++ Decimal.ofInt n ++ ")"

def datum (kind : Kind) (text : Text) : SExpr :=
  match kind with
  | symbol => .symbol text
  | string => .string text
  | integer => .integer text
  | ellipsis => .ellipsis
  | list => .list []

end Kind

def kind : SExpr → Kind
  | symbol _ => .symbol
  | string _ => .string
  | integer _ => .integer
  | ellipsis => .ellipsis
  | list _ => .list

def isAtom : SExpr → Bool
  | list _ => false
  | _ => true

def text : SExpr → Text
  | symbol t | string t | integer t => t
  | ellipsis | list _ => []

def escape (t : Text) : Text :=
  t.flatMap fun c => if c = '\\'.toUInt8 ∨ c = '"'.toUInt8 then ['\\'.toUInt8, c] else [c]

end SExpr

mutual

def SExpr.render : SExpr → Text
  | .symbol t | .integer t => t
  | .string t => "\"" ++ SExpr.escape t ++ "\""
  | .ellipsis => "..."
  | .list items => "(" ++ SExpr.renderItems items ++ ")"

def SExpr.renderItems : List SExpr → Text
  | [] => []
  | [last] => last.render
  | item :: next :: rest => item.render ++ " " ++ SExpr.renderItems (next :: rest)

end

namespace SExpr

/-- A datum whose kind is given by a number; a number without a kind is shown as such. -/
def renderOfCode (code : Int) (text : Text) : Text :=
  match Kind.ofCode? code with
  | some kind => (kind.datum text).render
  | none => "UNKNOWN_NODE_TYPE_" ++ Decimal.ofInt code

def isAtomOfCode (code : Int) : Bool :=
  Kind.ofCode? code ≠ some .list

end SExpr

end MiniC
