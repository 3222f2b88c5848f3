import MiniC.Text.Decimal

namespace MiniC

inductive Category where
  | lexical | syntactic | semantic
deriving DecidableEq, Repr

namespace Category

def name : Category → Text
  | lexical => "Lexical"
  | syntactic => "Syntax"
  | semantic => "Semantic"

def ofCode? : Int → Option Category
  | 0 => some lexical
  | 1 => some syntactic
  | 2 => some semantic
  | _ => none

/-- The name of the category with a given number; a number without one is shown in brackets. -/
def nameOfCode (n : Int) : Text :=
  match ofCode? n with
  | some c => c.name
  | none => "Category(" ++ Decimal.ofInt n ++ ")"

def noneFound : Category → Text
  | lexical => "There is no lexical errors."
  | syntactic => "There is no syntax error."
  | semantic => "The input program is semantically correct."

end Category

structure Located (ε : Type) where
  line : Int
  cause : ε
deriving DecidableEq, Repr

structure Diagnostic where
  category : Category
  line : Int
  message : Text
deriving DecidableEq, Repr

namespace Diagnostic

def render (d : Diagnostic) : Text :=
  match d.category with
  | .lexical => Decimal.ofInt d.line ++ ".\t" ++ d.message
  | .syntactic => "#" ++ Decimal.ofInt d.line ++ " : syntax error, " ++ d.message
  | .semantic => "#" ++ Decimal.ofInt d.line ++ " : Semantic Error! " ++ d.message

/-- The text of the diagnostics after one on `line`. Lexical diagnostics on one line share a
    row. -/
def renderAfter (category : Category) (line : Int) : List Diagnostic → Text
  | [] => []
  | d :: rest =>
    (if category = .lexical ∧ d.line = line then " " ++ d.message else "\n" ++ d.render) ++
      renderAfter category d.line rest

def renderAll (category : Category) : List Diagnostic → Text
  | [] => category.noneFound
  | d :: rest => d.render ++ renderAfter category d.line rest

end Diagnostic

structure Diagnostics where
  lexical : List Diagnostic := []
  syntactic : List Diagnostic := []
  semantic : List Diagnostic := []
deriving DecidableEq, Repr

namespace Diagnostics

def stream (ds : Diagnostics) : Category → List Diagnostic
  | .lexical => ds.lexical
  | .syntactic => ds.syntactic
  | .semantic => ds.semantic

def add (ds : Diagnostics) (d : Diagnostic) : Diagnostics :=
  match d.category with
  | .lexical => { ds with lexical := ds.lexical ++ [d] }
  | .syntactic => { ds with syntactic := ds.syntactic ++ [d] }
  | .semantic => { ds with semantic := ds.semantic ++ [d] }

def hasErrors (ds : Diagnostics) : Bool :=
  !(ds.lexical.isEmpty && ds.syntactic.isEmpty && ds.semantic.isEmpty)

def section? (ds : Diagnostics) (category : Category) : Option Text :=
  if (ds.stream category).isEmpty then none
  else some (category.name ++ " Errors:\n" ++ Diagnostic.renderAll category (ds.stream category))

def report (ds : Diagnostics) : Text :=
  List.intercalate "\n\n" ([.lexical, .syntactic, .semantic].filterMap ds.section?)

end Diagnostics

end MiniC
