import MiniC.SExpr.Basic

namespace MiniC.SExpr

inductive MismatchCause where
  | kind (pattern actual : SExpr)
  | atom (pattern actual : SExpr)
  | unexpected (actual : SExpr)
  | absent (pattern : SExpr)
deriving Repr

structure Mismatch where
  path : List Nat
  cause : MismatchCause
deriving Repr

def MismatchCause.message : MismatchCause → Text
  | kind pattern actual =>
    "expected " ++ pattern.kind.name ++ " " ++ pattern.render ++ ", got " ++ actual.kind.name ++
      " " ++ actual.render
  | atom pattern actual => "expected " ++ pattern.render ++ ", got " ++ actual.render
  | unexpected actual => "unexpected " ++ actual.render
  | absent pattern => "missing " ++ pattern.render

def renderPosition (n : Nat) : Text :=
  "[" ++ Decimal.ofNat n ++ "]"

def Mismatch.message (m : Mismatch) : Text :=
  "root" ++ m.path.flatMap renderPosition ++ ": " ++ m.cause.message

/-- Looks for a match at every tail of a list, the whole list first. The first mismatch counts if
    there is none. -/
def anyTail (f : List SExpr → Nat → Option Mismatch) : List SExpr → Nat → Option Mismatch
  | [], offset => f [] offset
  | item :: rest, offset => do
    let first ← f (item :: rest) offset
    let _ ← anyTail f rest (offset + 1)
    return first

mutual

def mismatch? (path : List Nat) : SExpr → SExpr → Option Mismatch
  | .ellipsis, _ => none
  | .list patterns, .list items => mismatchItems? path patterns items 0
  | pattern, actual =>
    if pattern.kind ≠ actual.kind then some ⟨path, .kind pattern actual⟩
    else if pattern.text ≠ actual.text then some ⟨path, .atom pattern actual⟩
    else none

/-- The first mismatch of items that start at an offset in their list. -/
def mismatchItems? (path : List Nat) : List SExpr → List SExpr → Nat → Option Mismatch
  | [], [], _ => none
  | [], actual :: _, offset => some ⟨path ++ [offset], .unexpected actual⟩
  | pattern :: patterns, items, offset =>
    match pattern with
    | .ellipsis =>
      if patterns.isEmpty then none else anyTail (mismatchItems? path patterns) items offset
    | pattern =>
      match items with
      | [] => some ⟨path ++ [offset], .absent pattern⟩
      | actual :: rest =>
        mismatch? (path ++ [offset]) pattern actual <|>
          mismatchItems? path patterns rest (offset + 1)

end

def matches? (pattern actual : SExpr) : Option Mismatch :=
  mismatch? [] pattern actual

end MiniC.SExpr
