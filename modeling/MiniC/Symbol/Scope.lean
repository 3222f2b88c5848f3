import MiniC.Symbol.Basic

namespace MiniC

/-- A scope keeps its symbols in order, and each of them under its name. -/
structure Scope where
  id : Nat
  symbols : List Symbol := []
  byName : List (Text × Symbol) := []
  named : byName = symbols.map fun s => (s.name, s) := by rfl
deriving DecidableEq, Repr

namespace Scope

def find? (scope : Scope) (name : Text) : Option Symbol :=
  scope.byName.lookup name

def insert (scope : Scope) (s : Symbol) : Scope where
  id := scope.id
  symbols := scope.symbols ++ [s]
  byName := scope.byName ++ [(s.name, s)]
  named := by rw [scope.named, List.map_append, List.map_singleton]

theorem find?_eq (scope : Scope) (name : Text) : scope.find? name = scope.symbols.find? (·.name = name) := by
  rw [find?, scope.named]
  induction scope.symbols with
  | nil => rfl
  | cons s rest ih =>
    by_cases same : s.name = name
    · rw [List.find?_cons_of_pos (by simpa using same), List.map_cons, List.lookup_cons, same, beq_self_eq_true]
    · have other : (name == s.name) = false := beq_false_of_ne fun h => same h.symm
      rw [List.find?_cons_of_neg (by simpa using same), List.map_cons, List.lookup_cons, other, ih]

theorem mem_of_find? {scope : Scope} {name : Text} {s : Symbol} (found : scope.find? name = some s) :
    s ∈ scope.symbols := by
  rw [find?_eq] at found
  exact List.mem_of_find?_eq_some found

end Scope

structure Redeclaration where
  name : Text
  previous : Symbol
deriving DecidableEq, Repr

def Redeclaration.message (r : Redeclaration) : Text :=
  "'" ++ r.name ++ "' is already defined in this scope."

structure Scopes where
  current : Scope
  outer : List Scope := []
  nextId : Nat
  /-- How many scopes have been entered and not yet left. -/
  depth : Nat := 0
  all : List Symbol := []
  nested : depth = outer.length := by rfl
deriving DecidableEq, Repr

namespace Scopes

def enter (t : Scopes) : Scopes where
  current := { id := t.nextId }
  outer := t.current :: t.outer
  nextId := t.nextId + 1
  depth := t.depth + 1
  all := t.all
  nested := congrArg (· + 1) t.nested

def exit? (t : Scopes) : Option Scopes :=
  match h : t.outer with
  | [] => none
  | scope :: outer => some
    { t with
      current := scope
      outer := outer
      depth := t.depth - 1
      nested := by rw [t.nested, h, List.length_cons, Nat.add_sub_cancel] }

theorem exit?_of_nil {t : Scopes} (outermost : t.outer = []) : t.exit? = none := by
  unfold exit?
  split
  · rfl
  · next inside => rw [outermost] at inside; cases inside

theorem exit?_of_cons {t : Scopes} {scope : Scope} {outer : List Scope} (inside : t.outer = scope :: outer) :
    t.exit? = some { t with current := scope, outer := outer, depth := outer.length, nested := rfl } := by
  have depth : t.depth - 1 = outer.length := by rw [t.nested, inside, List.length_cons, Nat.add_sub_cancel]
  unfold exit?
  split
  · next outermost => rw [inside] at outermost; cases outermost
  · next same =>
    cases inside.symm.trans same
    simp only [depth]

theorem outer_of_exit? {t t' : Scopes} (left : t.exit? = some t') :
    t.outer = t'.current :: t'.outer ∧ t'.nextId = t.nextId ∧ t'.all = t.all := by
  cases outer : t.outer with
  | nil =>
    rw [exit?_of_nil outer] at left
    cases left
  | cons scope outer' =>
    rw [exit?_of_cons outer] at left
    cases left
    exact ⟨rfl, rfl, rfl⟩

def isGlobal (t : Scopes) : Bool :=
  t.outer.isEmpty

def add (t : Scopes) (s : Symbol) : Scopes :=
  let s := { s with scope := t.current.id }
  { t with current := t.current.insert s, all := t.all ++ [s] }

def declare (t : Scopes) (s : Symbol) : Except Redeclaration Scopes :=
  match t.current.find? s.name with
  | some previous => .error ⟨s.name, previous⟩
  | none => .ok (t.add s)

def resolve? (t : Scopes) (name : Text) : Option Symbol :=
  (t.current :: t.outer).findSome? (·.find? name)

def initial : Scopes :=
  add { current := { id := 0 }, nextId := 1 } .output

end Scopes

end MiniC
