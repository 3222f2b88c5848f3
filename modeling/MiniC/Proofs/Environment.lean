import Mathlib.Algebra.Order.Ring.Int
import MiniC.Symbol.Scope

namespace MiniC

abbrev Bindings (α : Type) := List (Text × α)

abbrev Scoped (α : Type) := List (Bindings α)

def Bindings.names {α : Type} (l : Bindings α) : List Text :=
  l.map (·.1)

@[simp]
theorem Bindings.names_append {α : Type} (l l' : Bindings α) : Bindings.names (l ++ l') = l.names ++ l'.names :=
  List.map_append

/-- What a name stands for: its innermost declaration counts. -/
def Scoped.find? {α : Type} (Γ : Scoped α) (name : Text) : Option α :=
  Γ.findSome? (List.lookup name)

theorem Scoped.find?_cons {α : Type} (l : Bindings α) (Γ : Scoped α) (name : Text) :
    Scoped.find? (l :: Γ) name = (l.lookup name).or (Γ.find? name) := by
  unfold find?
  rw [List.findSome?_cons]
  cases l.lookup name <;> rfl

/-- The same names in the same order, each with two things that it stands for. -/
inductive Bindings.Parallel {α β : Type} (R : α → β → Prop) : Bindings α → Bindings β → Prop where
  | nil : Parallel R [] []
  | cons {name : Text} {a : α} {b : β} {l : Bindings α} {l' : Bindings β} :
    R a b → Parallel R l l' → Parallel R ((name, a) :: l) ((name, b) :: l')

namespace Bindings.Parallel

variable {α β : Type} {R : α → β → Prop} {l : Bindings α} {l' : Bindings β} {name : Text}

theorem append {k : Bindings α} {k' : Bindings β} (first : Parallel R l l') (second : Parallel R k k') :
    Parallel R (l ++ k) (l' ++ k') := by
  induction first with
  | nil => exact second
  | cons related _ ih => exact .cons related ih

theorem lookup_none (h : Parallel R l l') (absent : l.lookup name = none) : l'.lookup name = none := by
  induction h with
  | nil => rfl
  | cons _ _ ih =>
    rw [List.lookup_cons] at absent ⊢
    split at absent
    · cases absent
    · exact ih absent

theorem lookup_some (h : Parallel R l l') {a : α} (found : l.lookup name = some a) :
    ∃ b, l'.lookup name = some b ∧ R a b := by
  induction h with
  | nil => cases found
  | cons related _ ih =>
    rw [List.lookup_cons] at found ⊢
    split at found
    · cases found
      exact ⟨_, rfl, related⟩
    · exact ih found

end Bindings.Parallel

def Scope.view {α : Type} (aspect : Symbol → α) (s : Scope) : Bindings α :=
  s.symbols.map fun s => (s.name, aspect s)

def Scopes.visible (t : Scopes) : List Scope :=
  t.current :: t.outer

def Scopes.view {α : Type} (aspect : Symbol → α) (t : Scopes) : Scoped α :=
  t.visible.map (Scope.view aspect)

theorem Scope.lookup_view {α : Type} (aspect : Symbol → α) (s : Scope) (name : Text) :
    (s.view aspect).lookup name = (s.find? name).map aspect := by
  rw [view, find?_eq]
  induction s.symbols with
  | nil => rfl
  | cons s rest ih =>
    by_cases same : s.name = name
    · simp [same]
    · have other : (name == s.name) = false := by simpa using fun h => same h.symm
      rw [List.map_cons, List.lookup_cons, other, ih]
      simp [same]

theorem Scopes.find?_view {α : Type} (aspect : Symbol → α) (t : Scopes) (name : Text) :
    (t.view aspect).find? name = (t.resolve? name).map aspect := by
  simp only [view, Scoped.find?, resolve?, visible]
  induction t.current :: t.outer with
  | nil => rfl
  | cons scope rest ih =>
    rw [List.map_cons, List.findSome?_cons, List.findSome?_cons, Scope.lookup_view, ih]
    cases scope.find? name <;> rfl

theorem Scopes.name_of_resolve? {t : Scopes} {name : Text} {s : Symbol} (found : t.resolve? name = some s) :
    s.name = name := by
  obtain ⟨scope, _, found⟩ := List.exists_of_findSome?_eq_some found
  rw [Scope.find?_eq] at found
  simpa using List.find?_some found

theorem Scopes.find?_view_global {α : Type} (aspect : Symbol → α) {t : Scopes} (outermost : t.outer = []) (name : Text) :
    (t.view aspect).find? name = (t.current.view aspect).lookup name := by
  rw [view, visible, outermost, List.map_cons, List.map_nil, Scoped.find?_cons]
  exact Option.or_none

theorem Scope.find?_eq_none_iff {α : Type} (aspect : Symbol → α) (s : Scope) (name : Text) :
    s.find? name = none ↔ name ∉ Bindings.names (s.view aspect) := by
  simp only [find?_eq, List.find?_eq_none, Bindings.names, view, List.map_map, List.mem_map]
  simp

theorem Scopes.view_of_visible {α : Type} (aspect : Symbol → α) {t t' : Scopes} (same : t'.visible = t.visible) :
    t'.view aspect = t.view aspect := by
  unfold view
  rw [same]

theorem Scopes.view_add {α : Type} (aspect : Symbol → α) (free : ∀ s scope, aspect { s with scope := scope } = aspect s)
    (t : Scopes) (s : Symbol) : (t.add s).current.view aspect = t.current.view aspect ++ [(s.name, aspect s)] := by
  simp only [add, Scope.insert, Scope.view, List.map_append, List.map_cons, List.map_nil, free]

end MiniC
