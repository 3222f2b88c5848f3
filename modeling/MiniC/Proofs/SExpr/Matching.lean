import Mathlib.Data.List.Basic
import MiniC.SExpr.Match

namespace MiniC.SExpr

@[elab_as_elim]
theorem induction {motive : SExpr → Prop}
    (symbol : ∀ t, motive (.symbol t))
    (string : ∀ t, motive (.string t))
    (integer : ∀ t, motive (.integer t))
    (ellipsis : motive .ellipsis)
    (list : ∀ items, (∀ n ∈ items, motive n) → motive (.list items))
    (n : SExpr) : motive n := by
  refine @SExpr.rec motive (fun items => ∀ n ∈ items, motive n) symbol string integer ellipsis list ?_ ?_ n
  · intro n member
    cases member
  · intro first rest head tail n member
    rcases List.mem_cons.mp member with rfl | member
    · exact head
    · exact tail n member

mutual

inductive HasShape : SExpr → SExpr → Prop where
  | ellipsis (actual : SExpr) : HasShape .ellipsis actual
  | atom {pattern actual : SExpr} : pattern.isAtom = true → pattern.kind = actual.kind → pattern.text = actual.text →
      HasShape pattern actual
  | list {patterns items : List SExpr} {runs : List (List SExpr)} : items = runs.flatten → Divides patterns runs →
      HasShape (.list patterns) (.list items)

/-- Whether each item of a pattern has its run: an ellipsis any run, another item a run of one item that has
    its shape. -/
inductive Divides : List SExpr → List (List SExpr) → Prop where
  | nil : Divides [] []
  | ellipsis {patterns : List SExpr} {runs : List (List SExpr)} (run : List SExpr) : Divides patterns runs →
      Divides (.ellipsis :: patterns) (run :: runs)
  | item {pattern actual : SExpr} {patterns : List SExpr} {runs : List (List SExpr)} : pattern ≠ .ellipsis →
      HasShape pattern actual → Divides patterns runs → Divides (pattern :: patterns) ([actual] :: runs)

end

theorem hasShape_list_iff {patterns items : List SExpr} :
    HasShape (.list patterns) (.list items) ↔ ∃ runs, items = runs.flatten ∧ Divides patterns runs := by
  constructor
  · rintro (_ | _ | _)
    · contradiction
    · exact ⟨_, ‹_›, ‹_›⟩
  · rintro ⟨runs, whole, divides⟩
    exact .list whole divides

theorem hasShape_atom_iff {pattern actual : SExpr} (single : pattern.isAtom = true) (plain : pattern ≠ .ellipsis) :
    HasShape pattern actual ↔ pattern.kind = actual.kind ∧ pattern.text = actual.text := by
  constructor
  · intro shape
    cases shape with
    | ellipsis => contradiction
    | atom _ kind text => exact ⟨kind, text⟩
    | list => cases single
  · rintro ⟨kind, text⟩
    exact .atom single kind text

theorem divides_nil_iff {runs : List (List SExpr)} : Divides [] runs ↔ runs = [] := by
  constructor
  · intro divides
    cases divides
    rfl
  · rintro rfl
    exact .nil

/-- What an ellipsis takes is followed by what the rest of the pattern takes. -/
theorem divided_ellipsis_iff {patterns items : List SExpr} :
    (∃ runs, items = runs.flatten ∧ Divides (.ellipsis :: patterns) runs) ↔
      ∃ run rest, items = run ++ rest ∧ ∃ runs, rest = runs.flatten ∧ Divides patterns runs := by
  constructor
  · rintro ⟨_, rfl, divides⟩
    cases divides with
    | @ellipsis _ runs run divides => exact ⟨run, runs.flatten, rfl, runs, rfl, divides⟩
    | item plain => contradiction
  · rintro ⟨run, _, rfl, runs, rfl, divides⟩
    exact ⟨run :: runs, rfl, .ellipsis run divides⟩

theorem divided_item_iff {pattern : SExpr} (plain : pattern ≠ .ellipsis) {patterns items : List SExpr} :
    (∃ runs, items = runs.flatten ∧ Divides (pattern :: patterns) runs) ↔
      ∃ actual rest, items = actual :: rest ∧ HasShape pattern actual ∧
        ∃ runs, rest = runs.flatten ∧ Divides patterns runs := by
  constructor
  · rintro ⟨_, rfl, divides⟩
    cases divides with
    | ellipsis => contradiction
    | @item _ actual _ runs _ shape divides => exact ⟨actual, runs.flatten, rfl, shape, runs, rfl, divides⟩
  · rintro ⟨actual, _, rfl, shape, runs, rfl, divides⟩
    exact ⟨[actual] :: runs, rfl, .item plain shape divides⟩

theorem anyTail_eq_none_iff {f : List SExpr → Nat → Option Mismatch} {items : List SExpr} {offset : Nat} :
    anyTail f items offset = none ↔ ∃ run rest, items = run ++ rest ∧ f rest (offset + run.length) = none := by
  induction items generalizing offset with
  | nil => simp [anyTail]
  | cons item items ih =>
    have split : anyTail f (item :: items) offset = none ↔
        f (item :: items) offset = none ∨ anyTail f items (offset + 1) = none := by
      rw [anyTail]
      cases f (item :: items) offset <;> cases anyTail f items (offset + 1) <;> simp
    rw [split, ih]
    constructor
    · rintro (whole | ⟨run, rest, rfl, tail⟩)
      · exact ⟨[], item :: items, rfl, whole⟩
      · refine ⟨item :: run, rest, rfl, ?_⟩
        rwa [List.length_cons, Nat.add_comm run.length, ← Nat.add_assoc]
    · rintro ⟨_ | ⟨first, run⟩, rest, whole, found⟩
      · cases whole
        exact .inl found
      · cases whole
        refine .inr ⟨run, rest, rfl, ?_⟩
        rwa [List.length_cons, Nat.add_comm run.length, ← Nat.add_assoc] at found

/-- If no tail matches, the mismatch of the whole list is reported. -/
theorem eq_some_of_anyTail {f : List SExpr → Nat → Option Mismatch} {items : List SExpr} {offset : Nat} {m : Mismatch}
    (found : anyTail f items offset = some m) : f items offset = some m := by
  cases items with
  | nil => exact found
  | cons item items =>
    rw [anyTail] at found
    cases first : f (item :: items) offset with
    | none =>
      rw [first] at found
      cases found
    | some m' =>
      rw [first] at found
      cases later : anyTail f items (offset + 1) with
      | none =>
        rw [later] at found
        cases found
      | some _ =>
        rw [later] at found
        exact found

theorem mismatch?_of_atom {pattern : SExpr} (single : pattern.isAtom = true) (plain : pattern ≠ .ellipsis)
    (path : List Nat) (actual : SExpr) :
    mismatch? path pattern actual =
      if pattern.kind ≠ actual.kind then some ⟨path, .kind pattern actual⟩
      else if pattern.text ≠ actual.text then some ⟨path, .atom pattern actual⟩
      else none := by
  cases pattern with
  | ellipsis => contradiction
  | list items => cases single
  | symbol | string | integer => rw [mismatch?] <;> simp

theorem mismatchItems?_item {pattern : SExpr} (plain : pattern ≠ .ellipsis) (path : List Nat) (patterns : List SExpr)
    (actual : SExpr) (rest : List SExpr) (offset : Nat) :
    mismatchItems? path (pattern :: patterns) (actual :: rest) offset =
      (mismatch? (path ++ [offset]) pattern actual).or (mismatchItems? path patterns rest (offset + 1)) := by
  rw [mismatchItems?]
  · exact Option.orElse_eq_or
  · exact plain

section Shape

def Matched (pattern : SExpr) : Prop :=
  ∀ path actual, mismatch? path pattern actual = none ↔ HasShape pattern actual

theorem matched_of_atom {pattern : SExpr} (single : pattern.isAtom = true) (plain : pattern ≠ .ellipsis) :
    Matched pattern := by
  intro path actual
  rw [mismatch?_of_atom single plain, hasShape_atom_iff single plain]
  split
  · rename_i other
    simp [other]
  · rename_i same
    simp [not_not.mp same]

theorem mismatchItems?_eq_none_iff {patterns : List SExpr} (each : ∀ pattern ∈ patterns, Matched pattern)
    (path : List Nat) (items : List SExpr) (offset : Nat) :
    mismatchItems? path patterns items offset = none ↔ ∃ runs, items = runs.flatten ∧ Divides patterns runs := by
  induction patterns generalizing items offset with
  | nil => cases items <;> simp [mismatchItems?, divides_nil_iff]
  | cons pattern patterns ih =>
    have ih := ih fun pattern member => each pattern (List.mem_cons_of_mem _ member)
    by_cases ellipsis : pattern = .ellipsis
    · subst ellipsis
      rw [mismatchItems?, divided_ellipsis_iff]
      split
      · rename_i last
        -- An ellipsis that stands last takes all that is left.
        rw [List.isEmpty_iff.mp last]
        exact iff_of_true rfl ⟨items, [], (List.append_nil items).symm, [], rfl, .nil⟩
      · rw [anyTail_eq_none_iff]
        simp only [ih]
    · rw [divided_item_iff ellipsis]
      cases items with
      | nil => rw [mismatchItems?] <;> simp [ellipsis]
      | cons actual rest =>
        rw [mismatchItems?_item ellipsis, Option.or_eq_none_iff, each pattern List.mem_cons_self, ih]
        constructor
        · rintro ⟨shape, divided⟩
          exact ⟨actual, rest, rfl, shape, divided⟩
        · rintro ⟨_, _, same, shape, divided⟩
          cases same
          exact ⟨shape, divided⟩

theorem matched (pattern : SExpr) : Matched pattern := by
  induction pattern using SExpr.induction with
  | symbol | string | integer => exact matched_of_atom rfl (by simp)
  | ellipsis =>
    intro path actual
    rw [mismatch?]
    exact iff_of_true rfl (.ellipsis actual)
  | list patterns ih =>
    intro path actual
    cases actual with
    | list items => rw [mismatch?, mismatchItems?_eq_none_iff ih, hasShape_list_iff]
    | symbol | string | integer | ellipsis =>
      refine iff_of_false (by simp [mismatch?, kind]) fun shape => ?_
      cases shape with
      | atom single => cases single

end Shape

section Places

/-- The datum at a place, which is given by the positions of items from the root on. -/
def follow : SExpr → List Nat → Option SExpr
  | n, [] => some n
  | .list items, i :: path => items[i]?.bind fun item => item.follow path
  | _, _ :: _ => none

/-- Whether a mismatch tells of a place of a datum what is there: another kind or text than the pattern's, an
    item too many, or the end of a list that is too short. -/
inductive Tells (root : SExpr) : Mismatch → Prop where
  | kind {path : List Nat} {pattern actual : SExpr} : root.follow path = some actual → pattern.kind ≠ actual.kind →
      Tells root ⟨path, .kind pattern actual⟩
  | atom {path : List Nat} {pattern actual : SExpr} : root.follow path = some actual → pattern.kind = actual.kind →
      pattern.text ≠ actual.text → Tells root ⟨path, .atom pattern actual⟩
  | unexpected {path : List Nat} {actual : SExpr} : root.follow path = some actual →
      Tells root ⟨path, .unexpected actual⟩
  | absent {path : List Nat} {pattern : SExpr} {items : List SExpr} : root.follow path = some (.list items) →
      Tells root ⟨path ++ [items.length], .absent pattern⟩

theorem follow_append (n : SExpr) (path path' : List Nat) :
    n.follow (path ++ path') = (n.follow path).bind fun item => item.follow path' := by
  induction path generalizing n with
  | nil => rfl
  | cons i path ih =>
    cases n with
    | list items =>
      rw [List.cons_append, follow, follow]
      cases items[i]? with
      | none => rfl
      | some item => exact ih item
    | symbol | string | integer | ellipsis => rfl

variable {root : SExpr} {path : List Nat}

theorem follow_item {before rest : List SExpr} {item : SExpr}
    (here : root.follow path = some (.list (before ++ item :: rest))) :
    root.follow (path ++ [before.length]) = some item := by
  rw [follow_append, here, Option.bind_some, follow]
  simp [follow]

def Honest (root pattern : SExpr) : Prop :=
  ∀ ⦃path actual m⦄, root.follow path = some actual → mismatch? path pattern actual = some m → Tells root m

theorem tells_of_items {patterns : List SExpr} (each : ∀ pattern ∈ patterns, Honest root pattern) (before : List SExpr)
    {items : List SExpr} {m : Mismatch} (here : root.follow path = some (.list (before ++ items)))
    (found : mismatchItems? path patterns items before.length = some m) : Tells root m := by
  induction patterns generalizing before items with
  | nil =>
    cases items with
    | nil => cases found
    | cons actual rest =>
      cases found
      exact .unexpected (follow_item here)
  | cons pattern patterns ih =>
    have later : ∀ pattern ∈ patterns, Honest root pattern := fun pattern member =>
      each pattern (List.mem_cons_of_mem _ member)
    by_cases ellipsis : pattern = .ellipsis
    · subst ellipsis
      rw [mismatchItems?] at found
      split at found
      · cases found
      · exact ih later before here (eq_some_of_anyTail found)
    · cases items with
      | nil =>
        rw [mismatchItems?] at found
        · cases found
          rw [List.append_nil] at here
          exact .absent here
        · exact ellipsis
      | cons actual rest =>
        rw [mismatchItems?_item ellipsis, Option.or_eq_some_iff] at found
        rcases found with found | ⟨_, found⟩
        · exact each pattern List.mem_cons_self (follow_item here) found
        · have behind : root.follow path = some (.list (before ++ [actual] ++ rest)) := by simpa using here
          exact ih later (before ++ [actual]) behind (by simpa using found)

theorem honest_of_atom {pattern : SExpr} (single : pattern.isAtom = true) (plain : pattern ≠ .ellipsis) :
    Honest root pattern := by
  intro path actual m here found
  rw [mismatch?_of_atom single plain] at found
  split at found
  · rename_i other
    cases found
    exact .kind here other
  · rename_i same
    split at found
    · rename_i other
      cases found
      exact .atom here (not_not.mp same) other
    · cases found

theorem honest (root pattern : SExpr) : Honest root pattern := by
  induction pattern using SExpr.induction with
  | symbol | string | integer => exact honest_of_atom rfl (by simp)
  | ellipsis =>
    intro path actual m here found
    rw [mismatch?] at found
    cases found
  | list patterns ih =>
    intro path actual m here found
    cases actual with
    | list items =>
      rw [mismatch?] at found
      exact tells_of_items ih [] here found
    | symbol | string | integer | ellipsis =>
      rw [mismatch?] at found
      · cases found
        exact .kind here (by simp [kind])
      all_goals simp

end Places

theorem divides_self {items : List SExpr} (each : ∀ n ∈ items, HasShape n n) : Divides items (items.map fun n => [n]) := by
  induction items with
  | nil => exact .nil
  | cons item items ih =>
    have ih := ih fun n member => each n (List.mem_cons_of_mem _ member)
    by_cases ellipsis : item = .ellipsis
    · subst ellipsis
      exact .ellipsis [.ellipsis] ih
    · exact .item ellipsis (each item List.mem_cons_self) ih

theorem HasShape.refl (n : SExpr) : HasShape n n := by
  induction n using SExpr.induction with
  | symbol | string | integer => exact .atom rfl rfl rfl
  | ellipsis => exact .ellipsis _
  | list items ih =>
    refine .list ?_ (divides_self ih)
    rw [← List.flatMap_def, List.flatMap_singleton']

/-- There is no mismatch exactly if a datum has the shape of a pattern, as every datum has of itself. A
    mismatch tells what is at some place of the datum, and its message starts at the root. -/
theorem no_mismatch_iff_hasShape (pattern actual : SExpr) :
    (matches? pattern actual = none ↔ HasShape pattern actual) ∧
      (∀ m, matches? pattern actual = some m →
        Tells actual m ∧ m.message ≠ [] ∧ ("root" : Text) <+: m.message) ∧
      matches? actual actual = none := by
  refine ⟨matched pattern [] actual, fun m found => ?_, (matched actual [] actual).mpr (.refl actual)⟩
  have rooted : ("root" : Text) <+: m.message := by
    rw [Mismatch.message, List.append_assoc, List.append_assoc]
    exact List.prefix_append _ _
  refine ⟨honest actual pattern rfl found, ?_, rooted⟩
  intro empty
  rw [empty] at rooted
  exact absurd rooted (by decide)

end MiniC.SExpr
