import Mathlib.Data.List.Infix
import Mathlib.Data.List.Nodup
import Mathlib.Logic.Function.Basic
import MiniC.Proofs.Environment

namespace MiniC

inductive ScopeOp where
  | enter
  | exit
  | declare (s : Symbol)
deriving DecidableEq

/-- Operations that never leave the scope in which they start. -/
def ScopeOp.Nested (ops : List ScopeOp) : Prop :=
  ∀ before, before <+: ops → before.count .exit ≤ before.count .enter

instance (ops : List ScopeOp) : Decidable (ScopeOp.Nested ops) :=
  decidable_of_iff (∀ before ∈ ops.inits, before.count .exit ≤ before.count .enter)
    (by simp [ScopeOp.Nested, List.mem_inits])

/-- An open scope: its number, and the symbol that it holds under each name. -/
structure ScopeMap where
  id : Nat
  held : Text → Option Symbol

/-- A stack of maps, one for each open scope, the innermost apart from those around it. -/
structure ScopeStack where
  innermost : ScopeMap
  around : List ScopeMap
  entered : Nat
  declared : List Symbol

namespace ScopeStack

def initial : ScopeStack :=
  ⟨⟨0, Function.update (fun _ => none) Symbol.output.name (some .output)⟩, [], 1, [.output]⟩

def resolve? (m : ScopeStack) (name : Text) : Option Symbol :=
  (m.innermost :: m.around).findSome? (·.held name)

def step? (m : ScopeStack) : ScopeOp → Option ScopeStack
  | .enter => some ⟨⟨m.entered, fun _ => none⟩, m.innermost :: m.around, m.entered + 1, m.declared⟩
  | .exit =>
    match m.around with
    | [] => none
    | outer :: around => some { m with innermost := outer, around := around }
  | .declare s =>
    match m.innermost.held s.name with
    | some _ => some m
    | none =>
      let s := { s with scope := m.innermost.id }
      some { m with
        innermost := ⟨m.innermost.id, Function.update m.innermost.held s.name (some s)⟩
        declared := m.declared ++ [s] }

def run? (m : ScopeStack) (ops : List ScopeOp) : Option ScopeStack :=
  ops.foldlM step? m

end ScopeStack

def Scope.map (s : Scope) : ScopeMap :=
  ⟨s.id, s.find?⟩

namespace Scopes

/-- One operation. The outermost scope is never left, and a declaration that fails leaves the table
    as it is. -/
def step? (t : Scopes) : ScopeOp → Option Scopes
  | .enter => some t.enter
  | .exit => t.exit?
  | .declare s => some ((t.declare s).toOption.getD t)

def run? (t : Scopes) (ops : List ScopeOp) : Option Scopes :=
  ops.foldlM step? t

def stack (t : Scopes) : ScopeStack :=
  ⟨t.current.map, t.outer.map Scope.map, t.nextId, t.all⟩

theorem run?_cons (t : Scopes) (op : ScopeOp) (ops : List ScopeOp) :
    t.run? (op :: ops) = (t.step? op).bind fun t' => t'.run? ops :=
  List.foldlM_cons

theorem run?_append (t : Scopes) (ops ops' : List ScopeOp) :
    t.run? (ops ++ ops') = (t.run? ops).bind fun t' => t'.run? ops' :=
  List.foldlM_append

theorem step?_declare_of_held {t : Scopes} {s previous : Symbol} (held : t.current.find? s.name = some previous) :
    t.declare s = .error ⟨s.name, previous⟩ ∧ t.step? (.declare s) = some t := by
  have fails : t.declare s = .error ⟨s.name, previous⟩ := by rw [declare, held]
  exact ⟨fails, by rw [step?, fails]; rfl⟩

theorem step?_declare_of_free {t : Scopes} {s : Symbol} (free : t.current.find? s.name = none) :
    t.declare s = .ok (t.add s) ∧ t.step? (.declare s) = some (t.add s) := by
  have succeeds : t.declare s = .ok (t.add s) := by rw [declare, free]
  exact ⟨succeeds, by rw [step?, succeeds]; rfl⟩

theorem map_add {t : Scopes} {s : Symbol} (free : t.current.find? s.name = none) :
    (t.add s).current.map =
      ⟨t.current.id, Function.update t.current.find? s.name (some { s with scope := t.current.id })⟩ := by
  have held : (t.add s).current.find? =
      Function.update t.current.find? s.name (some { s with scope := t.current.id }) := by
    funext name
    rw [Scope.find?_eq] at free
    rw [Scope.find?_eq]
    by_cases same : name = s.name
    · subst same
      simp [add, Scope.insert, free]
    · have other : s.name ≠ name := fun h => same h.symm
      simp [add, Scope.insert, same, other, Scope.find?_eq]
  show ScopeMap.mk t.current.id (t.add s).current.find? = _
  rw [held]

theorem stack_step? (t : Scopes) (op : ScopeOp) : (t.step? op).map stack = t.stack.step? op := by
  cases op with
  | enter => rfl
  | exit =>
    show t.exit?.map stack = _
    cases around : t.outer with
    | nil => simp [exit?_of_nil around, ScopeStack.step?, stack, around]
    | cons scope outer => simp [exit?_of_cons around, ScopeStack.step?, stack, around]
  | declare s =>
    cases found : t.current.find? s.name with
    | some previous =>
      have held : t.stack.innermost.held s.name = some previous := found
      rw [(step?_declare_of_held found).2, ScopeStack.step?, held]
      rfl
    | none =>
      have free : t.stack.innermost.held s.name = none := found
      rw [(step?_declare_of_free found).2, ScopeStack.step?, free]
      show some (stack (t.add s)) = _
      rw [stack, map_add found]
      rfl

theorem stack_run? (t : Scopes) (ops : List ScopeOp) : (t.run? ops).map stack = t.stack.run? ops := by
  induction ops generalizing t with
  | nil => rfl
  | cons op ops ih =>
    have step := stack_step? t op
    rw [run?_cons, ScopeStack.run?, List.foldlM_cons, ← step]
    cases t.step? op with
    | none => rfl
    | some t' => exact ih t'

theorem stack_initial : initial.stack = .initial := by
  have empty : ({ current := { id := 0 }, nextId := 1 } : Scopes).current.find? Symbol.output.name = none := rfl
  show ScopeStack.mk (add _ .output).current.map [] 1 [.output] = _
  rw [map_add empty]
  rfl

theorem resolve?_stack (t : Scopes) (name : Text) : t.stack.resolve? name = t.resolve? name := by
  show ((t.current :: t.outer).map Scope.map).findSome? _ = _
  rw [List.findSome?_map]
  rfl

theorem visible_enter (t : Scopes) : t.enter.visible = { id := t.nextId } :: t.visible :=
  rfl

theorem visible_exit {t t' : Scopes} (left : t.exit? = some t') : t.visible = t.current :: t'.visible :=
  congrArg _ (outer_of_exit? left).1

theorem exit?_of_visible {t : Scopes} {first second : Scope} {rest : List Scope}
    (visible : t.visible = first :: second :: rest) : ∃ t', t.exit? = some t' ∧ t'.visible = second :: rest := by
  have outer : t.outer = second :: rest := (List.cons.inj visible).2
  exact ⟨_, exit?_of_cons outer, rfl⟩

theorem exists_declare (t : Scopes) (s : Symbol) :
    ∃ t', t.step? (.declare s) = some t' ∧ t'.outer = t.outer := by
  cases found : t.current.find? s.name with
  | some previous => exact ⟨t, (step?_declare_of_held found).2, rfl⟩
  | none => exact ⟨t.add s, (step?_declare_of_free found).2, rfl⟩

theorem step?_above {t : Scopes} {upper base : List Scope} (op : ScopeOp) (visible : t.visible = upper ++ base)
    (inside : [op].count .exit < [op].count .enter + upper.length) :
    ∃ t' upper', t.step? op = some t' ∧ t'.visible = upper' ++ base ∧
      upper'.length + [op].count .exit = upper.length + [op].count .enter := by
  cases op with
  | enter =>
    refine ⟨t.enter, { id := t.nextId } :: upper, rfl, ?_, by simp⟩
    rw [visible_enter, visible]
    rfl
  | exit =>
    rcases upper with _ | ⟨first, _ | ⟨second, rest⟩⟩
    · simp at inside
    · simp at inside
    · obtain ⟨t', left, visible'⟩ := exit?_of_visible visible
      exact ⟨t', second :: rest, left, visible', by simp⟩
  | declare s =>
    rcases upper with _ | ⟨first, rest⟩
    · simp at inside
    · obtain ⟨t', stepped, outer⟩ := exists_declare t s
      have around : t.outer = rest ++ base := (List.cons.inj visible).2
      refine ⟨t', t'.current :: rest, stepped, ?_, by simp⟩
      rw [Scopes.visible, outer, around]
      rfl

theorem run?_above (ops : List ScopeOp) (t : Scopes) (upper base : List Scope) (visible : t.visible = upper ++ base)
    (inside : ∀ before, before <+: ops → before.count .exit < before.count .enter + upper.length) :
    ∃ t' upper', t.run? ops = some t' ∧ t'.visible = upper' ++ base ∧
      upper'.length + ops.count .exit = upper.length + ops.count .enter := by
  induction ops generalizing t upper with
  | nil => exact ⟨t, upper, rfl, visible, rfl⟩
  | cons op ops ih =>
    have split : ∀ (a : ScopeOp) (before : List ScopeOp),
        (op :: before).count a = [op].count a + before.count a := fun a before => by
      show ([op] ++ before).count a = _
      rw [List.count_append]
    obtain ⟨t₁, upper₁, stepped, visible₁, count₁⟩ := step?_above op visible (inside [op] (by simp))
    obtain ⟨t', upper', ran, visible', count'⟩ := ih t₁ upper₁ visible₁ (by
      intro before within
      have bound := inside (op :: before) (List.cons_prefix_cons.mpr ⟨rfl, within⟩)
      rw [split .exit before, split .enter before] at bound
      omega)
    refine ⟨t', upper', ?_, visible', ?_⟩
    · rw [run?_cons, stepped]
      exact ran
    · rw [split .exit ops, split .enter ops]
      omega

theorem run?_induction {P : Scopes → Prop} (kept : ∀ t op t', P t → t.step? op = some t' → P t') {ops : List ScopeOp}
    {t t' : Scopes} (holds : P t) (ran : t.run? ops = some t') : P t' := by
  induction ops generalizing t with
  | nil =>
    cases ran
    exact holds
  | cons op ops ih =>
    rw [run?_cons] at ran
    obtain ⟨t₁, stepped, ran⟩ := Option.bind_eq_some_iff.mp ran
    exact ih (kept t op t₁ holds stepped) ran

theorem step_cases {t t' : Scopes} {op : ScopeOp} (stepped : t.step? op = some t') :
    t' = t.enter ∨ t.exit? = some t' ∨ t' = t ∨
      ∃ s, op = .declare s ∧ t.current.find? s.name = none ∧ t' = t.add s := by
  cases op with
  | enter =>
    cases stepped
    exact .inl rfl
  | exit => exact .inr (.inl stepped)
  | declare s =>
    cases found : t.current.find? s.name with
    | some previous =>
      rw [(step?_declare_of_held found).2] at stepped
      cases stepped
      exact .inr (.inr (.inl rfl))
    | none =>
      rw [(step?_declare_of_free found).2] at stepped
      cases stepped
      exact .inr (.inr (.inr ⟨s, rfl, found, rfl⟩))

/-- Open scopes have different numbers that have been given out, and each holds what was declared
    under its number. -/
structure Numbered (t : Scopes) : Prop where
  ids : (t.visible.map (·.id)).Nodup
  used : ∀ scope ∈ t.visible, scope.id < t.nextId
  scopes : ∀ s ∈ t.all, s.scope < t.nextId
  held : ∀ scope ∈ t.visible, scope.symbols = t.all.filter (·.scope = scope.id)
  keys : (t.all.map fun s => (s.name, s.scope)).Nodup

theorem numbered_initial : Numbered initial where
  ids := by decide
  used := by decide
  scopes := by decide
  held := by decide
  keys := by decide

variable {t t' : Scopes}

theorem Numbered.enter (h : t.Numbered) : t.enter.Numbered where
  ids := by
    rw [visible_enter, List.map_cons, List.nodup_cons]
    refine ⟨fun member => ?_, h.ids⟩
    obtain ⟨scope, member, same⟩ := List.mem_map.mp member
    exact Nat.ne_of_lt (h.used scope member) same
  used := by
    intro scope member
    show scope.id < t.nextId + 1
    rcases List.mem_cons.mp member with rfl | member
    · exact Nat.lt_succ_self _
    · exact Nat.lt_succ_of_lt (h.used scope member)
  scopes := fun s member => Nat.lt_succ_of_lt (h.scopes s member)
  held := by
    intro scope member
    rcases List.mem_cons.mp member with rfl | member
    · refine (List.filter_eq_nil_iff.mpr fun s declared => ?_).symm
      rw [decide_eq_true_eq]
      exact Nat.ne_of_lt (h.scopes s declared)
    · exact h.held scope member
  keys := h.keys

theorem Numbered.exit (h : t.Numbered) (left : t.exit? = some t') : t'.Numbered := by
  obtain ⟨_, next, all⟩ := outer_of_exit? left
  have visible := visible_exit left
  have stays : ∀ scope ∈ t'.visible, scope ∈ t.visible := fun scope member => by
    rw [visible]
    exact List.mem_cons_of_mem _ member
  have ids := h.ids
  rw [visible, List.map_cons, List.nodup_cons] at ids
  constructor
  · exact ids.2
  · intro scope member
    rw [next]
    exact h.used scope (stays scope member)
  · rw [all, next]
    exact h.scopes
  · intro scope member
    rw [all]
    exact h.held scope (stays scope member)
  · rw [all]
    exact h.keys

theorem Numbered.find?_eq_some_iff (h : t.Numbered) {scope : Scope} (member : scope ∈ t.visible) {name : Text} {s : Symbol} :
    scope.find? name = some s ↔ s ∈ t.all ∧ s.name = name ∧ s.scope = scope.id := by
  rw [Scope.find?_eq, h.held scope member]
  constructor
  · intro found
    have named := List.find?_some found
    have declared := List.mem_filter.mp (List.mem_of_find?_eq_some found)
    simp only [decide_eq_true_eq] at named declared
    exact ⟨declared.1, named, declared.2⟩
  · rintro ⟨declared, named, numbered⟩
    have stored : s ∈ t.all.filter (·.scope = scope.id) := List.mem_filter.mpr ⟨declared, by simpa using numbered⟩
    cases found : (t.all.filter (·.scope = scope.id)).find? (·.name = name) with
    | none =>
      have absent := List.find?_eq_none.mp found s stored
      simp [named] at absent
    | some s' =>
      have named' := List.find?_some found
      have declared' := List.mem_filter.mp (List.mem_of_find?_eq_some found)
      simp only [decide_eq_true_eq] at named' declared'
      have key : (s'.name, s'.scope) = (s.name, s.scope) := by rw [named', declared'.2, named, numbered]
      rw [List.inj_on_of_nodup_map h.keys declared'.1 declared key]

theorem Numbered.add (h : t.Numbered) {s : Symbol} (free : t.current.find? s.name = none) : (t.add s).Numbered := by
  have innermost : t.current ∈ t.visible := List.mem_cons_self
  have ids := h.ids
  rw [visible, List.map_cons, List.nodup_cons] at ids
  constructor
  · exact h.ids
  · intro scope member
    rcases List.mem_cons.mp member with rfl | member
    · exact h.used t.current innermost
    · exact h.used scope (List.mem_cons_of_mem _ member)
  · intro s' member
    rcases List.mem_append.mp member with member | member
    · exact h.scopes s' member
    · rw [List.mem_singleton.mp member]
      exact h.used t.current innermost
  · intro scope member
    show _ = (t.all ++ [_]).filter _
    rw [List.filter_append]
    rcases List.mem_cons.mp member with rfl | member
    · show t.current.symbols ++ [_] = _
      have same : (t.add s).current.id = t.current.id := rfl
      rw [h.held t.current innermost, same]
      simp
    · have other : t.current.id ≠ scope.id := fun same => ids.1 (List.mem_map.mpr ⟨scope, member, same.symm⟩)
      rw [h.held scope (List.mem_cons_of_mem _ member)]
      simp [other]
  · show ((t.all ++ [_]).map _).Nodup
    rw [List.map_append, List.nodup_append]
    refine ⟨h.keys, by simp, fun key member key' member' same => ?_⟩
    obtain ⟨s', declared, rfl⟩ := List.mem_map.mp member
    rw [List.map_singleton, List.mem_singleton] at member'
    rw [member', Prod.mk.injEq] at same
    have found := (h.find?_eq_some_iff innermost).mpr ⟨declared, same.1, same.2⟩
    rw [free] at found
    cases found

theorem Numbered.step (h : t.Numbered) {op : ScopeOp} (stepped : t.step? op = some t') :
    t'.Numbered ∧ t.nextId ≤ t'.nextId ∧ t.all <+: t'.all := by
  rcases step_cases stepped with rfl | left | rfl | ⟨s, rfl, free, rfl⟩
  · exact ⟨h.enter, Nat.le_succ _, List.prefix_rfl⟩
  · obtain ⟨_, next, all⟩ := outer_of_exit? left
    rw [next, all]
    exact ⟨h.exit left, Nat.le_refl _, List.prefix_rfl⟩
  · exact ⟨h, Nat.le_refl _, List.prefix_rfl⟩
  · exact ⟨h.add free, Nat.le_refl _, List.prefix_append _ _⟩

theorem Numbered.run (h : t.Numbered) {ops : List ScopeOp} (ran : t.run? ops = some t') :
    t'.Numbered ∧ t.nextId ≤ t'.nextId ∧ t.all <+: t'.all := by
  refine run?_induction (P := fun t' => t'.Numbered ∧ t.nextId ≤ t'.nextId ∧ t.all <+: t'.all) ?_
    ⟨h, Nat.le_refl _, List.prefix_rfl⟩ ran
  intro t₁ op t₂ ⟨numbered, next, grown⟩ stepped
  obtain ⟨numbered', next', grown'⟩ := numbered.step stepped
  exact ⟨numbered', Nat.le_trans next next', grown.trans grown'⟩

/-- Operations between entering a scope and leaving it again leave the open scopes as they were. -/
theorem visible_balanced (t : Scopes) {body : List ScopeOp} (nested : ScopeOp.Nested body)
    (balanced : body.count .exit = body.count .enter) :
    ∃ t', t.run? (.enter :: body ++ [.exit]) = some t' ∧ t'.visible = t.visible := by
  obtain ⟨t₁, upper, ran, visible, count⟩ := run?_above body t.enter [{ id := t.nextId }] t.visible rfl
    fun before within => Nat.lt_succ_of_le (nested before within)
  obtain ⟨scope, rfl⟩ : ∃ scope, upper = [scope] := by
    apply List.length_eq_one_iff.mp
    simp only [List.length_singleton] at count
    omega
  obtain ⟨t', left, visible'⟩ := exit?_of_visible visible
  refine ⟨t', ?_, visible'⟩
  rw [List.cons_append, run?_cons, show t.step? .enter = some t.enter from rfl, Option.bind_some, run?_append, ran,
    Option.bind_some, run?_cons, show t₁.step? .exit = some t' from left]
  rfl

theorem resolve?_of_visible (same : t'.visible = t.visible) (name : Text) : t'.resolve? name = t.resolve? name := by
  show t'.visible.findSome? _ = t.visible.findSome? _
  rw [same]

/-- What a table and a stack of maps have in common after the same operations. -/
structure Follows (ops : List ScopeOp) (t : Scopes) (m : ScopeStack) : Prop where
  current : t.current.map = m.innermost
  depth : t.depth = m.around.length
  resolve : ∀ name, t.resolve? name = m.resolve? name
  /-- A declaration fails exactly where the innermost map holds the name, with what it holds. -/
  declare : ∀ s r, t.declare s = .error r ↔ r.name = s.name ∧ m.innermost.held s.name = some r.previous
  unchanged : ∀ s r, t.declare s = .error r → t.step? (.declare s) = some t
  /-- What is held was declared under the name and the number of the scope. -/
  held : ∀ scope ∈ t.visible, ∀ name s, scope.map.held name = some s ↔
    s ∈ t.all ∧ s.name = name ∧ s.scope = scope.id
  /-- The next scope gets a number that no scope had before. -/
  fresh : ∀ before after earlier, ops = before ++ after → initial.run? before = some earlier →
    ∀ scope ∈ earlier.visible, scope.id ≠ t.enter.current.id
  unique : (t.all.map fun s => (s.name, s.scope)).Nodup
  listed : t.all = m.declared ∧ t.all.head? = some .output
  /-- A scope that is entered and left again leaves no trace but its declarations in the list. -/
  restored : ∀ body, ScopeOp.Nested body → body.count .exit = body.count .enter →
    ∃ t', t.run? (.enter :: body ++ [.exit]) = some t' ∧ t'.current = t.current ∧ t'.depth = t.depth ∧
      ∀ name, t'.resolve? name = t.resolve? name

theorem declare_eq_error_iff (t : Scopes) (s : Symbol) (r : Redeclaration) :
    t.declare s = .error r ↔ r.name = s.name ∧ t.current.find? s.name = some r.previous := by
  rcases r with ⟨name, previous⟩
  cases found : t.current.find? s.name with
  | some held =>
    rw [(step?_declare_of_held found).1]
    simp [eq_comm]
  | none =>
    rw [(step?_declare_of_free found).1]
    simp

theorem follows_of_run {ops : List ScopeOp} (ran : initial.run? ops = some t) : Follows ops t t.stack := by
  obtain ⟨numbered, _, later, all⟩ := numbered_initial.run ran
  refine ⟨rfl, ?_, fun name => (resolve?_stack t name).symm, declare_eq_error_iff t, fun s r fails => ?_,
    fun scope member name s => numbered.find?_eq_some_iff member, fun before after earlier split ran₀ scope member => ?_,
    numbered.keys, ⟨rfl, ?_⟩, fun body nested balanced => ?_⟩
  · exact t.nested.trans (List.length_map _).symm
  · rw [step?, fails]
    rfl
  · obtain ⟨numbered₀, _⟩ := numbered_initial.run ran₀
    rw [split, run?_append, ran₀] at ran
    have below := numbered₀.used scope member
    have grown := (numbered₀.run ran).2.1
    show scope.id ≠ t.nextId
    omega
  · rw [← all]
    rfl
  · obtain ⟨t', back, visible⟩ := visible_balanced t nested balanced
    have parts := List.cons.inj visible
    have depth : t'.depth = t.depth := by rw [t'.nested, t.nested, parts.2]
    exact ⟨t', back, parts.1, depth, resolve?_of_visible visible⟩

/-- After any operations that do not leave the outermost scope, the table follows the stack of maps. -/
theorem follows_stack {ops : List ScopeOp} (nested : ScopeOp.Nested ops) :
    ∃ t m, initial.run? ops = some t ∧ ScopeStack.initial.run? ops = some m ∧ Follows ops t m := by
  obtain ⟨t, upper, ran, _⟩ := run?_above ops initial initial.visible [] rfl
    fun before within => Nat.lt_succ_of_le (nested before within)
  have same := stack_run? initial ops
  rw [ran, stack_initial] at same
  exact ⟨t, t.stack, ran, same.symm, follows_of_run ran⟩

def shadowing : List ScopeOp :=
  let x : Symbol := { name := "x", kind := .var, type := .int }
  [.declare x, .enter, .declare { x with kind := .array }, .exit, .declare x, .enter]

theorem follows_stack_shadowing :
    ScopeOp.Nested shadowing ∧
      ∃ t m, initial.run? shadowing = some t ∧ ScopeStack.initial.run? shadowing = some m ∧ Follows shadowing t m :=
  ⟨by decide, follows_stack (by decide)⟩

end Scopes

end MiniC
