import Mathlib.Algebra.Order.Ring.Int
import MiniC.Grammar.Ast

namespace MiniC

def functionNames (decls : List Decl) : List Text :=
  decls.flatMap fun
    | .fn f => [f.id.name]
    | .var _ => []

def Source.functionNames (s : Source) : List Text :=
  MiniC.functionNames s.decls

@[elab_as_elim]
theorem Expr.induction {motive : Expr → Prop}
    (missing : motive .missing)
    (number : ∀ n, motive (.number n))
    (name : ∀ id, motive (.name id))
    (index : ∀ array e, motive e → motive (.index array e))
    (call : ∀ callee args, (∀ e ∈ args, motive e) → motive (.call callee args))
    (unary : ∀ op line e, motive e → motive (.unary op line e))
    (binary : ∀ op line left right, motive left → motive right → motive (.binary op line left right))
    (assign : ∀ line target value, motive target → motive value → motive (.assign line target value))
    (e : Expr) : motive e := by
  refine @Expr.rec motive (fun es => ∀ e ∈ es, motive e) missing number name index call unary binary assign
    ?_ ?_ e
  · intro e member
    cases member
  · intro first rest head tail e member
    rcases List.mem_cons.mp member with rfl | member
    · exact head
    · exact tail e member

@[elab_as_elim]
theorem Stmt.induction {motive : Stmt → Prop}
    (skipped : motive .skipped)
    (empty : motive .empty)
    (expr : ∀ e, motive (.expr e))
    (block : ∀ vars body, (∀ s ∈ body, motive s) → motive (.block vars body))
    (ifThen : ∀ line e body, motive body → motive (.ifThen line e body))
    (ifElse : ∀ line e body orElse, motive body → motive orElse → motive (.ifElse line e body orElse))
    (loop : ∀ line e body, motive body → motive (.loop line e body))
    (ret : ∀ line value, motive (.ret line value))
    (leave : ∀ line, motive (.leave line))
    (again : ∀ line, motive (.again line))
    (s : Stmt) : motive s := by
  refine @Stmt.rec motive (fun body => ∀ s ∈ body, motive s) skipped empty expr block ifThen ifElse loop ret
    leave again ?_ ?_ s
  · intro s member
    cases member
  · intro first rest head tail s member
    rcases List.mem_cons.mp member with rfl | member
    · exact head
    · exact tail s member

mutual

def Expr.weight : Expr → Nat
  | .missing => 0
  | .number _ | .name _ => 1
  | .index _ e | .unary _ _ e => 1 + e.weight
  | .call _ args => 1 + Expr.weights args
  | .binary _ _ left right => 1 + left.weight + right.weight
  | .assign _ target value => 1 + target.weight + value.weight

def Expr.weights : List Expr → Nat
  | [] => 0
  | e :: rest => 1 + e.weight + Expr.weights rest

end

mutual

def Stmt.weight : Stmt → Nat
  | .skipped | .empty => 0
  | .expr e => e.weight
  | .block _ body => Stmt.weights body
  | .ifThen _ e body | .loop _ e body => 1 + e.weight + body.weight
  | .ifElse _ e body orElse => 2 + e.weight + body.weight + orElse.weight
  | .ret _ none | .leave _ | .again _ => 1
  | .ret _ (some e) => 1 + e.weight

def Stmt.weights : List Stmt → Nat
  | [] => 0
  | s :: rest => s.weight + Stmt.weights rest

end

def Decl.weight : Decl → Nat
  | .var _ => 0
  | .fn f => 1 + Stmt.weights f.body

def Source.weight (s : Source) : Nat :=
  (s.decls.map Decl.weight).sum

mutual

def Expr.Complete : Expr → Prop
  | .missing => False
  | .number _ | .name _ => True
  | .index _ e | .unary _ _ e => e.Complete
  | .call _ args => Expr.AllComplete args
  | .binary _ _ left right => left.Complete ∧ right.Complete
  | .assign _ target value => target.Complete ∧ value.Complete

def Expr.AllComplete : List Expr → Prop
  | [] => True
  | e :: rest => e.Complete ∧ Expr.AllComplete rest

end

theorem Expr.AllComplete.of_mem {args : List Expr} (h : Expr.AllComplete args) {e : Expr} (member : e ∈ args) :
    e.Complete := by
  induction args with
  | nil => cases member
  | cons first rest ih =>
    rcases List.mem_cons.mp member with rfl | member
    · exact h.1
    · exact ih h.2 member

def VarDecl.Complete (d : VarDecl) : Prop :=
  d.extent ≠ .array none

mutual

def Stmt.Complete : Stmt → Prop
  | .skipped => False
  | .empty | .ret _ none | .leave _ | .again _ => True
  | .expr e | .ret _ (some e) => e.Complete
  | .block vars body => (∀ d ∈ vars, d.Complete) ∧ Stmt.AllComplete body
  | .ifThen _ e body | .loop _ e body => e.Complete ∧ body.Complete
  | .ifElse _ e body orElse => e.Complete ∧ body.Complete ∧ orElse.Complete

def Stmt.AllComplete : List Stmt → Prop
  | [] => True
  | s :: rest => s.Complete ∧ Stmt.AllComplete rest

end

theorem Stmt.AllComplete.of_mem {body : List Stmt} (h : Stmt.AllComplete body) {s : Stmt} (member : s ∈ body) :
    s.Complete := by
  induction body with
  | nil => cases member
  | cons first rest ih =>
    rcases List.mem_cons.mp member with rfl | member
    · exact h.1
    · exact ih h.2 member

def Param.Complete : Param → Prop
  | .unnamed _ => False
  | .named _ _ _ => True

structure FunDecl.Complete (f : FunDecl) : Prop where
  params : ∀ p ∈ f.params.toList, p.Complete
  vars : ∀ d ∈ f.vars, d.Complete
  body : Stmt.AllComplete f.body

def Decl.Complete : Decl → Prop
  | .var d => d.Complete
  | .fn f => f.Complete

/-- Whether a source has no gaps, as one without syntax errors has none. -/
def Source.Complete (s : Source) : Prop :=
  ∀ d ∈ s.decls, d.Complete

end MiniC
