import Mathlib.Data.List.Forall2
import MiniC.Grammar.Tree
import MiniC.Proofs.Syntax

namespace MiniC

structure Mark where
  terminal : Terminal
  line : Option Nat
deriving DecidableEq, Repr

namespace Mark

def lexeme (m : Mark) : Lexeme :=
  m.terminal.lexeme

def Fits (m : Mark) (t : Token) : Prop :=
  t.terminal = m.terminal ∧ ∀ line ∈ m.line, t.line = line

theorem map_lexeme_eq {ms : List Mark} {ts : List Token} (fits : List.Forall₂ Fits ms ts) :
    ms.map lexeme = ts.map Token.lexeme := by
  induction fits with
  | nil => rfl
  | cons fit _ ih => rw [List.map_cons, List.map_cons, ih, lexeme, Token.lexeme, fit.1]

theorem lexeme_ne_brackets (m : Mark) : m.lexeme ≠ Param.brackets := by
  rcases m with ⟨terminal, line⟩
  cases terminal with
  | punct p =>
    show p.shown ≠ Param.brackets
    cases p <;> decide
  | keyword | ident | number | eof =>
    intro same
    cases congrArg Lexeme.kind same

theorem forall₂_append_iff {front back : List Mark} {ts : List Token} :
    List.Forall₂ Fits (front ++ back) ts ↔
      ∃ us vs, ts = us ++ vs ∧ List.Forall₂ Fits front us ∧ List.Forall₂ Fits back vs := by
  constructor
  · intro fits
    refine ⟨ts.take front.length, ts.drop front.length, (List.take_append_drop _ _).symm, ?_, ?_⟩
    · simpa using List.forall₂_take front.length fits
    · simpa using List.forall₂_drop front.length fits
  · rintro ⟨us, vs, rfl, first, second⟩
    exact List.rel_append first second

end Mark

def TypeName.mark (t : TypeName) : Mark :=
  ⟨.keyword t.keyword, none⟩

def Ident.mark (id : Ident) : Mark :=
  ⟨.ident id.name, some id.line⟩

def Numeral.mark (n : Numeral) : Mark :=
  ⟨.number n, none⟩

def Punct.mark (p : Punct) (line : Option Nat) : Mark :=
  ⟨.punct p, line⟩

mutual

def Expr.marks : Expr → List Mark
  | .missing => []
  | .number n => [n.mark]
  | .name id => [id.mark]
  | .index array subscript => array.mark :: subscript.marks
  | .call callee args => callee.mark :: Expr.marksAll args
  | .unary op line operand => op.punct.mark line :: operand.marks
  | .binary op line left right => left.marks ++ op.punct.mark line :: right.marks
  | .assign _ target value => target.marks ++ value.marks

def Expr.marksAll : List Expr → List Mark
  | [] => []
  | e :: rest => e.marks ++ Expr.marksAll rest

end

def Extent.marks : Extent → List Mark
  | .scalar => []
  | .array size => size.toList.map Numeral.mark

def VarDecl.marks (d : VarDecl) : List Mark :=
  d.type.mark :: d.id.mark :: d.extent.marks

mutual

def Stmt.marks : Stmt → List Mark
  | .skipped | .empty | .leave _ | .again _ | .ret _ none => []
  | .expr e | .ret _ (some e) => e.marks
  | .block vars body => vars.flatMap VarDecl.marks ++ Stmt.marksAll body
  | .ifThen _ condition body | .loop _ condition body => condition.marks ++ body.marks
  | .ifElse _ condition body orElse => condition.marks ++ body.marks ++ orElse.marks

def Stmt.marksAll : List Stmt → List Mark
  | [] => []
  | s :: rest => s.marks ++ Stmt.marksAll rest

end

def Param.marks : Param → List Mark
  | .unnamed type => [type.mark]
  | .named type id _ => [type.mark, id.mark]

def Params.marks : Params → List Mark
  | .void => [TypeName.void.mark]
  | .list params => params.flatMap Param.marks

def Decl.marks : Decl → List Mark
  | .var d => d.marks
  | .fn f =>
    f.type.mark :: f.id.mark :: (f.params.marks ++ (f.vars.flatMap VarDecl.marks ++ Stmt.marksAll f.body))

def Source.marks (s : Source) : List Mark :=
  s.decls.flatMap Decl.marks

mutual

def Tree.leaves : Tree → List Lexeme
  | .leaf lexeme => [lexeme]
  | .node _ children => Tree.leavesAll children

def Tree.leavesAll : List Tree → List Lexeme
  | [] => []
  | child :: rest => child.leaves ++ Tree.leavesAll rest

end

namespace Tree

theorem leavesAll_append (front back : List Tree) : leavesAll (front ++ back) = leavesAll front ++ leavesAll back := by
  induction front with
  | nil => rfl
  | cons child rest ih => rw [List.cons_append, leavesAll, ih, leavesAll, List.append_assoc]

def shown (t : Tree) : List Lexeme :=
  t.leaves.filter (· ≠ Param.brackets)

def shownAll (ts : List Tree) : List Lexeme :=
  (leavesAll ts).filter (· ≠ Param.brackets)

@[simp]
theorem shown_node (label : Text) (children : List Tree) : (node label children).shown = shownAll children := rfl

@[simp]
theorem shownAll_nil : shownAll [] = [] := rfl

@[simp]
theorem shownAll_cons (child : Tree) (rest : List Tree) : shownAll (child :: rest) = child.shown ++ shownAll rest :=
  List.filter_append ..

@[simp]
theorem shownAll_append (front back : List Tree) : shownAll (front ++ back) = shownAll front ++ shownAll back := by
  rw [shownAll, leavesAll_append, List.filter_append]
  rfl

theorem shown_leaf (m : Mark) : (leaf m.lexeme).shown = [m.lexeme] :=
  List.filter_eq_self.mpr (by simpa [leaves] using m.lexeme_ne_brackets)

theorem shownAll_map {α : Type} {tree : α → Tree} {marks : α → List Mark} {parts : List α}
    (each : ∀ a ∈ parts, (tree a).shown = (marks a).map Mark.lexeme) :
    shownAll (parts.map tree) = (parts.flatMap marks).map Mark.lexeme := by
  induction parts with
  | nil => rfl
  | cons a rest ih =>
    rw [List.map_cons, shownAll_cons, each a List.mem_cons_self, ih fun a member => each a (List.mem_cons_of_mem _ member),
      List.flatMap_cons, List.map_append]

end Tree

section Trees

open MiniC.Tree

@[simp]
theorem TypeName.shown_leaf (t : TypeName) : t.leaf.shown = [t.mark.lexeme] :=
  Tree.shown_leaf t.mark

@[simp]
theorem Ident.shown_leaf (id : Ident) : id.leaf.shown = [id.mark.lexeme] :=
  Tree.shown_leaf id.mark

@[simp]
theorem Numeral.shown_leaf (n : Numeral) : (leaf n.shown).shown = [n.mark.lexeme] :=
  Tree.shown_leaf n.mark

theorem Punct.shown_leaf (p : Punct) (line : Option Nat) : (leaf p.shown).shown = [(p.mark line).lexeme] :=
  Tree.shown_leaf (p.mark line)

theorem Expr.shown_trees {args : List Expr} (each : ∀ e ∈ args, shownAll e.tree?.toList = e.marks.map Mark.lexeme) :
    shownAll (Expr.trees args) = (Expr.marksAll args).map Mark.lexeme := by
  induction args with
  | nil => rfl
  | cons e rest ih =>
    rw [Expr.trees, shownAll_append, each e List.mem_cons_self, ih fun e member => each e (List.mem_cons_of_mem _ member),
      Expr.marksAll, List.map_append]

theorem Expr.shown_tree? (e : Expr) : shownAll e.tree?.toList = e.marks.map Mark.lexeme := by
  induction e using Expr.induction with
  | missing => rfl
  | number n => simp [Expr.tree?, Expr.marks]
  | name id => simp [Expr.tree?, Expr.marks]
  | index array e ih => simp [Expr.tree?, Expr.marks, ih]
  | call callee args ih => simp [Expr.tree?, Expr.marks, Expr.shown_trees ih]
  | unary op line e ih => simp [Expr.tree?, Expr.marks, Punct.shown_leaf _ (some line), ih]
  | binary op line left right ihl ihr => simp [Expr.tree?, Expr.marks, Punct.shown_leaf _ (some line), ihl, ihr]
  | assign line target value iht ihv => simp [Expr.tree?, Expr.marks, iht, ihv]

theorem VarDecl.shown_tree (d : VarDecl) : d.tree.shown = d.marks.map Mark.lexeme := by
  rcases d with ⟨type, id, extent⟩
  rcases extent with _ | (_ | n) <;> simp [VarDecl.tree, VarDecl.marks, Extent.marks]

theorem Stmt.shown_trees {body : List Stmt} (each : ∀ s ∈ body, shownAll s.tree?.toList = s.marks.map Mark.lexeme) :
    shownAll (Stmt.trees body) = (Stmt.marksAll body).map Mark.lexeme := by
  induction body with
  | nil => rfl
  | cons s rest ih =>
    rw [Stmt.trees, shownAll_append, each s List.mem_cons_self, ih fun s member => each s (List.mem_cons_of_mem _ member),
      Stmt.marksAll, List.map_append]

theorem Stmt.shown_tree? (s : Stmt) : shownAll s.tree?.toList = s.marks.map Mark.lexeme := by
  induction s using Stmt.induction with
  | skipped | empty | leave | again => rfl
  | expr e => simp [Stmt.tree?, Stmt.marks, Expr.shown_tree?]
  | block vars body ih =>
    simp [Stmt.tree?, Stmt.marks, Stmt.shown_trees ih, shownAll_map fun d _ => VarDecl.shown_tree d]
  | ifThen line e body ih => simp [Stmt.tree?, Stmt.marks, Expr.shown_tree?, ih]
  | ifElse line e body orElse ih ih' => simp [Stmt.tree?, Stmt.marks, Expr.shown_tree?, ih, ih']
  | loop line e body ih => simp [Stmt.tree?, Stmt.marks, Expr.shown_tree?, ih]
  | ret line value =>
    cases value with
    | none => rfl
    | some e => simp [Stmt.tree?, Stmt.marks, Expr.shown_tree?]

theorem Param.shown_tree (p : Param) : p.tree.shown = p.marks.map Mark.lexeme := by
  rcases p with type | ⟨type, id, _ | _⟩
  · simp [Param.tree, Param.marks]
  · simp [Param.tree, Param.marks]
  · have brackets : (leaf Param.brackets).shown = [] := rfl
    simp [Param.tree, Param.marks, brackets]

theorem Params.shown_tree (ps : Params) : ps.tree.shown = ps.marks.map Mark.lexeme := by
  cases ps with
  | void => simp [Params.tree, Params.marks]
  | list params => simp [Params.tree, Params.marks, shownAll_map fun p _ => Param.shown_tree p]

theorem Decl.shown_tree (d : Decl) : d.tree.shown = d.marks.map Mark.lexeme := by
  cases d with
  | var d => exact d.shown_tree
  | fn f =>
    simp [Decl.tree, FunDecl.tree, Decl.marks, Params.shown_tree, shownAll_map fun d _ => VarDecl.shown_tree d,
      Stmt.shown_trees fun s _ => Stmt.shown_tree? s]

theorem Source.shown_tree (s : Source) : s.tree.shown = s.marks.map Mark.lexeme :=
  shownAll_map fun d _ => d.shown_tree

end Trees

end MiniC
