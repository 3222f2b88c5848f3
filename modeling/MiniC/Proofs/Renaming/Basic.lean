import MiniC.Grammar.Tree
import MiniC.Proofs.Syntax
import MiniC.Token.Scan

namespace MiniC

variable (ρ : Text → Text)

def Terminal.rename : Terminal → Terminal
  | .ident name => .ident (ρ name)
  | t => t

def Token.rename (t : Token) : Token :=
  { t with terminal := t.terminal.rename ρ }

def TokenStream.rename (s : TokenStream) : TokenStream :=
  { s with tokens := s.tokens.map (Token.rename ρ) }

def Ident.rename (id : Ident) : Ident :=
  { id with name := ρ id.name }

mutual

def Expr.rename : Expr → Expr
  | .missing => .missing
  | .number n => .number n
  | .name id => .name (id.rename ρ)
  | .index array e => .index (array.rename ρ) e.rename
  | .call callee args => .call (callee.rename ρ) (Expr.renameAll args)
  | .unary op line e => .unary op line e.rename
  | .binary op line left right => .binary op line left.rename right.rename
  | .assign line target value => .assign line target.rename value.rename

def Expr.renameAll : List Expr → List Expr
  | [] => []
  | e :: rest => e.rename :: Expr.renameAll rest

end

def VarDecl.rename (d : VarDecl) : VarDecl :=
  { d with id := d.id.rename ρ }

mutual

def Stmt.rename : Stmt → Stmt
  | .skipped => .skipped
  | .empty => .empty
  | .expr e => .expr (e.rename ρ)
  | .block vars body => .block (vars.map (VarDecl.rename ρ)) (Stmt.renameAll body)
  | .ifThen line e body => .ifThen line (e.rename ρ) body.rename
  | .ifElse line e body orElse => .ifElse line (e.rename ρ) body.rename orElse.rename
  | .loop line e body => .loop line (e.rename ρ) body.rename
  | .ret line value => .ret line (value.map (Expr.rename ρ))
  | .leave line => .leave line
  | .again line => .again line

def Stmt.renameAll : List Stmt → List Stmt
  | [] => []
  | s :: rest => s.rename :: Stmt.renameAll rest

end

def Param.rename : Param → Param
  | .unnamed type => .unnamed type
  | .named type id isArray => .named type (id.rename ρ) isArray

def Params.rename : Params → Params
  | .void => .void
  | .list params => .list (params.map (Param.rename ρ))

def FunDecl.rename (f : FunDecl) : FunDecl where
  type := f.type
  id := f.id.rename ρ
  params := f.params.rename ρ
  vars := f.vars.map (VarDecl.rename ρ)
  body := Stmt.renameAll ρ f.body

def Decl.rename : Decl → Decl
  | .var d => .var (d.rename ρ)
  | .fn f => .fn (f.rename ρ)

def Source.rename (s : Source) : Source :=
  { s with decls := s.decls.map (Decl.rename ρ) }

def Lexeme.rename (l : Lexeme) : Lexeme :=
  if l.kind = .ident then { l with text := ρ l.text } else l

mutual

def Tree.rename : Tree → Tree
  | .leaf lexeme => .leaf (lexeme.rename ρ)
  | .node label children => .node label (Tree.renameAll children)

def Tree.renameAll : List Tree → List Tree
  | [] => []
  | t :: rest => t.rename :: Tree.renameAll rest

end

variable {ρ}

theorem Tree.renameAll_eq (ts : List Tree) : Tree.renameAll ρ ts = ts.map (Tree.rename ρ) := by
  induction ts with
  | nil => rfl
  | cons t rest ih => rw [renameAll, ih, List.map_cons]

theorem Ident.leaf_rename (id : Ident) : (id.rename ρ).leaf = id.leaf.rename ρ := rfl

theorem TypeName.leaf_rename (t : TypeName) : t.leaf.rename ρ = t.leaf := rfl

theorem Punct.leaf_rename (p : Punct) : (Tree.leaf p.shown).rename ρ = .leaf p.shown := rfl

theorem Numeral.leaf_rename (n : Numeral) : (Tree.leaf n.shown).rename ρ = .leaf n.shown := rfl

theorem Tree.rename_node (label : Text) (children : List Tree) :
    (Tree.node label children).rename ρ = .node label (children.map (Tree.rename ρ)) := by
  rw [Tree.rename, Tree.renameAll_eq]

theorem Expr.trees_rename {args : List Expr} (each : ∀ e ∈ args, (e.rename ρ).tree? = e.tree?.map (Tree.rename ρ)) :
    Expr.trees (Expr.renameAll ρ args) = (Expr.trees args).map (Tree.rename ρ) := by
  induction args with
  | nil => rfl
  | cons e rest ih =>
    rw [renameAll, trees, trees, each e (by simp), ih fun e member => each e (by simp [member]), List.map_append,
      Option.toList_map]

theorem Expr.tree?_rename (e : Expr) : (e.rename ρ).tree? = e.tree?.map (Tree.rename ρ) := by
  induction e using Expr.induction with
  | missing => rfl
  | number n => rfl
  | name id => rfl
  | index array e ih => simp [rename, tree?, ih, Tree.rename_node, Option.toList_map, Ident.leaf_rename]
  | call callee args ih => simp [rename, tree?, Expr.trees_rename ih, Tree.rename_node, Ident.leaf_rename]
  | unary op line e ih => simp [rename, tree?, ih, Tree.rename_node, Option.toList_map, Punct.leaf_rename]
  | binary op line left right ih ih' =>
    simp [rename, tree?, ih, ih', Tree.rename_node, Option.toList_map, Punct.leaf_rename]
  | assign line target value ih ih' =>
    simp [rename, tree?, ih, ih', Tree.rename_node, Option.toList_map]

theorem VarDecl.tree_rename (d : VarDecl) : (d.rename ρ).tree = d.tree.rename ρ := by
  rcases d with ⟨type, id, extent⟩
  rcases extent with _ | _ | n <;> rfl

theorem VarDecl.map_tree_rename (vars : List VarDecl) :
    (vars.map (VarDecl.rename ρ)).map VarDecl.tree = (vars.map VarDecl.tree).map (Tree.rename ρ) := by
  simp [VarDecl.tree_rename]

theorem Stmt.trees_rename {body : List Stmt} (each : ∀ s ∈ body, (s.rename ρ).tree? = s.tree?.map (Tree.rename ρ)) :
    Stmt.trees (Stmt.renameAll ρ body) = (Stmt.trees body).map (Tree.rename ρ) := by
  induction body with
  | nil => rfl
  | cons s rest ih =>
    rw [renameAll, trees, trees, each s (by simp), ih fun s member => each s (by simp [member]), List.map_append,
      Option.toList_map]

theorem Stmt.tree?_rename (s : Stmt) : (s.rename ρ).tree? = s.tree?.map (Tree.rename ρ) := by
  induction s using Stmt.induction with
  | skipped => rfl
  | empty => rfl
  | expr e => simp [rename, tree?, Expr.tree?_rename, Tree.rename_node, Option.toList_map]
  | block vars body ih =>
    simp only [rename, tree?, VarDecl.map_tree_rename, Stmt.trees_rename ih, Option.map_some, Tree.rename_node,
      List.map_append]
  | ifThen line e body ih | loop line e body ih =>
    simp [rename, tree?, ih, Expr.tree?_rename, Tree.rename_node, Option.toList_map]
  | ifElse line e body orElse ih ih' =>
    simp [rename, tree?, ih, ih', Expr.tree?_rename, Tree.rename_node, Option.toList_map]
  | ret line value =>
    rcases value with _ | e
    · rfl
    · simp [rename, tree?, Expr.tree?_rename, Tree.rename_node, Option.toList_map]
  | leave line => rfl
  | again line => rfl

theorem Param.tree_rename (p : Param) : (p.rename ρ).tree = p.tree.rename ρ := by
  rcases p with type | ⟨type, id, _ | _⟩ <;> rfl

theorem Params.tree_rename (ps : Params) : (ps.rename ρ).tree = ps.tree.rename ρ := by
  cases ps with
  | void => rfl
  | list params => simp [rename, tree, Tree.rename_node, Param.tree_rename]

theorem Decl.tree_rename (d : Decl) : (d.rename ρ).tree = d.tree.rename ρ := by
  cases d with
  | var d => exact VarDecl.tree_rename d
  | fn f =>
    simp only [rename, tree, FunDecl.tree, FunDecl.rename, Tree.rename_node, List.map_cons, List.map_nil, List.map_append,
      VarDecl.map_tree_rename, Stmt.trees_rename fun s _ => Stmt.tree?_rename s, Params.tree_rename, Ident.leaf_rename,
      TypeName.leaf_rename]

theorem Source.tree_rename (s : Source) : (s.rename ρ).tree = s.tree.rename ρ := by
  simp [rename, tree, Tree.rename_node, Decl.tree_rename]

end MiniC
