import MiniC.Grammar.Ast
import MiniC.Text.Quoted

namespace MiniC

inductive Tree where
  | leaf (lexeme : Lexeme)
  | node (label : Text) (children : List Tree)
deriving Repr

mutual

/-- The s-expression of a tree: a node is a list headed by its label, an integer stands as it is
    written, and every other leaf is quoted. -/
def Tree.toSExpr : Tree → Text
  | .leaf lexeme =>
    if lexeme.kind = .number ∧ lexeme.real = false then lexeme.text else Text.quote lexeme.text
  | .node label children => "(" ++ label ++ Tree.itemsToSExpr children ++ ")"

def Tree.itemsToSExpr : List Tree → Text
  | [] => []
  | child :: rest => " " ++ child.toSExpr ++ Tree.itemsToSExpr rest

end

namespace Tree

def optionToSExpr : Option Tree → Text
  | none => "()"
  | some tree => tree.toSExpr

def title : Tree → Text
  | leaf lexeme => lexeme.render
  | node label _ => label

end Tree

mutual

/-- A drawing with one row for each node. `head` stands before the title of the tree and
    `margin` before every row below it. -/
def Tree.draw (head margin : Text) : Tree → Text
  | .leaf lexeme => head ++ lexeme.render ++ "\n"
  | .node label children => head ++ label ++ "\n" ++ Tree.drawAll margin children

def Tree.drawAll (margin : Text) : List Tree → Text
  | [] => []
  | [last] => last.draw (margin ++ "└── ") (margin ++ "    ")
  | child :: next :: rest =>
    child.draw (margin ++ "├── ") (margin ++ "│   ") ++ Tree.drawAll margin (next :: rest)

end

namespace Tree

def render (tree : Tree) : Text :=
  tree.draw [] []

end Tree

namespace TypeName

def keyword : TypeName → Keyword
  | int => .int
  | void => .void

def leaf (t : TypeName) : Tree :=
  .leaf t.keyword.shown

end TypeName

def Ident.leaf (id : Ident) : Tree :=
  .leaf (Terminal.ident id.name).lexeme

mutual

def Expr.tree? : Expr → Option Tree
  | .missing => none
  | .number n => some (.leaf n.shown)
  | .name id => some id.leaf
  | .index array subscript => some (.node "index" (array.leaf :: subscript.tree?.toList))
  | .call callee args => some (.node "call" [callee.leaf, .node "args" (Expr.trees args)])
  | .unary op _ operand => some (.node "unary" (.leaf op.punct.shown :: operand.tree?.toList))
  | .binary op _ left right =>
    some (.node "binary" (left.tree?.toList ++ .leaf op.punct.shown :: right.tree?.toList))
  | .assign _ target value =>
    some (.node "assign" (target.tree?.toList ++ value.tree?.toList))

def Expr.trees : List Expr → List Tree
  | [] => []
  | e :: rest => e.tree?.toList ++ Expr.trees rest

end

def VarDecl.tree (d : VarDecl) : Tree :=
  let size :=
    match d.extent with
    | .array (some n) => [.leaf n.shown]
    | _ => []
  .node "var-declaration" (d.type.leaf :: d.id.leaf :: size)

mutual

def Stmt.tree? : Stmt → Option Tree
  | .skipped => none
  | .empty => some (.node "expression-stmt" [])
  | .expr e => some (.node "expression-stmt" e.tree?.toList)
  | .block vars body => some (.node "compound-stmt" (vars.map VarDecl.tree ++ Stmt.trees body))
  | .ifThen _ condition body =>
    some (.node "selection-stmt" (condition.tree?.toList ++ body.tree?.toList))
  | .ifElse _ condition body orElse =>
    some (.node "selection-stmt"
      (condition.tree?.toList ++ body.tree?.toList ++ orElse.tree?.toList))
  | .loop _ condition body =>
    some (.node "iteration-stmt" (condition.tree?.toList ++ body.tree?.toList))
  | .ret _ value => some (.node "return-stmt" (value.bind Expr.tree?).toList)
  | .leave _ => some (.node "break-stmt" [])
  | .again _ => some (.node "continue-stmt" [])

def Stmt.trees : List Stmt → List Tree
  | [] => []
  | s :: rest => s.tree?.toList ++ Stmt.trees rest

end

namespace Param

def brackets : Lexeme :=
  ⟨.punct, "[]", false⟩

def tree : Param → Tree
  | unnamed type => .node "param" [type.leaf]
  | named type id isArray =>
    .node "param" (type.leaf :: id.leaf :: if isArray then [.leaf brackets] else [])

end Param

def Params.tree : Params → Tree
  | .void => .node "params" [TypeName.void.leaf]
  | .list params => .node "params" (params.map Param.tree)

def FunDecl.tree (f : FunDecl) : Tree :=
  .node "fun-declaration" [f.type.leaf, f.id.leaf, f.params.tree,
    .node "compound-stmt" (f.vars.map VarDecl.tree ++ Stmt.trees f.body)]

def Decl.tree : Decl → Tree
  | .var d => d.tree
  | .fn f => f.tree

def Source.tree (s : Source) : Tree :=
  .node "program" (s.decls.map Decl.tree)

end MiniC
