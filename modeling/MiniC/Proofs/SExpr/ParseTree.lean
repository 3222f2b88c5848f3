import MiniC.Proofs.Compilation
import MiniC.Proofs.Lexing.Segments
import MiniC.Proofs.Parsing.Leaves
import MiniC.Proofs.SExpr.Reading

namespace MiniC

namespace Text

def isVerbatim (c : UInt8) : Bool :=
  isGraphic c && c ≠ '"'.toUInt8 && c ≠ '\\'.toUInt8

theorem verbatim_alone : ∀ c, isVerbatim c = true →
    c ≠ '\\'.toUInt8 ∧ c ≠ '"'.toUInt8 ∧ Utf8.width? c = some 1 ∧ escapeCode '"' c.toNat = [c] :=
  forall_byte (by decide +kernel)

theorem escape_eq_self {t : Text} (verbatim : ∀ c ∈ t, isVerbatim c = true) : escape '"' t = t := by
  induction t with
  | nil => rw [escape]
  | cons c rest ih =>
    obtain ⟨_, _, width, shown⟩ := verbatim_alone c (verbatim c List.mem_cons_self)
    have decoded : Utf8.decode? (c :: rest) = some (c.toNat, 1) := by
      rw [Utf8.decode?, width]
      rfl
    have later := ih fun b member => verbatim b (List.mem_cons_of_mem c member)
    rw [escape]
    split
    · rename_i code width' found
      rw [decoded] at found
      cases found
      rw [shown]
      exact congrArg (List.cons c) later
    · rename_i found
      rw [decoded] at found
      cases found

end Text

theorem SExpr.escape_eq_self {t : Text} (verbatim : ∀ c ∈ t, Text.isVerbatim c = true) : SExpr.escape t = t := by
  induction t with
  | nil => rfl
  | cons c rest ih =>
    obtain ⟨mark, quote, _⟩ := Text.verbatim_alone c (verbatim c List.mem_cons_self)
    have later := ih fun b member => verbatim b (List.mem_cons_of_mem c member)
    rw [SExpr.escape_cons, if_neg (by simp [mark, quote]), later]
    rfl

mutual

/-- The datum that a tree stands for: integers, and strings for the other leaves, in lists that start with
    the label of their node. -/
def Tree.image : Tree → SExpr
  | .leaf lexeme =>
    if lexeme.kind = .number ∧ lexeme.real = false then .integer lexeme.text else .string lexeme.text
  | .node label children => .list (.symbol label :: Tree.images children)

def Tree.images : List Tree → List SExpr
  | [] => []
  | child :: rest => child.image :: Tree.images rest

end

/-- Whether a token is written the same by both printers, and read again. -/
def Lexeme.Legible (l : Lexeme) : Prop :=
  if l.kind = .number ∧ l.real = false then SExpr.IntegerText l.text else ∀ c ∈ l.text, Text.isVerbatim c = true

namespace Tree

def productions : List Text :=
  ["program", "var-declaration", "fun-declaration", "params", "param", "compound-stmt", "expression-stmt",
    "selection-stmt", "iteration-stmt", "return-stmt", "break-stmt", "continue-stmt", "assign", "binary", "unary",
    "index", "call", "args"]

inductive Labelled : Tree → Prop where
  | leaf (l : Lexeme) : Labelled (.leaf l)
  | node {label : Text} {children : List Tree} : label ∈ productions → (∀ t ∈ children, Labelled t) →
      Labelled (.node label children)

theorem symbolText_of_mem {label : Text} (member : label ∈ productions) : SExpr.SymbolText label := by
  have known : ∀ label ∈ productions, label.head?.any SExpr.isLetter = true ∧ label.all SExpr.isSymbolByte = true := by
    decide
  obtain ⟨letter, bytes⟩ := known label member
  cases label with
  | nil => cases letter
  | cons c rest =>
    refine .name letter fun b member => ?_
    exact List.all_eq_true.mp bytes b (List.mem_cons_of_mem c member)

theorem mem_leavesAll {children : List Tree} {child : Tree} (member : child ∈ children) {l : Lexeme}
    (leaf : l ∈ child.leaves) : l ∈ leavesAll children := by
  induction children with
  | nil => cases member
  | cons first rest ih =>
    rw [leavesAll, List.mem_append]
    rcases List.mem_cons.mp member with rfl | member
    · exact .inl leaf
    · exact .inr (ih member)

theorem mem_images {children : List Tree} {n : SExpr} (member : n ∈ images children) :
    ∃ child ∈ children, n = child.image := by
  induction children with
  | nil => cases member
  | cons first rest ih =>
    rw [images, List.mem_cons] at member
    rcases member with rfl | member
    · exact ⟨first, List.mem_cons_self, rfl⟩
    · obtain ⟨child, behind, same⟩ := ih member
      exact ⟨child, List.mem_cons_of_mem first behind, same⟩

theorem itemsToSExpr_eq {children : List Tree} (each : ∀ t ∈ children, t.toSExpr = t.image.render) :
    itemsToSExpr children = SExpr.gap (images children) ++ SExpr.renderItems (images children) := by
  induction children with
  | nil => rfl
  | cons child rest ih =>
    rw [itemsToSExpr, images, SExpr.renderItems_cons, each child List.mem_cons_self,
      ih fun t member => each t (List.mem_cons_of_mem child member), List.append_assoc]
    rfl

/-- A tree with known labels and legible leaves is written as its image, which is well formed. -/
theorem Labelled.toSExpr_eq {t : Tree} (labelled : t.Labelled) (legible : ∀ l ∈ t.leaves, l.Legible) :
    t.toSExpr = t.image.render ∧ t.image.WellFormed := by
  induction labelled with
  | leaf l =>
    have legible := legible l (List.mem_singleton_self l)
    unfold Lexeme.Legible at legible
    rw [toSExpr, image]
    split
    · rename_i number
      rw [if_pos number] at legible
      exact ⟨by rw [SExpr.render], .integer legible⟩
    · rename_i other
      rw [if_neg other] at legible
      refine ⟨?_, .string _⟩
      rw [SExpr.render, Text.quote, Text.escape_eq_self legible, SExpr.escape_eq_self legible]
  | node known _ ih =>
    have each := fun t member => ih t member fun l leaf => legible l (mem_leavesAll member leaf)
    constructor
    · rw [toSExpr, image, SExpr.render, SExpr.renderItems_cons, itemsToSExpr_eq fun t member => (each t member).1,
        SExpr.render]
      simp only [List.append_assoc]
    · rw [image]
      refine .list fun n member => ?_
      rcases List.mem_cons.mp member with rfl | member
      · exact .symbol (symbolText_of_mem known)
      · obtain ⟨child, behind, rfl⟩ := mem_images member
        exact (each child behind).2

end Tree

section Labels

open MiniC.Tree

theorem labelled_node {label : Text} (known : label ∈ productions) {children : List Tree}
    (each : ∀ t ∈ children, t.Labelled) : ∀ t ∈ (some (Tree.node label children)).toList, t.Labelled :=
  List.forall_mem_singleton.mpr (.node known each)

theorem labelled_leaf (l : Lexeme) : ∀ t ∈ (some (Tree.leaf l)).toList, t.Labelled :=
  List.forall_mem_singleton.mpr (.leaf l)

theorem Expr.labelled_trees {args : List Expr} (each : ∀ e ∈ args, ∀ t ∈ e.tree?.toList, t.Labelled) :
    ∀ t ∈ Expr.trees args, t.Labelled := by
  induction args with
  | nil => simp [Expr.trees]
  | cons e rest ih =>
    rw [Expr.trees, List.forall_mem_append]
    exact ⟨each e List.mem_cons_self, ih fun e member => each e (List.mem_cons_of_mem _ member)⟩

theorem Expr.labelled_tree? (e : Expr) : ∀ t ∈ e.tree?.toList, t.Labelled := by
  induction e using Expr.induction with
  | missing => simp [Expr.tree?]
  | number n => exact labelled_leaf _
  | name id => exact labelled_leaf _
  | index array e ih => exact labelled_node (by simp [productions]) (List.forall_mem_cons.mpr ⟨.leaf _, ih⟩)
  | call callee args ih =>
    refine labelled_node (by simp [productions]) (List.forall_mem_cons.mpr ⟨.leaf _, ?_⟩)
    exact List.forall_mem_singleton.mpr (.node (by simp [productions]) (Expr.labelled_trees ih))
  | unary op line e ih => exact labelled_node (by simp [productions]) (List.forall_mem_cons.mpr ⟨.leaf _, ih⟩)
  | binary op line left right ihl ihr =>
    exact labelled_node (by simp [productions]) (List.forall_mem_append.mpr ⟨ihl, List.forall_mem_cons.mpr ⟨.leaf _, ihr⟩⟩)
  | assign line target value iht ihv => exact labelled_node (by simp [productions]) (List.forall_mem_append.mpr ⟨iht, ihv⟩)

theorem VarDecl.labelled_tree (d : VarDecl) : d.tree.Labelled := by
  rcases d with ⟨type, id, extent⟩
  refine .node (by simp [productions]) (List.forall_mem_cons.mpr ⟨.leaf _, List.forall_mem_cons.mpr ⟨.leaf _, ?_⟩⟩)
  rcases extent with _ | (_ | n)
  · simp
  · simp
  · exact List.forall_mem_singleton.mpr (.leaf _)

theorem labelled_vars (vars : List VarDecl) : ∀ t ∈ vars.map VarDecl.tree, t.Labelled :=
  List.forall_mem_map.mpr fun d _ => d.labelled_tree

theorem Stmt.labelled_trees {body : List Stmt} (each : ∀ s ∈ body, ∀ t ∈ s.tree?.toList, t.Labelled) :
    ∀ t ∈ Stmt.trees body, t.Labelled := by
  induction body with
  | nil => simp [Stmt.trees]
  | cons s rest ih =>
    rw [Stmt.trees, List.forall_mem_append]
    exact ⟨each s List.mem_cons_self, ih fun s member => each s (List.mem_cons_of_mem _ member)⟩

theorem Stmt.labelled_tree? (s : Stmt) : ∀ t ∈ s.tree?.toList, t.Labelled := by
  induction s using Stmt.induction with
  | skipped => simp [Stmt.tree?]
  | empty | leave | again => exact labelled_node (by simp [productions]) (by simp)
  | expr e => exact labelled_node (by simp [productions]) e.labelled_tree?
  | block vars body ih =>
    exact labelled_node (by simp [productions]) (List.forall_mem_append.mpr ⟨labelled_vars vars, Stmt.labelled_trees ih⟩)
  | ifThen line e body ih => exact labelled_node (by simp [productions]) (List.forall_mem_append.mpr ⟨e.labelled_tree?, ih⟩)
  | ifElse line e body orElse ih ih' =>
    refine labelled_node (by simp [productions]) (List.forall_mem_append.mpr ⟨?_, ih'⟩)
    exact List.forall_mem_append.mpr ⟨e.labelled_tree?, ih⟩
  | loop line e body ih => exact labelled_node (by simp [productions]) (List.forall_mem_append.mpr ⟨e.labelled_tree?, ih⟩)
  | ret line value =>
    cases value with
    | none => exact labelled_node (by simp [productions]) (by simp)
    | some e => exact labelled_node (by simp [productions]) e.labelled_tree?

theorem Param.labelled_tree (p : Param) : p.tree.Labelled := by
  cases p with
  | unnamed type => exact .node (by simp [productions]) (List.forall_mem_singleton.mpr (.leaf _))
  | named type id isArray =>
    refine .node (by simp [productions]) (List.forall_mem_cons.mpr ⟨.leaf _, List.forall_mem_cons.mpr ⟨.leaf _, ?_⟩⟩)
    cases isArray with
    | false => simp
    | true => exact List.forall_mem_singleton.mpr (.leaf _)

theorem Params.labelled_tree (ps : Params) : ps.tree.Labelled := by
  cases ps with
  | void => exact .node (by simp [productions]) (List.forall_mem_singleton.mpr (.leaf _))
  | list params => exact .node (by simp [productions]) (List.forall_mem_map.mpr fun p _ => p.labelled_tree)

theorem FunDecl.labelled_tree (f : FunDecl) : f.tree.Labelled := by
  have body : (Tree.node "compound-stmt" (f.vars.map VarDecl.tree ++ Stmt.trees f.body)).Labelled :=
    .node (by simp [productions])
      (List.forall_mem_append.mpr ⟨labelled_vars f.vars, Stmt.labelled_trees fun s _ => s.labelled_tree?⟩)
  refine .node (by simp [productions]) ?_
  simp only [List.forall_mem_cons, List.not_mem_nil, false_implies, implies_true, and_true]
  exact ⟨.leaf _, .leaf _, f.params.labelled_tree, body⟩

theorem Source.labelled_tree (s : Source) : s.tree.Labelled := by
  refine .node (by simp [productions]) (List.forall_mem_map.mpr fun d _ => ?_)
  cases d with
  | var d => exact d.labelled_tree
  | fn f => exact f.labelled_tree

end Labels

section Tokens

theorem Segment.Tiles.proper {t : Text} {segments : List Segment} (tiles : Tiles t segments) (line : Nat) :
    ∀ token ∈ (TokenStream.ofSegments line segments).tokens, token.terminal.Proper := by
  induction tiles generalizing line with
  | nil => simp [TokenStream.ofSegments]
  | @cons s rest segments stands _ ih =>
    have later := ih (line + s.text.newlines)
    cases stands with
    | token terminal proper => exact List.forall_mem_cons.mpr ⟨proper, later⟩
    | blank | comment | malformed => exact later

theorem proper_of_mem {text : Text} {token : Token} (member : token ∈ (TokenStream.ofSource text).tokens) :
    token.terminal.Proper :=
  (Segment.tiles_cut text).proper 1 token member

theorem verbatim_of_word : ∀ c, Segment.isWord c = true → Text.isVerbatim c = true :=
  forall_byte (by decide +kernel)

theorem verbatim_of_digit : ∀ c, Decimal.isDigit c = true → Text.isVerbatim c = true :=
  forall_byte (by decide +kernel)

theorem Terminal.Proper.legible {terminal : Terminal} (proper : terminal.Proper) : terminal.lexeme.Legible := by
  cases terminal with
  | keyword k =>
    show ∀ c ∈ k.lexeme, Text.isVerbatim c = true
    exact fun c member => verbatim_of_word c ((Segment.keyword_isWord k).2.2.1 c member)
  | punct p =>
    show ∀ c ∈ p.lexeme, Text.isVerbatim c = true
    exact List.all_eq_true.mp (by cases p <;> rfl)
  | ident name =>
    show ∀ c ∈ name, Text.isVerbatim c = true
    exact fun c member => verbatim_of_word c (Segment.IsName.word proper c member)
  | number n =>
    cases proper with
    | integer digits _ => exact .unsigned digits.1 digits.2
    | @real whole fraction _ digits more _ =>
      show ∀ c ∈ Segment.mixed whole fraction, Text.isVerbatim c = true
      intro c member
      rcases List.mem_append.mp member with member | member
      · exact verbatim_of_digit c (digits.2 c member)
      · rcases List.mem_cons.mp member with rfl | member
        · decide
        · exact verbatim_of_digit c (more.2 c member)
  | eof => cases proper

theorem legible_of_mem_leaves {text : Text} {l : Lexeme} (leaf : l ∈ (parsedText text).source.tree.leaves) : l.Legible := by
  by_cases brackets : l = Param.brackets
  · rw [brackets]
    exact List.all_eq_true.mp (show Param.brackets.text.all Text.isVerbatim = true from rfl)
  · have shown : l ∈ (parsedText text).source.tree.shown := List.mem_filter.mpr ⟨leaf, by simpa using brackets⟩
    obtain ⟨ts, kept, split, sub, fits, _⟩ := (Parser.shown_source (.ofSource text)).taken
    rw [Source.shown_tree] at shown
    obtain ⟨token, member, rfl⟩ := List.mem_map.mp ((Mark.map_lexeme_eq fits) ▸ shown)
    have ofText : token ∈ (TokenStream.ofSource text).tokens := by
      rw [split]
      exact List.mem_append_left _ (sub.subset member)
    exact (proper_of_mem ofText).legible

end Tokens

/-- From the s-expression of the tree of a text, which is the tree that a compilation leaves, the image of the
    tree is read. -/
theorem read_toSExpr_of_text (text : Text) :
    let tree := (parsedText text).source.tree
    SExpr.read tree.toSExpr = .ok tree.image ∧ ∀ c, compile text = .ok c → c.tree = tree := by
  intro tree
  obtain ⟨written, wellFormed⟩ := (parsedText text).source.labelled_tree.toSExpr_eq fun _ leaf => legible_of_mem_leaves leaf
  constructor
  · rw [written]
    exact wellFormed.read_render
  · intro c compiles
    obtain ⟨g, assembly, _, _, rfl⟩ := generated_of_compile compiles
    rfl

end MiniC
