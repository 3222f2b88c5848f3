import MiniC.Proofs.Parsing.Derivation
import MiniC.Proofs.Parsing.Marks
import MiniC.Proofs.Parsing.Steps

namespace MiniC

namespace Parser

open Grammar (accepts_punct_iff accepts_keyword_iff accepts_number_iff accepts_ident_iff)

def hidden : List Terminal :=
  [.eof, .punct .semicolon, .punct .comma, .punct .lparen, .punct .rparen, .punct .lbracket, .punct .rbracket,
    .punct .lbrace, .punct .rbrace, .punct .assign, .keyword .if_, .keyword .else_, .keyword .while_, .keyword .return_,
    .keyword .break_, .keyword .continue_]

def isShown (t : Token) : Bool :=
  t.terminal ∉ hidden

/-- What has been taken of the source, and the marks of what has been made of it. Tokens may be lost
    after an error only. -/
structure Shown (all : List Token) (ms : List Mark) (s : State) : Prop where
  honest : s.Honest
  taken : ∃ ts kept, all = ts ++ s.tokens ∧ kept.Sublist ts ∧ List.Forall₂ Mark.Fits ms kept ∧
    (s.errors = #[] → kept = ts.filter isShown)

/-- What holds behind a token: it has a mark, or it needs none. -/
structure Past (all : List Token) (ms : List Mark) (t : Token) (s : State) : Prop where
  shown : isShown t = true → ∀ m : Mark, m.Fits t → Shown all (ms ++ [m]) s
  hidden : t.terminal ∈ hidden → Shown all ms s

variable {all : List Token} {ms : List Mark} {s s' : State}

theorem isShown_eq_false {t : Token} (covered : t.terminal ∈ hidden) : isShown t = false := by
  simp [isShown, covered]

namespace Shown

theorem advance (shown : Shown all ms s) : Past all ms s.current s.advance := by
  obtain ⟨ts, kept, split, sub, fits, whole⟩ := shown.taken
  cases tokens : s.tokens with
  | nil =>
    have covered : s.current.terminal ∈ hidden := by
      rw [current_eof_of_nil tokens]
      decide
    rw [advance_of_nil tokens]
    exact ⟨fun visible => by simp [isShown_eq_false covered] at visible, fun _ => shown⟩
  | cons t rest =>
    have current : s.current = t := by simp [State.current, tokens]
    have split' : all = (ts ++ [t]) ++ rest := by rw [split, tokens, List.append_assoc, List.singleton_append]
    rw [current, advance_of_cons tokens]
    constructor
    · intro visible m fit
      refine ⟨shown.honest, ts ++ [t], kept ++ [t], split', sub.append_right [t], List.rel_append fits (.cons fit .nil), ?_⟩
      intro clean
      rw [whole clean, List.filter_append, List.filter_cons_of_pos visible, List.filter_nil]
    · intro covered
      refine ⟨shown.honest, ts ++ [t], kept, split', sub.trans (List.sublist_append_left ts [t]), fits, ?_⟩
      intro clean
      rw [whole clean, List.filter_append, List.filter_cons_of_neg (by simp [isShown_eq_false covered]), List.filter_nil,
        List.append_nil]

theorem pass {p : Punct} (shown : Shown all ms s) (accepts : (Want.punct p).accepts s.current = true)
    (covered : Terminal.punct p ∈ hidden) : Shown all ms s.advance :=
  shown.advance.hidden (accepts_punct_iff.mp accepts ▸ covered)

theorem steps {n : Nat} (shown : Shown all ms s) (steps : Steps n s s') (dirty : s'.errors ≠ #[]) : Shown all ms s' := by
  obtain ⟨ts, kept, split, sub, fits, _⟩ := shown.taken
  refine ⟨steps.honest shown.honest, ts ++ s.tokens.take n, kept, ?_, ?_, fits, fun clean => absurd clean dirty⟩
  · rw [steps.tokens_eq_drop, List.append_assoc, List.take_append_drop, split]
  · exact sub.trans (List.sublist_append_left _ _)

theorem forget {more : List Mark} (shown : Shown all (ms ++ more) s) (dirty : s.errors ≠ #[]) : Shown all ms s := by
  obtain ⟨ts, kept, split, sub, fits, _⟩ := shown.taken
  obtain ⟨kept, lost, rfl, fits, _⟩ := Mark.forall₂_append_iff.mp fits
  refine ⟨shown.honest, ts, kept, split, ?_, fits, fun clean => absurd clean dirty⟩
  exact (List.sublist_append_left kept lost).trans sub

theorem keep (shown : Shown all ms s) (recovery : Option Recovery) : Shown all ms { s with recovery := recovery } :=
  ⟨shown.honest, shown.taken⟩

theorem as {ms' : List Mark} (shown : Shown all ms s) (same : ms = ms') : Shown all ms' s :=
  same ▸ shown

theorem of_reports {α : Type} {x : ParseM α} (shown : Shown all ms s) (steady : Steady x) (reports : Reports x s) :
    Ends x s fun _ s' => Shown all ms s' ∧ s'.errors ≠ #[] := by
  obtain ⟨n, steps⟩ := steady s
  exact ⟨shown.steps steps reports.2, reports.2⟩

theorem of_dirty {α : Type} {x : ParseM α} (shown : Shown all ms s) (dirty : s.errors ≠ #[]) (steady : Steady x) :
    Ends x s fun _ s' => Shown all ms s' := by
  obtain ⟨n, steps⟩ := steady s
  refine shown.steps steps fun clean => dirty ?_
  have grow := steps.errors_grow
  rw [clean] at grow
  simpa using List.prefix_nil.mp grow

end Shown

theorem Past.keep {t : Token} (past : Past all ms t s) (recovery : Option Recovery) :
    Past all ms t { s with recovery := recovery } :=
  ⟨fun visible m fits => (past.shown visible m fits).keep recovery, fun covered => (past.hidden covered).keep recovery⟩

section Expecting

variable (shown : Shown all ms s) (want : Want) (sync : Sync)

include shown

theorem found_tryExpect : Ends (tryExpect want sync) s fun r s' => r.1 = none ∨
    ∃ s₁, r.1 = some s₁.current ∧ want.accepts s₁.current = true ∧ Shown all ms s₁ ∧ s' = s₁.advance := by
  cases accepts : want.accepts s.current with
  | true =>
    unfold Ends
    rw [tryExpect_of_accepts accepts]
    exact .inr ⟨s, rfl, accepts, shown, rfl⟩
  | false =>
    by_cases illegal : s.tokens ≠ [] ∧ sync.has s.current = false
    · have dropped := shown.of_reports (steady_report s.current.line (.illegal s.current.lexeme.text))
        (reports_report _ _ shown.honest)
      have past : Shown all ms (s.pastIllegal want sync) :=
        dropped.1.of_dirty dropped.2 (moving_advance.bind fun _ => moving_dropUntil _).steady
      exact ends_tryExpect_illegal accepts illegal.1 illegal.2 (fun found _ => .inr ⟨_, rfl, found, past, rfl⟩)
        fun _ _ _ _ => .inl rfl
    · unfold tryExpect
      refine ends_current ?_
      rw [if_neg (by simp [accepts])]
      refine ends_atEnd ?_
      split
      · exact .inl rfl
      · rw [if_pos (by simp_all)]
        exact .inl rfl

theorem shown_tryExpect : Ends (tryExpect want sync) s fun r s' => (r.1 = none ∧ Shown all ms s' ∧ s'.errors ≠ #[]) ∨
    ∃ t, r.1 = some t ∧ want.accepts t = true ∧ Past all ms t s' := by
  have found := found_tryExpect shown want sync
  unfold Ends at found ⊢
  rcases found with absent | ⟨s₁, found, accepts, shown, last⟩
  · cases accepts : want.accepts s.current with
    | true =>
      rw [tryExpect_of_accepts accepts] at absent
      cases absent
    | false =>
      have reports := reports_tryExpect shown.honest accepts sync
      exact .inl ⟨absent, shown.of_reports (moving_tryExpect want sync).steady reports⟩
  · rw [last]
    exact .inr ⟨_, found, accepts, shown.advance⟩

theorem shown_expect : Ends (expect want sync) s fun r s' => (r = none ∧ Shown all ms s') ∨
    ∃ t, r = some t ∧ want.accepts t = true ∧ Past all ms t s' := by
  unfold expect
  refine Ends.bind (shown_tryExpect shown want sync) ?_
  rintro ⟨t, recovery⟩ s₁ (⟨absent, shown, _⟩ | ⟨t', found, accepts, past⟩)
  · cases recovery with
    | none => exact .inl ⟨absent, shown⟩
    | some recovery => exact .inl ⟨absent, shown.keep _⟩
  · cases recovery with
    | none => exact .inr ⟨t', found, accepts, past⟩
    | some recovery => exact .inr ⟨t', found, accepts, past.keep _⟩

theorem shown_expect_hidden {p : Punct} (covered : Terminal.punct p ∈ hidden) :
    Ends (expect (.punct p) sync) s fun _ s' => Shown all ms s' := by
  refine (shown_expect shown (.punct p) sync).mono ?_
  rintro r s₁ (⟨_, shown⟩ | ⟨t, _, accepts, past⟩)
  · exact shown
  · exact past.hidden (accepts_punct_iff.mp accepts ▸ covered)

omit want in
theorem shown_skip : Ends (skip sync) s fun _ s' => Shown all ms s' :=
  (shown.of_reports (moving_skip sync).steady (reports_skip shown.honest sync)).1

omit want sync in
theorem shown_keep {α : Type} {x : ParseM Recovery} {f : Unit → ParseM α} {Q : α → State → Prop} (steady : Steady x)
    (reports : Reports x s) (rest : ∀ s', Shown all ms s' → s'.errors ≠ #[] → Ends (f ()) s' Q) :
    Ends (x >>= fun r => keep r >>= f) s Q := by
  refine Ends.bind (shown.of_reports steady reports) fun r s₁ later => ?_
  exact rest _ (later.1.keep _) later.2

end Expecting

section Tokens

variable {t : Token}

theorem terminal_of_unaryOp {op : UnaryOp} (operator : unaryOp? t = some op) : t.terminal = .punct op.punct := by
  rcases t with ⟨terminal, line⟩
  cases terminal with
  | punct p => cases p <;> cases operator <;> rfl
  | _ => cases operator

theorem terminal_of_binaryOp {op : BinaryOp} (operator : binaryOp? t = some op) : t.terminal = .punct op.punct := by
  rcases t with ⟨terminal, line⟩
  cases terminal with
  | punct p => cases p <;> cases operator <;> rfl
  | _ => cases operator

theorem terminal_of_type (type : typeSync.has t = true) : t.terminal = .keyword (typeName t).keyword := by
  rcases t with ⟨terminal, line⟩
  cases terminal with
  | keyword k => cases k <;> first | rfl | cases type
  | _ => cases type

variable (past : Past all ms t s)

include past

theorem Past.unaryOp {op : UnaryOp} (operator : unaryOp? t = some op) : Shown all (ms ++ [op.punct.mark t.line]) s := by
  have same := terminal_of_unaryOp operator
  refine past.shown ?_ _ ⟨same, by simp [Punct.mark]⟩
  rw [isShown, same]
  cases op <;> rfl

theorem Past.binaryOp {op : BinaryOp} (operator : binaryOp? t = some op) : Shown all (ms ++ [op.punct.mark t.line]) s := by
  have same := terminal_of_binaryOp operator
  refine past.shown ?_ _ ⟨same, by simp [Punct.mark]⟩
  rw [isShown, same]
  cases op <;> rfl

theorem Past.type (type : typeSync.has t = true) : Shown all (ms ++ [(typeName t).mark]) s := by
  have same := terminal_of_type type
  refine past.shown ?_ _ ⟨same, by simp [TypeName.mark]⟩
  rw [isShown, same]
  cases typeName t <;> rfl

theorem Past.number {n : Numeral} (same : t.terminal = .number n) : Shown all (ms ++ [n.mark]) s := by
  refine past.shown ?_ _ ⟨same, by simp [Numeral.mark]⟩
  simp [isShown, same, Parser.hidden]

theorem Past.ident {name : Text} (same : t.terminal = .ident name) : Shown all (ms ++ [Ident.mark ⟨name, t.line⟩]) s := by
  refine past.shown ?_ _ ⟨same, by simp [Ident.mark]⟩
  simp [isShown, same, Parser.hidden]

theorem Past.name (accepts : Want.ident.accepts t = true) : Shown all (ms ++ [(Parser.ident t).mark]) s := by
  obtain ⟨name, same⟩ := accepts_ident_iff.mp accepts
  have spelled : Parser.ident t = ⟨name, t.line⟩ := by rw [Parser.ident, Token.lexeme, same]; rfl
  rw [spelled]
  exact past.ident same

end Tokens

abbrev Adds {α : Type} (all : List Token) (ms : List Mark) (marks : α → List Mark) (x : ParseM α) (s : State) : Prop :=
  Ends x s fun a s' => Shown all (ms ++ marks a) s'

theorem adds_pure {α : Type} {marks : α → List Mark} {ms' : List Mark} {a : α} (shown : Shown all ms' s)
    (same : ms' = ms ++ marks a) : Adds all ms marks (pure a) s :=
  shown.as same

theorem adds_none {α : Type} {marks : α → List Mark} {a : α} (shown : Shown all ms s) (bare : marks a = []) :
    Adds all ms marks (pure a) s :=
  adds_pure shown (by rw [bare, List.append_nil])

structure Rules.Show (all : List Token) (r : Rules) : Prop where
  expression : ∀ {ms : List Mark} {s : State}, Shown all ms s → Adds all ms Expr.marks r.expression s
  arguments : ∀ {ms : List Mark} {s : State}, Shown all ms s → Adds all ms Expr.marksAll r.arguments s
  unary : ∀ {ms : List Mark} {s : State}, Shown all ms s → Adds all ms Expr.marks r.unary s
  binary : ∀ {ms : List Mark} {s : State} (least : Nat), Shown all ms s → Adds all ms Expr.marks (r.binary least) s
  chain : ∀ {ms : List Mark} {s : State} (least : Nat) (left : Expr), Shown all (ms ++ left.marks) s →
    Adds all ms Expr.marks (r.chain least left) s
  statement : ∀ {ms : List Mark} {s : State}, Shown all ms s → Adds all ms Stmt.marks r.statement s
  statements : ∀ {ms : List Mark} {s : State}, Shown all ms s → Adds all ms Stmt.marksAll r.statements s
  localVars : ∀ {ms : List Mark} {s : State}, Shown all ms s → Adds all ms (List.flatMap VarDecl.marks) r.localVars s
  moreParams : ∀ {ms : List Mark} {s : State}, Shown all ms s → Adds all ms (List.flatMap Param.marks) r.moreParams s
  decls : ∀ {ms : List Mark} {s : State}, Shown all ms s → Adds all ms (List.flatMap Decl.marks) r.decls s

section Expressions

variable {inner : Rules} (each : inner.Show all)

include each

theorem adds_afterName (id : Ident) (shown : Shown all (ms ++ [id.mark]) s) :
    Adds all ms Expr.marks (afterName inner id) s := by
  unfold afterName
  refine ends_at ?_
  split
  · rename_i bracket
    have shown := shown.pass bracket (by decide)
    refine ends_advance (Ends.bind (each.expression shown) fun e _ shown => ?_)
    refine Ends.bind (shown_expect_hidden shown exprSync (by decide)) fun _ _ shown => ?_
    exact adds_pure shown (by simp [Expr.marks])
  · refine ends_at ?_
    split
    · rename_i paren
      have shown := shown.pass paren (by decide)
      have closed {args : List Expr} {s₁ : State} (shown : Shown all (ms ++ [id.mark] ++ Expr.marksAll args) s₁) :
          Adds all ms Expr.marks (expect (.punct .rparen) exprSync >>= fun _ => pure (.call id args)) s₁ := by
        refine Ends.bind (shown_expect_hidden shown exprSync (by decide)) fun _ _ shown => ?_
        exact adds_pure shown (by simp [Expr.marks])
      refine ends_advance (ends_at ?_)
      split
      · exact closed (shown.as (List.append_nil _).symm)
      · exact Ends.bind (each.arguments shown) fun _ _ shown => closed shown
    · exact shown

variable (shown : Shown all ms s)

include shown

theorem adds_factor : Adds all ms Expr.marks (factor inner) s := by
  unfold factor
  refine ends_current ?_
  split
  · rename_i paren
    have shown := shown.advance.hidden (by rw [paren]; decide)
    refine ends_advance (Ends.bind (each.expression shown) fun _ _ shown => ?_)
    exact Ends.bind (shown_expect_hidden shown exprSync (by decide)) fun _ _ shown => shown
  · rename_i n number
    exact ends_advance (shown.advance.number number)
  · rename_i name isName
    exact ends_advance (adds_afterName each _ (shown.advance.ident isName))
  · refine shown_keep shown moving_unexpectedEnd.steady (reports_unexpectedEnd shown.honest) fun s₁ shown _ => ?_
    exact adds_none shown rfl
  · split
    · refine ends_get (shown_keep shown (steady_report _ _) (reports_report _ _ shown.honest) fun s₁ shown _ => ?_)
      exact adds_none shown rfl
    · refine shown_keep shown (steady_report _ _) (reports_report _ _ shown.honest) fun s₁ shown dirty => ?_
      exact Ends.bind (shown.of_dirty dirty moving_advance.steady) fun _ _ shown => adds_none shown rfl

theorem adds_unary : Adds all ms Expr.marks (unary inner) s := by
  unfold unary
  refine ends_current ?_
  split
  · rename_i op operator
    refine ends_advance (Ends.bind (each.unary (shown.advance.unaryOp operator)) fun _ _ shown => ?_)
    exact adds_pure shown (by simp [Expr.marks])
  · exact adds_factor each shown

omit shown in
theorem adds_chain (least : Nat) (left : Expr) (shown : Shown all (ms ++ left.marks) s) :
    Adds all ms Expr.marks (chain inner least left) s := by
  unfold chain
  refine ends_current ?_
  split
  · rename_i op operator
    split
    · refine ends_advance (Ends.bind (each.binary _ (shown.advance.binaryOp operator)) fun right s₁ shown => ?_)
      exact each.chain _ _ (shown.as (by simp [Expr.marks]))
    · exact shown
  · exact shown

theorem adds_binary (least : Nat) : Adds all ms Expr.marks (binary inner least) s :=
  Ends.bind (adds_unary each shown) fun left _ shown => adds_chain each least left shown

theorem adds_expression : Adds all ms Expr.marks (expression inner) s := by
  unfold expression
  refine Ends.bind (adds_binary each shown 1) fun target s₁ shown => ends_current (ends_at ?_)
  split
  · rename_i assign
    have shown := shown.pass assign (by decide)
    refine ends_advance (Ends.bind (each.expression shown) fun value _ shown => ?_)
    exact adds_pure shown (by simp [Expr.marks])
  · exact shown

theorem adds_arguments : Adds all ms Expr.marksAll (arguments inner) s := by
  unfold arguments
  refine Ends.bind (adds_expression each shown) fun first s₁ shown => ends_at ?_
  split
  · rename_i comma
    have shown := shown.pass comma (by decide)
    refine ends_advance (Ends.bind (each.arguments shown) fun args _ shown => ?_)
    exact adds_pure shown (by simp [Expr.marksAll])
  · exact adds_pure shown (by simp [Expr.marksAll])

end Expressions

theorem adds_varDecl {type : TypeName} {id : Ident} (sync : Sync) (shown : Shown all (ms ++ [type.mark, id.mark]) s) :
    Adds all ms VarDecl.marks (varDecl type id sync) s := by
  have closed {extent : Extent} {s₁ : State} (shown : Shown all (ms ++ [type.mark, id.mark] ++ extent.marks) s₁) :
      Adds all ms VarDecl.marks (expect (.punct .semicolon) sync >>= fun _ => pure ⟨type, id, extent⟩) s₁ := by
    refine Ends.bind (shown_expect_hidden shown sync (by decide)) fun _ _ shown => ?_
    exact adds_pure shown (by simp [VarDecl.marks])
  unfold varDecl
  refine ends_at ?_
  split
  · rename_i bracket
    have shown := shown.pass bracket (by decide)
    refine ends_advance (Ends.bind (shown_expect shown .number _) fun size s₁ sized => ?_)
    have shown : Shown all (ms ++ [type.mark, id.mark] ++ (Extent.array (size.bind numeral?)).marks) s₁ := by
      rcases sized with ⟨rfl, shown⟩ | ⟨t, rfl, accepts, past⟩
      · exact shown.as (List.append_nil _).symm
      · obtain ⟨n, same⟩ := accepts_number_iff.mp accepts
        have value : numeral? t = some n := by rw [numeral?, same]
        refine (past.number same).as ?_
        simp [Extent.marks, value]
    exact Ends.bind (shown_expect_hidden shown sync (by decide)) fun _ _ shown => closed shown
  · exact closed (shown.as (List.append_nil _).symm)

section Statements

variable {inner : Rules} (each : inner.Show all) (shown : Shown all ms s)

include each shown

theorem adds_localVars : Adds all ms (List.flatMap VarDecl.marks) (localVars inner) s := by
  unfold localVars
  refine ends_atType ?_
  split
  · rename_i type
    refine ends_current (ends_advance (Ends.bind (shown_tryExpect (shown.advance.type type) .ident stmtSync) ?_))
    rintro ⟨name, recovery⟩ s₁ (⟨absent, shown, dirty⟩ | ⟨t, found, accepts, past⟩)
    · cases absent
      -- The type is lost with the name.
      have rest {s₂ : State} (shown : Shown all ms s₂) : Adds all ms (List.flatMap VarDecl.marks)
          (do if ← at_ (.punct .semicolon) then advance
              inner.localVars) s₂ := by
        refine ends_at ?_
        split
        · rename_i semicolon
          exact ends_advance (each.localVars (shown.pass semicolon (by decide)))
        · exact each.localVars shown
      cases recovery with
      | none => exact rest (shown.forget dirty)
      | some recovery => exact rest ((shown.forget dirty).keep _)
    · cases found
      have named := (past.name accepts).as (List.append_assoc ms _ _)
      refine Ends.bind (adds_varDecl stmtSync named) fun var _ shown => ?_
      refine Ends.bind (each.localVars shown) fun vars _ shown => ?_
      exact adds_pure shown (by simp)
  · exact adds_none shown rfl

theorem adds_compound :
    Adds all ms (fun block => block.1.flatMap VarDecl.marks ++ Stmt.marksAll block.2) (compound inner) s := by
  refine Ends.bind (shown_expect_hidden shown _ (by decide)) fun _ _ shown => ?_
  refine Ends.bind (each.localVars shown) fun vars _ shown => Ends.bind (each.statements shown) fun body _ shown => ?_
  refine Ends.bind (shown_expect_hidden shown _ (by decide)) fun _ _ shown => ?_
  exact adds_pure shown (List.append_assoc ..)

theorem adds_condition : Adds all ms Expr.marks (condition inner) s := by
  refine Ends.bind (shown_expect_hidden shown _ (by decide)) fun _ _ shown => ?_
  refine Ends.bind (each.expression shown) fun _ _ shown => ?_
  exact Ends.bind (shown_expect_hidden shown _ (by decide)) fun _ _ shown => shown

theorem adds_selection (keyword : s.current.terminal = .keyword .if_) : Adds all ms Stmt.marks (selection inner) s := by
  have shown := shown.advance.hidden (by rw [keyword]; decide)
  unfold selection
  refine ends_current (ends_advance (Ends.bind (adds_condition each shown) fun e _ shown => ?_))
  refine Ends.bind (each.statement shown) fun body _ shown => ends_at ?_
  split
  · rename_i orElse
    have covered : Terminal.keyword .else_ ∈ hidden := by decide
    have shown := shown.advance.hidden (accepts_keyword_iff.mp orElse ▸ covered)
    refine ends_advance (Ends.bind (each.statement shown) fun orElse _ shown => ?_)
    exact adds_pure shown (by simp [Stmt.marks])
  · exact adds_pure shown (by simp [Stmt.marks])

theorem adds_iteration (keyword : s.current.terminal = .keyword .while_) : Adds all ms Stmt.marks (iteration inner) s := by
  have shown := shown.advance.hidden (by rw [keyword]; decide)
  unfold iteration
  refine ends_current (ends_advance (Ends.bind (adds_condition each shown) fun e _ shown => ?_))
  refine Ends.bind (each.statement shown) fun body _ shown => ?_
  exact adds_pure shown (by simp [Stmt.marks])

theorem adds_returning (keyword : s.current.terminal = .keyword .return_) : Adds all ms Stmt.marks (returning inner) s := by
  have shown := shown.advance.hidden (by rw [keyword]; decide)
  unfold returning
  refine ends_current (ends_advance (ends_at ?_))
  split
  · rename_i semicolon
    have shown := shown.pass semicolon (by decide)
    exact ends_advance (adds_none shown rfl)
  · refine Ends.bind (each.expression shown) fun e _ shown => ?_
    exact Ends.bind (shown_expect_hidden shown _ (by decide)) fun _ _ shown => shown

omit each in
theorem adds_jump {stmt : Nat → Stmt} (bare : ∀ line, (stmt line).marks = []) (covered : s.current.terminal ∈ hidden) :
    Adds all ms Stmt.marks (jump stmt) s := by
  have shown := shown.advance.hidden covered
  refine ends_current (ends_advance (Ends.bind (shown_expect_hidden shown _ (by decide)) fun _ _ shown => ?_))
  exact adds_none shown (bare _)

theorem adds_statement : Adds all ms Stmt.marks (statement inner) s := by
  unfold statement
  refine ends_current ?_
  split
  · refine Ends.bind (adds_compound each shown) fun _ _ shown => ?_
    exact adds_pure shown rfl
  · rename_i keyword
    exact adds_selection each shown keyword
  · rename_i keyword
    exact adds_iteration each shown keyword
  · rename_i keyword
    exact adds_returning each shown keyword
  · rename_i keyword
    exact adds_jump shown (fun _ => rfl) (by rw [keyword]; decide)
  · rename_i keyword
    exact adds_jump shown (fun _ => rfl) (by rw [keyword]; decide)
  · rename_i semicolon
    have shown := shown.advance.hidden (by rw [semicolon]; decide)
    exact ends_advance (adds_none shown rfl)
  · split
    · refine Ends.bind (adds_expression each shown) fun _ _ shown => ?_
      exact Ends.bind (shown_expect_hidden shown _ (by decide)) fun _ _ shown => shown
    · refine Ends.bind (shown_skip shown _) fun _ _ shown => ?_
      exact adds_none shown rfl

theorem adds_statements : Adds all ms Stmt.marksAll (statements inner) s := by
  unfold statements
  refine ends_at (ends_atEnd ?_)
  split
  · exact adds_none shown rfl
  · refine ends_get (Ends.bind (adds_statement each shown) fun stmt s₁ shown => ends_get ?_)
    have rest {s₂ : State} (shown : Shown all (ms ++ stmt.marks) s₂) :
        Adds all ms Stmt.marksAll (do return stmt :: (← inner.statements)) s₂ := by
      refine Ends.bind (each.statements shown) fun body _ shown => ?_
      exact adds_pure shown (by simp [Stmt.marksAll])
    split
    · exact Ends.bind (shown_skip shown _) fun _ _ shown => rest shown
    · exact rest shown

end Statements

section Declarations

theorem adds_paramOf {type : TypeName} (shown : Shown all (ms ++ [type.mark]) s) :
    Adds all ms Param.marks (paramOf type) s := by
  unfold paramOf
  refine Ends.bind (shown_expect shown .ident paramSync) ?_
  rintro _ s₁ (⟨rfl, shown⟩ | ⟨t, rfl, accepts, past⟩)
  · exact shown
  · have named {isArray : Bool} {s₂ : State} (shown : Shown all (ms ++ [type.mark] ++ [(ident t).mark]) s₂) :
        Adds all ms Param.marks (pure (.named type (ident t) isArray)) s₂ :=
      adds_pure shown (List.append_assoc ..)
    have shown := past.name accepts
    refine ends_at ?_
    split
    · rename_i bracket
      have shown := shown.pass bracket (by decide)
      exact ends_advance (Ends.bind (shown_expect_hidden shown _ (by decide)) fun _ _ shown => named shown)
    · exact named shown

theorem adds_param (shown : Shown all ms s) : Adds all ms (fun p => p.toList.flatMap Param.marks) param s := by
  unfold param
  refine ends_current ?_
  split
  · rename_i type
    refine ends_advance (Ends.bind (adds_paramOf (shown.advance.type type)) fun p _ shown => ?_)
    exact adds_pure shown (by simp)
  · refine ends_atEnd ?_
    split
    · refine ends_get (shown_keep shown (steady_report _ _) (reports_report _ _ shown.honest) fun s₁ shown _ => ?_)
      exact adds_none shown rfl
    · exact Ends.bind (shown_skip shown _) fun _ _ shown => adds_none shown rfl

variable {inner : Rules} (each : inner.Show all) (shown : Shown all ms s)

include each shown

theorem adds_moreParams : Adds all ms (List.flatMap Param.marks) (moreParams inner) s := by
  unfold moreParams
  refine ends_at ?_
  split
  · rename_i comma
    have shown := shown.pass comma (by decide)
    refine ends_advance (Ends.bind (adds_param shown) fun first _ shown => ?_)
    refine Ends.bind (each.moreParams shown) fun rest _ shown => ?_
    exact adds_pure shown (by simp)
  · exact adds_none shown rfl

theorem adds_params : Adds all ms Params.marks (params inner) s := by
  unfold params
  refine ends_at ?_
  split
  · refine ends_current (shown_keep shown (steady_report _ _) (reports_report _ _ shown.honest) fun s₁ shown _ => ?_)
    exact adds_none shown rfl
  · refine ends_at ?_
    split
    · rename_i void
      have type : typeSync.has s.current = true := by simp [Sync.has, typeSync, void]
      have named : typeName s.current = .void := if_pos void
      have shown := shown.advance.type type
      rw [named] at shown
      refine ends_advance (ends_at ?_)
      split
      · exact shown
      · refine Ends.bind (adds_paramOf shown) fun first _ shown => Ends.bind (each.moreParams shown) fun rest _ shown => ?_
        exact adds_pure shown (by simp [Params.marks])
    · refine Ends.bind (adds_param shown) fun first _ shown => Ends.bind (each.moreParams shown) fun rest _ shown => ?_
      exact adds_pure shown (by simp [Params.marks])

omit shown in
theorem adds_function {type : TypeName} {id : Ident} (shown : Shown all (ms ++ [type.mark, id.mark]) s)
    (paren : (Want.punct .lparen).accepts s.current = true) :
    Adds all ms (fun f => (Decl.fn f).marks) (function inner type id) s := by
  have shown := shown.pass paren (by decide)
  refine ends_advance (Ends.bind (adds_params each shown) fun parameters _ shown => ?_)
  refine Ends.bind (shown_expect_hidden shown _ (by decide)) fun _ _ shown => ?_
  refine Ends.bind (adds_compound each shown) fun block _ shown => ?_
  exact adds_pure shown (by simp [Decl.marks])

theorem adds_decl (type : typeSync.has s.current = true) :
    Adds all ms (fun d => d.toList.flatMap Decl.marks) (decl inner) s := by
  have shown := shown.advance.type type
  unfold decl
  refine ends_current (ends_advance (ends_current ?_))
  split
  · rename_i accepts
    have named := (shown.advance.name accepts).as (List.append_assoc ms _ _)
    refine ends_advance (ends_at ?_)
    split
    · rename_i paren
      refine Ends.bind (adds_function each named paren) fun f _ shown => ?_
      exact adds_pure shown (by simp)
    · refine Ends.bind (adds_varDecl declSync named) fun d _ shown => ?_
      exact adds_pure shown (by simp [Decl.marks])
  · rename_i other
    have reports := reports_expect shown.honest (by simpa using other) declSync
    refine Ends.bind (shown.of_reports (moving_expect _ _).steady reports) fun _ _ later => ends_at ?_
    have shown := later.1.forget later.2
    split
    · rename_i semicolon
      have shown := shown.pass semicolon (by decide)
      exact ends_advance (adds_none shown rfl)
    · exact adds_none shown rfl

theorem adds_decls : Adds all ms (List.flatMap Decl.marks) (decls inner) s := by
  unfold decls
  refine ends_atEnd ?_
  split
  · exact adds_none shown rfl
  · refine ends_atType ?_
    split
    · rename_i type
      refine Ends.bind (adds_decl each shown type) fun first _ shown => Ends.bind (each.decls shown) fun rest _ shown => ?_
      exact adds_pure shown (by simp)
    · exact Ends.bind (shown_skip shown _) fun _ _ shown => each.decls shown

end Declarations

theorem show_next {inner : Rules} (each : inner.Show all) : inner.next.Show all where
  expression := adds_expression each
  arguments := adds_arguments each
  unary := adds_unary each
  binary least shown := adds_binary each shown least
  chain := adds_chain each
  statement := adds_statement each
  statements := adds_statements each
  localVars := adds_localVars each
  moreParams := adds_moreParams each
  decls := adds_decls each

theorem show_idle : Rules.idle.Show all := by
  constructor
  case chain =>
    intro ms s least left shown
    exact shown
  all_goals
    intros
    rename_i shown
    exact adds_none shown rfl

theorem show_rules (n : Nat) : (rules n).Show all := by
  induction n with
  | zero => exact show_next show_idle
  | succ n ih => exact show_next ih

theorem shown_source (stream : TokenStream) :
    Ends source (.start stream) fun program s => Shown stream.tokens program.marks s := by
  have start : Shown stream.tokens [] (.start stream) :=
    ⟨fun ended => (by cases ended), [], [], rfl, .slnil, .nil, fun _ => rfl⟩
  have rest {s : State} (shown : Shown stream.tokens [] s) :
      Ends (do let s ← get; return Source.mk (← (rules s.size).decls) s.endLine) s fun program s' =>
        Shown stream.tokens program.marks s' :=
    ends_get (Ends.bind ((show_rules s.size).decls shown) fun _ _ shown => shown)
  unfold source
  refine ends_atEnd ?_
  split
  · exact shown_keep start moving_unexpectedEnd.steady (reports_unexpectedEnd start.honest) fun _ shown _ => rest shown
  · exact rest start

end Parser

/-- The leaves of the parse tree, without the brackets of array parameters, are tokens of the source in
    their order, on the lines that the program keeps. Without a syntax error they are all of its tokens
    that are not hidden. -/
theorem leaves_of_parsed (text : Text) :
    let stream := TokenStream.ofSource text
    let parsed := Parsed.ofTokens stream
    ∃ kept : List Token, kept.Sublist stream.all ∧
      parsed.source.tree.leaves.filter (· ≠ Param.brackets) = kept.map Token.lexeme ∧
      List.Forall₂ Mark.Fits parsed.source.marks kept ∧
      (parsed.diagnostics = [] → kept = stream.all.filter Parser.isShown) := by
  intro stream parsed
  let final := (Parser.source.run (.start stream)).2
  have spent : final.tokens = [] := Parser.spent_source fun ended => by cases ended
  obtain ⟨ts, kept, split, sub, fits, whole⟩ := (Parser.shown_source stream).taken
  have all : stream.all = ts ++ [stream.endToken] := by rw [TokenStream.all, split, spent, List.append_nil]
  refine ⟨kept, ?_, ?_, fits, ?_⟩
  · rw [all]
    exact sub.trans (List.sublist_append_left ts _)
  · calc parsed.source.tree.shown
      _ = parsed.source.marks.map Mark.lexeme := parsed.source.shown_tree
      _ = kept.map Token.lexeme := Mark.map_lexeme_eq fits
  · intro clean
    have errors : final.errors.toList = [] := List.map_eq_nil_iff.mp clean
    rw [all, List.filter_append, ← whole (by simpa using errors)]
    exact (List.append_nil kept).symm

end MiniC
