import Mathlib.Logic.Relation
import MiniC.Proofs.Parsing.Recovery

namespace MiniC.Parser

def State.reporting (s : State) (line : Nat) (cause : SyntaxError) : State :=
  if s.ended then s else { s with errors := s.errors.push ⟨line, cause⟩ }

section Reporting

variable (s : State) (line : Nat) (cause : SyntaxError)

theorem reporting_tokens : (s.reporting line cause).tokens = s.tokens := by
  unfold State.reporting
  split <;> rfl

theorem reporting_current : (s.reporting line cause).current = s.current := by
  unfold State.reporting
  split <;> rfl

end Reporting

inductive Move : State → State → Prop where
  | take {s : State} {t : Token} {rest : List Token} (tokens : s.tokens = t :: rest) :
    Move s (s.take t rest)
  /-- The next token is reported and taken. -/
  | reject {s : State} {t : Token} {rest : List Token} (tokens : s.tokens = t :: rest) {cause : SyntaxError}
    (other : cause ≠ .unexpectedEnd) (recovery : Option Recovery) :
    Move s ({ s.reporting t.line cause with recovery := recovery }.take t rest)
  /-- Something is missing behind the token taken last. -/
  | miss (s : State) (what : Text) : Move s (s.reporting s.lastLine (.missing what))
  /-- The end of the source is reported. -/
  | stop (s : State) : Move s { s.reporting s.endLine .unexpectedEnd with ended := true }
  | keep (s : State) (recovery : Option Recovery) : Move s { s with recovery := recovery }

abbrev Moves : State → State → Prop :=
  Relation.ReflTransGen Move

theorem Moves.invariant {P : State → Prop} (keeps : ∀ {s s' : State}, Move s s' → P s → P s') {s s' : State}
    (moves : Moves s s') (start : P s) : P s' := by
  induction moves with
  | refl => exact start
  | tail _ move ih => exact keeps move ih

def Moving {α : Type} (x : ParseM α) : Prop :=
  ∀ s, Ends x s fun _ s' => Moves s s'

theorem Moving.bind {α β : Type} {x : ParseM α} {f : α → ParseM β} (first : Moving x) (second : ∀ a, Moving (f a)) :
    Moving (x >>= f) :=
  fun s => Ends.bind (first s) fun a s' moves => moves.trans (second a s')

theorem Moving.ite {α : Type} {p : Prop} [Decidable p] {x y : ParseM α} (pos : Moving x) (neg : Moving y) :
    Moving (if p then x else y) := by
  split
  · exact pos
  · exact neg

theorem Moving.behind {α : Type} {x : ParseM α} {s s' : State} (moving : Moving x) (moves : Moves s s') :
    Ends x s' fun _ s'' => Moves s s'' :=
  moves.trans (moving s')

section Primitives

theorem moving_pure {α : Type} (a : α) : Moving (pure a : ParseM α) :=
  fun _ => .refl

theorem moving_get : Moving (get : ParseM State) :=
  fun _ => .refl

theorem moving_current : Moving current :=
  fun _ => .refl

theorem moving_at (want : Want) : Moving (at_ want) :=
  fun _ => .refl

theorem moving_atEnd : Moving atEnd :=
  fun _ => .refl

theorem moving_atType : Moving atType :=
  fun _ => .refl

theorem moving_advance : Moving advance := by
  intro s
  show Moves s s.advance
  cases tokens : s.tokens with
  | nil => rw [advance_of_nil tokens]
  | cons t rest =>
    rw [advance_of_cons tokens]
    exact .single (.take tokens)

theorem moving_dropUntil (stop : Token → Bool) : Moving (modify (State.dropUntil stop)) := by
  intro s
  show Moves s (s.dropUntil stop)
  fun_induction State.dropUntil stop s with
  | case1 s tokens => exact .refl
  | case2 s t rest tokens stops => exact .refl
  | case3 s t rest tokens goesOn ih => exact .head (.take tokens) ih

theorem moving_keep (r : Recovery) : Moving (keep r) :=
  fun s => .single (.keep s _)

theorem run_report_eq (line : Nat) (cause : SyntaxError) (s : State) :
    (report line cause).run s = (⟨⟨line, cause⟩, s.current⟩, s.reporting line cause) :=
  run_report line cause s

theorem ends_report {α : Type} {s : State} {line : Nat} {cause : SyntaxError} {f : Recovery → ParseM α}
    {Q : α → State → Prop} (h : ∀ r, Ends (f r) (s.reporting line cause) Q) : Ends (report line cause >>= f) s Q := by
  refine Ends.bind (R := fun _ s' => s' = s.reporting line cause) ?_ ?_
  · unfold Ends
    rw [run_report_eq]
  · rintro r _ rfl
    exact h r

theorem moving_unexpectedEnd : Moving unexpectedEnd := by
  intro s
  refine ends_get (ends_report fun r => ?_)
  exact .single (.stop s)

theorem moving_missing {α : Type} {what : Text} {f : Recovery → ParseM α} (moving : ∀ r, Moving (f r)) :
    Moving (get >>= fun s => report s.lastLine (.missing what) >>= f) :=
  fun s => ends_get (ends_report fun r => (moving r).behind (.single (.miss s what)))

theorem moves_reject {s : State} (left : s.tokens ≠ []) {cause : SyntaxError} (other : cause ≠ .unexpectedEnd)
    (r : Option Recovery) : Moves s { s.reporting s.current.line cause with recovery := r }.advance := by
  obtain ⟨t, rest, tokens⟩ := List.exists_cons_of_ne_nil left
  have current : s.current = t := by simp [State.current, tokens]
  have advanced := advance_of_cons (s := { s.reporting t.line cause with recovery := r })
    ((reporting_tokens s t.line cause).trans tokens)
  rw [current, advanced]
  exact .single (.reject tokens other r)

theorem moving_tryExpect (want : Want) (sync : Sync) : Moving (tryExpect want sync) := by
  intro s
  unfold tryExpect
  refine ends_current ?_
  split
  · exact (moving_advance.bind fun _ => moving_pure _) s
  · refine ends_atEnd ?_
    split
    · exact (moving_unexpectedEnd.bind fun _ => moving_pure _) s
    · rename_i left
      split
      · exact moving_missing (fun _ => moving_pure _) s
      · -- The report and the step behind the token are one move.
        refine ends_report fun r => ends_advance ?_
        refine Moving.behind ?_ (moves_reject (by simpa using left) (by simp) _)
        refine (moving_dropUntil _).bind fun _ => moving_current.bind fun _ => .ite ?_ ?_
        · exact moving_advance.bind fun _ => moving_pure _
        · exact moving_atEnd.bind fun _ => .ite (moving_unexpectedEnd.bind fun _ => moving_pure _) (moving_pure _)

theorem moving_expect (want : Want) (sync : Sync) : Moving (expect want sync) := by
  refine (moving_tryExpect want sync).bind fun r => ?_
  rcases r with ⟨t, _ | r⟩
  · exact moving_pure t
  · exact (moving_keep r).bind fun _ => moving_pure t

theorem moving_skip (sync : Sync) : Moving (skip sync) := by
  intro s
  unfold skip
  refine ends_atEnd ?_
  split
  · exact (moving_unexpectedEnd.bind fun r => moving_keep r) s
  · rename_i left
    refine ends_current (ends_report fun r => ends_advance ?_)
    refine Moving.behind ?_ (moves_reject (by simpa using left) (by simp) _)
    exact (moving_dropUntil _).bind fun _ => moving_current.bind fun _ => moving_keep _

end Primitives

structure Rules.Steady (r : Rules) : Prop where
  expression : Moving r.expression
  arguments : Moving r.arguments
  unary : Moving r.unary
  binary : ∀ least, Moving (r.binary least)
  chain : ∀ least left, Moving (r.chain least left)
  statement : Moving r.statement
  statements : Moving r.statements
  localVars : Moving r.localVars
  moreParams : Moving r.moreParams
  decls : Moving r.decls

section Rules

variable {inner : Rules} (steady : inner.Steady)

include steady

theorem moving_afterName (id : Ident) : Moving (afterName inner id) := by
  refine (moving_at _).bind fun _ => .ite ?_ ((moving_at _).bind fun _ => .ite ?_ (moving_pure _))
  · exact moving_advance.bind fun _ => steady.expression.bind fun _ => (moving_expect _ _).bind fun _ => moving_pure _
  · refine moving_advance.bind fun _ => (moving_at _).bind fun _ => .ite ?_ ?_
    · exact (moving_pure _).bind fun _ => (moving_expect _ _).bind fun _ => moving_pure _
    · exact steady.arguments.bind fun _ => (moving_expect _ _).bind fun _ => moving_pure _

theorem moving_factor : Moving (factor inner) := by
  intro s
  unfold factor
  refine ends_current ?_
  split
  · exact (moving_advance.bind fun _ => steady.expression.bind fun _ => (moving_expect _ _).bind fun _ =>
      moving_pure _) s
  · exact (moving_advance.bind fun _ => moving_pure _) s
  · exact (moving_advance.bind fun _ => moving_afterName steady _) s
  · exact (moving_unexpectedEnd.bind fun _ => (moving_keep _).bind fun _ => moving_pure _) s
  · rename_i notEof
    split
    · exact moving_missing (fun r => (moving_keep r).bind fun _ => moving_pure _) s
    · exact ends_report fun r => moves_reject (tokens_ne_nil notEof) (by simp) _

theorem moving_unary : Moving (unary inner) := by
  refine moving_current.bind fun t => ?_
  split
  · exact moving_advance.bind fun _ => steady.unary.bind fun _ => moving_pure _
  · exact moving_factor steady

theorem moving_chain (least : Nat) (left : Expr) : Moving (chain inner least left) := by
  refine moving_current.bind fun t => ?_
  split
  · exact .ite (moving_advance.bind fun _ => (steady.binary _).bind fun _ => steady.chain _ _) (moving_pure _)
  · exact moving_pure _

theorem moving_binary (least : Nat) : Moving (binary inner least) :=
  (moving_unary steady).bind fun left => moving_chain steady least left

theorem moving_expression : Moving (expression inner) := by
  refine (moving_binary steady 1).bind fun _ => moving_current.bind fun _ => (moving_at _).bind fun _ => ?_
  exact .ite (moving_advance.bind fun _ => steady.expression.bind fun _ => moving_pure _) (moving_pure _)

theorem moving_arguments : Moving (arguments inner) := by
  refine (moving_expression steady).bind fun _ => (moving_at _).bind fun _ => ?_
  exact .ite (moving_advance.bind fun _ => steady.arguments.bind fun _ => moving_pure _) (moving_pure _)

omit steady in
theorem moving_varDecl (type : TypeName) (id : Ident) (sync : Sync) : Moving (varDecl type id sync) := by
  refine (moving_at _).bind fun _ => .ite ?_ ?_
  · refine moving_advance.bind fun _ => (moving_expect _ _).bind fun _ => (moving_expect _ _).bind fun _ => ?_
    exact (moving_pure _).bind fun _ => (moving_expect _ _).bind fun _ => moving_pure _
  · exact (moving_pure _).bind fun _ => (moving_expect _ _).bind fun _ => moving_pure _

theorem moving_localVars : Moving (localVars inner) := by
  refine moving_atType.bind fun _ => .ite ?_ (moving_pure _)
  refine moving_current.bind fun _ => moving_advance.bind fun _ => (moving_tryExpect _ _).bind fun r => ?_
  have rest : Moving (do if ← at_ (.punct .semicolon) then advance
                         inner.localVars) :=
    (moving_at _).bind fun _ => .ite (moving_advance.bind fun _ => steady.localVars) steady.localVars
  rcases r with ⟨_ | name, _ | r⟩
  · exact rest
  · exact (moving_keep r).bind fun _ => rest
  · exact (moving_varDecl _ _ _).bind fun _ => steady.localVars.bind fun _ => moving_pure _
  · exact (moving_varDecl _ _ _).bind fun _ => steady.localVars.bind fun _ => moving_pure _

theorem moving_compound : Moving (compound inner) :=
  (moving_expect _ _).bind fun _ => steady.localVars.bind fun _ => steady.statements.bind fun _ =>
    (moving_expect _ _).bind fun _ => moving_pure _

theorem moving_condition : Moving (condition inner) :=
  (moving_expect _ _).bind fun _ => steady.expression.bind fun _ => (moving_expect _ _).bind fun _ => moving_pure _

theorem moving_selection : Moving (selection inner) := by
  refine moving_current.bind fun _ => moving_advance.bind fun _ => (moving_condition steady).bind fun _ => ?_
  refine steady.statement.bind fun _ => (moving_at _).bind fun _ => .ite ?_ (moving_pure _)
  exact moving_advance.bind fun _ => steady.statement.bind fun _ => moving_pure _

theorem moving_iteration : Moving (iteration inner) :=
  moving_current.bind fun _ => moving_advance.bind fun _ => (moving_condition steady).bind fun _ =>
    steady.statement.bind fun _ => moving_pure _

theorem moving_returning : Moving (returning inner) := by
  refine moving_current.bind fun _ => moving_advance.bind fun _ => (moving_at _).bind fun _ => .ite ?_ ?_
  · exact moving_advance.bind fun _ => moving_pure _
  · exact steady.expression.bind fun _ => (moving_expect _ _).bind fun _ => moving_pure _

omit steady in
theorem moving_jump (stmt : Nat → Stmt) : Moving (jump stmt) :=
  moving_current.bind fun _ => moving_advance.bind fun _ => (moving_expect _ _).bind fun _ => moving_pure _

theorem moving_expressionStmt : Moving (expressionStmt inner) :=
  (moving_expression steady).bind fun _ => (moving_expect _ _).bind fun _ => moving_pure _

theorem moving_statement : Moving (statement inner) := by
  refine moving_current.bind fun t => ?_
  split
  · exact (moving_compound steady).bind fun _ => moving_pure _
  · exact moving_selection steady
  · exact moving_iteration steady
  · exact moving_returning steady
  · exact moving_jump _
  · exact moving_jump _
  · exact moving_advance.bind fun _ => moving_pure _
  · exact .ite (moving_expressionStmt steady) ((moving_skip _).bind fun _ => moving_pure _)

theorem moving_statements : Moving (statements inner) := by
  refine (moving_at _).bind fun _ => moving_atEnd.bind fun _ => .ite (moving_pure _) ?_
  refine moving_get.bind fun _ => (moving_statement steady).bind fun _ => moving_get.bind fun _ => ?_
  have rest : ∀ stmt, Moving (do return stmt :: (← inner.statements)) := fun _ =>
    steady.statements.bind fun _ => moving_pure _
  exact .ite ((moving_skip _).bind fun _ => rest _) (rest _)

omit steady in
theorem moving_paramOf (type : TypeName) : Moving (paramOf type) := by
  refine (moving_expect _ _).bind fun name => ?_
  cases name with
  | none => exact moving_pure _
  | some name =>
    refine (moving_at _).bind fun _ => .ite ?_ (moving_pure _)
    exact moving_advance.bind fun _ => (moving_expect _ _).bind fun _ => moving_pure _

omit steady in
theorem moving_param : Moving param := by
  refine moving_current.bind fun _ => .ite ?_ (moving_atEnd.bind fun _ => .ite ?_ ?_)
  · exact moving_advance.bind fun _ => (moving_paramOf _).bind fun _ => moving_pure _
  · exact moving_missing fun r => (moving_keep r).bind fun _ => moving_pure _
  · exact (moving_skip _).bind fun _ => moving_pure _

theorem moving_moreParams : Moving (moreParams inner) := by
  refine (moving_at _).bind fun _ => .ite ?_ (moving_pure _)
  exact moving_advance.bind fun _ => moving_param.bind fun _ => steady.moreParams.bind fun _ => moving_pure _

/-- Parameters are moves, unless there are none: a report of `)` is then only the first half of one. -/
theorem ends_params (s : State) :
    Ends (params inner) s fun _ s' => Moves s s' ∨ (Want.punct .rparen).accepts s.current = true ∧
      ∃ r, s' = { s.reporting s.current.line (.missing "void") with recovery := r } := by
  unfold params
  refine ends_at ?_
  split
  · rename_i closes
    exact ends_current (ends_report fun r => .inr ⟨closes, _, rfl⟩)
  · refine Ends.mono (R := fun _ s' => Moves s s') ?_ fun _ _ => .inl
    refine ((moving_at _).bind fun _ => .ite ?_ ?_) s
    · refine moving_advance.bind fun _ => (moving_at _).bind fun _ => .ite (moving_pure _) ?_
      exact (moving_paramOf _).bind fun _ => steady.moreParams.bind fun _ => moving_pure _
    · exact moving_param.bind fun _ => steady.moreParams.bind fun _ => moving_pure _

theorem moving_function (type : TypeName) (id : Ident) : Moving (function inner type id) := by
  refine moving_advance.bind fun _ s => Ends.bind (ends_params steady s) ?_
  rintro params s' (moves | ⟨closes, r, rfl⟩)
  · refine Moving.behind ?_ moves
    exact (moving_expect _ _).bind fun _ => (moving_compound steady).bind fun _ => moving_pure _
  · -- The token that was reported is the one that is expected.
    refine Ends.bind (R := fun _ s' => Moves s s') ?_ fun _ _ moves =>
      Moving.behind ((moving_compound steady).bind fun _ => moving_pure _) moves
    refine (ends_expect_iff (s := { s.reporting _ _ with recovery := r }) ?_).mpr ?_
    · exact (congrArg (Want.punct .rparen).accepts (reporting_current s _ _)).trans closes
    · exact moves_reject (tokens_ne_nil (accepts_not_eof closes)) (by simp) r

/-- A declaration takes the token of its type and goes on by moves. -/
theorem decl_eq : ∃ rest : Token → ParseM (Option Decl), (∀ t, Moving (rest t)) ∧
    decl inner = current >>= fun t => advance >>= fun _ => rest t := by
  refine ⟨_, fun t => ?_, rfl⟩
  refine moving_current.bind fun _ => .ite ?_ ?_
  · refine moving_advance.bind fun _ => (moving_at _).bind fun _ => .ite ?_ ?_
    · exact (moving_function steady _ _).bind fun _ => moving_pure _
    · exact (moving_varDecl _ _ _).bind fun _ => moving_pure _
  · refine (moving_expect _ _).bind fun _ => (moving_at _).bind fun _ => .ite ?_ (moving_pure _)
    exact moving_advance.bind fun _ => moving_pure _

theorem moving_decl : Moving (decl inner) := by
  obtain ⟨rest, moving, same⟩ := decl_eq steady
  rw [same]
  exact moving_current.bind fun t => moving_advance.bind fun _ => moving t

theorem moving_decls : Moving (decls inner) := by
  refine moving_atEnd.bind fun _ => .ite (moving_pure _) (moving_atType.bind fun _ => .ite ?_ ?_)
  · exact (moving_decl steady).bind fun _ => steady.decls.bind fun _ => moving_pure _
  · exact (moving_skip _).bind fun _ => steady.decls

theorem steady_next : inner.next.Steady where
  expression := moving_expression steady
  arguments := moving_arguments steady
  unary := moving_unary steady
  binary := moving_binary steady
  chain := moving_chain steady
  statement := moving_statement steady
  statements := moving_statements steady
  localVars := moving_localVars steady
  moreParams := moving_moreParams steady
  decls := moving_decls steady

end Rules

theorem steady_idle : Rules.idle.Steady := by
  constructor <;> intros <;> exact moving_pure _

theorem steady_rules (n : Nat) : (rules n).Steady := by
  induction n with
  | zero => exact steady_next steady_idle
  | succ n ih => exact steady_next ih

theorem moving_source : Moving source := by
  have rest : Moving (do let s ← get; return Source.mk (← (rules s.size).decls) s.endLine) :=
    moving_get.bind fun s => (steady_rules s.size).decls.bind fun _ => moving_pure _
  exact moving_atEnd.bind fun _ => .ite (moving_unexpectedEnd.bind fun _ => (moving_keep _).bind fun _ => rest) rest

end MiniC.Parser
