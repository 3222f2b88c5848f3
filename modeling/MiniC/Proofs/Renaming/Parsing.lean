import MiniC.Grammar.Parser
import MiniC.Proofs.Renaming.Basic

namespace MiniC

namespace Parser

variable (ρ : Text → Text)

/-- Two states that differ in names, and in what is said of the tokens that they have reported. -/
structure Alike (s s' : State) : Prop where
  tokens : s'.tokens = s.tokens.map (Token.rename ρ)
  endLine : s'.endLine = s.endLine
  lastLine : s'.lastLine = s.lastLine
  taken : s'.taken = s.taken
  ended : s'.ended = s.ended
  lines : s'.errors.toList.map Located.line = s.errors.toList.map Located.line

/-- Two actions that give related results and go on in states that are alike. -/
def Tracks {α β : Type} (R : α → β → Prop) (x : ParseM α) (y : ParseM β) : Prop :=
  ∀ s s', Alike ρ s s' → R (x.run s).1 (y.run s').1 ∧ Alike ρ (x.run s).2 (y.run s').2

def Renamed {α : Type} (rename : α → α) (a b : α) : Prop :=
  b = rename a

variable {ρ}

section Steps

variable {α β γ δ : Type} {R : α → β → Prop} {Q : γ → δ → Prop}

theorem Tracks.bind {x : ParseM α} {y : ParseM β} {f : α → ParseM γ} {g : β → ParseM δ} (first : Tracks ρ R x y)
    (second : ∀ a b, R a b → Tracks ρ Q (f a) (g b)) : Tracks ρ Q (x >>= f) (y >>= g) := by
  intro s s' alike
  obtain ⟨related, alike⟩ := first s s' alike
  exact second _ _ related _ _ alike

theorem Tracks.pure {a : α} {b : β} (related : R a b) : Tracks ρ R (pure a : ParseM α) (pure b) :=
  fun _ _ alike => ⟨related, alike⟩

theorem Tracks.andThen {x : ParseM α} {y : ParseM β} {f : α → ParseM γ} {g : β → ParseM δ} (first : Tracks ρ R x y)
    (second : ∀ a b, Tracks ρ Q (f a) (g b)) : Tracks ρ Q (x >>= f) (y >>= g) :=
  first.bind fun a b _ => second a b

theorem Tracks.ite {c : Prop} [Decidable c] {x x' : ParseM α} {y y' : ParseM β} (yes : c → Tracks ρ R x y)
    (no : ¬ c → Tracks ρ R x' y') : Tracks ρ R (if c then x else x') (if c then y else y') := by
  split
  · next holds => exact yes holds
  · next fails => exact no fails

end Steps

theorem Alike.current {s s' : State} (h : Alike ρ s s') : s'.current = s.current.rename ρ := by
  unfold State.current
  rw [h.tokens, h.endLine]
  cases s.tokens <;> rfl

theorem Alike.size {s s' : State} (h : Alike ρ s s') : s'.size = s.size := by
  simp [State.size, h.tokens]

theorem Alike.isEmpty {s s' : State} (h : Alike ρ s s') : s'.tokens.isEmpty = s.tokens.isEmpty := by
  simp [h.tokens]

theorem Alike.advance {s s' : State} (h : Alike ρ s s') : Alike ρ s.advance s'.advance := by
  have tokens := h.tokens
  unfold State.advance
  cases known : s.tokens with
  | nil =>
    rw [known, List.map_nil] at tokens
    rw [tokens]
    exact h
  | cons t rest =>
    rw [known, List.map_cons] at tokens
    rw [tokens]
    exact ⟨rfl, h.endLine, rfl, congrArg (· + 1) h.taken, h.ended, h.lines⟩

theorem accepts_rename (want : Want) (t : Token) : want.accepts (t.rename ρ) = want.accepts t := by
  rcases t with ⟨terminal, line⟩
  cases want <;> cases terminal <;> rfl

theorem has_rename (sync : Sync) (t : Token) : sync.has (t.rename ρ) = sync.has t := by
  simp [Sync.has, accepts_rename]

/-- A condition on tokens that does not look at names. -/
def Nameless (ρ : Text → Text) (stop : Token → Bool) : Prop :=
  ∀ t : Token, stop (t.rename ρ) = stop t

theorem Alike.dropUntil {stop : Token → Bool} (nameless : Nameless ρ stop) {s s' : State} (h : Alike ρ s s') :
    Alike ρ (s.dropUntil stop) (s'.dropUntil stop) := by
  have tokens := h.tokens
  fun_induction State.dropUntil stop s generalizing s' with
  | case1 s none =>
    rw [none, List.map_nil] at tokens
    unfold State.dropUntil
    split
    · exact h
    · next some => simp [tokens] at some
  | case2 s t rest some stops =>
    rw [some, List.map_cons] at tokens
    unfold State.dropUntil
    split
    · exact h
    · next t' rest' some' =>
      obtain ⟨rfl, rfl⟩ := List.cons.inj (some'.symm.trans tokens)
      rw [nameless, stops, if_pos rfl]
      exact h
  | case3 s t rest some goes ih =>
    rw [some, List.map_cons] at tokens
    rw [State.dropUntil.eq_def stop s']
    split
    · next none => simp [tokens] at none
    · next t' rest' some' =>
      obtain ⟨rfl, rfl⟩ := List.cons.inj (some'.symm.trans tokens)
      rw [nameless, if_neg goes]
      exact ih ⟨rfl, h.endLine, rfl, congrArg (· + 1) h.taken, h.ended, h.lines⟩ rfl

theorem tracks_get : Tracks ρ (Alike ρ) get get :=
  fun _ _ alike => ⟨alike, alike⟩

theorem tracks_modify {f g : State → State} (alike : ∀ s s', Alike ρ s s' → Alike ρ (f s) (g s')) :
    Tracks ρ Eq (modify f) (modify g) :=
  fun s s' h => ⟨rfl, alike s s' h⟩

theorem tracks_current : Tracks ρ (Renamed (Token.rename ρ)) current current :=
  fun _ _ alike => ⟨alike.current, alike⟩

theorem tracks_advance : Tracks ρ Eq advance advance :=
  tracks_modify fun _ _ alike => alike.advance

theorem tracks_at (want : Want) : Tracks ρ Eq (at_ want) (at_ want) := by
  intro s s' alike
  refine ⟨?_, alike⟩
  change want.accepts s.current = want.accepts s'.current
  rw [alike.current, accepts_rename]

theorem tracks_atEnd : Tracks ρ Eq atEnd atEnd :=
  fun _ _ alike => ⟨alike.isEmpty.symm, alike⟩

theorem tracks_atType : Tracks ρ Eq atType atType := by
  intro s s' alike
  refine ⟨?_, alike⟩
  change typeSync.has s.current = typeSync.has s'.current
  rw [alike.current, has_rename]

theorem Tracks.cond {α β : Type} {R : α → β → Prop} {test : ParseM Bool} {x x' : ParseM α} {y y' : ParseM β}
    (same : Tracks ρ Eq test test) (yes : Tracks ρ R x y) (no : Tracks ρ R x' y') :
    Tracks ρ R (test >>= fun b => if b then x else x') (test >>= fun b => if b then y else y') := by
  refine same.bind ?_
  rintro b _ rfl
  exact .ite (fun _ => yes) fun _ => no

theorem report_run (line : Nat) (cause : SyntaxError) (s : State) :
    ((report line cause).run s).2 = if s.ended then s else { s with errors := s.errors.push ⟨line, cause⟩ } := by
  rcases s with ⟨tokens, endLine, lastLine, taken, errors, ended, recovery⟩
  cases ended <;> rfl

theorem tracks_report (line : Nat) (cause cause' : SyntaxError) :
    Tracks ρ (fun _ _ => True) (report line cause) (report line cause') := by
  intro s s' alike
  refine ⟨trivial, ?_⟩
  rw [report_run, report_run, alike.ended]
  split
  · exact alike
  · exact ⟨alike.tokens, alike.endLine, alike.lastLine, alike.taken, rfl, by simp [alike.lines]⟩

theorem tracks_unexpectedEnd : Tracks ρ (fun _ _ => True) unexpectedEnd unexpectedEnd := by
  refine tracks_get.bind fun s s' alike => ?_
  rw [alike.endLine]
  refine (tracks_report _ _ _).andThen fun r r' => ?_
  refine (tracks_modify fun s s' alike => ?_).andThen fun _ _ => .pure trivial
  exact ⟨alike.tokens, alike.endLine, alike.lastLine, alike.taken, rfl, alike.lines⟩

theorem tracks_keep (r r' : Recovery) : Tracks ρ Eq (keep r) (keep r') :=
  tracks_modify fun _ _ alike => ⟨alike.tokens, alike.endLine, alike.lastLine, alike.taken, alike.ended, alike.lines⟩

/-- What has been found under both names, if a token was found that is wanted. -/
structure Found (ρ : Text → Text) (want : Want) (a b : Option Token) : Prop where
  renamed : b = a.map (Token.rename ρ)
  wanted : ∀ t, a = some t → want.accepts t = true

theorem Found.nothing (want : Want) : Found ρ want none none :=
  ⟨rfl, by simp⟩

theorem Found.token {want : Want} {t : Token} (wanted : want.accepts t = true) :
    Found ρ want (some t) (some (t.rename ρ)) :=
  ⟨rfl, by rintro _ ⟨⟩; exact wanted⟩

theorem tracks_tryExpect (want : Want) (sync : Sync) :
    Tracks ρ (fun a b => Found ρ want a.1 b.1 ∧ b.2.isSome = a.2.isSome) (tryExpect want sync) (tryExpect want sync) := by
  refine tracks_current.bind ?_
  rintro t _ rfl
  rw [accepts_rename, has_rename]
  refine .ite (fun wanted => ?_) fun _ => .cond tracks_atEnd ?_ (.ite (fun _ => ?_) fun _ => ?_)
  · exact tracks_advance.andThen fun _ _ => .pure ⟨.token wanted, rfl⟩
  · exact tracks_unexpectedEnd.andThen fun _ _ => .pure ⟨.nothing want, rfl⟩
  · refine tracks_get.bind fun s s' alike => ?_
    rw [alike.lastLine]
    exact (tracks_report _ _ _).andThen fun _ _ => .pure ⟨.nothing want, rfl⟩
  · have nameless : Nameless ρ fun t => want.accepts t || sync.has t := by
      intro t
      simp only [accepts_rename, has_rename]
    refine (tracks_report t.line _ _).andThen fun r r' => tracks_advance.andThen fun _ _ =>
      (tracks_modify fun _ _ alike => alike.dropUntil nameless).andThen fun _ _ => tracks_current.bind ?_
    rintro resume _ rfl
    simp only [accepts_rename]
    refine .ite (fun wanted => ?_) fun _ => .cond tracks_atEnd ?_ ?_
    · exact tracks_advance.andThen fun _ _ => .pure ⟨.token wanted, rfl⟩
    · exact tracks_unexpectedEnd.andThen fun _ _ => .pure ⟨.nothing want, rfl⟩
    · exact .pure ⟨.nothing want, rfl⟩

theorem tracks_expect (want : Want) (sync : Sync) : Tracks ρ (Found ρ want) (expect want sync) (expect want sync) := by
  refine (tracks_tryExpect want sync).bind ?_
  rintro ⟨t, _ | r⟩ ⟨t', _ | r'⟩ ⟨found, both⟩
  · exact .pure found
  · cases both
  · cases both
  · exact (tracks_keep r r').andThen fun _ _ => .pure found

theorem tracks_skip (sync : Sync) : Tracks ρ Eq (skip sync) (skip sync) := by
  refine .cond tracks_atEnd ?_ ?_
  · exact tracks_unexpectedEnd.andThen fun r r' => tracks_keep r r'
  · refine tracks_current.bind ?_
    rintro t _ rfl
    exact (tracks_report t.line _ _).andThen fun r r' => tracks_advance.andThen fun _ _ =>
      (tracks_modify fun _ _ alike => alike.dropUntil (has_rename sync)).andThen fun _ _ =>
        tracks_current.andThen fun _ _ => tracks_keep _ _

structure Rules.Track (ρ : Text → Text) (inner : Rules) : Prop where
  expression : Tracks ρ (Renamed (Expr.rename ρ)) inner.expression inner.expression
  arguments : Tracks ρ (Renamed (Expr.renameAll ρ)) inner.arguments inner.arguments
  unary : Tracks ρ (Renamed (Expr.rename ρ)) inner.unary inner.unary
  binary : ∀ least, Tracks ρ (Renamed (Expr.rename ρ)) (inner.binary least) (inner.binary least)
  chain : ∀ least left, Tracks ρ (Renamed (Expr.rename ρ)) (inner.chain least left) (inner.chain least (left.rename ρ))
  statement : Tracks ρ (Renamed (Stmt.rename ρ)) inner.statement inner.statement
  statements : Tracks ρ (Renamed (Stmt.renameAll ρ)) inner.statements inner.statements
  localVars : Tracks ρ (Renamed (List.map (VarDecl.rename ρ))) inner.localVars inner.localVars
  moreParams : Tracks ρ (Renamed (List.map (Param.rename ρ))) inner.moreParams inner.moreParams
  decls : Tracks ρ (Renamed (List.map (Decl.rename ρ))) inner.decls inner.decls

section Rules

variable {inner : Rules} (h : inner.Track ρ)

include h

theorem tracks_afterName (id : Ident) :
    Tracks ρ (Renamed (Expr.rename ρ)) (afterName inner id) (afterName inner (id.rename ρ)) := by
  refine .cond (tracks_at _) ?_ (.cond (tracks_at _) ?_ (.pure rfl))
  · refine tracks_advance.andThen fun _ _ => h.expression.bind ?_
    rintro e _ rfl
    exact (tracks_expect _ _).andThen fun _ _ => .pure rfl
  · have call : ∀ args : List Expr, Tracks ρ (Renamed (Expr.rename ρ))
        (do let _ ← expect (.punct .rparen) exprSync; return .call id args)
        (do let _ ← expect (.punct .rparen) exprSync; return .call (id.rename ρ) (Expr.renameAll ρ args)) :=
      fun args => (tracks_expect _ _).andThen fun _ _ => .pure rfl
    refine tracks_advance.andThen fun _ _ => .cond (tracks_at _) (call []) (h.arguments.bind ?_)
    rintro args _ rfl
    exact call args

theorem tracks_factor : Tracks ρ (Renamed (Expr.rename ρ)) (factor inner) (factor inner) := by
  refine tracks_current.bind ?_
  rintro ⟨terminal, line⟩ _ rfl
  -- A token that starts no factor is no name, so both parsers see the same one.
  have wrong : ∀ t : Token, Tracks ρ (Renamed (Expr.rename ρ))
      (do
        if exprSync.has t then keep (← report (← get).lastLine (.missing "expression"))
        else
          keep (← report t.line (.illegal t.lexeme.text))
          advance
        return .missing)
      (do
        if exprSync.has t then keep (← report (← get).lastLine (.missing "expression"))
        else
          keep (← report t.line (.illegal t.lexeme.text))
          advance
        return .missing) := by
    intro t
    refine .ite (fun _ => ?_) fun _ => ?_
    · refine tracks_get.bind fun s s' alike => ?_
      rw [alike.lastLine]
      exact (tracks_report _ _ _).andThen fun r r' => (tracks_keep r r').andThen fun _ _ => .pure rfl
    · exact (tracks_report _ _ _).andThen fun r r' => (tracks_keep r r').andThen fun _ _ =>
        tracks_advance.andThen fun _ _ => .pure rfl
  cases terminal with
  | ident name => exact tracks_advance.andThen fun _ _ => tracks_afterName h ⟨name, line⟩
  | number n => exact tracks_advance.andThen fun _ _ => .pure rfl
  | eof => exact tracks_unexpectedEnd.andThen fun r r' => (tracks_keep r r').andThen fun _ _ => .pure rfl
  | keyword k => exact wrong _
  | punct p =>
    cases p
    case lparen =>
      refine tracks_advance.andThen fun _ _ => h.expression.bind ?_
      rintro e _ rfl
      exact (tracks_expect _ _).andThen fun _ _ => .pure rfl
    all_goals exact wrong _

omit h in
theorem unaryOp?_rename (t : Token) : unaryOp? (t.rename ρ) = unaryOp? t := by
  rcases t with ⟨terminal, line⟩
  cases terminal <;> rfl

omit h in
theorem binaryOp?_rename (t : Token) : binaryOp? (t.rename ρ) = binaryOp? t := by
  rcases t with ⟨terminal, line⟩
  cases terminal <;> rfl

theorem tracks_unary : Tracks ρ (Renamed (Expr.rename ρ)) (unary inner) (unary inner) := by
  refine tracks_current.bind ?_
  rintro t _ rfl
  rw [unaryOp?_rename]
  cases unaryOp? t with
  | none => exact tracks_factor h
  | some op =>
    refine tracks_advance.andThen fun _ _ => h.unary.bind ?_
    rintro e _ rfl
    exact .pure rfl

theorem tracks_chain (least : Nat) (left : Expr) :
    Tracks ρ (Renamed (Expr.rename ρ)) (chain inner least left) (chain inner least (left.rename ρ)) := by
  refine tracks_current.bind ?_
  rintro t _ rfl
  rw [binaryOp?_rename]
  cases binaryOp? t with
  | none => exact .pure rfl
  | some op =>
    refine .ite (fun _ => ?_) fun _ => .pure rfl
    refine tracks_advance.andThen fun _ _ => (h.binary _).bind ?_
    rintro right _ rfl
    exact h.chain least (.binary op t.line left right)

theorem tracks_binary (least : Nat) : Tracks ρ (Renamed (Expr.rename ρ)) (binary inner least) (binary inner least) := by
  refine (tracks_unary h).bind ?_
  rintro left _ rfl
  exact tracks_chain h least left

theorem tracks_expression : Tracks ρ (Renamed (Expr.rename ρ)) (expression inner) (expression inner) := by
  refine (tracks_binary h 1).bind ?_
  rintro target _ rfl
  refine tracks_current.bind ?_
  rintro t _ rfl
  refine .cond (tracks_at _) ?_ (.pure rfl)
  refine tracks_advance.andThen fun _ _ => h.expression.bind ?_
  rintro value _ rfl
  exact .pure rfl

theorem tracks_arguments : Tracks ρ (Renamed (Expr.renameAll ρ)) (arguments inner) (arguments inner) := by
  refine (tracks_expression h).bind ?_
  rintro first _ rfl
  refine .cond (tracks_at _) ?_ (.pure rfl)
  refine tracks_advance.andThen fun _ _ => h.arguments.bind ?_
  rintro rest _ rfl
  exact .pure rfl

omit h in
theorem typeName_rename (t : Token) : typeName (t.rename ρ) = typeName t := by
  rw [typeName, typeName, accepts_rename]

omit h in
theorem numeral?_rename (t : Token) : numeral? (t.rename ρ) = numeral? t := by
  rcases t with ⟨terminal, line⟩
  cases terminal <;> rfl

omit h in
theorem ident_rename {t : Token} (name : Want.ident.accepts t = true) : ident (t.rename ρ) = (ident t).rename ρ := by
  rcases t with ⟨terminal, line⟩
  cases terminal with
  | ident name => rfl
  | _ => cases name

omit h in
theorem tracks_varDecl (type : TypeName) (id : Ident) (sync : Sync) :
    Tracks ρ (Renamed (VarDecl.rename ρ)) (varDecl type id sync) (varDecl type (id.rename ρ) sync) := by
  have rest : ∀ extent, Tracks ρ (Renamed (VarDecl.rename ρ))
      (do let _ ← expect (.punct .semicolon) sync; return ⟨type, id, extent⟩)
      (do let _ ← expect (.punct .semicolon) sync; return ⟨type, id.rename ρ, extent⟩) :=
    fun extent => (tracks_expect _ _).andThen fun _ _ => .pure rfl
  refine .cond (tracks_at _) ?_ (rest _)
  refine tracks_advance.andThen fun _ _ => (tracks_expect _ _).bind ?_
  rintro size _ ⟨rfl, -⟩
  refine (tracks_expect _ _).andThen fun _ _ => ?_
  have same : (size.map (Token.rename ρ)).bind numeral? = size.bind numeral? := by
    cases size with
    | none => rfl
    | some t => exact numeral?_rename t
  simp only [same]
  exact rest _

theorem tracks_localVars : Tracks ρ (Renamed (List.map (VarDecl.rename ρ))) (localVars inner) (localVars inner) := by
  refine .cond tracks_atType ?_ (.pure rfl)
  refine tracks_current.bind ?_
  rintro type _ rfl
  refine tracks_advance.andThen fun _ _ => (tracks_tryExpect _ _).bind ?_
  rintro ⟨_ | name, r⟩ ⟨_, r'⟩ ⟨⟨rfl, wanted⟩, both⟩
  · have next : Tracks ρ (Renamed (List.map (VarDecl.rename ρ)))
        (do if ← at_ (.punct .semicolon) then advance
            inner.localVars)
        (do if ← at_ (.punct .semicolon) then advance
            inner.localVars) :=
      .cond (tracks_at _) (tracks_advance.andThen fun _ _ => h.localVars) h.localVars
    rcases r with _ | r <;> rcases r' with _ | r'
    · exact next
    · cases both
    · cases both
    · exact (tracks_keep r r').andThen fun _ _ => next
  · have var := tracks_varDecl (ρ := ρ) (typeName type) (ident name) stmtSync
    rw [← ident_rename (wanted name rfl)] at var
    rw [typeName_rename]
    refine var.bind ?_
    rintro d _ rfl
    refine h.localVars.bind ?_
    rintro rest _ rfl
    exact .pure rfl

theorem tracks_compound :
    Tracks ρ (fun a b => b = (a.1.map (VarDecl.rename ρ), Stmt.renameAll ρ a.2)) (compound inner) (compound inner) := by
  refine (tracks_expect _ _).andThen fun _ _ => h.localVars.bind ?_
  rintro vars _ rfl
  refine h.statements.bind ?_
  rintro body _ rfl
  exact (tracks_expect _ _).andThen fun _ _ => .pure rfl

theorem tracks_condition : Tracks ρ (Renamed (Expr.rename ρ)) (condition inner) (condition inner) := by
  refine (tracks_expect _ _).andThen fun _ _ => h.expression.bind ?_
  rintro e _ rfl
  exact (tracks_expect _ _).andThen fun _ _ => .pure rfl

theorem tracks_selection : Tracks ρ (Renamed (Stmt.rename ρ)) (selection inner) (selection inner) := by
  refine tracks_current.bind ?_
  rintro t _ rfl
  refine tracks_advance.andThen fun _ _ => (tracks_condition h).bind ?_
  rintro e _ rfl
  refine h.statement.bind ?_
  rintro body _ rfl
  refine .cond (tracks_at _) ?_ (.pure rfl)
  refine tracks_advance.andThen fun _ _ => h.statement.bind ?_
  rintro orElse _ rfl
  exact .pure rfl

theorem tracks_iteration : Tracks ρ (Renamed (Stmt.rename ρ)) (iteration inner) (iteration inner) := by
  refine tracks_current.bind ?_
  rintro t _ rfl
  refine tracks_advance.andThen fun _ _ => (tracks_condition h).bind ?_
  rintro e _ rfl
  refine h.statement.bind ?_
  rintro body _ rfl
  exact .pure rfl

theorem tracks_returning : Tracks ρ (Renamed (Stmt.rename ρ)) (returning inner) (returning inner) := by
  refine tracks_current.bind ?_
  rintro t _ rfl
  refine tracks_advance.andThen fun _ _ => .cond (tracks_at _) ?_ ?_
  · exact tracks_advance.andThen fun _ _ => .pure rfl
  · refine h.expression.bind ?_
    rintro e _ rfl
    exact (tracks_expect _ _).andThen fun _ _ => .pure rfl

omit h in
theorem tracks_jump {stmt : Nat → Stmt} (nameless : ∀ line, (stmt line).rename ρ = stmt line) :
    Tracks ρ (Renamed (Stmt.rename ρ)) (jump stmt) (jump stmt) := by
  refine tracks_current.bind ?_
  rintro t _ rfl
  exact tracks_advance.andThen fun _ _ => (tracks_expect _ _).andThen fun _ _ => .pure (nameless t.line).symm

theorem tracks_expressionStmt : Tracks ρ (Renamed (Stmt.rename ρ)) (expressionStmt inner) (expressionStmt inner) := by
  refine (tracks_expression h).bind ?_
  rintro e _ rfl
  exact (tracks_expect _ _).andThen fun _ _ => .pure rfl

theorem tracks_statement : Tracks ρ (Renamed (Stmt.rename ρ)) (statement inner) (statement inner) := by
  refine tracks_current.bind ?_
  rintro ⟨terminal, line⟩ _ rfl
  have other : ∀ starts : Bool, Tracks ρ (Renamed (Stmt.rename ρ))
      (if starts then expressionStmt inner else do skip stmtSync; return .skipped)
      (if starts then expressionStmt inner else do skip stmtSync; return .skipped) :=
    fun starts => .ite (fun _ => tracks_expressionStmt h) fun _ => (tracks_skip _).andThen fun _ _ => .pure rfl
  cases terminal with
  | ident name => exact other true
  | number n => exact other true
  | eof => exact other false
  | keyword k =>
    cases k
    case if_ => exact tracks_selection h
    case while_ => exact tracks_iteration h
    case return_ => exact tracks_returning h
    case break_ => exact tracks_jump fun _ => rfl
    case continue_ => exact tracks_jump fun _ => rfl
    all_goals exact other false
  | punct p =>
    cases p
    case lbrace =>
      refine (tracks_compound h).bind ?_
      rintro ⟨vars, body⟩ _ rfl
      exact .pure rfl
    case semicolon => exact tracks_advance.andThen fun _ _ => .pure rfl
    case lparen | minus | bang => exact other true
    all_goals exact other false

theorem tracks_statements : Tracks ρ (Renamed (Stmt.renameAll ρ)) (statements inner) (statements inner) := by
  refine (tracks_at _).bind ?_
  rintro closed _ rfl
  refine tracks_atEnd.bind ?_
  rintro ended _ rfl
  refine .ite (fun _ => .pure rfl) fun _ => tracks_get.bind fun s s' alike => ?_
  refine (tracks_statement h).bind ?_
  rintro stmt _ rfl
  refine tracks_get.bind fun s₁ s₁' alike₁ => ?_
  have rest : Tracks ρ (Renamed (Stmt.renameAll ρ)) (do return stmt :: (← inner.statements))
      (do return stmt.rename ρ :: (← inner.statements)) := by
    refine h.statements.bind ?_
    rintro later _ rfl
    exact .pure rfl
  rw [alike.taken, alike₁.taken]
  exact .ite (fun _ => (tracks_skip _).andThen fun _ _ => rest) fun _ => rest

omit h in
theorem tracks_paramOf (type : TypeName) : Tracks ρ (Renamed (Param.rename ρ)) (paramOf type) (paramOf type) := by
  refine (tracks_expect _ _).bind ?_
  rintro (_ | name) _ ⟨rfl, wanted⟩
  · exact .pure rfl
  · have renamed : ∀ isArray, Param.named type (ident (name.rename ρ)) isArray =
        (Param.named type (ident name) isArray).rename ρ := by
      intro isArray
      rw [ident_rename (wanted name rfl)]
      rfl
    refine .cond (tracks_at _) ?_ (.pure (renamed false))
    exact tracks_advance.andThen fun _ _ => (tracks_expect _ _).andThen fun _ _ => .pure (renamed true)

omit h in
theorem tracks_param : Tracks ρ (Renamed (Option.map (Param.rename ρ))) param param := by
  refine tracks_current.bind ?_
  rintro t _ rfl
  rw [has_rename, has_rename, typeName_rename]
  refine .ite (fun _ => ?_) fun _ => tracks_atEnd.bind ?_
  · refine tracks_advance.andThen fun _ _ => (tracks_paramOf _).bind ?_
    rintro p _ rfl
    exact .pure rfl
  · rintro ended _ rfl
    refine .ite (fun _ => ?_) fun _ => (tracks_skip _).andThen fun _ _ => .pure rfl
    refine tracks_get.bind fun s s' alike => ?_
    rw [alike.lastLine]
    exact (tracks_report _ _ _).andThen fun r r' => (tracks_keep r r').andThen fun _ _ => .pure rfl

omit h in
theorem renamed_toList_append {α : Type} {rename : α → α} (first : Option α) (rest : List α) :
    Renamed (List.map rename) (first.toList ++ rest) ((first.map rename).toList ++ rest.map rename) := by
  rw [Renamed, Option.toList_map, List.map_append]

theorem tracks_moreParams : Tracks ρ (Renamed (List.map (Param.rename ρ))) (moreParams inner) (moreParams inner) := by
  refine .cond (tracks_at _) ?_ (.pure rfl)
  refine tracks_advance.andThen fun _ _ => tracks_param.bind ?_
  rintro first _ rfl
  refine h.moreParams.bind ?_
  rintro rest _ rfl
  exact .pure (renamed_toList_append first rest)

theorem tracks_params : Tracks ρ (Renamed (Params.rename ρ)) (params inner) (params inner) := by
  refine .cond (tracks_at _) ?_ (.cond (tracks_at _) ?_ ?_)
  · refine tracks_current.bind ?_
    rintro t _ rfl
    exact (tracks_report t.line _ _).andThen fun r r' => (tracks_keep r r').andThen fun _ _ => .pure rfl
  · refine tracks_advance.andThen fun _ _ => .cond (tracks_at _) (.pure rfl) ?_
    refine (tracks_paramOf _).bind ?_
    rintro first _ rfl
    refine h.moreParams.bind ?_
    rintro rest _ rfl
    exact .pure rfl
  · refine tracks_param.bind ?_
    rintro first _ rfl
    refine h.moreParams.bind ?_
    rintro rest _ rfl
    exact .pure (congrArg Params.list (renamed_toList_append first rest))

theorem tracks_function (type : TypeName) (id : Ident) :
    Tracks ρ (Renamed (FunDecl.rename ρ)) (function inner type id) (function inner type (id.rename ρ)) := by
  refine tracks_advance.andThen fun _ _ => (tracks_params h).bind ?_
  rintro params _ rfl
  refine (tracks_expect _ _).andThen fun _ _ => (tracks_compound h).bind ?_
  rintro ⟨vars, body⟩ _ rfl
  exact .pure rfl

theorem tracks_decl : Tracks ρ (Renamed (Option.map (Decl.rename ρ))) (decl inner) (decl inner) := by
  refine tracks_current.bind ?_
  rintro type _ rfl
  refine tracks_advance.andThen fun _ _ => tracks_current.bind ?_
  rintro t _ rfl
  rw [accepts_rename, typeName_rename]
  refine .ite (fun name => ?_) fun _ => ?_
  · rw [ident_rename name]
    refine tracks_advance.andThen fun _ _ => .cond (tracks_at _) ?_ ?_
    · refine (tracks_function h _ _).bind ?_
      rintro f _ rfl
      exact .pure rfl
    · refine (tracks_varDecl _ _ _).bind ?_
      rintro d _ rfl
      exact .pure rfl
  · refine (tracks_expect _ _).andThen fun _ _ => .cond (tracks_at _) ?_ (.pure rfl)
    exact tracks_advance.andThen fun _ _ => .pure rfl

theorem tracks_decls : Tracks ρ (Renamed (List.map (Decl.rename ρ))) (decls inner) (decls inner) := by
  refine .cond tracks_atEnd (.pure rfl) (.cond tracks_atType ?_ ?_)
  · refine (tracks_decl h).bind ?_
    rintro first _ rfl
    refine h.decls.bind ?_
    rintro rest _ rfl
    exact .pure (renamed_toList_append first rest)
  · exact (tracks_skip _).andThen fun _ _ => h.decls

theorem Rules.Track.next : inner.next.Track ρ where
  expression := tracks_expression h
  arguments := tracks_arguments h
  unary := tracks_unary h
  binary := tracks_binary h
  chain := tracks_chain h
  statement := tracks_statement h
  statements := tracks_statements h
  localVars := tracks_localVars h
  moreParams := tracks_moreParams h
  decls := tracks_decls h

end Rules

theorem Rules.Track.idle : Rules.idle.Track ρ where
  expression := .pure rfl
  arguments := .pure rfl
  unary := .pure rfl
  binary _ := .pure rfl
  chain _ _ := .pure rfl
  statement := .pure rfl
  statements := .pure rfl
  localVars := .pure rfl
  moreParams := .pure rfl
  decls := .pure rfl

theorem track_rules (n : Nat) : (rules n).Track ρ := by
  induction n with
  | zero => exact .next .idle
  | succ n ih => exact ih.next

theorem tracks_source : Tracks ρ (Renamed (Source.rename ρ)) source source := by
  have rest : Tracks ρ (Renamed (Source.rename ρ)) (do let s ← get; return ⟨← (rules s.size).decls, s.endLine⟩)
      (do let s ← get; return ⟨← (rules s.size).decls, s.endLine⟩) := by
    refine tracks_get.bind fun s s' alike => ?_
    rw [alike.size, alike.endLine]
    refine (track_rules s.size).decls.bind ?_
    rintro decls _ rfl
    exact .pure rfl
  refine .cond tracks_atEnd ?_ rest
  exact tracks_unexpectedEnd.andThen fun r r' => (tracks_keep r r').andThen fun _ _ => rest

theorem alike_start (stream : TokenStream) : Alike ρ (.start stream) (.start (stream.rename ρ)) := by
  refine ⟨rfl, rfl, ?_, rfl, rfl, rfl⟩
  cases tokens : stream.tokens <;> simp [State.start, TokenStream.rename, tokens, Token.rename]

end Parser

theorem Parsed.ofTokens_rename (ρ : Text → Text) (stream : TokenStream) :
    (ofTokens (stream.rename ρ)).source = (ofTokens stream).source.rename ρ ∧
      (ofTokens (stream.rename ρ)).errors.map Located.line = (ofTokens stream).errors.map Located.line := by
  obtain ⟨renamed, alike⟩ := Parser.tracks_source _ _ (Parser.alike_start (ρ := ρ) stream)
  exact ⟨renamed, alike.lines⟩

end MiniC
