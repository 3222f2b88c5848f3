import MiniC.Proofs.Parsing.Steps

namespace MiniC.Parser

def Same {α : Type} (x y : ParseM α) (s : State) : Prop :=
  x.run s = y.run s

/-- Two actions that do the same wherever fewer than `n` tokens are left. -/
def SameBelow {α : Type} (n : Nat) (x y : ParseM α) : Prop :=
  ∀ s, s.size < n → Same x y s

section Actions

variable {α β : Type} {n : Nat} {x y : ParseM α} {f g : α → ParseM β} {s : State}

theorem SameBelow.refl (x : ParseM α) : SameBelow n x x :=
  fun _ _ => rfl

theorem SameBelow.bind (shorter : ∀ s, (x.run s).2.size ≤ s.size) (first : SameBelow n x y)
    (second : ∀ a, SameBelow n (f a) (g a)) :
    SameBelow n (x >>= f) (y >>= g) := by
  intro s small
  have next := second (x.run s).1 (x.run s).2 (Nat.lt_of_le_of_lt (shorter s) small)
  show (f (x.run s).1).run (x.run s).2 = (g (y.run s).1).run (y.run s).2
  rw [← first s small]
  exact next

theorem SameBelow.behind (moving : Moving x) (second : ∀ a, SameBelow n (f a) (g a)) : SameBelow n (x >>= f) (x >>= g) :=
  .bind moving.size_le (.refl x) second

theorem SameBelow.ite {p : Prop} [Decidable p] {x' y' : ParseM α} (pos : SameBelow n x y) (neg : SameBelow n x' y') :
    SameBelow n (if p then x else x') (if p then y else y') := by
  split
  · exact pos
  · exact neg

theorem Advances.same (advances : Advances x s) (small : s.size < n + 1) (first : Same x y s)
    (second : ∀ a, SameBelow n (f a) (g a)) : Same (x >>= f) (y >>= g) s := by
  have next := second (x.run s).1 (x.run s).2 (Nat.lt_of_lt_of_le advances (Nat.le_of_lt_succ small))
  show (f (x.run s).1).run (x.run s).2 = (g (y.run s).1).run (y.run s).2
  rw [← first]
  exact next

theorem same_advance {f g : Unit → ParseM β} (token : s.current.terminal ≠ .eof) (small : s.size < n + 1)
    (second : SameBelow n (f ()) (g ())) : Same (advance >>= f) (advance >>= g) s :=
  (advances_advance (tokens_ne_nil token)).same small rfl fun _ => second

theorem same_current {f g : Token → ParseM β} (h : Same (f s.current) (g s.current) s) :
    Same (current >>= f) (current >>= g) s := h

theorem same_at {want : Want} {f g : Bool → ParseM β}
    (h : Same (f (want.accepts s.current)) (g (want.accepts s.current)) s) :
    Same (at_ want >>= f) (at_ want >>= g) s := h

theorem same_atEnd {f g : Bool → ParseM β} (h : Same (f s.tokens.isEmpty) (g s.tokens.isEmpty) s) :
    Same (atEnd >>= f) (atEnd >>= g) s := h

theorem same_atType {f g : Bool → ParseM β} (h : Same (f (typeSync.has s.current)) (g (typeSync.has s.current)) s) :
    Same (atType >>= f) (atType >>= g) s := h

theorem same_get {f g : State → ParseM β} (h : Same (f s) (g s) s) : Same (get >>= f) (get >>= g) s := h

theorem Same.bind (first : Same x y s) (second : ∀ a s', Same (f a) (g a) s') : Same (x >>= f) (y >>= g) s := by
  show (f (x.run s).1).run (x.run s).2 = (g (y.run s).1).run (y.run s).2
  rw [← first]
  exact second _ _

end Actions

structure Rules.Agree (n : Nat) (r r' : Rules) : Prop where
  expression : SameBelow n r.expression r'.expression
  arguments : SameBelow n r.arguments r'.arguments
  unary : SameBelow n r.unary r'.unary
  binary : ∀ least, SameBelow n (r.binary least) (r'.binary least)
  chain : ∀ least left, SameBelow n (r.chain least left) (r'.chain least left)
  statement : SameBelow n r.statement r'.statement
  statements : SameBelow n r.statements r'.statements
  localVars : SameBelow n r.localVars r'.localVars
  moreParams : SameBelow n r.moreParams r'.moreParams
  decls : SameBelow n r.decls r'.decls

section Rules

variable {n : Nat} {r r' : Rules} {s : State} (steady : r.Steady) (agree : r.Agree n r')

include steady agree

theorem sameBelow_afterName (id : Ident) : SameBelow n (afterName r id) (afterName r' id) := by
  refine .behind (moving_at _) fun _ => .ite ?_ (.behind (moving_at _) fun _ => .ite ?_ (.refl _))
  · exact .behind moving_advance fun _ => .bind steady.expression.size_le agree.expression fun _ => .refl _
  · refine .behind moving_advance fun _ => .behind (moving_at _) fun _ => .ite (.refl _) ?_
    exact .bind steady.arguments.size_le agree.arguments fun _ => .refl _

theorem sameBelow_factor : SameBelow (n + 1) (factor r) (factor r') := by
  intro s small
  unfold factor
  refine same_current ?_
  split
  · next token =>
    refine same_advance (by simp [token]) small ?_
    exact .bind steady.expression.size_le agree.expression fun _ => .refl _
  · rfl
  · next token => exact same_advance (by simp [token]) small (sameBelow_afterName steady agree _)
  · rfl
  · rfl

theorem sameBelow_unary : SameBelow (n + 1) (unary r) (unary r') := by
  intro s small
  unfold unary
  refine same_current ?_
  split
  · next op found =>
    have token : s.current.terminal ≠ .eof := fun eof => by simp [unaryOp?, eof] at found
    exact same_advance token small (.bind steady.unary.size_le agree.unary fun _ => .refl _)
  · exact sameBelow_factor steady agree s small

theorem sameBelow_chain (least : Nat) (left : Expr) : SameBelow (n + 1) (chain r least left) (chain r' least left) := by
  intro s small
  unfold chain
  refine same_current ?_
  split
  · next op found =>
    have token : s.current.terminal ≠ .eof := fun eof => by simp [binaryOp?, eof] at found
    split
    · exact same_advance token small (.bind (steady.binary _).size_le (agree.binary _) fun _ => agree.chain _ _)
    · rfl
  · rfl

theorem sameBelow_binary (least : Nat) : SameBelow (n + 1) (binary r least) (binary r' least) :=
  .bind (moving_unary steady).size_le (sameBelow_unary steady agree) fun _ => sameBelow_chain steady agree least _

theorem sameBelow_expression : SameBelow (n + 1) (expression r) (expression r') := by
  refine .bind (moving_binary steady 1).size_le (sameBelow_binary steady agree 1) fun _ s small => same_current (same_at ?_)
  split
  · next assign =>
    exact same_advance (accepts_not_eof assign) small (.bind steady.expression.size_le agree.expression fun _ => .refl _)
  · rfl

theorem sameBelow_arguments : SameBelow (n + 1) (arguments r) (arguments r') := by
  refine .bind (moving_expression steady).size_le (sameBelow_expression steady agree) fun _ s small => same_at ?_
  split
  · next comma =>
    exact same_advance (accepts_not_eof comma) small (.bind steady.arguments.size_le agree.arguments fun _ => .refl _)
  · rfl

theorem sameBelow_localVars : SameBelow (n + 1) (localVars r) (localVars r') := by
  intro s small
  refine same_atType ?_
  split
  · next type =>
    refine same_current (same_advance (has_not_eof type) small (.behind (moving_tryExpect _ _) fun found => ?_))
    have rest : SameBelow n
        (do
          if ← at_ (.punct .semicolon) then advance
          r.localVars)
        (do
          if ← at_ (.punct .semicolon) then advance
          r'.localVars) :=
      .behind (moving_at _) fun _ => .ite (.behind moving_advance fun _ => agree.localVars) agree.localVars
    rcases found with ⟨_ | name, _ | recovery⟩
    · exact rest
    · exact .behind (moving_keep recovery) fun _ => rest
    · exact .behind (moving_varDecl _ _ _) fun _ => .bind steady.localVars.size_le agree.localVars fun _ => .refl _
    · exact .behind (moving_varDecl _ _ _) fun _ => .bind steady.localVars.size_le agree.localVars fun _ => .refl _
  · rfl

theorem sameBelow_contents {α : Type} {f : List VarDecl → List Stmt → ParseM α} : SameBelow n
    (r.localVars >>= fun vars => r.statements >>= f vars) (r'.localVars >>= fun vars => r'.statements >>= f vars) :=
  .bind steady.localVars.size_le agree.localVars fun _ => .bind steady.statements.size_le agree.statements fun _ => .refl _

theorem sameBelow_compound : SameBelow n (compound r) (compound r') :=
  .behind (moving_expect _ _) fun _ => sameBelow_contents steady agree

theorem sameBelow_condition : SameBelow n (condition r) (condition r') :=
  .behind (moving_expect _ _) fun _ => .bind steady.expression.size_le agree.expression fun _ => .refl _

theorem sameBelow_statement : SameBelow (n + 1) (statement r) (statement r') := by
  intro s small
  unfold statement
  refine same_current ?_
  split
  · next brace =>
    have opened : Advances (expect (.punct .lbrace) stmtSync) s :=
      (ends_expect_iff (Grammar.accepts_punct_iff.mpr brace)).mpr (advances_advance (tokens_ne_nil (by simp [brace])))
    have block : Same (compound r) (compound r') s := opened.same small rfl fun _ => sameBelow_contents steady agree
    exact block.bind fun _ _ => rfl
  · next token =>
    refine same_current (same_advance (by simp [token]) small ?_)
    refine .bind (moving_condition steady).size_le (sameBelow_condition steady agree) fun _ =>
      .bind steady.statement.size_le agree.statement fun _ => ?_
    refine .behind (moving_at _) fun _ => .ite ?_ (.refl _)
    exact .behind moving_advance fun _ => .bind steady.statement.size_le agree.statement fun _ => .refl _
  · next token =>
    refine same_current (same_advance (by simp [token]) small ?_)
    exact .bind (moving_condition steady).size_le (sameBelow_condition steady agree) fun _ =>
      .bind steady.statement.size_le agree.statement fun _ => .refl _
  · next token =>
    refine same_current (same_advance (by simp [token]) small (.behind (moving_at _) fun _ => .ite (.refl _) ?_))
    exact .bind steady.expression.size_le agree.expression fun _ => .refl _
  · rfl
  · rfl
  · rfl
  · split
    · exact (sameBelow_expression steady agree s small).bind fun _ _ => rfl
    · rfl

theorem sameBelow_statements : SameBelow (n + 1) (statements r) (statements r') := by
  intro s small
  refine same_at (same_atEnd ?_)
  split
  · rfl
  · next goesOn =>
    have left : s.tokens ≠ [] := by
      intro nil
      simp [nil] at goesOn
    have rest (stmt : Stmt) : SameBelow n (return stmt :: (← r.statements)) (return stmt :: (← r'.statements)) :=
      .bind steady.statements.size_le agree.statements fun _ => .refl _
    have first := sameBelow_statement steady agree s small
    refine same_get ((advances_statement steady left).same small first fun stmt s' small' => same_get ?_)
    exact SameBelow.ite (.behind (moving_skip _) fun _ => rest stmt) (rest stmt) s' small'

theorem sameBelow_moreParams : SameBelow (n + 1) (moreParams r) (moreParams r') := by
  intro s small
  refine same_at ?_
  split
  · next comma =>
    exact same_advance (accepts_not_eof comma) small (.behind moving_param fun _ =>
      .bind steady.moreParams.size_le agree.moreParams fun _ => .refl _)
  · rfl

theorem sameBelow_params : SameBelow n (params r) (params r') := by
  refine .behind (moving_at _) fun _ => .ite (.refl _) (.behind (moving_at _) fun _ => .ite ?_ ?_)
  · refine .behind moving_advance fun _ => .behind (moving_at _) fun _ => .ite (.refl _) ?_
    exact .behind (moving_paramOf _) fun _ => .bind steady.moreParams.size_le agree.moreParams fun _ => .refl _
  · exact .behind moving_param fun _ => .bind steady.moreParams.size_le agree.moreParams fun _ => .refl _

omit agree in
theorem size_params_le (s : State) : ((params r).run s).2.size ≤ s.size := by
  have ends : Ends (params r) s fun _ s' => s'.size ≤ s.size := by
    refine (ends_params steady s).mono ?_
    rintro _ _ (moves | ⟨-, recovery, rfl⟩)
    · obtain ⟨taken, steps⟩ := moves.steps
      have size := steps.size_add
      omega
    · exact Nat.le_of_eq (congrArg List.length (reporting_tokens s _ _))
  exact ends

theorem sameBelow_function (type : TypeName) (id : Ident) : SameBelow n (function r type id) (function r' type id) := by
  refine .behind moving_advance fun _ => .bind (size_params_le steady) (sameBelow_params steady agree) fun _ => ?_
  refine .behind (moving_expect _ _) fun _ => ?_
  exact .bind (moving_compound steady).size_le (sameBelow_compound steady agree) fun _ => .refl _

theorem same_decl (left : s.tokens ≠ []) (small : s.size < n + 1) : Same (decl r) (decl r') s := by
  refine same_current ((advances_advance left).same small rfl fun _ => .behind moving_current fun _ => .ite ?_ (.refl _))
  refine .behind moving_advance fun _ => .behind (moving_at _) fun _ => .ite ?_ (.refl _)
  exact .bind (moving_function steady _ _).size_le (sameBelow_function steady agree _ _) fun _ => .refl _

theorem sameBelow_decls : SameBelow (n + 1) (decls r) (decls r') := by
  intro s small
  refine same_atEnd ?_
  split
  · rfl
  · next goesOn =>
    have left : s.tokens ≠ [] := by
      intro nil
      simp [nil] at goesOn
    refine same_atType ?_
    split
    · refine (advances_decl steady left).same small (same_decl steady agree left small) fun _ => ?_
      exact .bind steady.decls.size_le agree.decls fun _ => .refl _
    · exact (advances_skip left typeSync).same small rfl fun _ => agree.decls

end Rules

theorem Rules.Agree.next {n : Nat} {r r' : Rules} (steady : r.Steady) (agree : r.Agree n r') :
    r.next.Agree (n + 1) r'.next where
  expression := sameBelow_expression steady agree
  arguments := sameBelow_arguments steady agree
  unary := sameBelow_unary steady agree
  binary := sameBelow_binary steady agree
  chain := sameBelow_chain steady agree
  statement := sameBelow_statement steady agree
  statements := sameBelow_statements steady agree
  localVars := sameBelow_localVars steady agree
  moreParams := sameBelow_moreParams steady agree
  decls := sameBelow_decls steady agree

theorem Rules.Agree.none (r r' : Rules) : r.Agree 0 r' := by
  constructor <;> intros <;> exact fun _ small => absurd small (Nat.not_lt_zero _)

/-- As many layers of rules as there are tokens do what any further layers do. -/
theorem agree_rules (n k : Nat) : (rules (n + k)).Agree (n + 1) (rules n) := by
  induction n with
  | zero =>
    rw [Nat.zero_add k]
    cases k with
    | zero => exact .next steady_idle (.none _ _)
    | succ k => exact .next (steady_rules k) (.none _ _)
  | succ n ih =>
    rw [Nat.add_right_comm n 1 k]
    exact .next (steady_rules (n + k)) ih

theorem decls_of_size_le {n : Nat} {s : State} (enough : s.size ≤ n) :
    (rules n).decls.run s = (rules s.size).decls.run s := by
  obtain ⟨k, rfl⟩ := Nat.exists_eq_add_of_le enough
  exact (agree_rules s.size k).decls s (Nat.lt_succ_self _)

end MiniC.Parser
