import MiniC.Proofs.Parsing.Moves

namespace MiniC.Parser

structure Noted (s s' : State) : Prop where
  tokens : s'.tokens = s.tokens
  taken : s'.taken = s.taken
  endLine : s'.endLine = s.endLine
  errors : s.errors.toList <+: s'.errors.toList
  honest : s.Honest → s'.Honest

/-- The way from one state to a later one, on which `n` tokens are taken. -/
inductive Steps : Nat → State → State → Prop where
  | refl (s : State) : Steps 0 s s
  | take {n : Nat} {s s' : State} {t : Token} {rest : List Token} (tokens : s.tokens = t :: rest)
      (later : Steps n (s.take t rest) s') : Steps (n + 1) s s'
  | note {n : Nat} {s s₁ s' : State} (noted : Noted s s₁) (later : Steps n s₁ s') : Steps n s s'

namespace Steps

variable {m n : Nat} {s s' s'' : State}

theorem trans (first : Steps m s s') (second : Steps n s' s'') : Steps (m + n) s s'' := by
  induction first with
  | refl s =>
    rw [Nat.zero_add]
    exact second
  | take tokens _ ih =>
    rw [Nat.add_right_comm]
    exact .take tokens (ih second)
  | note noted _ ih => exact .note noted (ih second)

theorem of_noted (noted : Noted s s') : Steps 0 s s' :=
  .note noted (.refl s')

theorem tokens_eq_drop (h : Steps n s s') : s'.tokens = s.tokens.drop n := by
  induction h with
  | refl s => rfl
  | take tokens _ ih => rw [ih, tokens, List.drop_succ_cons, State.take]
  | note noted _ ih => rw [ih, noted.tokens]

theorem taken_eq (h : Steps n s s') : s'.taken = s.taken + n := by
  induction h with
  | refl s => rfl
  | take tokens _ ih => rw [ih, State.take, Nat.add_assoc, Nat.add_comm 1]
  | note noted _ ih => rw [ih, noted.taken]

theorem size_add (h : Steps n s s') : s'.size + n = s.size := by
  induction h with
  | refl s => rfl
  | @take n s s' t rest tokens _ ih =>
    rw [← Nat.add_assoc, ih, State.size, State.size, tokens]
    rfl
  | note noted _ ih => rw [ih, State.size, noted.tokens, State.size]

theorem endLine_eq (h : Steps n s s') : s'.endLine = s.endLine := by
  induction h with
  | refl s => rfl
  | take tokens _ ih => exact ih
  | note noted _ ih => exact ih.trans noted.endLine

theorem errors_grow (h : Steps n s s') : s.errors.toList <+: s'.errors.toList := by
  induction h with
  | refl s => exact List.prefix_rfl
  | take tokens _ ih => exact ih
  | note noted _ ih => exact noted.errors.trans ih

theorem honest (h : Steps n s s') (honest : s.Honest) : s'.Honest := by
  induction h with
  | refl s => exact honest
  | take tokens _ ih => exact ih honest
  | note noted _ ih => exact ih (noted.honest honest)

end Steps

theorem steps_advance {s : State} (left : s.tokens ≠ []) : Steps 1 s s.advance := by
  obtain ⟨t, rest, tokens⟩ := List.exists_cons_of_ne_nil left
  rw [advance_of_cons tokens]
  exact .take tokens (.refl _)

theorem noted_reporting (s : State) (line : Nat) (cause : SyntaxError) : Noted s (s.reporting line cause) := by
  unfold State.reporting
  split
  · exact ⟨rfl, rfl, rfl, List.prefix_rfl, id⟩
  · exact ⟨rfl, rfl, rfl, by simp, fun _ _ => Array.push_ne_empty⟩

theorem Move.steps {s s' : State} (move : Move s s') : ∃ n, Steps n s s' := by
  cases move with
  | take tokens => exact ⟨1, .take tokens (.refl _)⟩
  | @reject t rest tokens cause other recovery =>
    have noted := noted_reporting s t.line cause
    let reported := { s.reporting t.line cause with recovery := recovery }
    have kept : Noted s reported := ⟨noted.tokens, noted.taken, noted.endLine, noted.errors, noted.honest⟩
    exact ⟨1, .note kept (.take (noted.tokens.trans tokens) (.refl _))⟩
  | miss what => exact ⟨0, .of_noted (noted_reporting s _ _)⟩
  | stop =>
    have noted := noted_reporting s s.endLine .unexpectedEnd
    refine ⟨0, .of_noted ⟨noted.tokens, noted.taken, noted.endLine, noted.errors, fun honest _ => ?_⟩⟩
    show (s.reporting s.endLine .unexpectedEnd).errors ≠ #[]
    unfold State.reporting
    split
    · rename_i ended
      exact honest ended
    · exact Array.push_ne_empty
  | keep recovery => exact ⟨0, .of_noted ⟨rfl, rfl, rfl, List.prefix_rfl, id⟩⟩

theorem Moves.steps {s s' : State} (moves : Moves s s') : ∃ n, Steps n s s' := by
  induction moves with
  | refl => exact ⟨0, .refl _⟩
  | tail _ move ih =>
    obtain ⟨m, steps⟩ := ih
    obtain ⟨n, step⟩ := move.steps
    exact ⟨m + n, steps.trans step⟩

def Steady {α : Type} (x : ParseM α) : Prop :=
  ∀ s, ∃ n, Steps n s (x.run s).2

theorem Moving.steady {α : Type} {x : ParseM α} (moving : Moving x) : Steady x :=
  fun s => Moves.steps (moving s)

theorem steady_report (line : Nat) (cause : SyntaxError) : Steady (report line cause) := by
  intro s
  rw [run_report_eq]
  exact ⟨0, .of_noted (noted_reporting s line cause)⟩

theorem steady_source : Steady source :=
  moving_source.steady

def Advances {α : Type} (x : ParseM α) (s : State) : Prop :=
  Ends x s fun _ s' => s'.size < s.size

theorem Moving.size_le {α : Type} {x : ParseM α} (moving : Moving x) (s : State) : (x.run s).2.size ≤ s.size := by
  obtain ⟨n, steps⟩ := moving.steady s
  have size := steps.size_add
  omega

theorem Moving.count {α : Type} {x : ParseM α} (moving : Moving x) (s : State) :
    (x.run s).2.size + (x.run s).2.taken = s.size + s.taken := by
  obtain ⟨n, steps⟩ := moving.steady s
  have size := steps.size_add
  have taken := steps.taken_eq
  omega

theorem Advances.bind {α β : Type} {x : ParseM α} {f : α → ParseM β} {s : State} (first : Advances x s)
    (second : ∀ a, Moving (f a)) : Advances (x >>= f) s := by
  refine Ends.bind first fun a s' shorter => ?_
  exact Nat.lt_of_le_of_lt ((second a).size_le s') shorter

theorem advances_advance {s : State} (left : s.tokens ≠ []) : Advances advance s := by
  have size := (steps_advance left).size_add
  show s.advance.size < s.size
  omega

theorem advances_skip {s : State} (left : s.tokens ≠ []) (sync : Sync) : Advances (skip sync) s := by
  unfold skip
  refine ends_atEnd ?_
  rw [if_neg (by simpa using left)]
  refine ends_current (ends_report fun r => ?_)
  have tokens := reporting_tokens s s.current.line (.illegal s.current.lexeme.text)
  have rest : Advances (advance >>= fun _ => modify (State.dropUntil sync.has) >>= fun _ => current >>= fun t =>
      keep { r with resume := t }) (s.reporting s.current.line (.illegal s.current.lexeme.text)) :=
    (advances_advance (by rw [tokens]; exact left)).bind fun _ => (moving_dropUntil _).bind fun _ =>
      moving_current.bind fun _ => moving_keep _
  exact rest.mono fun _ _ shorter => Nat.lt_of_lt_of_eq shorter (congrArg List.length tokens)

section Progress

variable {inner : Rules} {s : State} (steady : inner.Steady)

include steady

theorem advances_expression (starts : startsExpression s.current = true) : Advances (expression inner) s := by
  have notEof : s.current.terminal ≠ .eof := by
    intro eof
    simp [startsExpression, eof] at starts
  have advanced := advances_advance (tokens_ne_nil notEof)
  have first : Advances (unary inner) s := by
    unfold unary
    refine ends_current ?_
    split
    · exact advanced.bind fun _ => steady.unary.bind fun _ => moving_pure _
    · rename_i plain
      unfold factor
      refine ends_current ?_
      split
      · exact advanced.bind fun _ => steady.expression.bind fun _ => (moving_expect _ _).bind fun _ => moving_pure _
      · exact advanced.bind fun _ => moving_pure _
      · exact advanced.bind fun _ => moving_afterName steady _
      · rename_i eof
        exact absurd eof notEof
      · -- The two operators that start an expression are unary.
        unfold startsExpression at starts
        split at starts
        all_goals simp_all [unaryOp?, Punct.unaryOp?]
  have operand : Advances (binary inner 1) s := first.bind fun left => moving_chain steady 1 left
  refine operand.bind fun _ => moving_current.bind fun _ => (moving_at _).bind fun _ => ?_
  exact .ite (moving_advance.bind fun _ => steady.expression.bind fun _ => moving_pure _) (moving_pure _)

theorem advances_statement (left : s.tokens ≠ []) : Advances (statement inner) s := by
  have advanced := advances_advance left
  unfold statement
  refine ends_current ?_
  split
  · rename_i brace
    have opened : Advances (expect (.punct .lbrace) stmtSync) s :=
      (ends_expect_iff (Grammar.accepts_punct_iff.mpr brace)).mpr advanced
    have block : Advances (compound inner) s := opened.bind fun _ => steady.localVars.bind fun _ =>
      steady.statements.bind fun _ => (moving_expect _ _).bind fun _ => moving_pure _
    exact block.bind fun _ => moving_pure _
  · refine ends_current (advanced.bind fun _ => (moving_condition steady).bind fun _ => ?_)
    refine steady.statement.bind fun _ => (moving_at _).bind fun _ => .ite ?_ (moving_pure _)
    exact moving_advance.bind fun _ => steady.statement.bind fun _ => moving_pure _
  · exact ends_current (advanced.bind fun _ => (moving_condition steady).bind fun _ =>
      steady.statement.bind fun _ => moving_pure _)
  · refine ends_current (advanced.bind fun _ => (moving_at _).bind fun _ => .ite ?_ ?_)
    · exact moving_advance.bind fun _ => moving_pure _
    · exact steady.expression.bind fun _ => (moving_expect _ _).bind fun _ => moving_pure _
  · exact ends_current (advanced.bind fun _ => (moving_expect _ _).bind fun _ => moving_pure _)
  · exact ends_current (advanced.bind fun _ => (moving_expect _ _).bind fun _ => moving_pure _)
  · exact advanced.bind fun _ => moving_pure _
  · split
    · rename_i starts
      exact (advances_expression steady starts).bind fun _ => (moving_expect _ _).bind fun _ => moving_pure _
    · exact (advances_skip left stmtSync).bind fun _ => moving_pure _

/-- The statements up to the end of a block, without a guard against those that take no token. -/
def unguarded (inner : Rules) : ParseM (List Stmt) := do
  if (← at_ (.punct .rbrace)) || (← atEnd) then
    return []
  else
    let stmt ← statement inner
    return stmt :: (← inner.statements)

/-- A block that goes on has a statement that takes a token, so that the guard is idle. -/
theorem statements_eq_unguarded : statements inner = unguarded inner := by
  funext s
  let stop := (Want.punct .rbrace).accepts s.current || s.tokens.isEmpty
  by_cases stops : stop = true
  · have guarded : Ends (statements inner) s fun body s' => (body, s') = ([], s) := by
      refine ends_at (ends_atEnd ?_)
      rw [if_pos stops]
      rfl
    have free : Ends (unguarded inner) s fun body s' => (body, s') = ([], s) := by
      refine ends_at (ends_atEnd ?_)
      rw [if_pos stops]
      rfl
    exact Eq.trans guarded (Eq.symm free)
  · have left : s.tokens ≠ [] := by
      intro nil
      simp [stop, nil] at stops
    have shorter : ((statement inner).run s).2.size < s.size := advances_statement steady left
    have moved : ((statement inner).run s).2.taken ≠ s.taken := by
      have count := (moving_statement steady).count s
      omega
    let rest (stmt : Stmt) : ParseM (List Stmt) := do return stmt :: (← inner.statements)
    have guarded : Ends (statements inner) s fun body s' =>
        (body, s') = (rest ((statement inner).run s).1).run ((statement inner).run s).2 := by
      refine ends_at (ends_atEnd ?_)
      rw [if_neg stops]
      refine ends_get (Ends.bind (R := fun stmt s₁ => (stmt, s₁) = (statement inner).run s) rfl ?_)
      intro stmt s₁ same
      rw [← same] at moved ⊢
      refine ends_get ?_
      rw [if_neg moved]
      rfl
    have free : Ends (unguarded inner) s fun body s' =>
        (body, s') = (rest ((statement inner).run s).1).run ((statement inner).run s).2 := by
      refine ends_at (ends_atEnd ?_)
      rw [if_neg stops]
      rfl
    exact Eq.trans guarded (Eq.symm free)

theorem advances_decl (left : s.tokens ≠ []) : Advances (decl inner) s := by
  obtain ⟨rest, moving, same⟩ := decl_eq steady
  rw [same]
  exact ends_current ((advances_advance left).bind fun _ => moving s.current)

end Progress

end MiniC.Parser
