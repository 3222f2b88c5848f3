import MiniC.Proofs.Parsing.Grammar
import MiniC.Proofs.Parsing.Progress

namespace MiniC.Parser

open MiniC.Grammar (Nonterminal Phrase Derives derives_token_iff derives_rule_iff derives_nil_iff derives_cons_iff
  derives_singleton_iff derives_append_iff derives_many_iff derives_opt_iff climbing selector localDecl accepts_punct_iff
  accepts_keyword_iff)

/-- An action that takes at least `w` tokens and, unless there is an error, takes the phrases `ps`
    one after another. -/
def Spells {α : Type} (x : ParseM α) (s : State) (w : Nat) (ps : List Phrase) : Prop :=
  Ends x s fun _ s' => Reads s s' w ∧ (s'.errors = #[] → ∃ ts, s.tokens = ts ++ s'.tokens ∧ Derives (.all ps) ts)

theorem Spells.behind {α β : Type} {x : ParseM α} {f : α → ParseM β} {s : State} {w : Nat} {ps qs : List Phrase}
    (first : Spells x s w ps) (second : ∀ a s', Reads s s' w → Spells (f a) s' 0 qs) : Spells (x >>= f) s w (ps ++ qs) := by
  refine Ends.bind first ?_
  intro a s' ⟨reads, spelled⟩
  refine (second a s' reads).mono ?_
  intro b s'' ⟨reads', spelled'⟩
  refine ⟨reads.trans reads', fun clean => ?_⟩
  obtain ⟨ts, tokens, derived⟩ := spelled (reads'.clean clean)
  obtain ⟨ts', tokens', derived'⟩ := spelled' clean
  exact ⟨ts ++ ts', by rw [tokens, tokens', List.append_assoc], derives_append_iff.mpr ⟨ts, ts', rfl, derived, derived'⟩⟩

theorem Spells.bind {α β : Type} {x : ParseM α} {f : α → ParseM β} {s : State} {w : Nat} {ps qs : List Phrase}
    (first : Spells x s w ps) (second : ∀ a s', s'.Honest → s'.size + w ≤ s.size → Spells (f a) s' 0 qs) :
    Spells (x >>= f) s w (ps ++ qs) :=
  first.behind fun a s' reads => second a s' reads.honest reads.size

theorem Spells.as {α : Type} {x : ParseM α} {s : State} {w : Nat} {ps qs : List Phrase} (h : Spells x s w ps)
    (imp : ∀ ts, Derives (.all ps) ts → Derives (.all qs) ts) : Spells x s 0 qs := by
  refine Ends.mono h ?_
  intro _ s' ⟨reads, spelled⟩
  refine ⟨reads.mono (Nat.zero_le _), fun clean => ?_⟩
  obtain ⟨ts, tokens, derived⟩ := spelled clean
  exact ⟨ts, tokens, imp ts derived⟩

theorem Spells.rule {α : Type} {x : ParseM α} {s : State} {w : Nat} {ps : List Phrase} {c : Nonterminal}
    (h : Spells x s w ps) (imp : ∀ ts, Derives (.all ps) ts → Derives c.production ts) : Spells x s 0 [.rule c] :=
  h.as fun ts derived => derives_singleton_iff.mpr (.rule (imp ts derived))

theorem Reports.spells {α : Type} {x : ParseM α} {s : State} {ps : List Phrase} (h : Reports x s) : Spells x s 0 ps :=
  ⟨h.1, fun clean => absurd clean h.2⟩

theorem spells_pure {α : Type} {s : State} (honest : s.Honest) (a : α) : Spells (pure a : ParseM α) s 0 [] :=
  ⟨.refl honest, fun _ => ⟨[], rfl, .nil⟩⟩

theorem spells_advance {want : Want} {s : State} (honest : s.Honest) (accepts : want.accepts s.current = true) :
    Spells advance s 1 [.token want] := by
  have filled := tokens_ne_nil (accepts_not_eof accepts)
  refine ⟨reads_advance honest filled, fun _ => ?_⟩
  cases tokens : s.tokens with
  | nil => exact absurd tokens filled
  | cons t rest =>
    have advanced := advance_tokens tokens
    have current : s.current = t := by simp only [State.current, tokens, List.head?_cons, Option.getD_some]
    rw [current] at accepts
    exact ⟨[t], by change _ = [t] ++ s.advance.tokens; rw [advanced]; rfl, derives_singleton_iff.mpr (.token accepts)⟩

theorem spells_expect_of_accepts {want : Want} {s : State} (honest : s.Honest) (accepts : want.accepts s.current = true)
    (sync : Sync) : Spells (expect want sync) s 1 [.token want] :=
  (ends_expect_iff accepts).mpr (spells_advance honest accepts)

theorem reports_expect {want : Want} {s : State} (honest : s.Honest) (other : want.accepts s.current = false)
    (sync : Sync) : Reports (expect want sync) s := by
  refine (reports_tryExpect honest other sync).bind fun r s' honest => ?_
  rcases r with ⟨t, _ | recovery⟩
  · exact continues_pure honest t
  · exact (continues_keep honest recovery).bind fun _ _ honest => continues_pure honest t

theorem spells_expect (want : Want) (sync : Sync) {s : State} (honest : s.Honest) :
    Spells (expect want sync) s 0 [.token want] := by
  cases accepts : want.accepts s.current with
  | true => exact (spells_expect_of_accepts honest accepts sync).as fun _ derived => derived
  | false => exact (reports_expect honest accepts sync).spells

theorem derives_many_of_nil {p : Phrase} {ts : List Token} (h : Derives (.all []) ts) : Derives (.all [.many p]) ts := by
  rw [derives_nil_iff.mp h]
  exact derives_singleton_iff.mpr .done

structure Rules.Spell (r : Rules) (n : Nat) : Prop where
  expression : ∀ {s : State}, s.Honest → s.size < n → Spells r.expression s 0 [.rule .expression]
  arguments : ∀ {s : State}, s.Honest → s.size < n → Spells r.arguments s 0 [.rule .args]
  unary : ∀ {s : State}, s.Honest → s.size < n → Spells r.unary s 0 [.rule .unary]
  binary : ∀ {s : State} (least : Nat), s.Honest → s.size < n →
    Spells (r.binary least) s 0 [.rule .unary, climbing least]
  chain : ∀ {s : State} (least : Nat) (left : Expr), s.Honest → s.size < n → Spells (r.chain least left) s 0 [climbing least]
  statement : ∀ {s : State}, s.Honest → s.size < n → Spells r.statement s 0 [.rule .statement]
  statements : ∀ {s : State}, s.Honest → s.size < n → Spells r.statements s 0 [.many (.rule .statement)]
  localVars : ∀ {s : State}, s.Honest → s.size < n → Spells r.localVars s 0 [.many localDecl]
  moreParams : ∀ {s : State}, s.Honest → s.size < n →
    Spells r.moreParams s 0 [.many (.all [.punct .comma, .rule .param])]
  decls : ∀ {s : State}, s.Honest → s.size < n → Ends r.decls s fun _ s' => Reads s s' 0 ∧
    (s'.errors = #[] → Derives (.many (.rule .declaration)) s.tokens)

section Expressions

variable {inner : Rules} {n : Nat} {s : State} (spell : inner.Spell n) (honest : s.Honest)

include spell honest

theorem spells_afterName (id : Ident) (bound : s.size < n) : Spells (afterName inner id) s 0 [selector] := by
  unfold afterName
  refine ends_at ?_
  split
  · rename_i bracket
    refine ((spells_advance honest bracket).bind fun _ s₁ honest₁ size₁ =>
      (spell.expression honest₁ (by omega)).bind fun e s₂ honest₂ _ =>
      (spells_expect _ _ honest₂).bind fun _ s₃ honest₃ _ => spells_pure honest₃ _).as fun ts derived => ?_
    exact derives_singleton_iff.mpr (derives_opt_iff.mpr (.inr (.any (.head _) derived)))
  · refine ends_at ?_
    split
    · rename_i paren
      have call : ∀ {x : ParseM Expr}, Spells x s 1 [.punct .lparen, .opt (.rule .args), .punct .rparen] →
          Spells x s 0 [selector] := fun whole => whole.as fun ts derived =>
        derives_singleton_iff.mpr (derives_opt_iff.mpr (.inr (.any (.tail _ (.head _)) derived)))
      refine call ((spells_advance honest paren).bind fun _ s₁ honest₁ size₁ => ends_at ?_)
      split
      · exact ((spells_expect _ _ honest₁).bind fun _ _ honest₂ _ => spells_pure honest₂ _).as fun _ => .omit
      · exact ((spell.arguments honest₁ (by omega)).bind fun _ _ honest₂ _ =>
          (spells_expect _ _ honest₂).bind fun _ _ honest₃ _ => spells_pure honest₃ _).as fun _ => .take
    · exact (spells_pure honest _).as fun _ => .omit

theorem spells_factor (bound : s.size < n + 1) : Spells (factor inner) s 0 [.rule .factor] := by
  unfold factor
  refine ends_current ?_
  split
  · rename_i paren
    refine ((spells_advance honest (accepts_punct_iff.mpr paren)).bind fun _ _ honest₁ size₁ =>
      (spell.expression honest₁ (by omega)).bind fun e _ honest₂ _ =>
      (spells_expect _ _ honest₂).bind fun _ _ honest₃ _ => spells_pure honest₃ e).rule fun ts derived => ?_
    exact .any (.head _) derived
  · rename_i n numeral
    have accepts : Want.number.accepts s.current = true := by simp [Want.accepts, numeral]
    refine ((spells_advance honest accepts).bind fun _ _ honest₁ _ => spells_pure honest₁ _).rule fun ts derived => ?_
    exact .any (.tail _ (.head _)) (derives_singleton_iff.mp derived)
  · rename_i name isName
    have accepts : Want.ident.accepts s.current = true := by simp [Want.accepts, isName]
    refine ((spells_advance honest accepts).bind fun _ _ honest₁ size₁ =>
      spells_afterName spell honest₁ _ (by omega)).rule fun ts derived => ?_
    exact .any (.tail _ (.tail _ (.head _))) derived
  · exact (((reports_unexpectedEnd honest).bind fun recovery _ honest =>
      (continues_keep honest recovery).bind fun _ _ honest => continues_pure honest Expr.missing)).spells
  · split
    · exact ends_get ((reports_report _ _ honest).bind fun recovery _ honest =>
        (continues_keep honest recovery).bind fun _ _ honest => continues_pure honest Expr.missing).spells
    · exact ((reports_report _ _ honest).bind fun recovery _ honest =>
        (continues_keep honest recovery).bind fun _ _ honest =>
        (continues_advance honest).bind fun _ _ honest => continues_pure honest Expr.missing).spells

theorem spells_unary (bound : s.size < n + 1) : Spells (unary inner) s 0 [.rule .unary] := by
  unfold unary
  refine ends_current ?_
  split
  · rename_i op operator
    have isPunct : ∃ p, s.current.terminal = .punct p := by
      unfold unaryOp? at operator
      split at operator
      · exact ⟨_, by assumption⟩
      · cases operator
    obtain ⟨p, isPunct⟩ := isPunct
    refine ((spells_advance honest (accepts_punct_iff.mpr isPunct)).bind fun _ _ honest₁ size₁ =>
      (spell.unary honest₁ (by omega)).bind fun e _ honest₂ _ => spells_pure honest₂ _).as fun ts derived => ?_
    obtain ⟨_, u, rfl, first, operand⟩ := derives_cons_iff.mp derived
    obtain ⟨t, rfl, accepts⟩ := derives_token_iff.mp first
    refine derives_singleton_iff.mpr (Grammar.derives_unary_iff.mpr (.inl ⟨t, u, rfl, ?_, derives_singleton_iff.mp operand⟩))
    unfold unaryOp? at operator ⊢
    rw [isPunct] at operator
    rw [accepts_punct_iff.mp accepts]
    exact Option.isSome_of_eq_some operator
  · exact (spells_factor spell honest bound).rule fun ts derived =>
      .any (.tail _ (.head _)) (derives_singleton_iff.mp derived)

theorem spells_chain (least : Nat) (left : Expr) (bound : s.size < n + 1) :
    Spells (chain inner least left) s 0 [climbing least] := by
  have stop : Spells (return left) s 0 [climbing least] :=
    (spells_pure honest left).as fun _ => derives_many_of_nil
  unfold chain
  refine ends_current ?_
  split
  · rename_i op operator
    split
    · rename_i tight
      have isPunct : ∃ p, s.current.terminal = .punct p ∧ p.binaryOp? = some op := by
        unfold binaryOp? at operator
        split at operator
        · exact ⟨_, by assumption, operator⟩
        · cases operator
      obtain ⟨p, isPunct, isOperator⟩ := isPunct
      refine ((spells_advance honest (accepts_punct_iff.mpr isPunct)).bind fun _ _ honest₁ size₁ =>
        (spell.binary _ honest₁ (by omega)).bind fun right s₂ honest₂ size₂ =>
        spell.chain _ _ honest₂ (by omega)).as fun ts derived => ?_
      obtain ⟨_, _, rfl, first, rest⟩ := derives_cons_iff.mp derived
      obtain ⟨t, rfl, accepts⟩ := derives_token_iff.mp first
      obtain ⟨u, _, rfl, operand, rest⟩ := derives_cons_iff.mp rest
      obtain ⟨c, c', rfl, tighter, rest⟩ := derives_cons_iff.mp rest
      have operator' : binaryOp? t = some op := by rw [binaryOp?, accepts_punct_iff.mp accepts]; exact isOperator
      have later := Grammar.many_append (Grammar.climbing_mono (by omega) tighter) (derives_singleton_iff.mp rest)
      have whole : Derives (climbing least) (t :: (u ++ (c ++ c'))) := Grammar.climbing_cons operator' tight operand later
      exact derives_singleton_iff.mpr whole
    · exact stop
  · exact stop

theorem spells_binary (least : Nat) (bound : s.size < n + 1) :
    Spells (binary inner least) s 0 [.rule .unary, climbing least] := by
  unfold binary
  exact (spells_unary spell honest bound).bind fun left _ honest₁ size₁ => spells_chain spell honest₁ least left (by omega)

theorem spells_expression (bound : s.size < n + 1) : Spells (expression inner) s 0 [.rule .expression] := by
  unfold expression
  refine ((spells_binary spell honest 1 bound).bind fun target s₁ honest₁ size₁ =>
    show Spells _ s₁ 0 [.opt (.all [.punct .assign, .rule .expression])] from ends_current (ends_at ?_)).rule
    fun ts derived => ?_
  · split
    · rename_i assign
      refine ((spells_advance honest₁ assign).bind fun _ _ honest₂ size₂ =>
        (spell.expression honest₂ (by omega)).bind fun _ _ honest₃ _ => spells_pure honest₃ _).as fun ts derived => ?_
      exact derives_singleton_iff.mpr (derives_opt_iff.mpr (.inr derived))
    · exact (spells_pure honest₁ target).as fun _ => .omit
  · obtain ⟨u, _, rfl, operand, rest⟩ := derives_cons_iff.mp derived
    obtain ⟨c, r, rfl, chain, rest⟩ := derives_cons_iff.mp rest
    rw [← List.append_assoc]
    exact .cons (Grammar.level_of_climbing (k := 1) (by omega) (by omega) operand chain) rest

theorem spells_arguments (bound : s.size < n + 1) : Spells (arguments inner) s 0 [.rule .args] := by
  unfold arguments
  refine ((spells_expression spell honest bound).bind fun first s₁ honest₁ size₁ =>
    show Spells _ s₁ 0 [.many (.all [.punct .comma, .rule .expression])] from ends_at ?_).rule fun _ derived => derived
  split
  · rename_i comma
    refine ((spells_advance honest₁ comma).bind fun _ _ honest₂ size₂ =>
      (spell.arguments honest₂ (by omega)).bind fun _ _ honest₃ _ => spells_pure honest₃ _).as fun ts derived => ?_
    obtain ⟨c, _, rfl, first, rest⟩ := derives_cons_iff.mp derived
    obtain ⟨e, es, rfl, second, rest⟩ := derives_cons_iff.mp (derives_rule_iff.mp (derives_singleton_iff.mp rest))
    rw [← List.append_assoc]
    exact derives_singleton_iff.mpr (.more (.cons first (derives_singleton_iff.mpr second)) (derives_singleton_iff.mp rest))
  · exact (spells_pure honest₁ _).as fun _ => derives_many_of_nil

end Expressions

theorem Spells.continues {α : Type} {x : ParseM α} {s : State} {w : Nat} {ps : List Phrase} (h : Spells x s w ps) :
    Continues x s :=
  h.1.mono (Nat.zero_le _)

theorem Continues.bind_of_reads {α β : Type} {x : ParseM α} {f : α → ParseM β} {s : State} (first : Continues x s)
    (second : ∀ a s', Reads s s' 0 → Continues (f a) s') : Continues (x >>= f) s := by
  refine Ends.bind first fun a s' reads => ?_
  exact (second a s' reads).mono fun _ _ later => reads.trans later

theorem Reports.bind_of_reads {α β : Type} {x : ParseM α} {f : α → ParseM β} {s : State} (first : Reports x s)
    (second : ∀ a s', Reads s s' 0 → Continues (f a) s') : Reports (x >>= f) s := by
  refine Ends.bind first ?_
  intro a s' ⟨reads, reported⟩
  refine (second a s' reads).mono ?_
  intro b s'' later
  exact ⟨reads.trans later, fun clean => reported (later.clean clean)⟩

theorem spells_tryExpect {α : Type} {want : Want} {sync : Sync} {f : Option Token × Option Recovery → ParseM α} {s : State}
    {ps : List Phrase} (honest : s.Honest) (accepts : want.accepts s.current = true)
    (rest : ∀ s', s'.Honest → s'.size + 1 ≤ s.size → Spells (f (some s.current, none)) s' 0 ps) :
    Spells (tryExpect want sync >>= f) s 1 (.token want :: ps) := by
  have whole := (spells_advance honest accepts).bind fun _ s' => rest s'
  unfold Spells Ends at whole ⊢
  rw [StateT.run_bind, tryExpect_of_accepts accepts]
  exact whole

theorem spells_type {s : State} (honest : s.Honest) (type : typeSync.has s.current = true) :
    Spells advance s 1 [.rule .typeSpec] := by
  obtain ⟨want, member, accepts⟩ := List.any_eq_true.mp type
  obtain ⟨reads, spelled⟩ := spells_advance honest accepts
  refine ⟨reads, fun clean => ?_⟩
  obtain ⟨ts, tokens, derived⟩ := spelled clean
  have isType : Phrase.token want ∈ [Phrase.keyword .int, Phrase.keyword .void] := by
    simpa [typeSync, Phrase.keyword] using member
  exact ⟨ts, tokens, derives_singleton_iff.mpr (.rule (.any isType (derives_singleton_iff.mp derived)))⟩

theorem spells_varDecl (type : TypeName) (id : Ident) (sync : Sync) {s : State} (honest : s.Honest) :
    Spells (varDecl type id sync) s 0 [.opt (.all [.punct .lbracket, .token .number, .punct .rbracket]),
      .punct .semicolon] := by
  unfold varDecl
  refine ends_at ?_
  split
  · rename_i bracket
    refine ((spells_advance honest bracket).bind fun _ _ honest₁ _ =>
      (spells_expect _ _ honest₁).bind fun _ _ honest₂ _ =>
      (spells_expect _ _ honest₂).bind fun _ _ honest₃ _ =>
      (spells_expect _ _ honest₃).bind fun _ _ honest₄ _ => spells_pure honest₄ _).as fun ts derived => .take ?_
    have split : Derives (.all ([.punct .lbracket, .token .number, .punct .rbracket] ++ [.punct .semicolon])) ts := derived
    obtain ⟨a, b, rfl, extent, rest⟩ := derives_append_iff.mp split
    exact .cons extent rest
  · exact ((spells_expect _ _ honest).bind fun _ _ honest₁ _ => spells_pure honest₁ _).as fun _ => .omit

section Statements

variable {inner : Rules} {n : Nat} {s : State} (spell : inner.Spell n) (honest : s.Honest)

include spell honest

theorem spells_localVars (bound : s.size < n + 1) : Spells (localVars inner) s 0 [.many localDecl] := by
  unfold localVars
  refine ends_atType ?_
  split
  · rename_i type
    refine ends_current (((spells_type honest type).bind fun _ s₁ honest₁ size₁ =>
      show Spells _ s₁ 0 [.token .ident, .opt (.all [.punct .lbracket, .token .number, .punct .rbracket]),
        .punct .semicolon, .many localDecl] from ?_).as fun ts derived => ?_)
    · have variable_ : ∀ (type : TypeName) (name : Token) {s₂ : State}, s₂.Honest → s₂.size < n →
          Spells (do let var ← varDecl type (ident name) stmtSync
                     return var :: (← inner.localVars)) s₂ 0
            [.opt (.all [.punct .lbracket, .token .number, .punct .rbracket]), .punct .semicolon, .many localDecl] :=
        fun type name _ honest₂ bound₂ => (spells_varDecl _ _ _ honest₂).bind fun _ _ honest₃ size₃ =>
          (spell.localVars honest₃ (by omega)).bind fun _ _ honest₄ _ => spells_pure honest₄ _
      cases accepts : Want.ident.accepts s₁.current with
      | true =>
        exact (spells_tryExpect honest₁ accepts fun s₂ honest₂ size₂ =>
          variable_ _ _ honest₂ (by omega)).as fun _ derived => derived
      | false =>
        refine ((reports_tryExpect honest₁ accepts stmtSync).bind_of_reads fun r s₂ reads₂ => ?_).spells
        have small := reads₂.size
        rcases r with ⟨_ | name, recovery⟩
        · have rest : ∀ {s₃ : State}, Reads s₂ s₃ 0 →
              Continues (do if ← at_ (.punct .semicolon) then advance
                            inner.localVars) s₃ := by
            intro s₃ reads₃
            have small₃ := reads₃.size
            refine ends_at ?_
            split
            · have advanced := reads_advance_any reads₃.honest
              have small₄ := advanced.size
              exact (continues_advance reads₃.honest).bind_of_reads fun _ s₄ reads₄ =>
                (spell.localVars reads₄.honest (by have := reads₄.size; omega)).continues
            · exact (spell.localVars reads₃.honest (by omega)).continues
          cases recovery with
          | none => exact rest (.refl reads₂.honest)
          | some recovery => exact (continues_keep reads₂.honest recovery).bind_of_reads fun _ _ kept => rest kept
        · exact (variable_ _ _ reads₂.honest (by omega)).continues
    · have split : Derives (.all ([.rule .typeSpec, .token .ident,
          .opt (.all [.punct .lbracket, .token .number, .punct .rbracket]), .punct .semicolon] ++ [.many localDecl])) ts :=
        derived
      obtain ⟨a, b, rfl, first, rest⟩ := derives_append_iff.mp split
      exact derives_singleton_iff.mpr (.more first (derives_singleton_iff.mp rest))
  · exact (spells_pure honest _).as fun _ => derives_many_of_nil

omit honest in
theorem spells_compound {w : Nat} (opening : Spells (expect (.punct .lbrace) stmtSync) s w [.punct .lbrace])
    (bound : s.size < n + w) : Spells (compound inner) s 0 [.rule .compoundStmt] := by
  unfold compound
  refine (opening.bind fun _ _ honest₁ size₁ =>
    (spell.localVars honest₁ (by omega)).bind fun vars _ honest₂ size₂ =>
    (spell.statements honest₂ (by omega)).bind fun body _ honest₃ _ =>
    (spells_expect _ _ honest₃).bind fun _ _ honest₄ _ => spells_pure honest₄ _).rule fun _ derived => derived

theorem spells_condition (bound : s.size < n) :
    Spells (condition inner) s 0 [.punct .lparen, .rule .expression, .punct .rparen] := by
  unfold condition
  exact (spells_expect _ _ honest).bind fun _ _ honest₁ size₁ =>
    (spell.expression honest₁ (by omega)).bind fun e _ honest₂ _ =>
    (spells_expect _ _ honest₂).bind fun _ _ honest₃ _ => spells_pure honest₃ e

theorem spells_selection (bound : s.size < n + 1) (keyword : s.current.terminal = .keyword .if_) :
    Spells (selection inner) s 0 [.rule .ifStmt] := by
  unfold selection
  refine ends_current (((spells_advance honest (accepts_keyword_iff.mpr keyword)).bind fun _ _ honest₁ size₁ =>
    (spells_condition spell honest₁ (by omega)).bind fun e _ honest₂ size₂ =>
    (spell.statement honest₂ (by omega)).bind fun body s₃ honest₃ size₃ =>
    show Spells _ s₃ 0 [.opt (.all [.keyword .else_, .rule .statement])] from ends_at ?_).rule fun _ derived => derived)
  split
  · rename_i orElse
    refine ((spells_advance honest₃ orElse).bind fun _ _ honest₄ size₄ =>
      (spell.statement honest₄ (by omega)).bind fun _ _ honest₅ _ => spells_pure honest₅ _).as fun ts derived => ?_
    exact derives_singleton_iff.mpr (derives_opt_iff.mpr (.inr derived))
  · exact (spells_pure honest₃ _).as fun _ => .omit

theorem spells_iteration (bound : s.size < n + 1) (keyword : s.current.terminal = .keyword .while_) :
    Spells (iteration inner) s 0 [.rule .whileStmt] := by
  unfold iteration
  exact ends_current (((spells_advance honest (accepts_keyword_iff.mpr keyword)).bind fun _ _ honest₁ size₁ =>
    (spells_condition spell honest₁ (by omega)).bind fun e _ honest₂ size₂ =>
    (spell.statement honest₂ (by omega)).bind fun _ _ honest₃ _ => spells_pure honest₃ _).rule fun _ derived => derived)

theorem spells_returning (bound : s.size < n + 1) (keyword : s.current.terminal = .keyword .return_) :
    Spells (returning inner) s 0 [.rule .returnStmt] := by
  unfold returning
  refine ends_current (((spells_advance honest (accepts_keyword_iff.mpr keyword)).bind fun _ s₁ honest₁ size₁ =>
    show Spells _ s₁ 0 [.opt (.rule .expression), .punct .semicolon] from ends_at ?_).rule fun _ derived => derived)
  split
  · rename_i semicolon
    exact ((spells_advance honest₁ semicolon).bind fun _ _ honest₂ _ => spells_pure honest₂ _).as fun _ => .omit
  · exact ((spell.expression honest₁ (by omega)).bind fun e _ honest₂ _ =>
      (spells_expect _ _ honest₂).bind fun _ _ honest₃ _ => spells_pure honest₃ _).as fun _ => .take

omit spell in
theorem spells_jump {k : Keyword} (stmt : Nat → Stmt) (keyword : s.current.terminal = .keyword k) :
    Spells (jump stmt) s 0 [.keyword k, .punct .semicolon] := by
  unfold jump
  exact ends_current (((spells_advance honest (accepts_keyword_iff.mpr keyword)).bind fun _ _ honest₁ _ =>
    (spells_expect _ _ honest₁).bind fun _ _ honest₂ _ => spells_pure honest₂ _).as fun _ derived => derived)

theorem spells_statement (bound : s.size < n + 1) : Spells (statement inner) s 0 [.rule .statement] := by
  unfold statement
  refine ends_current ?_
  split
  · rename_i brace
    have opening := spells_expect_of_accepts honest (accepts_punct_iff.mpr brace) stmtSync
    exact ((spells_compound spell opening bound).bind fun _ _ honest₁ _ => spells_pure honest₁ _).rule
      fun ts derived => .any (.head _) (derives_singleton_iff.mp derived)
  · rename_i keyword
    exact (spells_selection spell honest bound keyword).rule fun ts derived =>
      .any (.tail _ (.head _)) (derives_singleton_iff.mp derived)
  · rename_i keyword
    exact (spells_iteration spell honest bound keyword).rule fun ts derived =>
      .any (.tail _ (.tail _ (.head _))) (derives_singleton_iff.mp derived)
  · rename_i keyword
    exact (spells_returning spell honest bound keyword).rule fun ts derived =>
      .any (.tail _ (.tail _ (.tail _ (.head _)))) (derives_singleton_iff.mp derived)
  · rename_i keyword
    exact (spells_jump honest _ keyword).rule fun ts derived =>
      .any (.tail _ (.tail _ (.tail _ (.tail _ (.head _))))) derived
  · rename_i keyword
    exact (spells_jump honest _ keyword).rule fun ts derived =>
      .any (.tail _ (.tail _ (.tail _ (.tail _ (.tail _ (.head _)))))) derived
  · rename_i semicolon
    exact ((spells_advance honest (accepts_punct_iff.mpr semicolon)).bind fun _ _ honest₁ _ =>
      spells_pure honest₁ _).rule fun ts derived =>
      .any (.tail _ (.tail _ (.tail _ (.tail _ (.tail _ (.tail _ (.head _))))))) (.omit derived)
  · split
    · exact ((spells_expression spell honest bound).bind fun e _ honest₁ _ =>
        (spells_expect _ _ honest₁).bind fun _ _ honest₂ _ => spells_pure honest₂ _).rule fun ts derived =>
        .any (.tail _ (.tail _ (.tail _ (.tail _ (.tail _ (.tail _ (.head _))))))) (.take derived)
    · exact ((reports_skip honest stmtSync).bind fun _ _ honest => continues_pure honest Stmt.skipped).spells

theorem spells_statements (bound : s.size < n + 1) : Spells (statements inner) s 0 [.many (.rule .statement)] := by
  unfold statements
  refine ends_at (ends_atEnd ?_)
  split
  · exact (spells_pure honest _).as fun _ => derives_many_of_nil
  · rename_i goesOn
    have tokens : s.tokens ≠ [] := by
      intro nil
      simp [nil] at goesOn
    have filled : s.size ≠ 0 := by simpa [State.size] using tokens
    refine ends_get (((spells_statement spell honest bound).behind fun first s₁ reads₁ =>
      show Spells _ s₁ 0 [.many (.rule .statement)] from ends_get ?_).as fun ts derived => ?_)
    · have size₁ := reads₁.size
      have count₁ := reads₁.count
      have rest : ∀ {s₂ : State}, s₂.Honest → s₂.size < s.size →
          Spells (do return first :: (← inner.statements)) s₂ 0 [.many (.rule .statement)] := fun honest₂ progress =>
        (spell.statements honest₂ (by omega)).bind fun _ _ honest₃ _ => spells_pure honest₃ _
      split
      · -- Nothing was taken, so that a token is skipped.
        rename_i stuck
        have left : s₁.tokens ≠ [] := by
          intro nil
          have none : s₁.size = 0 := by simp [State.size, nil]
          omega
        refine Ends.bind (ends_skip stmtSync reads₁.honest left) ?_
        rintro _ s₂ ⟨reads₂, reported⟩
        have small := reads₂.size
        refine Ends.mono (rest reads₂.honest (by omega)) ?_
        rintro _ s₃ ⟨reads₃, _⟩
        exact ⟨(reads₂.trans reads₃).mono (Nat.zero_le _), fun clean => absurd (reads₃.clean clean) reported⟩
      · rename_i moved
        exact rest reads₁.honest (by omega)
    · obtain ⟨a, b, rfl, first, rest⟩ := derives_cons_iff.mp derived
      exact derives_singleton_iff.mpr (.more first (derives_singleton_iff.mp rest))

end Statements

section Declarations

variable {inner : Rules} {n : Nat} {s : State} (spell : inner.Spell n) (honest : s.Honest)

include honest

theorem spells_paramOf (type : TypeName) :
    Spells (paramOf type) s 0 [.token .ident, .opt (.all [.punct .lbracket, .punct .rbracket])] := by
  have extent : ∀ (name : Token) {s₁ : State}, s₁.Honest →
      Spells (do if ← at_ (.punct .lbracket) then
                   advance
                   let _ ← expect (.punct .rbracket) paramSync
                   return Param.named type (ident name) true
                 else
                   return Param.named type (ident name) false) s₁ 0 [.opt (.all [.punct .lbracket, .punct .rbracket])] := by
    intro name s₁ honest₁
    refine ends_at ?_
    split
    · rename_i bracket
      refine ((spells_advance honest₁ bracket).bind fun _ _ honest₂ _ =>
        (spells_expect _ _ honest₂).bind fun _ _ honest₃ _ => spells_pure honest₃ _).as fun ts derived => ?_
      exact derives_singleton_iff.mpr (derives_opt_iff.mpr (.inr derived))
    · exact (spells_pure honest₁ _).as fun _ => .omit
  unfold paramOf
  cases accepts : Want.ident.accepts s.current with
  | true =>
    obtain ⟨reads, spelled⟩ := ((spells_advance honest accepts).bind fun _ _ honest₁ _ => extent s.current honest₁)
    have run := (@ends_expect_iff .ident paramSync s (fun r s' => r = some s.current ∧ s' = s.advance)
      accepts).mpr ⟨rfl, rfl⟩
    refine Ends.bind run ?_
    rintro _ _ ⟨rfl, rfl⟩
    exact ⟨reads.mono (Nat.zero_le _), spelled⟩
  | false =>
    refine ((reports_expect honest accepts paramSync).bind fun r s₁ honest₁ => ?_).spells
    cases r with
    | none => exact continues_pure honest₁ _
    | some name => exact (extent name honest₁).continues

theorem spells_param : Spells param s 0 [.rule .param] := by
  unfold param
  refine ends_current ?_
  split
  · rename_i type
    exact ((spells_type honest type).bind fun _ _ honest₁ _ => (spells_paramOf honest₁ _).bind fun _ _ honest₂ _ =>
      spells_pure honest₂ _).rule fun _ derived => derived
  · refine ends_atEnd ?_
    split
    · exact ends_get ((reports_report _ _ honest).bind fun recovery _ honest =>
        (continues_keep honest recovery).bind fun _ _ honest => continues_pure honest none).spells
    · exact ((reports_skip honest paramSync).bind fun _ _ honest => continues_pure honest none).spells

include spell

theorem spells_moreParams (bound : s.size < n + 1) :
    Spells (moreParams inner) s 0 [.many (.all [.punct .comma, .rule .param])] := by
  unfold moreParams
  refine ends_at ?_
  split
  · rename_i comma
    refine ((spells_advance honest comma).bind fun _ _ honest₁ size₁ =>
      (spells_param honest₁).bind fun _ _ honest₂ size₂ =>
      (spell.moreParams honest₂ (by omega)).bind fun _ _ honest₃ _ => spells_pure honest₃ _).as fun ts derived => ?_
    have split : Derives (.all ([.punct .comma, .rule .param] ++ [.many (.all [.punct .comma, .rule .param])])) ts := derived
    obtain ⟨a, b, rfl, first, rest⟩ := derives_append_iff.mp split
    exact derives_singleton_iff.mpr (.more first (derives_singleton_iff.mp rest))
  · exact (spells_pure honest _).as fun _ => derives_many_of_nil

theorem spells_params (bound : s.size < n) : Spells (params inner) s 0 [.rule .params] := by
  unfold params
  refine ends_at ?_
  split
  · exact ends_current ((reports_report _ _ honest).bind fun recovery _ honest =>
      (continues_keep honest recovery).bind fun _ _ honest => continues_pure honest (Params.list [])).spells
  · refine ends_at ?_
    split
    · -- The keyword stands for no parameters, or it is the type of the first.
      rename_i void
      have isType : typeSync.has s.current = true := by simp [typeSync, Sync.has, void]
      by_cases alone : (Want.punct .rparen).accepts s.advance.current = true
      · refine ends_advance (ends_at ?_)
        rw [if_pos alone]
        exact ((spells_advance honest void).rule fun ts derived => .any (.head _) (derives_singleton_iff.mp derived))
      · have whole := (spells_type honest isType).bind fun _ _ honest₁ size₁ =>
          (spells_paramOf honest₁ .void).bind fun first _ honest₂ size₂ =>
          (spell.moreParams honest₂ (by omega)).bind fun rest _ honest₃ _ =>
          spells_pure honest₃ (Params.list (first :: rest))
        refine ends_advance (ends_at ?_)
        rw [if_neg alone]
        refine whole.rule fun ts derived => .any (.tail _ (.head _)) ?_
        have split : Derives (.all ([.rule .typeSpec, .token .ident, .opt (.all [.punct .lbracket, .punct .rbracket])] ++
            [.many (.all [.punct .comma, .rule .param])])) ts := derived
        obtain ⟨a, b, rfl, first, rest⟩ := derives_append_iff.mp split
        exact .cons (.rule first) rest
    · exact ((spells_param honest).bind fun _ _ honest₁ size₁ =>
        (spell.moreParams honest₁ (by omega)).bind fun _ _ honest₂ _ => spells_pure honest₂ _).rule fun ts derived =>
        .any (.tail _ (.head _)) derived

theorem spells_function (type : TypeName) (id : Ident) (bound : s.size < n)
    (paren : (Want.punct .lparen).accepts s.current = true) : Spells (function inner type id) s 0
      [.punct .lparen, .rule .params, .punct .rparen, .rule .compoundStmt] := by
  unfold function
  exact ((spells_advance honest paren).bind fun _ _ honest₁ size₁ =>
    (spells_params spell honest₁ (by omega)).bind fun params _ honest₂ size₂ =>
    (spells_expect _ _ honest₂).bind fun _ _ honest₃ size₃ =>
    (spells_compound spell (spells_expect _ _ honest₃) (by omega)).bind fun _ _ honest₄ _ =>
    spells_pure honest₄ _).as fun _ derived => derived

theorem spells_decl (bound : s.size < n + 1) (isType : typeSync.has s.current = true) :
    Spells (decl inner) s 1 [.rule .declaration] := by
  have started := spells_type honest isType
  have whole : Spells (decl inner) s 1 [.rule .typeSpec, .token .ident, .any [
      .punct .semicolon,
      .all [.punct .lbracket, .token .number, .punct .rbracket, .punct .semicolon],
      .all [.punct .lparen, .rule .params, .punct .rparen, .rule .compoundStmt]]] := by
    unfold decl
    refine ends_current ((started.bind fun _ s₁ honest₁ size₁ => show Spells _ s₁ 0 [.token .ident, .any [
      .punct .semicolon,
      .all [.punct .lbracket, .token .number, .punct .rbracket, .punct .semicolon],
      .all [.punct .lparen, .rule .params, .punct .rparen, .rule .compoundStmt]]] from ends_current ?_))
    split
    · rename_i isName
      refine ((spells_advance honest₁ isName).bind fun _ s₂ honest₂ size₂ => show Spells _ s₂ 0 [.any [
        .punct .semicolon,
        .all [.punct .lbracket, .token .number, .punct .rbracket, .punct .semicolon],
        .all [.punct .lparen, .rule .params, .punct .rparen, .rule .compoundStmt]]] from ends_at ?_).as
        fun _ derived => derived
      split
      · rename_i paren
        exact ((spells_function spell honest₂ _ _ (by omega) paren).bind fun _ _ honest₃ _ => spells_pure honest₃ _).as
          fun ts derived => derives_singleton_iff.mpr (.any (.tail _ (.tail _ (.head _))) derived)
      · refine ((spells_varDecl _ _ _ honest₂).bind fun _ _ honest₃ _ => spells_pure honest₃ _).as
          fun ts derived => derives_singleton_iff.mpr ?_
        obtain ⟨a, b, rfl, extent, rest⟩ := derives_cons_iff.mp derived
        rcases derives_opt_iff.mp extent with rfl | array
        · exact .any (.head _) (derives_singleton_iff.mp rest)
        · exact .any (.tail _ (.head _)) (derives_append_iff.mpr ⟨a, b, rfl, array, rest⟩)
    · rename_i notName
      refine ((reports_expect honest₁ (by simpa using notName) declSync).bind fun _ s₂ honest₂ => ends_at ?_).spells
      split
      · exact (continues_advance honest₂).bind fun _ _ honest₃ => continues_pure honest₃ none
      · exact continues_pure honest₂ none
  obtain ⟨reads, spelled⟩ := whole
  refine ⟨reads, fun clean => ?_⟩
  obtain ⟨ts, tokens, derived⟩ := spelled clean
  exact ⟨ts, tokens, derives_singleton_iff.mpr (.rule derived)⟩

theorem ends_decls (bound : s.size < n + 1) : Ends (decls inner) s fun _ s' => Reads s s' 0 ∧
    (s'.errors = #[] → Derives (.many (.rule .declaration)) s.tokens) := by
  unfold decls
  refine ends_atEnd ?_
  split
  · rename_i nil
    refine ⟨.refl honest, fun _ => ?_⟩
    rw [List.isEmpty_iff.mp nil]
    exact .done
  · rename_i notEnd
    have tokens : s.tokens ≠ [] := by simpa using notEnd
    refine ends_atType ?_
    split
    · rename_i isType
      refine Ends.bind (spells_decl spell honest bound isType) ?_
      intro first s₁ ⟨reads₁, spelled₁⟩
      have small := reads₁.size
      refine Ends.bind (spell.decls reads₁.honest (by omega)) ?_
      intro rest s₂ ⟨reads₂, derived₂⟩
      refine ⟨(reads₁.trans reads₂).mono (Nat.zero_le _), fun clean => ?_⟩
      obtain ⟨ts, taken, derived⟩ := spelled₁ (reads₂.clean clean)
      rw [taken]
      exact .more (derives_singleton_iff.mp derived) (derived₂ clean)
    · refine Ends.bind (ends_skip typeSync honest tokens) ?_
      intro _ s₁ ⟨reads₁, reported⟩
      have small := reads₁.size
      refine Ends.mono (spell.decls reads₁.honest (by omega)) ?_
      intro rest s₂ ⟨reads₂, _⟩
      exact ⟨(reads₁.trans reads₂).mono (Nat.zero_le _), fun clean => absurd (reads₂.clean clean) reported⟩

end Declarations

theorem spell_next {inner : Rules} {n : Nat} (spell : inner.Spell n) : inner.next.Spell (n + 1) where
  expression honest bound := spells_expression spell honest bound
  arguments honest bound := spells_arguments spell honest bound
  unary honest bound := spells_unary spell honest bound
  binary least honest bound := spells_binary spell honest least bound
  chain least left honest bound := spells_chain spell honest least left bound
  statement honest bound := spells_statement spell honest bound
  statements honest bound := spells_statements spell honest bound
  localVars honest bound := spells_localVars spell honest bound
  moreParams honest bound := spells_moreParams spell honest bound
  decls honest bound := ends_decls spell honest bound

theorem spell_idle : Rules.idle.Spell 0 := by
  constructor <;> intros <;> omega

theorem spell_rules (n : Nat) : (rules n).Spell (n + 1) := by
  induction n with
  | zero => exact spell_next spell_idle
  | succ n ih => exact spell_next ih

theorem ends_source {s : State} (honest : s.Honest) :
    Ends source s fun _ s' => s'.errors = #[] → Derives (.rule .program) s.tokens := by
  unfold source
  refine ends_atEnd ?_
  split
  · refine Ends.mono (Reports.bind_of_reads (reports_unexpectedEnd honest) fun recovery s₁ reads₁ =>
      (continues_keep reads₁.honest recovery).bind fun _ s₂ honest₂ => ends_get ?_) fun _ s' ended clean =>
        absurd clean ended.2
    refine Ends.bind ((spell_rules s₂.size).decls honest₂ (by omega)) ?_
    intro ds s₃ ⟨reads₃, _⟩
    exact reads₃
  · rename_i notEnd
    refine ends_get (Ends.bind ((spell_rules s.size).decls honest (by omega)) ?_)
    intro ds s₁ ⟨_, derived⟩ clean
    rcases derives_many_iff.mp (derived clean) with nil | ⟨a, b, tokens, first, rest⟩
    · simp [nil] at notEnd
    · rw [tokens]
      exact .rule (.cons first (derives_singleton_iff.mpr rest))

theorem derives_of_clean {stream : TokenStream} (clean : (Parsed.ofTokens stream).errors = []) :
    Derives (.rule .program) stream.tokens := by
  have honest : (State.start stream).Honest := fun h => by cases h
  refine ends_source honest ?_
  change (source.run (State.start stream)).2.errors.toList = [] at clean
  simpa using clean

end MiniC.Parser
