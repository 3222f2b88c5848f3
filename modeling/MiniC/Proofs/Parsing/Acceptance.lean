import MiniC.Proofs.Compilation
import MiniC.Proofs.Parsing.Derivation

namespace MiniC.Parser

open MiniC.Grammar (Nonterminal Phrase Derives Nearest derives_token_iff derives_rule_iff derives_nil_iff derives_cons_iff
  derives_singleton_iff derives_many_iff derives_opt_iff derives_any_iff not_derives_any_nil climbing selector localDecl
  accepts_punct_iff accepts_keyword_iff accepts_ident_iff accepts_number_iff)

/-- The way to a state with the tokens `rest`, on which nothing is reported. -/
structure Took (s s' : State) (rest : List Token) : Prop where
  tokens : s'.tokens = rest
  errors : s'.errors = s.errors
  count : s'.size + s'.taken = s.size + s.taken

theorem Took.trans {s s' s'' : State} {mid rest : List Token} (first : Took s s' mid) (second : Took s' s'' rest) :
    Took s s'' rest :=
  ⟨second.tokens, second.errors.trans first.errors, second.count.trans first.count⟩

/-- An action that leaves the tokens `rest` and reports nothing. -/
def Takes {α : Type} (x : ParseM α) (s : State) (rest : List Token) : Prop :=
  Ends x s fun _ s' => Took s s' rest

theorem Takes.behind {α β : Type} {x : ParseM α} {f : α → ParseM β} {s : State} {mid rest : List Token}
    (first : Takes x s mid) (second : ∀ a s', Took s s' mid → Takes (f a) s' rest) : Takes (x >>= f) s rest :=
  Ends.bind first fun a s' took => (second a s' took).mono fun _ _ later => took.trans later

theorem Takes.bind {α β : Type} {x : ParseM α} {f : α → ParseM β} {s : State} {mid rest : List Token}
    (first : Takes x s mid) (second : ∀ a s', s'.tokens = mid → Takes (f a) s' rest) : Takes (x >>= f) s rest :=
  first.behind fun a s' took => second a s' took.tokens

section Steps

variable {s : State} {t : Token} {rest : List Token}

theorem takes_pure {α : Type} (tokens : s.tokens = rest) (a : α) : Takes (pure a : ParseM α) s rest :=
  ⟨tokens, rfl, rfl⟩

theorem current_of_cons (tokens : s.tokens = t :: rest) : s.current = t := by
  simp only [State.current, tokens, List.head?_cons, Option.getD_some]

theorem takes_advance (tokens : s.tokens = t :: rest) : Takes advance s rest := by
  have size : s.size = rest.length + 1 := by rw [State.size, tokens, List.length_cons]
  change Took s s.advance rest
  rw [advance_of_cons tokens]
  refine ⟨rfl, rfl, ?_⟩
  show rest.length + (s.taken + 1) = s.size + s.taken
  omega

theorem takes_expect {want : Want} {sync : Sync} (tokens : s.tokens = t :: rest) (accepts : want.accepts t = true) :
    Takes (expect want sync) s rest := by
  refine (ends_expect_iff (by rw [current_of_cons tokens]; exact accepts)).mpr ?_
  exact takes_advance tokens

theorem head_of_current (notEof : s.current.terminal ≠ .eof) : s.tokens.head? = some s.current := by
  cases tokens : s.tokens with
  | nil => exact absurd (current_eof_of_nil tokens) notEof
  | cons t rest => rw [current_of_cons tokens, List.head?_cons]

end Steps

def strength? (t : Token) : Option Nat :=
  match t.terminal with
  | .punct .assign => some 0
  | .punct .lbracket | .punct .lparen => some 7
  | .punct p => p.binaryOp?.map (·.precedence)
  | _ => none

theorem strength_of_binaryOp {t : Token} {op : BinaryOp} (operator : binaryOp? t = some op) :
    strength? t = some op.precedence := by
  rcases t with ⟨terminal, line⟩
  cases terminal with
  | punct p =>
    unfold binaryOp? at operator
    cases p <;> simp [Punct.binaryOp?] at operator <;> subst operator <;> rfl
  | keyword | ident | number | eof => simp [binaryOp?] at operator

/-- No token follows that would bind as tightly as `k` or more tightly. -/
def Ended (k : Nat) (rest : List Token) : Prop :=
  ∀ t p, rest.head? = some t → strength? t = some p → p < k

section Ending

variable {k : Nat} {rest : List Token} {s : State} {t : Token}

theorem Ended.mono {j : Nat} (h : Ended j rest) (le : j ≤ k) : Ended k rest :=
  fun t p head strong => Nat.lt_of_lt_of_le (h t p head strong) le

theorem ended_of_closer {p : Punct} (closing : t.terminal = .punct p)
    (closer : p ∈ [Punct.rparen, .rbracket, .semicolon, .comma]) : Ended k (t :: rest) := by
  rintro _ q ⟨⟩ strong
  simp only [List.mem_cons, List.not_mem_nil, or_false] at closer
  rcases closer with rfl | rfl | rfl | rfl <;> simp [strength?, closing, Punct.binaryOp?] at strong

theorem Ended.not_accepts (h : Ended k rest) (tokens : s.tokens = rest) {p : Punct} {q : Nat}
    (strong : ∀ t : Token, t.terminal = .punct p → strength? t = some q) (le : k ≤ q) :
    (Want.punct p).accepts s.current = false := by
  cases accepts : (Want.punct p).accepts s.current with
  | false => rfl
  | true =>
    have shown := accepts_punct_iff.mp accepts
    have head := head_of_current (by rw [shown]; exact fun h => by cases h)
    rw [tokens] at head
    have := h _ q head (strong _ shown)
    omega

theorem Ended.precedence_lt (h : Ended k rest) (tokens : s.tokens = rest) {op : BinaryOp}
    (operator : binaryOp? s.current = some op) : op.precedence < k := by
  have notEof : s.current.terminal ≠ .eof := by
    intro eof
    simp [binaryOp?, eof] at operator
  have head := head_of_current notEof
  rw [tokens] at head
  exact h _ _ head (strength_of_binaryOp operator)

theorem ended_climbing {j : Nat} {c : List Token} (h : Derives (climbing j) c) (ended : Ended k rest)
    (loose : ∀ t op, c.head? = some t → binaryOp? t = some op → op.precedence < k) : Ended k (c ++ rest) := by
  rcases derives_many_iff.mp h with rfl | ⟨_, c', rfl, one, _⟩
  · exact ended
  · obtain ⟨o, op, u, rfl, operator, _, _⟩ := Grammar.derives_operation_iff.mp one
    rintro _ p ⟨⟩ strong
    rw [strength_of_binaryOp operator] at strong
    cases strong
    exact loose o op rfl operator

end Ending

def Next (p : Punct) (rest : List Token) : Prop :=
  ∃ t rest', rest = t :: rest' ∧ t.terminal = .punct p

/-- Unless the statement is closed, no `else` follows it. -/
def NoElse (closed : Bool) (rest : List Token) : Prop :=
  closed = false → ∀ t, rest.head? = some t → t.terminal ≠ .keyword .else_

structure Rules.Accept (r : Rules) (n : Nat) : Prop where
  expression : ∀ {s : State} {ts rest : List Token}, (ts ++ rest).length < n → s.tokens = ts ++ rest →
    Derives (.rule .expression) ts → Ended 0 rest → Takes r.expression s rest
  arguments : ∀ {s : State} {ts rest : List Token}, (ts ++ rest).length < n → s.tokens = ts ++ rest →
    Derives (.rule .args) ts → Next .rparen rest → Takes r.arguments s rest
  unary : ∀ {s : State} {ts rest : List Token}, (ts ++ rest).length < n → s.tokens = ts ++ rest →
    Derives (.rule .unary) ts → Ended 7 rest → Takes r.unary s rest
  binary : ∀ {s : State} {u c rest : List Token} {least : Nat}, (u ++ (c ++ rest)).length < n → s.tokens = u ++ (c ++ rest) →
    Derives (.rule .unary) u → Derives (climbing least) c → least ≤ 7 → Ended least rest → Takes (r.binary least) s rest
  chain : ∀ {s : State} {ts rest : List Token} {least : Nat} (left : Expr), (ts ++ rest).length < n → s.tokens = ts ++ rest →
    Derives (climbing least) ts → Ended least rest → Takes (r.chain least left) s rest
  statement : ∀ {s : State} {ts rest : List Token} {closed : Bool}, (ts ++ rest).length < n → s.tokens = ts ++ rest →
    Nearest closed ts → NoElse closed rest → Takes r.statement s rest
  statements : ∀ {s : State} {ts rest : List Token}, (ts ++ rest).length < n → s.tokens = ts ++ rest →
    Derives (.many (.rule .statement)) ts → Next .rbrace rest → Takes r.statements s rest
  localVars : ∀ {s : State} {ts rest : List Token}, (ts ++ rest).length < n → s.tokens = ts ++ rest →
    Derives (.many localDecl) ts → (∀ t, rest.head? = some t → typeSync.has t = false) → Takes r.localVars s rest
  moreParams : ∀ {s : State} {ts rest : List Token}, (ts ++ rest).length < n → s.tokens = ts ++ rest →
    Derives (.many (.all [.punct .comma, .rule .param])) ts → Next .rparen rest → Takes r.moreParams s rest
  decls : ∀ {s : State}, s.tokens.length < n → Derives (.many (.rule .declaration)) s.tokens → Takes r.decls s []

section Expressions

variable {inner : Rules} {n : Nat} {s : State} {ts rest : List Token} (accept : inner.Accept n)

include accept

theorem takes_factor (bound : (ts ++ rest).length < n + 1) (tokens : s.tokens = ts ++ rest)
    (derived : Derives (.rule .factor) ts) (ended : Ended 7 rest) : Takes (factor inner) s rest := by
  rcases Grammar.factor_cases derived with ⟨o, e, c, rfl, opening, value, closing⟩ | ⟨t, n, rfl, number⟩ |
    ⟨t, name, r, rfl, isName, selected⟩
  · replace tokens : s.tokens = o :: (e ++ c :: rest) := by simpa using tokens
    simp only [List.length_append, List.length_cons, List.length_nil] at bound
    unfold factor
    refine ends_current ?_
    rw [current_of_cons tokens, opening]
    exact (takes_advance tokens).bind fun _ s₁ tokens₁ =>
      (accept.expression (by simp; omega) tokens₁ value (ended_of_closer closing (by simp))).bind fun _ s₂ tokens₂ =>
      (takes_expect tokens₂ (accepts_punct_iff.mpr closing)).bind fun _ s₃ tokens₃ => takes_pure tokens₃ _
  · unfold factor
    refine ends_current ?_
    rw [current_of_cons tokens, number]
    exact (takes_advance tokens).bind fun _ s₁ tokens₁ => takes_pure tokens₁ _
  · unfold factor
    refine ends_current ?_
    rw [current_of_cons tokens, isName]
    refine (takes_advance tokens).bind fun _ s₁ tokens₁ => ?_
    change s₁.tokens = r ++ rest at tokens₁
    unfold afterName
    rcases selected with rfl | ⟨o, e, c, rfl, opening, value, closing⟩ | ⟨o, a, c, rfl, opening, args, closing⟩
    · have bracket := ended.not_accepts tokens₁ (p := .lbracket) (q := 7) (fun t shown => by simp [strength?, shown])
        (Nat.le_refl _)
      have paren := ended.not_accepts tokens₁ (p := .lparen) (q := 7) (fun t shown => by simp [strength?, shown])
        (Nat.le_refl _)
      refine ends_at ?_
      rw [bracket]
      refine ends_at ?_
      rw [paren]
      exact takes_pure tokens₁ _
    · replace tokens₁ : s₁.tokens = o :: (e ++ c :: rest) := by simpa using tokens₁
      simp only [List.length_append, List.length_cons, List.length_nil] at bound
      refine ends_at ?_
      rw [current_of_cons tokens₁, if_pos (accepts_punct_iff.mpr opening)]
      exact (takes_advance tokens₁).bind fun _ s₂ tokens₂ =>
        (accept.expression (by simp; omega) tokens₂ value (ended_of_closer closing (by simp))).bind fun _ s₃ tokens₃ =>
        (takes_expect tokens₃ (accepts_punct_iff.mpr closing)).bind fun _ s₄ tokens₄ => takes_pure tokens₄ _
    · replace tokens₁ : s₁.tokens = o :: (a ++ c :: rest) := by simpa using tokens₁
      simp only [List.length_append, List.length_cons, List.length_nil] at bound
      have other : (Want.punct .lbracket).accepts o = false := by simp [Want.accepts, opening]
      refine ends_at ?_
      rw [current_of_cons tokens₁, other]
      refine ends_at ?_
      rw [current_of_cons tokens₁, accepts_punct_iff.mpr opening]
      refine (takes_advance tokens₁).bind fun _ s₂ tokens₂ => ends_at ?_
      rcases args with rfl | args
      · rw [current_of_cons tokens₂, accepts_punct_iff.mpr closing]
        exact (takes_expect tokens₂ (accepts_punct_iff.mpr closing)).bind fun _ s₃ tokens₃ => takes_pure tokens₃ _
      · have filled : (Want.punct .rparen).accepts s₂.current = false := by
          obtain ⟨e, es, rfl, first, _⟩ := derives_cons_iff.mp (derives_rule_iff.mp args)
          obtain ⟨t, r, rfl, starts⟩ := Grammar.starts_expression first
          rw [current_of_cons tokens₂]
          cases accepts : (Want.punct .rparen).accepts t with
          | false => rfl
          | true => simp [startsExpression, accepts_punct_iff.mp accepts] at starts
        rw [filled]
        exact (accept.arguments (by simp; omega) tokens₂ args ⟨c, rest, rfl, closing⟩).bind fun _ s₃ tokens₃ =>
          (takes_expect tokens₃ (accepts_punct_iff.mpr closing)).bind fun _ s₄ tokens₄ => takes_pure tokens₄ _

theorem takes_unary (bound : (ts ++ rest).length < n + 1) (tokens : s.tokens = ts ++ rest)
    (derived : Derives (.rule .unary) ts) (ended : Ended 7 rest) : Takes (unary inner) s rest := by
  unfold unary
  refine ends_current ?_
  rcases Grammar.derives_unary_iff.mp derived with ⟨t, u, rfl, operator, operand⟩ | factor
  · obtain ⟨op, operator⟩ := Option.isSome_iff_exists.mp operator
    simp only [List.length_append, List.length_cons] at bound
    rw [current_of_cons tokens, operator]
    exact (takes_advance tokens).bind fun _ s₁ tokens₁ =>
      (accept.unary (by simp; omega) tokens₁ operand ended).bind fun _ s₂ tokens₂ => takes_pure tokens₂ _
  · obtain ⟨t, r, rfl, _, plain⟩ := Grammar.starts_factor factor
    rw [current_of_cons tokens, plain]
    exact takes_factor accept bound tokens factor ended

theorem takes_chain {least : Nat} (left : Expr) (bound : (ts ++ rest).length < n + 1) (tokens : s.tokens = ts ++ rest)
    (derived : Derives (climbing least) ts) (ended : Ended least rest) : Takes (chain inner least left) s rest := by
  unfold chain
  refine ends_current ?_
  rcases derives_many_iff.mp derived with rfl | ⟨_, c, rfl, one, later⟩
  · split
    · rename_i op operator
      have loose := ended.precedence_lt tokens operator
      rw [if_neg (by omega)]
      exact takes_pure tokens _
    · exact takes_pure tokens _
  · obtain ⟨t, op, u, rfl, operator, tight, operand⟩ := Grammar.derives_operation_iff.mp one
    obtain ⟨a, b, rfl, tighter, looser, stops⟩ := Grammar.climbing_split later (op.precedence + 1)
    replace tokens : s.tokens = t :: (u ++ (a ++ (b ++ rest))) := by simpa using tokens
    simp only [List.length_append, List.length_cons] at bound
    have high := Grammar.precedence_le op
    have ended' := ended_climbing looser (ended.mono (by omega)) stops
    rw [current_of_cons tokens, operator]
    simp only [tight, if_true]
    exact (takes_advance tokens).bind fun _ s₁ tokens₁ =>
      (accept.binary (by simp; omega) tokens₁ operand tighter (by omega) ended').bind fun _ s₂ tokens₂ =>
      accept.chain _ (by simp; omega) tokens₂ looser ended

theorem takes_binary {u c : List Token} {least : Nat} (bound : (u ++ (c ++ rest)).length < n + 1)
    (tokens : s.tokens = u ++ (c ++ rest)) (operand : Derives (.rule .unary) u) (derived : Derives (climbing least) c)
    (high : least ≤ 7) (ended : Ended least rest) : Takes (binary inner least) s rest := by
  have ended' : Ended 7 (c ++ rest) := by
    refine ended_climbing derived (ended.mono high) fun t op _ _ => ?_
    have := Grammar.precedence_le op
    omega
  unfold binary
  exact (takes_unary accept bound tokens operand ended').bind fun left s₁ tokens₁ =>
    takes_chain accept left (by simp at bound ⊢; omega) tokens₁ derived ended

theorem takes_expression (bound : (ts ++ rest).length < n + 1) (tokens : s.tokens = ts ++ rest)
    (derived : Derives (.rule .expression) ts) (ended : Ended 0 rest) : Takes (expression inner) s rest := by
  obtain ⟨u, c, r, rfl, operand, chain, assigned⟩ := Grammar.derives_expression_iff.mp derived
  replace tokens : s.tokens = u ++ (c ++ (r ++ rest)) := by simpa using tokens
  simp only [List.length_append] at bound
  unfold expression
  rcases assigned with rfl | ⟨t, e, rfl, assign, value⟩
  · refine (takes_binary accept (by simp; omega) tokens operand chain (by omega) (ended.mono (by omega))).bind
      fun target s₁ tokens₁ => ends_current (ends_at ?_)
    rw [ended.not_accepts tokens₁ (p := .assign) (q := 0) (fun t shown => by simp [strength?, shown]) (Nat.le_refl _)]
    exact takes_pure tokens₁ _
  · simp only [List.length_cons] at bound
    have ended' : Ended 1 (t :: e ++ rest) := by
      rintro _ p ⟨⟩ strong
      simp [strength?, assign] at strong
      omega
    refine (takes_binary accept (by simp; omega) tokens operand chain (by omega) ended').bind
      fun target s₁ tokens₁ => ends_current (ends_at ?_)
    rw [current_of_cons tokens₁, accepts_punct_iff.mpr assign]
    exact (takes_advance tokens₁).bind fun _ s₂ tokens₂ =>
      (accept.expression (by simp; omega) tokens₂ value ended).bind fun _ s₃ tokens₃ => takes_pure tokens₃ _

theorem takes_arguments (bound : (ts ++ rest).length < n + 1) (tokens : s.tokens = ts ++ rest)
    (derived : Derives (.rule .args) ts) (next : Next .rparen rest) : Takes (arguments inner) s rest := by
  obtain ⟨e, es, rfl, first, more⟩ := derives_cons_iff.mp (derives_rule_iff.mp derived)
  obtain ⟨c, after, rfl, closing⟩ := next
  replace tokens : s.tokens = e ++ (es ++ c :: after) := by simpa using tokens
  simp only [List.length_append, List.length_cons] at bound
  unfold arguments
  rcases derives_many_iff.mp (derives_singleton_iff.mp more) with rfl | ⟨_, es, rfl, one, later⟩
  · refine (takes_expression accept (by simp; omega) tokens first (ended_of_closer closing (by simp))).bind
      fun _ s₁ tokens₁ => ends_at ?_
    have other : (Want.punct .comma).accepts c = false := by simp [Want.accepts, closing]
    rw [current_of_cons tokens₁, other]
    exact takes_pure tokens₁ _
  · obtain ⟨_, e', rfl, separator, second⟩ := derives_cons_iff.mp one
    obtain ⟨t, rfl, comma⟩ := derives_token_iff.mp separator
    replace tokens : s.tokens = e ++ (t :: (e' ++ es ++ c :: after)) := by simpa using tokens
    simp only [List.length_append, List.length_cons, List.length_nil] at bound
    refine (takes_expression accept (by simp; omega) tokens first
      (ended_of_closer (accepts_punct_iff.mp comma) (by simp))).bind fun _ s₁ tokens₁ => ends_at ?_
    rw [current_of_cons tokens₁, comma]
    have args : Derives (.rule .args) (e' ++ es) :=
      .rule (.cons (derives_singleton_iff.mp second) (derives_singleton_iff.mpr later))
    exact (takes_advance tokens₁).bind fun _ s₂ tokens₂ =>
      (accept.arguments (by simp; omega) tokens₂ args ⟨c, after, rfl, closing⟩).bind fun _ s₃ tokens₃ => takes_pure tokens₃ _

end Expressions

section Starts

variable {ts rest : List Token} {s : State}

theorem token_cases {want : Want} {ps : List Phrase} (h : Derives (.all (.token want :: ps)) ts) :
    ∃ t r, ts = t :: r ∧ want.accepts t = true ∧ Derives (.all ps) r := by
  obtain ⟨_, r, rfl, first, rest⟩ := derives_cons_iff.mp h
  obtain ⟨t, rfl, accepts⟩ := derives_token_iff.mp first
  exact ⟨t, r, rfl, accepts, rest⟩

theorem last_cases {p : Phrase} {want : Want} (h : Derives (.all [p, .token want]) ts) :
    ∃ a c, ts = a ++ [c] ∧ Derives p a ∧ want.accepts c = true := by
  obtain ⟨a, _, rfl, first, last⟩ := derives_cons_iff.mp h
  obtain ⟨c, rfl, accepts⟩ := derives_token_iff.mp (derives_singleton_iff.mp last)
  exact ⟨a, c, rfl, first, accepts⟩

theorem compound_cases (h : Derives (.rule .compoundStmt) ts) :
    ∃ o v b c, ts = o :: (v ++ (b ++ [c])) ∧ o.terminal = .punct .lbrace ∧ Derives (.many localDecl) v ∧
      Derives (.many (.rule .statement)) b ∧ c.terminal = .punct .rbrace := by
  obtain ⟨o, _, rfl, opening, rest⟩ := token_cases (derives_rule_iff.mp h)
  obtain ⟨v, _, rfl, vars, rest⟩ := derives_cons_iff.mp rest
  obtain ⟨b, c, rfl, body, closing⟩ := last_cases rest
  exact ⟨o, v, b, c, rfl, accepts_punct_iff.mp opening, vars, body, accepts_punct_iff.mp closing⟩

theorem return_cases (h : Derives (.rule .returnStmt) ts) :
    ∃ k e c, ts = k :: (e ++ [c]) ∧ k.terminal = .keyword .return_ ∧ (e = [] ∨ Derives (.rule .expression) e) ∧
      c.terminal = .punct .semicolon := by
  obtain ⟨k, _, rfl, keyword, rest⟩ := token_cases (derives_rule_iff.mp h)
  obtain ⟨e, c, rfl, value, closing⟩ := last_cases rest
  exact ⟨k, e, c, rfl, accepts_keyword_iff.mp keyword, derives_opt_iff.mp value, accepts_punct_iff.mp closing⟩

theorem conditional_cases {k : Keyword} (h : Derives (Grammar.conditional k) ts) :
    ∃ w o e c, ts = w :: o :: (e ++ [c]) ∧ w.terminal = .keyword k ∧ o.terminal = .punct .lparen ∧
      Derives (.rule .expression) e ∧ c.terminal = .punct .rparen := by
  obtain ⟨w, _, rfl, keyword, rest⟩ := token_cases h
  obtain ⟨o, _, rfl, opening, rest⟩ := token_cases rest
  obtain ⟨e, c, rfl, value, closing⟩ := last_cases rest
  exact ⟨w, o, e, c, rfl, accepts_keyword_iff.mp keyword, accepts_punct_iff.mp opening, value, accepts_punct_iff.mp closing⟩

def foreign (t : Token) : Bool :=
  typeSync.has t || (Want.keyword .else_).accepts t || (Want.punct .rbrace).accepts t

theorem not_foreign_of_startsExpression {t : Token} (h : startsExpression t = true) : foreign t = false := by
  rcases t with ⟨terminal, line⟩
  cases terminal with
  | punct p => cases p <;> first | rfl | cases h
  | ident | number => rfl
  | keyword | eof => cases h

theorem starts_statement (h : Derives (.rule .statement) ts) : ∃ t r, ts = t :: r ∧ foreign t = false := by
  have keyword : ∀ {t : Token} {k : Keyword}, k ∈ [Keyword.if_, .while_, .return_, .break_, .continue_] →
      t.terminal = .keyword k → foreign t = false := by
    rintro ⟨terminal, line⟩ k known rfl
    cases k <;> first | rfl | simp at known
  rcases Grammar.statement_cases h with simple | ⟨c, b, r, rfl, head, _⟩ | ⟨c, b, rfl, head, _⟩
  · simp only [Grammar.simpleStmt, derives_any_iff, not_derives_any_nil, or_false] at simple
    rcases simple with block | ret | leave | again | value
    · obtain ⟨o, v, b, c, rfl, opening, _⟩ := compound_cases block
      exact ⟨o, _, rfl, by simp [foreign, typeSync, Sync.has, Want.accepts, opening]⟩
    · obtain ⟨k, e, c, rfl, isReturn, _⟩ := return_cases ret
      exact ⟨k, _, rfl, keyword (by simp) isReturn⟩
    · obtain ⟨t, r, rfl, accepts, _⟩ := token_cases leave
      exact ⟨t, r, rfl, keyword (by simp) (accepts_keyword_iff.mp accepts)⟩
    · obtain ⟨t, r, rfl, accepts, _⟩ := token_cases again
      exact ⟨t, r, rfl, keyword (by simp) (accepts_keyword_iff.mp accepts)⟩
    · obtain ⟨e, c, rfl, value, closing⟩ := last_cases value
      rcases derives_opt_iff.mp value with rfl | value
      · exact ⟨c, [], rfl, by simp [foreign, typeSync, Sync.has, Want.accepts, accepts_punct_iff.mp closing]⟩
      · obtain ⟨t, r, rfl, starts⟩ := Grammar.starts_expression value
        exact ⟨t, _, rfl, not_foreign_of_startsExpression starts⟩
  · obtain ⟨w, o, e, c, rfl, isIf, _⟩ := conditional_cases head
    exact ⟨w, _, rfl, keyword (by simp) isIf⟩
  · obtain ⟨w, o, e, c, rfl, isWhile, _⟩ := conditional_cases head
    exact ⟨w, _, rfl, keyword (by simp) isWhile⟩

theorem head_of_statements (h : Derives (.many (.rule .statement)) ts) (next : Next .rbrace rest) {t : Token}
    (head : (ts ++ rest).head? = some t) : typeSync.has t = false ∧ t.terminal ≠ .keyword .else_ := by
  rcases derives_many_iff.mp h with rfl | ⟨a, b, rfl, first, _⟩
  · obtain ⟨c, after, rfl, closing⟩ := next
    cases head
    simp [typeSync, Sync.has, Want.accepts, closing]
  · obtain ⟨t', r, rfl, native⟩ := starts_statement first
    cases head
    simp only [foreign, Bool.or_eq_false_iff] at native
    refine ⟨native.1.1, fun isElse => ?_⟩
    rw [accepts_keyword_iff.mpr isElse] at native
    cases native.1.2

theorem not_has_current {sync : Sync} (tokens : s.tokens = rest) (h : ∀ t, rest.head? = some t → sync.has t = false) :
    sync.has s.current = false := by
  cases has : sync.has s.current with
  | false => rfl
  | true =>
    have head := head_of_current (has_not_eof has)
    rw [tokens] at head
    rw [h _ head] at has
    cases has

end Starts

section Statements

variable {inner : Rules} {n : Nat} {s : State} {ts rest : List Token} (accept : inner.Accept n)

theorem takes_varDecl {x : List Token} {c : Token} (type : TypeName) (id : Ident) (sync : Sync)
    (tokens : s.tokens = x ++ c :: rest)
    (extent : x = [] ∨ Derives (.all [.punct .lbracket, .token .number, .punct .rbracket]) x)
    (closing : c.terminal = .punct .semicolon) : Takes (varDecl type id sync) s rest := by
  unfold varDecl
  refine ends_at ?_
  rcases extent with rfl | array
  · have other : (Want.punct .lbracket).accepts c = false := by simp [Want.accepts, closing]
    rw [current_of_cons tokens, other]
    exact (takes_expect tokens (accepts_punct_iff.mpr closing)).bind fun _ s₁ tokens₁ => takes_pure tokens₁ _
  · obtain ⟨o, _, rfl, opening, array⟩ := token_cases array
    obtain ⟨m, _, rfl, number, array⟩ := token_cases array
    obtain ⟨d, _, rfl, bracket, done⟩ := token_cases array
    rw [derives_nil_iff.mp done] at tokens
    rw [current_of_cons tokens, opening]
    exact (takes_advance tokens).bind fun _ s₁ tokens₁ =>
      (takes_expect tokens₁ number).bind fun _ s₂ tokens₂ =>
      (takes_expect tokens₂ bracket).bind fun _ s₃ tokens₃ =>
      (takes_expect tokens₃ (accepts_punct_iff.mpr closing)).bind fun _ s₄ tokens₄ => takes_pure tokens₄ _

theorem type_cases (h : Derives (.rule .typeSpec) ts) : ∃ t, ts = [t] ∧ typeSync.has t = true := by
  rw [derives_rule_iff] at h
  simp only [Nonterminal.production, derives_any_iff, not_derives_any_nil, or_false, Phrase.keyword, derives_token_iff] at h
  rcases h with ⟨t, rfl, accepts⟩ | ⟨t, rfl, accepts⟩
  · exact ⟨t, rfl, by simp [typeSync, Sync.has, accepts]⟩
  · exact ⟨t, rfl, by simp [typeSync, Sync.has, accepts]⟩

include accept

theorem takes_localVars (bound : (ts ++ rest).length < n + 1) (tokens : s.tokens = ts ++ rest)
    (derived : Derives (.many localDecl) ts) (others : ∀ t, rest.head? = some t → typeSync.has t = false) :
    Takes (localVars inner) s rest := by
  unfold localVars
  refine ends_atType ?_
  rcases derives_many_iff.mp derived with rfl | ⟨_, later, rfl, one, derivedLater⟩
  · rw [not_has_current tokens others]
    exact takes_pure tokens _
  · obtain ⟨_, _, rfl, typed, named⟩ := derives_cons_iff.mp one
    obtain ⟨t, rfl, isType⟩ := type_cases typed
    obtain ⟨i, _, rfl, isName, ended⟩ := token_cases named
    obtain ⟨x, c, rfl, extent, closing⟩ := last_cases ended
    replace tokens : s.tokens = t :: i :: (x ++ c :: (later ++ rest)) := by simpa using tokens
    simp only [List.length_append, List.length_cons, List.length_nil] at bound
    rw [current_of_cons tokens, isType]
    refine ends_current ((takes_advance tokens).bind fun _ s₁ tokens₁ => ?_)
    have taken : Ends (tryExpect .ident stmtSync) s₁ fun r s' =>
        r = (some i, none) ∧ Took s₁ s' (x ++ c :: (later ++ rest)) := by
      have current := current_of_cons tokens₁
      unfold Ends
      rw [tryExpect_of_accepts (by rw [current]; exact isName), current]
      exact ⟨rfl, takes_advance tokens₁⟩
    refine Ends.bind taken ?_
    rintro _ s₂ ⟨rfl, took⟩
    have rest₂ := (takes_varDecl (typeName s.current) (ident i) stmtSync took.tokens (derives_opt_iff.mp extent)
      (accepts_punct_iff.mp closing)).bind fun var s₃ tokens₃ =>
      (accept.localVars (by simp; omega) tokens₃ derivedLater others).bind fun vars s₄ tokens₄ =>
        takes_pure tokens₄ (var :: vars)
    exact took.trans rest₂

theorem takes_compound (bound : (ts ++ rest).length < n + 1) (tokens : s.tokens = ts ++ rest)
    (derived : Derives (.rule .compoundStmt) ts) : Takes (compound inner) s rest := by
  obtain ⟨o, v, b, c, rfl, opening, vars, body, closing⟩ := compound_cases derived
  replace tokens : s.tokens = o :: (v ++ (b ++ c :: rest)) := by simpa using tokens
  simp only [List.length_append, List.length_cons, List.length_nil] at bound
  have next : Next .rbrace (c :: rest) := ⟨c, rest, rfl, closing⟩
  unfold compound
  exact (takes_expect tokens (accepts_punct_iff.mpr opening)).bind fun _ s₁ tokens₁ =>
    (accept.localVars (by simp; omega) tokens₁ vars fun t head => (head_of_statements body next head).1).bind
      fun _ s₂ tokens₂ =>
    (accept.statements (by simp; omega) tokens₂ body next).bind fun _ s₃ tokens₃ =>
    (takes_expect tokens₃ (accepts_punct_iff.mpr closing)).bind fun _ s₄ tokens₄ => takes_pure tokens₄ _

theorem takes_condition {o c : Token} {e : List Token} (bound : (e ++ c :: rest).length < n)
    (tokens : s.tokens = o :: (e ++ c :: rest)) (opening : o.terminal = .punct .lparen)
    (value : Derives (.rule .expression) e) (closing : c.terminal = .punct .rparen) : Takes (condition inner) s rest := by
  unfold condition
  exact (takes_expect tokens (accepts_punct_iff.mpr opening)).bind fun _ s₁ tokens₁ =>
    (accept.expression bound tokens₁ value (ended_of_closer closing (by simp))).bind fun _ s₂ tokens₂ =>
    (takes_expect tokens₂ (accepts_punct_iff.mpr closing)).bind fun _ s₃ tokens₃ => takes_pure tokens₃ _

omit accept in
theorem takes_statement_of_starts (starts : startsExpression s.current = true) (h : Takes (expressionStmt inner) s rest) :
    Takes (statement inner) s rest := by
  refine ends_current ?_
  have other := starts
  unfold startsExpression at starts
  split at starts
  all_goals cases starts
  all_goals
    rename_i shown
    rw [shown]
    simp only [other, if_true]
    exact h

theorem takes_simple (bound : (ts ++ rest).length < n + 1) (tokens : s.tokens = ts ++ rest)
    (derived : Derives Grammar.simpleStmt ts) : Takes (statement inner) s rest := by
  have jump : ∀ {k : Keyword} (stmt : Nat → Stmt), Derives (.all [.keyword k, .punct .semicolon]) ts →
      s.current.terminal = .keyword k ∧ Takes (jump stmt) s rest := by
    intro k stmt h
    obtain ⟨t, _, rfl, keyword, closed⟩ := token_cases h
    obtain ⟨c, rfl, closing⟩ := derives_token_iff.mp (derives_singleton_iff.mp closed)
    refine ⟨by rw [current_of_cons tokens]; exact accepts_keyword_iff.mp keyword, ?_⟩
    unfold Parser.jump
    exact ends_current ((takes_advance tokens).bind fun _ s₁ tokens₁ =>
      (takes_expect tokens₁ closing).bind fun _ s₂ tokens₂ => takes_pure tokens₂ _)
  simp only [Grammar.simpleStmt, derives_any_iff, not_derives_any_nil, or_false] at derived
  rcases derived with block | ret | leave | again | value
  · obtain ⟨o, v, b, c, rfl, opening, _⟩ := compound_cases block
    refine ends_current ?_
    rw [current_of_cons tokens, opening]
    exact (takes_compound accept bound tokens block).bind fun _ s₁ tokens₁ => takes_pure tokens₁ _
  · obtain ⟨k, e, c, rfl, keyword, value, closing⟩ := return_cases ret
    replace tokens : s.tokens = k :: (e ++ c :: rest) := by simpa using tokens
    simp only [List.length_append, List.length_cons, List.length_nil] at bound
    refine ends_current ?_
    rw [current_of_cons tokens, keyword]
    refine ends_current ((takes_advance tokens).bind fun _ s₁ tokens₁ => ends_at ?_)
    rcases value with rfl | value
    · rw [current_of_cons tokens₁, accepts_punct_iff.mpr closing]
      exact (takes_advance tokens₁).bind fun _ s₂ tokens₂ => takes_pure tokens₂ _
    · have filled : (Want.punct .semicolon).accepts s₁.current = false := by
        obtain ⟨t, r, rfl, starts⟩ := Grammar.starts_expression value
        rw [current_of_cons tokens₁]
        cases accepts : (Want.punct .semicolon).accepts t with
        | false => rfl
        | true => simp [startsExpression, accepts_punct_iff.mp accepts] at starts
      rw [filled]
      exact (accept.expression (by simp; omega) tokens₁ value (ended_of_closer closing (by simp))).bind fun _ s₂ tokens₂ =>
        (takes_expect tokens₂ (accepts_punct_iff.mpr closing)).bind fun _ s₃ tokens₃ => takes_pure tokens₃ _
  · obtain ⟨keyword, takes⟩ := jump .leave leave
    refine ends_current ?_
    rw [keyword]
    exact takes
  · obtain ⟨keyword, takes⟩ := jump .again again
    refine ends_current ?_
    rw [keyword]
    exact takes
  · obtain ⟨e, c, rfl, value, closing⟩ := last_cases value
    rcases derives_opt_iff.mp value with rfl | value
    · refine ends_current ?_
      rw [current_of_cons tokens, accepts_punct_iff.mp closing]
      exact (takes_advance tokens).bind fun _ s₁ tokens₁ => takes_pure tokens₁ _
    · replace tokens : s.tokens = e ++ c :: rest := by simpa using tokens
      have whole : Takes (expressionStmt inner) s rest :=
        (takes_expression accept (by simpa using bound) tokens value
          (ended_of_closer (accepts_punct_iff.mp closing) (by simp))).bind fun _ s₁ tokens₁ =>
        (takes_expect tokens₁ closing).bind fun _ s₂ tokens₂ => takes_pure tokens₂ _
      obtain ⟨t, r, rfl, starts⟩ := Grammar.starts_expression value
      rw [← current_of_cons tokens] at starts
      exact takes_statement_of_starts starts whole

theorem takes_statement {closed : Bool} (bound : (ts ++ rest).length < n + 1) (tokens : s.tokens = ts ++ rest)
    (derived : Nearest closed ts) (noElse : NoElse closed rest) : Takes (statement inner) s rest := by
  cases derived with
  | simple h => exact takes_simple accept bound tokens h
  | @ifThen c b head body =>
    obtain ⟨w, o, e, d, rfl, keyword, opening, value, closing⟩ := conditional_cases head
    replace tokens : s.tokens = w :: o :: (e ++ d :: (b ++ rest)) := by simpa using tokens
    simp only [List.length_append, List.length_cons, List.length_nil] at bound
    unfold statement
    refine ends_current ?_
    rw [current_of_cons tokens, keyword]
    refine ends_current ((takes_advance tokens).bind fun _ s₁ tokens₁ =>
      (takes_condition accept (by simp; omega) tokens₁ opening value closing).bind fun _ s₂ tokens₂ =>
      (accept.statement (by simp; omega) tokens₂ body noElse).bind fun _ s₃ tokens₃ => ends_at ?_)
    have alone : (Want.keyword .else_).accepts s₃.current = false := by
      cases accepts : (Want.keyword .else_).accepts s₃.current with
      | false => rfl
      | true =>
        have head := head_of_current (accepts_not_eof accepts)
        rw [tokens₃] at head
        exact absurd (accepts_keyword_iff.mp accepts) (noElse rfl _ head)
    rw [alone]
    exact takes_pure tokens₃ _
  | @ifElse _ c a b orElse head body isElse other =>
    obtain ⟨w, o, e, d, rfl, keyword, opening, value, closing⟩ := conditional_cases head
    replace tokens : s.tokens = w :: o :: (e ++ d :: (a ++ orElse :: (b ++ rest))) := by simpa using tokens
    simp only [List.length_append, List.length_cons, List.length_nil] at bound
    unfold statement
    refine ends_current ?_
    rw [current_of_cons tokens, keyword]
    refine ends_current ((takes_advance tokens).bind fun _ s₁ tokens₁ =>
      (takes_condition accept (by simp; omega) tokens₁ opening value closing).bind fun _ s₂ tokens₂ =>
      (accept.statement (by simp; omega) tokens₂ body fun h => by cases h).bind fun _ s₃ tokens₃ => ends_at ?_)
    rw [current_of_cons tokens₃, accepts_keyword_iff.mpr isElse]
    exact (takes_advance tokens₃).bind fun _ s₄ tokens₄ =>
      (accept.statement (by simp; omega) tokens₄ other noElse).bind fun _ s₅ tokens₅ => takes_pure tokens₅ _
  | @loop _ c b head body =>
    obtain ⟨w, o, e, d, rfl, keyword, opening, value, closing⟩ := conditional_cases head
    replace tokens : s.tokens = w :: o :: (e ++ d :: (b ++ rest)) := by simpa using tokens
    simp only [List.length_append, List.length_cons, List.length_nil] at bound
    unfold statement
    refine ends_current ?_
    rw [current_of_cons tokens, keyword]
    exact ends_current ((takes_advance tokens).bind fun _ s₁ tokens₁ =>
      (takes_condition accept (by simp; omega) tokens₁ opening value closing).bind fun _ s₂ tokens₂ =>
      (accept.statement (by simp; omega) tokens₂ body noElse).bind fun _ s₃ tokens₃ => takes_pure tokens₃ _)

theorem takes_statements (bound : (ts ++ rest).length < n + 1) (tokens : s.tokens = ts ++ rest)
    (derived : Derives (.many (.rule .statement)) ts) (next : Next .rbrace rest) : Takes (statements inner) s rest := by
  unfold statements
  refine ends_at (ends_atEnd ?_)
  rcases derives_many_iff.mp derived with rfl | ⟨a, b, rfl, first, later⟩
  · obtain ⟨c, after, rfl, closing⟩ := next
    rw [current_of_cons tokens, accepts_punct_iff.mpr closing]
    exact takes_pure tokens _
  · obtain ⟨t, r, rfl, native⟩ := starts_statement first
    replace tokens : s.tokens = t :: r ++ (b ++ rest) := by simpa using tokens
    simp only [List.length_append, List.length_cons] at bound
    have brace : (Want.punct .rbrace).accepts s.current = false := by
      rw [current_of_cons tokens]
      simp only [foreign, Bool.or_eq_false_iff] at native
      exact native.2
    have filled : s.tokens.isEmpty = false := by rw [tokens]; rfl
    rw [brace, filled]
    refine ends_get ((takes_statement accept (by simp; omega) tokens (Grammar.nearest_of_derives first)
      fun _ t head => (head_of_statements later next head).2).behind fun _ s₁ took => ends_get ?_)
    have tokens₁ := took.tokens
    have count₁ := took.count
    have moved : s₁.taken ≠ s.taken := by
      simp only [State.size, tokens, tokens₁, List.length_append, List.length_cons] at count₁
      omega
    rw [if_neg moved]
    exact (accept.statements (by simp; omega) tokens₁ later next).bind fun _ s₂ tokens₂ => takes_pure tokens₂ _

end Statements

section Declarations

variable {inner : Rules} {n : Nat} {s : State} {ts rest : List Token} (accept : inner.Accept n)

theorem param_cases (h : Derives (.rule .param) ts) :
    ∃ t i x, ts = t :: i :: x ∧ typeSync.has t = true ∧ Want.ident.accepts i = true ∧
      (x = [] ∨ Derives (.all [.punct .lbracket, .punct .rbracket]) x) := by
  obtain ⟨_, _, rfl, typed, named⟩ := derives_cons_iff.mp (derives_rule_iff.mp h)
  obtain ⟨t, rfl, isType⟩ := type_cases typed
  obtain ⟨i, x, rfl, isName, extent⟩ := token_cases named
  exact ⟨t, i, x, rfl, isType, isName, derives_opt_iff.mp (derives_singleton_iff.mp extent)⟩

theorem next_param (h : Derives (.many (.all [.punct .comma, .rule .param])) ts) (next : Next .rparen rest) :
    Next .comma (ts ++ rest) ∨ Next .rparen (ts ++ rest) := by
  rcases derives_many_iff.mp h with rfl | ⟨_, b, rfl, one, _⟩
  · exact .inr next
  · obtain ⟨t, r, rfl, comma, _⟩ := token_cases one
    exact .inl ⟨t, r ++ (b ++ rest), by simp, accepts_punct_iff.mp comma⟩

theorem takes_paramOf {i : Token} {x : List Token} (type : TypeName) (tokens : s.tokens = i :: (x ++ rest))
    (isName : Want.ident.accepts i = true) (extent : x = [] ∨ Derives (.all [.punct .lbracket, .punct .rbracket]) x)
    (next : Next .comma rest ∨ Next .rparen rest) : Takes (paramOf type) s rest := by
  have taken : Ends (expect .ident paramSync) s fun r s' => r = some i ∧ Took s s' (x ++ rest) := by
    have current := current_of_cons tokens
    refine (ends_expect_iff (by rw [current]; exact isName)).mpr ⟨congrArg some current, ?_⟩
    exact takes_advance tokens
  unfold paramOf
  refine Ends.bind taken ?_
  rintro _ s₁ ⟨rfl, took⟩
  have tokens₁ := took.tokens
  refine Ends.mono (R := fun _ s' => Took s₁ s' rest) (ends_at ?_) fun _ _ => took.trans
  rcases extent with rfl | brackets
  · have other : (Want.punct .lbracket).accepts s₁.current = false := by
      rcases next with ⟨t, after, rfl, shown⟩ | ⟨t, after, rfl, shown⟩ <;>
        simp [current_of_cons tokens₁, Want.accepts, shown]
    rw [other]
    exact takes_pure tokens₁ _
  · obtain ⟨o, _, rfl, opening, closed⟩ := token_cases brackets
    obtain ⟨c, rfl, closing⟩ := derives_token_iff.mp (derives_singleton_iff.mp closed)
    rw [current_of_cons tokens₁, opening]
    exact (takes_advance tokens₁).bind fun _ s₂ tokens₂ =>
      (takes_expect tokens₂ closing).bind fun _ s₃ tokens₃ => takes_pure tokens₃ _

theorem takes_param (tokens : s.tokens = ts ++ rest) (derived : Derives (.rule .param) ts)
    (next : Next .comma rest ∨ Next .rparen rest) : Takes param s rest := by
  obtain ⟨t, i, x, rfl, isType, isName, extent⟩ := param_cases derived
  unfold param
  refine ends_current ?_
  rw [current_of_cons tokens, isType]
  exact (takes_advance tokens).bind fun _ s₁ tokens₁ =>
    (takes_paramOf _ tokens₁ isName extent next).bind fun _ s₂ tokens₂ => takes_pure tokens₂ _

include accept

theorem takes_moreParams (bound : (ts ++ rest).length < n + 1) (tokens : s.tokens = ts ++ rest)
    (derived : Derives (.many (.all [.punct .comma, .rule .param])) ts) (next : Next .rparen rest) :
    Takes (moreParams inner) s rest := by
  unfold moreParams
  refine ends_at ?_
  rcases derives_many_iff.mp derived with rfl | ⟨_, later, rfl, one, derivedLater⟩
  · obtain ⟨c, after, rfl, closing⟩ := next
    have other : (Want.punct .comma).accepts c = false := by simp [Want.accepts, closing]
    rw [current_of_cons tokens, other]
    exact takes_pure tokens _
  · obtain ⟨t, p, rfl, comma, parameter⟩ := token_cases one
    replace tokens : s.tokens = t :: (p ++ (later ++ rest)) := by simpa using tokens
    simp only [List.length_append, List.length_cons] at bound
    rw [current_of_cons tokens, comma]
    exact (takes_advance tokens).bind fun _ s₁ tokens₁ =>
      (takes_param tokens₁ (derives_singleton_iff.mp parameter) (next_param derivedLater next)).bind fun _ s₂ tokens₂ =>
      (accept.moreParams (by simp; omega) tokens₂ derivedLater next).bind fun _ s₃ tokens₃ => takes_pure tokens₃ _

theorem takes_params (bound : (ts ++ rest).length < n) (tokens : s.tokens = ts ++ rest)
    (derived : Derives (.rule .params) ts) (next : Next .rparen rest) : Takes (params inner) s rest := by
  rw [derives_rule_iff] at derived
  simp only [Nonterminal.production, derives_any_iff, not_derives_any_nil, or_false, Phrase.keyword] at derived
  unfold params
  refine ends_at ?_
  rcases derived with alone | list
  · obtain ⟨t, rfl, void⟩ := derives_token_iff.mp alone
    obtain ⟨c, after, rfl, closing⟩ := next
    have other : (Want.punct .rparen).accepts t = false := by simp [Want.accepts, accepts_keyword_iff.mp void]
    rw [current_of_cons tokens, other]
    refine ends_at ?_
    rw [current_of_cons tokens, void]
    refine (takes_advance tokens).bind fun _ s₁ tokens₁ => ends_at ?_
    rw [current_of_cons tokens₁, accepts_punct_iff.mpr closing]
    exact takes_pure tokens₁ _
  · obtain ⟨p, later, rfl, first, rest'⟩ := derives_cons_iff.mp list
    have more := derives_singleton_iff.mp rest'
    obtain ⟨t, i, x, rfl, isType, isName, extent⟩ := param_cases first
    replace tokens : s.tokens = t :: i :: (x ++ (later ++ rest)) := by simpa using tokens
    simp only [List.length_append, List.length_cons] at bound
    have other : (Want.punct .rparen).accepts t = false := by
      simp only [typeSync, Sync.has, List.any_cons, List.any_nil, Bool.or_false, Bool.or_eq_true] at isType
      rcases isType with isType | isType <;> simp [Want.accepts, accepts_keyword_iff.mp isType]
    rw [current_of_cons tokens, other]
    refine ends_at ?_
    rw [current_of_cons tokens]
    cases void : (Want.keyword .void).accepts t with
    | true =>
      refine (takes_advance tokens).bind fun _ s₁ tokens₁ => ends_at ?_
      have named : (Want.punct .rparen).accepts i = false := by
        obtain ⟨name, shown⟩ := accepts_ident_iff.mp isName
        simp [Want.accepts, shown]
      rw [current_of_cons tokens₁, named]
      exact (takes_paramOf .void tokens₁ isName extent (next_param more next)).bind fun _ s₂ tokens₂ =>
        (accept.moreParams (by simp; omega) tokens₂ more next).bind fun _ s₃ tokens₃ => takes_pure tokens₃ _
    | false =>
      exact (@takes_param s (t :: i :: x) _ tokens first (next_param more next)).bind fun _ s₁ tokens₁ =>
        (accept.moreParams (by simp; omega) tokens₁ more next).bind fun _ s₂ tokens₂ => takes_pure tokens₂ _

theorem takes_decl (bound : (ts ++ rest).length < n + 1) (tokens : s.tokens = ts ++ rest)
    (derived : Derives (.rule .declaration) ts) : Takes (decl inner) s rest := by
  obtain ⟨_, _, rfl, typed, named⟩ := derives_cons_iff.mp (derives_rule_iff.mp derived)
  obtain ⟨t, rfl, isType⟩ := type_cases typed
  obtain ⟨i, body, rfl, isName, kind⟩ := token_cases named
  replace tokens : s.tokens = t :: i :: (body ++ rest) := by simpa using tokens
  simp only [List.length_append, List.length_cons, List.length_nil] at bound
  unfold decl
  refine ends_current ((takes_advance tokens).bind fun _ s₁ tokens₁ => ends_current ?_)
  rw [current_of_cons tokens₁, isName]
  refine (takes_advance tokens₁).bind fun _ s₂ tokens₂ => ends_at ?_
  have variable_ : ∀ {x : List Token} {c : Token}, body = x ++ [c] →
      (x = [] ∨ Derives (.all [.punct .lbracket, .token .number, .punct .rbracket]) x) → c.terminal = .punct .semicolon →
      (Want.punct .lparen).accepts s₂.current = false ∧
        Takes (varDecl (typeName s.current) (ident i) declSync) s₂ rest := by
    rintro x c rfl extent closing
    replace tokens₂ : s₂.tokens = x ++ c :: rest := by simpa using tokens₂
    refine ⟨?_, takes_varDecl _ _ _ tokens₂ extent closing⟩
    rcases extent with rfl | array
    · simp [current_of_cons tokens₂, Want.accepts, closing]
    · obtain ⟨o, _, rfl, opening, _⟩ := token_cases array
      simp [current_of_cons tokens₂, Want.accepts, accepts_punct_iff.mp opening]
  have kinds := derives_singleton_iff.mp kind
  simp only [derives_any_iff, not_derives_any_nil, or_false] at kinds
  rcases kinds with scalar | array | function_
  · obtain ⟨c, rfl, closing⟩ := derives_token_iff.mp scalar
    obtain ⟨paren, takes⟩ := @variable_ [] c rfl (.inl rfl) (accepts_punct_iff.mp closing)
    rw [paren]
    exact takes.bind fun _ s₃ tokens₃ => takes_pure tokens₃ _
  · have split : Derives (.all ([.punct .lbracket, .token .number, .punct .rbracket] ++ [.punct .semicolon])) body := array
    obtain ⟨x, c, rfl, extent, closed⟩ := Grammar.derives_append_iff.mp split
    obtain ⟨c, rfl, closing⟩ := derives_token_iff.mp (derives_singleton_iff.mp closed)
    obtain ⟨paren, takes⟩ := variable_ rfl (.inr extent) (accepts_punct_iff.mp closing)
    rw [paren]
    exact takes.bind fun _ s₃ tokens₃ => takes_pure tokens₃ _
  · obtain ⟨o, _, rfl, opening, later⟩ := token_cases function_
    obtain ⟨ps, _, rfl, parameters, later⟩ := derives_cons_iff.mp later
    obtain ⟨c, b, rfl, closing, block⟩ := token_cases later
    replace tokens₂ : s₂.tokens = o :: (ps ++ c :: (b ++ rest)) := by simpa using tokens₂
    simp only [List.length_append, List.length_cons] at bound
    rw [current_of_cons tokens₂, opening]
    have whole : Takes (function inner (typeName s.current) (ident i)) s₂ rest :=
      (takes_advance tokens₂).bind fun _ s₃ tokens₃ =>
      (takes_params accept (by simp; omega) tokens₃ parameters ⟨c, b ++ rest, rfl, accepts_punct_iff.mp closing⟩).bind
        fun _ s₄ tokens₄ =>
      (takes_expect tokens₄ closing).bind fun _ s₅ tokens₅ =>
      (takes_compound accept (by simp; omega) tokens₅ (derives_singleton_iff.mp block)).bind fun _ s₆ tokens₆ =>
      takes_pure tokens₆ _
    exact whole.bind fun _ s₃ tokens₃ => takes_pure tokens₃ _

theorem takes_decls (bound : s.tokens.length < n + 1) (derived : Derives (.many (.rule .declaration)) s.tokens) :
    Takes (decls inner) s [] := by
  unfold decls
  refine ends_atEnd ?_
  rcases derives_many_iff.mp derived with nil | ⟨a, b, tokens, first, later⟩
  · rw [nil]
    exact takes_pure nil _
  · obtain ⟨_, body, rfl, typed, _⟩ := derives_cons_iff.mp (derives_rule_iff.mp first)
    obtain ⟨t, rfl, isType⟩ := type_cases typed
    have filled : s.tokens.isEmpty = false := by rw [tokens]; rfl
    rw [filled]
    refine ends_atType ?_
    rw [tokens] at bound
    rw [current_of_cons tokens, isType]
    refine (takes_decl accept bound tokens first).bind fun _ s₁ tokens₁ => ?_
    simp only [List.length_append, List.length_cons, List.length_nil] at bound
    exact (accept.decls (by rw [tokens₁]; omega) (by rw [tokens₁]; exact later)).bind fun _ s₂ tokens₂ =>
      takes_pure tokens₂ _

end Declarations

theorem accept_next {inner : Rules} {n : Nat} (accept : inner.Accept n) : inner.next.Accept (n + 1) where
  expression bound tokens derived ended := takes_expression accept bound tokens derived ended
  arguments bound tokens derived next := takes_arguments accept bound tokens derived next
  unary bound tokens derived ended := takes_unary accept bound tokens derived ended
  binary bound tokens operand derived high ended := takes_binary accept bound tokens operand derived high ended
  chain left bound tokens derived ended := takes_chain accept left bound tokens derived ended
  statement bound tokens derived noElse := takes_statement accept bound tokens derived noElse
  statements bound tokens derived next := takes_statements accept bound tokens derived next
  localVars bound tokens derived others := takes_localVars accept bound tokens derived others
  moreParams bound tokens derived next := takes_moreParams accept bound tokens derived next
  decls bound derived := takes_decls accept bound derived

theorem accept_idle : Rules.idle.Accept 0 := by
  constructor <;> intros <;> omega

theorem accept_rules (n : Nat) : (rules n).Accept (n + 1) := by
  induction n with
  | zero => exact accept_next accept_idle
  | succ n ih => exact accept_next ih

theorem takes_source {s : State} (derived : Derives (.rule .program) s.tokens) : Takes source s [] := by
  obtain ⟨a, b, tokens, first, later⟩ := derives_cons_iff.mp (derives_rule_iff.mp derived)
  have all : Derives (.many (.rule .declaration)) s.tokens := by
    rw [tokens]
    exact .more first (derives_singleton_iff.mp later)
  obtain ⟨_, body, rfl, typed, _⟩ := derives_cons_iff.mp (derives_rule_iff.mp first)
  obtain ⟨t, rfl, _⟩ := type_cases typed
  have filled : s.tokens.isEmpty = false := by rw [tokens]; rfl
  unfold source
  refine ends_atEnd ?_
  rw [filled]
  refine ends_get ?_
  exact ((accept_rules s.size).decls (Nat.lt_succ_self _) all).bind fun _ s₁ tokens₁ => takes_pure tokens₁ _

end MiniC.Parser

namespace MiniC

open MiniC.Grammar (Derives)

theorem Parsed.errors_eq_nil_iff (stream : TokenStream) :
    (Parsed.ofTokens stream).errors = [] ↔ Derives (.rule .program) stream.tokens := by
  constructor
  · exact Parser.derives_of_clean
  · intro derived
    have clean : (Parser.source.run (Parser.State.start stream)).2.errors = #[] :=
      (@Parser.takes_source (Parser.State.start stream) derived).errors
    change (Parser.source.run (Parser.State.start stream)).2.errors.toList = []
    rw [clean]

/-- A text has no syntax error exactly if the grammar derives its tokens, among which neither
    comments nor malformed lexemes are. -/
theorem syntactic_eq_nil_iff_derives (text : Text) :
    ((parsedText text).diagnostics = [] ↔ Derives (.rule .program) (TokenStream.ofSource text).tokens) ∧
      ∀ c, compile text = .ok c →
        (c.diagnostics.syntactic = [] ↔ Derives (.rule .program) (TokenStream.ofSource text).tokens) := by
  have exact_ : (parsedText text).diagnostics = [] ↔ Derives (.rule .program) (TokenStream.ofSource text).tokens := by
    rw [Parsed.diagnostics, List.map_eq_nil_iff]
    exact Parsed.errors_eq_nil_iff (.ofSource text)
  refine ⟨exact_, fun c compiles => ?_⟩
  obtain ⟨g, assembly, _, _, rfl⟩ := generated_of_compile compiles
  exact exact_

end MiniC
