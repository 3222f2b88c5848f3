import Mathlib.Algebra.Order.Ring.Int
import MiniC.Grammar.Parser

namespace MiniC.Grammar

inductive Nonterminal where
  | program | declaration | typeSpec | params | param
  | compoundStmt | statement | ifStmt | whileStmt | returnStmt
  | expression | orExpr | andExpr | eqExpr | relExpr | addExpr | mulExpr | unary | factor | args
deriving DecidableEq, Repr

inductive Phrase where
  | token (want : Want)
  | rule (c : Nonterminal)
  | all (parts : List Phrase)
  | any (choices : List Phrase)
  | many (p : Phrase)

namespace Phrase

def punct (p : Punct) : Phrase :=
  token (.punct p)

def keyword (k : Keyword) : Phrase :=
  token (.keyword k)

def opt (p : Phrase) : Phrase :=
  any [all [], p]

end Phrase

def localDecl : Phrase :=
  .all [.rule .typeSpec, .token .ident, .opt (.all [.punct .lbracket, .token .number, .punct .rbracket]),
    .punct .semicolon]

def selector : Phrase :=
  .opt (.any [
    .all [.punct .lbracket, .rule .expression, .punct .rbracket],
    .all [.punct .lparen, .opt (.rule .args), .punct .rparen]])

def layer (operators : List Punct) (operand : Nonterminal) : Phrase :=
  .all [.rule operand, .many (.all [.any (operators.map .punct), .rule operand])]

def Nonterminal.production : Nonterminal → Phrase
  | program => .all [.rule declaration, .many (.rule declaration)]
  | declaration => .all [.rule typeSpec, .token .ident, .any [
      .punct .semicolon,
      .all [.punct .lbracket, .token .number, .punct .rbracket, .punct .semicolon],
      .all [.punct .lparen, .rule params, .punct .rparen, .rule compoundStmt]]]
  | typeSpec => .any [.keyword .int, .keyword .void]
  | params => .any [.keyword .void, .all [.rule param, .many (.all [.punct .comma, .rule param])]]
  | param => .all [.rule typeSpec, .token .ident, .opt (.all [.punct .lbracket, .punct .rbracket])]
  | compoundStmt => .all [.punct .lbrace, .many localDecl, .many (.rule statement), .punct .rbrace]
  | statement => .any [.rule compoundStmt, .rule ifStmt, .rule whileStmt, .rule returnStmt,
      .all [.keyword .break_, .punct .semicolon],
      .all [.keyword .continue_, .punct .semicolon],
      .all [.opt (.rule expression), .punct .semicolon]]
  | ifStmt => .all [.keyword .if_, .punct .lparen, .rule expression, .punct .rparen, .rule statement,
      .opt (.all [.keyword .else_, .rule statement])]
  | whileStmt => .all [.keyword .while_, .punct .lparen, .rule expression, .punct .rparen, .rule statement]
  | returnStmt => .all [.keyword .return_, .opt (.rule expression), .punct .semicolon]
  | expression => .all [.rule orExpr, .opt (.all [.punct .assign, .rule expression])]
  | orExpr => layer [.orOr] andExpr
  | andExpr => layer [.andAnd] eqExpr
  | eqExpr => layer [.equal, .notEqual] relExpr
  | relExpr => layer [.less, .lessEq, .greater, .greaterEq] addExpr
  | addExpr => layer [.plus, .minus] mulExpr
  | mulExpr => layer [.star, .slash, .percent] unary
  | unary => .any [.all [.any [.punct .minus, .punct .bang], .rule unary], .rule factor]
  | factor => .any [
      .all [.punct .lparen, .rule expression, .punct .rparen],
      .token .number,
      .all [.token .ident, selector]]
  | args => .all [.rule expression, .many (.all [.punct .comma, .rule expression])]

/-- The token sequences that a phrase stands for. -/
inductive Derives : Phrase → List Token → Prop where
  | token {want : Want} {t : Token} (accepts : want.accepts t = true) : Derives (.token want) [t]
  | rule {c : Nonterminal} {ts : List Token} (h : Derives c.production ts) : Derives (.rule c) ts
  | nil : Derives (.all []) []
  | cons {p : Phrase} {ps : List Phrase} {s t : List Token} (first : Derives p s) (rest : Derives (.all ps) t) :
      Derives (.all (p :: ps)) (s ++ t)
  | any {p : Phrase} {ps : List Phrase} {ts : List Token} (member : p ∈ ps) (h : Derives p ts) : Derives (.any ps) ts
  | done {p : Phrase} : Derives (.many p) []
  | more {p : Phrase} {s t : List Token} (first : Derives p s) (rest : Derives (.many p) t) :
      Derives (.many p) (s ++ t)

section Phrases

variable {p : Phrase} {ps qs : List Phrase} {ts s t : List Token}

theorem derives_token_iff {want : Want} : Derives (.token want) ts ↔ ∃ t, ts = [t] ∧ want.accepts t = true := by
  constructor
  · rintro ⟨accepts⟩
    exact ⟨_, rfl, accepts⟩
  · rintro ⟨t, rfl, accepts⟩
    exact .token accepts

theorem derives_rule_iff {c : Nonterminal} : Derives (.rule c) ts ↔ Derives c.production ts := by
  constructor
  · intro h
    cases h with
    | rule h => exact h
  · exact .rule

theorem derives_nil_iff : Derives (.all []) ts ↔ ts = [] := by
  constructor
  · intro h
    cases h
    rfl
  · rintro rfl
    exact .nil

theorem derives_cons_iff :
    Derives (.all (p :: ps)) ts ↔ ∃ s t, ts = s ++ t ∧ Derives p s ∧ Derives (.all ps) t := by
  constructor
  · intro h
    cases h with
    | cons first rest => exact ⟨_, _, rfl, first, rest⟩
  · rintro ⟨s, t, rfl, first, rest⟩
    exact .cons first rest

theorem derives_singleton_iff : Derives (.all [p]) ts ↔ Derives p ts := by
  simp [derives_cons_iff, derives_nil_iff]

theorem derives_append_iff :
    Derives (.all (ps ++ qs)) ts ↔ ∃ s t, ts = s ++ t ∧ Derives (.all ps) s ∧ Derives (.all qs) t := by
  induction ps generalizing ts with
  | nil => simp [derives_nil_iff]
  | cons p ps ih =>
    simp only [List.cons_append, derives_cons_iff, ih]
    constructor
    · rintro ⟨s, _, rfl, first, t, u, rfl, rest, last⟩
      exact ⟨s ++ t, u, by rw [List.append_assoc], ⟨s, t, rfl, first, rest⟩, last⟩
    · rintro ⟨_, u, rfl, ⟨s, t, rfl, first, rest⟩, last⟩
      exact ⟨s, t ++ u, by rw [List.append_assoc], first, t, u, rfl, rest, last⟩

theorem not_derives_any_nil : ¬ Derives (.any []) ts := by
  intro h
  cases h with
  | any member _ => cases member

theorem derives_any_iff : Derives (.any (p :: ps)) ts ↔ Derives p ts ∨ Derives (.any ps) ts := by
  constructor
  · intro h
    cases h with
    | any member h =>
      rcases List.mem_cons.mp member with rfl | member
      · exact .inl h
      · exact .inr (.any member h)
  · rintro (h | h)
    · exact .any List.mem_cons_self h
    · cases h with
      | any member h => exact .any (List.mem_cons_of_mem p member) h

theorem derives_opt_iff : Derives p.opt ts ↔ ts = [] ∨ Derives p ts := by
  simp [Phrase.opt, derives_any_iff, derives_nil_iff, not_derives_any_nil]

theorem Derives.omit (h : Derives (.all ps) ts) : Derives (.all (p.opt :: ps)) ts :=
  .cons (derives_opt_iff.mpr (.inl rfl)) h

theorem Derives.take (h : Derives (.all (p :: ps)) ts) : Derives (.all (p.opt :: ps)) ts := by
  obtain ⟨s, t, rfl, first, rest⟩ := derives_cons_iff.mp h
  exact .cons (derives_opt_iff.mpr (.inr first)) rest

theorem derives_many_iff :
    Derives (.many p) ts ↔ ts = [] ∨ ∃ s t, ts = s ++ t ∧ Derives p s ∧ Derives (.many p) t := by
  constructor
  · intro h
    cases h with
    | done => exact .inl rfl
    | more first rest => exact .inr ⟨_, _, rfl, first, rest⟩
  · rintro (rfl | ⟨s, t, rfl, first, rest⟩)
    · exact .done
    · exact .more first rest

@[elab_as_elim]
theorem many_induction {motive : List Token → Prop} (h : Derives (.many p) ts) (done : motive [])
    (more : ∀ s t, Derives p s → Derives (.many p) t → motive t → motive (s ++ t)) : motive ts := by
  generalize repeated : Phrase.many p = q at h
  induction h with
  | done => exact done
  | more first rest _ ih =>
    cases repeated
    exact more _ _ first rest (ih rfl)
  | token | rule | nil | cons | any => cases repeated

theorem many_append (first : Derives (.many p) s) (rest : Derives (.many p) t) : Derives (.many p) (s ++ t) := by
  refine many_induction first rest fun s' t' one _ ih => ?_
  rw [List.append_assoc]
  exact .more one ih

end Phrases

section Operators

open MiniC.Parser (binaryOp? unaryOp? startsExpression)

def operators : List Punct :=
  [.orOr, .andAnd, .equal, .notEqual, .less, .lessEq, .greater, .greaterEq, .plus, .minus, .star, .slash, .percent]

def operatorsWith (q : Nat → Bool) : List Punct :=
  operators.filter fun p => p.binaryOp?.any fun op => q op.precedence

theorem mem_operators {p : Punct} {op : BinaryOp} (h : p.binaryOp? = some op) : p ∈ operators := by
  cases p <;> first | decide | cases h

theorem accepts_punct_iff {p : Punct} {t : Token} : (Want.punct p).accepts t = true ↔ t.terminal = .punct p := by
  rcases t with ⟨terminal, line⟩
  cases terminal <;> simp [Want.accepts, eq_comm]

theorem accepts_keyword_iff {k : Keyword} {t : Token} : (Want.keyword k).accepts t = true ↔ t.terminal = .keyword k := by
  rcases t with ⟨terminal, line⟩
  cases terminal <;> simp [Want.accepts, eq_comm]

theorem accepts_number_iff {t : Token} : Want.number.accepts t = true ↔ ∃ n, t.terminal = .number n := by
  rcases t with ⟨terminal, line⟩
  cases terminal <;> simp [Want.accepts]

theorem accepts_ident_iff {t : Token} : Want.ident.accepts t = true ↔ ∃ name, t.terminal = .ident name := by
  rcases t with ⟨terminal, line⟩
  cases terminal <;> simp [Want.accepts]

theorem derives_operator_iff {q : Nat → Bool} {ts : List Token} :
    Derives (.any ((operatorsWith q).map .punct)) ts ↔
      ∃ t op, ts = [t] ∧ binaryOp? t = some op ∧ q op.precedence = true := by
  constructor
  · intro h
    cases h with
    | any member h =>
      obtain ⟨p, operator, rfl⟩ := List.mem_map.mp member
      obtain ⟨t, rfl, accepts⟩ := derives_token_iff.mp h
      have high := (List.mem_filter.mp operator).2
      cases isOp : p.binaryOp? with
      | none => simp [isOp] at high
      | some op =>
        refine ⟨t, op, rfl, ?_, by simpa [isOp] using high⟩
        rw [binaryOp?, accepts_punct_iff.mp accepts]
        exact isOp
  · rintro ⟨t, op, rfl, operator, high⟩
    unfold binaryOp? at operator
    split at operator
    · rename_i p shown
      have member : p ∈ operatorsWith q :=
        List.mem_filter.mpr ⟨mem_operators operator, by rw [operator]; exact high⟩
      exact .any (List.mem_map_of_mem member) (.token (accepts_punct_iff.mpr shown))
    · cases operator

def level : Nat → Nonterminal
  | 1 => .orExpr
  | 2 => .andExpr
  | 3 => .eqExpr
  | 4 => .relExpr
  | 5 => .addExpr
  | 6 => .mulExpr
  | _ => .unary

theorem production_level {k : Nat} (low : 1 ≤ k) (high : k ≤ 6) :
    (level k).production = layer (operatorsWith (· == k)) (level (k + 1)) := by
  obtain rfl | rfl | rfl | rfl | rfl | rfl : k = 1 ∨ k = 2 ∨ k = 3 ∨ k = 4 ∨ k = 5 ∨ k = 6 := by omega
  all_goals rfl

def climbing (least : Nat) : Phrase :=
  .many (.all [.any ((operatorsWith fun p => decide (least ≤ p)).map .punct), .rule .unary])

variable {k : Nat} {ts s : List Token}

theorem derives_operation_iff :
    Derives (.all [.any ((operatorsWith fun p => decide (k ≤ p)).map .punct), .rule .unary]) ts ↔
      ∃ t op u, ts = t :: u ∧ binaryOp? t = some op ∧ k ≤ op.precedence ∧ Derives (.rule .unary) u := by
  rw [derives_cons_iff]
  simp only [derives_singleton_iff, derives_operator_iff, decide_eq_true_eq]
  constructor
  · rintro ⟨_, u, rfl, ⟨t, op, rfl, operator, high⟩, operand⟩
    exact ⟨t, op, u, rfl, operator, high, operand⟩
  · rintro ⟨t, op, u, rfl, operator, high, operand⟩
    exact ⟨[t], u, rfl, ⟨t, op, rfl, operator, high⟩, operand⟩

theorem climbing_cons {t : Token} {op : BinaryOp} (operator : binaryOp? t = some op) (high : k ≤ op.precedence)
    (operand : Derives (.rule .unary) ts) (rest : Derives (climbing k) s) : Derives (climbing k) (t :: (ts ++ s)) :=
  .more (derives_operation_iff.mpr ⟨t, op, ts, rfl, operator, high, operand⟩) rest

theorem climbing_mono {j : Nat} (le : j ≤ k) (h : Derives (climbing k) ts) : Derives (climbing j) ts := by
  refine many_induction h .done fun s t one _ ih => ?_
  obtain ⟨o, op, u, rfl, operator, high, operand⟩ := derives_operation_iff.mp one
  exact climbing_cons operator (Nat.le_trans le high) operand ih

theorem precedence_le (op : BinaryOp) : op.precedence ≤ 6 := by
  cases op <;> decide

theorem climbing_split (h : Derives (climbing k) ts) (least : Nat) :
    ∃ a b, ts = a ++ b ∧ Derives (climbing least) a ∧ Derives (climbing k) b ∧
      ∀ t op, b.head? = some t → binaryOp? t = some op → op.precedence < least := by
  refine many_induction h ⟨[], [], rfl, .done, .done, by simp⟩ fun s t one rest ih => ?_
  obtain ⟨o, op, u, rfl, operator, high, operand⟩ := derives_operation_iff.mp one
  by_cases tight : least ≤ op.precedence
  · obtain ⟨a, b, rfl, first, later, stops⟩ := ih
    exact ⟨o :: (u ++ a), b, by simp, climbing_cons operator tight operand first, later, stops⟩
  · refine ⟨[], o :: (u ++ t), rfl, .done, climbing_cons operator high operand rest, ?_⟩
    rintro _ _ ⟨⟩ operator'
    rw [operator] at operator'
    cases operator'
    omega

theorem derives_level_succ_iff (low : 1 ≤ k) (high : k ≤ 6) :
    Derives (.rule (level k)) ts ↔ ∃ s t, ts = s ++ t ∧ Derives (.rule (level (k + 1))) s ∧
      Derives (.many (.all [.any ((operatorsWith (· == k)).map .punct), .rule (level (k + 1))])) t := by
  rw [derives_rule_iff, production_level low high, layer, derives_cons_iff]
  simp only [derives_singleton_iff]

/-- An operand and an operator can be put before what a layer derives. -/
theorem level_cons {t : Token} {op : BinaryOp} {u : List Token} (low : 1 ≤ k) (high : k ≤ 7)
    (unary : ∀ j, k ≤ j → j ≤ 7 → Derives (.rule (level j)) u) (operator : binaryOp? t = some op)
    (tight : k ≤ op.precedence) (h : Derives (.rule (level k)) ts) :
    Derives (.rule (level k)) (u ++ t :: ts) := by
  obtain ⟨j, rfl⟩ : ∃ j, k = 7 - j := ⟨7 - k, by omega⟩
  induction j generalizing ts with
  | zero =>
    have := precedence_le op
    omega
  | succ j ih =>
    have step : 7 - (j + 1) + 1 = 7 - j := by omega
    rw [derives_level_succ_iff low (by omega), step] at h ⊢
    obtain ⟨a, b, rfl, first, rest⟩ := h
    by_cases same : op.precedence = 7 - (j + 1)
    · refine ⟨u, t :: (a ++ b), rfl, unary _ (by omega) (by omega), ?_⟩
      have one : Derives (.any ((operatorsWith (· == (7 - (j + 1)))).map .punct)) [t] :=
        derives_operator_iff.mpr ⟨t, op, rfl, operator, by simp [same]⟩
      exact .more (.cons one (derives_singleton_iff.mpr first)) rest
    · refine ⟨u ++ t :: a, b, by simp, ?_, rest⟩
      exact ih (by omega) (by omega) (fun i le => unary i (by omega)) (by omega) first

theorem level_of_unary (low : 1 ≤ k) (high : k ≤ 7) (h : Derives (.rule .unary) ts) :
    Derives (.rule (level k)) ts := by
  obtain ⟨j, rfl⟩ : ∃ j, k = 7 - j := ⟨7 - k, by omega⟩
  induction j with
  | zero => exact h
  | succ j ih =>
    have step : 7 - (j + 1) + 1 = 7 - j := by omega
    rw [derives_level_succ_iff low (by omega), step]
    exact ⟨ts, [], by simp, ih (by omega) (by omega), .done⟩

theorem level_of_climbing (low : 1 ≤ k) (high : k ≤ 7) (first : Derives (.rule .unary) ts)
    (rest : Derives (climbing k) s) : Derives (.rule (level k)) (ts ++ s) := by
  suffices all : ∀ ts, Derives (.rule .unary) ts → Derives (.rule (level k)) (ts ++ s) from all ts first
  refine many_induction rest ?_ fun s t one _ ih => ?_
  · intro ts first
    rw [List.append_nil]
    exact level_of_unary low high first
  · intro ts first
    obtain ⟨o, op, u, rfl, operator, tight, operand⟩ := derives_operation_iff.mp one
    exact level_cons low high (fun j le le' => level_of_unary (by omega) le' first) operator tight (ih u operand)

theorem climbing_of_level (low : 1 ≤ k) (high : k ≤ 7) (h : Derives (.rule (level k)) ts) :
    ∃ u c, ts = u ++ c ∧ Derives (.rule .unary) u ∧ Derives (climbing k) c := by
  obtain ⟨j, rfl⟩ : ∃ j, k = 7 - j := ⟨7 - k, by omega⟩
  induction j generalizing ts with
  | zero => exact ⟨ts, [], by simp, h, .done⟩
  | succ j ih =>
    have step : 7 - (j + 1) + 1 = 7 - j := by omega
    rw [derives_level_succ_iff low (by omega), step] at h
    obtain ⟨a, b, rfl, first, rest⟩ := h
    obtain ⟨u, c, rfl, operand, inner⟩ := ih (by omega) (by omega) first
    refine ⟨u, c ++ b, by simp, operand, many_append (climbing_mono (by omega) inner) ?_⟩
    refine many_induction rest .done fun s t one _ later => ?_
    obtain ⟨_, v, rfl, isOperator, value⟩ := derives_cons_iff.mp one
    obtain ⟨o, op, rfl, operator, same⟩ := derives_operator_iff.mp isOperator
    obtain ⟨u', c', rfl, operand', inner'⟩ := ih (by omega) (by omega) (derives_singleton_iff.mp value)
    have tight : 7 - (j + 1) ≤ op.precedence := Nat.le_of_eq (beq_iff_eq.mp same).symm
    have whole := climbing_cons operator tight operand' (many_append (climbing_mono (by omega) inner') later)
    rwa [← List.append_assoc u'] at whole

/-- A layer derives the operands of unary operators with operators that bind at least as tightly
    between them. -/
theorem derives_level_iff (low : 1 ≤ k) (high : k ≤ 7) :
    Derives (.rule (level k)) ts ↔ Derives (.all [.rule .unary, climbing k]) ts := by
  rw [derives_cons_iff]
  simp only [derives_singleton_iff]
  constructor
  · exact climbing_of_level low high
  · rintro ⟨u, c, rfl, first, rest⟩
    exact level_of_climbing low high first rest

theorem derives_unary_iff : Derives (.rule .unary) ts ↔
    (∃ t u, ts = t :: u ∧ (unaryOp? t).isSome = true ∧ Derives (.rule .unary) u) ∨ Derives (.rule .factor) ts := by
  have operator : ∀ t : Token, (unaryOp? t).isSome = true ↔ t.terminal = .punct .minus ∨ t.terminal = .punct .bang := by
    rintro ⟨terminal, line⟩
    cases terminal with
    | punct p => cases p <;> simp [unaryOp?, Punct.unaryOp?]
    | keyword | ident | number | eof => simp [unaryOp?]
  rw [derives_rule_iff]
  simp only [Nonterminal.production, derives_any_iff, not_derives_any_nil, or_false, derives_cons_iff, derives_nil_iff,
    Phrase.punct, derives_token_iff, accepts_punct_iff, operator]
  constructor
  · rintro (⟨_, _, rfl, ⟨t, rfl, minus⟩ | ⟨t, rfl, bang⟩, u, _, rfl, operand, rfl⟩ | h)
    · exact .inl ⟨t, u, by simp, .inl minus, operand⟩
    · exact .inl ⟨t, u, by simp, .inr bang, operand⟩
    · exact .inr h
  · rintro (⟨t, u, rfl, minus | bang, operand⟩ | h)
    · exact .inl ⟨[t], u, rfl, .inl ⟨t, rfl, minus⟩, u, [], by simp, operand, rfl⟩
    · exact .inl ⟨[t], u, rfl, .inr ⟨t, rfl, bang⟩, u, [], by simp, operand, rfl⟩
    · exact .inr h

theorem derives_expression_iff : Derives (.rule .expression) ts ↔
    ∃ u c r, ts = u ++ (c ++ r) ∧ Derives (.rule .unary) u ∧ Derives (climbing 1) c ∧
      (r = [] ∨ ∃ t e, r = t :: e ∧ t.terminal = .punct .assign ∧ Derives (.rule .expression) e) := by
  have target : ∀ {a : List Token}, Derives (.rule .orExpr) a ↔
      ∃ u c, a = u ++ c ∧ Derives (.rule .unary) u ∧ Derives (climbing 1) c := by
    intro a
    have levels := @derives_level_iff 1 a (by omega) (by omega)
    rw [derives_cons_iff] at levels
    simp only [derives_singleton_iff] at levels
    exact levels
  rw [derives_rule_iff]
  simp only [Nonterminal.production, derives_cons_iff, derives_nil_iff, derives_opt_iff, Phrase.punct, derives_token_iff,
    accepts_punct_iff, target]
  constructor
  · rintro ⟨_, _, rfl, ⟨u, c, rfl, operand, chain⟩, r, _, rfl, value, rfl⟩
    refine ⟨u, c, r, by simp, operand, chain, ?_⟩
    rcases value with rfl | ⟨_, _, rfl, ⟨t, rfl, assign⟩, e, _, rfl, value, rfl⟩
    · exact .inl rfl
    · exact .inr ⟨t, e, by simp, assign, value⟩
  · rintro ⟨u, c, r, rfl, operand, chain, value⟩
    refine ⟨u ++ c, r, by simp, ⟨u, c, rfl, operand, chain⟩, r, [], by simp, ?_, rfl⟩
    rcases value with rfl | ⟨t, e, rfl, assign, value⟩
    · exact .inl rfl
    · exact .inr ⟨[t], e, rfl, ⟨t, rfl, assign⟩, e, [], by simp, value, rfl⟩

theorem factor_cases (h : Derives (.rule .factor) ts) :
    (∃ o e c, ts = o :: (e ++ [c]) ∧ o.terminal = .punct .lparen ∧ Derives (.rule .expression) e ∧
      c.terminal = .punct .rparen) ∨
    (∃ t n, ts = [t] ∧ t.terminal = .number n) ∨
    ∃ t name r, ts = t :: r ∧ t.terminal = .ident name ∧ (r = [] ∨
      (∃ o e c, r = o :: (e ++ [c]) ∧ o.terminal = .punct .lbracket ∧ Derives (.rule .expression) e ∧
        c.terminal = .punct .rbracket) ∨
      ∃ o a c, r = o :: (a ++ [c]) ∧ o.terminal = .punct .lparen ∧ (a = [] ∨ Derives (.rule .args) a) ∧
        c.terminal = .punct .rparen) := by
  rw [derives_rule_iff] at h
  simp only [Nonterminal.production, selector, derives_any_iff, not_derives_any_nil, or_false, derives_cons_iff,
    derives_nil_iff, derives_opt_iff, Phrase.punct, derives_token_iff, accepts_punct_iff, accepts_number_iff,
    accepts_ident_iff] at h
  rcases h with ⟨_, _, rfl, ⟨o, rfl, opening⟩, e, _, rfl, inner, _, _, rfl, ⟨c, rfl, closing⟩, rfl⟩ | ⟨t, rfl, n, number⟩ |
    ⟨_, _, rfl, ⟨t, rfl, name, ident⟩, r, _, rfl, selector, rfl⟩
  · exact .inl ⟨o, e, c, by simp, opening, inner, closing⟩
  · exact .inr (.inl ⟨t, n, rfl, number⟩)
  · refine .inr (.inr ⟨t, name, r, by simp, ident, ?_⟩)
    rcases selector with rfl |
      ⟨_, _, rfl, ⟨o, rfl, opening⟩, e, _, rfl, inner, _, _, rfl, ⟨c, rfl, closing⟩, rfl⟩ |
      ⟨_, _, rfl, ⟨o, rfl, opening⟩, a, _, rfl, inner, _, _, rfl, ⟨c, rfl, closing⟩, rfl⟩
    · exact .inl rfl
    · exact .inr (.inl ⟨o, e, c, by simp, opening, inner, closing⟩)
    · exact .inr (.inr ⟨o, a, c, by simp, opening, inner, closing⟩)

theorem starts_factor (h : Derives (.rule .factor) ts) :
    ∃ t r, ts = t :: r ∧ startsExpression t = true ∧ unaryOp? t = none := by
  rcases factor_cases h with ⟨o, e, c, rfl, opening, _, _⟩ | ⟨t, n, rfl, number⟩ | ⟨t, name, r, rfl, ident, _⟩
  · exact ⟨o, _, rfl, by simp [startsExpression, opening], by simp [unaryOp?, opening, Punct.unaryOp?]⟩
  · exact ⟨t, _, rfl, by simp [startsExpression, number], by simp [unaryOp?, number]⟩
  · exact ⟨t, _, rfl, by simp [startsExpression, ident], by simp [unaryOp?, ident]⟩

theorem starts_unary (h : Derives (.rule .unary) ts) : ∃ t r, ts = t :: r ∧ startsExpression t = true := by
  rcases derives_unary_iff.mp h with ⟨t, u, rfl, operator, _⟩ | h
  · refine ⟨t, u, rfl, ?_⟩
    rcases t with ⟨terminal, line⟩
    cases terminal with
    | punct p => cases p <;> simp [unaryOp?, Punct.unaryOp?, startsExpression] at operator ⊢
    | keyword | ident | number | eof => simp [unaryOp?] at operator
  · obtain ⟨t, r, same, starts, _⟩ := starts_factor h
    exact ⟨t, r, same, starts⟩

theorem starts_expression (h : Derives (.rule .expression) ts) :
    ∃ t r, ts = t :: r ∧ startsExpression t = true := by
  obtain ⟨u, c, r, rfl, operand, _⟩ := derives_expression_iff.mp h
  obtain ⟨t, u, rfl, starts⟩ := starts_unary operand
  exact ⟨t, u ++ (c ++ r), by simp, starts⟩

end Operators

section Statements

def simpleStmt : Phrase :=
  .any [.rule .compoundStmt, .rule .returnStmt, .all [.keyword .break_, .punct .semicolon],
    .all [.keyword .continue_, .punct .semicolon], .all [.opt (.rule .expression), .punct .semicolon]]

def conditional (k : Keyword) : Phrase :=
  .all [.keyword k, .punct .lparen, .rule .expression, .punct .rparen]

/-- A statement in which each `else` belongs to the nearest `if` before it that has none. If it is
    closed, no `if` in it could take a further `else`. -/
inductive Nearest : Bool → List Token → Prop where
  | simple {closed : Bool} {ts : List Token} (h : Derives simpleStmt ts) : Nearest closed ts
  | ifThen {c ts : List Token} (head : Derives (conditional .if_) c) (body : Nearest false ts) : Nearest false (c ++ ts)
  | ifElse {closed : Bool} {c s t : List Token} {o : Token} (head : Derives (conditional .if_) c) (body : Nearest true s)
      (orElse : o.terminal = .keyword .else_) (other : Nearest closed t) : Nearest closed (c ++ (s ++ o :: t))
  | loop {closed : Bool} {c ts : List Token} (head : Derives (conditional .while_) c) (body : Nearest closed ts) :
      Nearest closed (c ++ ts)

variable {ts s t : List Token}

/-- A branch that is not closed takes the `else` after it. -/
theorem Nearest.attach {o : Token} (h : Nearest false ts) (orElse : o.terminal = .keyword .else_) (other : Nearest false t) :
    Nearest true ts ∨ Nearest false (ts ++ o :: t) := by
  generalize unclosed : false = closed at h
  induction h with
  | simple h => exact .inl (.simple h)
  | ifThen head body ih =>
    right
    rw [List.append_assoc]
    rcases ih rfl with closed | taken
    · exact .ifElse head closed orElse other
    · exact .ifThen head taken
  | ifElse head body orElse' other' _ ih =>
    rcases ih unclosed with closed | taken
    · exact .inl (.ifElse head body orElse' closed)
    · right
      simp only [List.append_assoc, List.cons_append]
      exact .ifElse head body orElse' taken
  | loop head body ih =>
    rcases ih unclosed with closed | taken
    · exact .inl (.loop head closed)
    · right
      rw [List.append_assoc]
      exact .loop head taken

theorem length_conditional {k : Keyword} (h : Derives (conditional k) ts) : 0 < ts.length := by
  obtain ⟨_, _, rfl, keyword, _⟩ := derives_cons_iff.mp h
  obtain ⟨t, rfl, _⟩ := derives_token_iff.mp keyword
  simp

theorem statement_cases (h : Derives (.rule .statement) ts) :
    Derives simpleStmt ts ∨
    (∃ c b r, ts = c ++ (b ++ r) ∧ Derives (conditional .if_) c ∧ Derives (.rule .statement) b ∧
      (r = [] ∨ ∃ o t, r = o :: t ∧ o.terminal = .keyword .else_ ∧ Derives (.rule .statement) t)) ∨
    ∃ c b, ts = c ++ b ∧ Derives (conditional .while_) c ∧ Derives (.rule .statement) b := by
  rw [derives_rule_iff] at h
  simp only [Nonterminal.production, derives_any_iff, not_derives_any_nil, or_false] at h
  rcases h with h | h | h | h | h | h | h
  · exact .inl (.any (by simp) h)
  · have split : Nonterminal.ifStmt.production = .all ([.keyword .if_, .punct .lparen, .rule .expression, .punct .rparen] ++
        [.rule .statement, .opt (.all [.keyword .else_, .rule .statement])]) := rfl
    rw [derives_rule_iff, split, derives_append_iff] at h
    obtain ⟨c, _, rfl, head, rest⟩ := h
    simp only [derives_cons_iff, derives_nil_iff, derives_opt_iff, Phrase.keyword, derives_token_iff,
      accepts_keyword_iff] at rest
    obtain ⟨b, _, rfl, body, r, _, rfl, other, rfl⟩ := rest
    refine .inr (.inl ⟨c, b, r, by simp, head, body, ?_⟩)
    rcases other with rfl | ⟨_, _, rfl, ⟨o, rfl, orElse⟩, t, _, rfl, other, rfl⟩
    · exact .inl rfl
    · exact .inr ⟨o, t, by simp, orElse, other⟩
  · have split : Nonterminal.whileStmt.production =
        .all ([.keyword .while_, .punct .lparen, .rule .expression, .punct .rparen] ++ [.rule .statement]) := rfl
    rw [derives_rule_iff, split, derives_append_iff] at h
    obtain ⟨c, b, rfl, head, body⟩ := h
    exact .inr (.inr ⟨c, b, rfl, head, derives_singleton_iff.mp body⟩)
  · exact .inl (.any (by simp) h)
  · exact .inl (.any (by simp) h)
  · exact .inl (.any (by simp) h)
  · exact .inl (.any (by simp) h)

/-- Every statement can be read so that each `else` belongs to the nearest `if`. -/
theorem nearest_of_derives (h : Derives (.rule .statement) ts) : Nearest false ts := by
  induction length : ts.length using Nat.strongRecOn generalizing ts with
  | ind n ih =>
    rcases statement_cases h with h | ⟨c, b, r, rfl, head, body, other⟩ | ⟨c, b, rfl, head, body⟩
    · exact .simple h
    · have positive := length_conditional head
      simp only [List.length_append] at length
      have first := ih b.length (by omega) body rfl
      rcases other with rfl | ⟨o, t, rfl, orElse, other⟩
      · rw [List.append_nil]
        exact .ifThen head first
      · simp only [List.length_cons] at length
        have second := ih t.length (by omega) other rfl
        rcases first.attach orElse second with closed | taken
        · exact .ifElse head closed orElse second
        · exact .ifThen head taken
    · have positive := length_conditional head
      simp only [List.length_append] at length
      exact .loop head (ih b.length (by omega) body rfl)

end Statements

end MiniC.Grammar
