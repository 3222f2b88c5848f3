import MiniC.Proofs.Parsing.Acceptance
import MiniC.Proofs.Parsing.Marks
import MiniC.Proofs.Parsing.Recovery

namespace MiniC

def Expr.level : Expr → Nat
  | .assign .. => 0
  | .binary op .. => op.precedence
  | _ => 7

/-- An expression in a place for those of level `k` and above, given how it is written alone. -/
def Expr.fitted (k : Nat) (e : Expr) (alone : List Mark) : List Mark :=
  if k ≤ e.level then alone else Punct.lparen.mark none :: (alone ++ [Punct.rparen.mark none])

mutual

/-- How an expression is written where nothing stands beside it. Operators take an operand of their own
    level on the left only, and assignment takes one on the right only. -/
def Expr.alone : Expr → List Mark
  | .missing => []
  | .number n => [n.mark]
  | .name id => [id.mark]
  | .index array subscript =>
    array.mark :: Punct.lbracket.mark none :: (subscript.alone ++ [Punct.rbracket.mark none])
  | .call callee [] => [callee.mark, Punct.lparen.mark none, Punct.rparen.mark none]
  | .call callee (first :: rest) =>
    callee.mark :: Punct.lparen.mark none :: (first.alone ++ Expr.following rest ++ [Punct.rparen.mark none])
  | .unary op line operand => op.punct.mark line :: operand.fitted 7 operand.alone
  | .binary op line left right =>
    left.fitted op.precedence left.alone ++ op.punct.mark line :: right.fitted (op.precedence + 1) right.alone
  | .assign line target value => target.fitted 1 target.alone ++ Punct.assign.mark line :: value.alone

def Expr.following : List Expr → List Mark
  | [] => []
  | e :: rest => Punct.comma.mark none :: (e.alone ++ Expr.following rest)

end

namespace Expr

def written (k : Nat) (e : Expr) : List Mark :=
  e.fitted k e.alone

theorem written_of_le {k : Nat} {e : Expr} (le : k ≤ e.level) : e.written k = e.alone :=
  if_pos le

theorem written_of_lt {k : Nat} {e : Expr} (lt : e.level < k) :
    e.written k = Punct.lparen.mark none :: (e.alone ++ [Punct.rparen.mark none]) :=
  if_neg (Nat.not_le.mpr lt)

def listed : List Expr → List Mark
  | [] => []
  | first :: rest => first.alone ++ following rest

theorem alone_call (callee : Ident) (args : List Expr) : (Expr.call callee args).alone =
    callee.mark :: Punct.lparen.mark none :: (listed args ++ [Punct.rparen.mark none]) := by
  cases args <;> rfl

/-- What comes first is no closing parenthesis, so that an argument is told from none. -/
theorem exists_head {e : Expr} (complete : e.Complete) :
    ∃ m ms, e.alone = m :: ms ∧ m.terminal ≠ .punct .rparen := by
  have place {k : Nat} {e : Expr} {more : List Mark} (head : ∃ m ms, e.alone = m :: ms ∧ m.terminal ≠ .punct .rparen) :
      ∃ m ms, e.written k ++ more = m :: ms ∧ m.terminal ≠ .punct .rparen := by
    obtain ⟨m, ms, same, other⟩ := head
    by_cases fits : k ≤ e.level
    · exact ⟨m, ms ++ more, by rw [written_of_le fits, same, List.cons_append], other⟩
    · exact ⟨_, _, by rw [written_of_lt (Nat.not_le.mp fits), List.cons_append], by simp [Punct.mark]⟩
  induction e using Expr.induction with
  | missing => exact complete.elim
  | number n => exact ⟨_, _, rfl, by simp [Numeral.mark]⟩
  | name id => exact ⟨_, _, rfl, by simp [Ident.mark]⟩
  | index array e => exact ⟨_, _, rfl, by simp [Ident.mark]⟩
  | call callee args => cases args <;> exact ⟨_, _, rfl, by simp [Ident.mark]⟩
  | unary op line e => exact ⟨_, _, rfl, by cases op <;> simp [Punct.mark, UnaryOp.punct]⟩
  | binary op line left right ihl _ => exact place (ihl complete.1)
  | assign line target value iht _ => exact place (iht complete.1)

end Expr

/-- How an expression grows on the left: operators of level `least` and above follow, none of them above
    `most` or above the one before it, each with its right operand. -/
inductive Grows (least : Nat) : Nat → Expr → Expr → List Mark → Prop where
  | done {most : Nat} {e : Expr} : Grows least most e e []
  | step {most line : Nat} {op : BinaryOp} {left right e : Expr} {more : List Mark} (high : least ≤ op.precedence)
      (low : op.precedence ≤ most) (complete : right.Complete)
      (later : Grows least op.precedence (.binary op line left right) e more) :
      Grows least most left e (op.punct.mark line :: (right.written (op.precedence + 1) ++ more))

theorem Grows.concat {least most line : Nat} {op : BinaryOp} {first left right : Expr} {ms : List Mark}
    (grows : Grows op.precedence most first left ms) (high : least ≤ op.precedence) (low : op.precedence ≤ most)
    (complete : right.Complete) :
    Grows least most first (.binary op line left right)
      (ms ++ op.punct.mark line :: right.written (op.precedence + 1)) := by
  induction grows with
  | @done most left =>
    have one : Grows least most left (.binary op line left right)
        (op.punct.mark line :: (right.written (op.precedence + 1) ++ [])) := .step high low complete .done
    rwa [List.append_nil] at one
  | step high' low' complete' _ ih =>
    rw [List.cons_append, List.append_assoc]
    exact .step (Nat.le_trans high high') low' complete' (ih high')

theorem precedence_pos (op : BinaryOp) : 0 < op.precedence := by
  cases op <;> decide

theorem exists_operand {e : Expr} (complete : e.Complete) {k : Nat} (positive : 0 < k) (le : k ≤ 7) :
    ∃ u ms, e.written k = u.written 7 ++ ms ∧ u.Complete ∧ Grows k 6 u e ms := by
  induction e using Expr.induction generalizing k with
  | binary op line left right ihl _ =>
    have high := Grammar.precedence_le op
    by_cases fits : k ≤ op.precedence
    · -- The left operand is written at the operator's own level, so that its operators come before.
      obtain ⟨u, ms, same, first, grows⟩ := ihl complete.1 (precedence_pos op) (by omega)
      refine ⟨u, _, ?_, first, grows.concat fits high complete.2⟩
      rw [Expr.written_of_le fits, Expr.alone, ← List.append_assoc, ← same]
      rfl
    · have loose : (Expr.binary op line left right).level < k := Nat.not_le.mp fits
      refine ⟨_, [], ?_, complete, .done⟩
      rw [Expr.written_of_lt loose, Expr.written_of_lt (Nat.lt_of_lt_of_le loose le), List.append_nil]
  | assign =>
    refine ⟨_, [], ?_, complete, .done⟩
    rw [Expr.written_of_lt positive, Expr.written_of_lt (Nat.lt_of_lt_of_le positive le), List.append_nil]
  | _ =>
    refine ⟨_, [], ?_, complete, .done⟩
    rw [Expr.written_of_le le, Expr.written_of_le (Nat.le_refl 7), List.append_nil]

namespace Parser

open Grammar (accepts_punct_iff)

/-- An action that returns `a`, leaves the tokens `rest` and does nothing else. -/
def Returns {α : Type} (x : ParseM α) (s : State) (a : α) (rest : List Token) : Prop :=
  Ends x s fun b s' => b = a ∧ s'.tokens = rest ∧ Moved s s'

theorem Returns.bind {α β : Type} {x : ParseM α} {f : α → ParseM β} {s : State} {a : α} {b : β} {mid rest : List Token}
    (first : Returns x s a mid) (second : ∀ s', s'.tokens = mid → Returns (f a) s' b rest) :
    Returns (x >>= f) s b rest := by
  refine Ends.bind first ?_
  rintro _ s' ⟨rfl, tokens, moved⟩
  refine (second s' tokens).mono ?_
  rintro _ s'' ⟨same, tokens', moved'⟩
  exact ⟨same, tokens', moved.trans moved'⟩

section Steps

variable {s : State} {t : Token} {rest : List Token}

theorem returns_pure {α : Type} (tokens : s.tokens = rest) (a : α) : Returns (pure a) s a rest :=
  ⟨rfl, tokens, rfl, rfl, rfl⟩

theorem returns_advance (tokens : s.tokens = t :: rest) : Returns advance s () rest :=
  ⟨rfl, advance_tokens tokens, moved_advance s⟩

theorem returns_expect {want : Want} (tokens : s.tokens = t :: rest) (accepts : want.accepts t = true) (sync : Sync) :
    Returns (expect want sync) s (some t) rest := by
  have current := current_of_cons tokens
  exact (ends_expect_iff (by rw [current]; exact accepts)).mpr ⟨by rw [current], advance_tokens tokens, moved_advance s⟩

end Steps

/-- An action that makes `a` of fewer than `n` tokens for the marks `ms`, if `stop` holds of what
    follows them. -/
def Inverts {α : Type} (n : Nat) (ms : List Mark) (stop : List Token → Prop) (x : ParseM α) (a : α) : Prop :=
  ∀ ⦃s : State⦄ ⦃ts rest : List Token⦄, ts.length < n → List.Forall₂ Mark.Fits ms ts → s.tokens = ts ++ rest → stop rest →
    Returns x s a rest

structure Rules.Invert (r : Rules) (n : Nat) : Prop where
  expression : ∀ {e : Expr}, e.Complete → Inverts n e.alone (Ended 0) r.expression e
  arguments : ∀ {e : Expr} {es : List Expr}, Expr.AllComplete (e :: es) →
    Inverts n (Expr.listed (e :: es)) (Next .rparen) r.arguments (e :: es)
  unary : ∀ {e : Expr}, e.Complete → Inverts n (e.written 7) (Ended 7) r.unary e
  binary : ∀ {e : Expr} {k : Nat}, e.Complete → 0 < k → k ≤ 7 → Inverts n (e.written k) (Ended k) (r.binary k) e
  chain : ∀ {left e : Expr} {k most : Nat} {ms : List Mark}, Grows k most left e ms →
    Inverts n ms (Ended k) (r.chain k left) e

theorem fits_between {o c : Mark} {ms : List Mark} {ts : List Token} (fits : List.Forall₂ Mark.Fits (o :: (ms ++ [c])) ts) :
    ∃ t us t', ts = t :: (us ++ [t']) ∧ o.Fits t ∧ List.Forall₂ Mark.Fits ms us ∧ c.Fits t' := by
  obtain ⟨t, _, opening, behind, rfl⟩ := List.forall₂_cons_left_iff.mp fits
  obtain ⟨us, _, rfl, inside, last⟩ := Mark.forall₂_append_iff.mp behind
  obtain ⟨t', _, closing, ⟨⟩, rfl⟩ := List.forall₂_cons_left_iff.mp last
  exact ⟨t, us, t', rfl, opening, inside, closing⟩

section Following

variable {k most : Nat} {left e : Expr} {ms : List Mark} {ts rest : List Token}

theorem binaryOp_of_mark {op : BinaryOp} {line : Option Nat} {t : Token} (fits : (op.punct.mark line).Fits t) :
    binaryOp? t = some op := by
  rw [binaryOp?, fits.1]
  cases op <;> rfl

theorem unaryOp_of_mark {op : UnaryOp} {line : Option Nat} {t : Token} (fits : (op.punct.mark line).Fits t) :
    unaryOp? t = some op := by
  rw [unaryOp?, fits.1]
  cases op <;> rfl

/-- What grows with operators of level `most` at the highest ends an operand that is above them. -/
theorem ended_of_grows (grows : Grows k most left e ms) (fits : List.Forall₂ Mark.Fits ms ts) (le : k ≤ most + 1)
    (ended : Ended k rest) : Ended (most + 1) (ts ++ rest) := by
  cases grows with
  | done =>
    cases fits
    exact ended.mono le
  | step _ low _ _ =>
    obtain ⟨t, ts, fit, _, rfl⟩ := List.forall₂_cons_left_iff.mp fits
    rintro _ p ⟨⟩ strong
    rw [strength_of_binaryOp (binaryOp_of_mark fit)] at strong
    cases strong
    exact Nat.lt_succ_of_le low

end Following

section Expressions

variable {inner : Rules} {n : Nat} (invert : inner.Invert n)

include invert

theorem inverts_chain {left e : Expr} {k most : Nat} {ms : List Mark} (grows : Grows k most left e ms) :
    Inverts (n + 1) ms (Ended k) (chain inner k left) e := by
  intro s ts rest bound fits tokens ended
  unfold chain
  refine ends_current ?_
  cases grows with
  | done =>
    cases fits
    split
    · rename_i op operator
      rw [if_neg (Nat.not_le.mpr (ended.precedence_lt tokens operator))]
      exact returns_pure tokens _
    · exact returns_pure tokens _
  | @step _ line op _ right _ more high low complete later =>
    obtain ⟨t, _, fit, behind, rfl⟩ := List.forall₂_cons_left_iff.mp fits
    obtain ⟨us, vs, rfl, operand, others⟩ := Mark.forall₂_append_iff.mp behind
    have tight := Grammar.precedence_le op
    have place : t.line = line := fit.2 line rfl
    -- The right operand takes tighter operators only, and the next one is none of them.
    have ended' := ended_of_grows later others (Nat.le_succ_of_le high) ended
    replace tokens : s.tokens = t :: (us ++ (vs ++ rest)) := by simpa using tokens
    simp only [List.length_cons, List.length_append] at bound
    rw [current_of_cons tokens, binaryOp_of_mark fit]
    simp only [high, if_true]
    rw [place]
    exact (returns_advance tokens).bind fun s₁ tokens₁ =>
      (invert.binary complete (Nat.succ_pos _) (by omega) (by omega) operand tokens₁ ended').bind fun s₂ tokens₂ =>
      invert.chain later (by omega) others tokens₂ ended

theorem inverts_factor_enclosed {e : Expr} (complete : e.Complete) (stop : List Token → Prop) :
    Inverts (n + 1) (Punct.lparen.mark none :: (e.alone ++ [Punct.rparen.mark none])) stop (factor inner) e := by
  intro s ts rest bound fits tokens _
  obtain ⟨o, us, c, rfl, opening, value, closing⟩ := fits_between fits
  replace tokens : s.tokens = o :: (us ++ c :: rest) := by simpa using tokens
  have terminal : o.terminal = .punct .lparen := opening.1
  simp only [List.length_cons, List.length_append, List.length_nil] at bound
  unfold factor
  refine ends_current ?_
  rw [current_of_cons tokens, terminal]
  exact (returns_advance tokens).bind fun s₁ tokens₁ =>
    (invert.expression complete (by omega) value tokens₁ (ended_of_closer closing.1 (by simp))).bind fun s₂ tokens₂ =>
    (returns_expect tokens₂ (accepts_punct_iff.mpr closing.1) exprSync).bind fun s₃ tokens₃ => returns_pure tokens₃ e

omit invert in
theorem inverts_afterName (id : Ident) : Inverts n [] (Ended 7) (afterName inner id) (.name id) := by
  intro s ts rest _ fits tokens ended
  cases fits
  have bracket := ended.not_accepts tokens (p := .lbracket) (q := 7) (fun t shown => by simp [strength?, shown])
    (Nat.le_refl _)
  have paren := ended.not_accepts tokens (p := .lparen) (q := 7) (fun t shown => by simp [strength?, shown])
    (Nat.le_refl _)
  unfold afterName
  refine ends_at ?_
  rw [bracket]
  refine ends_at ?_
  rw [paren]
  exact returns_pure tokens _

theorem inverts_afterName_index (id : Ident) {e : Expr} (complete : e.Complete) (stop : List Token → Prop) :
    Inverts n (Punct.lbracket.mark none :: (e.alone ++ [Punct.rbracket.mark none])) stop (afterName inner id)
      (.index id e) := by
  intro s ts rest bound fits tokens _
  obtain ⟨o, us, c, rfl, opening, value, closing⟩ := fits_between fits
  replace tokens : s.tokens = o :: (us ++ c :: rest) := by simpa using tokens
  simp only [List.length_cons, List.length_append, List.length_nil] at bound
  unfold afterName
  refine ends_at ?_
  rw [current_of_cons tokens, if_pos (accepts_punct_iff.mpr opening.1)]
  exact (returns_advance tokens).bind fun s₁ tokens₁ =>
    (invert.expression complete (by omega) value tokens₁ (ended_of_closer closing.1 (by simp))).bind fun s₂ tokens₂ =>
    (returns_expect tokens₂ (accepts_punct_iff.mpr closing.1) exprSync).bind fun s₃ tokens₃ => returns_pure tokens₃ _

theorem inverts_afterName_call (id : Ident) {args : List Expr} (complete : Expr.AllComplete args)
    (stop : List Token → Prop) :
    Inverts n (Punct.lparen.mark none :: (Expr.listed args ++ [Punct.rparen.mark none])) stop (afterName inner id)
      (.call id args) := by
  intro s ts rest bound fits tokens _
  obtain ⟨o, us, c, rfl, opening, inside, closing⟩ := fits_between fits
  replace tokens : s.tokens = o :: (us ++ c :: rest) := by simpa using tokens
  have other : (Want.punct .lbracket).accepts o = false := by simp [Want.accepts, opening.1, Punct.mark]
  simp only [List.length_cons, List.length_append, List.length_nil] at bound
  unfold afterName
  refine ends_at ?_
  rw [current_of_cons tokens, other]
  refine ends_at ?_
  rw [current_of_cons tokens, accepts_punct_iff.mpr opening.1]
  refine (returns_advance tokens).bind fun s₁ tokens₁ => ends_at ?_
  cases args with
  | nil =>
    cases inside
    rw [current_of_cons tokens₁, accepts_punct_iff.mpr closing.1]
    exact Returns.bind (f := fun _ => pure (Expr.call id []))
      (returns_expect tokens₁ (accepts_punct_iff.mpr closing.1) exprSync) fun s₂ tokens₂ => returns_pure tokens₂ _
  | cons first others =>
    have filled : (Want.punct .rparen).accepts s₁.current = false := by
      obtain ⟨m, ms, head, notClosing⟩ := Expr.exists_head complete.1
      rw [Expr.listed, head, List.cons_append] at inside
      obtain ⟨t, vs, fit, _, rfl⟩ := List.forall₂_cons_left_iff.mp inside
      rw [current_of_cons tokens₁]
      cases accepts : (Want.punct .rparen).accepts t with
      | false => rfl
      | true => exact absurd (fit.1.symm.trans (accepts_punct_iff.mp accepts)) notClosing
    rw [filled]
    exact (invert.arguments complete (by omega) inside tokens₁ ⟨c, rest, rfl, closing.1⟩).bind fun s₂ tokens₂ =>
      (returns_expect tokens₂ (accepts_punct_iff.mpr closing.1) exprSync).bind fun s₃ tokens₃ => returns_pure tokens₃ _

omit invert in
theorem inverts_factor_name {id : Ident} {e : Expr} {ms : List Mark} {stop : List Token → Prop}
    (after : Inverts n ms stop (afterName inner id) e) : Inverts (n + 1) (id.mark :: ms) stop (factor inner) e := by
  intro s ts rest bound fits tokens stops
  obtain ⟨t, us, fit, behind, rfl⟩ := List.forall₂_cons_left_iff.mp fits
  have terminal : t.terminal = .ident id.name := fit.1
  have line : t.line = id.line := fit.2 id.line rfl
  unfold factor
  refine ends_current ?_
  rw [current_of_cons tokens, terminal]
  refine (returns_advance tokens).bind fun s₁ tokens₁ => ?_
  rw [line]
  exact after (Nat.lt_of_succ_lt_succ bound) behind tokens₁ stops

omit invert in
theorem inverts_unary_of_factor {m : Mark} {ms : List Mark} {e : Expr} {stop : List Token → Prop}
    (plain : ∀ line, unaryOp? ⟨m.terminal, line⟩ = none)
    (inverts : Inverts (n + 1) (m :: ms) stop (factor inner) e) : Inverts (n + 1) (m :: ms) stop (unary inner) e := by
  intro s ts rest bound fits tokens stops
  obtain ⟨⟨_, line⟩, us, ⟨rfl, _⟩, _, rfl⟩ := List.forall₂_cons_left_iff.mp fits
  unfold unary
  refine ends_current ?_
  rw [current_of_cons tokens, plain line]
  exact inverts bound fits tokens stops

omit invert in
theorem inverts_factor_number (m : Numeral) (stop : List Token → Prop) :
    Inverts (n + 1) [m.mark] stop (factor inner) (.number m) := by
  intro s ts rest _ fits tokens _
  obtain ⟨t, _, fit, ⟨⟩, rfl⟩ := List.forall₂_cons_left_iff.mp fits
  have terminal : t.terminal = .number m := fit.1
  unfold factor
  refine ends_current ?_
  rw [current_of_cons tokens, terminal]
  exact (returns_advance tokens).bind fun s₁ tokens₁ => returns_pure tokens₁ _

theorem inverts_unary_operator {op : UnaryOp} {line : Nat} {e : Expr} (complete : e.Complete) :
    Inverts (n + 1) (op.punct.mark line :: e.written 7) (Ended 7) (unary inner) (.unary op line e) := by
  intro s ts rest bound fits tokens ended
  obtain ⟨t, us, fit, operand, rfl⟩ := List.forall₂_cons_left_iff.mp fits
  have place : t.line = line := fit.2 line rfl
  unfold unary
  refine ends_current ?_
  rw [current_of_cons tokens, unaryOp_of_mark fit, place]
  exact (returns_advance tokens).bind fun s₁ tokens₁ =>
    (invert.unary complete (Nat.lt_of_succ_lt_succ bound) operand tokens₁ ended).bind fun s₂ tokens₂ =>
    returns_pure tokens₂ _

theorem inverts_unary {e : Expr} (complete : e.Complete) : Inverts (n + 1) (e.written 7) (Ended 7) (unary inner) e := by
  have enclosed (loose : e.level < 7) : Inverts (n + 1) (e.written 7) (Ended 7) (unary inner) e := by
    rw [Expr.written_of_lt loose]
    exact inverts_unary_of_factor (fun _ => rfl) (inverts_factor_enclosed invert complete _)
  cases e with
  | missing => exact complete.elim
  | number m => exact inverts_unary_of_factor (fun _ => rfl) (inverts_factor_number m _)
  | name id => exact inverts_unary_of_factor (fun _ => rfl) (inverts_factor_name (inverts_afterName id))
  | index array subscript =>
    have inside : subscript.Complete := complete
    have after := inverts_afterName_index invert array inside (Ended 7)
    exact inverts_unary_of_factor (fun _ => rfl) (inverts_factor_name after)
  | call callee args =>
    have inside : Expr.AllComplete args := complete
    have after := inverts_afterName_call invert callee inside (Ended 7)
    rw [Expr.written_of_le (Nat.le_refl 7), Expr.alone_call]
    exact inverts_unary_of_factor (fun _ => rfl) (inverts_factor_name after)
  | unary op line operand =>
    have inside : operand.Complete := complete
    exact inverts_unary_operator invert inside
  | binary op line left right => exact enclosed (Nat.lt_succ_of_le (Grammar.precedence_le op))
  | assign => exact enclosed (Nat.zero_lt_succ 6)

theorem inverts_binary {e : Expr} {k : Nat} (complete : e.Complete) (positive : 0 < k) (le : k ≤ 7) :
    Inverts (n + 1) (e.written k) (Ended k) (binary inner k) e := by
  intro s ts rest bound fits tokens ended
  obtain ⟨u, ms, same, first, grows⟩ := exists_operand complete positive le
  rw [same] at fits
  obtain ⟨us, vs, rfl, operand, others⟩ := Mark.forall₂_append_iff.mp fits
  rw [List.append_assoc] at tokens
  rw [List.length_append] at bound
  unfold binary
  exact (inverts_unary invert first (by omega) operand tokens (ended_of_grows grows others le ended)).bind fun s₁ tokens₁ =>
    inverts_chain invert grows (by omega) others tokens₁ ended

theorem inverts_expression_assign {line : Nat} {target value : Expr} (left : target.Complete) (right : value.Complete) :
    Inverts (n + 1) (target.written 1 ++ Punct.assign.mark line :: value.alone) (Ended 0) (expression inner)
      (.assign line target value) := by
  intro s ts rest bound fits tokens ended
  obtain ⟨us, _, rfl, first, behind⟩ := Mark.forall₂_append_iff.mp fits
  obtain ⟨t, vs, fit, second, rfl⟩ := List.forall₂_cons_left_iff.mp behind
  replace tokens : s.tokens = us ++ t :: (vs ++ rest) := by simpa using tokens
  simp only [List.length_append, List.length_cons] at bound
  have assign : t.terminal = .punct .assign := fit.1
  have place : t.line = line := fit.2 line rfl
  have ended' : Ended 1 (t :: (vs ++ rest)) := by
    rintro _ p ⟨⟩ strong
    simp [strength?, assign] at strong
    omega
  unfold expression
  -- No operator binds as loosely as an assignment, so that the target ends there.
  refine (inverts_binary invert left Nat.one_pos (by omega) (by omega) first tokens ended').bind
    fun s₁ tokens₁ => ends_current (ends_at ?_)
  rw [current_of_cons tokens₁, accepts_punct_iff.mpr assign, place]
  exact (returns_advance tokens₁).bind fun s₂ tokens₂ =>
    (invert.expression right (by omega) second tokens₂ ended).bind fun s₃ tokens₃ => returns_pure tokens₃ _

theorem inverts_expression_chain {e : Expr} (complete : e.Complete) (chain : 1 ≤ e.level) :
    Inverts (n + 1) e.alone (Ended 0) (expression inner) e := by
  intro s ts rest bound fits tokens ended
  rw [← Expr.written_of_le chain] at fits
  unfold expression
  refine (inverts_binary invert complete Nat.one_pos (by omega) bound fits tokens (ended.mono (Nat.zero_le 1))).bind
    fun s₁ tokens₁ => ends_current (ends_at ?_)
  rw [ended.not_accepts tokens₁ (p := .assign) (q := 0) (fun t shown => by simp [strength?, shown]) (Nat.le_refl _)]
  exact returns_pure tokens₁ _

theorem inverts_expression {e : Expr} (complete : e.Complete) :
    Inverts (n + 1) e.alone (Ended 0) (expression inner) e := by
  cases e with
  | assign line target value => exact inverts_expression_assign invert complete.1 complete.2
  | binary op => exact inverts_expression_chain invert complete (precedence_pos op)
  | _ => exact inverts_expression_chain invert complete (Nat.succ_pos 6)

theorem inverts_arguments {e : Expr} {es : List Expr} (complete : Expr.AllComplete (e :: es)) :
    Inverts (n + 1) (Expr.listed (e :: es)) (Next .rparen) (arguments inner) (e :: es) := by
  intro s ts rest bound fits tokens next
  obtain ⟨c, after, rfl, closing⟩ := next
  obtain ⟨us, vs, rfl, first, behind⟩ := Mark.forall₂_append_iff.mp fits
  rw [List.length_append] at bound
  unfold arguments
  cases es with
  | nil =>
    cases behind
    rw [List.append_nil] at tokens
    refine (inverts_expression invert complete.1 (by omega) first tokens (ended_of_closer closing (by simp))).bind
      fun s₁ tokens₁ => ends_at ?_
    have other : (Want.punct .comma).accepts c = false := by simp [Want.accepts, closing]
    rw [current_of_cons tokens₁, other]
    exact returns_pure tokens₁ _
  | cons e' es =>
    obtain ⟨t, vs, comma, later, rfl⟩ := List.forall₂_cons_left_iff.mp behind
    replace tokens : s.tokens = us ++ t :: (vs ++ c :: after) := by simpa using tokens
    rw [List.length_cons] at bound
    refine (inverts_expression invert complete.1 (by omega) first tokens (ended_of_closer comma.1 (by simp))).bind
      fun s₁ tokens₁ => ends_at ?_
    rw [current_of_cons tokens₁, accepts_punct_iff.mpr comma.1]
    exact (returns_advance tokens₁).bind fun s₂ tokens₂ =>
      (invert.arguments complete.2 (by omega) later tokens₂ ⟨c, after, rfl, closing⟩).bind fun s₃ tokens₃ =>
      returns_pure tokens₃ _

theorem invert_next : inner.next.Invert (n + 1) where
  expression := inverts_expression invert
  arguments := inverts_arguments invert
  unary := inverts_unary invert
  binary := inverts_binary invert
  chain := inverts_chain invert

end Expressions

theorem invert_rules (n : Nat) : (rules n).Invert (n + 1) := by
  induction n with
  | zero =>
    have idle : Rules.idle.Invert 0 := by
      constructor <;> intros <;> intro s ts rest bound <;> cases bound
    exact invert_next idle
  | succ n ih => exact invert_next ih

/-- The parser makes an expression again of the tokens that are written for it, takes them all and none
    of those behind them, and reports nothing. -/
theorem expression_of_written {e : Expr} (complete : e.Complete) {ts rest : List Token}
    (fits : List.Forall₂ Mark.Fits (e.written 0) ts) (stops : ∀ t, rest.head? = some t → strength? t = none)
    {s : State} (tokens : s.tokens = ts ++ rest) {n : Nat} (bound : ts.length ≤ n) :
    let parsed := (rules n).expression.run s
    parsed.1 = e ∧ parsed.2.tokens = rest ∧ parsed.2.errors = s.errors ∧ parsed.2.recovery = s.recovery := by
  have ended : Ended 0 rest := by
    intro t p head strong
    rw [stops t head] at strong
    cases strong
  rw [Expr.written_of_le (Nat.zero_le _)] at fits
  obtain ⟨same, left, moved⟩ := (invert_rules n).expression complete (Nat.lt_succ_of_le bound) fits tokens ended
  exact ⟨same, left, moved.errors, moved.recovery⟩

section Nested

def digit (n : Nat) : Numeral :=
  ⟨Decimal.ofNat n, .ofNat n, false⟩

/-- The expression `a[i] = b = -(1 - (2 - x)) * f(y, !z) - 3`, on the first line. -/
def nested : Expr :=
  .assign 1 (.index ⟨"a", 1⟩ (.name ⟨"i", 1⟩)) <| .assign 1 (.name ⟨"b", 1⟩) <|
    .binary .sub 1
      (.binary .mul 1
        (.unary .neg 1 (.binary .sub 1 (.number (digit 1)) (.binary .sub 1 (.number (digit 2)) (.name ⟨"x", 1⟩))))
        (.call ⟨"f", 1⟩ [.name ⟨"y", 1⟩, .unary .not 1 (.name ⟨"z", 1⟩)]))
      (.number (digit 3))

def nestedTokens : List Token :=
  [.ident "a", .punct .lbracket, .ident "i", .punct .rbracket, .punct .assign, .ident "b", .punct .assign, .punct .minus,
    .punct .lparen, .number (digit 1), .punct .minus, .punct .lparen, .number (digit 2), .punct .minus, .ident "x",
    .punct .rparen, .punct .rparen, .punct .star, .ident "f", .punct .lparen, .ident "y", .punct .comma, .punct .bang,
    .ident "z", .punct .rparen, .punct .minus, .number (digit 3)].map fun terminal => ⟨terminal, 1⟩

theorem expression_of_nested :
    let s : State := .start ⟨nestedTokens ++ [⟨.punct .semicolon, 1⟩], 1, []⟩
    let parsed := (rules 27).expression.run s
    List.Forall₂ Mark.Fits (nested.written 0) nestedTokens ∧
      parsed.1 = nested ∧ parsed.2.tokens = [⟨.punct .semicolon, 1⟩] ∧ parsed.2.errors = #[] ∧
      parsed.2.recovery = none := by
  have complete : nested.Complete := by simp [nested, Expr.Complete, Expr.AllComplete]
  have fits : List.Forall₂ Mark.Fits (nested.written 0) nestedTokens := by
    simp [nested, nestedTokens, Expr.written, Expr.fitted, Expr.level, Expr.alone, Expr.following, BinaryOp.precedence,
      BinaryOp.punct, UnaryOp.punct, Mark.Fits, Punct.mark, Ident.mark, Numeral.mark]
  refine ⟨fits, expression_of_written complete fits ?_ rfl (by decide)⟩
  rintro t ⟨⟩
  rfl

end Nested

end Parser

end MiniC
