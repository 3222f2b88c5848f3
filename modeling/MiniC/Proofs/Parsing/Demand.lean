import MiniC.Proofs.Parsing.Fuel

namespace MiniC

/-- A lexer within a source: the text that is left, and what has been found before it. -/
structure Lexer where
  rest : Text
  line : Nat
  /-- Whether the end of the source has been handed out. It is recorded once. -/
  done : Bool
  tokens : List Token
  errors : List (Located LexicalError)

namespace Lexer

def start (source : Text) : Lexer :=
  ⟨source, 1, false, [], []⟩

def ahead (l : Lexer) : Lexer :=
  let segment := Segment.first l.rest
  { l with rest := l.rest.tail.drop (segment.text.length - 1), line := l.line + segment.text.newlines }

theorem length_ahead_lt {l : Lexer} (left : l.rest ≠ []) : l.ahead.rest.length < l.rest.length := by
  have filled := List.length_pos_iff.mpr left
  simp only [ahead, List.length_drop, List.length_tail]
  omega

/-- The next token. Malformed lexemes are recorded and skipped, blanks and comments are skipped. -/
def next (l : Lexer) : Token × Lexer :=
  if left : l.rest = [] then
    let t := Token.endOfFile l.line
    (t, { l with done := true, tokens := if l.done then l.tokens else l.tokens ++ [t] })
  else
    have := length_ahead_lt left
    match (Segment.first l.rest).kind with
    | .token terminal =>
      let t : Token := ⟨terminal, l.line⟩
      (t, { l.ahead with tokens := l.tokens ++ [t] })
    | .malformed error => next { l.ahead with errors := l.errors ++ [⟨l.line, error⟩] }
    | .blank | .comment => next l.ahead
termination_by l.rest.length

def pull : Nat → Lexer → Lexer
  | 0, l => l
  | n + 1, l => pull n l.next.2

theorem pull_succ (n : Nat) (l : Lexer) : l.pull (n + 1) = (l.pull n).next.2 := by
  induction n generalizing l with
  | zero => rfl
  | succ n ih => exact ih l.next.2

/-- What the lexer will hand out and record. -/
def pending (l : Lexer) : TokenStream :=
  .ofSegments l.line (Segment.cut l.rest)

theorem pending_of_nil {l : Lexer} (nil : l.rest = []) : l.pending = ⟨[], l.line, []⟩ := by
  rw [pending, nil, Segment.cut]
  rfl

theorem pending_of_ne_nil {l : Lexer} (left : l.rest ≠ []) :
    l.pending = .ofSegments l.line (Segment.first l.rest :: Segment.cut l.ahead.rest) := by
  obtain ⟨c, rest, cons⟩ := List.exists_cons_of_ne_nil left
  rw [pending, ahead, cons, Segment.cut]
  rfl

section Kinds

variable {l : Lexer} (left : l.rest ≠ [])

include left

theorem pending_of_token {terminal : Terminal} (kind : (Segment.first l.rest).kind = .token terminal) :
    l.pending = { l.ahead.pending with tokens := ⟨terminal, l.line⟩ :: l.ahead.pending.tokens } := by
  rw [pending_of_ne_nil left, TokenStream.ofSegments, kind]
  rfl

theorem pending_of_malformed {error : LexicalError} (kind : (Segment.first l.rest).kind = .malformed error) :
    l.pending = { l.ahead.pending with errors := ⟨l.line, error⟩ :: l.ahead.pending.errors } := by
  rw [pending_of_ne_nil left, TokenStream.ofSegments, kind]
  rfl

theorem pending_of_skipped
    (kind : (Segment.first l.rest).kind = .blank ∨ (Segment.first l.rest).kind = .comment) :
    l.pending = l.ahead.pending := by
  rw [pending_of_ne_nil left, TokenStream.ofSegments]
  rcases kind with kind | kind <;> rw [kind] <;> rfl

end Kinds

structure Hands (l : Lexer) (t : Token) (l' : Lexer) : Prop where
  tokens : l'.tokens = l.tokens ++ [t]
  done : l'.done = l.done
  rest : l.pending.tokens = t :: l'.pending.tokens
  endLine : l'.pending.endLine = l.pending.endLine
  errors : l'.errors ++ l'.pending.errors = l.errors ++ l.pending.errors

structure Finishes (l : Lexer) (t : Token) (l' : Lexer) : Prop where
  rest : l.pending.tokens = []
  token : t = l.pending.endToken
  tokens : l'.tokens = if l.done then l.tokens else l.tokens ++ [l.pending.endToken]
  errors : l'.errors = l.errors ++ l.pending.errors

structure Skips (l l' : Lexer) : Prop where
  tokens : l'.tokens = l.tokens
  done : l'.done = l.done
  rest : l'.pending.tokens = l.pending.tokens
  endLine : l'.pending.endLine = l.pending.endLine
  errors : l'.errors ++ l'.pending.errors = l.errors ++ l.pending.errors

theorem Skips.hands {l l₁ l' : Lexer} {t : Token} (skips : l.Skips l₁) (hands : l₁.Hands t l') : l.Hands t l' where
  tokens := by rw [hands.tokens, skips.tokens]
  done := by rw [hands.done, skips.done]
  rest := by rw [← skips.rest, hands.rest]
  endLine := by rw [hands.endLine, skips.endLine]
  errors := by rw [hands.errors, skips.errors]

theorem Skips.finishes {l l₁ l' : Lexer} {t : Token} (skips : l.Skips l₁) (finishes : l₁.Finishes t l') :
    l.Finishes t l' where
  rest := by rw [← skips.rest, finishes.rest]
  token := by rw [finishes.token, TokenStream.endToken, skips.endLine, TokenStream.endToken]
  tokens := by
    rw [finishes.tokens, skips.tokens, skips.done, TokenStream.endToken, skips.endLine]
    rfl
  errors := by rw [finishes.errors, skips.errors]

theorem skips_ahead {l : Lexer} (skipped : l.pending = l.ahead.pending) : l.Skips l.ahead :=
  ⟨rfl, rfl, by rw [skipped], by rw [skipped], by rw [skipped]; rfl⟩

theorem next_cases (l : Lexer) : l.Hands l.next.1 l.next.2 ∨ l.Finishes l.next.1 l.next.2 := by
  fun_induction next l with
  | case1 l nil t =>
    have pending := pending_of_nil nil
    exact .inr ⟨by rw [pending], by rw [pending]; rfl, by rw [pending]; rfl, by rw [pending, List.append_nil]⟩
  | case2 l left _ terminal kind t =>
    have pending := pending_of_token left kind
    exact .inl ⟨rfl, rfl, by rw [pending]; rfl, by rw [pending]; rfl, by rw [pending]; rfl⟩
  | case3 l left _ error kind ih =>
    have pending := pending_of_malformed left kind
    have skips : l.Skips { l.ahead with errors := l.errors ++ [⟨l.line, error⟩] } := by
      refine ⟨rfl, rfl, by rw [pending]; rfl, by rw [pending]; rfl, ?_⟩
      rw [pending, List.append_assoc]
      rfl
    exact ih.imp skips.hands skips.finishes
  | case4 l left _ kind ih =>
    have skips := skips_ahead (pending_of_skipped left (.inl kind))
    exact ih.imp skips.hands skips.finishes
  | case5 l left _ kind ih =>
    have skips := skips_ahead (pending_of_skipped left (.inr kind))
    exact ih.imp skips.hands skips.finishes

end Lexer

namespace Parser

structure Ready (stream : TokenStream) (l : Lexer) : Prop where
  done : l.done = false
  tokens : l.tokens ++ l.pending.tokens = stream.tokens
  endLine : l.pending.endLine = stream.endLine
  errors : l.errors ++ l.pending.errors = stream.errors

/-- The lexer behind a state of the parser: asked for a token, it hands out the current one. -/
inductive Serves (stream : TokenStream) (l : Lexer) (s : State) : Prop where
  | going {rest : List Token} (tokens : s.tokens = l.next.1 :: rest) (handed : l.next.2.tokens = l.tokens ++ [l.next.1])
      (ready : Ready stream l.next.2) (pending : l.next.2.pending.tokens = rest)
  | over (tokens : s.tokens = []) (token : l.next.1 = stream.endToken) (all : l.next.2.tokens = stream.all)
      (errors : l.next.2.errors = stream.errors)

variable {stream : TokenStream} {l : Lexer} {s s' : State}

theorem ready_start (text : Text) : Ready (.ofSource text) (.start text) :=
  ⟨rfl, rfl, rfl, rfl⟩

theorem Ready.serves (ready : Ready stream l) (tokens : s.tokens = l.pending.tokens) : Serves stream l s := by
  rcases l.next_cases with handed | finished
  · refine .going (tokens.trans handed.rest) handed.tokens ⟨handed.done.trans ready.done, ?_, ?_, ?_⟩ rfl
    · rw [handed.tokens, ← ready.tokens, handed.rest, List.append_assoc]
      rfl
    · rw [handed.endLine, ready.endLine]
    · rw [handed.errors, ready.errors]
  · have same : l.pending.endToken = stream.endToken := by
      rw [TokenStream.endToken, ready.endLine, TokenStream.endToken]
    refine .over (tokens.trans finished.rest) (finished.token.trans same) ?_ (finished.errors.trans ready.errors)
    rw [finished.tokens, ready.done, TokenStream.all, ← ready.tokens, finished.rest, List.append_nil, same]
    rfl

theorem Serves.of_tokens (serves : Serves stream l s) (same : s'.tokens = s.tokens) : Serves stream l s' := by
  rcases serves with ⟨tokens, handed, ready, pending⟩ | ⟨tokens, token, all, errors⟩
  · exact .going (same.trans tokens) handed ready pending
  · exact .over (same.trans tokens) token all errors

theorem Steps.serves {n : Nat} (steps : Steps n s s') (serves : Serves stream l s) : Serves stream (l.pull n) s' := by
  induction steps generalizing l with
  | refl s => exact serves
  | @take n s s' t rest tokens later ih =>
    rcases serves with ⟨tokens', _, ready, pending⟩ | ⟨nil, _, _, _⟩
    · obtain ⟨-, rfl⟩ := List.cons.inj (tokens.symm.trans tokens')
      exact ih (ready.serves pending.symm)
    · rw [tokens] at nil
      cases nil
  | note noted _ ih => exact ih (serves.of_tokens noted.tokens)

theorem Serves.over_of_nil (serves : Serves stream l s) (nil : s.tokens = []) :
    l.next.2.tokens = stream.all ∧ l.next.2.errors = stream.errors := by
  rcases serves with ⟨tokens, _, _, _⟩ | ⟨_, _, all, errors⟩
  · rw [nil] at tokens
    cases tokens
  · exact ⟨all, errors⟩

theorem Serves.token (serves : Serves stream l s) (endLine : s.endLine = stream.endLine) : l.next.1 = s.current := by
  rcases serves with ⟨tokens, _, _, _⟩ | ⟨tokens, token, _, _⟩
  · rw [State.current, tokens]
    rfl
  · rw [token, State.current, tokens, endLine]
    rfl

theorem Serves.last (serves : Serves stream l s) : l.next.2.tokens.getLast? = some l.next.1 := by
  rcases serves with ⟨_, handed, _, _⟩ | ⟨_, token, all, _⟩
  · rw [handed, List.getLast?_concat]
  · rw [all, token, TokenStream.all, List.getLast?_concat]

theorem Serves.tokens (serves : Serves stream l s) {n : Nat} (left : s.tokens = stream.tokens.drop n)
    (within : n ≤ stream.tokens.length) : l.next.2.tokens = stream.all.take (n + 1) := by
  rcases serves with ⟨tokens, _, ready, rfl⟩ | ⟨tokens, _, all, _⟩
  · have count : l.next.2.tokens.length = n + 1 := by
      have behind := congrArg List.length (left.symm.trans tokens)
      have whole := congrArg List.length ready.tokens
      rw [List.length_drop, List.length_cons] at behind
      rw [List.length_append] at whole
      omega
    rw [TokenStream.all, ← ready.tokens, List.append_assoc, List.take_left' count]
  · have last : stream.tokens.length ≤ n := List.drop_eq_nil_iff.mp (left.symm.trans tokens)
    rw [all, TokenStream.all, List.take_of_length_le (by simpa using last)]

end Parser

/-- The parser takes every token of a text once and stops at the end of the source. A lexer that is asked
    for a token when the parser has taken `n` of them hands out the one that the parser looks at, and has
    recorded those before it. Asked for the last time, it has the tokens and errors of lexing alone,
    which are those that a compilation shows. On the way, a statement takes a token wherever one is left,
    so that the guard against one that does not makes no difference, and no rule is cut off. -/
theorem parse_drains_lexer (text : Text) :
    let stream := TokenStream.ofSource text
    let start := Parser.State.start stream
    let final := (Parser.source.run start).2
    let count := stream.tokens.length
    let lexer := Lexer.start text
    (Parser.Steps count start final ∧ final.taken = count ∧ final.current = stream.endToken) ∧
    (∀ n s, Parser.Steps n start s → s.taken = n ∧ s.tokens = stream.tokens.drop n ∧
      (lexer.pull n).next.1 = s.current ∧ (lexer.pull (n + 1)).tokens.getLast? = some s.current ∧
      (lexer.pull (n + 1)).tokens = stream.all.take (n + 1)) ∧
    ((lexer.pull (count + 1)).tokens = stream.all ∧ (lexer.pull (count + 1)).errors = stream.errors) ∧
    (∀ c, compile text = .ok c → c.stream = stream ∧ c.diagnostics.lexical = stream.diagnostics) ∧
    (∀ inner, (inner = .idle ∨ ∃ n, inner = Parser.rules n) →
      (∀ s, s.tokens ≠ [] → ((Parser.statement inner).run s).2.size < s.size ∧
        s.taken < ((Parser.statement inner).run s).2.taken) ∧
      Parser.statements inner = Parser.unguarded inner) ∧
    ∀ n s, s.size ≤ n → (Parser.rules n).decls.run s = (Parser.rules s.size).decls.run s := by
  intro stream start final count lexer
  have spent : final.tokens = [] := Parser.spent_source fun ended => by cases ended
  obtain ⟨n, steps⟩ := Parser.steady_source start
  have all : n = count := by
    have size := steps.size_add
    have size' : final.size = 0 := by rw [Parser.State.size, spent, List.length_nil]
    exact (Nat.zero_add n).symm.trans (size' ▸ size)
  rw [all] at steps
  have serves {n : Nat} {s : Parser.State} (steps : Parser.Steps n start s) : Parser.Serves stream (lexer.pull n) s :=
    steps.serves ((Parser.ready_start text).serves rfl)
  refine ⟨⟨steps, ?_, ?_⟩, ?_, ?_, ?_, ?_, fun n s enough => Parser.decls_of_size_le enough⟩
  · exact steps.taken_eq.trans (Nat.zero_add count)
  · rw [Parser.State.current, spent, steps.endLine_eq]
    rfl
  · intro n s reached
    have token := (serves reached).token reached.endLine_eq
    have left : s.tokens = stream.tokens.drop n := reached.tokens_eq_drop
    have within : n ≤ count := by
      have size := reached.size_add
      have size' : start.size = count := rfl
      omega
    rw [lexer.pull_succ n, ← token]
    exact ⟨reached.taken_eq.trans (Nat.zero_add n), left, rfl, (serves reached).last, (serves reached).tokens left within⟩
  · rw [lexer.pull_succ count]
    exact (serves steps).over_of_nil spent
  · intro c compiles
    obtain ⟨g, assembly, _, _, rfl⟩ := generated_of_compile compiles
    exact ⟨rfl, rfl⟩
  · intro inner reached
    have steady : inner.Steady := by
      rcases reached with rfl | ⟨n, rfl⟩
      · exact Parser.steady_idle
      · exact Parser.steady_rules n
    refine ⟨fun s left => ?_, Parser.statements_eq_unguarded steady⟩
    have shorter : ((Parser.statement inner).run s).2.size < s.size := Parser.advances_statement steady left
    have count := (Parser.moving_statement steady).count s
    exact ⟨shorter, by omega⟩

end MiniC
