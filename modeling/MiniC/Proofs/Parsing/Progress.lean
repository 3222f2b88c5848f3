import MiniC.Grammar.Parser
import MiniC.Proofs.Syntax

namespace MiniC.Parser

/-- Once the end of the source has been reported, some error is there. -/
def State.Honest (s : State) : Prop :=
  s.ended = true → s.errors ≠ #[]

/-- The way from one state to a later one, on which at least `w` tokens are taken. -/
structure Reads (s s' : State) (w : Nat) : Prop where
  honest : s'.Honest
  size : s'.size + w ≤ s.size
  count : s'.size + s'.taken = s.size + s.taken
  errors : s.errors.toList <+: s'.errors.toList

theorem Reads.refl {s : State} (honest : s.Honest) : Reads s s 0 :=
  ⟨honest, by omega, rfl, List.prefix_rfl⟩

theorem Reads.trans {s s' s'' : State} {v w : Nat} (first : Reads s s' v) (second : Reads s' s'' w) :
    Reads s s'' (v + w) := by
  have size := first.size
  have size' := second.size
  exact ⟨second.honest, by omega, second.count.trans first.count, first.errors.trans second.errors⟩

theorem Reads.mono {s s' : State} {v w : Nat} (h : Reads s s' v) (le : w ≤ v) : Reads s s' w :=
  ⟨h.honest, Nat.le_trans (by omega) h.size, h.count, h.errors⟩

theorem Reads.clean {s s' : State} {w : Nat} (h : Reads s s' w) (clean : s'.errors = #[]) : s.errors = #[] := by
  have errors := h.errors
  rw [clean] at errors
  simpa using List.prefix_nil.mp errors

def Ends {α : Type} (x : ParseM α) (s : State) (Q : α → State → Prop) : Prop :=
  Q (x.run s).1 (x.run s).2

theorem Ends.bind {α β : Type} {x : ParseM α} {f : α → ParseM β} {s : State} {R : α → State → Prop}
    {Q : β → State → Prop} (first : Ends x s R) (second : ∀ a s', R a s' → Ends (f a) s' Q) :
    Ends (x >>= f) s Q :=
  second _ _ first

theorem Ends.mono {α : Type} {x : ParseM α} {s : State} {R Q : α → State → Prop} (h : Ends x s R)
    (imp : ∀ a s', R a s' → Q a s') : Ends x s Q :=
  imp _ _ h

/-- An action that takes at least `w a` tokens for its result `a`, which has no gaps, as `c` says,
    unless there is an error. -/
def Gives {α : Type} (x : ParseM α) (s : State) (w : α → Nat) (c : α → Prop) : Prop :=
  Ends x s fun a s' => Reads s s' (w a) ∧ (s'.errors = #[] → c a)

section Steps

variable {α : Type} {s : State} {Q : α → State → Prop}

theorem ends_current {f : Token → ParseM α} (h : Ends (f s.current) s Q) : Ends (current >>= f) s Q := h

theorem ends_at {want : Want} {f : Bool → ParseM α} (h : Ends (f (want.accepts s.current)) s Q) :
    Ends (at_ want >>= f) s Q := h

theorem ends_atEnd {f : Bool → ParseM α} (h : Ends (f s.tokens.isEmpty) s Q) : Ends (atEnd >>= f) s Q := h

theorem ends_atType {f : Bool → ParseM α} (h : Ends (f (typeSync.has s.current)) s Q) :
    Ends (atType >>= f) s Q := h

theorem ends_get {f : State → ParseM α} (h : Ends (f s) s Q) : Ends (get >>= f) s Q := h

theorem ends_advance {f : Unit → ParseM α} (h : Ends (f ()) s.advance Q) : Ends (advance >>= f) s Q := h

end Steps

theorem not_accepts_eof (want : Want) {t : Token} (eof : t.terminal = .eof) : want.accepts t = false := by
  cases want <;> simp [Want.accepts, eof]

theorem current_eof_of_nil {s : State} (h : s.tokens = []) : s.current.terminal = .eof := by
  simp [State.current, h, Token.endOfFile]

theorem tokens_ne_nil {s : State} (h : s.current.terminal ≠ .eof) : s.tokens ≠ [] :=
  fun nil => h (current_eof_of_nil nil)

theorem accepts_not_eof {want : Want} {t : Token} (h : want.accepts t = true) : t.terminal ≠ .eof := by
  intro eof
  rw [not_accepts_eof want eof] at h
  cases h

theorem has_not_eof {sync : Sync} {t : Token} (h : sync.has t = true) : t.terminal ≠ .eof := by
  obtain ⟨want, _, accepts⟩ := List.any_eq_true.mp h
  exact accepts_not_eof accepts

theorem advance_of_cons {s : State} {t : Token} {rest : List Token} (tokens : s.tokens = t :: rest) :
    s.advance = s.take t rest := by
  rw [State.advance, tokens]

theorem advance_tokens {s : State} {t : Token} {rest : List Token} (tokens : s.tokens = t :: rest) :
    s.advance.tokens = rest := by
  rw [advance_of_cons tokens, State.take]

theorem advance_of_nil {s : State} (tokens : s.tokens = []) : s.advance = s := by
  rw [State.advance, tokens]

theorem reads_take {s : State} (honest : s.Honest) {t : Token} {rest : List Token} (tokens : s.tokens = t :: rest) :
    Reads s (s.take t rest) 1 := by
  have size : s.size = rest.length + 1 := by rw [State.size, tokens, List.length_cons]
  refine ⟨honest, Nat.le_of_eq size.symm, ?_, List.prefix_rfl⟩
  show rest.length + (s.taken + 1) = s.size + s.taken
  omega

theorem reads_advance {s : State} (honest : s.Honest) (h : s.tokens ≠ []) : Reads s s.advance 1 := by
  cases tokens : s.tokens with
  | nil => exact absurd tokens h
  | cons t rest =>
    rw [advance_of_cons tokens]
    exact reads_take honest tokens

theorem reads_advance_any {s : State} (honest : s.Honest) : Reads s s.advance 0 := by
  by_cases tokens : s.tokens = []
  · rw [advance_of_nil tokens]
    exact .refl honest
  · exact (reads_advance honest tokens).mono (Nat.zero_le _)

theorem reads_dropUntil (stop : Token → Bool) {s : State} (honest : s.Honest) :
    Reads s (s.dropUntil stop) 0 := by
  fun_induction State.dropUntil stop s with
  | case1 s tokens => exact .refl honest
  | case2 s t rest tokens stops => exact .refl honest
  | case3 s t rest tokens goesOn ih =>
    have step := reads_take honest tokens
    exact (step.trans (ih step.honest)).mono (by omega)

def Continues {α : Type} (x : ParseM α) (s : State) : Prop :=
  Ends x s fun _ s' => Reads s s' 0

theorem Continues.bind {α β : Type} {x : ParseM α} {f : α → ParseM β} {s : State} (first : Continues x s)
    (second : ∀ a s', s'.Honest → Continues (f a) s') : Continues (x >>= f) s := by
  refine Ends.bind first ?_
  intro a s' reads
  exact (second a s' reads.honest).mono fun _ _ later => reads.trans later

def Reports {α : Type} (x : ParseM α) (s : State) : Prop :=
  Ends x s fun _ s' => Reads s s' 0 ∧ s'.errors ≠ #[]

theorem Reports.continues {α : Type} {x : ParseM α} {s : State} (h : Reports x s) : Continues x s :=
  h.1

theorem Reports.bind {α β : Type} {x : ParseM α} {f : α → ParseM β} {s : State} (first : Reports x s)
    (second : ∀ a s', s'.Honest → Continues (f a) s') : Reports (x >>= f) s := by
  refine Ends.bind first ?_
  intro a s' ⟨reads, reported⟩
  refine (second a s' reads.honest).mono ?_
  intro b s'' later
  exact ⟨reads.trans later, fun clean => reported (later.clean clean)⟩

theorem Reports.gives {α : Type} {x : ParseM α} {s : State} {c : α → Prop} (h : Reports x s) :
    Gives x s (fun _ => 0) c :=
  ⟨h.1, fun clean => absurd clean h.2⟩

theorem reports_report (line : Nat) (cause : SyntaxError) {s : State} (honest : s.Honest) :
    Reports (report line cause) s := by
  have run : (report line cause).run s = (⟨⟨line, cause⟩, s.current⟩,
      if s.ended then s else { s with errors := s.errors.push ⟨line, cause⟩ }) := by
    unfold report
    cases ended : s.ended <;> simp [ended] <;> rfl
  unfold Reports Ends
  rw [run]
  by_cases ended : s.ended = true
  · simp only [ended, if_true]
    exact ⟨.refl honest, honest ended⟩
  · simp only [ended]
    have filled : s.errors.push ⟨line, cause⟩ ≠ #[] := Array.push_ne_empty
    exact ⟨⟨fun _ => filled, Nat.le_refl _, rfl, by simp⟩, filled⟩

theorem report_tokens (line : Nat) (cause : SyntaxError) (s : State) :
    ((report line cause).run s).2.tokens = s.tokens := by
  unfold report
  cases ended : s.ended <;> simp [ended] <;> rfl

theorem reports_unexpectedEnd {s : State} (honest : s.Honest) : Reports unexpectedEnd s := by
  unfold unexpectedEnd
  refine ends_get (Ends.bind (reports_report s.endLine .unexpectedEnd honest) ?_)
  intro recovery s' ⟨reads, reported⟩
  exact ⟨⟨fun _ => reported, reads.size, reads.count, reads.errors⟩, reported⟩

section Continuing

variable {s : State} (honest : s.Honest)

include honest

theorem continues_pure {α : Type} (a : α) : Continues (pure a : ParseM α) s :=
  .refl honest

theorem continues_keep (recovery : Recovery) : Continues (keep recovery) s :=
  ⟨honest, Nat.le_refl _, rfl, List.prefix_rfl⟩

theorem continues_advance : Continues advance s :=
  reads_advance_any honest

theorem continues_dropUntil (stop : Token → Bool) : Continues (modify (State.dropUntil stop)) s :=
  reads_dropUntil stop honest

theorem continues_current : Continues current s :=
  .refl honest

theorem continues_atEnd : Continues atEnd s :=
  .refl honest

end Continuing

theorem tryExpect_of_accepts {want : Want} {s : State} (accepts : want.accepts s.current = true) (sync : Sync) :
    (tryExpect want sync).run s = ((some s.current, none), s.advance) := by
  have direct : Ends (tryExpect want sync) s fun r s' => r = (some s.current, none) ∧ s' = s.advance := by
    unfold tryExpect
    refine ends_current ?_
    rw [if_pos accepts]
    exact ⟨rfl, rfl⟩
  exact Prod.ext direct.1 direct.2

theorem reports_tryExpect {want : Want} {s : State} (honest : s.Honest) (other : want.accepts s.current = false)
    (sync : Sync) : Reports (tryExpect want sync) s := by
  unfold tryExpect
  refine ends_current ?_
  rw [if_neg (by simp [other])]
  refine ends_atEnd ?_
  split
  · exact (reports_unexpectedEnd honest).bind fun _ _ honest => continues_pure honest _
  · split
    · exact ends_get ((reports_report _ _ honest).bind fun _ _ honest => continues_pure honest _)
    · -- From here on the error has been reported, and tokens are only dropped.
      refine (reports_report _ _ honest).bind fun recovery _ honest =>
        (continues_advance honest).bind fun _ _ honest =>
        (continues_dropUntil honest _).bind fun _ _ honest =>
        (continues_current honest).bind fun resume s' honest => ?_
      by_cases accepts : want.accepts resume = true
      · rw [if_pos accepts]
        exact (continues_advance honest).bind fun _ _ honest => continues_pure honest _
      · rw [if_neg accepts]
        refine (continues_atEnd honest).bind fun end_ s'' honest => ?_
        split
        · exact (reports_unexpectedEnd honest).continues.bind fun _ _ honest => continues_pure honest _
        · exact continues_pure honest _

theorem gives_tryExpect (want : Want) (sync : Sync) {s : State} (honest : s.Honest) :
    Gives (tryExpect want sync) s (fun _ => 0) fun r => ∃ t, r.1 = some t ∧ want.accepts t = true := by
  cases accepts : want.accepts s.current with
  | true =>
    unfold Gives Ends
    rw [tryExpect_of_accepts accepts]
    exact ⟨reads_advance_any honest, fun _ => ⟨s.current, rfl, accepts⟩⟩
  | false => exact (reports_tryExpect honest accepts sync).gives

theorem gives_expect (want : Want) (sync : Sync) {s : State} (honest : s.Honest) :
    Gives (expect want sync) s (fun _ => 0) fun r => ∃ t, r = some t ∧ want.accepts t = true := by
  unfold expect
  refine Ends.bind (gives_tryExpect want sync honest) ?_
  rintro ⟨t, recovery⟩ s' ⟨reads, accepted⟩
  cases recovery with
  | none => exact ⟨reads, accepted⟩
  | some recovery =>
    refine Ends.bind (continues_keep reads.honest recovery) ?_
    intro _ s'' later
    exact ⟨reads.trans later, fun clean => accepted (later.clean clean)⟩

theorem continues_expect (want : Want) (sync : Sync) {s : State} (honest : s.Honest) :
    Continues (expect want sync) s :=
  (gives_expect want sync honest).1

theorem ends_expect_iff {want : Want} {sync : Sync} {s : State} {Q : Option Token → State → Prop}
    (accepts : want.accepts s.current = true) : Ends (expect want sync) s Q ↔ Q (some s.current) s.advance := by
  have run : (expect want sync).run s = (some s.current, s.advance) := by
    unfold expect
    rw [StateT.run_bind, tryExpect_of_accepts accepts]
    rfl
  unfold Ends
  rw [run]

theorem reads_expect (want : Want) (sync : Sync) {s : State} (honest : s.Honest)
    (accepts : want.accepts s.current = true) : Ends (expect want sync) s fun _ s' => Reads s s' 1 := by
  rw [ends_expect_iff accepts]
  exact reads_advance honest (tokens_ne_nil (accepts_not_eof accepts))

theorem ends_skip (sync : Sync) {s : State} (honest : s.Honest) (tokens : s.tokens ≠ []) :
    Ends (skip sync) s fun _ s' => Reads s s' 1 ∧ s'.errors ≠ #[] := by
  have notEnd : s.tokens.isEmpty = false := by simpa using tokens
  have same := report_tokens s.current.line (.illegal s.current.lexeme.text) s
  unfold skip
  refine ends_atEnd ?_
  rw [notEnd]
  refine ends_current ?_
  obtain ⟨reads, reported⟩ := reports_report s.current.line (.illegal s.current.lexeme.text) honest
  have advanced := reads_advance reads.honest (by rw [same]; exact tokens)
  have dropped := (advanced.trans (reads_dropUntil sync.has advanced.honest))
  have whole := reads.trans dropped
  exact ⟨⟨whole.honest, whole.size, whole.count, whole.errors⟩, fun clean => reported (dropped.clean clean)⟩

structure Rules.Serve (r : Rules) (n : Nat) : Prop where
  expression : ∀ {s : State}, s.Honest → s.size < n → Gives r.expression s Expr.weight Expr.Complete
  arguments : ∀ {s : State}, s.Honest → s.size < n →
    Gives r.arguments s (fun es => Expr.weights es - 1) Expr.AllComplete
  unary : ∀ {s : State}, s.Honest → s.size < n → Gives r.unary s Expr.weight Expr.Complete
  binary : ∀ {s : State} (least : Nat), s.Honest → s.size < n →
    Gives (r.binary least) s Expr.weight Expr.Complete
  chain : ∀ {s : State} (least : Nat) (left : Expr), s.Honest → s.size < n →
    Gives (r.chain least left) s (fun e => e.weight - left.weight) fun e => left.Complete → e.Complete
  statement : ∀ {s : State}, s.Honest → s.size < n → Gives r.statement s Stmt.weight Stmt.Complete
  statements : ∀ {s : State}, s.Honest → s.size < n → Gives r.statements s Stmt.weights Stmt.AllComplete
  localVars : ∀ {s : State}, s.Honest → s.size < n →
    Gives r.localVars s (fun _ => 0) fun vars => ∀ d ∈ vars, d.Complete
  moreParams : ∀ {s : State}, s.Honest → s.size < n →
    Gives r.moreParams s (fun _ => 0) fun params => ∀ p ∈ params, p.Complete
  decls : ∀ {s : State}, s.Honest → s.size < n →
    Gives r.decls s (fun ds => (ds.map Decl.weight).sum) fun ds => ∀ d ∈ ds, d.Complete

section Expressions

variable {inner : Rules} {n : Nat} {s : State} (serve : inner.Serve n) (honest : s.Honest)

include serve honest

theorem gives_afterName (id : Ident) (bound : s.size < n) :
    Gives (afterName inner id) s (fun e => e.weight - 1) Expr.Complete := by
  unfold afterName
  refine ends_at ?_
  split
  · rename_i bracket
    have reads := reads_advance honest (tokens_ne_nil (accepts_not_eof bracket))
    refine ends_advance (Ends.bind (serve.expression reads.honest (by have := reads.size; omega)) ?_)
    intro e s₁ ⟨reads₁, complete⟩
    refine Ends.bind (continues_expect _ _ reads₁.honest) ?_
    intro _ s₂ reads₂
    refine ⟨((reads.trans reads₁).trans reads₂).mono ?_, fun clean => complete (reads₂.clean clean)⟩
    change 1 + e.weight - 1 ≤ 1 + e.weight + 0
    omega
  · refine ends_at ?_
    split
    · rename_i paren
      have reads := reads_advance honest (tokens_ne_nil (accepts_not_eof paren))
      refine ends_advance (ends_at ?_)
      have finish : ∀ {s₁ : State} {args : List Expr}, Reads s.advance s₁ (Expr.weights args - 1) →
          (s₁.errors = #[] → Expr.AllComplete args) →
          Ends (do let _ ← expect (.punct .rparen) exprSync; return Expr.call id args) s₁ fun e s' =>
            Reads s s' (e.weight - 1) ∧ (s'.errors = #[] → e.Complete) := by
        intro s₁ args reads₁ complete
        refine Ends.bind (continues_expect _ _ reads₁.honest) ?_
        intro _ s₂ reads₂
        refine ⟨((reads.trans reads₁).trans reads₂).mono ?_, fun clean => complete (reads₂.clean clean)⟩
        change 1 + Expr.weights args - 1 ≤ 1 + (Expr.weights args - 1) + 0
        omega
      split
      · exact @finish _ [] (.refl reads.honest) fun _ => trivial
      · refine Ends.bind (serve.arguments reads.honest (by have := reads.size; omega)) ?_
        intro args s₁ ⟨reads₁, complete⟩
        exact finish reads₁ complete
    · exact ⟨.refl honest, fun _ => trivial⟩

theorem gives_factor (bound : s.size < n + 1) : Gives (factor inner) s Expr.weight Expr.Complete := by
  have advancing : s.current.terminal ≠ .eof → Reads s s.advance 1 := fun notEof =>
    reads_advance honest (tokens_ne_nil notEof)
  unfold factor
  refine ends_current ?_
  split
  · rename_i paren
    have reads := advancing (by rw [paren]; exact fun h => by cases h)
    refine ends_advance (Ends.bind (serve.expression reads.honest (by have := reads.size; omega)) ?_)
    intro e s₁ ⟨reads₁, complete⟩
    refine Ends.bind (continues_expect _ _ reads₁.honest) ?_
    intro _ s₂ reads₂
    refine ⟨((reads.trans reads₁).trans reads₂).mono ?_, fun clean => complete (reads₂.clean clean)⟩
    change e.weight ≤ 1 + e.weight + 0
    omega
  · rename_i numeral
    have reads := advancing (by rw [numeral]; exact fun h => by cases h)
    exact ⟨reads, fun _ => trivial⟩
  · rename_i name
    have reads := advancing (by rw [name]; exact fun h => by cases h)
    refine ends_advance (Ends.mono (gives_afterName serve reads.honest _ (by have := reads.size; omega)) ?_)
    intro e s₁ ⟨reads₁, complete⟩
    refine ⟨(reads.trans reads₁).mono ?_, complete⟩
    change e.weight ≤ 1 + (e.weight - 1)
    omega
  · exact (((reports_unexpectedEnd honest).bind fun recovery _ honest =>
      (continues_keep honest recovery).bind fun _ _ honest => continues_pure honest Expr.missing)).gives
  · split
    · exact ends_get ((reports_report _ _ honest).bind fun recovery _ honest =>
        (continues_keep honest recovery).bind fun _ _ honest => continues_pure honest Expr.missing).gives
    · exact ((reports_report _ _ honest).bind fun recovery _ honest =>
        (continues_keep honest recovery).bind fun _ _ honest =>
        (continues_advance honest).bind fun _ _ honest => continues_pure honest Expr.missing).gives

theorem gives_unary (bound : s.size < n + 1) : Gives (unary inner) s Expr.weight Expr.Complete := by
  unfold unary
  refine ends_current ?_
  split
  · rename_i op operator
    have notEof : s.current.terminal ≠ .eof := by
      intro eof
      simp [unaryOp?, eof] at operator
    have reads := reads_advance honest (tokens_ne_nil notEof)
    refine ends_advance (Ends.bind (serve.unary reads.honest (by have := reads.size; omega)) ?_)
    intro e s₁ ⟨reads₁, complete⟩
    exact ⟨reads.trans reads₁, complete⟩
  · exact gives_factor serve honest bound

theorem gives_chain (least : Nat) (left : Expr) (bound : s.size < n + 1) :
    Gives (chain inner least left) s (fun e => e.weight - left.weight) fun e => left.Complete → e.Complete := by
  have stop : Gives (return left) s (fun e => e.weight - left.weight) fun e => left.Complete → e.Complete :=
    ⟨(Reads.refl honest).mono (by change left.weight - left.weight ≤ 0; omega), fun _ => id⟩
  unfold chain
  refine ends_current ?_
  split
  · rename_i op operator
    split
    · have notEof : s.current.terminal ≠ .eof := by
        intro eof
        simp [binaryOp?, eof] at operator
      have reads := reads_advance honest (tokens_ne_nil notEof)
      refine ends_advance (Ends.bind (serve.binary _ reads.honest (by have := reads.size; omega)) ?_)
      intro right s₁ ⟨reads₁, complete₁⟩
      refine Ends.mono (serve.chain _ _ reads₁.honest (by have := reads.size; have := reads₁.size; omega)) ?_
      intro e s₂ ⟨reads₂, complete₂⟩
      refine ⟨((reads.trans reads₁).trans reads₂).mono ?_, fun clean leftComplete =>
        complete₂ clean ⟨leftComplete, complete₁ (reads₂.clean clean)⟩⟩
      change e.weight - left.weight ≤ 1 + right.weight + (e.weight - (1 + left.weight + right.weight))
      omega
    · exact stop
  · exact stop

theorem gives_binary (least : Nat) (bound : s.size < n + 1) :
    Gives (binary inner least) s Expr.weight Expr.Complete := by
  unfold binary
  refine Ends.bind (gives_unary serve honest bound) ?_
  intro left s₁ ⟨reads₁, complete₁⟩
  refine Ends.mono (gives_chain serve reads₁.honest least left (by have := reads₁.size; omega)) ?_
  intro e s₂ ⟨reads₂, complete₂⟩
  refine ⟨(reads₁.trans reads₂).mono ?_, fun clean => complete₂ clean (complete₁ (reads₂.clean clean))⟩
  change e.weight ≤ left.weight + (e.weight - left.weight)
  omega

theorem gives_expression (bound : s.size < n + 1) : Gives (expression inner) s Expr.weight Expr.Complete := by
  unfold expression
  refine Ends.bind (gives_binary serve honest 1 bound) ?_
  intro target s₁ ⟨reads₁, complete₁⟩
  refine ends_current (ends_at ?_)
  split
  · rename_i assign
    have reads := reads_advance reads₁.honest (tokens_ne_nil (accepts_not_eof assign))
    refine ends_advance (Ends.bind (serve.expression reads.honest
      (by have := reads.size; have := reads₁.size; omega)) ?_)
    intro value s₂ ⟨reads₂, complete₂⟩
    refine ⟨((reads₁.trans reads).trans reads₂).mono ?_, fun clean =>
      ⟨complete₁ (reads.clean (reads₂.clean clean)), complete₂ clean⟩⟩
    change 1 + target.weight + value.weight ≤ target.weight + 1 + value.weight
    omega
  · exact ⟨reads₁, complete₁⟩

theorem gives_arguments (bound : s.size < n + 1) :
    Gives (arguments inner) s (fun es => Expr.weights es - 1) Expr.AllComplete := by
  unfold arguments
  refine Ends.bind (gives_expression serve honest bound) ?_
  intro first s₁ ⟨reads₁, complete₁⟩
  refine ends_at ?_
  split
  · rename_i comma
    have reads := reads_advance reads₁.honest (tokens_ne_nil (accepts_not_eof comma))
    refine ends_advance (Ends.bind (serve.arguments reads.honest
      (by have := reads.size; have := reads₁.size; omega)) ?_)
    intro rest s₂ ⟨reads₂, complete₂⟩
    refine ⟨((reads₁.trans reads).trans reads₂).mono ?_, fun clean =>
      ⟨complete₁ (reads.clean (reads₂.clean clean)), complete₂ clean⟩⟩
    change 1 + first.weight + Expr.weights rest - 1 ≤ first.weight + 1 + (Expr.weights rest - 1)
    omega
  · refine ⟨reads₁.mono ?_, fun clean => ⟨complete₁ clean, trivial⟩⟩
    change 1 + first.weight + 0 - 1 ≤ first.weight
    omega

end Expressions

theorem gives_varDecl (type : TypeName) (id : Ident) (sync : Sync) {s : State} (honest : s.Honest) :
    Gives (varDecl type id sync) s (fun _ => 0) VarDecl.Complete := by
  have finish : ∀ {s₁ : State} {extent : Extent}, Reads s s₁ 0 → (s₁.errors = #[] → extent ≠ .array none) →
      Ends (do let _ ← expect (.punct .semicolon) sync; return VarDecl.mk type id extent) s₁ fun d s' =>
        Reads s s' 0 ∧ (s'.errors = #[] → d.Complete) := by
    intro s₁ extent reads₁ complete
    refine Ends.bind (continues_expect _ _ reads₁.honest) ?_
    intro _ s₂ reads₂
    exact ⟨reads₁.trans reads₂, fun clean => complete (reads₂.clean clean)⟩
  unfold varDecl
  refine ends_at ?_
  split
  · refine ends_advance (Ends.bind (gives_expect .number _ (reads_advance_any honest).honest) ?_)
    intro size s₁ ⟨reads₁, accepted⟩
    refine Ends.bind (continues_expect (.punct .rbracket) sync reads₁.honest) ?_
    intro _ s₂ reads₂
    refine finish (((reads_advance_any honest).trans reads₁).trans reads₂) ?_
    intro clean absent
    obtain ⟨t, found, isNumber⟩ := accepted (reads₂.clean clean)
    rw [found] at absent
    rcases t with ⟨terminal, line⟩
    cases terminal <;> simp [Want.accepts, numeral?] at isNumber absent
  · exact finish (.refl honest) fun _ h => by cases h

section Statements

variable {inner : Rules} {n : Nat} {s : State} (serve : inner.Serve n) (honest : s.Honest)

include serve honest

theorem gives_localVars (bound : s.size < n + 1) :
    Gives (localVars inner) s (fun _ => 0) fun vars => ∀ d ∈ vars, d.Complete := by
  unfold localVars
  refine ends_atType ?_
  split
  · rename_i type
    have reads := reads_advance honest (tokens_ne_nil (has_not_eof type))
    refine ends_current (ends_advance (Ends.bind (gives_tryExpect .ident stmtSync reads.honest) ?_))
    rintro ⟨name, recovery⟩ s₁ ⟨reads₁, accepted⟩
    have small : s₁.size < n := by
      have := reads.size
      have := reads₁.size
      omega
    cases name with
    | some name =>
      refine Ends.bind (gives_varDecl _ _ _ reads₁.honest) ?_
      intro d s₂ ⟨reads₂, complete₂⟩
      refine Ends.bind (serve.localVars reads₂.honest (by have := reads₂.size; omega)) ?_
      intro vars s₃ ⟨reads₃, complete₃⟩
      refine ⟨(((reads.trans reads₁).trans reads₂).trans reads₃).mono (Nat.zero_le _), ?_⟩
      intro clean d' member
      rcases List.mem_cons.mp member with rfl | member
      · exact complete₂ (reads₃.clean clean)
      · exact complete₃ clean d' member
    | none =>
      have reported : s₁.errors ≠ #[] := by
        intro clean
        obtain ⟨t, found, _⟩ := accepted clean
        cases found
      have rest : ∀ {s₂ : State}, Reads s₁ s₂ 0 →
          Ends (at_ (.punct .semicolon) >>= fun b => if b then advance >>= fun _ => inner.localVars
            else inner.localVars) s₂ fun vars s' => Reads s s' 0 ∧ (s'.errors = #[] → ∀ d ∈ vars, d.Complete) := by
        intro s₂ reads₂
        have before := (reads.trans reads₁).trans reads₂
        refine ends_at ?_
        split
        · have advanced := reads_advance_any reads₂.honest
          refine ends_advance (Ends.mono (serve.localVars advanced.honest
            (by have := reads₂.size; have := advanced.size; omega)) ?_)
          intro vars s₃ ⟨reads₃, _⟩
          exact ⟨((before.trans advanced).trans reads₃).mono (Nat.zero_le _), fun clean =>
            absurd (reads₂.clean (advanced.clean (reads₃.clean clean))) reported⟩
        · refine Ends.mono (serve.localVars reads₂.honest (by have := reads₂.size; omega)) ?_
          intro vars s₃ ⟨reads₃, _⟩
          exact ⟨(before.trans reads₃).mono (Nat.zero_le _), fun clean =>
            absurd (reads₂.clean (reads₃.clean clean)) reported⟩
      cases recovery with
      | none => exact rest (.refl reads₁.honest)
      | some recovery => exact Ends.bind (continues_keep reads₁.honest recovery) fun _ _ kept => rest kept
  · exact ⟨.refl honest, fun _ d member => by cases member⟩

theorem gives_compound (bound : s.size < n ∨ s.size < n + 1 ∧ (Want.punct .lbrace).accepts s.current) :
    Gives (compound inner) s (fun r => Stmt.weights r.2) fun r =>
      (∀ d ∈ r.1, d.Complete) ∧ Stmt.AllComplete r.2 := by
  have opened : Ends (expect (.punct .lbrace) stmtSync) s fun _ s' => Reads s s' 0 ∧ s'.size < n := by
    rcases bound with bound | ⟨bound, brace⟩
    · refine (continues_expect (.punct .lbrace) stmtSync honest).mono fun _ s' reads => ⟨reads, ?_⟩
      have := reads.size
      omega
    · refine (reads_expect (.punct .lbrace) stmtSync honest brace).mono fun _ s' reads => ⟨reads.mono (by omega), ?_⟩
      have := reads.size
      omega
  unfold compound
  refine Ends.bind opened ?_
  intro _ s₁ ⟨reads₁, small⟩
  refine Ends.bind (serve.localVars reads₁.honest small) ?_
  intro vars s₂ ⟨reads₂, complete₂⟩
  refine Ends.bind (serve.statements reads₂.honest (by have := reads₂.size; omega)) ?_
  intro body s₃ ⟨reads₃, complete₃⟩
  refine Ends.bind (continues_expect _ _ reads₃.honest) ?_
  intro _ s₄ reads₄
  refine ⟨(((reads₁.trans reads₂).trans reads₃).trans reads₄).mono ?_, fun clean => ?_⟩
  · change Stmt.weights body ≤ 0 + 0 + Stmt.weights body + 0
    omega
  · have clean₃ := reads₄.clean clean
    exact ⟨complete₂ (reads₃.clean clean₃), complete₃ clean₃⟩

theorem gives_condition (bound : s.size < n) : Gives (condition inner) s Expr.weight Expr.Complete := by
  unfold condition
  refine Ends.bind (continues_expect _ _ honest) ?_
  intro _ s₁ reads₁
  refine Ends.bind (serve.expression reads₁.honest (by have := reads₁.size; omega)) ?_
  intro e s₂ ⟨reads₂, complete₂⟩
  refine Ends.bind (continues_expect _ _ reads₂.honest) ?_
  intro _ s₃ reads₃
  refine ⟨((reads₁.trans reads₂).trans reads₃).mono ?_, fun clean => complete₂ (reads₃.clean clean)⟩
  change e.weight ≤ 0 + e.weight + 0
  omega

theorem gives_selection (bound : s.size < n + 1) (keyword : s.current.terminal = .keyword .if_) :
    Gives (selection inner) s Stmt.weight Stmt.Complete := by
  have reads := reads_advance honest (tokens_ne_nil (by rw [keyword]; exact fun h => by cases h))
  have small := reads.size
  unfold selection
  refine ends_current (ends_advance (Ends.bind (gives_condition serve reads.honest (by omega)) ?_))
  intro e s₁ ⟨reads₁, complete₁⟩
  have small₁ := reads₁.size
  refine Ends.bind (serve.statement reads₁.honest (by omega)) ?_
  intro body s₂ ⟨reads₂, complete₂⟩
  have small₂ := reads₂.size
  refine ends_at ?_
  split
  · rename_i orElse
    have reads₃ := reads_advance reads₂.honest (tokens_ne_nil (accepts_not_eof orElse))
    have small₃ := reads₃.size
    refine ends_advance (Ends.bind (serve.statement reads₃.honest (by omega)) ?_)
    intro other s₄ ⟨reads₄, complete₄⟩
    refine ⟨((((reads.trans reads₁).trans reads₂).trans reads₃).trans reads₄).mono ?_, fun clean => ?_⟩
    · change 2 + e.weight + body.weight + other.weight ≤ 1 + e.weight + body.weight + 1 + other.weight
      omega
    · have clean₂ := reads₃.clean (reads₄.clean clean)
      exact ⟨complete₁ (reads₂.clean clean₂), complete₂ clean₂, complete₄ clean⟩
  · exact ⟨(reads.trans reads₁).trans reads₂, fun clean => ⟨complete₁ (reads₂.clean clean), complete₂ clean⟩⟩

theorem gives_iteration (bound : s.size < n + 1) (keyword : s.current.terminal = .keyword .while_) :
    Gives (iteration inner) s Stmt.weight Stmt.Complete := by
  have reads := reads_advance honest (tokens_ne_nil (by rw [keyword]; exact fun h => by cases h))
  have small := reads.size
  unfold iteration
  refine ends_current (ends_advance (Ends.bind (gives_condition serve reads.honest (by omega)) ?_))
  intro e s₁ ⟨reads₁, complete₁⟩
  have small₁ := reads₁.size
  refine Ends.bind (serve.statement reads₁.honest (by omega)) ?_
  intro body s₂ ⟨reads₂, complete₂⟩
  exact ⟨(reads.trans reads₁).trans reads₂, fun clean => ⟨complete₁ (reads₂.clean clean), complete₂ clean⟩⟩

theorem gives_returning (bound : s.size < n + 1) (keyword : s.current.terminal = .keyword .return_) :
    Gives (returning inner) s Stmt.weight Stmt.Complete := by
  have reads := reads_advance honest (tokens_ne_nil (by rw [keyword]; exact fun h => by cases h))
  have small := reads.size
  unfold returning
  refine ends_current (ends_advance (ends_at ?_))
  split
  · exact ⟨(reads.trans (reads_advance_any reads.honest)), fun _ => trivial⟩
  · refine Ends.bind (serve.expression reads.honest (by omega)) ?_
    intro e s₁ ⟨reads₁, complete₁⟩
    refine Ends.bind (continues_expect _ _ reads₁.honest) ?_
    intro _ s₂ reads₂
    exact ⟨(reads.trans reads₁).trans reads₂, fun clean => complete₁ (reads₂.clean clean)⟩

omit serve in
theorem gives_jump {stmt : Nat → Stmt} (light : ∀ line, (stmt line).weight = 1) (complete : ∀ line, (stmt line).Complete)
    (token : s.current.terminal ≠ .eof) : Gives (jump stmt) s Stmt.weight Stmt.Complete := by
  have reads := reads_advance honest (tokens_ne_nil token)
  unfold jump
  refine ends_current (ends_advance (Ends.bind (continues_expect _ _ reads.honest) ?_))
  intro _ s₁ reads₁
  refine ⟨(reads.trans reads₁).mono ?_, fun _ => complete _⟩
  exact Nat.le_of_eq (light _)

theorem gives_expressionStmt (bound : s.size < n + 1) : Gives (expressionStmt inner) s Stmt.weight Stmt.Complete := by
  unfold expressionStmt
  refine Ends.bind (gives_expression serve honest bound) ?_
  intro e s₁ ⟨reads₁, complete₁⟩
  refine Ends.bind (continues_expect _ _ reads₁.honest) ?_
  intro _ s₂ reads₂
  exact ⟨reads₁.trans reads₂, fun clean => complete₁ (reads₂.clean clean)⟩

omit serve in
theorem reports_skip (sync : Sync) : Reports (skip sync) s := by
  by_cases tokens : s.tokens = []
  · unfold skip
    refine ends_atEnd ?_
    rw [tokens]
    exact (reports_unexpectedEnd honest).bind fun _ _ honest => continues_keep honest _
  · exact (ends_skip sync honest tokens).mono fun _ _ ⟨reads, reported⟩ => ⟨reads.mono (by omega), reported⟩

theorem gives_statement (bound : s.size < n + 1) : Gives (statement inner) s Stmt.weight Stmt.Complete := by
  unfold statement
  refine ends_current ?_
  split
  · rename_i brace
    refine Ends.bind (gives_compound serve honest (.inr ⟨bound, by simp [Want.accepts, brace]⟩)) ?_
    rintro ⟨vars, body⟩ s₁ ⟨reads₁, complete₁⟩
    exact ⟨reads₁, complete₁⟩
  · rename_i keyword
    exact gives_selection serve honest bound keyword
  · rename_i keyword
    exact gives_iteration serve honest bound keyword
  · rename_i keyword
    exact gives_returning serve honest bound keyword
  · rename_i keyword
    exact gives_jump honest (fun _ => rfl) (fun _ => trivial) (by rw [keyword]; exact fun h => by cases h)
  · rename_i keyword
    exact gives_jump honest (fun _ => rfl) (fun _ => trivial) (by rw [keyword]; exact fun h => by cases h)
  · exact ⟨reads_advance_any honest, fun _ => trivial⟩
  · split
    · exact gives_expressionStmt serve honest bound
    · exact ((reports_skip honest stmtSync).bind fun _ _ honest => continues_pure honest Stmt.skipped).gives

theorem gives_statements (bound : s.size < n + 1) : Gives (statements inner) s Stmt.weights Stmt.AllComplete := by
  unfold statements
  refine ends_at (ends_atEnd ?_)
  split
  · exact ⟨.refl honest, fun _ => trivial⟩
  · rename_i goesOn
    have tokens : s.tokens ≠ [] := by
      intro nil
      simp [nil] at goesOn
    refine ends_get (Ends.bind (gives_statement serve honest bound) ?_)
    intro first s₁ ⟨reads₁, complete₁⟩
    have small₁ := reads₁.size
    have count₁ := reads₁.count
    have rest : ∀ {s₂ : State}, Reads s₁ s₂ 0 → s₂.size < s.size →
        Ends (do let rest ← inner.statements; return first :: rest) s₂ fun body s' =>
          Reads s s' (Stmt.weights body) ∧ (s'.errors = #[] → Stmt.AllComplete body) := by
      intro s₂ reads₂ progress
      refine Ends.bind (serve.statements reads₂.honest (by omega)) ?_
      intro body s₃ ⟨reads₃, complete₃⟩
      refine ⟨((reads₁.trans reads₂).trans reads₃).mono ?_, fun clean =>
        ⟨complete₁ (reads₂.clean (reads₃.clean clean)), complete₃ clean⟩⟩
      change first.weight + Stmt.weights body ≤ first.weight + 0 + Stmt.weights body
      omega
    refine ends_get ?_
    split
    · rename_i stuck
      have left : s₁.tokens ≠ [] := by
        intro nil
        have none : s₁.size = 0 := by simp [State.size, nil]
        have some : s.size ≠ 0 := by simpa [State.size] using tokens
        omega
      refine Ends.bind (ends_skip stmtSync reads₁.honest left) ?_
      intro _ s₂ ⟨reads₂, _⟩
      have := reads₂.size
      exact rest (reads₂.mono (by omega)) (by omega)
    · exact rest (.refl reads₁.honest) (by omega)

end Statements

section Declarations

variable {inner : Rules} {n : Nat} {s : State} (serve : inner.Serve n) (honest : s.Honest)

include honest

theorem gives_paramOf (type : TypeName) : Gives (paramOf type) s (fun _ => 0) Param.Complete := by
  unfold paramOf
  refine Ends.bind (gives_expect _ _ honest) ?_
  intro name s₁ ⟨reads₁, accepted⟩
  cases name with
  | none =>
    refine ⟨reads₁, fun clean => ?_⟩
    obtain ⟨t, found, _⟩ := accepted clean
    cases found
  | some name =>
    refine ends_at ?_
    split
    · have advanced := reads_advance_any reads₁.honest
      refine ends_advance (Ends.bind (continues_expect _ _ advanced.honest) ?_)
      intro _ s₂ reads₂
      exact ⟨(reads₁.trans advanced).trans reads₂, fun _ => trivial⟩
    · exact ⟨reads₁, fun _ => trivial⟩

theorem gives_param : Gives param s (fun _ => 0) fun r => ∀ p ∈ r.toList, p.Complete := by
  unfold param
  refine ends_current ?_
  split
  · have advanced := reads_advance_any honest
    refine ends_advance (Ends.bind (gives_paramOf advanced.honest _) ?_)
    intro p s₁ ⟨reads₁, complete₁⟩
    refine ⟨advanced.trans reads₁, fun clean q member => ?_⟩
    rw [List.mem_singleton.mp member]
    exact complete₁ clean
  · refine ends_atEnd ?_
    split
    · exact ends_get ((reports_report _ _ honest).bind fun recovery _ honest =>
        (continues_keep honest recovery).bind fun _ _ honest => continues_pure honest none).gives
    · exact ((reports_skip honest paramSync).bind fun _ _ honest => continues_pure honest none).gives

include serve

theorem gives_moreParams (bound : s.size < n + 1) :
    Gives (moreParams inner) s (fun _ => 0) fun params => ∀ p ∈ params, p.Complete := by
  unfold moreParams
  refine ends_at ?_
  split
  · rename_i comma
    have reads := reads_advance honest (tokens_ne_nil (accepts_not_eof comma))
    have small := reads.size
    refine ends_advance (Ends.bind (gives_param reads.honest) ?_)
    intro first s₁ ⟨reads₁, complete₁⟩
    have small₁ := reads₁.size
    refine Ends.bind (serve.moreParams reads₁.honest (by omega)) ?_
    intro rest s₂ ⟨reads₂, complete₂⟩
    refine ⟨((reads.trans reads₁).trans reads₂).mono (Nat.zero_le _), fun clean p member => ?_⟩
    rcases List.mem_append.mp member with member | member
    · exact complete₁ (reads₂.clean clean) p member
    · exact complete₂ clean p member
  · exact ⟨.refl honest, fun _ p member => by cases member⟩

theorem gives_params (bound : s.size < n) :
    Gives (params inner) s (fun _ => 0) fun params => ∀ p ∈ params.toList, p.Complete := by
  unfold params
  refine ends_at ?_
  split
  · exact ends_current ((reports_report _ _ honest).bind fun recovery _ honest =>
      (continues_keep honest recovery).bind fun _ _ honest => continues_pure honest (Params.list [])).gives
  · refine ends_at ?_
    split
    · have advanced := reads_advance_any honest
      refine ends_advance (ends_at ?_)
      split
      · exact ⟨advanced, fun _ p member => by cases member⟩
      · refine Ends.bind (gives_paramOf advanced.honest .void) ?_
        intro first s₁ ⟨reads₁, complete₁⟩
        have := advanced.size
        have := reads₁.size
        refine Ends.bind (serve.moreParams reads₁.honest (by omega)) ?_
        intro rest s₂ ⟨reads₂, complete₂⟩
        refine ⟨(advanced.trans reads₁).trans reads₂, fun clean p member => ?_⟩
        rcases List.mem_cons.mp member with rfl | member
        · exact complete₁ (reads₂.clean clean)
        · exact complete₂ clean p member
    · refine Ends.bind (gives_param honest) ?_
      intro first s₁ ⟨reads₁, complete₁⟩
      have := reads₁.size
      refine Ends.bind (serve.moreParams reads₁.honest (by omega)) ?_
      intro rest s₂ ⟨reads₂, complete₂⟩
      refine ⟨reads₁.trans reads₂, fun clean p member => ?_⟩
      rcases List.mem_append.mp member with member | member
      · exact complete₁ (reads₂.clean clean) p member
      · exact complete₂ clean p member

theorem gives_function (type : TypeName) (id : Ident) (bound : s.size < n) :
    Gives (function inner type id) s (fun f => Stmt.weights f.body) FunDecl.Complete := by
  have advanced := reads_advance_any honest
  have := advanced.size
  unfold function
  refine ends_advance (Ends.bind (gives_params serve advanced.honest (by omega)) ?_)
  intro params s₁ ⟨reads₁, complete₁⟩
  have := reads₁.size
  refine Ends.bind (continues_expect _ _ reads₁.honest) ?_
  intro _ s₂ reads₂
  have := reads₂.size
  refine Ends.bind (gives_compound serve reads₂.honest (.inl (by omega))) ?_
  rintro ⟨vars, body⟩ s₃ ⟨reads₃, complete₃⟩
  refine ⟨(((advanced.trans reads₁).trans reads₂).trans reads₃).mono ?_, fun clean => ?_⟩
  · change Stmt.weights body ≤ 0 + 0 + 0 + Stmt.weights body
    omega
  · exact ⟨complete₁ (reads₂.clean (reads₃.clean clean)), (complete₃ clean).1, (complete₃ clean).2⟩

theorem gives_decl (bound : s.size < n + 1) (token : s.current.terminal ≠ .eof) :
    Gives (decl inner) s (fun r => max 1 (r.toList.map Decl.weight).sum) fun r => ∀ d ∈ r.toList, d.Complete := by
  have reads := reads_advance honest (tokens_ne_nil token)
  have := reads.size
  unfold decl
  refine ends_current (ends_advance (ends_current ?_))
  split
  · have advanced := reads_advance_any reads.honest
    have := advanced.size
    refine ends_advance (ends_at ?_)
    split
    · refine Ends.bind (gives_function serve advanced.honest _ _ (by omega)) ?_
      intro f s₁ ⟨reads₁, complete₁⟩
      refine ⟨((reads.trans advanced).trans reads₁).mono ?_, fun clean d member => ?_⟩
      · change max 1 (1 + Stmt.weights f.body + 0) ≤ 1 + 0 + Stmt.weights f.body
        omega
      · rw [List.mem_singleton.mp member]
        exact complete₁ clean
    · refine Ends.bind (gives_varDecl _ _ _ advanced.honest) ?_
      intro v s₁ ⟨reads₁, complete₁⟩
      refine ⟨(reads.trans advanced).trans reads₁, fun clean d member => ?_⟩
      rw [List.mem_singleton.mp member]
      exact complete₁ clean
  · rename_i notName
    refine Ends.bind (gives_expect _ _ reads.honest) ?_
    intro _ s₁ ⟨reads₁, _⟩
    refine ends_at ?_
    split
    · exact ⟨(reads.trans reads₁).trans (reads_advance_any reads₁.honest), fun _ d member => by cases member⟩
    · exact ⟨reads.trans reads₁, fun _ d member => by cases member⟩

theorem gives_decls (bound : s.size < n + 1) :
    Gives (decls inner) s (fun ds => (ds.map Decl.weight).sum) fun ds => ∀ d ∈ ds, d.Complete := by
  unfold decls
  refine ends_atEnd ?_
  split
  · exact ⟨.refl honest, fun _ d member => by cases member⟩
  · rename_i notEnd
    have tokens : s.tokens ≠ [] := by simpa using notEnd
    refine ends_atType ?_
    split
    · rename_i type
      refine Ends.bind (gives_decl serve honest bound (has_not_eof type)) ?_
      intro first s₁ ⟨reads₁, complete₁⟩
      have small : s₁.size + max 1 (first.toList.map Decl.weight).sum ≤ s.size := reads₁.size
      refine Ends.bind (serve.decls reads₁.honest (by omega)) ?_
      intro rest s₂ ⟨reads₂, complete₂⟩
      refine ⟨(reads₁.trans reads₂).mono ?_, fun clean d member => ?_⟩
      · change ((first.toList ++ rest).map Decl.weight).sum ≤
          max 1 (first.toList.map Decl.weight).sum + (rest.map Decl.weight).sum
        rw [List.map_append, List.sum_append]
        omega
      · rcases List.mem_append.mp member with member | member
        · exact complete₁ (reads₂.clean clean) d member
        · exact complete₂ clean d member
    · refine Ends.bind (ends_skip typeSync honest tokens) ?_
      intro _ s₁ ⟨reads₁, reported⟩
      have := reads₁.size
      refine Ends.mono (serve.decls reads₁.honest (by omega)) ?_
      intro rest s₂ ⟨reads₂, complete₂⟩
      exact ⟨(reads₁.trans reads₂).mono (by omega), complete₂⟩

end Declarations

theorem serve_next {inner : Rules} {n : Nat} (serve : inner.Serve n) : inner.next.Serve (n + 1) where
  expression honest bound := gives_expression serve honest bound
  arguments honest bound := gives_arguments serve honest bound
  unary honest bound := gives_unary serve honest bound
  binary least honest bound := gives_binary serve honest least bound
  chain least left honest bound := gives_chain serve honest least left bound
  statement honest bound := gives_statement serve honest bound
  statements honest bound := gives_statements serve honest bound
  localVars honest bound := gives_localVars serve honest bound
  moreParams honest bound := gives_moreParams serve honest bound
  decls honest bound := gives_decls serve honest bound

theorem serve_idle : Rules.idle.Serve 0 := by
  constructor <;> intros <;> omega

theorem serve_rules (n : Nat) : (rules n).Serve (n + 1) := by
  induction n with
  | zero => exact serve_next serve_idle
  | succ n ih => exact serve_next ih

theorem gives_source {s : State} (honest : s.Honest) : Gives source s Source.weight Source.Complete := by
  have rest : ∀ {s₁ : State}, Reads s s₁ 0 →
      Ends (do let s ← get; return Source.mk (← (rules s.size).decls) s.endLine) s₁ fun r s' =>
        Reads s s' r.weight ∧ (s'.errors = #[] → r.Complete) := by
    intro s₁ reads₁
    refine ends_get (Ends.bind ((serve_rules s₁.size).decls reads₁.honest (by omega)) ?_)
    intro ds s₂ ⟨reads₂, complete₂⟩
    refine ⟨(reads₁.trans reads₂).mono ?_, complete₂⟩
    change (ds.map Decl.weight).sum ≤ 0 + (ds.map Decl.weight).sum
    omega
  unfold source
  refine ends_atEnd ?_
  split
  · refine Ends.bind (reports_unexpectedEnd honest) ?_
    intro recovery s₁ ⟨reads₁, _⟩
    refine Ends.bind (continues_keep reads₁.honest recovery) ?_
    intro _ s₂ reads₂
    exact rest (reads₁.trans reads₂)
  · exact rest (.refl honest)

end MiniC.Parser

namespace MiniC

theorem Parsed.weight_le (stream : TokenStream) :
    (Parsed.ofTokens stream).source.weight ≤ stream.tokens.length := by
  have honest : (Parser.State.start stream).Honest := fun h => by cases h
  have reads := (Parser.gives_source honest).1.size
  change _ + (Parsed.ofTokens stream).source.weight ≤ stream.tokens.length at reads
  omega

theorem Parsed.complete {stream : TokenStream} (accepted : (Parsed.ofTokens stream).diagnostics = []) :
    (Parsed.ofTokens stream).source.Complete := by
  have honest : (Parser.State.start stream).Honest := fun h => by cases h
  refine (Parser.gives_source honest).2 ?_
  have clean : (Parsed.ofTokens stream).errors = [] := List.map_eq_nil_iff.mp accepted
  change (Parser.source.run (Parser.State.start stream)).2.errors.toList = [] at clean
  simpa using clean

theorem Segment.length_cut_le (t : Text) : (Segment.cut t).length ≤ t.length := by
  fun_induction Segment.cut t with
  | case1 => simp
  | case2 c rest segment ih =>
    have shorter : (rest.drop (segment.text.length - 1)).length ≤ rest.length := by simp
    simp only [List.length_cons]
    omega

theorem TokenStream.length_ofSegments_le (line : Nat) (segments : List Segment) :
    (TokenStream.ofSegments line segments).tokens.length ≤ segments.length := by
  induction segments generalizing line with
  | nil => simp [TokenStream.ofSegments]
  | cons s rest ih =>
    have later := ih (line + s.text.newlines)
    unfold TokenStream.ofSegments
    split <;> simp only [List.length_cons] <;> omega

theorem TokenStream.length_tokens_le (source : Text) :
    (TokenStream.ofSource source).tokens.length ≤ source.length :=
  Nat.le_trans (length_ofSegments_le 1 _) (Segment.length_cut_le source)

end MiniC
