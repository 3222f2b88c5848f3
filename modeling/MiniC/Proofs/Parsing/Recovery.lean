import MiniC.Proofs.Compilation
import MiniC.Proofs.Parsing.Grammar

namespace MiniC

def Want.isNeutral : Want → Bool
  | .punct .lbrace | .punct .rbrace | .keyword .int | .keyword .void => false
  | _ => true

namespace Parser

open Grammar (accepts_punct_iff accepts_keyword_iff accepts_number_iff accepts_ident_iff)

def isStray (t : Token) : Bool :=
  !(Want.ident.accepts t || stmtSync.has t)

def lapse? : List Token → Option (Located SyntaxError)
  | [] => none
  | t :: rest =>
    if isStray t = true ∧ (rest.dropWhile isStray).head?.any Want.ident.accepts = true then
      some ⟨t.line, .illegal t.lexeme.text⟩
    else none

def depth (d : Nat) (t : Token) : Nat :=
  match t.terminal with
  | .punct .lbrace => d + 1
  | .punct .rbrace => d - 1
  | _ => d

/-- The errors for stray tokens between a type and a name within braces, `d` of which are open. -/
def lapses (d : Nat) : List Token → List (Located SyntaxError)
  | [] => []
  | t :: rest =>
    (if 0 < d ∧ typeSync.has t = true then lapse? rest else none).toList ++ lapses (depth d t) rest

def isNeutral (t : Token) : Bool :=
  match t.terminal with
  | .punct .lbrace | .punct .rbrace | .keyword .int | .keyword .void => false
  | _ => true

theorem depth_of_neutral {t : Token} (neutral : isNeutral t = true) (d : Nat) : depth d t = d := by
  unfold isNeutral at neutral
  unfold depth
  split <;> simp_all

theorem not_type_of_neutral {t : Token} (neutral : isNeutral t = true) : typeSync.has t = false := by
  rcases t with ⟨terminal, line⟩
  cases terminal with
  | keyword k => cases k <;> simp_all [isNeutral, Sync.has, typeSync, Want.accepts]
  | _ => rfl

theorem depth_of_type {t : Token} (type : typeSync.has t = true) (d : Nat) : depth d t = d := by
  rcases t with ⟨terminal, line⟩
  cases terminal with
  | punct p => simp [Sync.has, typeSync, Want.accepts] at type
  | _ => rfl

theorem lapses_neutral {t : Token} (neutral : isNeutral t = true) (d : Nat) (rest : List Token) :
    lapses d (t :: rest) = lapses d rest := by
  rw [lapses, not_type_of_neutral neutral, depth_of_neutral neutral]
  simp

theorem neutral_of_stray {t : Token} (stray : isStray t = true) : isNeutral t = true := by
  rcases t with ⟨terminal, line⟩
  cases terminal with
  | keyword k => cases k <;> simp_all [isStray, Sync.has, stmtSync, Want.accepts]
  | punct p => cases p <;> simp_all [isStray, isNeutral, Sync.has, stmtSync, Want.accepts]
  | _ => rfl

/-- Stray tokens are no lapses of their own. -/
theorem lapses_dropWhile (d : Nat) (tokens : List Token) :
    lapses d (tokens.dropWhile isStray) = lapses d tokens := by
  induction tokens with
  | nil => rfl
  | cons t rest ih =>
    cases stray : isStray t with
    | true => rw [List.dropWhile_cons_of_pos stray, ih, lapses_neutral (neutral_of_stray stray)]
    | false => rw [List.dropWhile_cons_of_neg (by simp [stray])]

section Keeping

variable (unkept : List (Located SyntaxError))

/-- A recovery is kept, and before its error nothing but lapses has been reported. -/
def Kept (s : State) : Prop :=
  ∃ r before, s.recovery = some r ∧ before <+: unkept ∧ before ++ [r.error] <+: s.errors.toList

/-- The recovery from the error `e` may be kept: it has been reported after lapses only, unless
    another recovery is there. -/
def Due (e : Located SyntaxError) (s : State) : Prop :=
  Kept unkept s ∨ s.recovery = none ∧ ∃ before, before <+: unkept ∧ before ++ [e] <+: s.errors.toList

/-- Nothing but lapses has been reported, and those that are left come later. -/
structure Quiet (d : Nat) (s : State) : Prop where
  recovery : s.recovery = none
  running : s.ended = false
  errors : s.errors.toList ++ lapses d s.tokens = unkept

/-- What holds within `d` open braces on the way through the source. -/
def Told (d : Nat) (s : State) : Prop :=
  Kept unkept s ∨ Quiet unkept d s

end Keeping

variable {unkept : List (Located SyntaxError)} {d : Nat} {s s' : State} {e : Located SyntaxError}

theorem Kept.told (kept : Kept unkept s) : Told unkept d s :=
  .inl kept

theorem exists_tail (notEof : s.current.terminal ≠ .eof) : ∃ rest, s.tokens = s.current :: rest := by
  cases tokens : s.tokens with
  | nil => exact absurd (current_eof_of_nil tokens) notEof
  | cons t rest => exact ⟨rest, by simp [State.current, tokens]⟩

structure Silent (s s' : State) : Prop where
  recovery : s'.recovery = s.recovery
  errors : s.errors.toList <+: s'.errors.toList

theorem Silent.refl (s : State) : Silent s s :=
  ⟨rfl, List.prefix_rfl⟩

theorem Silent.trans {s'' : State} (first : Silent s s') (second : Silent s' s'') : Silent s s'' :=
  ⟨second.recovery.trans first.recovery, first.errors.trans second.errors⟩

theorem Kept.silent (kept : Kept unkept s) (silent : Silent s s') : Kept unkept s' := by
  obtain ⟨r, before, found, lapsed, reported⟩ := kept
  exact ⟨r, before, silent.recovery.trans found, lapsed, reported.trans silent.errors⟩

theorem Due.silent (due : Due unkept e s) (silent : Silent s s') : Due unkept e s' := by
  rcases due with kept | ⟨absent, before, lapsed, reported⟩
  · exact .inl (kept.silent silent)
  · exact .inr ⟨silent.recovery.trans absent, before, lapsed, reported.trans silent.errors⟩

structure Moved (s s' : State) : Prop where
  recovery : s'.recovery = s.recovery
  errors : s'.errors = s.errors
  ended : s'.ended = s.ended

theorem moved_advance (s : State) : Moved s s.advance := by
  unfold State.advance
  split <;> exact ⟨rfl, rfl, rfl⟩

theorem moved_dropUntil (stop : Token → Bool) (s : State) : Moved s (s.dropUntil stop) := by
  fun_induction State.dropUntil stop s with
  | case1 s tokens => exact ⟨rfl, rfl, rfl⟩
  | case2 s t rest tokens stops => exact ⟨rfl, rfl, rfl⟩
  | case3 s t rest tokens goesOn ih => exact ⟨ih.recovery, ih.errors, ih.ended⟩

theorem Moved.trans {s'' : State} (first : Moved s s') (second : Moved s' s'') : Moved s s'' :=
  ⟨second.recovery.trans first.recovery, second.errors.trans first.errors, second.ended.trans first.ended⟩

theorem Moved.silent (moved : Moved s s') : Silent s s' :=
  ⟨moved.recovery, moved.errors ▸ List.prefix_rfl⟩

theorem silent_advance (s : State) : Silent s s.advance :=
  (moved_advance s).silent

theorem silent_dropUntil (stop : Token → Bool) (s : State) : Silent s (s.dropUntil stop) :=
  (moved_dropUntil stop s).silent

theorem dropUntil_tokens (stop : Token → Bool) (s : State) :
    (s.dropUntil stop).tokens = s.tokens.dropWhile fun t => !stop t := by
  fun_induction State.dropUntil stop s with
  | case1 s tokens => rw [tokens]; rfl
  | case2 s t rest tokens stops => rw [tokens, List.dropWhile_cons_of_neg (by simp [stops])]
  | case3 s t rest tokens goesOn ih => rw [ih, tokens, List.dropWhile_cons_of_pos (by simp [goesOn]), State.take]

theorem run_report (line : Nat) (cause : SyntaxError) (s : State) :
    (report line cause).run s = (⟨⟨line, cause⟩, s.current⟩,
      if s.ended then s else { s with errors := s.errors.push ⟨line, cause⟩ }) := by
  unfold report
  cases ended : s.ended <;> simp [ended] <;> rfl

theorem silent_report (line : Nat) (cause : SyntaxError) (s : State) :
    Silent s ((report line cause).run s).2 := by
  rw [run_report]
  dsimp only
  split
  · exact ⟨rfl, List.prefix_rfl⟩
  · exact ⟨rfl, by simp⟩

theorem due_report (told : Told unkept d s) (line : Nat) (cause : SyntaxError) :
    Ends (report line cause) s fun r s' => Due unkept r.error s' := by
  rcases told with kept | quiet
  · exact .inl (kept.silent (silent_report line cause s))
  · unfold Ends
    rw [run_report, quiet.running]
    exact .inr ⟨quiet.recovery, s.errors.toList, ⟨_, quiet.errors⟩, by simp⟩

theorem silent_unexpectedEnd (s : State) : Silent s (unexpectedEnd.run s).2 :=
  have reported := silent_report s.endLine .unexpectedEnd s
  ⟨reported.recovery, reported.errors⟩

theorem due_unexpectedEnd (told : Told unkept d s) :
    Ends unexpectedEnd s fun r s' => Due unkept r.error s' := by
  unfold unexpectedEnd
  refine ends_get (Ends.bind (due_report told s.endLine .unexpectedEnd) ?_)
  intro r s₁ due
  exact due.silent ⟨rfl, List.prefix_rfl⟩

theorem kept_keep {r : Recovery} (due : Due unkept r.error s) : Ends (keep r) s fun _ s' => Kept unkept s' := by
  rcases due with ⟨r', before, found, lapsed, reported⟩ | ⟨absent, before, lapsed, reported⟩
  · refine ⟨r', before, ?_, lapsed, reported⟩
    change (s.recovery <|> some r) = some r'
    rw [found]
    rfl
  · refine ⟨r, before, ?_, lapsed, reported⟩
    change (s.recovery <|> some r) = some r
    rw [absent]
    rfl

/-- The state in which an illegal token has been reported and dropped, with those behind it up to
    one that is looked for or can follow. -/
def State.pastIllegal (want : Want) (sync : Sync) (s : State) : State :=
  ((report s.current.line (.illegal s.current.lexeme.text)).run s).2.advance.dropUntil fun t =>
    want.accepts t || sync.has t

def State.illegal (s : State) : Located SyntaxError :=
  ⟨s.current.line, .illegal s.current.lexeme.text⟩

theorem silent_pastIllegal (want : Want) (sync : Sync) (s : State) :
    Silent ((report s.current.line (.illegal s.current.lexeme.text)).run s).2 (s.pastIllegal want sync) :=
  (silent_advance _).trans (silent_dropUntil _ _)

theorem moved_pastIllegal (running : s.ended = false) (want : Want) (sync : Sync) :
    Moved { s with errors := s.errors.push s.illegal } (s.pastIllegal want sync) := by
  unfold State.pastIllegal
  rw [run_report, running]
  exact (moved_advance _).trans (moved_dropUntil _ _)

theorem ends_tryExpect_illegal {want : Want} {sync : Sync} {Q : Option Token × Option Recovery → State → Prop}
    (other : want.accepts s.current = false) (left : s.tokens ≠ []) (alien : sync.has s.current = false)
    (found : want.accepts (s.pastIllegal want sync).current = true → ∀ resume,
      Q (some (s.pastIllegal want sync).current, some ⟨s.illegal, resume⟩) (s.pastIllegal want sync).advance)
    (absent : want.accepts (s.pastIllegal want sync).current = false → ∀ resume s',
      Silent (s.pastIllegal want sync) s' → Q (none, some ⟨s.illegal, resume⟩) s') :
    Ends (tryExpect want sync) s Q := by
  have error : ((report s.current.line (.illegal s.current.lexeme.text)).run s).1.error = s.illegal := by
    rw [run_report]
    rfl
  unfold tryExpect
  refine ends_current ?_
  rw [if_neg (by simp [other])]
  refine ends_atEnd ?_
  rw [if_neg (by simpa using left), if_neg (by simp [alien])]
  refine Ends.bind (R := fun r s₁ => r.error = s.illegal ∧
    s₁ = ((report s.current.line (.illegal s.current.lexeme.text)).run s).2) ⟨error, rfl⟩ ?_
  rintro r _ ⟨error, rfl⟩
  refine ends_advance (Ends.bind (R := fun _ s₂ => s₂ = s.pastIllegal want sync) rfl ?_)
  rintro _ _ rfl
  refine ends_current ?_
  rw [error]
  split
  · rename_i accepts
    exact found accepts _
  · rename_i missing
    have missing : want.accepts (s.pastIllegal want sync).current = false := by simpa using missing
    refine ends_atEnd ?_
    split
    · exact absent missing _ _ (silent_unexpectedEnd _)
    · exact absent missing _ _ (.refl _)

theorem due_pastIllegal (told : Told unkept d s) (want : Want) (sync : Sync) :
    Due unkept s.illegal (s.pastIllegal want sync) := by
  have reported := due_report told s.current.line (.illegal s.current.lexeme.text)
  have dropped := silent_pastIllegal want sync s
  unfold Ends at reported
  rw [run_report] at reported dropped
  exact reported.silent dropped

/-- At the end, and before a token that can follow, none is taken. -/
theorem due_tryExpect_missing {want : Want} {sync : Sync} (told : Told unkept d s)
    (other : want.accepts s.current = false) (legal : ¬ (s.tokens ≠ [] ∧ sync.has s.current = false)) :
    Ends (tryExpect want sync) s fun result s' => ∃ r, result = (none, some r) ∧ Due unkept r.error s' := by
  unfold tryExpect
  refine ends_current ?_
  rw [if_neg (by simp [other])]
  refine ends_atEnd ?_
  split
  · exact Ends.bind (due_unexpectedEnd told) fun r _ due => ⟨r, rfl, due⟩
  · rw [if_pos (by simp_all)]
    exact ends_get (Ends.bind (due_report told _ _) fun r _ due => ⟨r, rfl, due⟩)

theorem due_tryExpect {want : Want} (told : Told unkept d s) (other : want.accepts s.current = false) (sync : Sync) :
    Ends (tryExpect want sync) s fun result s' => ∃ r, result.2 = some r ∧ Due unkept r.error s' := by
  by_cases illegal : s.tokens ≠ [] ∧ sync.has s.current = false
  · have due := due_pastIllegal told want sync
    exact ends_tryExpect_illegal other illegal.1 illegal.2 (fun _ _ => ⟨_, rfl, due.silent (silent_advance _)⟩)
      fun _ _ _ silent => ⟨_, rfl, due.silent silent⟩
  · refine (due_tryExpect_missing told other illegal).mono ?_
    rintro _ s₁ ⟨r, rfl, due⟩
    exact ⟨r, rfl, due⟩

theorem kept_expect {want : Want} (told : Told unkept d s) (other : want.accepts s.current = false) (sync : Sync) :
    Ends (expect want sync) s fun _ s' => Kept unkept s' := by
  unfold expect
  refine Ends.bind (due_tryExpect told other sync) ?_
  rintro ⟨t, recovery⟩ s₁ ⟨r, rfl, due⟩
  exact Ends.bind (kept_keep due) fun _ _ kept => kept

theorem kept_skip (told : Told unkept d s) (sync : Sync) : Ends (skip sync) s fun _ s' => Kept unkept s' := by
  unfold skip
  refine ends_atEnd ?_
  split
  · exact Ends.bind (due_unexpectedEnd told) fun _ _ due => kept_keep due
  · refine ends_current (Ends.bind (due_report told _ _) fun r s₁ due => ?_)
    have dropped := (due.silent (silent_advance s₁)).silent (silent_dropUntil sync.has _)
    exact ends_advance (Ends.bind (R := fun _ s₂ => Due unkept r.error s₂) dropped fun _ _ due =>
      ends_current (kept_keep due))

theorem Told.advance (told : Told unkept d s) (free : 0 < d → typeSync.has s.current = false) :
    Told unkept (depth d s.current) s.advance := by
  rcases told with kept | quiet
  · exact .inl (kept.silent (silent_advance s))
  · cases tokens : s.tokens with
    | nil =>
      have eof := current_eof_of_nil tokens
      rw [advance_of_nil tokens, depth, eof]
      exact .inr quiet
    | cons t rest =>
      have current : s.current = t := by simp [State.current, tokens]
      have errors := quiet.errors
      rw [current] at free
      have closed : ¬ (0 < d ∧ typeSync.has t = true) := by
        rintro ⟨inside, type⟩
        rw [free inside] at type
        cases type
      rw [tokens, lapses, if_neg closed] at errors
      rw [advance_of_cons tokens, current]
      exact .inr ⟨quiet.recovery, quiet.running, errors⟩

theorem Told.take (told : Told unkept d s) (neutral : isNeutral s.current = true) : Told unkept d s.advance := by
  have advanced := told.advance fun _ => not_type_of_neutral neutral
  rwa [depth_of_neutral neutral] at advanced

theorem neutral_of_accepts {want : Want} {t : Token} (accepts : want.accepts t = true)
    (neutral : want.isNeutral = true) : isNeutral t = true := by
  cases want with
  | ident =>
    obtain ⟨name, same⟩ := accepts_ident_iff.mp accepts
    rw [isNeutral, same]
  | number =>
    obtain ⟨n, same⟩ := accepts_number_iff.mp accepts
    rw [isNeutral, same]
  | keyword k =>
    rw [isNeutral, accepts_keyword_iff.mp accepts]
    cases k <;> first | rfl | cases neutral
  | punct p =>
    rw [isNeutral, accepts_punct_iff.mp accepts]
    cases p <;> first | rfl | cases neutral

theorem neutral_of_unaryOp {t : Token} {op : UnaryOp} (operator : unaryOp? t = some op) : isNeutral t = true := by
  rcases t with ⟨terminal, line⟩
  cases terminal with
  | punct p => cases p <;> first | rfl | cases operator
  | _ => cases operator

theorem neutral_of_binaryOp {t : Token} {op : BinaryOp} (operator : binaryOp? t = some op) : isNeutral t = true := by
  rcases t with ⟨terminal, line⟩
  cases terminal with
  | punct p => cases p <;> first | rfl | cases operator
  | _ => cases operator

abbrev Stays {α : Type} (unkept : List (Located SyntaxError)) (d : Nat) (x : ParseM α) (s : State) : Prop :=
  Ends x s fun _ s' => Told unkept d s'

theorem stays_pure {α : Type} (told : Told unkept d s) (a : α) : Stays unkept d (pure a) s :=
  told

theorem stays_expect {want : Want} (told : Told unkept d s) (neutral : want.isNeutral = true) (sync : Sync) :
    Stays unkept d (expect want sync) s := by
  cases accepts : want.accepts s.current with
  | true => exact (ends_expect_iff accepts).mpr (told.take (neutral_of_accepts accepts neutral))
  | false => exact (kept_expect told accepts sync).mono fun _ _ kept => kept.told

theorem ends_expect_brace {p : Punct} (d' : Nat) (told : Told unkept d s)
    (shift : ∀ t : Token, t.terminal = .punct p → depth d t = d') (sync : Sync) :
    Ends (expect (.punct p) sync) s fun _ s' => Told unkept d' s' := by
  cases accepts : (Want.punct p).accepts s.current with
  | true =>
    have same : s.current.terminal = .punct p := accepts_punct_iff.mp accepts
    have free : typeSync.has s.current = false := by simp [Sync.has, typeSync, Want.accepts, same]
    rw [ends_expect_iff accepts, ← shift s.current same]
    exact told.advance fun _ => free
  | false => exact (kept_expect told accepts sync).mono fun _ _ kept => kept.told

/-- What the rules leave behind. Statements stand within braces, declarations outside. -/
structure Rules.Tell (unkept : List (Located SyntaxError)) (r : Rules) : Prop where
  expression : ∀ {d : Nat} {s : State}, Told unkept d s → Stays unkept d r.expression s
  arguments : ∀ {d : Nat} {s : State}, Told unkept d s → Stays unkept d r.arguments s
  unary : ∀ {d : Nat} {s : State}, Told unkept d s → Stays unkept d r.unary s
  binary : ∀ {d : Nat} {s : State} (least : Nat), Told unkept d s → Stays unkept d (r.binary least) s
  chain : ∀ {d : Nat} {s : State} (least : Nat) (left : Expr), Told unkept d s → Stays unkept d (r.chain least left) s
  statement : ∀ {d : Nat} {s : State}, Told unkept (d + 1) s → Stays unkept (d + 1) r.statement s
  statements : ∀ {d : Nat} {s : State}, Told unkept (d + 1) s → Stays unkept (d + 1) r.statements s
  localVars : ∀ {d : Nat} {s : State}, Told unkept (d + 1) s → Stays unkept (d + 1) r.localVars s
  moreParams : ∀ {s : State}, Told unkept 0 s → Stays unkept 0 r.moreParams s
  decls : ∀ {s : State}, Told unkept 0 s → Stays unkept 0 r.decls s

section Expressions

variable {inner : Rules} (tell : inner.Tell unkept) (told : Told unkept d s)

include tell told

theorem stays_afterName (id : Ident) : Stays unkept d (afterName inner id) s := by
  unfold afterName
  refine ends_at ?_
  split
  · rename_i bracket
    refine ends_advance (Ends.bind (tell.expression (told.take (neutral_of_accepts bracket rfl))) fun _ _ told => ?_)
    exact Ends.bind (stays_expect told rfl exprSync) fun _ _ told => told
  · refine ends_at ?_
    split
    · rename_i paren
      have told := told.take (neutral_of_accepts paren rfl)
      refine ends_advance (ends_at ?_)
      split
      · exact Ends.bind (stays_pure told []) fun _ _ told => Ends.bind (stays_expect told rfl exprSync) fun _ _ told => told
      · refine Ends.bind (tell.arguments told) fun _ _ told => ?_
        exact Ends.bind (stays_expect told rfl exprSync) fun _ _ told => told
    · exact told

theorem stays_factor : Stays unkept d (factor inner) s := by
  unfold factor
  refine ends_current ?_
  split
  · rename_i paren
    refine ends_advance (Ends.bind (tell.expression (told.take (by simp [isNeutral, paren]))) fun _ _ told => ?_)
    exact Ends.bind (stays_expect told rfl exprSync) fun _ _ told => told
  · rename_i numeral
    exact ends_advance (told.take (by simp [isNeutral, numeral]))
  · rename_i name
    exact ends_advance (stays_afterName tell (told.take (by simp [isNeutral, name])) _)
  · exact Ends.bind (due_unexpectedEnd told) fun _ _ due => Ends.bind (kept_keep due) fun _ _ kept => kept.told
  · split
    · exact ends_get (Ends.bind (due_report told _ _) fun _ _ due =>
        Ends.bind (kept_keep due) fun _ _ kept => kept.told)
    · exact Ends.bind (due_report told _ _) fun _ _ due => Ends.bind (kept_keep due) fun _ s₁ kept =>
        ends_advance (kept.silent (silent_advance s₁)).told

theorem stays_unary : Stays unkept d (unary inner) s := by
  unfold unary
  refine ends_current ?_
  split
  · rename_i op operator
    exact ends_advance (Ends.bind (tell.unary (told.take (neutral_of_unaryOp operator))) fun _ _ told => told)
  · exact stays_factor tell told

theorem stays_chain (least : Nat) (left : Expr) : Stays unkept d (chain inner least left) s := by
  unfold chain
  refine ends_current ?_
  split
  · rename_i op operator
    split
    · exact ends_advance (Ends.bind (tell.binary _ (told.take (neutral_of_binaryOp operator))) fun _ _ told =>
        tell.chain _ _ told)
    · exact told
  · exact told

theorem stays_binary (least : Nat) : Stays unkept d (binary inner least) s :=
  Ends.bind (stays_unary tell told) fun left _ told => stays_chain tell told least left

theorem stays_expression : Stays unkept d (expression inner) s := by
  unfold expression
  refine Ends.bind (stays_binary tell told 1) fun _ _ told => ends_current (ends_at ?_)
  split
  · rename_i assign
    exact ends_advance (Ends.bind (tell.expression (told.take (neutral_of_accepts assign rfl))) fun _ _ told => told)
  · exact told

theorem stays_arguments : Stays unkept d (arguments inner) s := by
  unfold arguments
  refine Ends.bind (stays_expression tell told) fun _ _ told => ends_at ?_
  split
  · rename_i comma
    exact ends_advance (Ends.bind (tell.arguments (told.take (neutral_of_accepts comma rfl))) fun _ _ told => told)
  · exact told

end Expressions

theorem stays_varDecl (told : Told unkept d s) (type : TypeName) (id : Ident) (sync : Sync) :
    Stays unkept d (varDecl type id sync) s := by
  unfold varDecl
  refine ends_at ?_
  split
  · rename_i bracket
    refine ends_advance (Ends.bind (stays_expect (told.take (neutral_of_accepts bracket rfl)) rfl _) fun _ _ told => ?_)
    refine Ends.bind (stays_expect told rfl sync) fun _ _ told => Ends.bind (stays_pure told _) fun _ _ told => ?_
    exact Ends.bind (stays_expect told rfl sync) fun _ _ told => told
  · refine Ends.bind (stays_pure told _) fun _ _ told => ?_
    exact Ends.bind (stays_expect told rfl sync) fun _ _ told => told

/-- What holds behind the type of a local variable, where stray tokens may come first. -/
def Named (unkept : List (Located SyntaxError)) (d : Nat) (s : State) : Prop :=
  Kept unkept s ∨
    s.recovery = none ∧ s.ended = false ∧ s.errors.toList ++ (lapse? s.tokens).toList ++ lapses d s.tokens = unkept

theorem Told.named (told : Told unkept (d + 1) s) (type : typeSync.has s.current = true) :
    Named unkept (d + 1) s.advance := by
  rcases told with kept | quiet
  · exact .inl (kept.silent (silent_advance s))
  · obtain ⟨rest, tokens⟩ := exists_tail (has_not_eof type)
    have errors := quiet.errors
    rw [tokens, lapses, if_pos ⟨Nat.succ_pos d, type⟩, depth_of_type type, ← List.append_assoc] at errors
    rw [advance_of_cons tokens]
    exact .inr ⟨quiet.recovery, quiet.running, errors⟩

theorem Named.told (named : Named unkept d s) (none : lapse? s.tokens = none) : Told unkept d s := by
  rcases named with kept | ⟨recovery, running, errors⟩
  · exact .inl kept
  · rw [none] at errors
    exact .inr ⟨recovery, running, by simpa using errors⟩

theorem accepts_current (want : Want) (s : State) : want.accepts s.current = s.tokens.head?.any want.accepts := by
  cases tokens : s.tokens with
  | nil => exact not_accepts_eof want (current_eof_of_nil tokens)
  | cons t rest => simp [State.current, tokens]

theorem pastIllegal_tokens {t : Token} {rest : List Token} (tokens : s.tokens = t :: rest) :
    (s.pastIllegal .ident stmtSync).tokens = rest.dropWhile isStray := by
  have same := report_tokens s.current.line (.illegal s.current.lexeme.text) s
  rw [State.pastIllegal, dropUntil_tokens, advance_of_cons (same.trans tokens)]
  rfl

theorem lapse?_eq (s : State) :
    lapse? s.tokens =
      if isStray s.current = true ∧ s.tokens ≠ [] ∧
        Want.ident.accepts (s.pastIllegal .ident stmtSync).current = true then some s.illegal else none := by
  cases tokens : s.tokens with
  | nil => simp [lapse?]
  | cons t rest =>
    have current : s.current = t := by simp [State.current, tokens]
    rw [lapse?, accepts_current, pastIllegal_tokens tokens, State.illegal, current]
    simp

theorem Named.found (named : Named unkept d s) (lapsed : lapse? s.tokens = some s.illegal)
    (accepts : Want.ident.accepts (s.pastIllegal .ident stmtSync).current = true) :
    Told unkept d (s.pastIllegal .ident stmtSync).advance := by
  refine Told.take ?_ (neutral_of_accepts accepts rfl)
  rcases named with kept | ⟨recovery, running, errors⟩
  · exact .inl (kept.silent ((silent_report _ _ s).trans (silent_pastIllegal _ _ s)))
  · cases tokens : s.tokens with
    | nil => rw [tokens] at lapsed; cases lapsed
    | cons t rest =>
      have stray : isStray t = true := by
        rw [tokens, lapse?] at lapsed
        split at lapsed
        · rename_i found
          exact found.1
        · cases lapsed
      have moved := moved_pastIllegal running .ident stmtSync
      refine .inr ⟨moved.recovery.trans recovery, moved.ended.trans running, ?_⟩
      rw [lapsed, tokens, lapses_neutral (neutral_of_stray stray)] at errors
      rw [pastIllegal_tokens tokens, lapses_dropWhile, moved.errors]
      simpa using errors

theorem name_cases (named : Named unkept d s) :
    Ends (tryExpect .ident stmtSync) s fun result s' =>
      result.1.isSome = true ∧ Told unkept d s' ∨ ∃ r, result = (none, some r) ∧ Due unkept r.error s' := by
  cases accepts : Want.ident.accepts s.current with
  | true =>
    have told := named.told (by rw [lapse?_eq, if_neg (by simp [isStray, accepts])])
    unfold Ends
    rw [tryExpect_of_accepts accepts]
    exact .inl ⟨rfl, told.take (neutral_of_accepts accepts rfl)⟩
  | false =>
    by_cases illegal : s.tokens ≠ [] ∧ stmtSync.has s.current = false
    · have stray : isStray s.current = true := by simp [isStray, accepts, illegal.2]
      refine ends_tryExpect_illegal accepts illegal.1 illegal.2 (fun found _ => ?_) fun absent _ s₁ silent => ?_
      · exact .inl ⟨rfl, named.found (by rw [lapse?_eq, if_pos ⟨stray, illegal.1, found⟩]) found⟩
      · have told := named.told (by rw [lapse?_eq, if_neg (by simp [absent])])
        exact .inr ⟨_, rfl, (due_pastIllegal told _ _).silent silent⟩
    · have told := named.told (by
        rw [lapse?_eq, if_neg]
        rintro ⟨stray, left, _⟩
        exact illegal ⟨left, by simpa [isStray, accepts] using stray⟩)
      exact (due_tryExpect_missing told accepts illegal).mono fun _ _ due => .inr due

section Statements

variable {inner : Rules} (tell : inner.Tell unkept)

include tell

theorem stays_localVars (told : Told unkept (d + 1) s) : Stays unkept (d + 1) (localVars inner) s := by
  unfold localVars
  refine ends_atType ?_
  split
  · rename_i type
    refine ends_current (ends_advance (Ends.bind (name_cases (told.named type)) ?_))
    rintro ⟨name, recovery⟩ s₁ (⟨found, told⟩ | ⟨r, same, due⟩)
    · obtain ⟨name, rfl⟩ := Option.isSome_iff_exists.mp found
      refine Ends.bind (stays_varDecl told _ _ _) fun _ _ told => ?_
      exact Ends.bind (tell.localVars told) fun _ _ told => told
    · cases same
      refine Ends.bind (kept_keep due) fun _ s₂ kept => ends_at ?_
      split
      · exact ends_advance (tell.localVars (kept.silent (silent_advance s₂)).told)
      · exact tell.localVars kept.told
  · exact told

theorem stays_compound (told : Told unkept d s) : Stays unkept d (compound inner) s := by
  refine Ends.bind (ends_expect_brace (d + 1) told (fun _ same => by simp [depth, same]) _) fun _ _ told => ?_
  refine Ends.bind (tell.localVars told) fun _ _ told => Ends.bind (tell.statements told) fun _ _ told => ?_
  exact Ends.bind (ends_expect_brace d told (fun _ same => by simp [depth, same]) _) fun _ _ told => told

theorem stays_condition (told : Told unkept d s) : Stays unkept d (condition inner) s := by
  refine Ends.bind (stays_expect told rfl _) fun _ _ told => ?_
  refine Ends.bind (tell.expression told) fun _ _ told => ?_
  exact Ends.bind (stays_expect told rfl _) fun _ _ told => told

theorem stays_selection (told : Told unkept (d + 1) s) (keyword : s.current.terminal = .keyword .if_) :
    Stays unkept (d + 1) (selection inner) s := by
  have told := told.take (by simp [isNeutral, keyword])
  unfold selection
  refine ends_current (ends_advance (Ends.bind (stays_condition tell told) fun _ _ told => ?_))
  refine Ends.bind (tell.statement told) fun _ _ told => ends_at ?_
  split
  · rename_i orElse
    exact ends_advance (Ends.bind (tell.statement (told.take (neutral_of_accepts orElse rfl))) fun _ _ told => told)
  · exact told

theorem stays_iteration (told : Told unkept (d + 1) s) (keyword : s.current.terminal = .keyword .while_) :
    Stays unkept (d + 1) (iteration inner) s := by
  have told := told.take (by simp [isNeutral, keyword])
  unfold iteration
  refine ends_current (ends_advance (Ends.bind (stays_condition tell told) fun _ _ told => ?_))
  exact Ends.bind (tell.statement told) fun _ _ told => told

theorem stays_returning (told : Told unkept d s) (keyword : s.current.terminal = .keyword .return_) :
    Stays unkept d (returning inner) s := by
  have told := told.take (by simp [isNeutral, keyword])
  unfold returning
  refine ends_current (ends_advance (ends_at ?_))
  split
  · rename_i semicolon
    exact ends_advance (told.take (neutral_of_accepts semicolon rfl))
  · refine Ends.bind (tell.expression told) fun _ _ told => ?_
    exact Ends.bind (stays_expect told rfl _) fun _ _ told => told

omit tell in
theorem stays_jump (told : Told unkept d s) (neutral : isNeutral s.current = true) (stmt : Nat → Stmt) :
    Stays unkept d (jump stmt) s :=
  ends_current (ends_advance (Ends.bind (stays_expect (told.take neutral) rfl _) fun _ _ told => told))

theorem stays_statement (told : Told unkept (d + 1) s) : Stays unkept (d + 1) (statement inner) s := by
  unfold statement
  refine ends_current ?_
  split
  · exact Ends.bind (stays_compound tell told) fun _ _ told => told
  · rename_i keyword
    exact stays_selection tell told keyword
  · rename_i keyword
    exact stays_iteration tell told keyword
  · rename_i keyword
    exact stays_returning tell told keyword
  · rename_i keyword
    exact stays_jump told (by simp [isNeutral, keyword]) _
  · rename_i keyword
    exact stays_jump told (by simp [isNeutral, keyword]) _
  · rename_i semicolon
    exact ends_advance (told.take (by simp [isNeutral, semicolon]))
  · split
    · refine Ends.bind (stays_expression tell told) fun _ _ told => ?_
      exact Ends.bind (stays_expect told rfl _) fun _ _ told => told
    · exact Ends.bind (kept_skip told _) fun _ _ kept => kept.told

theorem stays_statements (told : Told unkept (d + 1) s) : Stays unkept (d + 1) (statements inner) s := by
  unfold statements
  refine ends_at (ends_atEnd ?_)
  split
  · exact told
  · refine ends_get (Ends.bind (stays_statement tell told) fun _ _ told => ends_get ?_)
    split
    · refine Ends.bind (kept_skip told _) fun _ _ kept => ?_
      exact Ends.bind (tell.statements kept.told) fun _ _ told => told
    · exact Ends.bind (tell.statements told) fun _ _ told => told

end Statements

section Declarations

theorem stays_paramOf (told : Told unkept d s) (type : TypeName) : Stays unkept d (paramOf type) s := by
  unfold paramOf
  refine Ends.bind (stays_expect told rfl _) fun name _ told => ?_
  cases name with
  | none => exact told
  | some name =>
    refine ends_at ?_
    split
    · rename_i bracket
      refine ends_advance (Ends.bind (stays_expect (told.take (neutral_of_accepts bracket rfl)) rfl _) fun _ _ told => ?_)
      exact told
    · exact told

theorem Told.takeType (told : Told unkept 0 s) (type : typeSync.has s.current = true) : Told unkept 0 s.advance := by
  have advanced := told.advance fun inside => absurd inside (Nat.lt_irrefl 0)
  rwa [depth_of_type type] at advanced

theorem stays_param (told : Told unkept 0 s) : Stays unkept 0 param s := by
  unfold param
  refine ends_current ?_
  split
  · rename_i type
    exact ends_advance (Ends.bind (stays_paramOf (told.takeType type) _) fun _ _ told => told)
  · refine ends_atEnd ?_
    split
    · exact ends_get (Ends.bind (due_report told _ _) fun _ _ due =>
        Ends.bind (kept_keep due) fun _ _ kept => kept.told)
    · exact Ends.bind (kept_skip told _) fun _ _ kept => kept.told

variable {inner : Rules} (tell : inner.Tell unkept) (told : Told unkept 0 s)

include tell told

theorem stays_moreParams : Stays unkept 0 (moreParams inner) s := by
  unfold moreParams
  refine ends_at ?_
  split
  · rename_i comma
    refine ends_advance (Ends.bind (stays_param (told.take (neutral_of_accepts comma rfl))) fun _ _ told => ?_)
    exact Ends.bind (tell.moreParams told) fun _ _ told => told
  · exact told

theorem stays_params : Stays unkept 0 (params inner) s := by
  unfold params
  refine ends_at ?_
  split
  · exact ends_current (Ends.bind (due_report told _ _) fun _ _ due =>
      Ends.bind (kept_keep due) fun _ _ kept => kept.told)
  · refine ends_at ?_
    split
    · rename_i void
      have told := told.takeType (by simp [Sync.has, typeSync, void])
      refine ends_advance (ends_at ?_)
      split
      · exact told
      · refine Ends.bind (stays_paramOf told _) fun _ _ told => ?_
        exact Ends.bind (tell.moreParams told) fun _ _ told => told
    · refine Ends.bind (stays_param told) fun _ _ told => ?_
      exact Ends.bind (tell.moreParams told) fun _ _ told => told

theorem stays_function (type : TypeName) (id : Ident) (paren : (Want.punct .lparen).accepts s.current = true) :
    Stays unkept 0 (function inner type id) s := by
  unfold function
  refine ends_advance (Ends.bind (stays_params tell (told.take (neutral_of_accepts paren rfl))) fun _ _ told => ?_)
  refine Ends.bind (stays_expect told rfl _) fun _ _ told => ?_
  exact Ends.bind (stays_compound tell told) fun _ _ told => told

theorem stays_decl (type : typeSync.has s.current = true) : Stays unkept 0 (decl inner) s := by
  have told := told.takeType type
  unfold decl
  refine ends_current (ends_advance (ends_current ?_))
  split
  · rename_i name
    have told := told.take (neutral_of_accepts name rfl)
    refine ends_advance (ends_at ?_)
    split
    · rename_i paren
      exact Ends.bind (stays_function tell told _ _ paren) fun _ _ told => told
    · exact Ends.bind (stays_varDecl told _ _ _) fun _ _ told => told
  · refine Ends.bind (stays_expect told rfl _) fun _ _ told => ends_at ?_
    split
    · rename_i semicolon
      exact ends_advance (told.take (neutral_of_accepts semicolon rfl))
    · exact told

theorem stays_decls : Stays unkept 0 (decls inner) s := by
  unfold decls
  refine ends_atEnd ?_
  split
  · exact told
  · refine ends_atType ?_
    split
    · rename_i type
      refine Ends.bind (stays_decl tell told type) fun _ _ told => ?_
      exact Ends.bind (tell.decls told) fun _ _ told => told
    · exact Ends.bind (kept_skip told _) fun _ _ kept => tell.decls kept.told

end Declarations

theorem tell_next {inner : Rules} (tell : inner.Tell unkept) : inner.next.Tell unkept where
  expression told := stays_expression tell told
  arguments told := stays_arguments tell told
  unary told := stays_unary tell told
  binary least told := stays_binary tell told least
  chain least left told := stays_chain tell told least left
  statement told := stays_statement tell told
  statements told := stays_statements tell told
  localVars told := stays_localVars tell told
  moreParams told := stays_moreParams tell told
  decls told := stays_decls tell told

theorem tell_idle : Rules.idle.Tell unkept := by
  constructor <;> intros <;> assumption

theorem tell_rules (n : Nat) : (rules n).Tell unkept := by
  induction n with
  | zero => exact tell_next tell_idle
  | succ n ih => exact tell_next ih

theorem stays_source (told : Told unkept 0 s) : Stays unkept 0 source s := by
  unfold source
  refine ends_atEnd ?_
  split
  · refine Ends.bind (due_unexpectedEnd told) fun _ _ due => Ends.bind (kept_keep due) fun _ _ kept => ends_get ?_
    exact Ends.bind ((tell_rules _).decls kept.told) fun _ _ told => told
  · exact ends_get (Ends.bind ((tell_rules _).decls told) fun _ _ told => told)

theorem spent_decls {inner : Rules} {n : Nat} (serve : inner.Serve n)
    (spent : ∀ {s : State}, s.Honest → s.size < n → Ends inner.decls s fun _ s' => s'.tokens = []) (honest : s.Honest)
    (bound : s.size < n + 1) : Ends (decls inner) s fun _ s' => s'.tokens = [] := by
  unfold decls
  refine ends_atEnd ?_
  split
  · rename_i nil
    exact List.isEmpty_iff.mp nil
  · rename_i notEnd
    refine ends_atType ?_
    split
    · rename_i type
      refine Ends.bind (gives_decl serve honest bound (has_not_eof type)) ?_
      intro first s₁ ⟨reads, _⟩
      have small : s₁.size + max 1 (first.toList.map Decl.weight).sum ≤ s.size := reads.size
      exact Ends.bind (spent reads.honest (by omega)) fun _ _ nil => nil
    · refine Ends.bind (ends_skip typeSync honest (by simpa using notEnd)) ?_
      intro _ s₁ ⟨reads, _⟩
      have small := reads.size
      exact spent reads.honest (by omega)

theorem spent_rules (n : Nat) : ∀ {s : State}, s.Honest → s.size < n + 1 →
    Ends (rules n).decls s fun _ s' => s'.tokens = [] := by
  induction n with
  | zero =>
    intro s honest bound
    exact spent_decls serve_idle (fun _ below => absurd below (Nat.not_lt_zero _)) honest bound
  | succ n ih =>
    intro s honest bound
    exact spent_decls (serve_rules n) ih honest bound

theorem spent_source (honest : s.Honest) : Ends source s fun _ s' => s'.tokens = [] := by
  unfold source
  refine ends_atEnd ?_
  split
  · refine Ends.bind (reports_unexpectedEnd honest) ?_
    intro r s₁ ⟨reads, _⟩
    refine Ends.bind (continues_keep reads.honest r) fun _ s₂ kept => ends_get ?_
    exact Ends.bind (spent_rules s₂.size kept.honest (Nat.lt_succ_self _)) fun _ _ nil => nil
  · exact ends_get (Ends.bind (spent_rules s.size honest (Nat.lt_succ_self _)) fun _ _ nil => nil)

theorem told_start (stream : TokenStream) : Told (lapses 0 stream.tokens) 0 (.start stream) :=
  .inr ⟨rfl, rfl, rfl⟩

end Parser

/-- What is reported before the first recovery that is kept, and what without any. -/
theorem Parsed.errors_eq (stream : TokenStream) :
    ∃ before after, before <+: Parser.lapses 0 stream.tokens ∧
      (ofTokens stream).errors = before ++ ((ofTokens stream).recovery.map (·.error)).toList ++ after ∧
      ((ofTokens stream).recovery = none → before = Parser.lapses 0 stream.tokens ∧ after = []) := by
  have spent : (Parser.source.run (Parser.State.start stream)).2.tokens = [] :=
    Parser.spent_source fun ended => by cases ended
  rcases Parser.stays_source (Parser.told_start stream) with ⟨r, before, kept, lapsed, after, reported⟩ | quiet
  · have recovery : (ofTokens stream).recovery = some r := kept
    refine ⟨before, after, lapsed, ?_, fun absent => ?_⟩
    · rw [recovery]
      exact reported.symm
    · rw [recovery] at absent
      cases absent
  · have recovery : (ofTokens stream).recovery = none := quiet.recovery
    have errors : (ofTokens stream).errors ++ _ = Parser.lapses 0 stream.tokens := quiet.errors
    rw [spent, Parser.lapses, List.append_nil] at errors
    exact ⟨_, [], List.prefix_rfl, by simp [recovery, errors], fun _ => ⟨rfl, rfl⟩⟩

/-- The syntax diagnostics of a text, and the recovery that is kept of them. The diagnostic of that
    recovery comes first, unless tokens were dropped between the type and the name of a local
    variable before it: only those are reported without a recovery. -/
theorem recovery_of_text (text : Text) :
    let parsed := parsedText text
    let kept := parsed.recovery.map fun r => SyntaxError.diagnostic r.error
    let unkept := (Parser.lapses 0 (TokenStream.ofSource text).tokens).map SyntaxError.diagnostic
    (∃ before after, before <+: unkept ∧ parsed.diagnostics = before ++ kept.toList ++ after ∧
      (kept = none → before = unkept ∧ after = [])) ∧
    (unkept = [] → kept = parsed.diagnostics.head?) ∧
    ∀ c, compile text = .ok c → c.parsed = parsed ∧ c.diagnostics.syntactic = parsed.diagnostics := by
  intro parsed kept unkept
  have parts : ∃ before after, before <+: unkept ∧ parsed.diagnostics = before ++ kept.toList ++ after ∧
      (kept = none → before = unkept ∧ after = []) := by
    obtain ⟨before, after, lapsed, errors, silent⟩ := Parsed.errors_eq (.ofSource text)
    refine ⟨before.map SyntaxError.diagnostic, after.map SyntaxError.diagnostic, lapsed.map _, ?_, fun absent => ?_⟩
    · change List.map _ (Parsed.ofTokens _).errors = _
      rw [errors]
      cases recovery : (Parsed.ofTokens (.ofSource text)).recovery <;>
        simp [kept, parsed, parsedText, recovery]
    · obtain ⟨rfl, rfl⟩ := silent (Option.map_eq_none_iff.mp absent)
      exact ⟨rfl, rfl⟩
  refine ⟨parts, fun none_ => ?_, fun c compiles => ?_⟩
  · obtain ⟨before, after, lapsed, reported, silent⟩ := parts
    rw [none_, List.prefix_nil] at lapsed
    subst lapsed
    cases found : kept with
    | none => simp [reported, found, (silent found).2]
    | some diagnostic => simp [reported, found]
  · obtain ⟨g, assembly, _, _, rfl⟩ := generated_of_compile compiles
    exact ⟨rfl, rfl⟩

def strayText : Text :=
  "void main(void) \x7b int + x; \x7d"

/-- A syntax error without a recovery. -/
theorem recovery_lost_strayText :
    (parsedText strayText).diagnostics = [⟨.syntactic, 1, "illegal +"⟩] ∧ (parsedText strayText).recovery = none := by
  decide +kernel

end MiniC
