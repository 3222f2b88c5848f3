import MiniC.Proofs.Preservation.Expr

namespace MiniC

open Reference (Block Store Halt Denotation EvalM Flow variablesIn variablesAll)
open Translation (ExprCode VarsPlaced Turn StmtCode StmtsCode Place)

/-- Where the code of a statement leads to, by the way in which the statement ends. -/
inductive Lands (loop : Option Turn) (q : Place) (m : Machine) : Flow → Prop where
  | next : m.pc = q.pc → Lands loop q m .next
  | leave {turn : Turn} : loop = some turn → m.pc = turn.exit → Lands loop q m .leave
  | again {turn : Turn} : loop = some turn → m.pc = turn.start → Lands loop q m .again
  | ret {k : Nat} {x : Operand} :
    m.At k { op := .ret, a1 := x } → x = .absent ∨ x.Readable → Lands loop q m (.ret (m.result x))

structure Executed (B : Build) (A : Layout) (level top : Nat) (loop : Option Turn) (p q : Place) (m : Machine) (flow : Flow)
    (σ : Store) (m' : Machine) : Prop where
  agrees : Agrees B A level top σ m'
  stays : Stays A level p.slot q.slot m m'
  lands : Lands loop q m' flow

def TurnInside (code : Array Instruction) (loop : Option Turn) : Prop :=
  ∀ turn, loop = some turn → turn.start ≤ code.size ∧ turn.exit ≤ code.size

/-- Whether the code of statements follows evaluations bounded by a number. The statement stands
    behind `k` variables of its function. -/
def StmtFaithful (B : Build) (n : Nat) : Prop :=
  ∀ {A : Layout} {level top : Nat} {params : List Param} {frame : List Slot} {Γ : Scoped Home} {env : Reference.Env}
    {result : TypeName} {loop : Option Turn} {s : Stmt} {p q : Place} {k : Nat} {σ : Store} {m : Machine},
    CallFrame B A level top params frame → Reads B A level m.memory Γ env →
    StmtCode B.program.code frame result loop Γ s p q → TurnInside B.program.code loop → q.pc ≤ B.program.code.size →
    (∀ d ∈ variablesIn s, 4 * Reference.words d < 2 ^ 63) → declaration frame p.slot = k → m.pc = p.pc →
    Agrees B A level top σ m →
    Follows m (Executed B A level top loop p q m) ((Reference.stmt B.names B.size n ⟨env, level, top⟩ k s).run σ)

def StmtsFaithful (B : Build) (n : Nat) : Prop :=
  ∀ {A : Layout} {level top : Nat} {params : List Param} {frame : List Slot} {Γ : Scoped Home} {env : Reference.Env}
    {result : TypeName} {loop : Option Turn} {body : List Stmt} {p q : Place} {k : Nat} {σ : Store} {m : Machine},
    CallFrame B A level top params frame → Reads B A level m.memory Γ env →
    StmtsCode B.program.code frame result loop Γ body p q → TurnInside B.program.code loop →
    q.pc ≤ B.program.code.size → (∀ d ∈ variablesAll body, 4 * Reference.words d < 2 ^ 63) →
    declaration frame p.slot = k → m.pc = p.pc → Agrees B A level top σ m →
    Follows m (Executed B A level top loop p q m) ((Reference.stmts B.names B.size n ⟨env, level, top⟩ k body).run σ)

section Cases

variable {B : Build} {n : Nat} {A : Layout} {level top : Nat} {params : List Param} {frame : List Slot} {Γ : Scoped Home}
  {env : Reference.Env} {result : TypeName} {loop : Option Turn} {p q r : Place} {x : Operand} {k : Nat} {σ : Store}
  {m m₁ : Machine}

theorem Executed.after {p' : Place} {flow : Flow} {m' : Machine} (done : Executed B A level top loop p' q m₁ flow σ m')
    (stays : Stays A level p.slot p'.slot m m₁) (le : p.slot ≤ p'.slot) (le' : p'.slot ≤ q.slot) :
    Executed B A level top loop p q m flow σ m' :=
  ⟨done.agrees, (stays.mono (Nat.le_refl _) le').trans (done.stays.mono le (Nat.le_refl _)), done.lands⟩

theorem Follows.test {α : Type} {post : α → Store → Machine → Prop} {e : Expr} {target : Nat} {f : Word → EvalM α}
    (ih : ExprFaithful B n) (h : CallFrame B A level top params frame) (reads : Reads B A level m.memory Γ env)
    (code : ExprCode B.program.code frame Γ e p .int x q) (pc : m.pc = p.pc) (agrees : Agrees B A level top σ m)
    (found : B.program.code[q.pc]? = some { op := .jpf, a1 := x, a2 := .label target })
    (inside : target ≤ B.program.code.size)
    (zero : ∀ (σ' : Store) (m' : Machine), m'.pc = target → Agrees B A level top σ' m' → Stays A level p.slot q.slot m m' →
      Follows m' post ((f 0).run σ'))
    (other : ∀ (w : Word) (σ' : Store) (m' : Machine), w ≠ 0 → m'.pc = (q.pc + 1 : Nat) → Agrees B A level top σ' m' →
      Stays A level p.slot q.slot m m' → Follows m' post ((f w).run σ')) :
    Follows m post ((do
      let d ← Reference.expr B.names B.size n ⟨env, level, top⟩ e
      f (← Reference.read d) : EvalM α).run σ) := by
  refine (ih h reads code pc agrees).bind fun d σ₁ m₁ done => ?_
  refine (done.holds.read h done.agrees).bind ?_
  rintro w _ _ ⟨rfl, rfl, rfl⟩
  have run := Machine.step_branch (done.agrees.at done.pc found) (done.holds.readable h)
  rw [B.value_label inside] at run
  refine .goto done.agrees run ?_
  by_cases test : m₁.word x = 0
  · rw [test, if_pos rfl]
    exact zero _ _ rfl (done.agrees.moved _) (done.stays.trans (.moved _))
  · rw [if_neg test]
    exact other _ _ _ test rfl (done.agrees.moved _) (done.stays.trans (.moved _))

theorem follows_ifThen {line : Nat} {e : Expr} {body : Stmt} (ihe : ExprFaithful B n) (ih : StmtFaithful B n)
    (h : CallFrame B A level top params frame) (reads : Reads B A level m.memory Γ env)
    (test : ExprCode B.program.code frame Γ e p .int x q)
    (found : B.program.code[q.pc]? = some { op := .jpf, a1 := x, a2 := .label r.pc })
    (code : StmtCode B.program.code frame result loop Γ body q.next r) (turn : TurnInside B.program.code loop)
    (inside : r.pc ≤ B.program.code.size) (fits : ∀ d ∈ variablesIn body, 4 * Reference.words d < 2 ^ 63)
    (count : declaration frame p.slot = k) (pc : m.pc = p.pc) (agrees : Agrees B A level top σ m) :
    Follows m (Executed B A level top loop p r m)
      ((Reference.stmt B.names B.size (n + 1) ⟨env, level, top⟩ k (.ifThen line e body)).run σ) := by
  rw [Reference.stmt_ifThen]
  have temps := test.temps
  have le' : q.slot ≤ r.slot := (code.declares _ fits).le
  refine .test ihe h reads test pc agrees found inside ?_ ?_
  · intro σ' m' pc' agrees' stays
    exact .ok ⟨agrees', stays.mono (Nat.le_refl _) le', .next pc'⟩
  · intro w σ' m' other pc' agrees' stays
    rw [if_neg other]
    have count' : declaration frame q.slot = k := temps.count.trans count
    refine (ih h (reads.keep stays.keeps) code turn inside fits count' pc' agrees').mono fun flow σ₂ m₂ done => ?_
    exact done.after stays temps.le le'

theorem Executed.jump {r' : Place} {target : Nat} (found : B.program.code[q.pc]? = some { op := .jp, a1 := .label target })
    (inside : target ≤ B.program.code.size) (le : q.slot ≤ r'.slot) (same : r'.pc = target) {flow : Flow} {m' : Machine}
    (done : Executed B A level top loop p q m flow σ m') :
    Follows m' (Executed B A level top loop p r' m) (.ok flow σ) := by
  have stays := done.stays.mono (Nat.le_refl _) le
  cases done.lands with
  | next pc =>
    have run := Machine.step_jump (done.agrees.at pc found)
    rw [B.value_label inside] at run
    exact .goto done.agrees run (.ok ⟨done.agrees.moved _, stays.trans (.moved _), .next (congrArg Nat.cast same.symm)⟩)
  | leave known pc => exact .ok ⟨done.agrees, stays, .leave known pc⟩
  | again known pc => exact .ok ⟨done.agrees, stays, .again known pc⟩
  | ret here value => exact .ok ⟨done.agrees, stays, .ret here value⟩

theorem follows_ifElse {line : Nat} {e : Expr} {body orElse : Stmt} {t : Place} (ihe : ExprFaithful B n)
    (ih : StmtFaithful B n)
    (h : CallFrame B A level top params frame) (reads : Reads B A level m.memory Γ env)
    (test : ExprCode B.program.code frame Γ e p .int x q)
    (found : B.program.code[q.pc]? = some { op := .jpf, a1 := x, a2 := .label (r.pc + 1 : Nat) })
    (first : StmtCode B.program.code frame result loop Γ body q.next r)
    (jump : B.program.code[r.pc]? = some { op := .jp, a1 := .label t.pc })
    (second : StmtCode B.program.code frame result loop Γ orElse r.next t) (turn : TurnInside B.program.code loop)
    (inside : t.pc ≤ B.program.code.size)
    (fits : ∀ d ∈ variablesIn (.ifElse line e body orElse), 4 * Reference.words d < 2 ^ 63)
    (count : declaration frame p.slot = k) (pc : m.pc = p.pc) (agrees : Agrees B A level top σ m) :
    Follows m (Executed B A level top loop p t m)
      ((Reference.stmt B.names B.size (n + 1) ⟨env, level, top⟩ k (.ifElse line e body orElse)).run σ) := by
  simp only [Reference.stmt]
  rw [variablesIn] at fits
  have fits₁ : ∀ d ∈ variablesIn body, 4 * Reference.words d < 2 ^ 63 := fun d member => fits d (by simp [member])
  have fits₂ : ∀ d ∈ variablesIn orElse, 4 * Reference.words d < 2 ^ 63 := fun d member => fits d (by simp [member])
  have temps := test.temps
  have taken := first.declares _ fits₁
  have taken' := second.declares _ fits₂
  have count' : declaration frame q.slot = k := temps.count.trans count
  have end₁ := lt_size_of_found jump
  refine .test ihe h reads test pc agrees found end₁ ?_ ?_
  · intro σ' m' pc' agrees' stays
    have count'' : declaration frame r.slot = k + (variablesIn body).length := by
      rw [← count']
      exact taken.count
    refine (ih h (reads.keep stays.keeps) second turn inside fits₂ count'' pc' agrees').mono fun flow σ₂ m₂ done => ?_
    have le : q.slot ≤ r.slot := taken.le
    exact done.after (stays.mono (Nat.le_refl _) le) (Nat.le_trans temps.le le) taken'.le
  · intro w σ' m' other pc' agrees' stays
    rw [if_neg other]
    have follows := ih h (reads.keep stays.keeps) first turn (Nat.le_of_lt end₁) fits₁ count' pc' agrees'
    have jumps := Follows.bind (f := pure) follows fun flow σ₂ m₂ done =>
      (done.after stays temps.le taken.le).jump jump inside taken'.le rfl
    rwa [bind_pure] at jumps

theorem follows_loop {line : Nat} {e : Expr} {body : Stmt} (ihe : ExprFaithful B n) (ih : StmtFaithful B n)
    (h : CallFrame B A level top params frame) (reads : Reads B A level m.memory Γ env)
    (test : ExprCode B.program.code frame Γ e p .int x q)
    (found : B.program.code[q.pc]? = some { op := .jpf, a1 := x, a2 := .label (r.pc + 1 : Nat) })
    (code : StmtCode B.program.code frame result (some ⟨p.pc, r.pc + 1⟩) Γ body q.next r)
    (jump : B.program.code[r.pc]? = some { op := .jp, a1 := .label p.pc }) (turn : TurnInside B.program.code loop)
    (fits : ∀ d ∈ variablesIn body, 4 * Reference.words d < 2 ^ 63) (count : declaration frame p.slot = k) (pc : m.pc = p.pc)
    (agrees : Agrees B A level top σ m) :
    Follows m (Executed B A level top loop p r.next m)
      ((Reference.stmt B.names B.size (n + 1) ⟨env, level, top⟩ k (.loop line e body)).run σ) := by
  simp only [Reference.stmt]
  have whole : StmtCode B.program.code frame result loop Γ (.loop line e body) p r.next := .loop test found code jump
  have temps := test.temps
  have taken := code.declares _ fits
  have exits := lt_size_of_found jump
  have starts : p.pc ≤ B.program.code.size :=
    Nat.le_trans (test.level B.short).1 (Nat.le_of_lt (lt_size_of_found found))
  refine .test ihe h reads test pc agrees found exits ?_ ?_
  · intro σ' m' pc' agrees' stays
    exact .ok ⟨agrees', stays.mono (Nat.le_refl _) taken.le, .next pc'⟩
  · intro w σ' m' other pc' agrees' stays
    rw [if_neg other]
    have count' : declaration frame q.slot = k := temps.count.trans count
    have turn' : TurnInside B.program.code (some ⟨p.pc, r.pc + 1⟩) := by
      rintro _ ⟨⟩
      exact ⟨starts, exits⟩
    refine (ih h (reads.keep stays.keeps) code turn' (Nat.le_of_lt exits) fits count' pc' agrees').bind
      fun flow σ₂ m₂ done => ?_
    have before := (done.after stays temps.le taken.le).stays
    -- A turn that ends leads back to the test, with the evaluation of a shorter loop to follow.
    have repeats : ∀ {m₃ : Machine}, m₃.pc = p.pc → Agrees B A level top σ₂ m₃ → Stays A level p.slot r.slot m m₃ →
        Follows m₃ (Executed B A level top loop p r.next m)
          ((Reference.stmt B.names B.size n ⟨env, level, top⟩ k (.loop line e body)).run σ₂) := by
      intro m₃ pc₃ agrees₃ stays₃
      refine (ih h (reads.keep stays₃.keeps) whole turn exits fits count pc₃ agrees₃).mono fun flow σ₄ m₄ done' => ?_
      exact ⟨done'.agrees, stays₃.trans done'.stays, done'.lands⟩
    cases done.lands with
    | next pc₂ =>
      have run := Machine.step_jump (done.agrees.at pc₂ jump)
      rw [B.value_label starts] at run
      exact .goto done.agrees run (repeats rfl (done.agrees.moved _) (before.trans (.moved _)))
    | again known pc₂ =>
      cases known
      exact repeats pc₂ done.agrees before
    | leave known pc₂ =>
      cases known
      exact .ok ⟨done.agrees, before, .next pc₂⟩
    | ret here value => exact .ok ⟨done.agrees, before, .ret here value⟩

theorem VarsPlaced.means {i : Nat} {vars : List VarDecl} {homes : Bindings Home} (h : CallFrame B A level top params frame)
    (placed : VarsPlaced frame i vars homes) (fits : ∀ d ∈ vars, 4 * Reference.words d < 2 ^ 63)
    (count : declaration frame i = k) (memory : Memory) :
    Bindings.Parallel (Means B A level memory) homes (Reference.bindVars level k vars) := by
  induction placed generalizing k with
  | nil => exact .nil
  | @cons i d rest homes s found kind size placed ih =>
    have fits₁ := fits d (by simp)
    have spans : Spans A level (.var level k) (Reference.words d) level i := by
      refine ⟨Nat.le_refl _, ?_, ?_⟩
      · rw [h.area]
        simp only [Area.ofCall, found, kind, count]
      · rw [h.size found, size]
        have value := Translation.toInt_size fits₁
        exact congrArg some (show (Int64.ofNat (Reference.words d) * wordSize).toInt.toNat = _ by omega)
    have count' : declaration frame (i + 1) = k + 1 := by
      rw [Translation.declaration_succ found, if_pos kind, count]
    rw [Reference.bindVars, bind_eq]
    exact .cons (.variable (h.names found) spans) (ih (fun d member => fits d (by simp [member])) count')

theorem follows_block {vars : List VarDecl} {homes : Bindings Home} {body : List Stmt} (ih : StmtsFaithful B n)
    (h : CallFrame B A level top params frame) (reads : Reads B A level m.memory Γ env)
    (placed : VarsPlaced frame p.slot vars homes)
    (code : StmtsCode B.program.code frame result loop (homes :: Γ) body ⟨p.pc, p.slot + vars.length⟩ q)
    (turn : TurnInside B.program.code loop) (inside : q.pc ≤ B.program.code.size)
    (fits : ∀ d ∈ variablesIn (.block vars body), 4 * Reference.words d < 2 ^ 63) (count : declaration frame p.slot = k)
    (pc : m.pc = p.pc) (agrees : Agrees B A level top σ m) :
    Follows m (Executed B A level top loop p q m)
      ((Reference.stmt B.names B.size (n + 1) ⟨env, level, top⟩ k (.block vars body)).run σ) := by
  simp only [Reference.stmt]
  rw [variablesIn] at fits
  have fits₁ : ∀ d ∈ vars, 4 * Reference.words d < 2 ^ 63 := fun d member => fits d (by simp [member])
  have fits₂ : ∀ d ∈ variablesAll body, 4 * Reference.words d < 2 ^ 63 := fun d member => fits d (by simp [member])
  have reads' := Reads.cons (VarsPlaced.means h placed fits₁ count m.memory) reads
  have count' : declaration frame (p.slot + vars.length) = k + vars.length := by
    rw [(placed.declares fits₁).count, count]
  refine (ih h reads' code turn inside fits₂ count' pc agrees).mono fun flow σ₁ m₁ done => ?_
  exact ⟨done.agrees, done.stays.mono (Nat.le_add_right _ _) (Nat.le_refl _), done.lands⟩

theorem follows_ret {line : Nat} (here : B.program.code[p.pc]? = some { op := .ret }) (pc : m.pc = p.pc)
    (agrees : Agrees B A level top σ m) :
    Follows m (Executed B A level top loop p p.next m)
      ((Reference.stmt B.names B.size (n + 1) ⟨env, level, top⟩ k (.ret line none)).run σ) :=
  .ok ⟨agrees, .refl, .ret (agrees.at pc here) (.inl rfl)⟩

theorem follows_value {line : Nat} {e : Expr} (ih : ExprFaithful B n) (h : CallFrame B A level top params frame)
    (reads : Reads B A level m.memory Γ env) (code : ExprCode B.program.code frame Γ e p .int x q)
    (here : B.program.code[q.pc]? = some { op := .ret, a1 := x }) (pc : m.pc = p.pc) (agrees : Agrees B A level top σ m) :
    Follows m (Executed B A level top loop p q.next m)
      ((Reference.stmt B.names B.size (n + 1) ⟨env, level, top⟩ k (.ret line (some e))).run σ) := by
  simp only [Reference.stmt]
  refine (ih h reads code pc agrees).bind fun d σ₁ m₁ done => ?_
  refine (done.holds.read h done.agrees).bind ?_
  rintro w _ _ ⟨rfl, rfl, rfl⟩
  have readable := done.holds.readable h
  have handed : m₁.word x = m₁.result x := by
    rw [Machine.result, readable.isAbsent]
    rfl
  rw [handed]
  exact .ok ⟨done.agrees, done.stays, .ret (done.agrees.at done.pc here) (.inr readable)⟩

theorem StmtFaithful.succ (ihe : ExprFaithful B n) (ih : StmtFaithful B n) (ihs : StmtsFaithful B n) :
    StmtFaithful B (n + 1) := by
  intro A level top params frame Γ env result loop s p q k σ m h reads code turn inside fits count pc agrees
  cases code with
  | empty => exact .ok ⟨agrees, .refl, .next pc⟩
  | expr code =>
    simp only [Reference.stmt]
    refine (ihe h reads code pc agrees).bind fun d σ₁ m₁ done => ?_
    exact .ok ⟨done.agrees, done.stays, .next done.pc⟩
  | block placed code => exact follows_block ihs h reads placed code turn inside fits count pc agrees
  | ifThen test found code =>
    exact follows_ifThen ihe ih h reads test found code turn inside fits count pc agrees
  | ifElse test found first jump second =>
    exact follows_ifElse ihe ih h reads test found first jump second turn inside fits count pc agrees
  | loop test found code jump => exact follows_loop ihe ih h reads test found code jump turn fits count pc agrees
  | ret _ here => exact follows_ret here pc agrees
  | value _ code here => exact follows_value ihe h reads code here pc agrees
  | @leave turn' _ _ _ here =>
    have run := Machine.step_jump (agrees.at pc here)
    rw [B.value_label (turn turn' rfl).2] at run
    exact .goto agrees run (.ok ⟨agrees.moved _, .moved _, .leave rfl rfl⟩)
  | @again turn' _ _ _ here =>
    have run := Machine.step_jump (agrees.at pc here)
    rw [B.value_label (turn turn' rfl).1] at run
    exact .goto agrees run (.ok ⟨agrees.moved _, .moved _, .again rfl rfl⟩)

theorem StmtsFaithful.succ (ih : StmtFaithful B n) (ihs : StmtsFaithful B n) : StmtsFaithful B (n + 1) := by
  intro A level top params frame Γ env result loop body p q k σ m h reads code turn inside fits count pc agrees
  cases code with
  | nil => exact .ok ⟨agrees, .refl, .next pc⟩
  | @cons _ _ s rest _ q' _ first others =>
    simp only [Reference.stmts]
    rw [variablesAll] at fits
    have fits₁ : ∀ d ∈ variablesIn s, 4 * Reference.words d < 2 ^ 63 := fun d member => fits d (by simp [member])
    have fits₂ : ∀ d ∈ variablesAll rest, 4 * Reference.words d < 2 ^ 63 := fun d member => fits d (by simp [member])
    have taken := first.declares _ fits₁
    have taken' := others.declares (fun s _ => StmtCode.declares s) fits₂
    have later : q'.pc ≤ q.pc := (others.level fun s _ => StmtCode.level B.short s).1
    refine (ih h reads first turn (Nat.le_trans later inside) fits₁ count pc agrees).bind fun flow σ₁ m₁ done => ?_
    have stays := done.stays.mono (Nat.le_refl _) taken'.le
    cases done.lands with
    | next pc₁ =>
      have count' : declaration frame q'.slot = k + (variablesIn s).length := by rw [taken.count, count]
      refine (ihs h (reads.keep done.stays.keeps) others turn inside fits₂ count' pc₁ done.agrees).mono
        fun flow σ₂ m₂ done' => ?_
      exact done'.after done.stays taken.le taken'.le
    | leave known pc₁ => exact .ok ⟨done.agrees, stays, .leave known pc₁⟩
    | again known pc₁ => exact .ok ⟨done.agrees, stays, .again known pc₁⟩
    | ret here value => exact .ok ⟨done.agrees, stays, .ret here value⟩

end Cases

end MiniC
