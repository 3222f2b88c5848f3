import MiniC.Proofs.Preservation.Slots

namespace MiniC

open Reference (Block Store Halt Denotation EvalM)
open Translation (Temp BaseCode ExprCode ArgsCode Place)

structure Evaluated (B : Build) (A : Layout) (level top : Nat) (frame : List Slot) (e : Expr) (p q : Place) (type : Ty)
    (x : Operand) (m : Machine) (d : Denotation) (σ : Store) (m' : Machine) : Prop where
  pc : m'.pc = q.pc
  agrees : Agrees B A level top σ m'
  stays : Stays A level p.slot q.slot m m'
  holds : Holds A level frame m'.memory q.slot type d x
  place : Typing.IsPlace e → type = .int → ∃ b index, d = .cell b index

def ExprFaithful (B : Build) (n : Nat) : Prop :=
  ∀ {A : Layout} {level top : Nat} {params : List Param} {frame : List Slot} {Γ : Scoped Home} {env : Reference.Env}
    {e : Expr} {p q : Place} {type : Ty} {x : Operand} {σ : Store} {m : Machine},
    CallFrame B A level top params frame → Reads B A level m.memory Γ env →
    ExprCode B.program.code frame Γ e p type x q → m.pc = p.pc → Agrees B A level top σ m →
    Follows m (Evaluated B A level top frame e p q type x m)
      ((Reference.expr B.names B.size n ⟨env, level, top⟩ e).run σ)

section Cases

variable {B : Build} {n : Nat} {A : Layout} {level top : Nat} {params : List Param} {frame : List Slot} {Γ : Scoped Home}
  {env : Reference.Env} {p q r : Place} {x y t : Operand} {σ : Store} {m m₁ m₂ : Machine}

theorem follows_number {k : Numeral} {type : Ty} (code : ExprCode B.program.code frame Γ (.number k) p type x q)
    (pc : m.pc = p.pc) (agrees : Agrees B A level top σ m) :
    Follows m (Evaluated B A level top frame (.number k) p q type x m)
      ((Reference.expr B.names B.size (n + 1) ⟨env, level, top⟩ (.number k)).run σ) := by
  simp only [Reference.expr, EStateM.run_pure]
  cases code with
  | integer integer =>
    rw [integer]
    exact .ok ⟨pc, agrees, .refl, .constant, fun place => place.elim⟩
  | real real =>
    rw [real]
    exact .ok ⟨pc, agrees, .refl, .real, fun place => place.elim⟩

theorem follows_name {id : Ident} {type : Ty} (reads : Reads B A level m.memory Γ env)
    (code : ExprCode B.program.code frame Γ (.name id) p type x q) (pc : m.pc = p.pc) (agrees : Agrees B A level top σ m) :
    Follows m (Evaluated B A level top frame (.name id) p q type x m)
      ((Reference.expr B.names B.size (n + 1) ⟨env, level, top⟩ (.name id)).run σ) := by
  simp only [Reference.expr]
  cases code with
  | var found =>
    obtain ⟨b, found', means⟩ := reads _ _ found
    cases means with
    | @var _ s b names live role index =>
      rw [found']
      refine .ok ⟨pc, agrees, .refl, ?_, fun _ _ => ⟨b, 0, rfl⟩⟩
      rw [← index]
      exact .cell names live role
  | array found =>
    obtain ⟨b, found', means⟩ := reads _ _ found
    cases means with
    | array | pointer =>
      rw [found']
      exact .ok ⟨pc, agrees, .refl, .array, fun _ same => by cases same⟩

theorem Agrees.at {k : Nat} {i : Instruction} (agrees : Agrees B A level top σ m) (pc : m.pc = k)
    (found : B.program.code[k]? = some i) : m.At k i :=
  ⟨pc, by rw [agrees.program]; exact found⟩

theorem follows_fill {e : Expr} {w : Word} (h : CallFrame B A level top params frame) (temp : Temp frame q.slot t)
    (temps : p.slot ≤ q.slot) (other : ¬ Typing.IsPlace e) (stays : Stays A level p.slot q.slot m m₁)
    (agrees : Agrees B A level top σ m₁) (run : Machine.step m₁ = .ok () ((m₁.stored t w).moved (q.pc + 1 : Nat))) :
    Follows m₁ (Evaluated B A level top frame e p q.fill .int t m) (.ok (.word w) σ) := by
  refine .fill h agrees temp run fun m' pc agrees' stays' value => .ok ⟨pc, agrees', ?_, ?_, fun place => (other place).elim⟩
  · exact (stays.mono (Nat.le_refl _) (Nat.le_succ _)).trans (stays'.mono temps (Nat.le_refl _))
  · rw [← value]
    exact .temp temp (Nat.lt_succ_self _)

theorem follows_unary {op : UnaryOp} {line : Nat} {e : Expr} {type : Ty} (ih : ExprFaithful B n)
    (h : CallFrame B A level top params frame) (reads : Reads B A level m.memory Γ env)
    (code : ExprCode B.program.code frame Γ (.unary op line e) p type x q) (pc : m.pc = p.pc)
    (agrees : Agrees B A level top σ m) :
    Follows m (Evaluated B A level top frame (.unary op line e) p q type x m)
      ((Reference.expr B.names B.size (n + 1) ⟨env, level, top⟩ (.unary op line e)).run σ) := by
  simp only [Reference.expr]
  cases code with
  | @unary _ _ _ _ q x t first temp found =>
    refine (ih h reads first pc agrees).bind fun d σ₁ m₁ done => ?_
    refine (done.holds.read h done.agrees).bind ?_
    rintro w _ _ ⟨rfl, rfl, rfl⟩
    have readable := done.holds.readable h
    have storage := (h.names_temp temp).storage
    have here := done.agrees.at done.pc found
    refine follows_fill h temp first.temps.1 not_false done.stays done.agrees ?_
    cases op with
    | neg =>
      have run := Machine.step_compute (f := (· - ·)) rfl here (.inl rfl) readable storage
      rw [Machine.word_imm, Int64.zero_sub] at run
      exact run
    | not =>
      have run := Machine.step_compute (f := fun x y => Machine.ofBool (x = y)) rfl here readable (.inl rfl) storage
      rw [Machine.word_imm] at run
      exact run

theorem applyBinary_eq {op : BinaryOp} {operation : Opcode} (known : op.opcode? = some operation) :
    (∃ f, Machine.arithmetic? operation = some f ∧ ∀ a b, Reference.applyBinary op a b = pure (f a b)) ∨
      ∃ f, Machine.division? operation = some f ∧
        ∀ a b, Reference.applyBinary op a b = if b = 0 then throw .divisionByZero else pure (f a b) := by
  cases op
  case or | and => cases known
  case div | mod =>
    cases known
    exact .inr ⟨_, rfl, fun _ _ => rfl⟩
  all_goals
    cases known
    exact .inl ⟨_, rfl, fun _ _ => rfl⟩

theorem follows_binary {op : BinaryOp} {operation : Opcode} {line : Nat} {left right : Expr} (ih : ExprFaithful B n)
    (h : CallFrame B A level top params frame) (reads : Reads B A level m.memory Γ env)
    (known : op.opcode? = some operation) (first : ExprCode B.program.code frame Γ left p .int x q)
    (second : ExprCode B.program.code frame Γ right q .int y r) (temp : Temp frame r.slot t)
    (found : B.program.code[r.pc]? = some { op := operation, a1 := x, a2 := y, a3 := t }) (pc : m.pc = p.pc)
    (agrees : Agrees B A level top σ m) :
    Follows m (Evaluated B A level top frame (.binary op line left right) p r.fill .int t m)
      ((Reference.expr B.names B.size (n + 1) ⟨env, level, top⟩ (.binary op line left right)).run σ) := by
  rw [Reference.expr_binary known]
  refine (ih h reads first pc agrees).bind fun d σ₁ m₁ done => ?_
  refine (ih h (reads.keep done.stays.keeps) second done.pc done.agrees).bind fun d' σ₂ m₂ done' => ?_
  have holds := done.holds.keep h done'.stays.keeps (Nat.le_refl _)
  refine (holds.read h done'.agrees).bind ?_
  rintro a _ _ ⟨rfl, rfl, rfl⟩
  refine (done'.holds.read h done'.agrees).bind ?_
  rintro b _ _ ⟨rfl, rfl, rfl⟩
  have here := done'.agrees.at done'.pc found
  have storage := (h.names_temp temp).storage
  have le := first.temps.1
  have le' := second.temps.1
  have stays := (done.stays.mono (Nat.le_refl _) le').trans (done'.stays.mono le (Nat.le_refl _))
  have filled := fun {w} => follows_fill (e := .binary op line left right)
    (w := w) h temp (Nat.le_trans le le') not_false stays
    done'.agrees
  rcases applyBinary_eq known with ⟨f, computes, same⟩ | ⟨f, divides, same⟩
  · rw [same]
    exact filled (Machine.step_compute computes here (holds.readable h) (done'.holds.readable h) storage)
  · rw [same]
    by_cases zero : m₂.word y = 0
    · have fails := Machine.step_divide_zero divides here (holds.readable h) (done'.holds.readable h) storage zero
      rw [← done'.pc] at fails
      rw [if_pos zero]
      exact ⟨m₂, { m₂ with steps := m₂.steps + 1 }, .refl, done'.agrees.running, done'.agrees.output, fails⟩
    · rw [if_neg zero]
      exact filled (Machine.step_divide divides here (holds.readable h) (done'.holds.readable h) storage zero)

theorem Build.value_label (B : Build) {k : Nat} (inside : k ≤ B.program.code.size) :
    (Operand.label k).value.toInt = k := by
  have short := B.short
  exact Operand.value_label (by omega)

theorem lt_size_of_found {code : Array Instruction} {k : Nat} {i : Instruction} (found : code[k]? = some i) :
    k < code.size :=
  (Array.getElem?_eq_some_iff.mp found).1

theorem follows_right {right e : Expr} {slot : Nat} (ih : ExprFaithful B n) (h : CallFrame B A level top params frame)
    (reads : Reads B A level m₁.memory Γ env) (other : ¬ Typing.IsPlace e) (temp : Temp frame slot t)
    (below : slot < q.slot) (above : p.slot ≤ slot) (code : ExprCode B.program.code frame Γ right q .int y r)
    (found : B.program.code[r.pc]? = some { op := .ne, a1 := y, a2 := .imm 0, a3 := t }) (pc : m₁.pc = q.pc)
    (agrees : Agrees B A level top σ m₁) (stays : Stays A level p.slot q.slot m m₁) :
    Follows m₁ (Evaluated B A level top frame e p r.next .int t m)
      ((do
        let d ← Reference.expr B.names B.size n ⟨env, level, top⟩ right
        return .word (Machine.ofBool ((← Reference.read d) ≠ 0)) : EvalM Denotation).run σ) := by
  have le := code.temps.1
  refine (ih h reads code pc agrees).bind fun d σ₁ m₂ done => ?_
  refine (done.holds.read h done.agrees).bind ?_
  rintro w _ _ ⟨rfl, rfl, rfl⟩
  have run := Machine.step_compute (f := fun x y => Machine.ofBool (x ≠ y)) rfl (done.agrees.at done.pc found)
    (done.holds.readable h) (.inl rfl) (h.names_temp temp).storage
  rw [Machine.word_imm] at run
  refine .fill h done.agrees temp run fun m' pc' agrees' stays' value =>
    .ok ⟨pc', agrees', ?_, ?_, fun place => (other place).elim⟩
  · have before := (stays.mono (Nat.le_refl _) le).trans (done.stays.mono (by omega) (Nat.le_refl _))
    exact before.trans (stays'.mono above (by omega))
  · rw [← value]
    exact .temp temp (by change slot < r.slot; omega)

theorem follows_and {line : Nat} {left right : Expr} (ih : ExprFaithful B n) (h : CallFrame B A level top params frame)
    (reads : Reads B A level m.memory Γ env) (first : ExprCode B.program.code frame Γ left p .int x q)
    (temp : Temp frame q.slot t) (set : B.program.code[q.pc]? = some { op := .assign, a1 := .imm 0, a2 := t })
    (jump : B.program.code[q.pc + 1]? = some { op := .jpf, a1 := x, a2 := .label (r.pc + 1 : Nat) })
    (second : ExprCode B.program.code frame Γ right ⟨q.pc + 2, q.slot + 1⟩ .int y r)
    (found : B.program.code[r.pc]? = some { op := .ne, a1 := y, a2 := .imm 0, a3 := t }) (pc : m.pc = p.pc)
    (agrees : Agrees B A level top σ m) :
    Follows m (Evaluated B A level top frame (.binary .and line left right) p r.next .int t m)
      ((Reference.expr B.names B.size (n + 1) ⟨env, level, top⟩ (.binary .and line left right)).run σ) := by
  simp only [Reference.expr]
  have le := first.temps.1
  have le' : q.slot + 1 ≤ r.slot := second.temps.1
  refine (ih h reads first pc agrees).bind fun d σ₁ m₁ done => ?_
  have run := Machine.step_assign (done.agrees.at done.pc set) (.inl rfl) (h.names_temp temp).storage
  refine .fill h done.agrees temp run fun m₂ pc₂ agrees₂ stays₂ value => ?_
  have holds := done.holds.keep h stays₂.keeps (Nat.le_refl _)
  have stays := (done.stays.mono (Nat.le_refl _) (Nat.le_succ _)).trans (stays₂.mono le (Nat.le_refl _))
  refine (holds.read h agrees₂).bind ?_
  rintro w _ _ ⟨rfl, rfl, rfl⟩
  have run' := Machine.step_branch (agrees₂.at pc₂ jump) (holds.readable h)
  by_cases zero : m₂.word x = 0
  · rw [if_pos zero, B.value_label (lt_size_of_found found)] at run'
    rw [if_pos zero]
    refine .goto agrees₂ run' (.ok ⟨rfl, agrees₂.moved _, ?_, ?_, fun place => place.elim⟩)
    · exact (stays.mono (Nat.le_refl _) le').trans (.moved _)
    · rw [Machine.word_imm] at value
      rw [← value]
      exact .temp temp le'
  · rw [if_neg zero] at run'
    rw [if_neg zero]
    refine .goto agrees₂ run' ?_
    exact follows_right ih h (reads.keep stays.keeps) not_false temp (Nat.lt_succ_self _)
      le second found rfl (agrees₂.moved _)
      (stays.trans (.moved _))

theorem follows_or {line : Nat} {left right : Expr} {test : Operand} (ih : ExprFaithful B n)
    (h : CallFrame B A level top params frame) (reads : Reads B A level m.memory Γ env)
    (first : ExprCode B.program.code frame Γ left p .int x q) (temp : Temp frame q.slot t)
    (temp' : Temp frame (q.slot + 1) test) (set : B.program.code[q.pc]? = some { op := .assign, a1 := .imm 1, a2 := t })
    (compare : B.program.code[q.pc + 1]? = some { op := .eq, a1 := x, a2 := .imm 0, a3 := test })
    (jump : B.program.code[q.pc + 2]? = some { op := .jpf, a1 := test, a2 := .label (r.pc + 1 : Nat) })
    (second : ExprCode B.program.code frame Γ right ⟨q.pc + 3, q.slot + 2⟩ .int y r)
    (found : B.program.code[r.pc]? = some { op := .ne, a1 := y, a2 := .imm 0, a3 := t }) (pc : m.pc = p.pc)
    (agrees : Agrees B A level top σ m) :
    Follows m (Evaluated B A level top frame (.binary .or line left right) p r.next .int t m)
      ((Reference.expr B.names B.size (n + 1) ⟨env, level, top⟩ (.binary .or line left right)).run σ) := by
  simp only [Reference.expr]
  have le := first.temps.1
  have le' : q.slot + 2 ≤ r.slot := second.temps.1
  refine (ih h reads first pc agrees).bind fun d σ₁ m₁ done => ?_
  have run := Machine.step_assign (done.agrees.at done.pc set) (.inl rfl) (h.names_temp temp).storage
  rw [Machine.word_imm] at run
  refine .fill h done.agrees temp run fun m₂ pc₂ agrees₂ stays₂ value => ?_
  have holds := done.holds.keep h stays₂.keeps (Nat.le_refl _)
  refine (holds.read h agrees₂).bind ?_
  rintro w _ _ ⟨rfl, rfl, rfl⟩
  have run' := Machine.step_compute (f := fun x y => Machine.ofBool (x = y)) rfl (agrees₂.at pc₂ compare)
    (holds.readable h) (.inl rfl) (h.names_temp temp').storage
  rw [Machine.word_imm] at run'
  refine .fill h agrees₂ temp' run' fun m₃ pc₃ agrees₃ stays₃ value' => ?_
  have one : A.read m₃.memory ⟨level, q.slot, 0⟩ = 1 :=
    (h.read_temp temp stays₃.keeps (Nat.lt_succ_self _)).trans value
  have stays := (done.stays.mono (Nat.le_refl _) (show q.slot ≤ q.slot + 2 by omega)).trans
    ((stays₂.mono le (Nat.le_succ _)).trans (stays₃.mono (by omega) (Nat.le_refl _)))
  have run'' := Machine.step_branch (agrees₃.at pc₃ jump) (h.names_temp temp').readable
  rw [(h.names_temp temp').word agrees₃.fp, value'] at run''
  by_cases zero : m₂.word x = 0
  · rw [if_pos zero]
    rw [if_neg (by simp [zero, Machine.ofBool])] at run''
    refine .goto agrees₃ run'' ?_
    exact follows_right ih h (reads.keep stays.keeps) not_false temp (show q.slot < q.slot + 2 by omega) le second found rfl
      (agrees₃.moved _) (stays.trans (.moved _))
  · rw [if_neg zero]
    rw [if_pos (by simp [zero, Machine.ofBool]), B.value_label (lt_size_of_found found)] at run''
    refine .goto agrees₃ run'' (.ok ⟨rfl, agrees₃.moved _, ?_, ?_, fun place => place.elim⟩)
    · exact (stays.mono (Nat.le_refl _) le').trans (.moved _)
    · rw [← one]
      exact .temp temp (show q.slot < r.slot by omega)

theorem follows_assign {line : Nat} {target value : Expr} (ih : ExprFaithful B n)
    (h : CallFrame B A level top params frame) (reads : Reads B A level m.memory Γ env) (place : Typing.IsPlace target)
    (first : ExprCode B.program.code frame Γ target p .int x q) (second : ExprCode B.program.code frame Γ value q .int y r)
    (found : B.program.code[r.pc]? = some { op := .assign, a1 := y, a2 := x }) (pc : m.pc = p.pc)
    (agrees : Agrees B A level top σ m) :
    Follows m (Evaluated B A level top frame (.assign line target value) p r.next .int x m)
      ((Reference.expr B.names B.size (n + 1) ⟨env, level, top⟩ (.assign line target value)).run σ) := by
  simp only [Reference.expr]
  have le := first.temps.1
  have le' := second.temps.1
  refine (ih h reads first pc agrees).bind fun d σ₁ m₁ done => ?_
  refine (ih h (reads.keep done.stays.keeps) second done.pc done.agrees).bind fun d' σ₂ m₂ done' => ?_
  refine (done'.holds.read h done'.agrees).bind ?_
  rintro w _ _ ⟨rfl, rfl, rfl⟩
  obtain ⟨b, index, rfl⟩ := done.place place rfl
  have holds := done.holds.keep h done'.stays.keeps (Nat.le_refl _)
  obtain ⟨s, live, role, same, storage, _⟩ := holds.spot h done'.agrees
  have run := Machine.step_assign (done'.agrees.at done'.pc found) (done'.holds.readable h) storage
  refine .store h done'.agrees holds run fun m₃ pc₃ agrees₃ stays₃ => ?_
  refine .ok ⟨pc₃, agrees₃, ?_, ?_, fun _ _ => ⟨b, index, rfl⟩⟩
  · have before := (done.stays.mono (Nat.le_refl _) le').trans (done'.stays.mono le (Nat.le_refl _))
    exact before.trans (stays₃ _ _)
  · exact (holds.keep h (stays₃ q.slot q.slot).keeps (Nat.le_refl _)).mono le'

theorem ofNat_add_mul_wordSize (a : Nat) {w : Word} (positive : 0 ≤ w.toInt) :
    Int64.ofNat a + w * wordSize = .ofNat (a + 4 * w.toNatClampNeg) := by
  have same : Int64.ofNat w.toNatClampNeg = w := Int64.ofNat_toNatClampNeg w (Int64.le_iff_toInt_le.mpr positive)
  calc Int64.ofNat a + w * wordSize = .ofNat a + .ofNat w.toNatClampNeg * .ofNat 4 := by rw [same]; rfl
    _ = .ofNat (a + w.toNatClampNeg * 4) := by rw [Int64.ofNat_add, Int64.ofNat_mul]
    _ = .ofNat (a + 4 * w.toNatClampNeg) := by rw [Nat.mul_comm]

structure Based (B : Build) (A : Layout) (level top : Nat) (b : Block) (length : Nat) (base : Operand) (p q : Place)
    (σ : Store) (m m' : Machine) : Prop where
  pc : m'.pc = q.pc
  agrees : Agrees B A level top σ m'
  stays : Stays A level p.slot q.slot m m'
  readable : base.Readable
  points : ∃ k slot, Spans A level b length k slot ∧ m'.word base = .ofNat (A.address ⟨k, slot, 0⟩)

theorem runs_base {name : Text} {o base : Operand} {isParam : Bool} (h : CallFrame B A level top params frame)
    (reads : Reads B A level m.memory Γ env) (found : Γ.find? name = some (.array o isParam))
    (code : BaseCode B.program.code frame o isParam p base q) (pc : m.pc = p.pc) (agrees : Agrees B A level top σ m) :
    ∃ b length, env.find? name = some (.array b length) ∧
      ∃ m', m.Runs m' ∧ Based B A level top b length base p q σ m m' := by
  obtain ⟨binding, found', means⟩ := reads _ _ found
  cases code with
  | param =>
    cases means with
    | @pointer _ s b length k slot names live role value spans =>
      refine ⟨b, length, found', m, .refl, pc, agrees, .refl, names.readable, k, slot, spans, ?_⟩
      rw [names.word agrees.fp, value]
  | own temp code =>
    cases means with
    | @array _ b length k slot names spans =>
      have run := Machine.step_address (agrees.at pc code) names.storage (h.names_temp temp).storage
      obtain ⟨agrees', stays, value⟩ := agrees.fill h temp (m.location o) (p.pc + 1 : Nat)
      refine ⟨b, length, found', _, .single agrees.running run rfl, rfl, agrees', stays, (h.names_temp temp).readable,
        k, slot, spans, ?_⟩
      rw [(h.names_temp temp).word agrees'.fp, value, names.location agrees.fp]

theorem follows_index {id : Ident} {e : Expr} {o base : Operand} {isParam : Bool} (ih : ExprFaithful B n)
    (h : CallFrame B A level top params frame) (reads : Reads B A level m.memory Γ env)
    (first : ExprCode B.program.code frame Γ e p .int x q) (found : Γ.find? id.name = some (.array o isParam))
    (address : BaseCode B.program.code frame o isParam q base r) (temp : Temp frame r.slot t)
    (here : B.program.code[r.pc]? = some { op := .elem, a1 := base, a2 := x, a3 := t }) (pc : m.pc = p.pc)
    (agrees : Agrees B A level top σ m) :
    Follows m (Evaluated B A level top frame (.index id e) p r.fill .int t.deref m)
      ((Reference.expr B.names B.size (n + 1) ⟨env, level, top⟩ (.index id e)).run σ) := by
  simp only [Reference.expr]
  have le := first.temps.1
  have le' := address.temps.1
  refine (ih h reads first pc agrees).bind fun d σ₁ m₁ done => ?_
  obtain ⟨b, length, found', m₂, runs, based⟩ := runs_base h (reads.keep done.stays.keeps) found address done.pc done.agrees
  obtain ⟨k, slot, spans, points⟩ := based.points
  refine .after runs ?_
  have holds := done.holds.keep h based.stays.keeps (Nat.le_refl _)
  refine (holds.read h based.agrees).bind ?_
  rintro w _ _ ⟨rfl, rfl, rfl⟩
  rw [found']
  by_cases inside : 0 ≤ (m₂.word x).toInt ∧ (m₂.word x).toInt < length
  · simp only [Reference.element, if_pos inside, EStateM.run_pure]
    have run := Machine.step_compute (f := fun x y => x + y * wordSize) rfl (based.agrees.at based.pc here) based.readable
      (holds.readable h) (h.names_temp temp).storage
    rw [points, ofNat_add_mul_wordSize _ inside.1] at run
    refine .fill h based.agrees temp run fun m₃ pc₃ agrees₃ stays₃ value => ?_
    refine .ok ⟨pc₃, agrees₃, ?_, ?_, fun _ _ => ⟨b, _, rfl⟩⟩
    · have before := (done.stays.mono (Nat.le_refl _) le').trans (based.stays.mono le (Nat.le_refl _))
      exact (before.mono (Nat.le_refl _) (Nat.le_succ _)).trans (stays₃.mono (by omega) (Nat.le_refl _))
    · have index : (m₂.word x).toNatClampNeg < length := by
        change (m₂.word x).toInt.toNat < length
        omega
      exact .element temp (Nat.lt_succ_self _) value (spans.live index) spans.role
  · simp only [Reference.element, if_neg inside]
    trivial

theorem Holds.passed {bound : Nat} {d : Denotation} (h : CallFrame B A level top params frame)
    (agrees : Agrees B A level top σ m) (holds : Holds A level frame m.memory bound .int d x) :
    Follows m (fun d' σ' m' => σ = σ' ∧ m = m' ∧ d' = .word (m.word x)) ((Reference.passed d).run σ) := by
  have same : Reference.passed d = do return .word (← Reference.read d) := by
    cases d with
    | word | cell => rfl
    | array | nothing => cases holds
  rw [same]
  refine (holds.read h agrees).bind ?_
  rintro w _ _ ⟨rfl, rfl, rfl⟩
  exact .ok ⟨rfl, rfl, rfl⟩

theorem follows_argument {e : Expr} (ih : ∀ k ≤ n, ExprFaithful B k) (h : CallFrame B A level top params frame)
    (reads : Reads B A level m.memory Γ env) (code : ExprCode B.program.code frame Γ e p .int x q) (pc : m.pc = p.pc)
    (agrees : Agrees B A level top σ m) :
    Follows m (fun ds σ' m' => ds = [.word (m'.word x)] ∧ ∃ d, Evaluated B A level top frame e p q .int x m d σ' m')
      ((Reference.arguments B.names B.size n ⟨env, level, top⟩ [e]).run σ) := by
  cases n with
  | zero => trivial
  | succ n =>
    simp only [Reference.arguments]
    refine (ih n (Nat.le_succ n) h reads code pc agrees).bind fun d σ₁ m₁ done => ?_
    refine (done.holds.passed h done.agrees).bind ?_
    rintro _ _ _ ⟨rfl, rfl, rfl⟩
    cases n with
    | zero => trivial
    | succ n => exact .ok ⟨rfl, d, done⟩

theorem follows_print {id : Ident} {e : Expr} (ih : ∀ k ≤ n, ExprFaithful B k) (h : CallFrame B A level top params frame)
    (reads : Reads B A level m.memory Γ env) (found : Γ.find? id.name = some .output)
    (first : ExprCode B.program.code frame Γ e p .int x q) (here : B.program.code[q.pc]? = some { op := .print, a1 := x })
    (pc : m.pc = p.pc) (agrees : Agrees B A level top σ m) :
    Follows m (Evaluated B A level top frame (.call id [e]) p q.next .void (.imm 0) m)
      ((Reference.expr B.names B.size (n + 1) ⟨env, level, top⟩ (.call id [e])).run σ) := by
  obtain ⟨binding, found', means⟩ := reads _ _ found
  cases means
  simp only [Reference.expr, found']
  refine (follows_argument ih h reads first pc agrees).bind ?_
  rintro _ σ₁ m₁ ⟨rfl, d, done⟩
  have run := Machine.step_print (done.agrees.at done.pc here) (done.holds.readable h)
  refine .step done.agrees.running run rfl (.ok ⟨rfl, ?_, ?_, .void, fun place => place.elim⟩)
  · refine ⟨done.agrees.program, done.agrees.running, done.agrees.fp, done.agrees.sp, done.agrees.cells, ?_⟩
    change (m₁.output.push _).toList = _
    rw [Array.toList_push, done.agrees.output]
  · exact ⟨done.stays.keeps, done.stays.args, done.stays.activations⟩

end Cases

end MiniC
