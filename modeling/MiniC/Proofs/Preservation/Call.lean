import MiniC.Proofs.Preservation.Passing

namespace MiniC

open Reference (Block Store Halt Denotation EvalM Flow)
open Translation (Temp ExprCode ArgsCode FunctionCode ParamsPlaced Turn Place)

/-- Whether the global names mean what they stand for, in any storage that starts with the globals. -/
def Build.Known (B : Build) : Prop :=
  ∀ (A : Layout) (level : Nat) (memory : Memory), A 0 = B.data →
    Bindings.Parallel (Means B A level memory) B.homes B.names

theorem Build.Known.reads {B : Build} {A : Layout} {level : Nat} {memory : Memory} {globals : Bindings Home}
    (known : B.Known)
    (data : A 0 = B.data) (part : globals <+: B.homes) : Reads B A level memory [globals] [B.names] := by
  intro name home found
  obtain ⟨rest, whole⟩ := part
  rw [Scoped.find?_cons, Option.or_eq_some_iff] at found
  have found' : B.homes.lookup name = some home := by
    rcases found with found | ⟨_, found⟩
    · rw [← whole, List.lookup_append, found]
      rfl
    · cases found
  obtain ⟨b, names, means⟩ := (known A level memory data).lookup_some found'
  refine ⟨b, ?_, means⟩
  rw [Scoped.find?_cons, names]
  rfl

structure Entering (B : Build) (A : Layout) (level top entry : Nat) (words : List Word) (act : Activation)
    (rest : List Activation) (σ : Store) (m : Machine) : Prop where
  pc : m.pc = entry
  program : m.program = B.program
  running : m.halted = false
  sp : m.sp = .ofNat top
  cells : A.Cells level σ m.memory
  output : m.output.toList = σ.output
  calling : m.calling = true
  pending : m.pending.toList = words
  few : words.length < 2 ^ 63
  active : m.activations = act :: rest
  result : act.result = .absent ∨ act.result.isStorage = true

structure Back (B : Build) (A : Layout) (level : Nat) (act : Activation) (rest : List Activation) (m : Machine) (σ : Store)
    (m' : Machine) : Prop where
  program : m'.program = B.program
  running : m'.halted = false
  fp : m'.fp = act.fp
  sp : m'.sp = act.sp
  cells : A.Cells level σ m'.memory
  output : m'.output.toList = σ.output
  args : m'.args = m.args
  activations : m'.activations = rest
  keeps : ∀ lo hi, A.Keeps level lo hi m.memory m'.memory

inductive Results (w : Word) : TypeName → Denotation → Prop where
  | void : Results w .void .nothing
  | int : Results w .int (.word w)

def Returned (B : Build) (A : Layout) (level : Nat) (type : TypeName) (act : Activation) (rest : List Activation)
    (m : Machine) (d : Denotation) (σ : Store) (m' : Machine) : Prop :=
  ∃ c w, Back B A level act rest m σ c ∧ Results w type d ∧
    m' = (if act.result.isAbsent then c else c.stored act.result w).moved act.ret

def CallFaithful (B : Build) (n : Nat) : Prop :=
  ∀ {A : Layout} {level top entry last : Nat} {f : FunDecl} {fn : Function} {globals : Bindings Home} {env : Reference.Env}
    {values : List Denotation} {words : List Word} {act : Activation} {rest : List Activation} {σ : Store} {m : Machine},
    Grounded B A level top → FunctionAt B entry f fn last globals →
    Passed A level (Typing.paramTypes f.params.toList) values words →
    Entering B A level top entry words act rest σ m →
    Follows m (Returned B A level f.type act rest m)
      ((Reference.call B.names B.size n ⟨env, level, top⟩ f values).run σ)

section Calls

variable {B : Build} {n : Nat} {A : Layout} {level top entry last : Nat} {f : FunDecl} {fn : Function}
  {globals : Bindings Home} {words : List Word} {act : Activation} {rest : List Activation} {σ : Store} {m : Machine}

theorem Entering.step (entering : Entering B A level top entry words act rest σ m)
    (function : FunctionAt B entry f fn last globals) (count : words.length = f.params.toList.length) :
    Machine.step m = .ok () ((m.opened fn.frame.size (.ofNat words.length) act rest).moved (entry + 1 : Nat)) := by
  have size : m.pending.size = words.length := by
    rw [← entering.pending]
    rfl
  have found := function.code.enter
  rw [function.code.count, ← count, ← size] at found
  have here : m.At entry { op := .func, a1 := .imm fn.frame.size, a2 := .imm (.ofNat m.pending.size) } :=
    ⟨entering.pc, by rw [entering.program]; exact found⟩
  have run := Machine.step_enter here (by rw [size]; exact entering.few) entering.calling entering.active
  rwa [size] at run

theorem Lands.returns {q : Place} {flow : Flow} (leave : m.program.code[q.pc]? = some { op := .ret })
    (lands : Lands none q m flow) :
    ∃ k x, m.At k { op := .ret, a1 := x } ∧ (x = .absent ∨ x.Readable) ∧
      (flow = .next ∧ m.result x = 0 ∨ flow = .ret (m.result x)) := by
  cases lands with
  | next pc => exact ⟨q.pc, .absent, ⟨pc, leave⟩, .inl rfl, .inl ⟨rfl, rfl⟩⟩
  | leave known | again known => cases known
  | @ret k x here value => exact ⟨k, x, here, value, .inr rfl⟩

theorem Machine.returned_eq (m : Machine) (o : Operand) (act : Activation) (rest : List Activation) :
    m.returned o act rest =
      if act.result.isAbsent then m.closed o act rest else (m.closed o act rest).stored act.result (m.result o) := by
  unfold Machine.returned
  cases act.result.isAbsent <;> rfl

structure ResultSlot (A : Layout) (level slot : Nat) : Prop where
  live : A.Live level ⟨level, slot, 0⟩
  role : A.role ⟨level, slot, 0⟩ = .scratch

theorem CallFrame.resultSlot {params : List Param} {frame : List Slot} {slot : Nat} {s : Slot}
    (h : CallFrame B A level top params frame) (found : frame[slot]? = some s) (kind : s.kind = .ret)
    (size : s.size = wordSize) : ResultSlot A level slot := by
  refine ⟨⟨Nat.le_refl _, 4, ?_, Nat.le_refl _⟩, ?_⟩
  · rw [h.size found, size]
    rfl
  · simp only [Layout.role]
    rw [h.area]
    simp only [Area.ofCall, found, kind]

/-- A return leaves its result in the frame, in a slot that the evaluation does not see. -/
theorem Machine.memory_closed {slot : Nat} (m : Machine) (x : Operand) (act : Activation) (rest : List Activation)
    (fp : m.fp = .ofNat (A level).base) (params : act.params = .ofNat slot)
    (address : A.address ⟨level, slot, 0⟩ = (A level).base + 4 * slot) :
    (m.closed x act rest).memory = if x.isAbsent then m.memory else A.write m.memory ⟨level, slot, 0⟩ (m.word x) := by
  have same : m.fp + act.params * wordSize = .ofNat (A.address ⟨level, slot, 0⟩) := by
    rw [fp, params, address, Nat.mul_comm, Int64.ofNat_add, Int64.ofNat_mul]
    rfl
  simp only [Machine.closed, same]
  rfl

structure Entered (B : Build) (A : Layout) (level top entry : Nat) (f : FunDecl) (fn : Function) (act : Activation)
    (rest : List Activation) (m : Machine) (σ : Store) (m' : Machine) : Prop where
  pc : m'.pc = (entry + 1 : Nat)
  agrees : Agrees B (A.enter level top f fn) (level + 1) (top + B.size f.id.name) σ m'
  args : m'.args = m.args
  activations : m'.activations = { act with params := .ofNat f.params.toList.length } :: rest
  keeps : ∀ lo hi, A.Keeps level lo hi m.memory m'.memory

theorem Entering.enters {params : Bindings Home} {values : List Denotation}
    (entering : Entering B A level top entry words act rest σ m) (ground : Grounded B A level top)
    (function : FunctionAt B entry f fn last globals) (room : top + B.size f.id.name < 2 ^ 63)
    (placed : ParamsPlaced fn.frame.slots 0 f.params.toList params)
    (passed : Passed A level (Typing.paramTypes f.params.toList) values words) :
    ∃ layer σ₁ m₁, (Reference.bindParams (level + 1) 0 f.params.toList values).run (σ.fresh (level + 1)) = .ok layer σ₁ ∧
      m.Runs m₁ ∧ Entered B A level top entry f fn act rest m σ₁ m₁ ∧
      Bindings.Parallel (Means B (A.enter level top f fn) (level + 1) m₁.memory) params layer := by
  have h := ground.enter function room
  have count : words.length = f.params.toList.length := by rw [passed.length_eq, placed.length_types]
  have base : (A.enter level top f fn (level + 1)).base = top := by
    rw [Layout.enter, Layout.push_self]
    rfl
  have start : (A.enter level top f fn).address ⟨level + 1, 0, 0⟩ = top := by
    simp only [Layout.address, base]
    rfl
  obtain ⟨layer, σ₁, binds, received⟩ := ParamsPlaced.received h placed rfl passed.push
    (entering.cells.push Area.owned_ofCall)
  rw [start] at received
  have run := entering.step function count
  have memory : ((m.opened fn.frame.size (.ofNat words.length) act rest).moved (entry + 1 : Nat)).memory =
      m.memory.writeAll (.ofNat top) wordSize words := by
    rw [← entering.sp, ← entering.pending]
    rfl
  refine ⟨layer, σ₁, _, binds, .single entering.running run rfl, ⟨rfl, ?_, rfl, ?_, ?_⟩, ?_⟩
  · refine ⟨entering.program, entering.running, ?_, ?_, ?_, ?_⟩
    · rw [base]
      exact entering.sp
    · rw [Int64.ofNat_add, ← function.size, ← entering.sp]
      rfl
    · rw [memory]
      exact received.cells
    · rw [received.output]
      exact entering.output
  · rw [← count]
    rfl
  · intro lo hi s live _
    have same := received.others s live.push fun own => by have := live.le; omega
    rw [Layout.enter, Layout.read_push live.le, Layout.read_push live.le] at same
    rw [memory]
    exact same
  · rw [memory]
    exact received.means

theorem Entered.back {params : Bindings Home} {m₁ m₂ : Machine} {σ₁ : Store} {lo hi : Nat} {x : Operand}
    (entered : Entered B A level top entry f fn act rest m σ m₁) (ground : Grounded B A level top)
    (function : FunctionAt B entry f fn last globals) (room : top + B.size f.id.name < 2 ^ 63)
    (placed : ParamsPlaced fn.frame.slots 0 f.params.toList params)
    (agrees : Agrees B (A.enter level top f fn) (level + 1) (top + B.size f.id.name) σ₁ m₂)
    (stays : Stays (A.enter level top f fn) (level + 1) lo hi m₁ m₂) :
    Back B A level act rest m σ₁ (m₂.closed x { act with params := .ofNat f.params.toList.length } rest) := by
  have h := ground.enter function room
  obtain ⟨s, found, kind, size⟩ := function.code.result
  obtain ⟨live, role⟩ := h.resultSlot found kind size
  have address := ParamsPlaced.address_add h placed rfl
  rw [Nat.zero_add] at address
  have memory := m₂.memory_closed x { act with params := .ofNat f.params.toList.length } rest agrees.fp rfl address
  -- The result is written behind the parameters, where neither the callee's cells nor the caller's
  -- storage lie.
  have cells : (A.enter level top f fn).Cells (level + 1) σ₁
      (m₂.closed x { act with params := .ofNat f.params.toList.length } rest).memory := by
    rw [memory]
    split
    · exact agrees.cells
    · exact agrees.cells.write_scratch h.sound live role
  have keeps : ∀ lo hi, A.Keeps level lo hi m₂.memory
      (m₂.closed x { act with params := .ofNat f.params.toList.length } rest).memory := by
    intro lo hi
    rw [memory]
    split
    · exact .refl
    · exact (Layout.Keeps.write_scratch h.sound live role rfl).pop
  refine ⟨agrees.program, agrees.running, rfl, rfl, cells.pop, agrees.output, stays.args.trans entered.args, rfl, ?_⟩
  intro lo hi
  exact ((entered.keeps lo hi).trans stays.keeps.pop).trans (keeps lo hi)

theorem CallFaithful.succ (known : B.Known) (ih : StmtsFaithful B n) : CallFaithful B (n + 1) := by
  intro A level top entry last f fn globals env values words act rest σ m ground function passed entering
  simp only [Reference.call]
  by_cases full : 2 ^ 63 ≤ top + B.size f.id.name
  · rw [if_pos full]
    trivial
  · rw [if_neg full]
    have room : top + B.size f.id.name < 2 ^ 63 := by omega
    have h := ground.enter function room
    obtain ⟨params, vars, placed, placed', body⟩ := function.code.body
    obtain ⟨layer, σ₁, m₁, binds, enters, entered, means⟩ := entering.enters ground function room placed passed
    have fits₁ : ∀ d ∈ f.vars, 4 * Reference.words d < 2 ^ 63 := fun d member => function.variablesIn d (by simp [member])
    have fits₂ : ∀ d ∈ Reference.variablesAll f.body, 4 * Reference.words d < 2 ^ 63 := fun d member =>
      function.variablesIn d (by simp [member])
    have count : declaration fn.frame.slots (f.params.toList.length + 1) = 0 := by
      obtain ⟨s, found, kind, _⟩ := function.code.result
      have before := placed.declares.count
      rw [Nat.zero_add] at before
      rw [Translation.declaration_succ found, kind, before]
      rfl
    have count' : declaration fn.frame.slots (f.params.toList.length + 1 + f.vars.length) = f.vars.length := by
      rw [(placed'.declares fits₁).count, count, Nat.zero_add]
    have reads := Reads.cons (means.append (VarsPlaced.means h placed' fits₁ count m₁.memory))
      (known.reads h.data function.known)
    have ends := Nat.le_of_lt (lt_size_of_found function.code.leave)
    rw [EStateM.run_bind, EStateM.run_modify]
    simp only
    rw [EStateM.run_bind, binds]
    refine .after enters ((ih h reads body (fun _ absent => by cases absent) ends fits₂ count' entered.pc
      entered.agrees).bind
      fun flow σ₂ m₂ done => ?_)
    have leave : m₂.program.code[last]? = some { op := .ret } := by
      rw [done.agrees.program]
      exact function.code.leave
    obtain ⟨k, x, here, value, ended⟩ := done.lands.returns leave
    have run := Machine.step_return here value (by exact entering.result) (done.stays.activations.trans entered.activations)
    have back := entered.back (x := x) ground function room placed done.agrees done.stays
    have returns : ∀ {d : Denotation}, Results (m₂.result x) f.type d →
        Follows m₂ (Returned B A level f.type act rest m) (.ok d σ₂) := by
      intro d results
      exact .step done.agrees.running run rfl (.ok ⟨_, _, back, results, by rw [Machine.returned_eq]⟩)
    -- A body that ends without a result hands over zero, and that is what the evaluation gives.
    generalize f.type = type at returns ⊢
    rcases ended with ⟨rfl, zero⟩ | rfl
    · cases type with
      | int =>
        rw [zero] at returns
        exact returns .int
      | void => exact returns .void
    · cases type with
      | int => exact returns .int
      | void => exact returns .void

theorem Means.isFunction {memory : Memory} {type : TypeName} {types : List Ty} {b : Reference.Binding}
    (means : Means B A level memory (.function entry type types) b) :
    ∃ f fn last globals, b = .function f ∧ FunctionAt B entry f fn last globals ∧ f.type = type ∧
      Typing.paramTypes f.params.toList = types := by
  generalize same : Home.function entry type types = home at means
  cases means with
  | function known =>
    cases same
    exact ⟨_, _, _, _, rfl, known, rfl, rfl⟩
  | var | array | pointer | output => cases same

theorem Machine.taken_called {before : Array Word} (next : Int) (t : Operand)
    (pushed : m.args.toList = before.toList ++ words) :
    (m.called next words.length t).pending.toList = words ∧ (m.called next words.length t).args = before := by
  have size : m.args.size = m.args.toList.length := rfl
  rw [pushed, List.length_append] at size
  have start : m.args.size - words.length = before.toList.length := by omega
  have rest : m.args.size - before.toList.length = words.length := by omega
  refine ⟨?_, Array.toList_inj.mp ?_⟩
  · simp only [Machine.called, Array.toList_extract, List.extract_eq_take_drop, pushed, start, List.drop_left, rest,
      List.take_length]
  · simp only [Machine.called, Array.toList_extract, List.extract_eq_take_drop, pushed, start, List.drop_zero, Nat.sub_zero,
      List.take_left]

variable {params : List Param} {frame : List Slot} {Γ : Scoped Home} {env : Reference.Env}

theorem follows_call {id : Ident} {args : List Expr} {p q : Place} {type : TypeName} {types : List Ty} {t : Operand}
    (ih : ∀ k ≤ n, ExprFaithful B k) (ihc : CallFaithful B n) (h : CallFrame B A level top params frame)
    (reads : Reads B A level m.memory Γ env) (found : Γ.find? id.name = some (.function entry type types))
    (pushes : ArgsCode B.program.code frame Γ args p types q)
    (here : B.program.code[q.pc]? = some { op := .call, a1 := .label entry, a2 := .imm (.ofNat args.length), a3 := t })
    (target : t = .absent ∨ t.isStorage = true) (pc : m.pc = p.pc) (agrees : Agrees B A level top σ m) :
    Follows m (fun d σ' m' => ∃ c w, Agrees B A level top σ' c ∧ Stays A level p.slot q.slot m c ∧ Results w type d ∧
        m' = (if t.isAbsent then c else c.stored t w).moved (q.pc + 1 : Nat))
      ((Reference.expr B.names B.size (n + 1) ⟨env, level, top⟩ (.call id args)).run σ) := by
  obtain ⟨b, found', means⟩ := reads _ _ found
  obtain ⟨f, fn, last, globals, rfl, function, rfl, rfl⟩ := means.isFunction
  simp only [Reference.expr, found']
  refine (follows_arguments ih h reads pushes pc agrees).bind fun values σ₁ m₁ pushed => ?_
  obtain ⟨words, args', passed⟩ := pushed.args
  have count : args.length = words.length := by rw [passed.length_eq, pushes.length_eq]
  have few : words.length < 2 ^ 63 := by
    have le := (pushes.level fun e _ => ExprCode.level B.short e).1
    have lt := lt_size_of_found here
    have short := B.short
    omega
  have isEntry := function.code.isEntry
  have small : entry < 2 ^ 63 := Nat.lt_trans isEntry.lt_size B.short
  have enough : words.length ≤ m₁.args.size := by
    rw [← Array.length_toList, args', List.length_append]
    omega
  rw [count] at here
  have run := Machine.step_call (pushed.agrees.at pushed.pc here) target small few
    (by rw [pushed.agrees.program]; exact isEntry.isEntry) enough
  obtain ⟨pending, before⟩ := Machine.taken_called (q.pc + 1 : Nat) t args'
  have entering : Entering B A level top entry words ⟨(q.pc + 1 : Nat), t, m₁.fp, m₁.sp, 0⟩ m₁.activations σ₁
      ((m₁.called (q.pc + 1 : Nat) words.length t).moved entry) :=
    ⟨rfl, pushed.agrees.program, pushed.agrees.running, pushed.agrees.sp, pushed.agrees.cells, pushed.agrees.output, rfl,
      pending, few, rfl, target⟩
  refine .step pushed.agrees.running run rfl ((ihc h.toGrounded function passed entering).mono ?_)
  rintro d σ₂ m₃ ⟨c, w, back, results, rfl⟩
  refine ⟨c, w, ?_, ⟨pushed.keeps.trans (back.keeps _ _), back.args.trans before, ?_⟩, results, rfl⟩
  · exact ⟨back.program, back.running, back.fp.trans pushed.agrees.fp, back.sp.trans pushed.agrees.sp, back.cells,
      back.output⟩
  · exact back.activations.trans pushed.activations

theorem ExprFaithful.succ (ih : ∀ k ≤ n, ExprFaithful B k) (ihc : CallFaithful B n) : ExprFaithful B (n + 1) := by
  intro A level top params frame Γ env e p q type x σ m h reads code pc agrees
  have shorter : ExprFaithful B n := ih n (Nat.le_refl n)
  cases e with
  | missing => cases code
  | number k => exact follows_number code pc agrees
  | name id => exact follows_name reads code pc agrees
  | index id e =>
    cases code with
    | index first found address temp here => exact follows_index shorter h reads first found address temp here pc agrees
  | call id args =>
    cases code with
    | print found first here => exact follows_print ih h reads found first here pc agrees
    | procedure found pushes here =>
      refine (follows_call ih ihc h reads found pushes here (.inl rfl) pc agrees).mono ?_
      rintro d σ' _ ⟨c, w, agrees', stays, results, rfl⟩
      cases results
      exact ⟨rfl, agrees'.moved _, stays.trans (.moved _), .void, fun place => place.elim⟩
    | @function _ _ _ q entry types _ found pushes temp here =>
      have names := h.names_temp temp
      have le : p.slot ≤ q.slot := (pushes.temps fun e _ => ExprCode.temps e).1
      refine (follows_call ih ihc h reads found pushes here (.inr names.storage) pc agrees).mono ?_
      rintro d σ' _ ⟨c, w, agrees', stays, results, rfl⟩
      cases results
      rw [names.readable.isAbsent, if_neg Bool.false_ne_true]
      obtain ⟨agrees₁, stays₁, value⟩ := agrees'.fill h temp w (q.pc + 1 : Nat)
      have holds : Holds A level frame ((c.stored x w).moved (q.pc + 1 : Nat)).memory (q.slot + 1) .int _ x :=
        .temp temp (Nat.lt_succ_self _)
      rw [value] at holds
      refine ⟨rfl, agrees₁, ?_, holds, fun place => place.elim⟩
      exact (stays.mono (Nat.le_refl _) (Nat.le_succ _)).trans (stays₁.mono le (Nat.le_refl _))
  | unary op line e => exact follows_unary shorter h reads code pc agrees
  | binary op line left right =>
    cases code with
    | binary known first second temp found => exact follows_binary shorter h reads known first second temp found pc agrees
    | and first temp set jump second found => exact follows_and shorter h reads first temp set jump second found pc agrees
    | or first temp temp' set compare jump second found =>
      exact follows_or shorter h reads first temp temp' set compare jump second found pc agrees
  | assign line target value =>
    cases code with
    | assign place first second found => exact follows_assign shorter h reads place first second found pc agrees

structure Faithful (B : Build) (n : Nat) : Prop where
  expr : ExprFaithful B n
  stmt : StmtFaithful B n
  stmts : StmtsFaithful B n
  call : CallFaithful B n

theorem Build.Known.faithful (known : B.Known) (n : Nat) : Faithful B n := by
  -- A call's arguments are evaluated with a bound of their own, so all smaller bounds are needed.
  induction n using Nat.strongRecOn with
  | ind n ih =>
    cases n with
    | zero => exact ⟨fun _ _ _ _ _ => trivial, fun _ _ _ _ _ _ _ _ _ => trivial, fun _ _ _ _ _ _ _ _ _ => trivial,
        fun _ _ _ _ => trivial⟩
    | succ n =>
      have before := ih n (Nat.lt_succ_self n)
      refine ⟨?_, ?_, ?_, ?_⟩
      · exact ExprFaithful.succ (fun k le => (ih k (Nat.lt_succ_of_le le)).expr) before.call
      · exact StmtFaithful.succ before.expr before.stmt before.stmts
      · exact StmtsFaithful.succ before.stmt before.stmts
      · exact CallFaithful.succ known before.stmts

end Calls

end MiniC
