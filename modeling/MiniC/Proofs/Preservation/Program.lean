import MiniC.Proofs.Compilation
import MiniC.Proofs.Preservation.Call

namespace MiniC

open Reference (Block Store Halt Denotation)
open Translation (FunctionCode DeclsCode ProgramCode ParamsPlaced functionHome)

theorem Slot.Packed.offsets {a b : Word} {slots : List Slot} (packed : Slot.Packed a slots b)
    (positive : ∀ s ∈ slots, 0 ≤ s.size.toInt) :
    b = a + .ofNat (slotSizes slots).sum ∧
      ∀ (i : Nat) (s : Slot), slots[i]? = some s → s.offset = a + .ofNat ((slotSizes slots).take i).sum := by
  induction packed with
  | nil => exact ⟨(Int64.add_zero _).symm, fun i s found => by cases found⟩
  | @cons a b s slots offset _ ih =>
    obtain ⟨first, others⟩ := List.forall_mem_cons.mp positive
    obtain ⟨total, behind⟩ := ih others
    have bytes : Int64.ofNat s.size.toNatClampNeg = s.size :=
      Int64.ofNat_toNatClampNeg s.size (Int64.le_iff_toInt_le.mpr first)
    have sum (sizes : List Nat) : a + .ofNat (s.size.toNatClampNeg :: sizes).sum = a + s.size + .ofNat sizes.sum := by
      rw [List.sum_cons, Int64.ofNat_add, bytes, Int64.add_assoc]
    refine ⟨total.trans (sum _).symm, fun i t found => ?_⟩
    cases i with
    | zero =>
      cases found
      exact offset.trans (Int64.add_zero a).symm
    | succ i => exact (behind i t found).trans (sum _).symm

theorem FunctionCode.positive {code : Array Instruction} {globals : Bindings Home} {f : FunDecl} {fn : Function}
    {entry last : Nat} (h : FunctionCode code globals f fn entry last)
    (fits : ∀ d ∈ f.vars ++ Reference.variablesAll f.body, 4 * Reference.words d < 2 ^ 63) :
    ∀ s ∈ fn.frame.slots, 0 ≤ s.size.toInt := by
  obtain ⟨params, vars, placed, placed', body⟩ := h.body
  obtain ⟨r, found, _, size⟩ := h.result
  have before := placed.declares
  rw [Nat.zero_add] at before
  have result := Translation.Declares.single found (by rw [size]; exact Translation.wordSize_positive)
  have own := placed'.declares fun d member => fits d (by simp [member])
  have inner := body.declares (fun s _ => Translation.StmtCode.declares s) fun d member => fits d (by simp [member])
  have all := ((before.trans result).trans own).trans inner
  intro s member
  obtain ⟨i, lt, rfl⟩ := List.getElem_of_mem member
  obtain ⟨t, found, positive⟩ := all.sizes i (Nat.zero_le i) lt
  rw [List.getElem?_eq_getElem lt] at found
  cases found
  exact positive

section Declarations

theorem DeclsOk.functionNames_nodup {before final : Typing.Layer} {decls : List Decl}
    (h : Typing.DeclsOk before decls final) :
    (functionNames decls).Nodup ∧ ∀ name ∈ functionNames decls, name ∉ before.names := by
  induction h with
  | nil => exact ⟨.nil, by simp [functionNames]⟩
  | var _ _ _ ih => exact ⟨ih.1, fun name member known => ih.2 name member (by simp [known])⟩
  | @fn globals final f rest fresh _ _ ih =>
    obtain ⟨distinct, others⟩ := ih
    have own : f.id.name ∈ Bindings.names (globals ++ [Typing.functionEntry f]) := by
      simp [Bindings.names, Typing.functionEntry]
    change (f.id.name :: functionNames rest).Nodup ∧ ∀ name ∈ f.id.name :: functionNames rest, name ∉ globals.names
    refine ⟨List.nodup_cons.mpr ⟨fun member => others _ member own, distinct⟩, fun name member known => ?_⟩
    rcases List.mem_cons.mp member with rfl | member
    · exact fresh known
    · exact others name member (by simp [known])

theorem DeclsCode.map_name {code : Array Instruction} {before final : Bindings Home} {pc stop : Nat} {data bound : Word}
    {decls : List Decl} {functions : List Function} (h : DeclsCode code before pc data decls functions final stop bound) :
    functions.map (·.name) = functionNames decls := by
  induction h with
  | nil => rfl
  | var _ ih => exact ih
  | fn first _ ih => rw [List.map_cons, first.name, ih]; rfl

theorem find?_key {α β : Type} [DecidableEq β] {key : α → β} {l : List α} {a : α} (distinct : (l.map key).Nodup)
    (member : a ∈ l) : l.find? (key · = key a) = some a := by
  induction l with
  | nil => cases member
  | cons b rest ih =>
    rw [List.map_cons, List.nodup_cons] at distinct
    rcases List.mem_cons.mp member with rfl | member
    · simp
    · have other : key b ≠ key a := fun same => distinct.1 (same ▸ List.mem_map_of_mem member)
      simp only [List.find?_cons, other, decide_false]
      exact ih distinct.2 member

def Area.ofGlobals (vars : List VarDecl) : Area where
  base := dataBase.toNatClampNeg
  sizes := vars.map (4 * Reference.words ·)
  role i := .cell (.global i)

theorem DeclsCode.isPrefix {code : Array Instruction} {before final : Bindings Home} {pc stop : Nat} {data bound : Word}
    {decls : List Decl} {functions : List Function} (h : DeclsCode code before pc data decls functions final stop bound) :
    before <+: final := by
  induction h with
  | nil => exact List.prefix_rfl
  | var _ ih | fn _ _ ih => exact (List.prefix_append _ _).trans ih

theorem FunctionCode.functionAt {B : Build} {entry last : Nat} {f : FunDecl} {fn : Function} {globals : Bindings Home}
    (h : FunctionCode B.program.code globals f fn entry last) (known : globals <+: B.homes)
    (size : B.size fn.name = fn.frame.size.toNatClampNeg) (bound : (slotSizes fn.frame.slots).sum < 2 ^ 63)
    (fits : ∀ d ∈ f.vars ++ Reference.variablesAll f.body, 4 * Reference.words d < 2 ^ 63) :
    FunctionAt B entry f fn last globals := by
  obtain ⟨total, offsets⟩ := h.packed.offsets (FunctionCode.positive h fits)
  simp only [Int64.zero_add] at total offsets
  have sum : (slotSizes fn.frame.slots).sum = B.size f.id.name := by
    rw [← h.name, size, total]
    change _ = (Int64.ofNat (slotSizes fn.frame.slots).sum).toInt.toNat
    rw [Int64.toInt_ofNat_of_lt bound, Int.toNat_natCast]
  exact ⟨h, known, by rw [← sum]; exact total, sum, offsets, fits⟩

variable {B : Build} {vars : List VarDecl} {A : Layout} {level : Nat} {memory : Memory}

theorem DeclsCode.means {before final : Bindings Home} {pc stop n : Nat} {data bound : Word} {decls : List Decl}
    {functions : List Function} (h : DeclsCode B.program.code before pc data decls functions final stop bound)
    (whole : final = B.homes) (area : A 0 = .ofGlobals vars) (rest : vars.drop n = Reference.globalVariables ⟨decls, 0⟩)
    (here : data = .ofNat (A.address ⟨0, n, 0⟩)) (sizes : ∀ fn ∈ functions, B.size fn.name = fn.frame.size.toNatClampNeg)
    (frames : ∀ fn ∈ functions, (slotSizes fn.frame.slots).sum < 2 ^ 63)
    (fits : ∀ d ∈ Reference.allVariables ⟨decls, 0⟩, 4 * Reference.words d < 2 ^ 63) :
    ∃ homes, final = before ++ homes ∧ Bindings.Parallel (Means B A level memory) homes (Reference.bindGlobals n decls) := by
  induction h generalizing n with
  | nil => exact ⟨[], (List.append_nil _).symm, .nil⟩
  | @var globals final pc stop data bound d decls functions _ ih =>
    obtain ⟨found, rest'⟩ := getElem?_of_drop rest
    have size : (A 0).sizes[n]? = some (4 * Reference.words d) := by
      rw [area]
      simp only [Area.ofGlobals, List.getElem?_map, found, Option.map_some]
    have next : A.address ⟨0, n + 1, 0⟩ = A.address ⟨0, n, 0⟩ + 4 * Reference.words d := by
      simp only [Layout.address, Area.offset_succ size]
      omega
    have here' : data + .ofNat (Reference.words d) * wordSize = .ofNat (A.address ⟨0, n + 1, 0⟩) := by
      rw [here, next, Nat.mul_comm, Int64.ofNat_add, Int64.ofNat_mul]
      rfl
    obtain ⟨homes, same, means⟩ := ih whole rest' here' sizes frames fun d' member => fits d' (List.mem_cons_of_mem _ member)
    refine ⟨(d.id.name, Translation.varHome d (.global data)) :: homes, by rw [same, List.append_assoc]; rfl, ?_⟩
    have spans : Spans A level (.global n) (Reference.words d) 0 n := ⟨Nat.zero_le _, by rw [area]; rfl, size⟩
    rw [Reference.bindGlobals, bind_eq]
    exact .cons (.variable ⟨rfl, rfl, here⟩ spans) means
  | @fn globals final pc last stop data bound f decls fn functions first others ih =>
    obtain ⟨homes, same, means⟩ := ih whole rest here (fun g member => sizes g (by simp [member]))
      (fun g member => frames g (by simp [member])) fun d member => fits d (List.mem_append_right _ member)
    have known : globals ++ [functionHome f pc] <+: B.homes := by
      rw [← whole]
      exact DeclsCode.isPrefix others
    have function := FunctionCode.functionAt first known (sizes fn (by simp)) (frames fn (by simp))
      fun d member => fits d (List.mem_append_left _ member)
    exact ⟨functionHome f pc :: homes, by rw [same, List.append_assoc]; rfl, .cons (.function function) means⟩

end Declarations

section Programs

variable {s : Source} {p : Program} {entry : Nat} {globals : Bindings Home}

def Build.ofProgram (globals : Bindings Home) (fits : Reference.Fits s p) : Build where
  program := p
  homes := globals
  names := Reference.globalNames s
  data := .ofGlobals (Reference.globalVariables s)
  size := Reference.frameBytes p
  short := fits.code

theorem ProgramCode.known (code : ProgramCode s p entry globals) (wellTyped : Typing.WellTyped s)
    (fits : Reference.Fits s p) : (Build.ofProgram globals fits).Known := by
  intro A level memory area
  obtain ⟨_, declared, _⟩ := wellTyped
  have distinct : (p.functions.map (·.name)).Nodup := by
    rw [DeclsCode.map_name code.decls]
    exact (DeclsOk.functionNames_nodup declared).1
  have sizes : ∀ fn ∈ p.functions, Reference.frameBytes p fn.name = fn.frame.size.toNatClampNeg := by
    intro fn member
    rw [Reference.frameBytes, find?_key distinct member]
    rfl
  have start : dataBase = .ofNat (A.address ⟨0, 0, 0⟩) := by
    rw [Layout.address, area]
    rfl
  obtain ⟨homes, same, means⟩ : ∃ homes, globals = [(Symbol.output.name, .output)] ++ homes ∧
      Bindings.Parallel (Means (.ofProgram globals fits) A level memory) homes (Reference.bindGlobals 0 s.decls) :=
    DeclsCode.means (B := .ofProgram globals fits) code.decls rfl area rfl start sizes fits.frames fits.variablesIn
  have whole : Bindings.Parallel (Means (.ofProgram globals fits) A level memory)
      ([(Symbol.output.name, .output)] ++ homes) (Reference.globalNames s) := .cons .output means
  rwa [← same] at whole

theorem sum_sizes_ofGlobals (vars : List VarDecl) :
    (Area.ofGlobals vars).sizes.sum = 4 * (vars.map Reference.words).sum := by
  induction vars with
  | nil => rfl
  | cons d rest ih =>
    simp only [Area.ofGlobals, List.map_cons, List.sum_cons] at ih ⊢
    omega

theorem Grounded.start (fits : Reference.Fits s p) :
    Grounded (.ofProgram globals fits) (fun _ => .ofGlobals (Reference.globalVariables s)) 0 stackBase.toNatClampNeg := by
  have ends : (Area.ofGlobals (Reference.globalVariables s)).top ≤ stackBase.toNatClampNeg := by
    rw [Area.top, sum_sizes_ofGlobals]
    exact fits.globals
  have bound : stackBase.toNatClampNeg < 2 ^ 63 := by decide
  refine ⟨⟨fun k lt => absurd lt (Nat.not_lt_zero k), Nat.lt_of_le_of_lt ends bound, ?_, ?_⟩, rfl, ends⟩
  · intro k le i b role
    cases role
    exact (Nat.le_zero.mp le).symm
  · intro k _ i j b role role'
    cases role
    exact (Block.global.inj (Role.cell.inj role')).symm

theorem Cells.start {vars : List VarDecl} : Layout.Cells (fun _ => .ofGlobals vars) 0 .initial {} := by
  intro s _ b role w found
  cases role
  cases found
  exact Memory.read_empty _

structure Finished (p : Program) (σ : Store) (m : Machine) : Prop where
  program : m.program = p
  running : m.halted = false
  pc : m.pc = p.code.size
  output : m.output.toList = σ.output

theorem ProgramCode.follows (code : ProgramCode s p entry globals) (wellTyped : Typing.WellTyped s)
    (fits : Reference.Fits s p) (fuel : Nat) :
    Follows { program := p } (fun _ => Finished p) ((Reference.run (Reference.frameBytes p) fuel s).run .initial) := by
  have known := ProgramCode.known code wellTyped fits
  have ground : Grounded (.ofProgram globals fits) _ 0 _ := .start fits
  obtain ⟨b, found, means⟩ := (known (fun _ => .ofGlobals (Reference.globalVariables s)) 0 {} rfl).lookup_some code.main
  obtain ⟨f, fn, last, seen, rfl, function, type, types⟩ := means.isFunction
  have found : (Reference.globalNames s).lookup Codegen.mainName = some (.function f) := found
  have isEntry := function.code.isEntry
  have run := Machine.step_call (m := { program := p }) (n := 0) ⟨rfl, code.start⟩ (.inl rfl)
    (Nat.lt_trans isEntry.lt_size fits.code) (show 0 < 2 ^ 63 by decide) isEntry.isEntry (Nat.zero_le _)
  have entering : Entering (.ofProgram globals fits) (fun _ => .ofGlobals (Reference.globalVariables s)) 0
      stackBase.toNatClampNeg entry [] ⟨1, .absent, stackBase, stackBase, 0⟩ [] .initial
      ((Machine.called { program := p } 1 0 .absent).moved entry) :=
    ⟨rfl, rfl, rfl, rfl, Cells.start, rfl, rfl, rfl, by decide, rfl, .inl rfl⟩
  simp only [Reference.run, found]
  refine .step rfl run rfl (((known.faithful fuel).call ground function (by rw [types]; exact .nil) entering).bind ?_)
  rintro d σ _ ⟨c, w, back, _, rfl⟩
  have here : (c.moved 1).At 1 { op := .jp, a1 := .label p.code.size } := ⟨rfl, by
    change c.program.code[1]? = _
    rw [back.program]
    exact code.halt⟩
  have jump := Machine.step_jump here
  rw [Operand.value_label fits.code] at jump
  exact .step back.running jump rfl (.ok ⟨back.program, back.running, rfl, back.output⟩)

end Programs

/-- Whether the runs of a program end as an evaluation does and print the same, if nothing interrupts
    them and the limit on their steps is large enough. An evaluation that leaves an array, reads a
    word that was not written, does not fit into the storage or goes on for too long says nothing. -/
def Program.Mirrors (p : Program) : EStateM.Result Halt Store Unit → Prop
  | .ok _ σ =>
    ∃ steps : Nat, ∀ (maxSteps : Int) (tracing : Bool), steps < maxSteps →
      let r := Run.ofProgram p maxSteps Run.never tracing
      r.failure = none ∧ r.machine.halted = true ∧ r.machine.output.toList = σ.output
  | .error .divisionByZero σ =>
    ∃ (steps : Nat) (pc : Int), ∀ (maxSteps : Int) (tracing : Bool), steps < maxSteps →
      let r := Run.ofProgram p maxSteps Run.never tracing
      r.failure = some (.error ⟨.fault, pc, MachineFault.divisionByZero.message, none⟩) ∧
        r.machine.output.toList = σ.output
  | .error .illFormed _ => False
  | .error _ _ => True

theorem Follows.mirrors {p : Program} {outcome : EStateM.Result Halt Store Unit}
    (h : Follows { program := p } (fun _ => Finished p) outcome) : p.Mirrors outcome := by
  cases outcome with
  | ok a σ =>
    obtain ⟨m, runs, finished⟩ := h
    refine ⟨m.steps, fun maxSteps tracing room => ?_⟩
    obtain ⟨failure, machine⟩ : (Run.ofProgram p maxSteps Run.never tracing).failure = none ∧ _ :=
      Run.ofProgram_of_halts runs finished.program finished.running finished.pc room
    simp only [machine]
    exact ⟨failure, trivial, finished.output⟩
  | error halt σ =>
    cases halt with
    | divisionByZero =>
      obtain ⟨m, m', runs, running, output, fails⟩ := h
      refine ⟨m.steps, m.pc, fun maxSteps tracing room => ?_⟩
      obtain ⟨failure, machine⟩ : (Run.ofProgram p maxSteps Run.never tracing).failure = some _ ∧ _ :=
        Run.ofProgram_of_fails runs running fails room
      simp only [machine]
      exact ⟨failure, output⟩
    | illFormed => exact h
    | outside | unwritten | noRoom | timeout => trivial

/-- A text that compiles without diagnostics gives a program that does what the tree means. -/
theorem mirrors_of_compiled {text : Text} {c : Compilation} (compiles : compile text = .ok c) (ok : c.ok = true)
    (fits : Reference.Fits c.parsed.source c.program) (fuel : Nat) :
    c.program.Mirrors ((Reference.run (Reference.frameBytes c.program) fuel c.parsed.source).run .initial) := by
  obtain ⟨g, assembly, run, _, rfl⟩ := generated_of_compile compiles
  have clean : (reported text g).hasErrors = false := by simpa [Compilation.ok, compiled] using ok
  obtain ⟨wellTyped, entry, globals, code⟩ := programCode_of_clean run clean
  exact (ProgramCode.follows code wellTyped fits fuel).mirrors

def printed? : EStateM.Result Halt Store Unit → Option (List Word)
  | .ok _ σ => some σ.output
  | .error _ _ => none

theorem mirrors_of_compiled_squares :
    ∃ c, compile squaresText = .ok c ∧ c.ok = true ∧ Reference.Fits c.parsed.source c.program ∧
      ∃ outcome, (Reference.run (Reference.frameBytes c.program) 40 c.parsed.source).run .initial = outcome ∧
        printed? outcome = some [5] ∧ c.program.Mirrors outcome := by
  have checked : (compile squaresText).toOption.any (fun c => c.ok && decide (Reference.Fits c.parsed.source c.program) &&
      printed? ((Reference.run (Reference.frameBytes c.program) 40 c.parsed.source).run .initial) == some [5]) = true := by
    decide +kernel
  cases compiles : compile squaresText with
  | error e =>
    rw [compiles] at checked
    cases checked
  | ok c =>
    rw [compiles] at checked
    simp only [Except.toOption, Option.any_some, Bool.and_eq_true, decide_eq_true_eq, beq_iff_eq] at checked
    obtain ⟨⟨ok, fits⟩, output⟩ := checked
    exact ⟨c, rfl, ok, fits, _, rfl, output, mirrors_of_compiled compiles ok fits 40⟩

end MiniC
