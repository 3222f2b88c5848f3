import MiniC.Proofs.Generation.WellFormed
import MiniC.Proofs.Machine.Runs
import MiniC.Proofs.Storage

namespace MiniC

open Reference (Block Store Halt Denotation Binding EvalM)
open Translation (Temp FunctionCode)

/-- Whether a machine gets to a division by zero, having printed what the evaluation has. -/
def Machine.Fails (m : Machine) (σ : Store) : Prop :=
  ∃ m' m'', m.Runs m' ∧ m'.halted = false ∧ m''.output.toList = σ.output ∧
    Machine.step m' = .error (.error ⟨.fault, m'.pc, MachineFault.divisionByZero.message, none⟩) m''

/-- Whether a machine follows an evaluation with the given outcome. An evaluation of code that was
    accepted never finds that its tree breaks a static rule. -/
def Follows {α : Type} (m : Machine) (post : α → Store → Machine → Prop) : EStateM.Result Halt Store α → Prop
  | .ok a σ => ∃ m', m.Runs m' ∧ post a σ m'
  | .error .divisionByZero σ => m.Fails σ
  | .error .illFormed _ => False
  | .error _ _ => True

namespace Follows

variable {α β : Type} {m m' : Machine} {σ : Store} {post : α → Store → Machine → Prop}

theorem ok {a : α} (h : post a σ m) : Follows m post (.ok a σ) :=
  ⟨m, .refl, h⟩

theorem mono {post' : α → Store → Machine → Prop} {outcome : EStateM.Result Halt Store α} (h : Follows m post outcome)
    (implies : ∀ a σ m, post a σ m → post' a σ m) : Follows m post' outcome := by
  cases outcome with
  | ok a σ =>
    obtain ⟨m', runs, holds⟩ := h
    exact ⟨m', runs, implies a σ m' holds⟩
  | error halt σ => cases halt <;> exact h

theorem after {outcome : EStateM.Result Halt Store α} (runs : m.Runs m') (h : Follows m' post outcome) :
    Follows m post outcome := by
  cases outcome with
  | ok a σ =>
    obtain ⟨m'', runs', holds⟩ := h
    exact ⟨m'', runs.trans runs', holds⟩
  | error halt σ =>
    cases halt with
    | divisionByZero =>
      obtain ⟨m₁, m₂, runs', fails⟩ := h
      exact ⟨m₁, m₂, runs.trans runs', fails⟩
    | illFormed => exact h
    | outside | unwritten | noRoom | timeout => trivial

theorem bind {x : EvalM α} {f : α → EvalM β} {next : β → Store → Machine → Prop} (first : Follows m post (x.run σ))
    (second : ∀ a σ' m', post a σ' m' → Follows m' next ((f a).run σ')) : Follows m next ((x >>= f).run σ) := by
  rw [EStateM.run_bind]
  cases run : x.run σ with
  | ok a σ' =>
    rw [run] at first
    obtain ⟨m', runs, holds⟩ := first
    exact (second a σ' m' holds).after runs
  | error halt σ' =>
    rw [run] at first
    cases halt <;> exact first

theorem step {outcome : EStateM.Result Halt Store α} (running : m.halted = false) (run : Machine.step m = .ok () m')
    (counted : m'.steps = m.steps + 1) (h : Follows m' post outcome) : Follows m post outcome :=
  h.after (.single running run counted)

end Follows

structure Build where
  program : Program
  /-- The globals, as the code uses them and as the evaluation sees them. -/
  homes : Bindings Home
  names : Reference.Layer
  data : Area
  size : Text → Nat
  short : program.code.size < 2 ^ 63

def slotSizes (frame : List Slot) : List Nat :=
  frame.map (·.size.toNatClampNeg)

def declaration (frame : List Slot) (slot : Nat) : Nat :=
  (frame.take slot).countP (·.kind = .var)

def isArrayParam (params : List Param) (position : Nat) : Bool :=
  params[position]?.any fun
    | .unnamed _ => false
    | .named _ _ isArray => isArray

def Area.ofCall (level base : Nat) (params : List Param) (frame : List Slot) : Area where
  base := base
  sizes := slotSizes frame
  role i :=
    match frame[i]? with
    | none => .scratch
    | some s =>
      match s.kind with
      | .param => if isArrayParam params i then .pointer else .cell (.param level i)
      | .var => .cell (.var level (declaration frame i))
      | .ret | .temp => .scratch

/-- Whether an operand names a word directly, in a call whose frame starts at an address. -/
structure Names (A : Layout) (fp : Nat) (o : Operand) (s : Spot) : Prop where
  storage : o.isStorage = true
  direct : o.indirect = false
  address : (if o.kind = .global then o.value else .ofNat fp + o.value) = .ofNat (A.address s)

structure Spans (A : Layout) (level : Nat) (b : Block) (length k slot : Nat) : Prop where
  le : k ≤ level
  role : (A k).role slot = .cell b
  size : (A k).sizes[slot]? = some (4 * length)

theorem Spans.live {A : Layout} {level : Nat} {b : Block} {length k slot index : Nat} (spans : Spans A level b length k slot)
    (inside : index < length) : A.Live level ⟨k, slot, index⟩ :=
  ⟨spans.le, 4 * length, spans.size, show 4 * index + 4 ≤ 4 * length by omega⟩

/-- Whether an expression's operand, in a call with `bound` slots taken, stands for what the
    expression denotes. -/
inductive Holds (A : Layout) (level : Nat) (frame : List Slot) (memory : Memory) (bound : Nat) :
    Ty → Denotation → Operand → Prop where
  | constant {w : Word} : Holds A level frame memory bound .int (.word w) (.imm w)
  | temp {i : Nat} {o : Operand} :
    Temp frame i o → i < bound → Holds A level frame memory bound .int (.word (A.read memory ⟨level, i, 0⟩)) o
  | cell {s : Spot} {b : Block} {o : Operand} :
    Names A (A level).base o s → A.Live level s → A.role s = .cell b →
      Holds A level frame memory bound .int (.cell b s.index) o
  | element {i : Nat} {t : Operand} {s : Spot} {b : Block} :
    Temp frame i t → i < bound → A.read memory ⟨level, i, 0⟩ = .ofNat (A.address s) → A.Live level s →
      A.role s = .cell b → Holds A level frame memory bound .int (.cell b s.index) t.deref
  | array {b : Block} {length : Nat} {o : Operand} : Holds A level frame memory bound .array (.array b length) o
  | real {o : Operand} : Holds A level frame memory bound .real .nothing o
  | void {o : Operand} : Holds A level frame memory bound .void .nothing o

theorem Operand.Readable.isAbsent {o : Operand} (readable : o.Readable) : o.isAbsent = false := by
  rcases readable with imm | storage
  · simp [Operand.isAbsent, imm]
  · rcases o with ⟨kind, value, indirect⟩
    cases kind <;> first | rfl | cases storage

section Names

variable {A : Layout} {m : Machine} {fp : Nat} {o : Operand} {s : Spot}

theorem Names.location (names : Names A fp o s) (frame : m.fp = .ofNat fp) : m.location o = .ofNat (A.address s) := by
  simp only [Machine.location, names.direct, Bool.false_eq_true, if_false, frame]
  exact names.address

theorem Names.readable (names : Names A fp o s) : o.Readable :=
  .inr names.storage

theorem Names.word (names : Names A fp o s) (frame : m.fp = .ofNat fp) : m.word o = A.read m.memory s := by
  have stored : ¬ o.kind = .imm := by
    intro imm
    have storage := names.storage
    simp [Operand.isStorage, imm] at storage
  rw [Machine.word, if_neg stored, names.location frame]
  rfl

theorem Names.stored (names : Names A fp o s) (frame : m.fp = .ofNat fp) (w : Word) :
    m.stored o w = { m with memory := A.write m.memory s w } := by
  rw [Machine.stored, names.location frame]
  rfl

theorem Names.location_deref (names : Names A fp o s) (frame : m.fp = .ofNat fp) :
    m.location o.deref = A.read m.memory s := by
  have direct := names.location frame
  simp only [Machine.location, names.direct, Bool.false_eq_true, if_false] at direct
  change m.memory.read (if o.kind = .global then o.value else m.fp + o.value) = _
  rw [direct]
  rfl

end Names

/-- A layout in which the storage in use ends before an address. -/
structure Grounded (B : Build) (A : Layout) (level top : Nat) : Prop where
  sound : A.Sound level
  data : A 0 = B.data
  ends : (A level).top ≤ top

/-- A call at hand, and the layout of its frame. -/
structure CallFrame (B : Build) (A : Layout) (level top : Nat) (params : List Param) (frame : List Slot) : Prop
    extends Grounded B A level top where
  area : A level = .ofCall level (A level).base params frame
  offsets : ∀ (i : Nat) (s : Slot), frame[i]? = some s → s.offset = .ofNat ((slotSizes frame).take i).sum

/-- Whether the state of a machine agrees with a store, in the middle of a call. -/
structure Agrees (B : Build) (A : Layout) (level top : Nat) (σ : Store) (m : Machine) : Prop where
  program : m.program = B.program
  running : m.halted = false
  fp : m.fp = .ofNat (A level).base
  sp : m.sp = .ofNat top
  cells : A.Cells level σ m.memory
  output : m.output.toList = σ.output

/-- What a part of the code of a call leaves alone. It may use the slots from one up to another. -/
structure Stays (A : Layout) (level lo hi : Nat) (m m' : Machine) : Prop where
  keeps : A.Keeps level lo hi m.memory m'.memory
  args : m'.args = m.args
  activations : m'.activations = m.activations

namespace Stays

variable {A : Layout} {level lo hi : Nat} {m m' m'' : Machine}

theorem refl : Stays A level lo hi m m :=
  ⟨.refl, rfl, rfl⟩

theorem trans (first : Stays A level lo hi m m') (second : Stays A level lo hi m' m'') : Stays A level lo hi m m'' :=
  ⟨first.keeps.trans second.keeps, second.args.trans first.args, second.activations.trans first.activations⟩

theorem mono {lo' hi' : Nat} (h : Stays A level lo hi m m') (le : lo' ≤ lo) (le' : hi ≤ hi') : Stays A level lo' hi' m m' :=
  ⟨h.keeps.mono le le', h.args, h.activations⟩

end Stays

section Slots

variable {B : Build} {A : Layout} {level top : Nat} {params : List Param} {frame : List Slot} {i : Nat} {s : Slot}

theorem CallFrame.size (h : CallFrame B A level top params frame) (found : frame[i]? = some s) :
    (A level).sizes[i]? = some s.size.toNatClampNeg := by
  rw [h.area]
  simp [Area.ofCall, slotSizes, found]

theorem CallFrame.names (h : CallFrame B A level top params frame) (found : frame[i]? = some s) :
    Names A (A level).base (.slot s.offset) ⟨level, i, 0⟩ := by
  have offset : (A level).offset i = ((slotSizes frame).take i).sum := by
    rw [h.area]
    rfl
  refine ⟨rfl, rfl, ?_⟩
  change Int64.ofNat (A level).base + s.offset = .ofNat (A.address ⟨level, i, 0⟩)
  rw [h.offsets i s found, ← Int64.ofNat_add, ← offset]
  rfl

theorem CallFrame.role_temp (h : CallFrame B A level top params frame) (found : frame[i]? = some s) (kind : s.kind = .temp) :
    A.role ⟨level, i, 0⟩ = .scratch := by
  simp only [Layout.role]
  rw [h.area]
  simp only [Area.ofCall, found, kind]

end Slots

section Temps

variable {B : Build} {A : Layout} {level top : Nat} {params : List Param} {frame : List Slot} {i : Nat} {o : Operand}

theorem CallFrame.live_temp (h : CallFrame B A level top params frame) (temp : Temp frame i o) :
    A.Live level ⟨level, i, 0⟩ := by
  obtain ⟨s, found, _, size, _⟩ := temp
  refine ⟨Nat.le_refl _, s.size.toNatClampNeg, h.size found, ?_⟩
  rw [size]
  change 4 ≤ wordSize.toNatClampNeg
  decide

theorem CallFrame.scratch_temp (h : CallFrame B A level top params frame) (temp : Temp frame i o) :
    A.role ⟨level, i, 0⟩ = .scratch := by
  obtain ⟨s, found, kind, _⟩ := temp
  exact h.role_temp found kind

theorem CallFrame.names_temp (h : CallFrame B A level top params frame) (temp : Temp frame i o) :
    Names A (A level).base o ⟨level, i, 0⟩ := by
  obtain ⟨s, found, _, _, rfl⟩ := temp
  exact h.names found

theorem CallFrame.read_temp (h : CallFrame B A level top params frame)
    (temp : Temp frame i o) {lo hi : Nat} {memory memory' : Memory}
    (keeps : A.Keeps level lo hi memory memory') (below : i < lo) :
    A.read memory' ⟨level, i, 0⟩ = A.read memory ⟨level, i, 0⟩ :=
  keeps _ (h.live_temp temp) (.inr ⟨h.scratch_temp temp, fun _ => .inl below⟩)

end Temps

namespace Holds

variable {B : Build} {A : Layout} {level top : Nat} {params : List Param} {frame : List Slot} {bound : Nat} {type : Ty}
  {d : Denotation} {x : Operand} {σ : Store} {m : Machine}

theorem mono {bound' : Nat} {memory : Memory} (holds : Holds A level frame memory bound type d x)
    (le : bound ≤ bound') : Holds A level frame memory bound' type d x := by
  cases holds with
  | constant => exact .constant
  | temp temp below => exact .temp temp (Nat.lt_of_lt_of_le below le)
  | cell names live role => exact .cell names live role
  | element temp below value live role => exact .element temp (Nat.lt_of_lt_of_le below le) value live role
  | array => exact .array
  | real => exact .real
  | void => exact .void

/-- What an operand stands for does not change while later slots are filled. -/
theorem keep (h : CallFrame B A level top params frame) {lo hi : Nat} {memory memory' : Memory}
    (holds : Holds A level frame memory bound type d x) (keeps : A.Keeps level lo hi memory memory')
    (le : bound ≤ lo) : Holds A level frame memory' bound type d x := by
  cases holds with
  | constant => exact .constant
  | temp temp below =>
    rw [← h.read_temp temp keeps (Nat.lt_of_lt_of_le below le)]
    exact .temp temp below
  | cell names live role => exact .cell names live role
  | element temp below value live role =>
    rw [← h.read_temp temp keeps (Nat.lt_of_lt_of_le below le)] at value
    exact .element temp below value live role
  | array => exact .array
  | real => exact .real
  | void => exact .void

theorem readable (h : CallFrame B A level top params frame) {memory : Memory}
    (holds : Holds A level frame memory bound .int d x) :
    x.Readable := by
  cases holds with
  | constant => exact .inl rfl
  | temp temp => exact (h.names_temp temp).readable
  | cell names => exact names.readable
  | element temp => exact .inr (h.names_temp temp).storage

theorem spot (h : CallFrame B A level top params frame) (agrees : Agrees B A level top σ m) {b : Block} {index : Nat}
    (holds : Holds A level frame m.memory bound .int (.cell b index) x) :
    ∃ s, A.Live level s ∧ A.role s = .cell b ∧ s.index = index ∧ x.isStorage = true ∧
      m.location x = .ofNat (A.address s) := by
  cases holds with
  | cell names live role => exact ⟨_, live, role, rfl, names.storage, names.location agrees.fp⟩
  | element temp _ value live role =>
    have names := h.names_temp temp
    exact ⟨_, live, role, rfl, names.storage, (names.location_deref agrees.fp).trans value⟩

theorem read (h : CallFrame B A level top params frame) (agrees : Agrees B A level top σ m)
    (holds : Holds A level frame m.memory bound .int d x) :
    Follows m (fun w σ' m' => σ = σ' ∧ m = m' ∧ m.word x = w) ((Reference.read d).run σ) := by
  cases d with
  | word w =>
    refine .ok ⟨rfl, rfl, ?_⟩
    cases holds with
    | constant => rfl
    | temp temp => exact (h.names_temp temp).word agrees.fp
  | cell b index =>
    obtain ⟨s, live, role, rfl, storage, location⟩ := holds.spot h agrees
    simp only [Reference.read, EStateM.run_bind, EStateM.run_get]
    cases found : σ.cells b s.index with
    | none => trivial
    | some w =>
      refine .ok ⟨rfl, rfl, ?_⟩
      have stored : ¬ x.kind = .imm := by
        intro imm
        simp [Operand.isStorage, imm] at storage
      rw [Machine.word, if_neg stored, location]
      exact agrees.cells s live b role w found
  | array | nothing => cases holds

end Holds

/-- Whether the code of a function starts at an index of a program and its frame fits. -/
structure FunctionAt (B : Build) (entry : Nat) (f : FunDecl) (fn : Function) (last : Nat) (globals : Bindings Home) :
    Prop where
  code : FunctionCode B.program.code globals f fn entry last
  known : globals <+: B.homes
  size : fn.frame.size = .ofNat (B.size f.id.name)
  sum : (slotSizes fn.frame.slots).sum = B.size f.id.name
  offsets : ∀ (i : Nat) (s : Slot), fn.frame.slots[i]? = some s →
    s.offset = .ofNat ((slotSizes fn.frame.slots).take i).sum
  variablesIn : ∀ d ∈ f.vars ++ Reference.variablesAll f.body, 4 * Reference.words d < 2 ^ 63

/-- Whether a name's use in the code means what the name stands for in an evaluation. -/
inductive Means (B : Build) (A : Layout) (level : Nat) (memory : Memory) : Home → Binding → Prop where
  | var {o : Operand} {s : Spot} {b : Block} :
    Names A (A level).base o s → A.Live level s → A.role s = .cell b → s.index = 0 →
      Means B A level memory (.var o) (.scalar b)
  | array {o : Operand} {b : Block} {length k slot : Nat} :
    Names A (A level).base o ⟨k, slot, 0⟩ → Spans A level b length k slot →
      Means B A level memory (.array o false) (.array b length)
  | pointer {o : Operand} {s : Spot} {b : Block} {length k slot : Nat} :
    Names A (A level).base o s → A.Live level s → A.role s = .pointer →
      A.read memory s = .ofNat (A.address ⟨k, slot, 0⟩) → Spans A level b length k slot →
      Means B A level memory (.array o true) (.array b length)
  | function {entry last : Nat} {f : FunDecl} {fn : Function} {globals : Bindings Home} :
    FunctionAt B entry f fn last globals →
      Means B A level memory (.function entry f.type (Typing.paramTypes f.params.toList)) (.function f)
  | output : Means B A level memory .output .output

def Reads (B : Build) (A : Layout) (level : Nat) (memory : Memory) (Γ : Scoped Home) (env : Reference.Env) : Prop :=
  ∀ name home, Γ.find? name = some home → ∃ b, env.find? name = some b ∧ Means B A level memory home b

theorem bind_eq (d : VarDecl) (b : Block) : Reference.bind d b = (d.id.name, (Reference.bind d b).2) := by
  rcases d with ⟨type, id, extent⟩
  cases extent <;> rfl

theorem Means.variable {B : Build} {A : Layout} {level : Nat} {memory : Memory} {d : VarDecl} {o : Operand} {b : Block}
    {k slot : Nat} (names : Names A (A level).base o ⟨k, slot, 0⟩) (spans : Spans A level b (Reference.words d) k slot) :
    Means B A level memory (Translation.varHome d o) (Reference.bind d b).2 := by
  rcases d with ⟨type, id, extent⟩
  cases extent with
  | scalar => exact .var names (spans.live Nat.zero_lt_one) spans.role rfl
  | array size => exact .array names spans

theorem Reads.cons {B : Build} {A : Layout} {level : Nat} {memory : Memory} {homes : Bindings Home} {Γ : Scoped Home}
    {names : Reference.Layer} {env : Reference.Env} (own : Bindings.Parallel (Means B A level memory) homes names)
    (rest : Reads B A level memory Γ env) : Reads B A level memory (homes :: Γ) (names :: env) := by
  intro name home found
  rw [Scoped.find?_cons, Option.or_eq_some_iff] at found
  rw [Scoped.find?_cons]
  rcases found with found | ⟨absent, found⟩
  · obtain ⟨b, found', means⟩ := own.lookup_some found
    exact ⟨b, by rw [found', Option.some_or], means⟩
  · rw [own.lookup_none absent, Option.none_or]
    exact rest name home found

theorem Means.keep {B : Build} {A : Layout} {level lo hi : Nat} {memory memory' : Memory} {home : Home} {b : Binding}
    (means : Means B A level memory home b) (keeps : A.Keeps level lo hi memory memory') :
    Means B A level memory' home b := by
  cases means with
  | var names live role index => exact .var names live role index
  | array names spans => exact .array names spans
  | pointer names live role value spans =>
    exact .pointer names live role ((keeps _ live (.inl role)).trans value) spans
  | function known => exact .function known
  | output => exact .output

theorem Reads.keep {B : Build} {A : Layout} {level lo hi : Nat} {memory memory' : Memory} {Γ : Scoped Home}
    {env : Reference.Env} (reads : Reads B A level memory Γ env) (keeps : A.Keeps level lo hi memory memory') :
    Reads B A level memory' Γ env := by
  intro name home found
  obtain ⟨b, found', means⟩ := reads name home found
  exact ⟨b, found', means.keep keeps⟩

section Steps

variable {B : Build} {A : Layout} {level top : Nat} {params : List Param} {frame : List Slot} {σ : Store} {m : Machine}
  {lo hi : Nat}

theorem Agrees.moved (agrees : Agrees B A level top σ m) (next : Int) : Agrees B A level top σ (m.moved next) :=
  ⟨agrees.program, agrees.running, agrees.fp, agrees.sp, agrees.cells, agrees.output⟩

theorem Stays.moved (next : Int) : Stays A level lo hi m (m.moved next) :=
  ⟨.refl, rfl, rfl⟩

theorem Follows.goto {α : Type} {post : α → Store → Machine → Prop} {outcome : EStateM.Result Halt Store α} {next : Int}
    (agrees : Agrees B A level top σ m) (run : Machine.step m = .ok () (m.moved next))
    (later : Follows (m.moved next) post outcome) : Follows m post outcome :=
  .step agrees.running run rfl later

theorem Agrees.fill {i : Nat} {t : Operand} (h : CallFrame B A level top params frame) (agrees : Agrees B A level top σ m)
    (temp : Temp frame i t) (w : Word) (next : Int) :
    Agrees B A level top σ ((m.stored t w).moved next) ∧ Stays A level i (i + 1) m ((m.stored t w).moved next) ∧
      A.read ((m.stored t w).moved next).memory ⟨level, i, 0⟩ = w := by
  have live := h.live_temp temp
  have scratch := h.scratch_temp temp
  rw [(h.names_temp temp).stored agrees.fp]
  refine ⟨?_, ⟨Layout.Keeps.write_scratch h.sound live scratch rfl, rfl, rfl⟩, Layout.read_write_self⟩
  exact ⟨agrees.program, agrees.running, agrees.fp, agrees.sp, agrees.cells.write_scratch h.sound live scratch,
    agrees.output⟩

theorem Follows.fill {α : Type} {post : α → Store → Machine → Prop} {outcome : EStateM.Result Halt Store α} {next : Int}
    {i : Nat} {t : Operand} {w : Word} (h : CallFrame B A level top params frame) (agrees : Agrees B A level top σ m)
    (temp : Temp frame i t) (run : Machine.step m = .ok () ((m.stored t w).moved next))
    (later : ∀ m', m'.pc = next → Agrees B A level top σ m' → Stays A level i (i + 1) m m' →
      A.read m'.memory ⟨level, i, 0⟩ = w → Follows m' post outcome) : Follows m post outcome := by
  obtain ⟨agrees', stays, value⟩ := agrees.fill h temp w next
  exact .step agrees.running run rfl (later _ rfl agrees' stays value)

theorem Follows.store {α : Type} {post : α → Store → Machine → Prop} {outcome : EStateM.Result Halt Store α} {next : Int}
    {bound index : Nat} {x : Operand} {b : Block} {w : Word} (h : CallFrame B A level top params frame)
    (agrees : Agrees B A level top σ m) (holds : Holds A level frame m.memory bound .int (.cell b index) x)
    (run : Machine.step m = .ok () ((m.stored x w).moved next))
    (later : ∀ m', m'.pc = next → Agrees B A level top (σ.write b index w) m' → (∀ lo hi, Stays A level lo hi m m') →
      Follows m' post outcome) : Follows m post outcome := by
  obtain ⟨s, live, role, rfl, _, location⟩ := holds.spot h agrees
  have stored : m.stored x w = { m with memory := A.write m.memory s w } := by
    rw [Machine.stored, location]
    rfl
  rw [stored] at run
  refine .step agrees.running run rfl (later _ rfl ?_ fun lo hi => ?_)
  · exact ⟨agrees.program, agrees.running, agrees.fp, agrees.sp, agrees.cells.write h.sound live role, agrees.output⟩
  · exact ⟨Layout.Keeps.write_cell h.sound live role, rfl, rfl⟩

end Steps

end MiniC
