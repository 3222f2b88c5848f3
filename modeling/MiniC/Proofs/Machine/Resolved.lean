import MiniC.Assembly.Lower
import MiniC.Proofs.Machine.Transitions

namespace MiniC

structure Program.Resolved (p : Program) : Prop where
  operands : ∀ i ∈ p.code, Machine.badOperand? i = none
  known : ∀ i ∈ p.code, ∀ name, i.op ≠ .unknown name
  targets : ∀ i ∈ p.code, ∀ position, i.op.target? = some position →
    0 ≤ (i.operand position).value.toInt ∧ (i.operand position).value.toInt ≤ p.code.size
  calls : ∀ i ∈ p.code, i.op = .call → p.isEntry i.a1.value.toInt = true

namespace Assembly

open EStateM (run_bind run_pure run_get run_modify run_set)
open Machine (Takes badOperand? valueOperands storageOperands badOperand?_eq_none operands_of_badOperand?
  badOperand?_call badOperand?_ret)

/-- Whether an action succeeds only where a condition holds. -/
def Demands {α : Type} (P : Prop) (action : LowerM α) : Prop :=
  ∀ (s : Lowering) (a : α) (s' : Lowering), action.run s = .ok a s' → P

section

variable {α β : Type} {P Q : Prop} {x : LowerM α} {f : α → LowerM β}

theorem Demands.first (h : Demands P x) : Demands P (x >>= f) := by
  intro s b s' run
  rw [run_bind] at run
  cases first : x.run s with
  | ok a s₁ => exact h s a s₁ first
  | error e s₁ =>
    rw [first] at run
    cases run

theorem Demands.later (h : ∀ a, Demands P (f a)) : Demands P (x >>= f) := by
  intro s b s' run
  rw [run_bind] at run
  cases first : x.run s with
  | ok a s₁ =>
    rw [first] at run
    exact h a s₁ b s' run
  | error e s₁ =>
    rw [first] at run
    cases run

theorem Demands.always (h : P) : Demands P x :=
  fun _ _ _ _ => h

theorem Demands.mono (h : Demands P x) (weaker : P → Q) : Demands Q x :=
  fun s a s' run => weaker (h s a s' run)

theorem Demands.and (left : Demands P x) (right : Demands Q x) : Demands (P ∧ Q) x :=
  fun s a s' run => ⟨left s a s' run, right s a s' run⟩

theorem Demands.fail (error : Nat → LowerError) : Demands P (fail error : LowerM α) :=
  nofun

end

variable {o : Operand} {i : Instruction} {p : Program}

theorem Demands.slotMem (o : Operand) (t : Reg) : Demands (o.isStorage = true) (slotMem o t) := by
  unfold Assembly.slotMem
  rcases o with ⟨kind, value, indirect⟩
  cases kind with
  | slot | global => exact .always rfl
  | none | imm | label => exact .fail _

theorem Demands.storageMem (o : Operand) (t : Reg) : Demands (o.isStorage = true) (storageMem o t) :=
  (Demands.slotMem { o with indirect := false } t).first

theorem Demands.loadInto (r : Reg) (o : Operand) : Demands o.Readable (loadInto r o) := by
  unfold Assembly.loadInto
  split
  · next imm => exact .always (.inl imm)
  · exact (Demands.storageMem o r).first.mono .inr

theorem Demands.load (o : Operand) : Demands o.Readable (load o) :=
  .later fun r => (Demands.loadInto r o).first

theorem Demands.store (r : Reg) (o : Operand) : Demands (o.isStorage = true) (store r o) :=
  .later fun t => (Demands.storageMem o t).first

theorem Demands.binary (i : Instruction) (compute : Reg → Reg → Reg → List Instr) :
    Demands ((i.a1.Readable ∧ i.a2.Readable) ∧ i.a3.isStorage = true) (binary i compute) := by
  refine .and (.and ?_ ?_) ?_
  · exact (Demands.load i.a1).first
  · exact .later fun a => (Demands.load i.a2).first
  · exact .later fun a => .later fun b => .later fun d => .later fun _ => .store d i.a3

theorem Demands.storeAddress (i : Instruction) :
    Demands (i.a1.isStorage = true ∧ i.a3.isStorage = true) (storeAddress i) := by
  unfold Assembly.storeAddress
  split
  · exact .fail _
  · refine .later fun r => ?_
    rcases i with ⟨op, ⟨kind, value, indirect⟩, a2, a3⟩
    cases kind with
    | slot | global => exact .later fun _ => (Demands.store r a3).mono fun target => ⟨rfl, target⟩
    | none | imm | label => exact (Demands.fail _).first

theorem Demands.call (p : Program) (i : Instruction) : Demands (Takes i.a3) (call p i) := by
  refine .later fun _ => ?_
  split
  · next absent => exact .always (.inl absent)
  · have stores : Demands (Takes i.a3) (Assembly.store (.x 0) i.a3) := (Demands.store _ _).mono .inr
    split
    · exact .later fun _ => .later fun _ => stores
    · exact stores

theorem Demands.ret (i : Instruction) : Demands (i.a1.isAbsent = true ∨ i.a1.Readable) (ret i) := by
  refine .later fun s => ?_
  split
  · exact .fail _
  · split
    · next absent => exact .always (.inl absent)
    · exact .mono (Demands.loadInto (.x 0) i.a1).first .inr

theorem Demands.printWord (o : Operand) : Demands o.Readable (printWord o) :=
  (Demands.loadInto _ o).first

theorem Demands.instruction (p : Program) (i : Instruction) :
    Demands (badOperand? i = none ∧ ∀ name, i.op ≠ .unknown name) (instruction p i) := by
  refine .and ?_ ?_
  · suffices serves : Demands ((∀ o ∈ valueOperands i, o.Readable) ∧ ∀ o ∈ storageOperands i, o.isStorage = true)
        (Assembly.instruction p i) from serves.mono fun both => badOperand?_eq_none both.1 both.2
    unfold Assembly.instruction
    cases known : i.op
    case add | sub | mult | div | mod | eq | ne | lt | le | gt | ge | elem =>
      refine (Demands.binary i _).mono ?_
      rintro ⟨⟨left, right⟩, target⟩
      simp [valueOperands, storageOperands, known, left, right, target]
    case assign =>
      refine .and (.mono (Demands.load i.a1).first ?_) (.later fun r => (Demands.store r i.a2).mono ?_)
      · intro value
        simp [valueOperands, known, value]
      · intro target
        simp [storageOperands, known, target]
    case addr =>
      refine (Demands.storeAddress i).mono ?_
      rintro ⟨source, target⟩
      simp [valueOperands, storageOperands, known, source, target]
    case jpf | param =>
      refine .mono (Demands.load i.a1).first fun value => ?_
      simp [valueOperands, storageOperands, known, value]
    case print =>
      refine (Demands.printWord i.a1).mono fun value => ?_
      simp [valueOperands, storageOperands, known, value]
    case call =>
      exact (Demands.call p i).mono fun target => operands_of_badOperand? ((badOperand?_call known).mpr target)
    case ret =>
      exact (Demands.ret i).mono fun value => operands_of_badOperand? ((badOperand?_ret known).mpr value)
    case jp | func => exact .always (by simp [valueOperands, storageOperands, known])
    case unknown => exact .fail _
  · unfold Assembly.instruction
    cases known : i.op
    case unknown => exact .fail _
    all_goals exact .always (by simp)

theorem operands_of_instructionLines {index : Nat} {c : Context} {lines : List Line}
    (lowers : instructionLines p index i c = .ok lines) : badOperand? i = none ∧ ∀ name, i.op ≠ .unknown name := by
  unfold instructionLines at lowers
  split at lowers
  · next a s run => exact Demands.instruction p i _ a s run
  · cases lowers

theorem exists_of_bind {α β : Type} {x : Except LowerError α} {f : α → Except LowerError β} {b : β}
    (ok : (x >>= f) = .ok b) : ∃ a, x = .ok a ∧ f a = .ok b := by
  cases x with
  | error e => cases ok
  | ok a => exact ⟨a, rfl, ok⟩

theorem operands_of_body {targets : List Int} {index : Nat} {c : Context} {code : List Instruction} {lines : List Line}
    (lowers : body p targets index c code = .ok lines) :
    ∀ i ∈ code, badOperand? i = none ∧ ∀ name, i.op ≠ .unknown name := by
  induction code generalizing index c lines with
  | nil => simp
  | cons j rest ih =>
    rw [body] at lowers
    obtain ⟨⟨opening, inner⟩, _, lowers⟩ := exists_of_bind lowers
    obtain ⟨own, first, lowers⟩ := exists_of_bind lowers
    obtain ⟨later, others, _⟩ := exists_of_bind lowers
    exact List.forall_mem_cons.mpr ⟨operands_of_instructionLines first, ih others⟩

theorem targets_of_firstTargetError? {index : Nat} {code : List Instruction}
    (none : firstTargetError? p index code = none) :
    ∀ i ∈ code, ∃ n, targetError? p n i = .none := by
  induction code generalizing index with
  | nil => simp
  | cons j rest ih =>
    rw [firstTargetError?] at none
    split at none
    · cases none
    · next first => exact List.forall_mem_cons.mpr ⟨⟨index, first⟩, ih none⟩

theorem target_of_targetError? {n : Nat} {position : Position} (none : targetError? p n i = none)
    (jumps : i.op.target? = some position) :
    0 ≤ (i.operand position).value.toInt ∧ (i.operand position).value.toInt ≤ p.code.size ∧
      (i.op = .call → p.isEntry (i.operand position).value.toInt = true) := by
  simp only [targetError?, target?, jumps, Option.map_some] at none
  split at none
  · cases none
  · next inside =>
    split at none
    · cases none
    · next entry =>
      refine ⟨by omega, by omega, fun call => ?_⟩
      simpa [call] using entry

/-- A program that can be lowered can be run without meeting an instruction that is malformed. -/
theorem resolved_of_lower {lines : List Line} (lowers : lower p = .ok lines) : p.Resolved := by
  rw [lower] at lowers
  cases first : firstTargetError? p 0 p.code.toList with
  | some error =>
    simp only [first] at lowers
    cases lowers
  | none =>
    simp only [first] at lowers
    obtain ⟨middle, others, _⟩ := exists_of_bind lowers
    have operands := operands_of_body others
    have targets := targets_of_firstTargetError? first
    simp only [Array.mem_toList_iff] at operands targets
    refine ⟨fun i member => (operands i member).1, fun i member => (operands i member).2, ?_, ?_⟩
    · intro i member position jumps
      obtain ⟨n, reaches⟩ := targets i member
      obtain ⟨lower, upper, _⟩ := target_of_targetError? reaches jumps
      exact ⟨lower, upper⟩
    · intro i member call
      obtain ⟨n, reaches⟩ := targets i member
      have jumps : i.op.target? = some .first := by rw [call]; rfl
      exact (target_of_targetError? reaches jumps).2.2 call

end Assembly

namespace MachineFault

/-- Whether a fault says that the program is malformed, and not that it goes wrong in this run. -/
def isMalformed : MachineFault → Bool
  | noValue _ | noAddress _ | jumpOutside | notFunction _ | unknown _ => true
  | divisionByZero | tooFewArguments _ _ | notCalled | argumentCount _ _ | noActivation => false

def malformedOpenings : List Text :=
  ["operan", "jump o", "call t", "unknow"]

theorem isMalformed_eq (cause : MachineFault) :
    cause.isMalformed = malformedOpenings.contains (cause.message.take 6) := by
  cases cause <;> rfl

end MachineFault

namespace Machine

variable {m : Machine} {p : Program}

/-- Whether the machine and all who await it stay within the program. -/
structure OnCourse (m : Machine) : Prop where
  resolved : m.program.Resolved
  pc : 0 ≤ m.pc ∧ m.pc ≤ m.program.code.size
  returns : ∀ a ∈ m.activations, 0 ≤ a.ret ∧ a.ret ≤ m.program.code.size

theorem mem_code_of_fetch? {index : Int} {i : Instruction} (fetched : p.fetch? index = some i) : i ∈ p.code := by
  obtain ⟨n, _, found⟩ := Program.fetch?_eq_some_iff.mp fetched
  exact Array.mem_of_getElem? found

theorem Transition.onCourse {outcome : Outcome} (made : Transition m outcome) (h : m.OnCourse) :
    outcome.machine.OnCourse := by
  cases made with
  | halts | outside | refused => exact ⟨h.resolved, h.pc, h.returns⟩
  | executes fetched fits effect =>
    have bounds := Program.bounds_of_fetch? fetched
    have next : 0 ≤ m.pc + 1 ∧ m.pc + 1 ≤ m.program.code.size := by omega
    cases effect with
    | division | unknown | tooFew | negative | notCalled | noActivation | argumentCount | unawaited =>
      exact ⟨h.resolved, h.pc, h.returns⟩
    | plain _ _ _ _ own goes =>
      refine ⟨h.resolved, ?_, h.returns⟩
      rcases goes with rfl | ⟨position, jumps, rfl⟩
      · exact next
      · exact h.resolved.targets _ (mem_code_of_fetch? fetched) position jumps
    | called count known target counts le entry =>
      obtain ⟨j, found, _⟩ := Program.func_of_isEntry entry
      have bounds' := Program.bounds_of_fetch? found
      exact ⟨h.resolved, ⟨bounds'.1, Int.le_of_lt bounds'.2⟩, List.forall_mem_cons.mpr ⟨next, h.returns⟩⟩
    | notFunction count known target counts le other =>
      rw [h.resolved.calls _ (mem_code_of_fetch? fetched) known] at other
      cases other
    | entered known calling same active =>
      have returns := h.returns
      rw [active, List.forall_mem_cons] at returns
      exact ⟨h.resolved, next, List.forall_mem_cons.mpr returns⟩
    | left known active target =>
      have returns := h.returns
      rw [active, List.forall_mem_cons] at returns
      exact ⟨h.resolved, returns.1, returns.2⟩
    | misplaced known active target =>
      have returns := h.returns
      rw [active, List.forall_mem_cons] at returns
      exact ⟨h.resolved, h.pc, returns.2⟩

theorem Reachable.onCourse (resolved : p.Resolved) (reach : Reachable p m) : m.OnCourse :=
  reach.invariant ⟨resolved, ⟨Int.le_refl 0, Int.natCast_nonneg _⟩, nofun⟩ Transition.onCourse

/-- The faults that a machine on course can meet do not come from the form of the program. -/
theorem OnCourse.sound {e : RuntimeError} {m' : Machine} (h : m.OnCourse) (fails : step m = .error (.error e) m') :
    ∃ cause : MachineFault, e = ⟨.fault, m.pc, cause.message, none⟩ ∧ cause.isMalformed = false := by
  have made := transition m
  rw [fails] at made
  cases made with
  | outside ended missing =>
    obtain ⟨n, pc⟩ := Int.eq_ofNat_of_zero_le h.pc.1
    have bound : n < m.program.code.size := by have := h.pc.2; omega
    have found : m.program.fetch? m.pc = some m.program.code[n] := by
      rw [pc]
      exact Array.getElem?_eq_getElem bound
    rw [found] at missing
    cases missing
  | refused fetched bad =>
    rw [h.resolved.operands _ (mem_code_of_fetch? fetched)] at bad
    cases bad
  | executes fetched fits effect =>
    cases effect with
    | division | tooFew | notCalled | argumentCount | noActivation => exact ⟨_, rfl, rfl⟩
    | unknown other => exact absurd other (h.resolved.known _ (mem_code_of_fetch? fetched) _)
    | notFunction count known target counts le other =>
      rw [h.resolved.calls _ (mem_code_of_fetch? fetched) known] at other
      cases other

/-- No run of a program that can be lowered meets a malformed instruction: the messages of the faults that it reports
    are others. -/
theorem sound_of_lowered {text : Text} (lowers : Assembly.ofProgram p = .ok text) (reach : Reachable p m) {e : RuntimeError}
    {m' : Machine} (fails : step m = .error (.error e) m') (cause : MachineFault) (malformed : cause.isMalformed = true) :
    e.message ≠ cause.message := by
  have resolved : p.Resolved := by
    unfold Assembly.ofProgram at lowers
    cases lines : Assembly.lower p with
    | error e =>
      rw [lines] at lowers
      cases lowers
    | ok lines' => exact Assembly.resolved_of_lower lines
  obtain ⟨own, rfl, sound⟩ := (reach.onCourse resolved).sound fails
  intro same
  change own.message = cause.message at same
  rw [MachineFault.isMalformed_eq] at sound malformed
  rw [same, malformed] at sound
  cases sound

def division : Program where
  code := #[{ op := .call, a1 := .label 2, a2 := .imm 0 }, { op := .jp, a1 := .label 5 },
    { op := .func, a1 := .imm 8, a2 := .imm 0 },
    { op := .div, a1 := .imm 1, a2 := .imm 0, a3 := .slot 4 }, { op := .ret }]
  functions := [{ name := "main", entry := 2, stop := 5 }]

theorem sound_of_lowered_division : ∃ text m e m', Assembly.ofProgram division = .ok text ∧ Reachable division m ∧
    step m = .error (.error e) m' ∧ e.message ≠ MachineFault.jumpOutside.message := by
  have lowers : (Assembly.ofProgram division).toOption.isSome = true := by decide +kernel
  cases lowered : Assembly.ofProgram division with
  | error e =>
    rw [lowered] at lowers
    cases lowers
  | ok text =>
    have reach : Reachable division _ := .step (.step .start)
    exact ⟨text, _, _, _, rfl, reach, rfl, sound_of_lowered lowered reach rfl .jumpOutside rfl⟩

end Machine

end MiniC
