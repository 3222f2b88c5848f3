import MiniC.Proofs.Machine.Execution

namespace MiniC

namespace Program

variable {p : Program} {index : Int} {i : Instruction}

theorem fetch?_eq_some_iff : p.fetch? index = some i ↔ ∃ n : Nat, index = n ∧ p.code[n]? = some i := by
  constructor
  · intro found
    cases index with
    | ofNat n => exact ⟨n, rfl, found⟩
    | negSucc n => cases found
  · rintro ⟨n, rfl, found⟩
    exact found

theorem bounds_of_fetch? (found : p.fetch? index = some i) : 0 ≤ index ∧ index < p.code.size := by
  obtain ⟨n, rfl, found⟩ := fetch?_eq_some_iff.mp found
  have bound := (Array.getElem?_eq_some_iff.mp found).1
  omega

theorem func_of_isEntry (entry : p.isEntry index = true) : ∃ i, p.fetch? index = some i ∧ i.op = .func := by
  simpa [isEntry, Option.any_eq_true] using entry

end Program

namespace Machine

open EStateM (run_bind run_pure run_get run_modify run_set)

abbrev Outcome := EStateM.Result Failure Machine Unit

def Outcome.machine : Outcome → Machine
  | .ok _ m | .error _ m => m

def counted (m : Machine) : Machine :=
  { m with steps := m.steps + 1 }

def failure (m : Machine) (cause : MachineFault) : Failure :=
  .error ⟨.fault, m.pc, cause.message, none⟩

abbrev Takes (o : Operand) : Prop :=
  o.isAbsent = true ∨ o.isStorage = true

inductive Effect (m : Machine) (i : Instruction) : Outcome → Prop where
  | plain (memory : Memory) (output args : Array Word) (next : Int) :
    i.op ≠ .call ∧ i.op ≠ .func ∧ i.op ≠ .ret →
      (next = m.pc + 1 ∨ ∃ position, i.op.target? = some position ∧ next = (i.operand position).value.toInt) →
      (output = m.output ∨ ∃ w, output = m.output.push w) →
      Effect m i (.ok () { m.counted with memory := memory, output := output, args := args, pc := next })
  | division : i.op = .div ∨ i.op = .mod → Effect m i (.error (m.failure .divisionByZero) m.counted)
  | unknown {name : Text} : i.op = .unknown name → Effect m i (.error (m.failure (.unknown i.op)) m.counted)
  | tooFew : i.op = .call → (m.args.size : Int) < i.a2.value.toInt →
      Effect m i (.error (m.failure (.tooFewArguments i.a2.value m.args.size)) m.counted)
  | negative : i.op = .call → Takes i.a3 → i.a2.value.toInt < 0 → Effect m i (.error (.crash .negativeCount) m.counted)
  | called (count : Nat) : i.op = .call → Takes i.a3 → i.a2.value.toInt = count → count ≤ m.args.size →
      m.program.isEntry i.a1.value.toInt = true →
      Effect m i (.ok () ((m.called (m.pc + 1) count i.a3).moved i.a1.value.toInt))
  | notFunction (count : Nat) : i.op = .call → Takes i.a3 → i.a2.value.toInt = count → count ≤ m.args.size →
      m.program.isEntry i.a1.value.toInt = false →
      Effect m i (.error (m.failure (.notFunction i.a1.value)) (m.called (m.pc + 1) count i.a3).counted)
  | notCalled : i.op = .func → m.calling = false → Effect m i (.error (m.failure .notCalled) m.counted)
  | argumentCount : i.op = .func → m.calling = true → i.a2.value.toInt ≠ m.pending.size →
      Effect m i (.error (m.failure (.argumentCount i.a2.value m.pending.size)) { m.counted with calling := false })
  | unawaited : i.op = .func → m.calling = true → m.activations = [] →
      Effect m i (.error (.crash .noActivation) { m.counted with calling := false })
  | entered {top : Activation} {rest : List Activation} : i.op = .func → m.calling = true →
      i.a2.value.toInt = m.pending.size → m.activations = top :: rest →
      Effect m i (.ok () ((m.opened i.a1.value i.a2.value top rest).moved (m.pc + 1)))
  | noActivation : i.op = .ret → m.activations = [] → Effect m i (.error (m.failure .noActivation) m.counted)
  | left {top : Activation} {rest : List Activation} : i.op = .ret → m.activations = top :: rest → Takes top.result →
      Effect m i (.ok () ((m.returned i.a1 top rest).moved top.ret))
  | misplaced {top : Activation} {rest : List Activation} : i.op = .ret → m.activations = top :: rest →
      ¬ Takes top.result → Effect m i (.error (.crash (.noAddress top.result)) (m.closed i.a1 top rest).counted)

inductive Transition (m : Machine) : Outcome → Prop where
  | halts : m.pc = m.program.code.size → Transition m (.ok () { m with halted := true })
  | outside : m.pc ≠ m.program.code.size → m.program.fetch? m.pc = none → Transition m (.error (m.failure .jumpOutside) m)
  | refused {i : Instruction} {cause : MachineFault} : m.program.fetch? m.pc = some i → badOperand? i = some cause →
      Transition m (.error (m.failure cause) m)
  | executes {i : Instruction} {outcome : Outcome} : m.program.fetch? m.pc = some i → badOperand? i = none →
      Effect m i outcome → Transition m outcome

variable {m : Machine} {i : Instruction}

theorem operands_of_badOperand? (fits : badOperand? i = none) :
    (∀ o ∈ valueOperands i, o.Readable) ∧ ∀ o ∈ storageOperands i, o.isStorage = true := by
  unfold badOperand? at fits
  split at fits
  · cases fits
  · next values =>
    rw [List.find?_eq_none] at values
    rw [Option.map_eq_none_iff, List.find?_eq_none] at fits
    constructor
    · intro o member
      exact or_iff_not_imp_left.mpr (by simpa using values o member)
    · intro o member
      simpa using fits o member

theorem badOperand?_call (known : i.op = .call) : badOperand? i = none ↔ Takes i.a3 := by
  constructor
  · intro fits
    have places := (operands_of_badOperand? fits).2
    simp only [storageOperands, known] at places
    cases absent : i.a3.isAbsent with
    | true => exact .inl absent
    | false => exact .inr (places i.a3 (by simp [absent]))
  · intro target
    refine badOperand?_eq_none (by simp [valueOperands, known]) ?_
    simp only [storageOperands, known]
    split
    · simp
    · next present => simpa using target.resolve_left present

theorem badOperand?_ret (known : i.op = .ret) : badOperand? i = none ↔ i.a1.isAbsent = true ∨ i.a1.Readable := by
  constructor
  · intro fits
    have values := (operands_of_badOperand? fits).1
    simp only [valueOperands, known] at values
    cases absent : i.a1.isAbsent with
    | true => exact .inl rfl
    | false => exact .inr (values i.a1 (by simp [absent]))
  · intro value
    refine badOperand?_eq_none ?_ (by simp [storageOperands, known])
    simp only [valueOperands, known]
    split
    · simp
    · next present => simpa using value.resolve_left present

def settled : EStateM.Result Failure Machine Int → Outcome
  | .ok next m => .ok () { m with pc := next }
  | .error failure m => .error failure m

theorem Effect.stored (own : i.op ≠ .call ∧ i.op ≠ .func ∧ i.op ≠ .ret) (o : Operand) (w : Word)
    (run : (execute i (m.pc + 1)).run m.counted = .ok (m.pc + 1) (m.counted.stored o w)) :
    Effect m i (settled ((execute i (m.pc + 1)).run m.counted)) := by
  rw [run]
  exact .plain _ _ _ _ own (.inl rfl) (.inl rfl)

theorem effect_compute {f : Word → Word → Word} (known : arithmetic? i.op = some f) (left : i.a1.Readable)
    (right : i.a2.Readable) (target : i.a3.isStorage = true) :
    Effect m i (settled ((execute i (m.pc + 1)).run m.counted)) := by
  rcases i with ⟨op, a1, a2, a3⟩
  refine .stored ?_ a3 (f (m.word a1) (m.word a2)) ?_
  · cases op <;> cases known <;> simp
  · cases op <;> cases known
    all_goals simp only [execute, arithmetic?, compute, run_bind, run_read left, run_read right, run_write target, run_pure]
    all_goals rfl

theorem effect_divide {f : Word → Word → Word} (known : division? i.op = some f) (left : i.a1.Readable)
    (right : i.a2.Readable) (target : i.a3.isStorage = true) :
    Effect m i (settled ((execute i (m.pc + 1)).run m.counted)) := by
  rcases i with ⟨op, a1, a2, a3⟩
  by_cases zero : m.counted.word a2 = 0
  · have run : (execute ⟨op, a1, a2, a3⟩ (m.pc + 1)).run m.counted = .error (m.failure .divisionByZero) m.counted := by
      cases op <;> cases known
      all_goals simp only [execute, divide, run_bind, run_read right, zero, if_true]
      all_goals rfl
    rw [run]
    refine .division ?_
    cases op <;> cases known <;> simp
  · refine .stored ?_ a3 (f (m.word a1) (m.word a2)) ?_
    · cases op <;> cases known <;> simp
    · cases op <;> cases known
      all_goals
        simp only [execute, divide, run_bind, run_read left, run_read right, run_write target, run_pure, zero, if_false]
      all_goals rfl

theorem effect_call (known : i.op = .call) (target : Takes i.a3) :
    Effect m i (settled ((execute i (m.pc + 1)).run m.counted)) := by
  simp only [execute, known, call, run_bind, run_get]
  have args : m.counted.args = m.args := rfl
  rw [args]
  split
  · next few => exact .tooFew known few
  · next enough =>
    split
    · next below => exact .negative known target below
    · next positive =>
      obtain ⟨count, counts⟩ := Int.eq_ofNat_of_zero_le (Int.not_lt.mp positive)
      have le : count ≤ m.args.size := by omega
      simp only [counts, Int.toNat_natCast, run_bind, run_set]
      split
      · next entry => exact .called count known target counts le entry
      · next other => exact .notFunction count known target counts le (Bool.eq_false_iff.mpr other)

theorem effect_enter (known : i.op = .func) : Effect m i (settled ((execute i (m.pc + 1)).run m.counted)) := by
  have calling : m.counted.calling = m.calling := rfl
  have pending : m.counted.pending = m.pending := rfl
  have activations : m.counted.activations = m.activations := rfl
  simp only [execute, known, enter, run_bind, run_get, calling]
  cases called : m.calling with
  | false =>
    simp only [Bool.false_eq_true, if_false]
    exact .notCalled known called
  | true =>
    simp only [if_true, run_bind, run_modify, run_get, pending]
    by_cases same : i.a2.value.toInt = m.pending.size
    · simp only [same, ne_eq, not_true_eq_false, if_false, activations]
      have unawaited := Effect.unawaited (m := m) known called
      cases active : m.activations with
      | nil =>
        simp only [active, activations, pending] at unawaited
        exact unawaited trivial
      | cons top rest =>
        simp only [run_set, run_pure]
        exact .entered known called same active
    · simp only [same, ne_eq, not_false_eq_true, if_true]
      exact .argumentCount known called same

theorem run_leave {top : Activation} {rest : List Activation} (value : i.a1.isAbsent = true ∨ i.a1.Readable)
    (active : m.activations = top :: rest) :
    (leave i).run m = (do
      unless top.result.isAbsent do
        write top.result (m.result i.a1)
      return top.ret : MachineM Int).run (m.closed i.a1 top rest) := by
  simp only [leave, run_bind, run_get, active, closed, result]
  cases absent : i.a1.isAbsent with
  | true => simp only [if_true, run_bind, run_pure, run_modify]
  | false =>
    have reads := run_read (value.resolve_left (by simp [absent]))
    simp only [Bool.false_eq_true, if_false, run_bind, run_modify, reads, word, location]

theorem run_write_misplaced {o : Operand} (other : o.isStorage = false) (w : Word) (m : Machine) :
    (write o w).run m = .error (.crash (.noAddress o)) m := by
  have address : m.address o = .error (.noAddress o) := by
    rcases o with ⟨kind, value, indirect⟩
    cases kind
    case global | slot => cases other
    all_goals rfl
  simp only [write, EStateM.run, address]

theorem effect_leave (known : i.op = .ret) (value : i.a1.isAbsent = true ∨ i.a1.Readable) :
    Effect m i (settled ((execute i (m.pc + 1)).run m.counted)) := by
  simp only [execute, known]
  rcases active : m.activations with _ | ⟨top, rest⟩
  · have activations : m.counted.activations = [] := active
    simp only [leave, run_bind, run_get, activations]
    exact .noActivation known active
  · rw [run_leave value (m := m.counted) active]
    cases absent : top.result.isAbsent with
    | true =>
      simp only [if_true, run_pure]
      have left := Effect.left known active (.inl absent)
      simp only [returned, absent, if_true] at left
      exact left
    | false =>
      simp only [Bool.false_eq_true, if_false, run_bind]
      cases storage : top.result.isStorage with
      | true =>
        simp only [run_write storage, run_pure]
        have left := Effect.left known active (.inr storage)
        simp only [returned, absent, Bool.false_eq_true, if_false] at left
        exact left
      | false =>
        simp only [run_write_misplaced storage]
        exact .misplaced known active (by simp [Takes, absent, storage])

theorem effect_execute (fits : badOperand? i = none) (m : Machine) :
    Effect m i (settled ((execute i (m.pc + 1)).run m.counted)) := by
  obtain ⟨values, places⟩ := operands_of_badOperand? fits
  cases known : i.op
  case add | sub | mult | eq | ne | lt | le | gt | ge | elem =>
    simp only [valueOperands, storageOperands, known, List.forall_mem_cons] at values places
    exact effect_compute (by rw [known]; rfl) values.1 values.2.1 places.1
  case div | mod =>
    simp only [valueOperands, storageOperands, known, List.forall_mem_cons] at values places
    exact effect_divide (by rw [known]; rfl) values.1 values.2.1 places.1
  case assign =>
    simp only [valueOperands, storageOperands, known, List.forall_mem_cons] at values places
    refine .stored (by simp [known]) i.a2 (m.word i.a1) ?_
    simp only [execute, known, run_bind, run_read values.1, run_write places.1, run_pure]
    rfl
  case addr =>
    simp only [storageOperands, known, List.forall_mem_cons] at places
    have looks : (look (address i.a1)).run m.counted = .ok (m.counted.location i.a1) m.counted := by
      simp only [look, EStateM.run, address_eq places.1]
    refine .stored (by simp [known]) i.a3 (m.location i.a1) ?_
    simp only [execute, known, run_bind, looks, run_write places.2.1, run_pure]
    rfl
  case jpf =>
    simp only [valueOperands, known, List.forall_mem_cons] at values
    simp only [execute, known, run_bind, run_read values.1, run_pure]
    refine .plain _ _ _ _ (by simp [known]) ?_ (.inl rfl)
    split
    · exact .inr ⟨.second, by rw [known]; rfl, rfl⟩
    · exact .inl rfl
  case jp =>
    simp only [execute, known, run_pure]
    exact .plain _ _ _ _ (by simp [known]) (.inr ⟨.first, by rw [known]; rfl, rfl⟩) (.inl rfl)
  case print =>
    simp only [valueOperands, known, List.forall_mem_cons] at values
    simp only [execute, known, run_bind, run_read values.1, run_modify, run_pure]
    exact .plain _ _ _ _ (by simp [known]) (.inl rfl) (.inr ⟨_, rfl⟩)
  case param =>
    simp only [valueOperands, known, List.forall_mem_cons] at values
    simp only [execute, known, run_bind, run_read values.1, run_modify, run_pure]
    exact .plain _ _ _ _ (by simp [known]) (.inl rfl) (.inl rfl)
  case call => exact effect_call known ((badOperand?_call known).mp fits)
  case func => exact effect_enter known
  case ret => exact effect_leave known ((badOperand?_ret known).mp fits)
  case unknown name =>
    simp only [execute, known, arithmetic?]
    have unknown := Effect.unknown (m := m) known
    rw [known] at unknown
    exact unknown

theorem transition (m : Machine) : Transition m (step m) := by
  by_cases ended : m.pc = m.program.code.size
  · rw [step_end ended]
    exact .halts ended
  · change Transition m (step.run m)
    simp only [step, run_bind, run_get, ended, if_false]
    cases fetched : m.program.fetch? m.pc with
    | none => exact .outside ended fetched
    | some i =>
      cases fits : badOperand? i with
      | some cause =>
        simp only [fits]
        exact .refused fetched fits
      | none =>
        have effect := effect_execute fits m
        have run : (modify fun m => { m with steps := m.steps + 1 } : MachineM Unit).run m = .ok () m.counted := rfl
        simp only [fits, run_bind, run, run_modify]
        refine .executes fetched fits ?_
        cases executed : (execute i (m.pc + 1)).run m.counted with
        | ok next m' =>
          rw [executed] at effect
          exact effect
        | error failure m' =>
          rw [executed] at effect
          exact effect

inductive Reachable (p : Program) : Machine → Prop where
  | start : Reachable p { program := p }
  | step {m : Machine} : Reachable p m → Reachable p (Outcome.machine (step m))

theorem Reachable.invariant {p : Program} {P : Machine → Prop} (start : P { program := p })
    (keeps : ∀ {m : Machine} {outcome : Outcome}, Transition m outcome → P m → P outcome.machine)
    (reach : Reachable p m) : P m := by
  induction reach with
  | start => exact start
  | step _ ih => exact keeps (transition _) ih

theorem Transition.program_eq {outcome : Outcome} (made : Transition m outcome) :
    outcome.machine.program = m.program := by
  cases made with
  | halts | outside | refused => rfl
  | executes _ _ effect => cases effect <;> rfl

theorem Reachable.program_eq {p : Program} (reach : Reachable p m) : m.program = p :=
  reach.invariant (P := fun m => m.program = p) rfl fun made same => made.program_eq.trans same

end Machine

end MiniC
