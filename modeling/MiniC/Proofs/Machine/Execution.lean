import MiniC.Machine.Step
import MiniC.Proofs.Generation.WellFormed

namespace MiniC.Machine

open EStateM (run_bind run_pure run_get run_modify run_set)

def location (m : Machine) (o : Operand) : Word :=
  let direct := if o.kind = .global then o.value else m.fp + o.value
  if o.indirect then m.memory.read direct else direct

def word (m : Machine) (o : Operand) : Word :=
  if o.kind = .imm then o.value else m.memory.read (m.location o)

@[simp]
theorem word_imm (m : Machine) (w : Word) : m.word (.imm w) = w :=
  rfl

def stored (m : Machine) (o : Operand) (w : Word) : Machine :=
  { m with memory := m.memory.write (m.location o) w }

def moved (m : Machine) (next : Int) : Machine :=
  { m with pc := next, steps := m.steps + 1 }

structure At (m : Machine) (n : Nat) (i : Instruction) : Prop where
  pc : m.pc = n
  found : m.program.code[n]? = some i

variable {m : Machine} {n : Nat} {i : Instruction} {o x y t : Operand}

theorem address_eq (storage : o.isStorage = true) (m : Machine) : m.address o = .ok (m.location o) := by
  rcases o with ⟨kind, value, indirect⟩
  cases kind
  case global | slot => rfl
  all_goals cases storage

theorem value_eq (readable : o.Readable) (m : Machine) : m.value o = .ok (m.word o) := by
  unfold value word
  split
  · rfl
  · next other => rw [address_eq (readable.resolve_left other), Except.map]

theorem run_read (readable : o.Readable) (m : Machine) : (read o).run m = .ok (m.word o) m := by
  have value := value_eq readable m
  simp only [read, look, EStateM.run, value]

theorem run_write (storage : o.isStorage = true) (w : Word) (m : Machine) : (write o w).run m = .ok () (m.stored o w) := by
  have address := address_eq storage m
  simp only [write, EStateM.run, address, stored]

theorem step_eq (here : m.At n i) (proper : badOperand? i = none) :
    step m = match (execute i (n + 1 : Nat)).run { m with steps := m.steps + 1 } with
      | .ok next m' => .ok () { m' with pc := next }
      | .error failure m' => .error failure m' := by
  have bound := (Array.getElem?_eq_some_iff.mp here.found).1
  have inside : ¬ m.pc = m.program.code.size := by rw [here.pc]; omega
  have fetched : m.program.fetch? m.pc = some i := by rw [here.pc]; exact here.found
  have next : m.pc + 1 = (n + 1 : Nat) := by rw [here.pc]; rfl
  change step.run m = _
  simp only [step, run_bind, run_get, inside, if_false, fetched, proper, run_modify, next]
  cases (execute i (n + 1 : Nat)).run { m with steps := m.steps + 1 } <;> rfl

theorem step_of_execute {s r : Machine} {k : Int} (here : m.At n i) (proper : badOperand? i = none)
    (run : (execute i (n + 1 : Nat)).run { m with steps := m.steps + 1 } = .ok k s) (result : { s with pc := k } = r) :
    step m = .ok () r := by
  rw [step_eq here proper, run, ← result]

theorem badOperand?_eq_none (values : ∀ o ∈ valueOperands i, o.Readable)
    (places : ∀ o ∈ storageOperands i, o.isStorage = true) : badOperand? i = none := by
  have first : (valueOperands i).find? (fun o => !(o.kind = .imm || o.isStorage)) = none := by
    rw [List.find?_eq_none]
    intro o member
    rcases values o member with imm | storage
    · simp [imm]
    · simp [storage]
  have second : (storageOperands i).find? (fun o => !o.isStorage) = none := by
    rw [List.find?_eq_none]
    intro o member
    simp [places o member]
  rw [badOperand?, first, second]
  rfl

theorem badOperand?_compute {op : Opcode} (known : Computes op) (left : x.Readable) (right : y.Readable)
    (target : t.isStorage = true) : badOperand? { op := op, a1 := x, a2 := y, a3 := t } = none := by
  have values : valueOperands { op := op, a1 := x, a2 := y, a3 := t } = [x, y] := by
    cases op <;> simp [Computes, arithmetic?] at known <;> rfl
  have places : storageOperands { op := op, a1 := x, a2 := y, a3 := t } = [t] := by
    cases op <;> simp [Computes, arithmetic?] at known <;> rfl
  apply badOperand?_eq_none
  · rw [values]
    simp [left, right]
  · rw [places]
    simp [target]

theorem step_compute {op : Opcode} {f : Word → Word → Word} (known : arithmetic? op = some f)
    (here : m.At n { op := op, a1 := x, a2 := y, a3 := t }) (left : x.Readable) (right : y.Readable)
    (target : t.isStorage = true) : step m = .ok () ((m.stored t (f (m.word x) (m.word y))).moved (n + 1 : Nat)) := by
  have computes : Computes op := .inl (by rw [known]; rfl)
  have fits := badOperand?_compute computes left right target
  refine step_of_execute (k := (n + 1 : Nat)) (s := { m with steps := m.steps + 1 }.stored t (f (m.word x) (m.word y)))
    here fits ?_ rfl
  cases op <;> cases known
  all_goals simp only [execute, arithmetic?, compute, run_bind, run_read left, run_read right, run_write target, run_pure]
  all_goals rfl

def division? : Opcode → Option (Word → Word → Word)
  | .div => some (· / ·)
  | .mod => some (· % ·)
  | _ => none

theorem computes_of_division? {op : Opcode} {f : Word → Word → Word} (known : division? op = some f) : Computes op := by
  cases op <;> cases known <;> simp [Computes]

theorem step_divide {op : Opcode} {f : Word → Word → Word} (known : division? op = some f)
    (here : m.At n { op := op, a1 := x, a2 := y, a3 := t }) (left : x.Readable) (right : y.Readable)
    (target : t.isStorage = true) (positive : m.word y ≠ 0) :
    step m = .ok () ((m.stored t (f (m.word x) (m.word y))).moved (n + 1 : Nat)) := by
  have fits := badOperand?_compute (computes_of_division? known) left right target
  have positive' : { m with steps := m.steps + 1 }.word y ≠ 0 := positive
  refine step_of_execute (k := (n + 1 : Nat)) (s := { m with steps := m.steps + 1 }.stored t (f (m.word x) (m.word y)))
    here fits ?_ rfl
  cases op <;> cases known
  all_goals
    simp only [execute, divide, run_bind, run_read left, run_read right, run_write target, run_pure, positive', if_false]
  all_goals rfl

theorem step_divide_zero {op : Opcode} {f : Word → Word → Word} (known : division? op = some f)
    (here : m.At n { op := op, a1 := x, a2 := y, a3 := t }) (left : x.Readable) (right : y.Readable)
    (target : t.isStorage = true) (zero : m.word y = 0) :
    step m = .error (.error ⟨.fault, n, MachineFault.divisionByZero.message, none⟩) { m with steps := m.steps + 1 } := by
  have fits := badOperand?_compute (computes_of_division? known) left right target
  have zero' : { m with steps := m.steps + 1 }.word y = 0 := zero
  have executes : (execute { op := op, a1 := x, a2 := y, a3 := t } (n + 1 : Nat)).run { m with steps := m.steps + 1 } =
      .error (.error ⟨.fault, m.pc, MachineFault.divisionByZero.message, none⟩) { m with steps := m.steps + 1 } := by
    cases op <;> cases known
    all_goals simp only [execute, divide, run_bind, run_read right, zero', if_true]
    all_goals rfl
  rw [step_eq here fits, executes, here.pc]

theorem step_assign (here : m.At n { op := .assign, a1 := x, a2 := t }) (readable : x.Readable)
    (target : t.isStorage = true) : step m = .ok () ((m.stored t (m.word x)).moved (n + 1 : Nat)) := by
  have fits : badOperand? { op := .assign, a1 := x, a2 := t } = none :=
    badOperand?_eq_none (by simp [valueOperands, readable]) (by simp [storageOperands, target])
  refine step_of_execute (k := (n + 1 : Nat)) (s := { m with steps := m.steps + 1 }.stored t (m.word x)) here fits ?_ rfl
  simp only [execute, run_bind, run_read readable, run_write target, run_pure]
  rfl

theorem step_address (here : m.At n { op := .addr, a1 := x, a3 := t }) (source : x.isStorage = true)
    (target : t.isStorage = true) : step m = .ok () ((m.stored t (m.location x)).moved (n + 1 : Nat)) := by
  have fits : badOperand? { op := .addr, a1 := x, a3 := t } = none :=
    badOperand?_eq_none (by simp [valueOperands]) (by simp [storageOperands, source, target])
  have looks : (look (address x)).run { m with steps := m.steps + 1 } =
    .ok (m.location x) { m with steps := m.steps + 1 } := by
    have address := address_eq source { m with steps := m.steps + 1 }
    simp only [look, EStateM.run, address]
    rfl
  refine step_of_execute (k := (n + 1 : Nat)) (s := { m with steps := m.steps + 1 }.stored t (m.location x)) here fits ?_ rfl
  simp only [execute, run_bind, looks, run_write target, run_pure]

theorem step_branch {target : Operand} (here : m.At n { op := .jpf, a1 := x, a2 := target }) (readable : x.Readable) :
    step m = .ok () (m.moved (if m.word x = 0 then target.value.toInt else (n + 1 : Nat))) := by
  have fits : badOperand? { op := .jpf, a1 := x, a2 := target } = none :=
    badOperand?_eq_none (by simp [valueOperands, readable]) (by simp [storageOperands])
  refine step_of_execute (s := { m with steps := m.steps + 1 }) here fits ?_ rfl
  simp only [execute, run_bind, run_read readable, run_pure]
  rfl

theorem step_jump {target : Operand} (here : m.At n { op := .jp, a1 := target }) :
    step m = .ok () (m.moved target.value.toInt) :=
  step_of_execute (s := { m with steps := m.steps + 1 }) here
    (badOperand?_eq_none (by simp [valueOperands]) (by simp [storageOperands])) rfl rfl

theorem step_print (here : m.At n { op := .print, a1 := x }) (readable : x.Readable) :
    step m = .ok () ({ m with output := m.output.push (m.word x) }.moved (n + 1 : Nat)) := by
  have fits : badOperand? { op := .print, a1 := x } = none :=
    badOperand?_eq_none (by simp [valueOperands, readable]) (by simp [storageOperands])
  refine step_of_execute (k := (n + 1 : Nat))
    (s := { m with steps := m.steps + 1, output := m.output.push (m.word x) }) here fits ?_ rfl
  simp only [execute, run_bind, run_read readable, run_modify, run_pure]
  rfl

theorem step_param (here : m.At n { op := .param, a1 := x }) (readable : x.Readable) :
    step m = .ok () ({ m with args := m.args.push (m.word x) }.moved (n + 1 : Nat)) := by
  have fits : badOperand? { op := .param, a1 := x } = none :=
    badOperand?_eq_none (by simp [valueOperands, readable]) (by simp [storageOperands])
  refine step_of_execute (k := (n + 1 : Nat))
    (s := { m with steps := m.steps + 1, args := m.args.push (m.word x) }) here fits ?_ rfl
  simp only [execute, run_bind, run_read readable, run_modify, run_pure]
  rfl

theorem step_end (pc : m.pc = m.program.code.size) : step m = .ok () { m with halted := true } := by
  change step.run m = _
  simp only [step, run_bind, run_get, pc, if_true, run_set]

def called (m : Machine) (next : Int) (count : Nat) (result : Operand) : Machine :=
  { m with
    pending := m.args.extract (m.args.size - count) m.args.size
    args := m.args.extract 0 (m.args.size - count)
    activations := ⟨next, result, m.fp, m.sp, 0⟩ :: m.activations
    calling := true }

theorem step_call {callee count : Nat}
    (here : m.At n { op := .call, a1 := .label callee, a2 := .imm (.ofNat count), a3 := t })
    (target : t = .absent ∨ t.isStorage = true) (small : callee < 2 ^ 63) (few : count < 2 ^ 63)
    (isEntry : m.program.isEntry callee = true) (enough : count ≤ m.args.size) :
    step m = .ok () ((m.called (n + 1 : Nat) count t).moved callee) := by
  have fits : badOperand? { op := .call, a1 := .label callee, a2 := .imm (.ofNat count), a3 := t } = none := by
    refine badOperand?_eq_none (by simp [valueOperands]) ?_
    simp only [storageOperands]
    split
    · simp
    · next given =>
      have storage := target.resolve_left fun absent => given (by rw [absent]; rfl)
      simp [storage]
  have value : (Operand.label callee).value.toInt = callee := Operand.value_label small
  have counted : (Operand.imm (.ofNat count)).value.toInt = count := Int64.toInt_ofNat_of_lt few
  have pushed : ¬ (m.args.size : Int) < count := by omega
  have positive : ¬ (count : Int) < 0 := by omega
  refine step_of_execute (k := callee) (s := { m with steps := m.steps + 1 }.called (n + 1 : Nat) count t) here fits ?_ rfl
  simp only [execute, call, run_bind, run_get, value, counted, pushed, positive, if_false, run_set, isEntry, if_true,
    run_pure, Int.toNat_natCast]
  rfl

def opened (m : Machine) (size params : Word) (top : Activation) (rest : List Activation) : Machine :=
  { m with
    calling := false
    fp := m.sp
    sp := m.sp + size
    memory := m.memory.writeAll m.sp wordSize m.pending.toList
    activations := { top with params := params } :: rest }

theorem step_enter {size : Word} {top : Activation} {rest : List Activation}
    (here : m.At n { op := .func, a1 := .imm size, a2 := .imm (.ofNat m.pending.size) }) (few : m.pending.size < 2 ^ 63)
    (calling : m.calling = true) (active : m.activations = top :: rest) :
    step m = .ok () ((m.opened size (.ofNat m.pending.size) top rest).moved (n + 1 : Nat)) := by
  have fits : badOperand? { op := .func, a1 := .imm size, a2 := .imm (.ofNat m.pending.size) } = none :=
    badOperand?_eq_none (by simp [valueOperands]) (by simp [storageOperands])
  have counted : (Operand.imm (.ofNat m.pending.size)).value.toInt = m.pending.size := Int64.toInt_ofNat_of_lt few
  refine step_of_execute (k := (n + 1 : Nat))
    (s := { m with steps := m.steps + 1 }.opened size (.ofNat m.pending.size) top rest) here fits ?_ rfl
  simp only [execute, enter, run_bind, run_get, run_modify, calling, if_true, counted, ne_eq, not_true_eq_false, if_false,
    active, run_set, run_pure]
  rfl

def closed (m : Machine) (o : Operand) (top : Activation) (rest : List Activation) : Machine :=
  { m with
    memory := if o.isAbsent then m.memory else m.memory.write (m.fp + top.params * wordSize) (m.word o)
    fp := top.fp
    sp := top.sp
    activations := rest }

def result (m : Machine) (o : Operand) : Word :=
  if o.isAbsent then 0 else m.word o

def returned (m : Machine) (o : Operand) (top : Activation) (rest : List Activation) : Machine :=
  let c := m.closed o top rest
  { c with
    memory := if top.result.isAbsent then c.memory else c.memory.write (c.location top.result) (m.result o) }

theorem step_return {top : Activation} {rest : List Activation} (here : m.At n { op := .ret, a1 := x })
    (value : x = .absent ∨ x.Readable) (target : top.result = .absent ∨ top.result.isStorage = true)
    (active : m.activations = top :: rest) : step m = .ok () ((m.returned x top rest).moved top.ret) := by
  have given : ∀ {o : Operand} {P : Prop}, o = .absent ∨ P → o.isAbsent = false → P := by
    intro o P known present
    refine known.resolve_left fun absent => ?_
    rw [absent] at present
    cases present
  have fits : badOperand? { op := .ret, a1 := x } = none := by
    refine badOperand?_eq_none ?_ (by simp [storageOperands])
    simp only [valueOperands]
    split
    · simp
    · next present => simp [given value (Bool.eq_false_iff.mpr present)]
  refine step_of_execute (k := top.ret) (s := { m with steps := m.steps + 1 }.returned x top rest) here fits ?_ rfl
  simp only [execute, leave, run_bind, run_get, active, returned, closed, result]
  cases absent : x.isAbsent with
  | true =>
    cases absent' : top.result.isAbsent with
    | true => simp only [if_true, run_bind, run_pure, run_modify]
    | false => simp only [if_true, run_bind, run_pure, run_modify, Bool.false_eq_true, if_false,
        run_write (given target absent'), stored]
  | false =>
    have reads := run_read (given value absent)
    cases absent' : top.result.isAbsent with
    | true => simp only [Bool.false_eq_true, if_false, if_true, run_bind, run_pure, run_modify, reads, word, location]
    | false => simp only [Bool.false_eq_true, if_false, run_bind, run_pure, run_modify, reads, word, location, stored,
        run_write (given target absent')]

end MiniC.Machine
