import MiniC.Code.Listing
import MiniC.Proofs.Machine.Transitions

namespace MiniC.Machine

variable {m : Machine} {p : Program}

/-- Whether the calls that have not returned can be returned from, and one that has been made stands
    at the call or at the function it goes to. -/
structure Accounted (m : Machine) : Prop where
  results : ∀ a ∈ m.activations, Takes a.result
  awaited : m.calling = true → m.activations ≠ []
  place : m.calling = true → ∃ i, m.program.fetch? m.pc = some i ∧ (i.op = .call ∨ i.op = .func)

theorem Accounted.uncalled {i : Instruction} (h : m.Accounted) (fetched : m.program.fetch? m.pc = some i)
    (call : i.op ≠ .call) (func : i.op ≠ .func) : m.calling ≠ true := by
  intro calling
  obtain ⟨j, found, known⟩ := h.place calling
  rw [fetched] at found
  cases found
  exact known.elim call func

theorem Transition.accounted {outcome : Outcome} (made : Transition m outcome) (h : m.Accounted) :
    outcome.machine.Accounted := by
  cases made with
  | halts | outside | refused => exact ⟨h.results, h.awaited, h.place⟩
  | executes fetched fits effect =>
    cases effect with
    | division | unknown | tooFew | negative | notCalled | noActivation => exact ⟨h.results, h.awaited, h.place⟩
    | plain _ _ _ _ own =>
      have uncalled := h.uncalled fetched own.1 own.2.1
      exact ⟨h.results, h.awaited, fun calling => absurd calling uncalled⟩
    | called count known target counts le entry =>
      refine ⟨List.forall_mem_cons.mpr ⟨target, h.results⟩, fun _ => List.cons_ne_nil _ _, fun _ => ?_⟩
      obtain ⟨j, found, func⟩ := Program.func_of_isEntry entry
      exact ⟨j, found, .inr func⟩
    | notFunction count known target counts le entry =>
      exact ⟨List.forall_mem_cons.mpr ⟨target, h.results⟩, fun _ => List.cons_ne_nil _ _,
        fun _ => ⟨_, fetched, .inl known⟩⟩
    | argumentCount | unawaited => exact ⟨h.results, nofun, nofun⟩
    | entered known calling same active =>
      have results := h.results
      rw [active, List.forall_mem_cons] at results
      exact ⟨List.forall_mem_cons.mpr results, nofun, nofun⟩
    | left known active target =>
      have uncalled := h.uncalled fetched (by simp [known]) (by simp [known])
      have results := h.results
      rw [active, List.forall_mem_cons] at results
      exact ⟨results.2, fun calling => absurd calling uncalled, fun calling => absurd calling uncalled⟩
    | misplaced known active target =>
      have results := h.results
      rw [active, List.forall_mem_cons] at results
      exact absurd results.1 target

theorem Reachable.accounted (reach : Reachable p m) : m.Accounted :=
  reach.invariant ⟨nofun, nofun, nofun⟩ Transition.accounted

def TakesNegative (m : Machine) : Prop :=
  ∃ i, m.program.fetch? m.pc = some i ∧ i.op = .call ∧ i.a2.value.toInt < 0 ∧ Takes i.a3

theorem TakesNegative.crashes (negative : m.TakesNegative) : step m = .error (.crash .negativeCount) m.counted := by
  obtain ⟨i, fetched, known, below, target⟩ := negative
  have made := transition m
  generalize step m = outcome at made ⊢
  cases made with
  | halts ended =>
    have bounds := Program.bounds_of_fetch? fetched
    omega
  | outside _ missing =>
    rw [fetched] at missing
    cases missing
  | @refused j cause found bad =>
    rw [fetched] at found
    cases found
    rw [(badOperand?_call known).mpr target] at bad
    cases bad
  | @executes j _ found fits effect =>
    rw [fetched] at found
    cases found
    cases effect with
    | negative => rfl
    | plain _ _ _ _ own => exact absurd known own.1
    | tooFew _ few => omega
    | called count _ _ counts => omega
    | notFunction count _ _ counts => omega
    | division op => rw [known] at op; simp at op
    | unknown op | notCalled op | argumentCount op | unawaited op | entered op | noActivation op | left op | misplaced op =>
      rw [known] at op
      cases op

/-- A step goes on or reports a fault at the instruction at hand, unless a call takes a negative number of arguments. -/
theorem reports_iff (reach : Reachable p m) :
    ((∃ m', step m = .ok () m') ∨ ∃ cause m', step m = .error (m.failure cause) m') ↔ ¬ m.TakesNegative := by
  constructor
  · intro reports negative
    rw [negative.crashes] at reports
    simp [failure] at reports
  · intro positive
    have accounted := reach.accounted
    have made := transition m
    generalize step m = outcome at made ⊢
    cases made with
    | halts => exact .inl ⟨_, rfl⟩
    | outside | refused => exact .inr ⟨_, _, rfl⟩
    | executes fetched fits effect =>
      cases effect with
      | plain | called | entered | left => exact .inl ⟨_, rfl⟩
      | division | unknown | tooFew | notFunction | notCalled | argumentCount | noActivation => exact .inr ⟨_, _, rfl⟩
      | negative known target below => exact absurd ⟨_, fetched, known, below, target⟩ positive
      | unawaited known calling active => exact absurd active (accounted.awaited calling)
      | misplaced known active target =>
        have results := accounted.results
        rw [active, List.forall_mem_cons] at results
        exact absurd results.1 target

def miscounted : Program :=
  { code := #[{ op := .call, a1 := .label 1, a2 := .imm 0 }, { op := .func, a1 := .imm 8, a2 := .imm 1 }, { op := .ret }] }

def refusal : Machine :=
  Outcome.machine (step (Outcome.machine (step { program := miscounted })))

theorem reports_again : refusal.steps = 2 ∧
    ((∃ m', step refusal = .ok () m') ∨ ∃ cause m', step refusal = .error (refusal.failure cause) m') := by
  refine ⟨rfl, (reports_iff (.step (.step .start))).mpr ?_⟩
  rintro ⟨i, fetched, known, -⟩
  have entry : miscounted.fetch? 1 = some i := fetched
  cases entry
  cases known

/-- Whether two machines differ in nothing but the calls that they prepare or await, and in their count. -/
structure SameData (m m' : Machine) : Prop where
  program : m'.program = m.program
  pc : m'.pc = m.pc
  memory : m'.memory = m.memory
  fp : m'.fp = m.fp
  sp : m'.sp = m.sp
  halted : m'.halted = m.halted
  output : m'.output = m.output

theorem Effect.sameData {m' : Machine} {i : Instruction} {e : RuntimeError} (effect : Effect m i (.error (.error e) m')) :
    SameData m m' ∧ (e.kind = .fault ∧ e.pc = m.pc) ∧ m'.steps = m.steps + 1 := by
  cases effect with
  -- A call is remembered before its target is looked at: only the list of calls tells.
  | notFunction => exact ⟨⟨rfl, rfl, rfl, rfl, rfl, rfl, rfl⟩, ⟨rfl, rfl⟩, rfl⟩
  | division | unknown | tooFew | notCalled | argumentCount | noActivation =>
    exact ⟨⟨rfl, rfl, rfl, rfl, rfl, rfl, rfl⟩, ⟨rfl, rfl⟩, rfl⟩

/-- A step that reports an error does so at the instruction at hand. It leaves the memory, the frame, the
    output and the place in the program as they were, and counts at most one instruction. -/
theorem sameData_of_fault {m m' : Machine} {e : RuntimeError} (fails : step m = .error (.error e) m') :
    SameData m m' ∧ (e.kind = .fault ∧ e.pc = m.pc) ∧ m.steps ≤ m'.steps ∧ m'.steps ≤ m.steps + 1 := by
  have made := transition m
  rw [fails] at made
  cases made with
  | outside | refused => exact ⟨⟨rfl, rfl, rfl, rfl, rfl, rfl, rfl⟩, ⟨rfl, rfl⟩, by omega, by omega⟩
  | executes _ _ effect =>
    obtain ⟨same, reported, counted⟩ := effect.sameData
    exact ⟨same, reported, by omega, by omega⟩

def misdirected : Program :=
  { code := #[{ op := .call, a1 := .label 0, a2 := .imm 0 }] }

theorem sameData_of_misdirected : ∃ e m', step { program := misdirected } = .error (.error e) m' ∧
    m'.activations.length = 1 ∧ SameData { program := misdirected } m' ∧ e.pc = 0 ∧ m'.steps ≤ 1 := by
  obtain ⟨same, reported, _, counted⟩ := sameData_of_fault (m := { program := misdirected }) rfl
  exact ⟨_, _, rfl, rfl, same, reported.2, counted⟩

def negativeCall : Text :=
  "0\t(CALL, 1, #-1, )\n1\t(FUNC, #4, #0, )\n2\t(RETURN, , , )\n"

theorem crashes_of_negativeCall : ∃ p m, Listing.parse negativeCall = .ok p ∧ Reachable p m ∧
    step m = .error (.crash .negativeCount) m.counted := by
  have read : Listing.parse negativeCall = .ok (Listing.layout #[{ op := .call, a1 := .label 1, a2 := .imm (-1) },
      { op := .func, a1 := .imm 4, a2 := .imm 0 }, { op := .ret }]) := by
    decide +kernel
  refine ⟨_, _, read, .start, TakesNegative.crashes ⟨_, rfl, rfl, ?_, .inl rfl⟩⟩
  decide

end MiniC.Machine
