import MiniC.Proofs.Machine.Runs

namespace MiniC

open EStateM (run_bind run_pure run_get run_modify run_set)

theorem Program.fetch?_of_code {p q : Program} (same : q.code = p.code) (index : Int) : q.fetch? index = p.fetch? index := by
  unfold fetch?
  rw [same]

theorem Program.isEntry_of_code {p q : Program} (same : q.code = p.code) (index : Int) :
    q.isEntry index = p.isEntry index := by
  unfold isEntry
  rw [fetch?_of_code same]

namespace Machine

def on (m : Machine) (q : Program) : Machine :=
  { m with program := q }

def outcomeOn {α : Type} (q : Program) : EStateM.Result Failure Machine α → EStateM.Result Failure Machine α
  | .ok a m => .ok a (m.on q)
  | .error failure m => .error failure (m.on q)

/-- Whether an action does the same for all programs with the code at hand. -/
def Hosted {α : Type} (x : MachineM α) : Prop :=
  ∀ (m : Machine) (q : Program), q.code = m.program.code → x.run (m.on q) = outcomeOn q (x.run m)

theorem Hosted.program {α : Type} {x : MachineM α} (hosted : Hosted x) {m m' : Machine} {a : α}
    (run : x.run m = .ok a m') : m'.program = m.program := by
  have same := hosted m m.program rfl
  change x.run m = _ at same
  rw [run] at same
  have states : m' = m'.on m.program := by
    injection same
  rw [states]
  rfl

theorem Hosted.bind {α β : Type} {x : MachineM α} {f : α → MachineM β} (first : Hosted x) (second : ∀ a, Hosted (f a)) :
    Hosted (x >>= f) := by
  intro m q same
  rw [run_bind, run_bind, first m q same]
  cases run : x.run m with
  | ok a m' =>
    have kept := first.program run
    exact second a m' q (by rw [kept, same])
  | error failure m' => rfl

theorem Hosted.pure {α : Type} (a : α) : Hosted (pure a : MachineM α) :=
  fun _ _ _ => rfl

theorem Hosted.ite {α : Type} {c : Prop} [Decidable c] {x y : MachineM α} (first : Hosted x) (second : Hosted y) :
    Hosted (if c then x else y) := by
  split
  · exact first
  · exact second

theorem hosted_fault {α : Type} (cause : MachineFault) : Hosted (fault cause : MachineM α) :=
  fun _ _ _ => rfl

theorem hosted_look {α : Type} {f : Machine → Except Crash α} (same : ∀ m q, f (m.on q) = f m) : Hosted (look f) := by
  intro m q _
  simp only [EStateM.run, look, same]
  cases f m <;> rfl

theorem hosted_read (o : Operand) : Hosted (read o) :=
  hosted_look fun _ _ => rfl

theorem hosted_write (o : Operand) (w : Word) : Hosted (write o w) := by
  intro m q _
  have same : (m.on q).address o = m.address o := rfl
  simp only [EStateM.run, write, same]
  cases m.address o <;> rfl

theorem hosted_modify {f : Machine → Machine} (same : ∀ m q, f (m.on q) = (f m).on q) :
    Hosted (modify f : MachineM Unit) := by
  intro m q _
  simp only [run_modify, same]
  rfl

theorem hosted_get {α : Type} {f : Machine → MachineM α}
    (same : ∀ (m : Machine) (q : Program), q.code = m.program.code → (f (m.on q)).run (m.on q) = outcomeOn q ((f m).run m)) :
    Hosted (get >>= f) := by
  intro m q code
  simp only [run_bind, run_get]
  exact same m q code

theorem hosted_compute (f : Word → Word → Word) (i : Instruction) : Hosted (compute f i) :=
  (hosted_read _).bind fun _ => (hosted_read _).bind fun _ => hosted_write _ _

theorem hosted_divide (f : Word → Word → Word) (i : Instruction) : Hosted (divide f i) := by
  refine (hosted_read _).bind fun _ => .ite (hosted_fault _) ?_
  exact (hosted_read _).bind fun _ => hosted_write _ _

theorem hosted_call (i : Instruction) (next : Int) : Hosted (call i next) := by
  refine hosted_get fun m q same => ?_
  have args : (m.on q).args = m.args := rfl
  have entry : (m.on q).program.isEntry i.a1.value.toInt = m.program.isEntry i.a1.value.toInt :=
    Program.isEntry_of_code same _
  simp only [args, entry]
  split
  · rfl
  · split
    · rfl
    · simp only [run_bind, run_set]
      split <;> rfl

theorem hosted_enter (i : Instruction) : Hosted (enter i) := by
  refine hosted_get fun m q _ => ?_
  have calling : (m.on q).calling = m.calling := rfl
  simp only [calling]
  split
  · simp only [run_bind, run_modify, run_get]
    change EStateM.run (if i.a2.value.toInt ≠ m.pending.size then _ else _) _ = _
    split
    · rfl
    · have activations : (m.on q).activations = m.activations := rfl
      simp only [activations]
      cases m.activations <;> rfl
  · rfl

theorem hosted_leave (i : Instruction) : Hosted (leave i) := by
  refine hosted_get fun m q same => ?_
  have activations : (m.on q).activations = m.activations := rfl
  simp only [activations]
  cases m.activations with
  | nil => rfl
  | cons top rest =>
    -- The result is read or zero; both ways go on alike.
    refine Hosted.ite (.bind (.pure _) fun w => ?_) (.bind (hosted_read _) fun w => ?_) m q same
    all_goals
      refine .ite ?_ (.bind (hosted_modify fun _ _ => rfl) fun _ => ?_)
      all_goals
        refine .bind (hosted_modify fun _ _ => rfl) fun _ => ?_
        exact .ite (.pure _) (.bind (hosted_write _ _) fun _ => .pure _)

theorem hosted_execute (i : Instruction) (next : Int) : Hosted (execute i next) := by
  unfold execute
  split
  · exact (hosted_divide _ i).bind fun _ => .pure _
  · exact (hosted_divide _ i).bind fun _ => .pure _
  · exact (hosted_read _).bind fun _ => (hosted_write _ _).bind fun _ => .pure _
  · exact (hosted_look fun _ _ => rfl).bind fun _ => (hosted_write _ _).bind fun _ => .pure _
  · exact (hosted_read _).bind fun _ => .pure _
  · exact .pure _
  · exact (hosted_read _).bind fun _ => (hosted_modify fun _ _ => rfl).bind fun _ => .pure _
  · exact (hosted_read _).bind fun _ => (hosted_modify fun _ _ => rfl).bind fun _ => .pure _
  · exact hosted_call i next
  · exact (hosted_enter i).bind fun _ => .pure _
  · exact hosted_leave i
  · split
    · exact (hosted_compute _ i).bind fun _ => .pure _
    · exact hosted_fault _

theorem hosted_step : Hosted step := by
  refine hosted_get fun m q same => ?_
  have pc : (m.on q).pc = m.pc := rfl
  have code : (m.on q).program.code = m.program.code := same
  have fetch : (m.on q).program.fetch? m.pc = m.program.fetch? m.pc := Program.fetch?_of_code same _
  simp only [pc, code, fetch]
  split
  · rfl
  · split
    · rfl
    · split
      · rfl
      · refine Hosted.bind (hosted_modify fun _ _ => rfl) (fun _ => ?_) m q same
        exact (hosted_execute _ _).bind fun _ => hosted_modify fun _ _ => rfl

end Machine

namespace Run

open Machine (hosted_step)

def on (r : Run) (q : Program) : Run :=
  { r with machine := r.machine.on q }

theorem resume_on {interruption : Interruption} {limit fuel : Nat} {tracing : Bool} {m : Machine} {trace : Array Int}
    {q : Program} (same : q.code = m.program.code) :
    resume interruption limit tracing fuel (m.on q) trace = (resume interruption limit tracing fuel m trace).on q := by
  induction fuel generalizing m trace with
  | zero =>
    unfold resume
    have halted : (m.on q).halted = m.halted := rfl
    have stopped : stopped? interruption limit (m.on q) = stopped? interruption limit m := rfl
    rw [halted, stopped]
    cases m.halted with
    | true => rfl
    | false => cases stopped? interruption limit m <;> rfl
  | succ fuel ih =>
    unfold resume
    have halted : (m.on q).halted = m.halted := rfl
    have stopped : stopped? interruption limit (m.on q) = stopped? interruption limit m := rfl
    have recorded : record tracing trace (m.on q) = record tracing trace m := by
      unfold record
      have fetch : (m.on q).program.fetch? (m.on q).pc = m.program.fetch? m.pc := Program.fetch?_of_code same _
      rw [fetch]
      rfl
    have stepped := hosted_step m q same
    change Machine.step (m.on q) = Machine.outcomeOn q (Machine.step m) at stepped
    rw [halted, stopped]
    cases m.halted with
    | true => rfl
    | false =>
      cases stopped? interruption limit m with
      | some error => rfl
      | none =>
        simp only [recorded, stepped, Bool.false_eq_true, if_false]
        cases run : Machine.step m with
        | error failure m' => rfl
        | ok a m' =>
          have kept := hosted_step.program run
          exact ih (by rw [kept, same])

theorem ofProgram_of_code {p q : Program} (same : q.code = p.code) (maxSteps : Int) (interruption : Interruption)
    (tracing : Bool) : ofProgram q maxSteps interruption tracing = (ofProgram p maxSteps interruption tracing).on q :=
  resume_on (m := { program := p }) same

end Run

end MiniC
