import MiniC.Machine.Run
import MiniC.Proofs.Machine.Execution

namespace MiniC

namespace Machine

inductive Runs : Machine → Machine → Prop where
  | refl {m : Machine} : Runs m m
  | step {m m' m'' : Machine} :
    m.halted = false → step m = .ok () m' → m'.steps = m.steps + 1 → Runs m' m'' → Runs m m''

namespace Runs

variable {m m' m'' : Machine}

theorem single (running : m.halted = false) (run : Machine.step m = .ok () m') (counted : m'.steps = m.steps + 1) :
    Runs m m' :=
  .step running run counted .refl

theorem trans (first : Runs m m') (second : Runs m' m'') : Runs m m'' := by
  induction first with
  | refl => exact second
  | step running run counted _ ih => exact .step running run counted (ih second)

theorem steps_le (h : Runs m m') : m.steps ≤ m'.steps := by
  induction h with
  | refl => exact Nat.le_refl _
  | step _ _ counted _ ih => omega

end Runs

end Machine

namespace Run

def never : Interruption :=
  fun _ => none

variable {m m' : Machine} {limit fuel : Nat} {tracing : Bool} {trace : Array Int}

theorem resume_step (running : m.halted = false) (room : m.steps < limit) :
    resume never limit tracing (fuel + 1) m trace =
      match Machine.step m with
      | .ok _ m' => resume never limit tracing fuel m' (record tracing trace m)
      | .error failure m' => ⟨m', record tracing trace m, some failure⟩ := by
  have free : stopped? never limit m = none := by
    have below : ¬ limit ≤ m.steps := by omega
    simp [stopped?, never, below]
  rw [resume, running, free]
  rfl

theorem resume_halted (halted : m.halted = true) : resume never limit tracing fuel m trace = ⟨m, trace, none⟩ := by
  unfold resume
  rw [halted]
  rfl

theorem resume_of_runs (h : m.Runs m') (room : m'.steps ≤ limit) (enough : fuel + m.steps = limit + 1) :
    ∃ fuel' trace', fuel' + m'.steps = limit + 1 ∧
      resume never limit tracing fuel m trace = resume never limit tracing fuel' m' trace' := by
  induction h generalizing fuel trace with
  | refl => exact ⟨fuel, trace, enough, rfl⟩
  | @step m m₁ m' running run counted rest ih =>
    have le := rest.steps_le
    obtain ⟨fuel, rfl⟩ : ∃ k, fuel = k + 1 := ⟨fuel - 1, by omega⟩
    rw [resume_step running (by omega), run]
    exact ih room (by omega)

theorem ofProgram_of_runs {p : Program} {maxSteps : Int} (h : Machine.Runs { program := p } m)
    (room : (m.steps : Int) < maxSteps) :
    ∃ fuel trace, m.steps < maxSteps.toNat ∧ fuel + m.steps = maxSteps.toNat ∧
      ofProgram p maxSteps never tracing = resume never maxSteps.toNat tracing (fuel + 1) m trace := by
  have limit : limitOf maxSteps = maxSteps.toNat := by rw [limitOf, if_neg (by omega)]
  have room' : m.steps < maxSteps.toNat := by omega
  have resumed : ∃ fuel trace, fuel + m.steps = maxSteps.toNat + 1 ∧
      ofProgram p maxSteps never tracing = resume never maxSteps.toNat tracing fuel m trace := by
    rw [ofProgram, limit]
    exact resume_of_runs h room'.le rfl
  obtain ⟨fuel, trace, enough, resumed⟩ := resumed
  obtain ⟨fuel, rfl⟩ : ∃ k, fuel = k + 1 := ⟨fuel - 1, by omega⟩
  exact ⟨fuel, trace, room', by omega, resumed⟩

theorem ofProgram_of_halts {p : Program} {maxSteps : Int} (h : Machine.Runs { program := p } m) (program : m.program = p)
    (running : m.halted = false) (pc : m.pc = p.code.size) (room : (m.steps : Int) < maxSteps) :
    (ofProgram p maxSteps never tracing).failure = none ∧
      (ofProgram p maxSteps never tracing).machine = { m with halted := true } := by
  obtain ⟨fuel, trace, room', _, run⟩ := ofProgram_of_runs h room
  have halts : Machine.step m = .ok () { m with halted := true } := Machine.step_end (by rw [pc, program])
  rw [run, resume_step running room', halts]
  simp only
  rw [resume_halted rfl]
  exact ⟨rfl, rfl⟩

theorem ofProgram_of_fails {p : Program} {maxSteps : Int} {failure : Failure} (h : Machine.Runs { program := p } m)
    (running : m.halted = false) (fails : Machine.step m = .error failure m') (room : (m.steps : Int) < maxSteps) :
    (ofProgram p maxSteps never tracing).failure = some failure ∧
      (ofProgram p maxSteps never tracing).machine = m' := by
  obtain ⟨fuel, trace, room', _, run⟩ := ofProgram_of_runs h room
  rw [run, resume_step running room', fails]
  exact ⟨rfl, rfl⟩

end Run

end MiniC
