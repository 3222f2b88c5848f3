import MiniC.Proofs.Compilation
import MiniC.Proofs.Machine.Runs
import MiniC.Proofs.Machine.Transitions

namespace MiniC

namespace Machine

variable {m m' m'' : Machine} {n : Nat}

inductive Performs : Nat → Machine → Machine → Prop where
  | refl (m : Machine) : Performs 0 m m
  | next {n : Nat} {m m' m'' : Machine} {i : Instruction} : m.program.fetch? m.pc = some i → step m = .ok () m' →
    Performs n m' m'' → Performs (n + 1) m m''

theorem step_ok_cases (run : step m = .ok () m') :
    (m.pc = m.program.code.size ∧ m' = { m with halted := true }) ∨
      ∃ i, m.program.fetch? m.pc = some i ∧ m'.steps = m.steps + 1 ∧ m'.halted = m.halted := by
  have made := transition m
  rw [run] at made
  cases made with
  | halts ended => exact .inl ⟨ended, rfl⟩
  | executes fetched _ effect => exact .inr ⟨_, fetched, by cases effect <;> exact ⟨rfl, rfl⟩⟩

theorem counts_of_fetch? {i : Instruction} (fetched : m.program.fetch? m.pc = some i) (run : step m = .ok () m') :
    m'.steps = m.steps + 1 ∧ m'.halted = m.halted := by
  rcases step_ok_cases run with ⟨ended, _⟩ | ⟨_, _, counts⟩
  · have bounds := Program.bounds_of_fetch? fetched
    omega
  · exact counts

theorem Transition.output_grows {outcome : Outcome} (made : Transition m outcome) :
    m.output.toList <+: outcome.machine.output.toList := by
  cases made with
  | halts | outside | refused => exact List.prefix_rfl
  | executes _ _ effect =>
    cases effect with
    | plain _ _ _ _ _ _ printed =>
      rcases printed with rfl | ⟨w, rfl⟩
      · exact List.prefix_rfl
      · exact ⟨[w], by simp [Outcome.machine]⟩
    | _ => exact List.prefix_rfl

theorem Transition.steps_le {outcome : Outcome} (made : Transition m outcome) : outcome.machine.steps ≤ m.steps + 1 := by
  cases made with
  | halts | outside | refused => exact Nat.le_succ _
  | executes _ _ effect => cases effect <;> exact Nat.le_refl _

theorem Transition.kind_ne {e : RuntimeError} (made : Transition m (.error (.error e) m')) : e.kind ≠ .stepLimit := by
  cases made with
  | outside | refused => simp
  | executes _ _ effect => cases effect <;> simp

namespace Performs

theorem unique (first : Performs n m m') (second : Performs n m m'') : m' = m'' := by
  induction first with
  | refl m =>
    cases second
    rfl
  | next _ run _ ih =>
    cases second with
    | next _ run' later =>
      rw [run] at run'
      cases run'
      exact ih later

theorem runs (h : Performs n m m') (running : m.halted = false) :
    Runs m m' ∧ m'.halted = false ∧ m'.steps = m.steps + n := by
  induction h with
  | refl m => exact ⟨.refl, running, rfl⟩
  | next fetched run _ ih =>
    obtain ⟨counted, halted⟩ := counts_of_fetch? fetched run
    obtain ⟨later, running', steps⟩ := ih (halted.trans running)
    exact ⟨.step running run counted later, running', by omega⟩

theorem program_eq (h : Performs n m m') : m'.program = m.program := by
  induction h with
  | refl m => rfl
  | @next _ m _ _ _ _ run _ ih =>
    have made := (transition m).program_eq
    rw [run] at made
    exact ih.trans made

end Performs

theorem performs_cases (n : Nat) (m : Machine) :
    (∃ k m', k < n ∧ Performs k m m' ∧ m'.pc = m'.program.code.size) ∨
      (∃ k m' failure m'', k < n ∧ Performs k m m' ∧ step m' = .error failure m'') ∨ ∃ m', Performs n m m' := by
  induction n generalizing m with
  | zero => exact .inr (.inr ⟨m, .refl m⟩)
  | succ n ih =>
    cases run : step m with
    | error failure m' => exact .inr (.inl ⟨0, m, failure, m', Nat.succ_pos n, .refl m, run⟩)
    | ok _ m₁ =>
      rcases step_ok_cases run with ⟨ended, _⟩ | ⟨i, fetched, _⟩
      · exact .inl ⟨0, m, Nat.succ_pos n, .refl m, ended⟩
      · rcases ih m₁ with ⟨k, m', lt, later, ended⟩ | ⟨k, m', failure, m'', lt, later, fails⟩ | ⟨m', later⟩
        · exact .inl ⟨k + 1, m', Nat.succ_lt_succ lt, .next fetched run later, ended⟩
        · exact .inr (.inl ⟨k + 1, m', failure, m'', Nat.succ_lt_succ lt, .next fetched run later, fails⟩)
        · exact .inr (.inr ⟨m', .next fetched run later⟩)

end Machine

open Machine (Performs)

namespace Run

def AtLimit (r : Run) : Prop :=
  ∃ e, r.failure = some (.error e) ∧ e.kind = .stepLimit

def limitError (limit : Nat) (pc : Int) : RuntimeError :=
  ⟨.stepLimit, pc, "step limit of " ++ Decimal.ofNat limit ++ " exceeded", none⟩

section Limit

variable {m m' : Machine}

theorem resume_limit {limit fuel : Nat} {tracing : Bool} {trace : Array Int} (running : m.halted = false)
    (reached : limit ≤ m.steps) :
    resume never limit tracing fuel m trace = ⟨m, trace, some (.error (limitError limit m.pc))⟩ := by
  have stops : stopped? never limit m = some (limitError limit m.pc) := by
    simp [stopped?, never, reached, limitError]
  unfold resume
  rw [running, stops]
  rfl

variable {p : Program} {n k : Nat} (tracing : Bool)

theorem limitOf_natCast (positive : 1 ≤ k) : limitOf k = k := by
  rw [limitOf, if_neg (by omega), Int.toNat_natCast]

/-- A program with as many instructions to perform as the limit allows is stopped, whatever comes next. -/
theorem ofProgram_of_limit (positive : 1 ≤ k) (h : Performs k { program := p } m) :
    (ofProgram p k never tracing).failure = some (.error (limitError k m.pc)) ∧
      (ofProgram p k never tracing).machine = m := by
  obtain ⟨runs, running, steps⟩ := h.runs rfl
  have all : m.steps = k := steps.trans (Nat.zero_add k)
  rw [ofProgram, limitOf_natCast positive]
  have resumed : ∃ fuel trace, fuel + m.steps = k + 1 ∧
      resume never k tracing (k + 1) { program := p } #[] = resume never k tracing fuel m trace :=
    resume_of_runs runs all.le rfl
  obtain ⟨fuel, trace, _, resumed⟩ := resumed
  rw [resumed, resume_limit running all.ge]
  exact ⟨rfl, rfl⟩

theorem ofProgram_of_end (h : Performs n { program := p } m) (ended : m.pc = m.program.code.size) (lt : n < k) :
    (ofProgram p k never tracing).failure = none := by
  obtain ⟨runs, running, steps⟩ := h.runs rfl
  have program : m.program = p := h.program_eq
  have room : (m.steps : Int) < k := by
    rw [steps, Nat.zero_add]
    omega
  exact (ofProgram_of_halts runs program running (by rw [← program, ended]) room).1

theorem ofProgram_of_failure {failure : Failure} (h : Performs n { program := p } m)
    (fails : Machine.step m = .error failure m') (lt : n < k) :
    (ofProgram p k never tracing).failure = some failure ∧ ¬ (ofProgram p k never tracing).AtLimit := by
  obtain ⟨runs, running, steps⟩ := h.runs rfl
  have room : (m.steps : Int) < k := by
    rw [steps, Nat.zero_add]
    omega
  have failed : (ofProgram p k never tracing).failure = some failure := (ofProgram_of_fails runs running fails room).1
  refine ⟨failed, ?_⟩
  rintro ⟨e, limited, kind⟩
  rw [failed] at limited
  cases limited
  have made := Machine.transition m
  rw [fails] at made
  exact made.kind_ne kind

theorem failure_eq_none_iff (positive : 1 ≤ k) :
    (ofProgram p k never tracing).failure = none ↔
      ∃ n m, n < k ∧ Performs n { program := p } m ∧ m.pc = m.program.code.size := by
  constructor
  · intro succeeds
    rcases Machine.performs_cases k { program := p } with halts | ⟨n, m, failure, m', lt, h, fails⟩ | ⟨m, h⟩
    · exact halts
    · have failed := (ofProgram_of_failure tracing h fails lt).1
      rw [succeeds] at failed
      cases failed
    · have stopped := (ofProgram_of_limit tracing positive h).1
      rw [succeeds] at stopped
      cases stopped
  · rintro ⟨n, m, lt, h, ended⟩
    exact ofProgram_of_end tracing h ended lt

theorem atLimit_iff (positive : 1 ≤ k) :
    (ofProgram p k never tracing).AtLimit ↔ ∃ m, Performs k { program := p } m := by
  constructor
  · intro limited
    rcases Machine.performs_cases k { program := p } with ⟨n, m, lt, h, ended⟩ | ⟨n, m, failure, m', lt, h, fails⟩ | ⟨m, h⟩
    · obtain ⟨e, failed, _⟩ := limited
      rw [ofProgram_of_end tracing h ended lt] at failed
      cases failed
    · exact absurd limited (ofProgram_of_failure tracing h fails lt).2
    · exact ⟨m, h⟩
  · rintro ⟨m, h⟩
    exact ⟨_, (ofProgram_of_limit tracing positive h).1, rfl⟩

end Limit

/-- What is expected of a limit: a program that gets to its end within it succeeds, and one that is
    stopped by it has an instruction left. -/
structure Exact (p : Program) (k : Nat) (tracing : Bool) : Prop where
  halts : ∀ n m, n ≤ k → Performs n { program := p } m → m.pc = p.code.size →
    (ofProgram p k never tracing).failure = none
  left : (ofProgram p k never tracing).AtLimit → ∃ m i, Performs k { program := p } m ∧ p.fetch? m.pc = some i

/-- A run succeeds exactly if it gets to the end of the program with fewer instructions than its limit
    allows, and it is stopped exactly if it performs as many. This is what is expected of the limit,
    except where the last of them leads to no instruction, be it to the end of the program. -/
theorem exact_iff_fetch {p : Program} {k : Nat} (positive : 1 ≤ k) (tracing : Bool) :
    let r := ofProgram p k never tracing
    (r.failure = none ↔ ∃ n m, n < k ∧ Performs n { program := p } m ∧ m.pc = p.code.size) ∧
    (r.AtLimit ↔ ∃ m, Performs k { program := p } m) ∧
    (∀ m, Performs k { program := p } m → r.failure = some (.error (limitError k m.pc)) ∧ r.machine = m) ∧
    (Exact p k tracing ↔ ∀ m, Performs k { program := p } m → ∃ i, p.fetch? m.pc = some i) := by
  intro r
  have succeeds : r.failure = none ↔ ∃ n m, n < k ∧ Performs n { program := p } m ∧ m.pc = p.code.size := by
    refine (failure_eq_none_iff tracing positive).trans ⟨?_, ?_⟩
    · rintro ⟨n, m, lt, h, ended⟩
      exact ⟨n, m, lt, h, by rw [ended, h.program_eq]⟩
    · rintro ⟨n, m, lt, h, ended⟩
      exact ⟨n, m, lt, h, by rw [ended, h.program_eq]⟩
  refine ⟨succeeds, atLimit_iff tracing positive, fun m h => ofProgram_of_limit tracing positive h, ?_, ?_⟩
  · intro exact m h
    obtain ⟨m', i, h', fetched⟩ := exact.left ((atLimit_iff tracing positive).mpr ⟨m, h⟩)
    rw [h.unique h']
    exact ⟨i, fetched⟩
  · intro left
    constructor
    · intro n m le h ended
      rcases Nat.lt_or_eq_of_le le with lt | rfl
      · exact succeeds.mpr ⟨n, m, lt, h, ended⟩
      · obtain ⟨i, fetched⟩ := left m h
        have bounds := Program.bounds_of_fetch? fetched
        omega
    · intro limited
      obtain ⟨m, h⟩ := (atLimit_iff tracing positive).mp limited
      obtain ⟨i, fetched⟩ := left m h
      exact ⟨m, i, h, fetched⟩

def chatter : Program :=
  { code := #[{ op := .print, a1 := .imm 7 }, { op := .jp, a1 := .label 0 }] }

theorem exact_iff_fetch_chatter : 1 ≤ 3 ∧ (ofProgram chatter 3 never true).AtLimit ∧ Exact chatter 3 true := by
  have positive : 1 ≤ 3 := by decide
  have performs : Performs 3 { program := chatter } _ := .next rfl rfl (.next rfl rfl (.next rfl rfl (.refl _)))
  obtain ⟨_, limited, _, exact⟩ := exact_iff_fetch (p := chatter) positive true
  refine ⟨positive, limited.mpr ⟨_, performs⟩, exact.mpr fun m h => ?_⟩
  rw [h.unique performs]
  exact ⟨_, rfl⟩

/-- A text whose program gets to its end with five instructions. -/
def sevenText : Text :=
  "void main(void) \x7b output(7); \x7d"

theorem not_exact_sevenText : ∃ c, compile sevenText = .ok c ∧ c.ok = true ∧
    (∃ m, Performs 5 { program := c.program } m ∧ m.pc = c.program.code.size) ∧
    (ofProgram c.program 5 never false).AtLimit ∧ ¬ Exact c.program 5 false := by
  have checked : (compile sevenText).toOption.any (fun c => c.ok &&
      (ofProgram c.program 5 never false).failure = some (.error (limitError 5 c.program.code.size))) = true := by
    decide +kernel
  obtain ⟨c, run, found⟩ := exists_of_checked checked
  simp only [Bool.and_eq_true, decide_eq_true_eq] at found
  obtain ⟨ok, failure⟩ := found
  have limited : (ofProgram c.program 5 never false).AtLimit := ⟨_, failure, rfl⟩
  obtain ⟨m, performs⟩ := (atLimit_iff false (k := 5) (by decide)).mp limited
  have stopped : limitError 5 c.program.code.size = limitError 5 m.pc := by
    have same := (ofProgram_of_limit false (by decide) performs).1
    exact Failure.error.inj (Option.some.inj (failure.symm.trans same))
  have ended : m.pc = c.program.code.size := (RuntimeError.mk.inj stopped).2.1.symm
  refine ⟨c, run, ok, ⟨m, performs, ended⟩, limited, fun exact => ?_⟩
  have succeeds := exact.halts 5 m (Nat.le_refl 5) performs ended
  rw [Nat.cast_ofNat, failure] at succeeds
  cases succeeds

inductive Leads (limit : Nat) (tracing : Bool) : Machine → Array Int → Run → Prop where
  | halted {m : Machine} {trace : Array Int} : m.halted = true → Leads limit tracing m trace ⟨m, trace, none⟩
  | stopped {m : Machine} {trace : Array Int} : m.halted = false → m.steps = limit →
    Leads limit tracing m trace ⟨m, trace, some (.error (limitError limit m.pc))⟩
  | fails {m m' : Machine} {trace : Array Int} {failure : Failure} : m.halted = false → m.steps < limit →
    Machine.step m = .error failure m' → Leads limit tracing m trace ⟨m', record tracing trace m, some failure⟩
  | goes {m m' : Machine} {trace : Array Int} {r : Run} : m.halted = false → m.steps < limit →
    Machine.step m = .ok () m' → Leads limit tracing m' (record tracing trace m) r → Leads limit tracing m trace r

section Extension

variable {m : Machine} {limit limit' fuel : Nat} {tracing : Bool} {trace : Array Int} {r r' : Run}

/-- The steps that are left to make are enough, also for the one that halts and does not count. -/
theorem leads_resume (below : m.steps ≤ limit) (enough : fuel + m.steps = limit + 1) :
    Leads limit tracing m trace (resume never limit tracing fuel m trace) := by
  induction fuel generalizing m trace with
  | zero => omega
  | succ fuel ih =>
    cases halted : m.halted with
    | true =>
      rw [resume_halted halted]
      exact .halted halted
    | false =>
      rcases Nat.lt_or_eq_of_le below with room | reached
      · rw [resume_step halted room]
        cases run : Machine.step m with
        | error failure m' => exact .fails halted room run
        | ok _ m' =>
          refine .goes halted room run ?_
          rcases Machine.step_ok_cases run with ⟨_, rfl⟩ | ⟨_, _, counted, _⟩
          · simp only
            rw [resume_halted rfl]
            exact .halted rfl
          · exact ih (by omega) (by omega)
      · rw [resume_limit halted reached.ge]
        exact .stopped halted reached

theorem leads_ofProgram {p : Program} {k : Nat} (positive : 1 ≤ k) :
    Leads k tracing { program := p } #[] (ofProgram p k never tracing) := by
  rw [ofProgram, limitOf_natCast positive]
  exact leads_resume (Nat.zero_le k) rfl

/-- What a run prints and records comes after what another one has printed and recorded. -/
structure Extends (r r' : Run) : Prop where
  program : r'.machine.program = r.machine.program
  output : r.machine.output.toList <+: r'.machine.output.toList
  trace : r.trace.toList <+: r'.trace.toList

theorem Extends.refl (r : Run) : r.Extends r :=
  ⟨rfl, List.prefix_rfl, List.prefix_rfl⟩

theorem Extends.trans {r'' : Run} (first : r.Extends r') (second : r'.Extends r'') : r.Extends r'' :=
  ⟨second.program.trans first.program, first.output.trans second.output, first.trace.trans second.trace⟩

theorem Extends.outputText_prefix (h : r.Extends r') :
    outputText r.machine.output.toList <+: outputText r'.machine.output.toList := by
  obtain ⟨later, output⟩ := h.output
  rw [← output, outputText, outputText, List.flatMap_append]
  exact List.prefix_append _ _

theorem Extends.traceText_prefix (h : r.Extends r') : r.traceText <+: r'.traceText := by
  obtain ⟨later, trace⟩ := h.trace
  rw [traceText, traceText, h.program, ← trace, List.flatMap_append]
  exact List.prefix_append _ _

theorem record_cases (tracing : Bool) (trace : Array Int) (m : Machine) :
    record tracing trace m = trace ∨
      record tracing trace m = trace.push m.pc ∧ ∃ i, m.program.fetch? m.pc = some i := by
  unfold record
  split
  · rename_i recorded
    exact .inr ⟨rfl, Option.isSome_iff_exists.mp recorded.2⟩
  · exact .inl rfl

theorem extends_step (tracing : Bool) (trace : Array Int) (m : Machine) (failure failure' : Option Failure) :
    Extends ⟨m, trace, failure⟩ ⟨Machine.Outcome.machine (Machine.step m), record tracing trace m, failure'⟩ := by
  have made := Machine.transition m
  refine ⟨made.program_eq, made.output_grows, ?_⟩
  rcases record_cases tracing trace m with same | ⟨pushed, _⟩
  · exact ⟨[], by rw [same, List.append_nil]⟩
  · exact ⟨[m.pc], by rw [pushed, Array.toList_push]⟩

theorem Leads.extended (h : Leads limit tracing m trace r) (failure : Option Failure) : Extends ⟨m, trace, failure⟩ r := by
  induction h generalizing failure with
  | halted | stopped => exact ⟨rfl, List.prefix_rfl, List.prefix_rfl⟩
  | @fails m m' trace failure' _ _ run =>
    have step := extends_step tracing trace m failure (some failure')
    rwa [run] at step
  | @goes m m' trace r _ _ run _ ih =>
    have step := extends_step tracing trace m failure none
    rw [run] at step
    exact step.trans (ih none)

theorem Leads.bounded (h : Leads limit tracing m trace r) (below : m.steps ≤ limit) (recorded : trace.size ≤ m.steps) :
    r.machine.steps ≤ limit ∧ r.trace.size ≤ limit ∧ (r.failure = none → r.machine.halted = true) := by
  induction h with
  | halted halted => exact ⟨below, recorded.trans below, fun _ => halted⟩
  | stopped => exact ⟨below, recorded.trans below, fun succeeds => by cases succeeds⟩
  | @fails m m' trace failure _ room run =>
    have steps := (Machine.transition m).steps_le
    rw [run] at steps
    have size : (record tracing trace m).size ≤ trace.size + 1 := by
      rcases record_cases tracing trace m with same | ⟨pushed, _⟩ <;> simp [*]
    exact ⟨Nat.le_trans steps room, by simp only; omega, fun succeeds => by cases succeeds⟩
  | @goes m m' trace r _ room run _ ih =>
    have size : (record tracing trace m).size ≤ m'.steps := by
      rcases Machine.step_ok_cases run with ⟨ended, rfl⟩ | ⟨_, _, counted, _⟩
      · rcases record_cases tracing trace m with same | ⟨_, i, fetched⟩
        · rwa [same]
        · have bounds := Program.bounds_of_fetch? fetched
          omega
      · rw [counted]
        rcases record_cases tracing trace m with same | ⟨pushed, _⟩ <;> simp [*]; omega
    have steps := (Machine.transition m).steps_le
    rw [run] at steps
    exact ih (Nat.le_trans steps room) size

/-- Under a larger limit a run is the same, or it goes on where the smaller one has stopped it. -/
theorem Leads.of_le (h : Leads limit tracing m trace r) (h' : Leads limit' tracing m trace r') (le : limit ≤ limit') :
    r' = r ∨ r.AtLimit ∧ Leads limit' tracing r.machine r.trace r' := by
  induction h with
  | halted halted =>
    cases h' with
    | halted => exact .inl rfl
    | stopped running | fails running | goes running =>
      rw [halted] at running
      cases running
  | stopped => exact .inr ⟨⟨_, rfl, rfl⟩, h'⟩
  | fails running room run =>
    cases h' with
    | halted halted =>
      rw [halted] at running
      cases running
    | stopped _ reached => omega
    | fails _ _ run' =>
      rw [run] at run'
      cases run'
      exact .inl rfl
    | goes _ _ run' =>
      rw [run] at run'
      cases run'
  | goes running room run _ ih =>
    cases h' with
    | halted halted =>
      rw [halted] at running
      cases running
    | stopped _ reached => omega
    | fails _ _ run' =>
      rw [run] at run'
      cases run'
    | goes _ _ run' later =>
      rw [run] at run'
      cases run'
      exact ih later

end Extension

/-- A larger limit only extends a run: what a run prints and records under a limit comes first under a
    larger one, it executes and records no more instructions than the limit allows, without a failure it
    has halted, and unless it is stopped by the limit it is the same run under both. -/
theorem extends_of_le {p : Program} {k k' : Nat} (positive : 1 ≤ k) (le : k ≤ k') (tracing : Bool) :
    let r := ofProgram p k never tracing
    let r' := ofProgram p k' never tracing
    (outputText r.machine.output.toList <+: outputText r'.machine.output.toList ∧ r.traceText <+: r'.traceText) ∧
    (r.machine.steps ≤ k ∧ r.trace.size ≤ k) ∧ (r.failure = none → r.machine.halted = true) ∧
    (¬ r.AtLimit → r' = r) := by
  intro r r'
  have leads : Leads k tracing { program := p } #[] r := leads_ofProgram positive
  have leads' : Leads k' tracing { program := p } #[] r' := leads_ofProgram (Nat.le_trans positive le)
  obtain ⟨steps, size, halts⟩ := leads.bounded (Nat.zero_le k) (Nat.le_refl 0)
  have extended : r.Extends r' := by
    rcases leads.of_le leads' le with same | ⟨_, later⟩
    · rw [same]
      exact .refl r
    · exact later.extended r.failure
  refine ⟨⟨extended.outputText_prefix, extended.traceText_prefix⟩, ⟨steps, size⟩, halts, fun free => ?_⟩
  exact (leads.of_le leads' le).resolve_right fun limited => free limited.1

theorem extends_of_le_chatter :
    let r := ofProgram chatter (3 : Nat) never true
    let r' := ofProgram chatter (8 : Nat) never true
    1 ≤ 3 ∧ 3 ≤ 8 ∧ outputText r.machine.output.toList <+: outputText r'.machine.output.toList ∧
      r.traceText <+: r'.traceText ∧ r.machine.steps ≤ 3 := by
  have positive : 1 ≤ 3 := by decide
  have le : 3 ≤ 8 := by decide
  obtain ⟨texts, bounds, _⟩ := extends_of_le (p := chatter) positive le true
  exact ⟨positive, le, texts.1, texts.2, bounds.1⟩

end Run

end MiniC
