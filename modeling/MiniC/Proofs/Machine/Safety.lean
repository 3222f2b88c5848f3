import MiniC.Proofs.Compilation
import MiniC.Proofs.Machine.Transitions

namespace MiniC

namespace Machine

open Translation (EntryAt Body Proper)

/-- Where the calls that have not returned go on, and how many arguments are pushed for calls that
    their callers prepare. The first call was made by the start of the program. -/
inductive Returns (code : Array Instruction) : List Activation → Int → Prop where
  | start {params : Word} : Returns code [⟨1, .absent, stackBase, stackBase, params⟩] 0
  | call {entry last ret : Nat} {k : Int} {result : Operand} {fp sp params : Word} {rest : List Activation} :
    Body code entry last → entry < ret → ret ≤ last → 0 ≤ depth code ret →
      (result = .absent ∨ result.isStorage = true) → Returns code rest k →
      Returns code (⟨ret, result, fp, sp, params⟩ :: rest) (depth code ret + k)

theorem Returns.nonneg {code : Array Instruction} {activations : List Activation} {k : Int}
    (h : Returns code activations k) : 0 ≤ k := by
  induction h with
  | start => exact Int.le_refl 0
  | call _ _ _ positive _ _ ih => omega

theorem Returns.setParams {code : Array Instruction} {top : Activation} {rest : List Activation} {k : Int}
    (h : Returns code (top :: rest) k) (params : Word) : Returns code ({ top with params := params } :: rest) k := by
  cases h with
  | start => exact .start
  | call body after before positive target returns => exact .call body after before positive target returns

structure Idle (m : Machine) : Prop where
  activations : m.activations = []
  args : m.args = #[]
  fp : m.fp = stackBase
  sp : m.sp = stackBase

/-- Whether the machine is in the body of a function, with `k` arguments pushed by the callers. -/
structure Inside (m : Machine) (entry last n : Nat) (k : Int) : Prop where
  pc : m.pc = n
  running : m.halted = false
  body : Body m.program.code entry last
  after : entry < n
  before : n ≤ last
  returns : Returns m.program.code m.activations k
  pushed : m.args.size = depth m.program.code n + k

inductive Safe (m : Machine) : Prop where
  | start : m.pc = 0 → m.halted = false → m.Idle → Safe m
  | done : m.pc = 1 ∨ m.pc = m.program.code.size → m.Idle → Safe m
  | entering {callee : Nat} :
    m.pc = callee → m.halted = false → m.calling = true → EntryAt m.program.code callee m.pending.size →
      m.pending.size < 2 ^ 63 → Returns m.program.code m.activations m.args.size → Safe m
  | inside {entry last n : Nat} {k : Int} : m.Inside entry last n k → Safe m

def Divides (failure : Failure) (m : Machine) : Prop :=
  failure = .error ⟨.fault, m.pc, MachineFault.divisionByZero.message, none⟩ ∧
    ∃ i, m.program.fetch? m.pc = some i ∧ (i.op = .div ∨ i.op = .mod)

/-- Whether nothing is left of any call if the machine has halted, and its next step goes on or divides
    by zero. -/
structure Harmless (m : Machine) : Prop where
  idle : m.halted = true → m.Idle
  divides : ∀ failure m', step m = .error failure m' → Divides failure m'

def Progresses (m : Machine) : Prop :=
  (∃ m', step m = .ok () m' ∧ m'.program = m.program ∧ m'.Safe) ∨
    ∃ failure m', step m = .error failure m' ∧ Divides failure m'

variable {m : Machine} {entry last n : Nat} {k : Int} {i : Instruction}

namespace Inside

theorem lt_last (h : m.Inside entry last n k) (found : m.program.code[n]? = some i) (other : i.op ≠ .ret) : n < last := by
  rcases Nat.eq_or_lt_of_le h.before with rfl | before
  · rw [h.body.leave] at found
    cases found
    exact (other rfl).elim
  · exact before

theorem bound (h : m.Inside entry last n k) : last < m.program.code.size :=
  (Array.getElem?_eq_some_iff.mp h.body.leave).1

theorem next {m' : Machine} (h : m.Inside entry last n k) (found : m.program.code[n]? = some i) (other : i.op ≠ .ret)
    (run : step m = .ok () m') (pc : m'.pc = (n + 1 : Nat)) (program : m'.program = m.program)
    (halted : m'.halted = m.halted) (activations : m'.activations = m.activations)
    (args : (m'.args.size : Int) = m.args.size + i.push) : m.Progresses := by
  have pushed : (m'.args.size : Int) = depth m.program.code (n + 1) + k := by
    rw [args, h.pushed, depth_succ found]
    omega
  refine .inl ⟨m', run, program, @Safe.inside _ entry last (n + 1) k ?_⟩
  exact
    { pc := pc
      running := halted.trans h.running
      body := by rw [program]; exact h.body
      after := Nat.lt_succ_of_lt h.after
      before := h.lt_last found other
      returns := by rw [program, activations]; exact h.returns
      pushed := by rw [program]; exact pushed }

theorem jump {target : Nat} (h : m.Inside entry last n k) (reaches : Translation.Reaches m.program.code entry last n target)
    (run : step m = .ok () (m.moved target)) : m.Progresses := by
  refine .inl ⟨m.moved target, run, rfl, @Safe.inside _ entry last target k ?_⟩
  have pushed := h.pushed
  rw [← reaches.level] at pushed
  exact ⟨rfl, h.running, h.body, reaches.after, reaches.before, h.returns, pushed⟩

theorem compute {op : Opcode} {x y t : Operand} (h : m.Inside entry last n k)
    (here : m.At n { op := op, a1 := x, a2 := y, a3 := t }) (known : Computes op) (left : x.Readable) (right : y.Readable)
    (target : t.isStorage = true) : m.Progresses := by
  have other : op ≠ .ret := by
    rintro rfl
    simp [Computes, arithmetic?] at known
  have silent : ({ op := op, a1 := x, a2 := y, a3 := t } : Instruction).push = 0 := by
    cases op <;> simp [Computes, arithmetic?] at known <;> rfl
  have computed : ∀ w, step m = .ok () ((m.stored t w).moved (n + 1 : Nat)) → m.Progresses :=
    fun w run => h.next here.found other run rfl rfl rfl rfl (by rw [silent, Int.add_zero]; rfl)
  have divided : ∀ f, division? op = some f → (op = .div ∨ op = .mod) → m.Progresses := by
    intro f known divides
    by_cases zero : m.word y = 0
    · have fetched : m.program.fetch? m.pc = some { op := op, a1 := x, a2 := y, a3 := t } := by
        rw [here.pc]
        exact here.found
      refine .inr ⟨_, _, step_divide_zero known here left right target zero, ?_, _, fetched, divides⟩
      rw [← here.pc]
    · exact computed _ (step_divide known here left right target zero)
  rcases known with known | rfl | rfl
  · obtain ⟨f, known⟩ := Option.isSome_iff_exists.mp known
    exact computed _ (step_compute known here left right target)
  · exact divided _ rfl (.inl rfl)
  · exact divided _ rfl (.inr rfl)

theorem call {callee count : Nat} {t : Operand} (h : m.Inside entry last n k) (wellFormed : m.program.WellFormed)
    (here : m.At n { op := .call, a1 := .label callee, a2 := .imm (.ofNat count), a3 := t })
    (isEntry : EntryAt m.program.code callee count) (enough : count ≤ depth m.program.code n) (few : count ≤ n)
    (target : t = .absent ∨ t.isStorage = true) : m.Progresses := by
  have within := isEntry.lt_size
  have short := wellFormed.short
  have bound := h.bound
  have before := h.lt_last here.found nofun
  have positive := h.returns.nonneg
  have pushed := h.pushed
  have few' : count < 2 ^ 63 := by omega
  have enough' : count ≤ m.args.size := by omega
  have run := step_call here target (by omega) few' isEntry.isEntry enough'
  have left : depth m.program.code (n + 1) = depth m.program.code n - count := by
    rw [depth_succ here.found, Instruction.push]
    have value : (Operand.imm (.ofNat count)).value.toInt = count := Int64.toInt_ofNat_of_lt few'
    simp only [value]
    omega
  have taken : (m.called (n + 1 : Nat) count t).pending.size = count := by
    simp only [called, Array.size_extract]
    omega
  have kept : ((m.called (n + 1 : Nat) count t).args.size : Int) = depth m.program.code (n + 1) + k := by
    simp only [called, Array.size_extract]
    omega
  refine .inl ⟨_, run, rfl, .entering rfl h.running rfl ?_ ?_ ?_⟩
  · exact (congrArg (EntryAt m.program.code callee) taken).mpr isEntry
  · exact lt_of_eq_of_lt taken few'
  · refine (congrArg (Returns m.program.code _) kept).mpr ?_
    exact .call h.body (Nat.lt_succ_of_lt h.after) before (by omega) target h.returns

theorem ret {x : Operand} (h : m.Inside entry last n k) (here : m.At n { op := .ret, a1 := x })
    (value : x = .absent ∨ x.Readable) (empty : depth m.program.code n = 0) : m.Progresses := by
  have pushed := h.pushed
  rw [empty, Int.zero_add] at pushed
  cases activations : m.activations with
  | nil =>
    have returns := h.returns
    rw [activations] at returns
    cases returns
  | cons top rest =>
    have returns := h.returns
    rw [activations] at returns
    cases returns with
    | start =>
      have run := step_return here value (.inl rfl) activations
      have none : m.args = #[] := by simpa using pushed
      exact .inl ⟨_, run, rfl, .done (.inl rfl) ⟨rfl, none, rfl, rfl⟩⟩
    | @call entry last ret k result fp sp params rest body after before positive target returns =>
      have run := step_return here value target activations
      refine .inl ⟨_, run, rfl, @Safe.inside _ entry last ret k ?_⟩
      exact ⟨rfl, h.running, body, after, before, returns, pushed⟩

theorem progresses (h : m.Inside entry last n k) (wellFormed : m.program.WellFormed) : m.Progresses := by
  obtain ⟨i, found, proper⟩ := h.body.covered n h.after (Nat.lt_succ_of_le h.before)
  have here : m.At n i := ⟨h.pc, found⟩
  have value : ∀ {target : Nat}, Translation.Reaches m.program.code entry last n target →
      (Operand.label target).value.toInt = target := by
    intro target reaches
    exact Operand.value_label (Nat.lt_trans (Nat.lt_of_le_of_lt reaches.before h.bound) wellFormed.short)
  cases proper with
  | compute known left right target => exact h.compute here known left right target
  | assign readable target => exact h.next found nofun (step_assign here readable target) rfl rfl rfl rfl rfl
  | address source _ target => exact h.next found nofun (step_address here source target) rfl rfl rfl rfl rfl
  | jump reaches =>
    have run := step_jump here
    rw [value reaches] at run
    exact h.jump reaches run
  | @branch x t readable reaches =>
    have run := step_branch here readable
    by_cases zero : m.word x = 0
    · rw [if_pos zero, value reaches] at run
      exact h.jump reaches run
    · rw [if_neg zero] at run
      exact h.next found nofun run rfl rfl rfl rfl rfl
  | print readable => exact h.next found nofun (step_print here readable) rfl rfl rfl rfl rfl
  | param readable =>
    exact h.next found nofun (step_param here readable) rfl rfl rfl rfl (by simp [moved, Instruction.push])
  | call isEntry enough few target => exact h.call wellFormed here isEntry enough few target
  | ret value empty => exact h.ret here value empty

end Inside

theorem Safe.progresses (h : m.Safe) (wellFormed : m.program.WellFormed) : m.Progresses := by
  have short := wellFormed.short
  cases h with
  | start pc running idle =>
    obtain ⟨main, found, isEntry⟩ := wellFormed.start
    have here : m.At 0 { op := .call, a1 := .label main, a2 := .imm (.ofNat 0), a3 := .absent } := ⟨pc, found⟩
    have within := isEntry.lt_size
    have run := step_call here (.inl rfl) (by omega) (by decide) isEntry.isEntry (Nat.zero_le _)
    have none : (m.called (0 + 1 : Nat) 0 .absent).pending.size = 0 := by simp [called]
    have activations : (m.called (0 + 1 : Nat) 0 .absent).activations = [⟨1, .absent, stackBase, stackBase, 0⟩] := by
      simp [called, idle.activations, idle.fp, idle.sp]
    have empty : ((m.called (0 + 1 : Nat) 0 .absent).args.size : Int) = 0 := by simp [called, idle.args]
    refine .inl ⟨_, run, rfl, .entering rfl running rfl ?_ ?_ ?_⟩
    · exact (congrArg (EntryAt m.program.code main) none).mpr isEntry
    · exact lt_of_eq_of_lt none (by decide)
    · exact (congr (congrArg (Returns m.program.code) activations) empty).mpr .start
  | done pc idle =>
    rcases pc with pc | pc
    · have here : m.At 1 { op := .jp, a1 := .label m.program.code.size } := ⟨pc, wellFormed.halt⟩
      have run := step_jump here
      rw [Operand.value_label short] at run
      exact .inl ⟨_, run, rfl, .done (.inr rfl) ⟨idle.activations, idle.args, idle.fp, idle.sp⟩⟩
    · exact .inl ⟨_, step_end pc, rfl, .done (.inr pc) ⟨idle.activations, idle.args, idle.fp, idle.sp⟩⟩
  | @entering callee pc running calling isEntry few returns =>
    obtain ⟨f, _, _, last, _, body⟩ := wellFormed.function_of_entry isEntry
    obtain ⟨size, found⟩ := isEntry
    cases activations : m.activations with
    | nil =>
      rw [activations] at returns
      cases returns
    | cons top rest =>
      have run := step_enter ⟨pc, found⟩ few calling activations
      rw [activations] at returns
      refine .inl ⟨_, run, rfl, @Safe.inside _ callee last (callee + 1) m.args.size ?_⟩
      have pushed : (m.args.size : Int) = depth m.program.code (callee + 1) + m.args.size := by
        rw [body.empty, Int.zero_add]
      exact ⟨rfl, running, body, Nat.lt_succ_self _, body.ends, returns.setParams _, pushed⟩
  | inside h => exact h.progresses wellFormed

theorem Safe.divides_of_step {m' : Machine} {failure : Failure} (h : m.Safe) (wellFormed : m.program.WellFormed)
    (run : step m = .error failure m') : Divides failure m' := by
  rcases h.progresses wellFormed with ⟨_, run₁, _⟩ | ⟨_, _, run₁, divides⟩
  · rw [run] at run₁
    cases run₁
  · rw [run] at run₁
    cases run₁
    exact divides

theorem Safe.counted (h : m.Safe) : m.counted.Safe := by
  cases h with
  | start pc running idle => exact .start pc running ⟨idle.activations, idle.args, idle.fp, idle.sp⟩
  | done pc idle => exact .done pc ⟨idle.activations, idle.args, idle.fp, idle.sp⟩
  | entering pc running calling entry few returns => exact .entering pc running calling entry few returns
  | inside h => exact .inside ⟨h.pc, h.running, h.body, h.after, h.before, h.returns, h.pushed⟩

theorem Safe.counted_of_step {m' : Machine} {failure : Failure} (h : m.Safe) (wellFormed : m.program.WellFormed)
    (run : step m = .error failure m') : m' = m ∨ m' = m.counted := by
  obtain ⟨_, j, found, divides⟩ := h.divides_of_step wellFormed run
  have made := transition m
  rw [run] at made
  cases made with
  | outside | refused => exact .inl rfl
  | @executes i _ fetched fits effect =>
    cases effect with
    | division => exact .inr rfl
    | unknown known | tooFew known | negative known | notFunction _ known | notCalled known | argumentCount known
    | unawaited known | noActivation known | misplaced known =>
      -- What has failed is a division.
      obtain rfl : i = j := Option.some.inj (fetched.symm.trans found)
      rw [known] at divides
      simp at divides

theorem Safe.next (h : m.Safe) (wellFormed : m.program.WellFormed) : (Outcome.machine (step m)).Safe := by
  rcases h.progresses wellFormed with ⟨m', run, _, safe⟩ | ⟨failure, m', run, _⟩
  · rw [run]
    exact safe
  · rw [run]
    rcases h.counted_of_step wellFormed run with rfl | rfl
    · exact h
    · exact h.counted

theorem Reachable.safe {p : Program} (wellFormed : p.WellFormed) (reach : Reachable p m) : m.Safe := by
  induction reach with
  | start => exact .start rfl rfl ⟨rfl, rfl, rfl, rfl⟩
  | step reach ih => exact ih.next (by rw [reach.program_eq]; exact wellFormed)

theorem Safe.idle_of_halted (h : m.Safe) (halted : m.halted = true) : m.Idle := by
  cases h with
  | start _ running _ | entering _ running _ _ _ _ =>
    rw [running] at halted
    cases halted
  | done _ idle => exact idle
  | inside h =>
    rw [h.running] at halted
    cases halted

end Machine

/-- Programs that were compiled without diagnostics never go wrong, however many steps they run, also
    when they are stepped again after a division by zero. -/
theorem harmless_of_compiled {text : Text} {c : Compilation} {m : Machine} (compiles : compile text = .ok c)
    (ok : c.ok = true) (short : c.program.code.size < 2 ^ 63) (reach : Machine.Reachable c.program m) : m.Harmless := by
  obtain ⟨g, assembly, run, _, rfl⟩ := generated_of_compile compiles
  have clean : (reported text g).hasErrors = false := by simpa [Compilation.ok, compiled] using ok
  have wellFormed : g.emitter.program.WellFormed := wellFormed_of_clean short run clean
  have safe := reach.safe wellFormed
  refine ⟨safe.idle_of_halted, fun failure m' fails => ?_⟩
  exact safe.divides_of_step (by rw [reach.program_eq]; exact wellFormed) fails

theorem harmless_of_compiled_squares :
    ∃ c m, compile squaresText = .ok c ∧ c.ok = true ∧ c.program.code.size < 2 ^ 63 ∧ Machine.Reachable c.program m ∧
      m.Harmless := by
  obtain ⟨c, compiles, ok⟩ := accepted_squares
  have short := short_squares compiles
  have reach : Machine.Reachable c.program _ := .step (.step .start)
  exact ⟨c, _, compiles, ok, short, reach, harmless_of_compiled compiles ok short reach⟩

end MiniC
