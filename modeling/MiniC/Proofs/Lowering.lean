import MiniC.Proofs.Compilation
import MiniC.Proofs.Parsing.Fuel

namespace MiniC

namespace Assembly

open EStateM (run_bind run_pure run_get run_modify run_set)
open Translation (EntryAt Proper Body Tiled Covered)

/-- Whether an action succeeds inside of a function, where it takes some scratch registers. -/
def Lowers {α : Type} (cost : Nat) (action : LowerM α) : Prop :=
  ∀ s : Lowering, s.function.isSome → cost ≤ s.free.length →
    ∃ a s', action.run s = .ok a s' ∧ s'.function = s.function ∧ s.free.length ≤ s'.free.length + cost

theorem Lowers.pure {α : Type} (a : α) : Lowers 0 (Pure.pure a : LowerM α) :=
  fun s _ _ => ⟨a, s, rfl, rfl, Nat.le_refl _⟩

theorem Lowers.bind {α β : Type} {m n : Nat} {x : LowerM α} {f : α → LowerM β} (first : Lowers m x)
    (second : ∀ a, Lowers n (f a)) : Lowers (n + m) (x >>= f) := by
  intro s inside enough
  obtain ⟨a, s', run, same, free⟩ := first s inside (by omega)
  obtain ⟨b, s'', run', same', free'⟩ := second a s' (by rw [same]; exact inside) (by omega)
  refine ⟨b, s'', ?_, same'.trans same, by omega⟩
  rw [run_bind, run]
  exact run'

theorem Lowers.andThen {α β : Type} {n : Nat} {x : LowerM α} {f : α → LowerM β} (first : Lowers 0 x)
    (second : ∀ a, Lowers n (f a)) : Lowers n (x >>= f) := by
  exact first.bind second

theorem Lowers.mono {α : Type} {m n : Nat} {x : LowerM α} (h : Lowers m x) (le : m ≤ n) : Lowers n x := by
  intro s inside enough
  obtain ⟨a, s', run, same, free⟩ := h s inside (by omega)
  exact ⟨a, s', run, same, by omega⟩

theorem Lowers.get : Lowers 0 (get : LowerM Lowering) :=
  fun s _ _ => ⟨s, s, rfl, rfl, Nat.le_refl _⟩

theorem Lowers.line (l : Line) : Lowers 0 (line l) :=
  fun s _ _ => ⟨(), { s with lines := s.lines.push l }, rfl, rfl, Nat.le_refl _⟩

theorem Lowers.instr (i : Instr) : Lowers 0 (instr i) :=
  .line _

theorem Lowers.instrs (is : List Instr) : Lowers 0 (is.forM Assembly.instr) := by
  induction is with
  | nil => exact .pure ()
  | cons i rest ih => exact (Lowers.instr i).andThen fun _ => ih

theorem Lowers.reg : Lowers 1 reg := by
  rintro ⟨index, function, frame, _ | ⟨r, free⟩, peak, lines⟩ inside enough
  · cases enough
  · exact ⟨r, _, rfl, rfl, Nat.le_refl _⟩

theorem Lowers.addConstant (d a : Reg) (n : Word) (t : Reg) : Lowers 0 (addConstant d a n t) := by
  unfold Assembly.addConstant
  split
  · exact .instr _
  · exact (Lowers.instr _).andThen fun _ => .instr _

theorem Lowers.frameMem (offset : Word) (t : Reg) : Lowers 0 (frameMem offset t) := by
  unfold Assembly.frameMem
  split
  · exact .pure _
  · exact (Lowers.addConstant _ _ _ _).andThen fun _ => .pure _

theorem Lowers.globalAddress (d : Reg) (address : Word) : Lowers 0 (globalAddress d address) :=
  (Lowers.instr _).andThen fun _ => .instr _

variable {o : Operand}

theorem Lowers.slotMem (storage : o.isStorage = true) (t : Reg) : Lowers 0 (slotMem o t) := by
  unfold Assembly.slotMem
  rcases o with ⟨kind, value, indirect⟩
  cases kind with
  | slot =>
    intro s inside enough
    obtain ⟨f, function⟩ := Option.isSome_iff_exists.mp inside
    have closed : ¬ s.function.isNone = true := by simp [function]
    simp only [run_bind, run_get, closed]
    exact Lowers.frameMem _ t s inside enough
  | global => exact (Lowers.globalAddress t value).andThen fun _ => .pure _
  | none | imm | label => cases storage

theorem Lowers.storageMem (storage : o.isStorage = true) (t : Reg) : Lowers 0 (storageMem o t) := by
  have direct : ({ o with indirect := false } : Operand).isStorage = true := storage
  refine (Lowers.slotMem direct t).andThen fun m => ?_
  split
  · exact (Lowers.instr _).andThen fun _ => .pure _
  · exact .pure _

theorem Lowers.loadInto (readable : o.Readable) (r : Reg) : Lowers 0 (loadInto r o) := by
  unfold Assembly.loadInto
  split
  · split
    · exact .instr _
    · exact .instr _
  · next other => exact (Lowers.storageMem (readable.resolve_left other) r).andThen fun _ => .instr _

theorem Lowers.load (readable : o.Readable) : Lowers 1 (load o) :=
  Lowers.reg.bind fun r => (Lowers.loadInto readable r).andThen fun _ => .pure r

theorem Lowers.store (storage : o.isStorage = true) (r : Reg) : Lowers 1 (store r o) :=
  Lowers.reg.bind fun t => (Lowers.storageMem storage t).andThen fun _ => .instr _

theorem Lowers.binary {i : Instruction} (compute : Reg → Reg → Reg → List Instr) (left : i.a1.Readable)
    (right : i.a2.Readable) (target : i.a3.isStorage = true) : Lowers 4 (binary i compute) :=
  (Lowers.load left).bind fun _ => (Lowers.load right).bind fun _ => Lowers.reg.bind fun d =>
    (Lowers.instrs _).andThen fun _ => .store target d

theorem Lowers.storeAddress {i : Instruction} (source : i.a1.isStorage = true) (direct : i.a1.indirect = false)
    (target : i.a3.isStorage = true) : Lowers 2 (storeAddress i) := by
  unfold Assembly.storeAddress
  simp only [direct, Bool.false_eq_true, if_false]
  refine Lowers.reg.bind fun r => ?_
  split
  · exact (Lowers.addConstant _ _ _ _).andThen fun _ => .store target r
  · exact (Lowers.globalAddress _ _).andThen fun _ => .store target r
  · next other other' => simp_all [Operand.isStorage]

theorem Lowers.call (p : Program) {i : Instruction} (target : i.a3 = .absent ∨ i.a3.isStorage = true) :
    Lowers 2 (call p i) := by
  -- The register for the cells of the arguments, and what comes after they are taken back.
  have takeBack : ∀ later : LowerM Unit, Lowers 1 later →
      Lowers 2 (if 0 < i.a2.value then do
          let r ← Assembly.reg
          Assembly.addConstant .sp .sp (i.a2.value * 16) r
          later
        else later) := by
    intro later lowers
    split
    · exact Lowers.reg.bind fun _ => (Lowers.addConstant _ _ _ _).andThen fun _ => lowers
    · exact lowers.mono (by omega)
  unfold Assembly.call
  refine (Lowers.instr _).andThen fun _ => ?_
  split
  · exact takeBack _ ((Lowers.pure ()).mono (by omega))
  · next given =>
    have storage : i.a3.isStorage = true := target.resolve_left fun absent => given (by rw [absent]; rfl)
    exact takeBack _ (.store storage _)

theorem Lowers.ret {i : Instruction} (value : i.a1 = .absent ∨ i.a1.Readable) : Lowers 1 (ret i) := by
  intro s inside enough
  obtain ⟨f, function⟩ := Option.isSome_iff_exists.mp inside
  have leaves : Lowers 1 (if i.a1.isAbsent then Assembly.instr (.jump (.epilogue f.entry)) else do
      Assembly.loadInto (.x 0) i.a1
      let r ← Assembly.reg
      let m ← Assembly.frameMem (machineOffset f.frame.returnOffset) r
      Assembly.instr (.str (.x 0) m)
      Assembly.instr (.jump (.epilogue f.entry))) := by
    split
    · exact (Lowers.instr _).mono (by omega)
    · next given =>
      have readable : i.a1.Readable := value.resolve_left fun absent => given (by rw [absent]; rfl)
      exact (Lowers.loadInto readable _).andThen fun _ => Lowers.reg.bind fun _ =>
        (Lowers.frameMem _ _).andThen fun _ => (Lowers.instr _).andThen fun _ => .instr _
  unfold Assembly.ret
  simpa only [run_bind, run_get, function] using leaves s inside enough

theorem Lowers.printWord (readable : o.Readable) : Lowers 0 (printWord o) :=
  (Lowers.loadInto readable _).andThen fun _ => (Lowers.instr _).andThen fun _ => (Lowers.instr _).andThen fun _ =>
    .instr _

theorem Lowers.instruction (p : Program) {code : Array Instruction} {entry last n : Nat} {i : Instruction}
    (proper : Proper code entry last n i) : Lowers 4 (instruction p i) := by
  cases proper with
  | @compute op x y t known left right target =>
    have lowers := fun compute => Lowers.binary (i := { op := op, a1 := x, a2 := y, a3 := t }) compute left right target
    rcases op
    case div | mod | add | sub | mult | eq | ne | lt | le | gt | ge | elem => exact lowers _
    all_goals simp [Machine.Computes, Machine.arithmetic?] at known
  | assign readable target =>
    have lowers := (Lowers.load readable).bind fun r => .store target r
    exact lowers.mono (by omega)
  | @address x t source direct target =>
    have lowers : Lowers 2 (Assembly.storeAddress { op := .addr, a1 := x, a3 := t }) := .storeAddress source direct target
    exact lowers.mono (by omega)
  | jump => exact (Lowers.instr _).mono (by omega)
  | @branch x t readable reaches =>
    have lowers := (Lowers.load readable).bind fun r => .instr (.jumpIfZero r (target (.label t)))
    exact lowers.mono (by omega)
  | print readable => exact (Lowers.printWord readable).mono (by omega)
  | param readable =>
    have lowers := (Lowers.load readable).bind fun r => .instr (.str r (.before .sp (-16)))
    exact lowers.mono (by omega)
  | call _ _ _ target => exact (Lowers.call p target).mono (by omega)
  | ret value => exact (Lowers.ret value).mono (by omega)

theorem runs_copyArguments (count : Word) (indices : List Nat) (s : Lowering) (inside : s.function.isSome) :
    ∃ s', (indices.forM (copyArgument count)).run s = .ok () s' := by
  induction indices generalizing s with
  | nil => exact ⟨s, rfl⟩
  | cons index rest ih =>
    have lowers : Lowers 2 (do
        let i : Word := .ofNat index
        let r ← reg
        let source ← frameMem ((← get).frame + 16 + (count - 1 - i) * 16) r
        instr (.ldr r source)
        let target ← frameMem (machineOffset (i * wordSize)) (← reg)
        instr (.str r target) : LowerM Unit) :=
      Lowers.reg.bind fun _ => Lowers.get.andThen fun _ => (Lowers.frameMem _ _).andThen fun _ =>
        (Lowers.instr _).andThen fun _ => Lowers.reg.bind fun _ => (Lowers.frameMem _ _).andThen fun _ => .instr _
    obtain ⟨_, s', run, same, _⟩ := lowers { s with free := scratch } inside (show 2 ≤ scratch.length by decide)
    obtain ⟨s'', run'⟩ := ih s' (by rw [same]; exact inside)
    refine ⟨s'', ?_⟩
    have first : (copyArgument count index).run s = .ok () s' := run
    change (copyArgument count index >>= fun _ => rest.forM (copyArgument count)).run s = _
    rw [run_bind, first]
    exact run'

theorem runs_prologue (i : Instruction) (index : Nat) (f : Function) (frame : Word) :
    ∃ s', (prologue i).run { index := index, function := some f, frame := frame } = .ok () s' := by
  unfold prologue
  simp only [run_bind, instr, line, run_modify, run_get]
  split
  · exact runs_copyArguments _ _ _ rfl
  · exact runs_copyArguments _ _ _ rfl

variable {p : Program} {n : Nat} {i : Instruction}

theorem targetError?_of_target {target : Nat} (h : p.WellFormed) (within : target ≤ p.code.size)
    (known : target? i = some (Operand.label target).value) (called : i.op = .call → p.isEntry target = true) :
    targetError? p n i = none := by
  have value := Operand.value_label (Nat.lt_of_le_of_lt within h.short)
  simp only [targetError?, known, value]
  have reached : ¬ ((target : Int) < 0 ∨ (p.code.size : Int) < target) := by omega
  have entered : ¬ (i.op = .call ∧ p.isEntry target = false) := by
    rintro ⟨call, missing⟩
    rw [called call] at missing
    cases missing
  simp only [reached, entered, if_false]

theorem targetError?_of_call {callee count : Nat} {x t : Operand} (h : p.WellFormed)
    (isEntry : EntryAt p.code callee count) :
    targetError? p n { op := .call, a1 := .label callee, a2 := x, a3 := t } = none :=
  targetError?_of_target h (Nat.le_of_lt isEntry.lt_size) rfl fun _ => isEntry.isEntry

theorem targetError?_eq_none (h : p.WellFormed) (found : p.code[n]? = some i) : targetError? p n i = none := by
  by_cases behind : 2 ≤ n
  · rcases h.entry_or_proper behind found with ⟨count, size, opens⟩ | ⟨entry, last, bound, proper⟩
    · rw [found] at opens
      cases opens
      rfl
    · cases proper with
      | @compute op x y t known =>
        cases op
        case jp | jpf | call => simp [Machine.Computes, Machine.arithmetic?] at known
        all_goals rfl
      | jump reaches => exact targetError?_of_target h (Nat.le_trans reaches.before (Nat.le_of_lt bound)) rfl (by simp)
      | branch _ reaches => exact targetError?_of_target h (Nat.le_trans reaches.before (Nat.le_of_lt bound)) rfl (by simp)
      | call isEntry => exact targetError?_of_call h isEntry
      | assign | address | print | param | ret => rfl
  · obtain rfl | rfl : n = 0 ∨ n = 1 := by omega
    · obtain ⟨entry, start, isEntry⟩ := h.start
      rw [start] at found
      cases found
      exact targetError?_of_call h isEntry
    · rw [h.halt] at found
      cases found
      exact targetError?_of_target h (Nat.le_refl _) rfl (by simp)

theorem firstTargetError?_eq_none (h : p.WellFormed) (rest : List Instruction) (n : Nat)
    (suffix : p.code.toList.drop n = rest) : firstTargetError? p n rest = none := by
  induction rest generalizing n with
  | nil => rfl
  | cons i rest ih =>
    have found : p.code[n]? = some i := by
      rw [← Array.getElem?_toList, ← List.head?_drop, suffix]
      rfl
    have later : p.code.toList.drop (n + 1) = rest := by rw [← List.tail_drop, suffix]; rfl
    rw [firstTargetError?, targetError?_eq_none h found]
    exact ih (n + 1) later

/-- What the context of lowering must be before the instruction at an index: behind the first two
    instructions either a function starts there, or the context holds the function around it. -/
def Suits (p : Program) (n : Nat) (c : Context) : Prop :=
  2 ≤ n → n = p.code.size ∨ (∃ count, EntryAt p.code n count) ∨
    ∃ f ∈ p.functions, c.function = some f ∧ f.entry < n ∧ n < f.stop

def LowersAt (p : Program) (n : Nat) (i : Instruction) (c : Context) : Prop :=
  ∃ opening inner lines, openFunction p n i c = .ok (opening, inner) ∧ instructionLines p n i inner = .ok lines ∧
    Suits p (n + 1) (closeFunction n inner).2

theorem instructionLines_of_run {c : Context} {s : Lowering}
    (run : (instruction p i).run { index := n, function := c.function, frame := c.frame } = .ok () s) :
    instructionLines p n i c = .ok s.lines.toList := by
  have lowered : instruction p i { index := n, function := c.function, frame := c.frame } = .ok () s := run
  rw [instructionLines, lowered]

theorem openFunction_of_ne {c : Context} (other : i.op ≠ .func) : openFunction p n i c = .ok ([], c) := by
  rw [openFunction, if_neg other]

/-- A function is closed behind its last instruction only, and there another one starts. -/
theorem suits_closed (h : p.WellFormed) {c : Context} {f : Function} (member : f ∈ p.functions)
    (holds : c.function = some f) (starts : f.entry ≤ n) (ends : n < f.stop) :
    Suits p (n + 1) (closeFunction n c).2 := by
  intro _
  obtain ⟨entry, last, isEntry, isStop, _, next⟩ := h.tiled.bodies f member
  simp only [closeFunction, holds]
  by_cases done : f.stop = n + 1
  · obtain rfl : n = last := by omega
    rcases next with past | opens
    · exact .inl past
    · exact .inr (.inl opens)
  · rw [if_neg done]
    exact .inr (.inr ⟨f, member, holds, by omega, by omega⟩)

theorem lowersAt_entry (h : p.WellFormed) {count : Nat} (isEntry : EntryAt p.code n count) (found : p.code[n]? = some i)
    (c : Context) : LowersAt p n i c := by
  obtain ⟨g, member, starts, _⟩ := h.function_of_entry isEntry
  obtain ⟨size, opens⟩ := isEntry
  rw [found] at opens
  cases opens
  obtain ⟨f, first⟩ : ∃ f, p.functionAt? n = some f :=
    Option.isSome_iff_exists.mp (List.find?_isSome.mpr ⟨g, member, by simpa using starts⟩)
  have member := List.mem_of_find?_eq_some first
  have starts : f.entry = n := by simpa using List.find?_some first
  obtain ⟨entry, last, isEntry, isStop, body, _⟩ := h.tiled.bodies f member
  have ends := body.ends
  obtain ⟨s, lowers⟩ := runs_prologue { op := .func, a1 := .imm size, a2 := .imm (.ofNat count) } n f (frameBytes size)
  refine ⟨[.blank, .label (.symbol ("cm_" ++ f.name))], ⟨some f, frameBytes size⟩, s.lines.toList, ?_, ?_, ?_⟩
  · simp only [openFunction, first]
    rfl
  · exact instructionLines_of_run lowers
  · exact suits_closed h member rfl (by omega) (by omega)

theorem lowersAt_body (h : p.WellFormed) {c : Context} {f : Function} (member : f ∈ p.functions)
    (holds : c.function = some f) (starts : f.entry < n) (ends : n < f.stop) (found : p.code[n]? = some i) :
    LowersAt p n i c := by
  obtain ⟨entry, last, isEntry, isStop, body, _⟩ := h.tiled.bodies f member
  obtain ⟨i', found', proper⟩ := body.covered n (by omega) (by omega)
  rw [found] at found'
  cases found'
  have other : i.op ≠ .func := by
    intro same
    cases proper with
    | compute known =>
      cases same
      simp [Machine.Computes, Machine.arithmetic?] at known
    | _ => cases same
  obtain ⟨_, s, lowers, _⟩ := Lowers.instruction p proper { index := n, function := c.function, frame := c.frame }
    (by rw [holds]; rfl) (show 4 ≤ scratch.length by decide)
  exact ⟨[], c, s.lines.toList, openFunction_of_ne other, instructionLines_of_run lowers,
    suits_closed h member holds (by omega) ends⟩

theorem lowersAt_start (h : p.WellFormed) (before : n < 2) (found : p.code[n]? = some i) (c : Context) :
    LowersAt p n i c := by
  have next : Suits p (n + 1) (closeFunction n c).2 := by
    intro behind
    obtain rfl : n = 1 := by omega
    rcases h.tiled.starts with past | opens
    · exact .inl past
    · exact .inr (.inl opens)
  obtain rfl | rfl : n = 0 ∨ n = 1 := by omega
  · obtain ⟨entry, start, _⟩ := h.start
    rw [start] at found
    cases found
    exact ⟨[], c, _, openFunction_of_ne nofun, instructionLines_of_run rfl, next⟩
  · rw [h.halt] at found
    cases found
    exact ⟨[], c, _, openFunction_of_ne nofun, instructionLines_of_run rfl, next⟩

theorem lowersAt_of_suits (h : p.WellFormed) {c : Context} (suits : Suits p n c) (found : p.code[n]? = some i) :
    LowersAt p n i c := by
  by_cases behind : 2 ≤ n
  · have before := (Array.getElem?_eq_some_iff.mp found).1
    rcases suits behind with past | ⟨count, isEntry⟩ | ⟨f, member, holds, starts, ends⟩
    · omega
    · exact lowersAt_entry h isEntry found c
    · exact lowersAt_body h member holds starts ends found
  · exact lowersAt_start h (by omega) found c

theorem lowers_body (h : p.WellFormed) (targets : List Int) (rest : List Instruction) (n : Nat) (c : Context)
    (suffix : p.code.toList.drop n = rest) (suits : Suits p n c) : ∃ lines, body p targets n c rest = .ok lines := by
  induction rest generalizing n c with
  | nil => exact ⟨[], rfl⟩
  | cons i rest ih =>
    have found : p.code[n]? = some i := by
      rw [← Array.getElem?_toList, ← List.head?_drop, suffix]
      rfl
    have later : p.code.toList.drop (n + 1) = rest := by rw [← List.tail_drop, suffix]; rfl
    obtain ⟨opening, inner, lines, opens, lowers, next⟩ := lowersAt_of_suits h suits found
    obtain ⟨others, lowers'⟩ := ih (n + 1) _ later next
    rw [body]
    simp only [opens, lowers, lowers', bind, Except.bind, pure, Except.pure]
    exact ⟨_, rfl⟩

theorem lowers_program (h : p.WellFormed) : ∃ text, ofProgram p = .ok text := by
  obtain ⟨lines, lowers⟩ := lowers_body h (p.code.toList.filterMap fun i => (target? i).map Int64.toInt) p.code.toList 0 {}
    rfl (by intro bound; omega)
  have targets := firstTargetError?_eq_none h p.code.toList 0 rfl
  rw [ofProgram, lower]
  simp only [targets, lowers]
  exact ⟨_, rfl⟩

end Assembly

theorem compile_of_generated {text : Text} {g : Codegen} (short : g.emitter.code.size < 2 ^ 63)
    (run : Codegen.run (parsedText text).source = .ok g) :
    (reported text g).hasErrors = true ∧ compile text = .ok (compiled text g none) ∨
      ∃ assembly, Assembly.ofProgram g.emitter.program = .ok assembly ∧
        compile text = .ok (compiled text g (some assembly)) := by
  obtain ⟨g', run', _, _, _, _, _, compiles⟩ := exists_generated text
  rw [run] at run'
  cases run'
  cases errors : (reported text g).hasErrors with
  | true =>
    rw [assemble, errors] at compiles
    exact .inl ⟨rfl, compiles⟩
  | false =>
    obtain ⟨assembly, lowers⟩ := Assembly.lowers_program (wellFormed_of_clean short run errors)
    rw [assemble, errors, lowers] at compiles
    exact .inr ⟨assembly, lowers, compiles⟩

/-- Compilation never fails, whatever the text. The rules of the parser are nowhere cut off, code is
    generated without a fault and ends outside of all scopes, loops and functions, and for a text without
    diagnostics it is lowered. The indices of instructions are words, so there must not be more of them
    than words count. -/
theorem compile_succeeds (text : Text) :
    (∀ n s, s.size ≤ n → (Parser.rules n).decls.run s = (Parser.rules s.size).decls.run s) ∧
    ∃ g, Codegen.run (parsedText text).source = .ok g ∧ g.scopes.depth = 0 ∧ g.loops = [] ∧ g.function = none ∧
      g.emitter.current = none ∧ g.emitter.code.size ≤ 2 + 4 * text.length ∧
      (g.emitter.code.size < 2 ^ 63 → ∃ c, compile text = .ok c ∧ c.program = g.emitter.program ∧
        (c.ok = true → ∃ assembly, Assembly.ofProgram c.program = .ok assembly ∧ c.assembly = some assembly)) := by
  obtain ⟨g, run, outer, loops, function, current, size, _⟩ := exists_generated text
  have depth : g.scopes.depth = 0 := by rw [g.scopes.nested, outer, List.length_nil]
  refine ⟨fun n s enough => Parser.decls_of_size_le enough,
    g, run, depth, loops, function, current, size, fun short => ?_⟩
  rcases compile_of_generated short run with ⟨errors, result⟩ | ⟨assembly, lowers, result⟩
  · refine ⟨_, result, rfl, fun ok => ?_⟩
    have rejected : (compiled text g none).ok = !(reported text g).hasErrors := rfl
    rw [rejected, errors] at ok
    cases ok
  · exact ⟨_, result, rfl, fun _ => ⟨assembly, lowers, rfl⟩⟩

theorem compile_succeeds_malformed :
    ∃ c, compile "void main(void) \x7b while (1 \x7b break; " = .ok c := by
  obtain ⟨_, _, _, _, _, _, _, size, succeeds⟩ := compile_succeeds "void main(void) \x7b while (1 \x7b break; "
  obtain ⟨c, result, _⟩ := succeeds (Nat.lt_of_le_of_lt size (by decide))
  exact ⟨c, result⟩

end MiniC
