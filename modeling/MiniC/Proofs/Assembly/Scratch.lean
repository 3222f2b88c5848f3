import MiniC.Assembly.Lower

namespace MiniC.Assembly

open EStateM (Result run_bind)

/-- Whether at most `n` registers are taken, which are then the first ones. -/
def Lowering.Sparing (s : Lowering) (n : Nat) : Prop :=
  ∃ k ≤ n, s.free = scratch.drop k

theorem Lowering.Sparing.mono {s : Lowering} {m n : Nat} (h : s.Sparing m) (le : m ≤ n) : s.Sparing n := by
  obtain ⟨k, few, free⟩ := h
  exact ⟨k, Nat.le_trans few le, free⟩

/-- Whether an action has taken at most `most` registers at a time, however it ends, which is not for want of one. If it
    succeeds, at most `n` of them are still taken. -/
structure Follows {α : Type} (n most : Nat) (x : LowerM α) (s : Lowering) : Prop where
  ok : ∀ a s', x.run s = .ok a s' → s'.Sparing n ∧ s'.peak ≤ most
  error : ∀ e s', x.run s = .error e s' → s'.peak ≤ most ∧ ∀ index, e ≠ .noScratch index

namespace Follows

variable {α β : Type} {m n most : Nat} {x : LowerM α} {f : α → LowerM β} {s : Lowering}

theorem bind (first : Follows m most x s) (second : ∀ a s', s'.Sparing m → s'.peak ≤ most → Follows n most (f a) s') :
    Follows n most (x >>= f) s := by
  constructor
  · intro b s'' run
    rw [run_bind] at run
    cases runFirst : x.run s with
    | ok a s' =>
      rw [runFirst] at run
      obtain ⟨few, low⟩ := first.ok a s' runFirst
      exact (second a s' few low).ok b s'' run
    | error e s' =>
      rw [runFirst] at run
      cases run
  · intro e s'' run
    rw [run_bind] at run
    cases runFirst : x.run s with
    | ok a s' =>
      rw [runFirst] at run
      obtain ⟨few, low⟩ := first.ok a s' runFirst
      exact (second a s' few low).error e s'' run
    | error e s' =>
      rw [runFirst] at run
      cases run
      exact first.error _ _ runFirst

theorem mono (h : Follows m most x s) (le : m ≤ n) : Follows n most x s :=
  ⟨fun a s' run => ⟨(h.ok a s' run).1.mono le, (h.ok a s' run).2⟩, h.error⟩

end Follows

/-- Whether an action takes at most `cost` registers more than are taken already. -/
def Spares {α : Type} (cost : Nat) (x : LowerM α) : Prop :=
  ∀ (s : Lowering) (n most : Nat), s.Sparing n → s.peak ≤ most → n + cost ≤ most → most ≤ scratch.length →
    Follows (n + cost) most x s

namespace Spares

theorem bind {α β : Type} {m n : Nat} {x : LowerM α} {f : α → LowerM β} (first : Spares m x)
    (second : ∀ a, Spares n (f a)) : Spares (n + m) (x >>= f) := by
  intro s k most few low within enough
  refine (first s k most few low (by omega) enough).bind fun a s' few' low' => ?_
  have later := second a s' (k + m) most few' low' (by omega) enough
  rwa [show k + m + n = k + (n + m) by omega] at later

theorem andThen {α β : Type} {n : Nat} {x : LowerM α} {f : α → LowerM β} (first : Spares 0 x)
    (second : ∀ a, Spares n (f a)) : Spares n (x >>= f) :=
  first.bind second

theorem mono {α : Type} {m n : Nat} {x : LowerM α} (h : Spares m x) (le : m ≤ n) : Spares n x :=
  fun s k most few low within enough => (h s k most few low (by omega) enough).mono (by omega)

theorem pure {α : Type} (a : α) : Spares 0 (Pure.pure a : LowerM α) := by
  refine fun s n most few low _ _ => ⟨?_, ?_⟩
  · rintro _ _ ⟨⟩
    exact ⟨few, low⟩
  · rintro _ _ ⟨⟩

theorem get : Spares 0 (get : LowerM Lowering) := by
  refine fun s n most few low _ _ => ⟨?_, ?_⟩
  · rintro _ _ ⟨⟩
    exact ⟨few, low⟩
  · rintro _ _ ⟨⟩

theorem instr (i : Instr) : Spares 0 (instr i) := by
  refine fun s n most few low _ _ => ⟨?_, ?_⟩
  · rintro _ _ ⟨⟩
    exact ⟨few, low⟩
  · rintro _ _ ⟨⟩

theorem fail {α : Type} {error : Nat → LowerError} (other : ∀ m n, error m ≠ .noScratch n) :
    Spares 0 (fail error : LowerM α) := by
  refine fun s n most few low _ _ => ⟨?_, ?_⟩
  · rintro _ _ ⟨⟩
  · rintro _ _ ⟨⟩
    exact ⟨low, other _⟩

theorem reg : Spares 1 reg := by
  rintro ⟨index, function, frame, _, peak, lines⟩ n most ⟨k, few, rfl⟩ low within enough
  have left : k < scratch.length := by omega
  have free : scratch.drop k = scratch.get ⟨k, left⟩ :: scratch.drop (k + 1) := List.drop_eq_getElem_cons left
  rw [free]
  refine ⟨?_, ?_⟩
  · rintro _ _ ⟨⟩
    refine ⟨⟨k + 1, by omega, rfl⟩, Nat.max_le.mpr ⟨low, ?_⟩⟩
    rw [List.length_drop]
    omega
  · rintro _ _ ⟨⟩

theorem instrs (is : List Instr) : Spares 0 (is.forM Assembly.instr) := by
  induction is with
  | nil => exact .pure ()
  | cons i rest ih => exact (instr i).andThen fun _ => ih

theorem addConstant (d a : Reg) (n : Word) (t : Reg) : Spares 0 (addConstant d a n t) := by
  unfold Assembly.addConstant
  split
  · exact .instr _
  · exact (instr _).andThen fun _ => .instr _

theorem frameMem (offset : Word) (t : Reg) : Spares 0 (frameMem offset t) := by
  unfold Assembly.frameMem
  split
  · exact .pure _
  · exact (addConstant _ _ _ _).andThen fun _ => .pure _

theorem globalAddress (d : Reg) (address : Word) : Spares 0 (globalAddress d address) :=
  (instr _).andThen fun _ => .instr _

theorem slotMem (o : Operand) (t : Reg) : Spares 0 (slotMem o t) := by
  unfold Assembly.slotMem
  split
  · refine get.andThen fun s => ?_
    split
    · exact .fail (by simp)
    · exact .frameMem _ _
  · exact (globalAddress _ _).andThen fun _ => .pure _
  · exact .fail (by simp)

theorem storageMem (o : Operand) (t : Reg) : Spares 0 (storageMem o t) := by
  refine (slotMem _ t).andThen fun m => ?_
  split
  · exact (instr _).andThen fun _ => .pure _
  · exact .pure _

theorem loadInto (r : Reg) (o : Operand) : Spares 0 (loadInto r o) := by
  unfold Assembly.loadInto
  split
  · split
    · exact .instr _
    · exact .instr _
  · exact (storageMem o r).andThen fun _ => .instr _

theorem load (o : Operand) : Spares 1 (load o) :=
  reg.bind fun r => (loadInto r o).andThen fun _ => .pure r

theorem store (r : Reg) (o : Operand) : Spares 1 (store r o) :=
  reg.bind fun t => (storageMem o t).andThen fun _ => .instr _

/-- Both operands, the result and the address for it: no other instruction takes as many registers. -/
theorem binary (i : Instruction) (compute : Reg → Reg → Reg → List Instr) : Spares 4 (binary i compute) :=
  (load i.a1).bind fun _ => (load i.a2).bind fun _ => reg.bind fun d => (instrs _).andThen fun _ => .store d i.a3

theorem storeAddress (i : Instruction) : Spares 2 (storeAddress i) := by
  unfold Assembly.storeAddress
  split
  · exact (fail (by simp)).mono (by omega)
  · refine reg.bind fun r => ?_
    split
    · exact (addConstant _ _ _ _).andThen fun _ => .store r i.a3
    · exact (globalAddress _ _).andThen fun _ => .store r i.a3
    · exact (fail (by simp)).andThen fun _ => .store r i.a3

theorem call (p : Program) (i : Instruction) : Spares 2 (call p i) := by
  -- The register for the cells of the arguments, and what comes after they are taken back.
  have takeBack : ∀ later : LowerM Unit, Spares 1 later →
      Spares 2 (if 0 < i.a2.value then do
          let r ← Assembly.reg
          Assembly.addConstant .sp .sp (i.a2.value * 16) r
          later
        else later) := by
    intro later spares
    split
    · exact reg.bind fun _ => (addConstant _ _ _ _).andThen fun _ => spares
    · exact spares.mono (by omega)
  refine (instr _).andThen fun _ => ?_
  split
  · exact takeBack _ ((pure ()).mono (by omega))
  · exact takeBack _ (.store _ _)

theorem ret (i : Instruction) : Spares 1 (ret i) := by
  refine get.andThen fun s => ?_
  split
  · exact (fail (by simp)).mono (by omega)
  · split
    · exact (instr _).mono (by omega)
    · exact (loadInto _ _).andThen fun _ => reg.bind fun _ => (frameMem _ _).andThen fun _ =>
        (instr _).andThen fun _ => .instr _

theorem printWord (o : Operand) : Spares 0 (printWord o) :=
  (loadInto _ _).andThen fun _ => (instr _).andThen fun _ => (instr _).andThen fun _ => .instr _

theorem instruction (p : Program) {i : Instruction} (other : i.op ≠ .func) : Spares 4 (instruction p i) := by
  unfold Assembly.instruction
  cases known : i.op
  case add | sub | mult | div | mod | eq | ne | lt | le | gt | ge | elem => exact .binary i _
  case assign => exact ((load i.a1).bind fun r => .store r i.a2).mono (by omega)
  case addr => exact (storeAddress i).mono (by omega)
  case jpf => exact ((load i.a1).bind fun r => .instr _).mono (by omega)
  case param => exact ((load i.a1).bind fun r => .instr _).mono (by omega)
  case jp => exact (instr _).mono (by omega)
  case print => exact (printWord i.a1).mono (by omega)
  case call => exact (call p i).mono (by omega)
  case ret => exact (ret i).mono (by omega)
  case func => exact absurd known other
  case unknown => exact (fail (by simp)).mono (by omega)

end Spares

/-- All registers are given back before an argument is copied, and two of them are taken for it. -/
theorem follows_copyArgument (count : Word) (index : Nat) {s : Lowering} (low : s.peak ≤ 2) :
    Follows 2 2 (copyArgument count index) s := by
  have copies : Spares 2 (do
      let i : Word := .ofNat index
      let r ← reg
      let source ← frameMem ((← get).frame + 16 + (count - 1 - i) * 16) r
      instr (.ldr r source)
      let target ← frameMem (machineOffset (i * wordSize)) (← reg)
      instr (.str r target) : LowerM Unit) :=
    Spares.reg.bind fun _ => Spares.get.andThen fun _ => (Spares.frameMem _ _).andThen fun _ =>
      (Spares.instr _).andThen fun _ => Spares.reg.bind fun _ => (Spares.frameMem _ _).andThen fun _ => .instr _
  have givesBack : Follows 0 2 freeAll s := by
    refine ⟨?_, ?_⟩
    · rintro _ _ ⟨⟩
      exact ⟨⟨0, Nat.le_refl 0, rfl⟩, low⟩
    · rintro _ _ ⟨⟩
  exact givesBack.bind fun _ s' few low => copies s' 0 2 few low (by decide) (by decide)

theorem follows_copyArguments (count : Word) (indices : List Nat) {s : Lowering} (few : s.Sparing 2) (low : s.peak ≤ 2) :
    Follows 2 2 (indices.forM (copyArgument count)) s := by
  -- Each turn starts by giving all registers back, so the bound does not grow with the number of arguments.
  induction indices generalizing s with
  | nil => exact Spares.pure () s 2 2 few low (by decide) (by decide)
  | cons index rest ih => exact (follows_copyArgument count index low).bind fun _ _ few' low' => ih few' low'

theorem follows_prologue (i : Instruction) {s : Lowering} (few : s.Sparing 0) (low : s.peak ≤ 2) :
    Follows 2 2 (prologue i) s := by
  have leads {α : Type} {cost n : Nat} {x : LowerM α} {f : α → LowerM Unit} {s : Lowering} (spares : Spares cost x)
      (few : s.Sparing n) (low : s.peak ≤ 2) (le : n + cost ≤ 2)
      (later : ∀ a s', s'.Sparing (n + cost) → s'.peak ≤ 2 → Follows 2 2 (f a) s') : Follows 2 2 (x >>= f) s :=
    (spares s n 2 few low le (by decide)).bind later
  refine leads (.instr _) few low (by decide) fun _ s few low => leads .get few low (by decide) fun _ s few low => ?_
  dsimp only
  split
  · refine leads (.instr _) few low (by decide) fun _ s few low => leads (.instr _) few low (by decide) fun _ s few low => ?_
    exact follows_copyArguments _ _ (few.mono (by decide)) low
  · refine leads .reg few low (by decide) fun _ s few low => leads (.instr _) few low (by decide) fun _ s few low => ?_
    refine leads (.instr _) few low (by decide) fun _ s few low => leads (.instr _) few low (by decide) fun _ s few low => ?_
    exact follows_copyArguments _ _ (few.mono (by decide)) low

theorem follows_instruction (p : Program) (i : Instruction) {s : Lowering} (all : s.free = scratch) (low : s.peak = 0) :
    Follows 4 4 (instruction p i) s := by
  have few : s.Sparing 0 := ⟨0, Nat.le_refl 0, all⟩
  by_cases known : i.op = .func
  · have same : instruction p i = prologue i := by rw [instruction, known]
    have follows := follows_prologue i few (by omega)
    rw [same]
    exact ⟨fun a s' run => ⟨(follows.ok a s' run).1.mono (by decide), Nat.le_trans (follows.ok a s' run).2 (by decide)⟩,
      fun e s' run => ⟨Nat.le_trans (follows.error e s' run).1 (by decide), (follows.error e s' run).2⟩⟩
  · exact Spares.instruction p known s 0 4 few (by omega) (by decide) (by decide)

variable {p : Program}

theorem instructionLines_ne_noScratch (index : Nat) (i : Instruction) (c : Context) (n : Nat) :
    instructionLines p index i c ≠ .error (.noScratch n) := by
  have follows := follows_instruction p i (s := { index := index, function := c.function, frame := c.frame }) rfl rfl
  rw [instructionLines]
  split
  · simp
  · next e s run =>
    rintro ⟨⟩
    exact (follows.error _ s run).2 n rfl

theorem targetError?_ne_noScratch (index : Nat) (i : Instruction) (n : Nat) :
    targetError? p index i ≠ some (.noScratch n) := by
  unfold targetError?
  split
  · simp
  · split
    · simp
    · split <;> simp

theorem firstTargetError?_ne_noScratch (index : Nat) (code : List Instruction) (n : Nat) :
    firstTargetError? p index code ≠ some (.noScratch n) := by
  induction code generalizing index with
  | nil => simp [firstTargetError?]
  | cons i rest ih =>
    rw [firstTargetError?]
    split
    · next error found => exact found ▸ targetError?_ne_noScratch index i n
    · exact ih (index + 1)

theorem bind_ne_error {α β : Type} {x : Except LowerError α} {f : α → Except LowerError β} {e : LowerError}
    (first : x ≠ .error e) (second : ∀ a, f a ≠ .error e) : (x >>= f) ≠ .error e := by
  cases x with
  | error e' =>
    intro same
    cases same
    exact first rfl
  | ok a => exact second a

theorem openFunction_ne_noScratch (index : Nat) (i : Instruction) (c : Context) (n : Nat) :
    openFunction p index i c ≠ .error (.noScratch n) := by
  unfold openFunction
  split
  · split <;> simp
  · simp

theorem body_ne_noScratch (targets : List Int) (index : Nat) (c : Context) (code : List Instruction) (n : Nat) :
    body p targets index c code ≠ .error (.noScratch n) := by
  induction code generalizing index c with
  | nil => simp [body]
  | cons i rest ih =>
    rw [body]
    refine bind_ne_error (openFunction_ne_noScratch index i c n) fun opened => ?_
    refine bind_ne_error (instructionLines_ne_noScratch index i _ n) fun lines => ?_
    refine bind_ne_error (ih _ _) fun later => ?_
    simp [Pure.pure, Except.pure]

theorem lower_ne_noScratch (p : Program) (n : Nat) : lower p ≠ .error (.noScratch n) := by
  rw [lower]
  cases found : firstTargetError? p 0 p.code.toList with
  | some error =>
    intro refused
    cases refused
    exact firstTargetError?_ne_noScratch 0 _ n found
  | none =>
    refine bind_ne_error (body_ne_noScratch _ 0 {} _ n) fun lines => ?_
    simp [Pure.pure, Except.pure]

def finalState {α : Type} : Result LowerError Lowering α → Lowering
  | .ok _ s => s
  | .error _ s => s

/-- No program is refused for want of a scratch register. Whatever an instruction is and wherever it stands, at most four
    registers have been taken at a time when its lowering ends. -/
theorem scratch_suffices (p : Program) :
    (∀ n, ofProgram p ≠ .error (.noScratch n)) ∧
    ∀ (i : Instruction) (s : Lowering),
      let result := (instruction p i).run { s with free := scratch, peak := 0 }
      (finalState result).peak ≤ 4 ∧ ∀ n s', result ≠ .error (.noScratch n) s' := by
  constructor
  · intro n refused
    unfold ofProgram at refused
    cases lowered : lower p with
    | ok lines =>
      rw [lowered] at refused
      cases refused
    | error e =>
      rw [lowered] at refused
      cases refused
      exact lower_ne_noScratch p n lowered
  · intro i s
    have follows := follows_instruction p i (s := { s with free := scratch, peak := 0 }) rfl rfl
    cases run : (instruction p i).run { s with free := scratch, peak := 0 } with
    | ok a s' => exact ⟨(follows.ok a s' run).2, by simp⟩
    | error e s' =>
      obtain ⟨low, other⟩ := follows.error e s' run
      exact ⟨low, by simpa using fun n same => other n same⟩

example : ∃ s, (instruction {} { op := .add, a1 := .imm 1, a2 := .imm 2, a3 := .global dataBase }).run
    { index := 0, function := none, frame := 0 } = .ok () s ∧ s.peak = 4 := ⟨_, rfl, by decide⟩

end MiniC.Assembly
