import MiniC.Proofs.Assembly.Rows

namespace MiniC

namespace Assembly

open EStateM (run_bind run_pure run_get run_modify run_set)

abbrev Adds (R : Label → Prop) (s s' : Lowering) : Prop :=
  ∃ is : List Instr, s'.lines.toList = s.lines.toList ++ is.map Line.instr ∧ ∀ i ∈ is, ∀ l, i.label? = some l → R l

def Emits {α : Type} (R : Label → Prop) (action : LowerM α) : Prop :=
  ∀ s a s', action.run s = .ok a s' → Adds R s s'

namespace Emits

variable {α β : Type} {R : Label → Prop}

theorem pure (a : α) : Emits R (Pure.pure a : LowerM α) := by
  intro s a s' run
  cases run
  exact ⟨[], by simp, by simp⟩

theorem bind {x : LowerM α} {f : α → LowerM β} (first : Emits R x) (second : ∀ a, Emits R (f a)) : Emits R (x >>= f) := by
  intro s b s' run
  rw [run_bind] at run
  cases runFirst : x.run s with
  | error e s₁ =>
    rw [runFirst] at run
    cases run
  | ok a s₁ =>
    rw [runFirst] at run
    obtain ⟨is, lines, named⟩ := first s a s₁ runFirst
    obtain ⟨is', lines', named'⟩ := second a s₁ b s' run
    refine ⟨is ++ is', by simp [lines', lines], fun i member => ?_⟩
    rcases List.mem_append.mp member with member | member
    · exact named i member
    · exact named' i member

theorem get : Emits R (get : LowerM Lowering) := by
  intro s a s' run
  cases run
  exact ⟨[], by simp, by simp⟩

theorem fail (error : Nat → LowerError) : Emits R (fail error : LowerM α) := by
  intro s a s' run
  cases run

theorem instr {i : Instr} (named : ∀ l, i.label? = some l → R l) : Emits R (instr i) := by
  intro s a s' run
  cases run
  exact ⟨[i], by simp, by simpa using named⟩

theorem mute {i : Instr} (mute : i.label? = none) : Emits R (Assembly.instr i) :=
  .instr fun l named => by rw [mute] at named; cases named

theorem forM {xs : List α} {f : α → LowerM Unit} (each : ∀ x ∈ xs, Emits R (f x)) : Emits R (xs.forM f) := by
  induction xs with
  | nil => exact .pure ()
  | cons x rest ih => exact (each x (by simp)).bind fun _ => ih fun x member => each x (by simp [member])

theorem reg : Emits R reg := by
  rintro ⟨index, function, frame, _ | ⟨r, free⟩, lines⟩ a s' run
  · cases run
  · cases run
    exact ⟨[], by simp, by simp⟩

theorem freeAll : Emits R freeAll := by
  intro s a s' run
  cases run
  exact ⟨[], by simp, by simp⟩

theorem addConstant (d a : Reg) (n : Word) (t : Reg) : Emits R (addConstant d a n t) := by
  unfold Assembly.addConstant
  split
  · exact .mute rfl
  · exact (Emits.mute rfl).bind fun _ => .mute rfl

theorem frameMem (offset : Word) (t : Reg) : Emits R (frameMem offset t) := by
  unfold Assembly.frameMem
  split
  · exact .pure _
  · exact (Emits.addConstant _ _ _ _).bind fun _ => .pure _

theorem copyArgument (count : Word) (index : Nat) : Emits R (copyArgument count index) :=
  Emits.freeAll.bind fun _ => Emits.reg.bind fun _ => Emits.get.bind fun _ => (Emits.frameMem _ _).bind fun _ =>
    (Emits.mute rfl).bind fun _ => Emits.reg.bind fun _ => (Emits.frameMem _ _).bind fun _ => .mute rfl

theorem prologue (i : Instruction) : Emits R (prologue i) := by
  have copies : Emits R ((List.range i.a2.value.toNatClampNeg).forM (Assembly.copyArgument i.a2.value)) :=
    .forM fun _ _ => .copyArgument _ _
  refine (Emits.mute rfl).bind fun _ => Emits.get.bind fun s => ?_
  dsimp only
  split
  · exact (Emits.mute rfl).bind fun _ => (Emits.mute rfl).bind fun _ => copies
  · exact Emits.reg.bind fun _ => (Emits.mute rfl).bind fun _ => (Emits.mute rfl).bind fun _ =>
      (Emits.mute rfl).bind fun _ => copies

variable (data : R dataLabel)

include data

theorem globalAddress (d : Reg) (address : Word) : Emits R (globalAddress d address) := by
  refine (Emits.instr fun l named => ?_).bind fun _ => .instr fun l named => ?_
  · cases named
    exact data
  · cases named
    exact data

theorem slotMem (o : Operand) (t : Reg) : Emits R (slotMem o t) := by
  unfold Assembly.slotMem
  split
  · refine Emits.get.bind fun s => ?_
    split
    · exact .fail _
    · exact .frameMem _ t
  · exact (Emits.globalAddress data t _).bind fun _ => .pure _
  · exact .fail _

theorem storageMem (o : Operand) (t : Reg) : Emits R (storageMem o t) := by
  refine (Emits.slotMem data _ t).bind fun m => ?_
  split
  · exact (Emits.mute rfl).bind fun _ => .pure _
  · exact .pure _

theorem loadInto (r : Reg) (o : Operand) : Emits R (loadInto r o) := by
  unfold Assembly.loadInto
  split
  · split
    · exact .mute rfl
    · exact .mute rfl
  · exact (Emits.storageMem data o r).bind fun _ => .mute rfl

theorem load (o : Operand) : Emits R (load o) :=
  Emits.reg.bind fun r => (Emits.loadInto data r o).bind fun _ => .pure r

theorem store (r : Reg) (o : Operand) : Emits R (store r o) :=
  Emits.reg.bind fun t => (Emits.storageMem data o t).bind fun _ => .mute rfl

theorem binary (i : Instruction) {compute : Reg → Reg → Reg → List Instr}
    (mute : ∀ d a b, ∀ j ∈ compute d a b, j.label? = none) : Emits R (binary i compute) :=
  (Emits.load data _).bind fun a => (Emits.load data _).bind fun b => Emits.reg.bind fun d =>
    (Emits.forM fun j member => .mute (mute d a b j member)).bind fun _ => .store data d _

theorem storeAddress (i : Instruction) : Emits R (storeAddress i) := by
  unfold Assembly.storeAddress
  split
  · exact .fail _
  · refine Emits.reg.bind fun r => ?_
    split
    · exact (Emits.addConstant _ _ _ _).bind fun _ => .store data r _
    · exact (Emits.globalAddress data _ _).bind fun _ => .store data r _
    · exact (Emits.fail _).bind fun _ => .store data r _

theorem afterCall (i : Instruction) : Emits R (do
    if 0 < i.a2.value then
      Assembly.addConstant .sp .sp (i.a2.value * 16) (← Assembly.reg)
    unless i.a3.isAbsent do
      Assembly.store (.x 0) i.a3 : LowerM Unit) := by
  split
  · split
    · exact Emits.reg.bind fun _ => (Emits.addConstant _ _ _ _).bind fun _ => .pure _
    · exact .pure _
  · split
    · exact Emits.reg.bind fun _ => (Emits.addConstant _ _ _ _).bind fun _ => .store data _ _
    · exact .store data _ _

theorem printWord (format : R .format) (printf : R (.symbol "printf")) (o : Operand) : Emits R (printWord o) := by
  refine (Emits.loadInto data _ o).bind fun _ => (Emits.instr fun l named => ?_).bind fun _ =>
    (Emits.instr fun l named => ?_).bind fun _ => .instr fun l named => ?_
  · cases named
    exact format
  · cases named
    exact format
  · cases named
    exact printf

end Emits

inductive Names (p : Program) (i : Instruction) (function : Option Function) : Label → Prop
  | data : Names p i function dataLabel
  | format : Names p i function .format
  | printf : Names p i function (.symbol "printf")
  | target {t : Word} (known : target? i = some t) : Names p i function (.code t.toInt)
  | callee (known : i.op = .call) : Names p i function (functionLabel p i.a1.value.toInt)
  | epilogue {f : Function} (holds : function = some f) : Names p i function (.epilogue f.entry)

section Instruction

variable {p : Program} {i : Instruction} {s s' : Lowering}

theorem mute_operation {op : Opcode} {compute : Reg → Reg → Reg → List Instr} (known : operation? op = some compute)
    (d a b : Reg) : ∀ j ∈ compute d a b, j.label? = none := by
  cases op <;> cases known <;> simp [Instr.label?]

theorem adds_ret (run : (ret i).run s = .ok () s') : Adds (Names p i s.function) s s' := by
  cases function : s.function with
  | none =>
    have failed : (ret i).run s = .error (.returnOutside s.index) s := by
      unfold ret
      simp only [run_bind, run_get, function]
      rfl
    rw [failed] at run
    cases run
  | some f =>
    have leaves : Emits (Names p i (some f)) (instr (.jump (.epilogue f.entry))) := by
      refine .instr fun l named => ?_
      cases named
      exact .epilogue rfl
    have emits : Emits (Names p i (some f)) (if i.a1.isAbsent then instr (.jump (.epilogue f.entry)) else do
        loadInto (.x 0) i.a1
        let r ← reg
        let m ← frameMem (machineOffset f.frame.returnOffset) r
        instr (.str (.x 0) m)
        instr (.jump (.epilogue f.entry))) := by
      split
      · exact leaves
      · exact (Emits.loadInto .data _ _).bind fun _ => Emits.reg.bind fun _ => (Emits.frameMem _ _).bind fun _ =>
          (Emits.mute rfl).bind fun _ => leaves
    unfold ret at run
    simp only [run_bind, run_get, function] at run
    exact emits s () s' run

theorem adds_instruction (run : (instruction p i).run s = .ok () s') : Adds (Names p i s.function) s s' := by
  have storage : Names p i s.function dataLabel := .data
  suffices emits : i.op ≠ .ret → Emits (Names p i s.function) (instruction p i) by
    by_cases leaves : i.op = .ret
    · rw [instruction, leaves] at run
      exact adds_ret run
    · exact emits leaves s () s' run
  intro stays
  unfold instruction
  split
  · exact (Emits.load storage _).bind fun r => .store storage r _
  · exact .storeAddress storage _
  · next jumps =>
    refine (Emits.load storage _).bind fun r => .instr fun l named => ?_
    cases named
    exact .target (by rw [target?, jumps]; rfl)
  · next jumps =>
    refine .instr fun l named => ?_
    cases named
    exact .target (by rw [target?, jumps]; rfl)
  · exact .printWord storage .format .printf _
  · exact (Emits.load storage _).bind fun r => .mute rfl
  · next calls =>
    refine Emits.bind (.instr fun l named => ?_) fun _ => .afterCall storage i
    cases named
    exact .callee calls
  · exact .prologue _
  · next leaves => exact absurd leaves stays
  · split
    · next known => exact .binary storage _ (mute_operation known)
    · exact .fail _

theorem instructionLines_cases {n : Nat} {c : Context} {lines : List Line} (lowered : instructionLines p n i c = .ok lines) :
    ∃ s, (instruction p i).run { index := n, function := c.function, frame := c.frame } = .ok () s ∧
      lines = s.lines.toList := by
  rw [instructionLines] at lowered
  split at lowered
  · next s run =>
    cases lowered
    exact ⟨s, run, rfl⟩
  · cases lowered

theorem known_of_instructionLines {n : Nat} {c : Context} {lines : List Line}
    (lowered : instructionLines p n i c = .ok lines) : i.op ∈ Opcode.all := by
  obtain ⟨s, run, _⟩ := instructionLines_cases lowered
  rcases i with ⟨op, a1, a2, a3⟩
  cases op with
  | unknown name => cases run
  | _ => simp [Opcode.all]

theorem lines_of_instructionLines {n : Nat} {c : Context} {lines : List Line}
    (lowered : instructionLines p n i c = .ok lines) :
    ∃ is : List Instr, lines = is.map Line.instr ∧ ∀ j ∈ is, ∀ l, j.label? = some l → Names p i c.function l := by
  obtain ⟨s, run, rfl⟩ := instructionLines_cases lowered
  obtain ⟨is, lines, named⟩ := adds_instruction run
  exact ⟨is, by simpa using lines, named⟩

theorem lines_of_call {n : Nat} {c : Context} {lines : List Line} (calls : i.op = .call)
    (lowered : instructionLines p n i c = .ok lines) :
    ∃ more, lines = .instr (.call (functionLabel p i.a1.value.toInt)) :: more := by
  obtain ⟨s, run, rfl⟩ := instructionLines_cases lowered
  have first : (instruction p i).run { index := n, function := c.function, frame := c.frame } =
      (do
        if 0 < i.a2.value then
          addConstant .sp .sp (i.a2.value * 16) (← reg)
        unless i.a3.isAbsent do
          store (.x 0) i.a3 : LowerM Unit).run
        { index := n, function := c.function, frame := c.frame,
          lines := #[.instr (.call (functionLabel p i.a1.value.toInt))] } := by
    rw [instruction, calls]
    rfl
  rw [first] at run
  obtain ⟨is, lines, _⟩ := Emits.afterCall (R := fun _ => True) trivial i _ () s run
  exact ⟨is.map Line.instr, lines⟩

end Instruction

def landing (targets : List Int) (n : Nat) : List Line :=
  if targets.contains (n : Int) then [.label (.code n)] else []

/-- The lowering of one instruction: the lines that open a function there, its own ones, and those that
    close a function behind it. -/
structure Step (p : Program) (n : Nat) (c : Context) (i : Instruction) where
  opening : List Line
  inner : Context
  own : List Line
  opens : openFunction p n i c = .ok (opening, inner)
  lowers : instructionLines p n i inner = .ok own

namespace Step

variable {p : Program} {n : Nat} {c : Context} {i : Instruction}

def lines (s : Step p n c i) (targets : List Int) : List Line :=
  s.opening ++ landing targets n ++ .source n i :: s.own ++ (closeFunction n s.inner).1

def next (s : Step p n c i) : Context :=
  (closeFunction n s.inner).2

theorem opening_cases (s : Step p n c i) :
    (i.op ≠ .func ∧ s.opening = [] ∧ s.inner = c) ∨
      (i.op = .func ∧ s.opening = [.blank, .label (functionLabel p n)] ∧
        ∃ f, p.functionAt? n = some f ∧ s.inner.function = some f) := by
  have opens := s.opens
  rw [openFunction] at opens
  split at opens
  · next isFunc =>
    refine .inr ⟨isFunc, ?_⟩
    split at opens
    · cases opens
    · next f found =>
      rw [functionLabel, found]
      generalize s.opening = opening at opens ⊢
      generalize s.inner = inner at opens ⊢
      cases opens
      exact ⟨rfl, f, rfl, rfl⟩
  · next other =>
    refine .inl ⟨other, ?_⟩
    generalize s.opening = opening at opens ⊢
    generalize s.inner = inner at opens ⊢
    cases opens
    exact ⟨rfl, rfl⟩

theorem inner_of_func (s : Step p n c i) (isFunc : i.op = .func) :
    ∃ f, p.functionAt? n = some f ∧ s.inner = ⟨some f, frameBytes i.a1.value⟩ := by
  have opens := s.opens
  rw [openFunction, if_pos isFunc] at opens
  split at opens
  · cases opens
  · next f found =>
    simp only [Except.ok.injEq, Prod.mk.injEq] at opens
    exact ⟨f, found, opens.2.symm⟩

end Step

section Body

variable {p : Program} {targets : List Int} {n : Nat} {c : Context}

theorem body_cons {i : Instruction} {rest : List Instruction} {out : List Line}
    (lowered : body p targets n c (i :: rest) = .ok out) :
    ∃ (s : Step p n c i) (later : List Line), body p targets (n + 1) s.next rest = .ok later ∧
      out = s.lines targets ++ later := by
  rw [body] at lowered
  cases opens : openFunction p n i c with
  | error e =>
    rw [opens] at lowered
    cases lowered
  | ok opened =>
    obtain ⟨opening, inner⟩ := opened
    simp only [opens, bind, Except.bind] at lowered
    cases lowers : instructionLines p n i inner with
    | error e =>
      rw [lowers] at lowered
      cases lowered
    | ok own =>
      simp only [lowers] at lowered
      cases remains : body p targets (n + 1) (closeFunction n inner).2 rest with
      | error e =>
        rw [remains] at lowered
        cases lowered
      | ok later =>
        rw [remains] at lowered
        cases lowered
        exact ⟨⟨opening, inner, own, opens, lowers⟩, later, remains, rfl⟩

/-- The lines of every instruction stand together, and those of the next one follow. -/
theorem split_body {rest : List Instruction} {out : List Line} (lowered : body p targets n c rest = .ok out) {k : Nat}
    {i : Instruction} (found : rest[k]? = some i) :
    ∃ (c' : Context) (s : Step p (n + k) c' i) (before later : List Line), out = before ++ (s.lines targets ++ later) ∧
      body p targets (n + k + 1) s.next (rest.drop (k + 1)) = .ok later := by
  induction rest generalizing n c out k with
  | nil => cases found
  | cons j rest ih =>
    obtain ⟨s, later, remains, rfl⟩ := body_cons lowered
    cases k with
    | zero =>
      cases found
      exact ⟨c, s, [], later, rfl, remains⟩
    | succ k =>
      obtain ⟨c', s', before, later', rfl, remains'⟩ := ih remains found
      have same : n + (k + 1) = n + 1 + k := by omega
      rw [same]
      exact ⟨c', s', s.lines targets ++ before, later', by rw [List.append_assoc], remains'⟩

theorem exists_step {rest : List Instruction} {out : List Line} (lowered : body p targets n c rest = .ok out) {k : Nat}
    {i : Instruction} (found : rest[k]? = some i) : ∃ (c' : Context) (s : Step p (n + k) c' i),
      s.lines targets <:+: out := by
  obtain ⟨c', s, before, later, rfl, _⟩ := split_body lowered found
  exact ⟨c', s, before, later, List.append_assoc ..⟩

def Pauses (lines : List Line) : Prop :=
  ∀ i, lines.head? ≠ some (.instr i)

theorem Pauses.append {lines lines' : List Line} (first : Pauses lines) (second : Pauses lines') :
    Pauses (lines ++ lines') := by
  cases lines with
  | nil => exact second
  | cons l lines => exact first

theorem pauses_closeFunction : Pauses (closeFunction n c).1 := by
  unfold closeFunction
  split
  · split <;> simp [Pauses, epilogueLines]
  · simp [Pauses]

theorem pauses_body {rest : List Instruction} {out : List Line} (lowered : body p targets n c rest = .ok out) :
    Pauses out := by
  cases rest with
  | nil =>
    cases lowered
    simp [Pauses]
  | cons i rest =>
    obtain ⟨s, later, _, rfl⟩ := body_cons lowered
    have opening : Pauses s.opening := by
      rcases s.opening_cases with ⟨_, none, _⟩ | ⟨_, opening, _⟩
      · simp [none, Pauses]
      · simp [opening, Pauses]
    have label : Pauses (landing targets n) := by
      unfold landing
      split <;> simp [Pauses]
    have own : Pauses (.source n i :: s.own ++ (closeFunction n s.inner).1 ++ later) := by simp [Pauses]
    simpa [Step.lines] using opening.append (label.append own)

theorem forall_body {P : Line → Prop} {rest : List Instruction} {out : List Line}
    (lowered : body p targets n c rest = .ok out)
    (each : ∀ n c i (s : Step p n c i), ∀ l ∈ s.lines targets, P l) : ∀ l ∈ out, P l := by
  induction rest generalizing n c out with
  | nil =>
    cases lowered
    simp
  | cons i rest ih =>
    obtain ⟨s, later, remains, rfl⟩ := body_cons lowered
    intro l member
    rcases List.mem_append.mp member with member | member
    · exact each n c i s l member
    · exact ih remains l member

end Body

end Assembly

end MiniC
