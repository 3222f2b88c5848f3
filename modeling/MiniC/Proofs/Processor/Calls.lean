import MiniC.Proofs.Processor.Frames

namespace MiniC.Assembly

def pop (n : Word) : List Instr :=
  if 0 < n then addition .sp .sp (n * 16) (.x 9) else []

section Popping

variable (labels : Label → Word) (s : Processor)

theorem run_pop {n : Nat} (lt : n < 2 ^ 63) : (run labels s (pop (.ofNat n))).sp = s.sp + .ofNat (16 * n) ∧
    (run labels s (pop (.ofNat n))).x 29 = s.x 29 ∧ (run labels s (pop (.ofNat n))).x 0 = s.x 0 ∧
    (run labels s (pop (.ofNat n))).memory = s.memory := by
  unfold pop
  split
  · obtain ⟨w, released⟩ := run_release labels (.ofNat n * 16) s
    have bytes : Int64.ofNat n * 16 = .ofNat (16 * n) := by
      rw [Nat.mul_comm]
      exact (Int64.ofNat_mul n 16).symm
    rw [released, bytes]
    simp [Processor.x_set_of_ne]
  · next none =>
    rw [Int64.lt_iff_toInt_lt, Int64.toInt_ofNat_of_lt lt, Int64.toInt_zero] at none
    obtain rfl : n = 0 := by omega
    exact ⟨(Int64.add_zero _).symm, rfl, rfl, rfl⟩

theorem fit_pop (n : Word) : Fit (0 ≤ n * 16) (pop n) := by
  unfold pop
  split
  · exact fit_addition ..
  · exact .nil

end Popping

section Caller

variable {s : Lowering} {i : Instruction} (all : s.free = scratch)

include all

theorem writes_param : Writes (load i.a1 >>= fun r => instr (.str r (.before .sp (-16)))) s fun _ _ is =>
    Fit (Near i.a1) is ∧ ∀ labels s, ∃ w, run labels s is =
      ((s.set (.x 9) w).set .sp (s.sp - 16)).store (s.sp - 16) (s.value labels i.a1) := by
  refine (writes_load (by decide) all).bind ?_
  rintro _ _ is ⟨rfl, rfl, fit, loads⟩
  refine .instr ⟨fit.append (.cons rfl (fun _ => rfl) .nil), fun labels s => ⟨s.value labels i.a1, ?_⟩⟩
  rw [run_append, loads, Int64.sub_eq_add_neg]
  simp [exec, Processor.moved, Processor.address]

theorem writes_pop {n : Word} :
    Writes (if 0 < n then reg >>= addConstant .sp .sp (n * 16) else pure ()) s fun _ free is =>
      is = pop n ∧ ∃ k rest, free = .x k :: rest ∧ k ≠ 29 ∧ k ≠ 0 := by
  unfold pop
  split
  · refine .bind (Q := fun r free is => r = .x 9 ∧ free = scratch.drop 1 ∧ is = []) (.reg all ⟨rfl, rfl, rfl⟩) ?_
    rintro _ _ _ ⟨rfl, rfl, rfl⟩
    refine (writes_addConstant _ _ _ _ _).mono ?_
    rintro _ _ _ ⟨rfl, rfl⟩
    exact ⟨rfl, 10, _, rfl, by decide, by decide⟩
  · exact .pure ⟨rfl, 9, _, all, by decide, by decide⟩

/-- A call is a jump, and the cells are taken off before the result is stored. -/
theorem writes_call {p : Program} : Writes (call p i) s fun _ _ is =>
    ∃ is', is = .call (functionLabel p i.a1.value.toInt) :: (pop i.a2.value ++ is') := by
  have parts : call p i = instr (.call (functionLabel p i.a1.value.toInt)) >>= fun _ =>
      (if 0 < i.a2.value then reg >>= addConstant .sp .sp (i.a2.value * 16) else pure ()) >>= fun _ =>
        if i.a3.isAbsent then pure () else store (.x 0) i.a3 := by
    by_cases positive : 0 < i.a2.value
    · simp only [call, if_pos positive, bind_assoc]
    · simp only [call, if_neg positive, pure_bind]
  rw [parts]
  refine .bind (Q := fun _ free is => free = scratch ∧ is = [.call (functionLabel p i.a1.value.toInt)])
    (.instr ⟨all, rfl⟩) ?_
  rintro _ _ _ ⟨rfl, rfl⟩
  refine .bind (writes_pop (s := s.wrote scratch _) rfl) ?_
  rintro _ _ _ ⟨rfl, k, rest, rfl, inFrame, other⟩
  split
  · exact .pure ⟨[], rfl⟩
  · exact (writes_store inFrame other.symm rfl).mono fun _ _ is' _ => ⟨is', rfl⟩

end Caller

/-- How a processor gets from `s₀` on to the call for which it has pushed words. In between it may do
    what keeps `sp`, `x29` and the cells. -/
inductive Pushes (p : Program) (g : Image) (s₀ : Processor) : List Word → Processor → Prop where
  | start : Pushes p g s₀ [] s₀
  | param {vs : List Word} {s s' : Processor} {k : Nat} {i : Instruction} (before : Pushes p g s₀ vs s)
      (found : p.code[k]? = some i) (isParam : i.op = .param) (here : s.pc = g.start k)
      (runs : g.steps? (g.size k) s = some s') : Pushes p g s₀ (vs ++ [s.value g.labels i.a1]) s'
  | other {vs : List Word} {s s' : Processor} (before : Pushes p g s₀ vs s) (sp : s'.sp = s.sp) (frame : s'.x 29 = s.x 29)
      (cells : ∀ b, Within s.sp (16 * vs.length) b → s'.memory b = s.memory b) : Pushes p g s₀ vs s'

section Pushing

variable {p : Program} {lines : List Line} {g : Image} {base : Word} (lowered : lower p = .ok lines)
  (loaded : g.Loads base lines)

include lowered loaded

variable {s s' : Processor} {k : Nat} {i : Instruction} (found : p.code[k]? = some i) (isParam : i.op = .param)
  (here : s.pc = g.start k)

include found isParam here

theorem holds_param : ∃ is, g.Holds s.pc is ∧ g.size k = is.length ∧ Fit (Near i.a1) is ∧ ∀ labels s, ∃ w,
    run labels s is = ((s.set (.x 9) w).set .sp (s.sp - 16)).store (s.sp - 16) (s.value labels i.a1) := by
  obtain ⟨_, is, ⟨fit, pushes⟩, holds, size⟩ := loaded.exists_code lowered found fun _ _ => by
    rw [instruction, isParam]
    exact writes_param rfl
  rw [here]
  exact ⟨is, holds, size, fit, pushes⟩

theorem pushes_param (runs : g.steps? (g.size k) s = some s') :
    s'.sp = s.sp - 16 ∧ s'.x 29 = s.x 29 ∧ s'.memory = s.memory.store (s.sp - 16) (s.value g.labels i.a1) := by
  obtain ⟨is, holds, size, fit, pushes⟩ := holds_param lowered loaded found isParam here
  obtain ⟨w, pushed⟩ := pushes g.labels s
  rw [size, Image.steps?_straight holds fit.straight] at runs
  split at runs
  · cases runs
    simp [pushed, Processor.x_set_of_ne]
  · cases runs

theorem exists_steps?_param (near : Near i.a1) :
    ∃ s', g.steps? (g.size k) s = some s' ∧ s'.pc = s.pc + .ofNat (4 * g.size k) := by
  obtain ⟨is, holds, size, fit, _⟩ := holds_param lowered loaded found isParam here
  rw [size]
  exact ⟨_, Image.steps?_of_fit holds fit near, rfl⟩

omit found isParam here in
theorem Pushes.cells_of {s₀ s : Processor} {vs : List Word} (h : Pushes p g s₀ vs s) (bound : 16 * vs.length < 2 ^ 64) :
    s.sp + .ofNat (16 * vs.length) = s₀.sp ∧ s.x 29 = s₀.x 29 ∧
      ∀ j v, vs[j]? = some v → s.load (s.sp + .ofNat (16 * (vs.length - 1 - j))) = v := by
  induction h with
  | start => exact ⟨Int64.add_zero _, rfl, by simp⟩
  | @param vs s s' k i before found isParam here runs ih =>
    rw [List.length_append, List.length_singleton] at bound ⊢
    obtain ⟨sp, frame, cells⟩ := ih (by omega)
    obtain ⟨sp', frame', memory⟩ := pushes_param lowered loaded found isParam here runs
    have step : ∀ k, s'.sp + .ofNat (16 * (k + 1)) = s.sp + .ofNat (16 * k) := by
      intro k
      have back : s'.sp + .ofNat 16 = s.sp := by
        rw [sp']
        exact Int64.sub_add_cancel ..
      rw [Nat.mul_add, Nat.add_comm, ← add_ofNat_add, back]
    refine ⟨by rw [step, sp], by rw [frame', frame], fun j v pushed => ?_⟩
    -- The last word is where `sp` is now, and all others are one cell further from it than before.
    rw [Processor.load, memory, ← sp']
    by_cases last : j < vs.length
    · have cell : vs.length + 1 - 1 - j = vs.length - 1 - j + 1 := by omega
      have apart : ∀ c, Within (s'.sp + .ofNat (16 * (vs.length - 1 - j + 1))) 8 c → ¬ Within s'.sp 8 c :=
        fun c inside below => below.not_above (by omega) (by omega) inside
      rw [cell, Bytes.load_store_of_apart apart, step]
      rw [List.getElem?_append_left last] at pushed
      exact cells j v pushed
    · have le := (List.getElem?_eq_some_iff.mp pushed).1
      rw [List.length_append, List.length_singleton] at le
      obtain rfl : j = vs.length := by omega
      have cell : s'.sp + .ofNat (16 * (vs.length + 1 - 1 - vs.length)) = s'.sp := by
        rw [Nat.add_sub_cancel, Nat.sub_self]
        exact Int64.add_zero _
      rw [List.getElem?_concat_length] at pushed
      cases pushed
      rw [cell, Bytes.load_store]
  | @other vs s s' before sp' frame' same ih =>
    obtain ⟨sp, frame, cells⟩ := ih bound
    refine ⟨by rw [sp', sp], by rw [frame', frame], fun j v pushed => ?_⟩
    have lt := (List.getElem?_eq_some_iff.mp pushed).1
    rw [sp', ← cells j v pushed]
    exact Bytes.load_congr fun b inside => same b (inside.of_add (by omega))

end Pushing

/-- A call with `n` arguments of a function that has `size` bytes for its frame, as the program counts
    them. The addresses of its stack do not wrap around. -/
structure Calls (p : Program) (site entry n size : Nat) : Prop where
  call : ∃ i, p.code[site]? = some i ∧ i.op = .call ∧ i.a1.value.toInt = entry ∧ i.a2.value.toInt = n
  func : ∃ i, p.code[entry]? = some i ∧ i.op = .func ∧ i.a1.value.toInt = size ∧ i.a2.value.toInt = n
  room : 4 * (n + 1) ≤ size
  bound : frameExtent size + 16 + 16 * n < 2 ^ 63

namespace Calls

variable {p : Program} {lines : List Line} {g : Image} {base : Word} {site entry n size : Nat} {s : Processor}
  (h : Calls p site entry n size) (lowered : lower p = .ok lines) (loaded : g.Loads base lines)

include h lowered loaded

theorem jumps : ∃ is, g.Holds (g.start site) (.call (functionLabel p entry) :: (pop (.ofNat n) ++ is)) := by
  obtain ⟨i, found, isCall, target, count⟩ := h.call
  obtain ⟨_, _, ⟨is, rfl⟩, holds, _⟩ := loaded.exists_code lowered found fun _ _ => by
    rw [instruction, isCall]
    exact writes_call rfl
  rw [target, eq_ofNat count] at holds
  exact ⟨is, holds⟩

theorem enters (here : s.pc = g.start site) : ∃ s₁, g.steps? (1 + g.size entry) s = some s₁ ∧
    Framed (frameExtent size) n ((s.set (.x 30) (s.pc + 4)).goto (g.start entry)) s₁ := by
  obtain ⟨_, jump, _⟩ := h.jumps lowered loaded
  obtain ⟨i, found, isFunc, bytes, count⟩ := h.func
  have first : g.steps? 1 s = some ((s.set (.x 30) (s.pc + 4)).goto (g.start entry)) := by
    rw [← here] at jump
    rw [← loaded.labels_functionLabel lowered found isFunc, Image.steps?, Image.step?, jump]
    rfl
  have frame := frameBytes_eq bytes (by have := h.bound; omega)
  have room := h.room
  obtain ⟨_, is, ⟨fit, enters⟩, holds, length⟩ := loaded.exists_code lowered found fun c inner => by
    rw [instruction, isFunc]
    refine writes_prologue rfl ((inner isFunc).trans frame) (eq_ofNat count) ?_ ?_ h.bound
    · unfold frameExtent
      omega
    · unfold frameExtent
      omega
  have later := Image.steps?_of_fit (s := (s.set (.x 30) (s.pc + 4)).goto (g.start entry)) holds fit trivial
  obtain ⟨cells, saved, link, parameters⟩ := enters g.labels ((s.set (.x 30) (s.pc + 4)).goto (g.start entry))
  rw [length]
  exact ⟨_, (Image.steps?_add first).trans later, cells, saved, link, parameters⟩

theorem leaves (member : .label (.epilogue entry) ∈ lines) (here : s.pc = g.labels (.epilogue entry)) :
    ∃ k s', g.steps? k s = some s' ∧ s'.pc = s.load (s.x 29 + .ofNat (frameExtent size + 8)) ∧
      s'.sp = s.x 29 + .ofNat (frameExtent size + 16) ∧ s'.x 29 = s.load (s.x 29 + .ofNat (frameExtent size)) ∧
      s'.x 0 = s.x 0 ∧ s'.memory = s.memory := by
  obtain ⟨i, found, _, bytes, _⟩ := h.func
  have bound := h.bound
  have holds := loaded.epilogue lowered found member
  rw [← here, frameBytes_eq bytes (by omega)] at holds
  obtain ⟨own, back, _⟩ := holds.of_append
  have nonneg : (0 : Word) ≤ .ofNat (frameExtent size) := (aligned_ofNat (by omega) (by unfold frameExtent; omega)).1
  have first := Image.steps?_of_fit own (fit_leave _) nonneg
  obtain ⟨sp, frame, link, result, memory⟩ := run_leave g.labels (.ofNat (frameExtent size)) s
  generalize run g.labels s (leave (.ofNat (frameExtent size))) = s₁ at first sp frame link result memory
  have last : g.steps? 1 (s₁.goto (s.pc + .ofNat (4 * (leave (.ofNat (frameExtent size))).length))) =
      some (s₁.goto (s₁.x 30)) := by
    rw [Image.steps?, Image.step?, Processor.pc_goto, back]
    rfl
  refine ⟨_, _, (Image.steps?_add first).trans last, ?_, ?_, frame, result, memory⟩
  · rw [Processor.pc_goto, link]
    exact congrArg s.load (add_ofNat_add _ _ 8)
  · rw [Processor.sp_goto, sp]
    exact add_ofNat_add _ _ 16

theorem pops (here : s.pc = g.start site + 4) : ∃ s', g.steps? (pop (.ofNat n)).length s = some s' ∧
    s'.sp = s.sp + .ofNat (16 * n) ∧ s'.x 29 = s.x 29 ∧ s'.x 0 = s.x 0 ∧ s'.memory = s.memory := by
  obtain ⟨is, _, holds⟩ := h.jumps lowered loaded
  have bound := h.bound
  rw [← here] at holds
  have nonneg : (0 : Word) ≤ .ofNat n * 16 := by
    have bytes : Int64.ofNat n * 16 = .ofNat (n * 16) := (Int64.ofNat_mul n 16).symm
    rw [bytes]
    exact (aligned_ofNat (by omega) (by omega)).1
  refine ⟨_, Image.steps?_of_fit holds.of_append.1 (fit_pop _) nonneg, ?_⟩
  exact run_pop g.labels s (by omega)

end Calls

/-- A call finds its arguments in the parameters of the function, whose frame lies below the registers
    that it saves and the cells of the arguments. Whatever it does, if it does not overwrite these
    registers, it returns behind the jump, and `sp` and `x29` are what they were before the arguments
    were pushed when their cells have been taken off. -/
theorem stack_of_call {p : Program} {lines : List Line} {g : Image} {base : Word} {site entry n size : Nat}
    (calls : Calls p site entry n size) (lowered : lower p = .ok lines) (loaded : g.Loads base lines) {s₀ s : Processor}
    {vs : List Word} (pushed : Pushes p g s₀ vs s) (count : vs.length = n) (here : s.pc = g.start site) :
    frameBytes (.ofNat size) = .ofNat (frameExtent size) ∧ s.sp + .ofNat (16 * n) = s₀.sp ∧
    ∃ s₁, g.steps? (1 + g.size entry) s = some s₁ ∧
      (∀ j v, vs[j]? = some v → s₁.load (s₁.x 29 + .ofNat (8 * j)) = v) ∧
      s₁.load (s₁.x 29 + .ofNat (frameExtent size)) = s₀.x 29 ∧
      s₁.load (s₁.x 29 + .ofNat (frameExtent size + 8)) = s.pc + 4 ∧
      (∀ b, Within (s₁.x 29) (frameExtent size) b →
        ¬ Within (s₁.x 29 + .ofNat (frameExtent size)) 16 b ∧ ¬ Within s.sp (16 * n) b) ∧
      ∀ s₂, .label (.epilogue entry) ∈ lines → s₂.pc = g.labels (.epilogue entry) → s₂.x 29 = s₁.x 29 →
        (∀ b, Within (s₁.x 29 + .ofNat (frameExtent size)) 16 b → s₂.memory b = s₁.memory b) →
        ∃ k s₃ s₄, g.steps? k s₂ = some s₃ ∧ s₃.pc = s.pc + 4 ∧ g.steps? (pop (.ofNat n)).length s₃ = some s₄ ∧
          s₄.sp = s₀.sp ∧ s₄.x 29 = s₀.x 29 ∧ s₄.x 0 = s₂.x 0 ∧ s₄.memory = s₂.memory := by
  subst count
  have bound := calls.bound
  obtain ⟨top, frame, cells⟩ := pushed.cells_of lowered loaded (by omega)
  obtain ⟨s₁, enters, framed⟩ := calls.enters lowered loaded here
  have saved : s₁.load (s₁.x 29 + .ofNat (frameExtent size)) = s₀.x 29 := framed.saved.trans frame
  have lowest : s₁.x 29 + .ofNat (frameExtent size + 16) = s.sp := framed.cells
  refine ⟨frameBytes_eq (Int64.toInt_ofNat_of_lt ?_) (by omega), top, s₁, enters, ?_, saved, framed.link, ?_, ?_⟩
  · unfold frameExtent at bound
    omega
  · intro j v pushed
    have lt := (List.getElem?_eq_some_iff.mp pushed).1
    exact (framed.parameters j lt).trans (cells j v pushed)
  · intro b inside
    rw [← lowest]
    exact ⟨inside.not_above (by omega) (by omega), inside.not_above (by omega) (by omega)⟩
  · intro s₂ member ends same kept
    obtain ⟨k, s₃, leaves, back, sp, old, result, memory⟩ := calls.leaves lowered loaded member ends
    rw [same] at back sp old
    -- The epilogue finds above the frame what the prologue has put there.
    have link : s₃.pc = s.pc + 4 := by
      have kept' : s₂.load (s₁.x 29 + .ofNat (frameExtent size + 8)) =
        s₁.load (s₁.x 29 + .ofNat (frameExtent size + 8)) := by
        refine Bytes.load_congr fun b inside => kept b ?_
        rw [← add_ofNat_add] at inside
        exact inside.of_add (by omega)
      exact back.trans (kept'.trans framed.link)
    have old' : s₃.x 29 = s₀.x 29 :=
      old.trans ((Bytes.load_congr fun b inside => kept b (inside.mono (by omega))).trans saved)
    obtain ⟨s₄, pops, sp', old'', result', memory'⟩ := calls.pops lowered loaded (link.trans (by rw [here]))
    refine ⟨k, s₃, s₄, leaves, link, pops, ?_, old''.trans old', result'.trans result, memory'.trans memory⟩
    rw [sp', sp, lowest, top]

def passing : Program :=
  { functions := [{ name := "f", entry := 4, stop := 6 }]
    code := #[{ op := .param, a1 := .imm 5 }, { op := .param, a1 := .imm 7 }, { op := .call, a1 := .label 4, a2 := .imm 2 },
      { op := .jp, a1 := .label 6 }, { op := .func, a1 := .imm 12, a2 := .imm 2 }, { op := .ret }] }

def passingLines : List Line :=
  (lower passing).toOption.getD []

def passingImage : Image where
  code a := (passingLines.filterMap fun l => if let .instr i := l then some i else none)[distance 0 a / 4]?
  labels l := if l = mainLabel then 0 else if l = .epilogue 4 then 68 else if l = .code 6 then 84 else
    if l = dataLabel ∨ l = .format then 4096 else 36
  sections name := if name = ".text" then 0 else 4096
  start k := [8, 16, 24, 32, 36, 64].getD k 0
  size k := [2, 2, 2, 1, 7, 1].getD k 0

theorem stack_of_passing : ∃ s s₁ k s₃ s₄, lower passing = .ok passingLines ∧ passingImage.Loads 0 passingLines ∧
    passingImage.steps? 8 s = some s₁ ∧ s₁.load (s₁.x 29) = 5 ∧ s₁.load (s₁.x 29 + 8) = 7 ∧
    passingImage.steps? k (s₁.goto 68) = some s₃ ∧ s₃.pc = 28 ∧ passingImage.steps? 1 s₃ = some s₄ ∧
    s₄.sp = s.sp + 32 := by
  have lowered : lower passing = .ok passingLines := by decide +kernel
  have loaded : passingImage.Loads 0 passingLines := by decide +kernel
  have calls : Calls passing 2 4 2 12 := ⟨⟨_, rfl, rfl, rfl, rfl⟩, ⟨_, rfl, rfl, rfl, rfl⟩, by decide, by decide⟩
  let s₀ : Processor := ⟨fun _ => 0, 8192, ⟨false, false, false⟩, fun _ => 0, 8⟩
  obtain ⟨s, runs, pc⟩ := exists_steps?_param lowered loaded (s := s₀) (k := 0) rfl rfl rfl (by decide)
  obtain ⟨s', runs', pc'⟩ := exists_steps?_param lowered loaded (s := s) (k := 1) rfl rfl pc (by decide)
  have first : Pushes passing passingImage s₀ [5] s :=
    .param (k := 0) (i := { op := .param, a1 := .imm 5 }) .start rfl rfl rfl runs
  have pushed : Pushes passing passingImage s₀ [5, 7] s' :=
    .param (k := 1) (i := { op := .param, a1 := .imm 7 }) first rfl rfl pc runs'
  have here : s'.pc = passingImage.start 2 := by
    rw [pc', pc]
    rfl
  obtain ⟨_, top, s₁, enters, parameters, _, _, _, returns⟩ := stack_of_call calls lowered loaded pushed rfl here
  obtain ⟨k, s₃, s₄, leaves, back, pops, sp, _⟩ := returns (s₁.goto 68) (by decide +kernel) rfl rfl fun _ _ => rfl
  refine ⟨s', s₁, k, s₃, s₄, lowered, loaded, enters, ?_, parameters 1 7 rfl, leaves, ?_, pops, ?_⟩
  · rw [← parameters 0 5 rfl]
    exact congrArg s₁.load (Int64.add_zero _).symm
  · rw [back, here]
    rfl
  · rw [sp, ← top]
    rfl

end MiniC.Assembly
