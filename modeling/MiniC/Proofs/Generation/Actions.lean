import Mathlib.Algebra.Order.Ring.Int
import MiniC.Codegen.Source

namespace MiniC

def Instruction.aimed (i : Instruction) (target : Nat) : Instruction :=
  match i.op.target? with
  | some position => i.setOperand position (.label target)
  | none => i

@[simp]
theorem Instruction.setOperand_op (i : Instruction) (p : Position) (o : Operand) :
    (i.setOperand p o).op = i.op := by
  cases p <;> rfl

@[simp]
theorem Instruction.aimed_op (i : Instruction) (target : Nat) : (i.aimed target).op = i.op := by
  unfold aimed
  split <;> simp

theorem Verdict.isAccepted_eq_false {v : Verdict} (h : v ≠ .accepted) : v.isAccepted = false := by
  simp [isAccepted, h]

namespace Codegen

open EStateM (run_bind run_pure run_get run_modify run_set)

theorem run_bind_ok {α β : Type} {x : GenM α} {f : α → GenM β} {g g' : Codegen} {a : α}
    {r : EStateM.Result Fault Codegen β} (first : x.run g = .ok a g') (second : (f a).run g' = r) :
    (x >>= f).run g = r := by
  rw [run_bind, first]
  exact second

theorem bind_ok {α β : Type} {x : GenM α} {f : α → GenM β} {g g' : Codegen} {b : β}
    (h : (x >>= f).run g = .ok b g') : ∃ a g₁, x.run g = .ok a g₁ ∧ (f a).run g₁ = .ok b g' := by
  rw [run_bind] at h
  cases first : x.run g with
  | ok a g₁ =>
    rw [first] at h
    exact ⟨a, g₁, rfl, h⟩
  | error fault g₁ =>
    rw [first] at h
    cases h

abbrev code (g : Codegen) : Array Instruction :=
  g.emitter.code

abbrev temp (g : Codegen) : Operand :=
  g.emitter.free

def emitted (g : Codegen) (i : Instruction) : Codegen :=
  { g with emitter := { g.emitter with code := g.emitter.code.push i } }

@[simp]
theorem emitted_code (g : Codegen) (i : Instruction) : (g.emitted i).code = g.code.push i := rfl

def reserved (g : Codegen) : Codegen :=
  { g with
    emitter := { g.emitter with temps := g.emitter.temps + 1 }.take
      ("t" ++ Decimal.ofNat (g.emitter.temps + 1)) .temp wordSize }

def judged (g : Codegen) (line : Nat) (v : Verdict) : Codegen :=
  match v.error? with
  | some error => { g with errors := g.errors.push ⟨line, error⟩ }
  | none => g

@[simp]
theorem judged_accepted (g : Codegen) (line : Nat) : g.judged line .accepted = g := rfl

def Jumps (g : Codegen) (jump : Nat) : Prop :=
  ∃ i, g.code[jump]? = some i ∧ i.op.target?.isSome

def aimed (g : Codegen) (jump target : Nat) : Codegen :=
  { g with emitter := { g.emitter with code := g.code.modify jump (·.aimed target) } }

def landed (g : Codegen) (jump : Nat) : Codegen :=
  g.aimed jump g.code.size

@[simp]
theorem aimed_code (g : Codegen) (jump target : Nat) :
    (g.aimed jump target).code = g.code.modify jump (·.aimed target) := rfl

@[simp]
theorem landed_code (g : Codegen) (jump : Nat) :
    (g.landed jump).code = g.code.modify jump (·.aimed g.code.size) := rfl

theorem run_emit (i : Instruction) (g : Codegen) :
    (liftM (Emitter.emit i) : GenM Nat).run g = .ok g.code.size (g.emitted i) := rfl

theorem run_here (g : Codegen) : (liftM Emitter.here : GenM Nat).run g = .ok g.code.size g := rfl

theorem run_newTemp (g : Codegen) :
    (liftM Emitter.newTemp : GenM Operand).run g = .ok g.temp g.reserved := rfl

theorem run_check (line : Nat) (v : Verdict) (g : Codegen) :
    (check line v).run g = .ok v.isAccepted (g.judged line v) := by
  unfold check judged
  cases v <;> rfl

theorem run_resolve? (name : Text) (g : Codegen) :
    (resolve? name).run g = .ok (g.scopes.resolve? name) g := rfl

theorem run_lookup (id : Ident) (g : Codegen) :
    (lookup id).run g = .ok (g.scopes.resolve? id.name)
      (g.judged id.line (Check.declared id.name (g.scopes.resolve? id.name))) := by
  simp only [lookup, run_bind, run_resolve?, run_check, run_pure]

theorem run_lookup_some {id : Ident} {g : Codegen} {s : Symbol} (h : g.scopes.resolve? id.name = some s) :
    (lookup id).run g = .ok (some s) g := by
  rw [run_lookup, h]
  rfl

theorem run_lookup_none {id : Ident} {g : Codegen} (h : g.scopes.resolve? id.name = none) :
    (lookup id).run g = .ok none (g.judged id.line (.rejected (.undefined id.name))) := by
  rw [run_lookup, h]
  rfl

def nameValue (s : Symbol) : Value :=
  if s.kind = .func ∨ s.type = .error then .reported
  else if s.kind = .array then { type := .array, operand := s.location, symbol := some s }
  else { type := .int, operand := s.location, symbol := some s, assignable := true }

theorem run_name_some {id : Ident} {g : Codegen} {s : Symbol} (h : g.scopes.resolve? id.name = some s) :
    (name id).run g = .ok (nameValue s) (g.judged id.line (Check.name s)) := by
  simp only [name, run_bind, run_lookup_some h, run_check, Check.name, Verdict.require, nameValue]
  by_cases function : s.kind = .func
  · simp [function, Verdict.isAccepted]
  · by_cases spoiled : s.type = .error
    · simp [function, spoiled, Verdict.isAccepted]
    · by_cases array : s.kind = .array <;> simp [spoiled, array, function, Verdict.isAccepted]

theorem run_name_none {id : Ident} {g : Codegen} (h : g.scopes.resolve? id.name = none) :
    (name id).run g = .ok .reported (g.judged id.line (.rejected (.undefined id.name))) := by
  simp only [name, run_bind, run_lookup_none h, run_pure]

def base (g : Codegen) (s : Symbol) : Operand :=
  if s.isParam then s.location else g.temp

def based (g : Codegen) (s : Symbol) : Codegen :=
  if s.isParam then g else g.reserved.emitted { op := .addr, a1 := s.location, a3 := g.temp }

theorem run_arrayBase (s : Symbol) (g : Codegen) :
    (arrayBase s).run g = .ok (g.base s) (g.based s) := by
  unfold arrayBase base based
  split
  · rw [run_pure]
  · rw [run_bind, run_newTemp]
    simp only [run_bind, run_emit, run_pure]

theorem run_index_accepted {array : Ident} {x : Value} {g : Codegen} {s : Symbol}
    (h : g.scopes.resolve? array.name = some s) (accepted : Check.index s x = .accepted) :
    (index array x).run g =
      .ok { type := .int, operand := (g.based s).temp.deref, symbol := some s, assignable := true }
        ((g.based s).reserved.emitted
          { op := .elem, a1 := g.base s, a2 := x.operand, a3 := (g.based s).temp }) := by
  simp only [index, run_bind, run_lookup_some h, run_check, accepted, Verdict.isAccepted, decide_true,
    if_true, judged_accepted, run_arrayBase, run_newTemp, run_emit, run_pure]

theorem run_index_refused {array : Ident} {x : Value} {g : Codegen} {s : Symbol}
    (h : g.scopes.resolve? array.name = some s) (refused : Check.index s x ≠ .accepted) :
    (index array x).run g = .ok .reported (g.judged array.line (Check.index s x)) := by
  simp only [index, run_bind, run_lookup_some h, run_check, Verdict.isAccepted_eq_false refused,
    Bool.false_eq_true, if_false, run_pure]

theorem run_index_none {array : Ident} {x : Value} {g : Codegen} (h : g.scopes.resolve? array.name = none) :
    (index array x).run g = .ok .reported (g.judged array.line (.rejected (.undefined array.name))) := by
  simp only [index, run_bind, run_lookup_none h, run_pure]

theorem run_beginCall_function {id : Ident} {g : Codegen} {s : Symbol}
    (h : g.scopes.resolve? id.name = some s) (function : s.kind = .func) :
    (beginCall id).run g = .ok { callee := some s, line := id.line } g := by
  simp [beginCall, run_lookup_some h, run_check, Check.callee, Verdict.require, function,
    Verdict.isAccepted]

theorem run_beginCall_other {id : Ident} {g : Codegen} {s : Symbol}
    (h : g.scopes.resolve? id.name = some s) (other : s.kind ≠ .func) :
    (beginCall id).run g =
      .ok { callee := none, line := id.line } (g.judged id.line (.rejected (.notFunction s.name))) := by
  simp [beginCall, run_lookup_some h, run_check, Check.callee, Verdict.require, other,
    Verdict.isAccepted]

theorem run_beginCall_none {id : Ident} {g : Codegen} (h : g.scopes.resolve? id.name = none) :
    (beginCall id).run g =
      .ok { callee := none, line := id.line } (g.judged id.line (.rejected (.undefined id.name))) := by
  simp only [beginCall, run_bind, run_lookup_none h, run_pure]

def passed (g : Codegen) (x : Value) : Operand :=
  match x.type, x.symbol with
  | .array, some array => g.base array
  | _, _ => x.operand

def passing (g : Codegen) (x : Value) : Codegen :=
  match x.type, x.symbol with
  | .array, some array => g.based array
  | _, _ => g

theorem run_argument_unknown {c : Call} {x : Value} {g : Codegen} (h : c.callee = none) :
    (argument c x).run g = .ok { c with count := c.count + 1 } g := by
  simp only [argument, h, run_pure]

theorem run_argument {c : Call} {x : Value} {g : Codegen} {s : Symbol} (h : c.callee = some s) :
    (argument c x).run g =
      let g := g.judged c.line (Check.argument s c.count x)
      let next := { c with count := c.count + 1 }
      if s.params.length ≤ c.count then .ok next g
      else if s.builtin then .ok { next with printed := x.operand } g
      else .ok next ((g.passing x).emitted { op := .param, a1 := g.passed x }) := by
  simp only [argument, h, run_bind, run_check]
  split
  · rfl
  · split
    · rfl
    · unfold passed passing
      rcases x with ⟨type, operand, symbol, assignable⟩
      cases type <;> cases symbol <;> simp only [run_bind, run_arrayBase, run_emit, run_pure]

theorem run_endCall_unknown {c : Call} {g : Codegen} (h : c.callee = none) :
    (endCall c).run g = .ok .reported g := by
  simp only [endCall, h, run_pure]

def callInstruction (s : Symbol) (count : Nat) (result : Operand) : Instruction :=
  { op := .call, a1 := .label s.entry, a2 := .imm (.ofNat count), a3 := result }

theorem run_endCall {c : Call} {g : Codegen} {s : Symbol} (h : c.callee = some s) :
    (endCall c).run g =
      let g := g.judged c.line (Check.argumentCount s c.count)
      if s.builtin then
        .ok { type := .void, operand := .imm 0, symbol := some s }
          (if c.count = s.params.length then g.emitted { op := .print, a1 := c.printed } else g)
      else if s.type = .void then
        .ok { type := .void, operand := .imm 0, symbol := some s }
          (g.emitted (callInstruction s c.count .absent))
      else
        .ok { type := .int, operand := g.temp, symbol := some s }
          (g.reserved.emitted (callInstruction s c.count g.temp)) := by
  simp only [endCall, h, run_bind, run_check]
  split
  · split <;> rfl
  · split <;> rfl

def unaryInstruction (op : UnaryOp) (x result : Operand) : Instruction :=
  match op with
  | .neg => { op := .sub, a1 := .imm 0, a2 := x, a3 := result }
  | .not => { op := .eq, a1 := x, a2 := .imm 0, a3 := result }

theorem run_unary_accepted {op : UnaryOp} {line : Nat} {x : Value} {g : Codegen}
    (accepted : Check.operand x = .accepted) :
    (unary op line x).run g =
      .ok { type := .int, operand := g.temp } (g.reserved.emitted (unaryInstruction op x.operand g.temp)) := by
  simp only [unary, run_bind, run_check, accepted, Verdict.isAccepted, decide_true, if_true, judged_accepted,
    run_newTemp]
  cases op <;> rfl

theorem run_unary_refused {op : UnaryOp} {line : Nat} {x : Value} {g : Codegen}
    (refused : Check.operand x ≠ .accepted) :
    (unary op line x).run g = .ok .reported (g.judged line (Check.operand x)) := by
  simp only [unary, run_bind, run_check, Verdict.isAccepted_eq_false refused, Bool.false_eq_true, if_false,
    run_pure]

theorem run_binary_accepted {op : BinaryOp} {line : Nat} {x y : Value} {g : Codegen} {operation : Opcode}
    (known : op.opcode? = some operation) (accepted : Check.operands x y = .accepted) :
    (binary op line x y).run g =
      .ok { type := .int, operand := g.temp }
        (g.reserved.emitted { op := operation, a1 := x.operand, a2 := y.operand, a3 := g.temp }) := by
  simp only [binary, run_bind, run_check, accepted, Verdict.isAccepted, decide_true, if_true, judged_accepted,
    known, run_newTemp, run_emit, run_pure]

theorem run_binary_refused {op : BinaryOp} {line : Nat} {x y : Value} {g : Codegen}
    (refused : Check.operands x y ≠ .accepted) :
    (binary op line x y).run g = .ok .reported (g.judged line (Check.operands x y)) := by
  simp only [binary, run_bind, run_check, Verdict.isAccepted_eq_false refused, Bool.false_eq_true, if_false,
    run_pure]

def branched (g : Codegen) (conjunction : Bool) (x : Operand) : Codegen :=
  if conjunction then
    (g.reserved.emitted { op := .assign, a1 := .imm 0, a2 := g.temp }).emitted
      { op := .jpf, a1 := x, a2 := .unresolved }
  else
    ((g.reserved.reserved.emitted { op := .assign, a1 := .imm 1, a2 := g.temp }).emitted
      { op := .eq, a1 := x, a2 := .imm 0, a3 := g.reserved.temp }).emitted
      { op := .jpf, a1 := g.reserved.temp, a2 := .unresolved }

theorem run_beginLogical_accepted {conjunction : Bool} {line : Nat} {x : Value} {g : Codegen}
    (accepted : Check.operand x = .accepted) :
    (beginLogical conjunction line x).run g =
      .ok (some ⟨g.temp, (g.branched conjunction x.operand).code.size - 1⟩)
        (g.branched conjunction x.operand) := by
  simp only [beginLogical, run_bind, run_check, accepted, Verdict.isAccepted, decide_true, if_true,
    judged_accepted, run_newTemp, branched]
  cases conjunction
  · simp only [Bool.false_eq_true, if_false, run_bind, run_newTemp, run_emit, run_pure]
    simp only [emitted_code, Array.size_push, Nat.add_sub_cancel]
  · simp only [if_true, run_bind, run_emit, run_pure]
    simp only [emitted_code, Array.size_push, Nat.add_sub_cancel]

theorem run_beginLogical_refused {conjunction : Bool} {line : Nat} {x : Value} {g : Codegen}
    (refused : Check.operand x ≠ .accepted) :
    (beginLogical conjunction line x).run g = .ok none (g.judged line (Check.operand x)) := by
  simp only [beginLogical, run_bind, run_check, Verdict.isAccepted_eq_false refused, Bool.false_eq_true,
    if_false, run_pure]

theorem modify_eq_setIfInBounds {xs : Array Instruction} {index : Nat} {i : Instruction}
    (f : Instruction → Instruction) (found : xs[index]? = some i) :
    xs.modify index f = xs.setIfInBounds index (f i) := by
  apply Array.ext_getElem?
  intro k
  rw [Array.getElem?_modify, Array.getElem?_setIfInBounds]
  split
  · rename_i same
    subst same
    have bound := (Array.getElem?_eq_some_iff.mp found).1
    simp only [found, Option.map_some, bound, if_true]
  · rfl

theorem emitter_backpatch {e : Emitter} {jump : Nat} (target : Nat)
    (h : ∃ i, e.code[jump]? = some i ∧ i.op.target?.isSome) :
    (Emitter.backpatch jump target).run e = .ok () { e with code := e.code.modify jump (·.aimed target) } := by
  obtain ⟨i, found, hasTarget⟩ := h
  obtain ⟨position, known⟩ := Option.isSome_iff_exists.mp hasTarget
  have aimed : i.aimed target = i.setOperand position (.label target) := by
    simp only [Instruction.aimed, known]
  change (Emitter.backpatch (Int.ofNat jump) target).run e = _
  simp only [Emitter.backpatch, run_bind, run_get, found, known, run_set, modify_eq_setIfInBounds _ found,
    aimed]

theorem run_backpatch {g : Codegen} {jump : Nat} (target : Nat) (h : g.Jumps jump) :
    (liftM (Emitter.backpatch jump target) : GenM Unit).run g = .ok () (g.aimed jump target) := by
  have patch := emitter_backpatch target h
  change Emitter.backpatch jump target g.emitter = _ at patch
  change emitting (Emitter.backpatch jump target) g = _
  simp only [emitting, patch]
  rfl

theorem run_landHere {g : Codegen} {jump : Nat} (h : g.Jumps jump) :
    (landHere jump).run g = .ok () (g.landed jump) :=
  run_bind_ok (run_here g) (run_backpatch _ h)

theorem Jumps.emitted {g : Codegen} {jump : Nat} (h : g.Jumps jump) (i : Instruction) :
    (g.emitted i).Jumps jump := by
  obtain ⟨found, at_, target⟩ := h
  refine ⟨found, ?_, target⟩
  have bound := (Array.getElem?_eq_some_iff.mp at_).1
  rw [emitted_code, Array.getElem?_push_lt bound, ← at_, Array.getElem?_eq_getElem bound]

theorem Jumps.judged {g : Codegen} {jump : Nat} (h : g.Jumps jump) (line : Nat) (v : Verdict) :
    (g.judged line v).Jumps jump := by
  cases v <;> exact h

theorem run_endLogical_none {line : Nat} {y : Value} {g : Codegen} :
    (endLogical none line y).run g = .ok .reported (g.judged line (Check.operand y)) := by
  simp only [endLogical, run_bind, run_check, run_pure]

theorem run_endLogical_accepted {l : Logical} {line : Nat} {y : Value} {g : Codegen}
    (accepted : Check.operand y = .accepted) (jumps : g.Jumps l.jump) :
    (endLogical (some l) line y).run g =
      .ok { type := .int, operand := l.result }
        ((g.emitted { op := .ne, a1 := y.operand, a2 := .imm 0, a3 := l.result }).landed l.jump) := by
  have emitted := jumps.emitted { op := .ne, a1 := y.operand, a2 := .imm 0, a3 := l.result }
  simp only [endLogical, run_bind, run_check, accepted, Verdict.isAccepted, decide_true, if_true,
    judged_accepted, run_emit, run_here, run_backpatch _ emitted, run_pure, landed]

theorem run_endLogical_refused {l : Logical} {line : Nat} {y : Value} {g : Codegen}
    (refused : Check.operand y ≠ .accepted) (jumps : g.Jumps l.jump) :
    (endLogical (some l) line y).run g =
      .ok .reported ((g.judged line (Check.operand y)).landed l.jump) := by
  have judged := jumps.judged line (Check.operand y)
  simp only [endLogical, run_bind, run_check, Verdict.isAccepted_eq_false refused, Bool.false_eq_true,
    if_false, run_here, run_backpatch _ judged, run_pure, landed]

theorem run_assign_accepted {line : Nat} {x y : Value} {g : Codegen}
    (accepted : Check.assignment x y = .accepted) :
    (assign line x y).run g =
      .ok { type := .int, operand := x.operand }
        (g.emitted { op := .assign, a1 := y.operand, a2 := x.operand }) := by
  simp only [assign, run_bind, run_check, accepted, Verdict.isAccepted, decide_true, if_true, judged_accepted,
    run_emit, run_pure]

theorem run_assign_refused {line : Nat} {x y : Value} {g : Codegen}
    (refused : Check.assignment x y ≠ .accepted) :
    (assign line x y).run g = .ok .reported (g.judged line (Check.assignment x y)) := by
  simp only [assign, run_bind, run_check, Verdict.isAccepted_eq_false refused, Bool.false_eq_true, if_false,
    run_pure]

def tested (x : Value) : Operand :=
  if Check.operand x = .accepted then x.operand else .imm 0

theorem run_jumpUnless (line : Nat) (x : Value) (g : Codegen) :
    (jumpUnless line x).run g =
      .ok g.code.size ((g.judged line (Check.operand x)).emitted
        { op := .jpf, a1 := tested x, a2 := .unresolved }) := by
  have kept : (g.judged line (Check.operand x)).code.size = g.code.size := by
    unfold judged
    split <;> rfl
  by_cases accepted : Check.operand x = .accepted
  · simp only [jumpUnless, condition, run_bind, run_check, accepted, Verdict.isAccepted, decide_true,
      if_true, judged_accepted, run_pure, run_emit, tested]
  · simp only [jumpUnless, condition, run_bind, run_check, Verdict.isAccepted_eq_false accepted,
      Bool.false_eq_true, if_false, run_pure, run_emit, tested, accepted, kept]

theorem run_enterLoop (g : Codegen) :
    enterLoop.run g = .ok g.code.size { g with loops := { start := g.code.size } :: g.loops } := rfl

theorem Jumps.aimed {g : Codegen} {jump : Nat} (h : g.Jumps jump) (other target : Nat) :
    (g.aimed other target).Jumps jump := by
  obtain ⟨i, found, hasTarget⟩ := h
  by_cases same : other = jump
  · refine ⟨i.aimed target, ?_, by simpa using hasTarget⟩
    subst same
    simp [Array.getElem?_modify, found]
  · refine ⟨i, ?_, hasTarget⟩
    simp [Array.getElem?_modify, same, found]

def landedAll (g : Codegen) (jumps : List Nat) : Codegen :=
  jumps.foldl landed g

theorem run_forM_landHere {g : Codegen} {jumps : List Nat} (h : ∀ j ∈ jumps, g.Jumps j) :
    (jumps.forM landHere).run g = .ok () (g.landedAll jumps) := by
  induction jumps generalizing g with
  | nil => rfl
  | cons jump jumps ih =>
    have first := run_landHere (h jump (by simp))
    have rest : (jumps.forM landHere).run (g.landed jump) = .ok () ((g.landed jump).landedAll jumps) :=
      ih fun j member => (h j (by simp [member])).aimed jump g.code.size
    change EStateM.run (landHere jump >>= fun _ => jumps.forM landHere) g = _
    simp only [run_bind, first, rest]
    rfl

theorem run_exitLoop {g : Codegen} {l : Loop} {loops : List Loop} (h : g.loops = l :: loops)
    (jumps : ∀ j ∈ l.exits, g.Jumps j) :
    exitLoop.run g = .ok () { g.landedAll l.exits with loops := loops } := by
  simp only [exitLoop, run_bind, run_get, h, run_forM_landHere jumps, run_modify]

theorem run_leave_nil {g : Codegen} {line : Nat} (h : g.loops = []) :
    (leave line).run g = .ok () (g.judged line (.rejected (.noLoop "break"))) := by
  simp [leave, h, run_check, Check.loopJump, Verdict.require, Verdict.isAccepted]

theorem run_leave_cons {g : Codegen} {line : Nat} {l : Loop} {outer : List Loop} (h : g.loops = l :: outer) :
    (leave line).run g =
      .ok () { g.emitted { op := .jp, a1 := .unresolved } with
        loops := { l with exits := l.exits ++ [g.code.size] } :: outer } := by
  simp [leave, h, run_check, Check.loopJump, Verdict.require, Verdict.isAccepted, run_emit]

theorem run_again_nil {g : Codegen} {line : Nat} (h : g.loops = []) :
    (again line).run g = .ok () (g.judged line (.rejected (.noLoop "continue"))) := by
  simp [again, h, run_check, Check.loopJump, Verdict.require, Verdict.isAccepted]

theorem run_again_cons {g : Codegen} {line : Nat} {l : Loop} {outer : List Loop} (h : g.loops = l :: outer) :
    (again line).run g = .ok () (g.emitted { op := .jp, a1 := .label l.start }) := by
  simp only [again, run_bind, run_get, h, run_check, Check.loopJump, Verdict.require, List.isEmpty_cons,
    Bool.not_false, if_true, Verdict.isAccepted, decide_true, judged_accepted, run_emit, run_pure]

def resultVerdict (g : Codegen) (x : Option Value) : Verdict :=
  match g.function with
  | some function => Check.result function x
  | none => .accepted

def returned : Option Value → Operand
  | some { type := .int, operand, .. } => operand
  | _ => .absent

theorem run_ret (line : Nat) (x : Option Value) (g : Codegen) :
    (ret line x).run g =
      .ok () ((g.judged line (g.resultVerdict x)).emitted { op := .ret, a1 := returned x }) := by
  simp only [ret, run_bind, run_get, resultVerdict]
  cases g.function with
  | none =>
    simp only [judged_accepted]
    rcases x with _ | ⟨type, operand, symbol, assignable⟩
    · rfl
    · cases type <;> rfl
  | some function =>
    simp only [run_bind, run_check]
    rcases x with _ | ⟨type, operand, symbol, assignable⟩
    · rfl
    · cases type <;> rfl

theorem run_variableType (id : Ident) (type : TypeName) (g : Codegen) :
    (variableType id type).run g =
      .ok (if type = .int then .int else .error)
        (g.judged id.line (Check.variableType id.name type.ty)) := by
  cases type <;> rfl

def lengthOf : Option Numeral → Word
  | some n => if n.real = false ∧ 0 < n.value then n.value else 1
  | none => 1

def sizeVerdict (id : Ident) : Option Numeral → Verdict
  | some n => if n.real then .accepted else Check.arraySize id.name n.value
  | none => .accepted

theorem run_arrayLength (id : Ident) (size : Option Numeral) (g : Codegen) :
    (arrayLength id size).run g = .ok (lengthOf size) (g.judged id.line (sizeVerdict id size)) := by
  cases size with
  | none => rfl
  | some n =>
    by_cases real : n.real = true
    · simp [arrayLength, lengthOf, sizeVerdict, real]
    · by_cases positive : 0 < n.value
      · simp [arrayLength, lengthOf, sizeVerdict, real, Check.arraySize, Verdict.require, positive,
          Verdict.isAccepted, run_check]
      · simp [arrayLength, lengthOf, sizeVerdict, real, Check.arraySize, Verdict.require, positive,
          Verdict.isAccepted, run_check]

theorem run_declare (line : Nat) (s : Symbol) (g : Codegen) :
    (declare line s).run g =
      match g.scopes.declare s with
      | .ok scopes => .ok true { g with scopes := scopes }
      | .error earlier => .ok false (g.judged line (.rejected (.redeclared earlier.name))) := by
  simp only [declare, run_bind, run_get]
  cases g.scopes.declare s <;> rfl

theorem run_enterScope (g : Codegen) : enterScope.run g = .ok () { g with scopes := g.scopes.enter } := rfl

theorem run_exitScope {g : Codegen} {scopes : Scopes} (h : g.scopes.exit? = some scopes) :
    exitScope.run g = .ok () { g with scopes := scopes } := by
  simp only [exitScope, run_bind, run_get, h, run_set]

def allocated (g : Codegen) (s : Symbol) : Codegen :=
  { g with
    emitter := (if s.isParam then g.emitter.countParam else g.emitter).take s.name
      (if s.isParam then .param else .var) (Emitter.storageSize s) }

theorem run_allocate (s : Symbol) (g : Codegen) :
    (liftM (Emitter.allocate s) : GenM Operand).run g =
      .ok (if s.isParam then g.emitter.countParam else g.emitter).free (g.allocated s) := by
  change emitting (Emitter.allocate s) g = _
  have allocate : Emitter.allocate s g.emitter =
      .ok (if s.isParam then g.emitter.countParam else g.emitter).free (g.allocated s).emitter := by
    change EStateM.run (Emitter.allocate s) g.emitter = _
    unfold Emitter.allocate
    by_cases param : s.isParam = true <;>
      simp [param, allocated, Emitter.reserve, -bind_pure_comp]
  simp only [emitting, allocate]
  rfl

def varSymbol (d : VarDecl) (storage : Operand) : Symbol where
  name := d.id.name
  kind := match d.extent with | .scalar => .var | .array _ => .array
  type := if d.type = .int then .int else .error
  line := d.id.line
  length := match d.extent with | .scalar => 0 | .array size => lengthOf size
  storage := some storage

def extentVerdict (d : VarDecl) : Verdict :=
  match d.extent with
  | .scalar => .accepted
  | .array size => sizeVerdict d.id size

def examined (g : Codegen) (d : VarDecl) : Codegen :=
  (g.judged d.id.line (Check.variableType d.id.name d.type.ty)).judged d.id.line (extentVerdict d)

@[simp]
theorem judged_emitter (g : Codegen) (line : Nat) (v : Verdict) : (g.judged line v).emitter = g.emitter := by
  unfold judged
  split <;> rfl

@[simp]
theorem judged_scopes (g : Codegen) (line : Nat) (v : Verdict) : (g.judged line v).scopes = g.scopes := by
  unfold judged
  split <;> rfl

theorem run_varDecl (d : VarDecl) (g : Codegen) :
    (varDecl d).run g =
      match g.scopes.declare (varSymbol d g.temp) with
      | .ok scopes => .ok () ({ g.examined d with scopes := scopes }.allocated (varSymbol d g.temp))
      | .error earlier => .ok () ((g.examined d).judged d.id.line (.rejected (.redeclared earlier.name))) := by
  rcases d with ⟨type, id, extent⟩
  cases extent with
  | scalar =>
    simp only [varDecl, run_bind, run_variableType, run_pure, run_get, run_declare, judged_scopes, judged_emitter,
      examined, extentVerdict, judged_accepted, varSymbol]
    cases g.scopes.declare _ with
    | error earlier => rfl
    | ok scopes =>
      simp only [if_true, run_bind, run_allocate, run_pure]
      rfl
  | array size =>
    simp only [varDecl, run_bind, run_variableType, run_arrayLength, run_pure, run_get, run_declare,
      judged_scopes, judged_emitter, examined, extentVerdict, varSymbol]
    cases g.scopes.declare _ with
    | error earlier => rfl
    | ok scopes =>
      simp only [if_true, run_bind, run_allocate, run_pure]
      rfl

def paramSymbol (type : TypeName) (id : Ident) (isArray : Bool) (storage : Operand) : Symbol where
  name := id.name
  kind := if isArray then .array else .var
  type := if type = .int then .int else .error
  line := id.line
  isParam := true
  storage := some storage

theorem run_param_named (type : TypeName) (id : Ident) (isArray : Bool) (g : Codegen) :
    (param (.named type id isArray)).run g =
      let s := paramSymbol type id isArray g.temp
      let h := g.judged id.line (Check.variableType id.name type.ty)
      match g.scopes.declare s with
      | .ok scopes => .ok () ({ h with scopes := scopes }.allocated s)
      | .error earlier => .ok () ((h.judged id.line (.rejected (.redeclared earlier.name))).allocated s) := by
  simp only [param, parameter, run_bind, run_variableType, run_get, run_declare, judged_scopes, judged_emitter, paramSymbol]
  cases g.scopes.declare _ with
  | error earlier =>
    simp only [run_allocate, run_pure]
    rfl
  | ok scopes =>
    simp only [run_allocate, run_pure]
    rfl

def opened (g : Codegen) (name : Text) : Codegen :=
  { g with
    emitter := { g.emitter with
      code := g.code.push { op := .func, a1 := .imm 0, a2 := .imm 0 }
      functions := g.emitter.functions ++ g.emitter.current.toList
      current := some { name := name, entry := g.code.size } } }

theorem run_beginFunction (name : Text) (g : Codegen) :
    (liftM (Emitter.beginFunction name) : GenM Nat).run g = .ok g.code.size (g.opened name) := rfl

def withResult (g : Codegen) : Codegen :=
  { g with emitter := g.emitter.take "return" .ret wordSize }

theorem run_reserveResult {g : Codegen} {f : Function} (h : g.emitter.current = some f) :
    (liftM Emitter.reserveResult : GenM Unit).run g = .ok () g.withResult := by
  change emitting Emitter.reserveResult g = _
  have reserve : Emitter.reserveResult g.emitter = .ok () g.withResult.emitter := by
    change EStateM.run Emitter.reserveResult g.emitter = _
    simp [Emitter.reserveResult, Emitter.reserve, h, withResult, -bind_pure_comp]
  simp only [emitting, reserve]
  rfl

def closed (g : Codegen) (f : Function) : Codegen :=
  { g with
    emitter := { g.emitter with
      code := (g.code.push { op := .ret }).modify f.entry.toNat fun i =>
        { i with a1 := .imm f.frame.size, a2 := .imm f.frame.params }
      functions := g.emitter.functions ++ [{ f with stop := (g.code.size + 1 : Nat) }]
      current := none } }

theorem run_endFunction {g : Codegen} {f : Function} (h : g.emitter.current = some f) :
    (liftM Emitter.endFunction : GenM Unit).run g = .ok () (g.closed f) := by
  change emitting Emitter.endFunction g = _
  have finish : Emitter.endFunction g.emitter = .ok () (g.closed f).emitter := by
    change EStateM.run Emitter.endFunction g.emitter = _
    simp [Emitter.endFunction, Emitter.emit, h, closed, -bind_pure_comp]
  simp only [emitting, finish]
  rfl

def funSymbol (f : FunDecl) (entry : Nat) : Symbol where
  name := f.id.name
  kind := .func
  type := f.type.ty
  line := f.id.line
  params := paramTypes f.params.toList
  entry := entry

def entered (g : Codegen) (f : FunDecl) (s : Symbol) : Codegen :=
  { g.opened f.id.name with scopes := g.scopes.enter, function := some s }

def announced (g : Codegen) (f : FunDecl) (s : Symbol) : Codegen :=
  if f.id.name = mainName then (g.judged f.id.line (Check.mainSignature s)).aimed 0 s.entry else g

def concluded (g : Codegen) (f : Function) (scopes : Scopes) : Codegen :=
  { g.closed f with scopes := scopes, function := none }

theorem run_funDecl {f : FunDecl} {g g₁ g₂ g₃ g₄ : Codegen} {isNew : Bool} {fn fn' : Function} {scopes : Scopes}
    (declared : (declare f.id.line (funSymbol f g.code.size)).run g = .ok isNew g₁)
    (params : (f.params.toList.forM param).run (g₁.entered f (funSymbol f g.code.size)) = .ok () g₂)
    (current : g₂.emitter.current = some fn) (main : g₂.withResult.Jumps 0)
    (vars : (f.vars.forM varDecl).run (g₂.withResult.announced f (funSymbol f g.code.size)) = .ok () g₃)
    (body : (stmts f.body).run g₃ = .ok () g₄) (current' : g₄.emitter.current = some fn')
    (exit : g₄.scopes.exit? = some scopes) : (funDecl f).run g = .ok () (g₄.concluded fn' scopes) := by
  have ending : (do
      f.vars.forM varDecl
      stmts f.body
      liftM Emitter.endFunction
      exitScope
      modify fun g => { g with function := none } : GenM Unit).run
        (g₂.withResult.announced f (funSymbol f g.code.size)) = .ok () (g₄.concluded fn' scopes) :=
    run_bind_ok vars (run_bind_ok body (run_bind_ok (run_endFunction current') (run_bind_ok (run_exitScope exit) rfl)))
  refine run_bind_ok (run_here g) (run_bind_ok declared (run_bind_ok (run_beginFunction f.id.name g₁)
    (run_bind_ok rfl (run_bind_ok rfl (run_bind_ok params (run_bind_ok (run_reserveResult current) ?_))))))
  unfold announced at ending
  split
  · rename_i isMain
    rw [if_pos isMain] at ending
    exact run_bind_ok (run_check _ _ _) (run_bind_ok (run_backpatch _ (main.judged _ _)) ending)
  · rename_i other
    rw [if_neg other] at ending
    exact ending

def finished (g : Codegen) : Codegen :=
  { g.landed 1 with
    emitter := { (g.landed 1).emitter with globalSize := g.emitter.nextGlobal - dataBase } }

theorem run_finish {g : Codegen} (h : g.Jumps 1) :
    (liftM Emitter.finish : GenM Unit).run g = .ok () g.finished := by
  have here : Emitter.here.run g.emitter = .ok g.code.size g.emitter := rfl
  have patch : (Emitter.backpatch 1 g.code.size).run g.emitter = .ok () (g.landed 1).emitter :=
    emitter_backpatch g.code.size h
  have finish : Emitter.finish.run g.emitter = .ok () g.finished.emitter := by
    rw [Emitter.finish, run_bind, here]
    show (Emitter.backpatch 1 g.code.size >>= fun _ => modify _).run g.emitter = _
    rw [run_bind, patch]
    rfl
  change Emitter.finish g.emitter = _ at finish
  change emitting Emitter.finish g = _
  simp only [emitting, finish]
  rfl

end Codegen

end MiniC
