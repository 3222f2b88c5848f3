import MiniC.Codegen.Source
import MiniC.Proofs.Renaming.Basic

namespace MiniC

section Carries

variable {σ α β γ δ : Type}

def outcome (r : σ → σ) (f : α → β) : EStateM.Result Fault σ α → EStateM.Result Fault σ β
  | .ok a s => .ok (f a) (r s)
  | .error fault s => .error fault (r s)

/-- Two actions of which the second does to a state under `r` what the first does to the state. -/
def Carries (r : σ → σ) (f : α → β) (x : EStateM Fault σ α) (y : EStateM Fault σ β) : Prop :=
  ∀ s, y.run (r s) = outcome r f (x.run s)

variable {r : σ → σ} {f : α → β} {h : γ → δ}

theorem Carries.bind {x : EStateM Fault σ α} {y : EStateM Fault σ β} {k : α → EStateM Fault σ γ}
    {l : β → EStateM Fault σ δ} (first : Carries r f x y) (second : ∀ a, Carries r h (k a) (l (f a))) :
    Carries r h (x >>= k) (y >>= l) := by
  intro s
  rw [EStateM.run_bind, EStateM.run_bind, first s]
  cases x.run s with
  | ok a s' => exact second a s'
  | error fault s' => rfl

theorem Carries.pure {a : α} {b : β} (same : b = f a) : Carries r f (pure a : EStateM Fault σ α) (pure b) := by
  subst same
  exact fun _ => rfl

theorem Carries.throw (fault : Fault) : Carries r f (throw fault : EStateM Fault σ α) (throw fault) :=
  fun _ => rfl

theorem Carries.get : Carries r r (get : EStateM Fault σ σ) get :=
  fun _ => rfl

theorem Carries.set {s s' : σ} (same : s' = r s) : Carries r id (set s : EStateM Fault σ PUnit) (set s') := by
  subst same
  exact fun _ => rfl

theorem Carries.modify {u v : σ → σ} (same : ∀ s, v (r s) = r (u s)) :
    Carries r id (modify u : EStateM Fault σ PUnit) (modify v) := by
  intro s
  simp only [EStateM.run_modify, outcome, same, id]

theorem Carries.ite {c : Prop} [Decidable c] {x x' : EStateM Fault σ α} {y y' : EStateM Fault σ β}
    (yes : c → Carries r f x y) (no : ¬ c → Carries r f x' y') :
    Carries r f (if c then x else x') (if c then y else y') := by
  split
  · next holds => exact yes holds
  · next fails => exact no fails

theorem Carries.forM {f : α → β} {x : α → EStateM Fault σ PUnit} {y : β → EStateM Fault σ PUnit}
    (each : ∀ a, Carries r id (x a) (y (f a))) (as : List α) : Carries r id (as.forM x) ((as.map f).forM y) := by
  induction as with
  | nil => exact .pure rfl
  | cons a rest ih => exact (each a).bind fun _ => ih

end Carries

variable (ρ : Text → Text)

def Symbol.rename (s : Symbol) : Symbol :=
  { s with name := ρ s.name }

def Value.rename (x : Value) : Value :=
  { x with symbol := x.symbol.map (Symbol.rename ρ) }

def Scope.rename (s : Scope) : Scope where
  id := s.id
  symbols := s.symbols.map (Symbol.rename ρ)
  byName := s.byName.map fun entry => (ρ entry.1, entry.2.rename ρ)
  named := by
    rw [s.named, List.map_map, List.map_map]
    rfl

def Scopes.rename (t : Scopes) : Scopes where
  current := t.current.rename ρ
  outer := t.outer.map (Scope.rename ρ)
  nextId := t.nextId
  depth := t.depth
  all := t.all.map (Symbol.rename ρ)
  nested := by rw [t.nested, List.length_map]

def SemanticError.rename : SemanticError → SemanticError
  | undefined name => undefined (ρ name)
  | redeclared name => redeclared (ρ name)
  | voidVariable name => voidVariable (ρ name)
  | arraySize name => arraySize (ρ name)
  | voidValue callee => voidValue (ρ callee)
  | notArray name => notArray (ρ name)
  | indexType array got => indexType (ρ array) got
  | notCalled name => notCalled (ρ name)
  | notFunction name => notFunction (ρ name)
  | argumentType position callee want got => argumentType position (ρ callee) want got
  | argumentCount callee => argumentCount (ρ callee)
  | valueReturned function => valueReturned (ρ function)
  | noValueReturned function => noValueReturned (ρ function)
  | returnType function got => returnType (ρ function) got
  | e => e

def Verdict.rename : Verdict → Verdict
  | rejected error => rejected (error.rename ρ)
  | v => v

/-- The name of a slot under other names. Slots for results and temporaries have names of their own. -/
def SlotKind.rename : SlotKind → Text → Text
  | param | var => ρ
  | ret | temp => id

def Slot.rename (s : Slot) : Slot :=
  { s with name := s.kind.rename ρ s.name }

def Frame.rename (f : Frame) : Frame :=
  { f with slots := f.slots.map (Slot.rename ρ) }

def Function.rename (f : Function) : Function :=
  { f with name := ρ f.name, frame := f.frame.rename ρ }

def Emitter.rename (e : Emitter) : Emitter :=
  { e with functions := e.functions.map (Function.rename ρ), current := e.current.map (Function.rename ρ) }

def Codegen.rename (g : Codegen) : Codegen :=
  { g with
    scopes := g.scopes.rename ρ
    emitter := g.emitter.rename ρ
    errors := g.errors.map fun e => { e with cause := e.cause.rename ρ }
    function := g.function.map (Symbol.rename ρ) }

def Codegen.Call.rename (c : Call) : Call :=
  { c with callee := c.callee.map (Symbol.rename ρ) }

variable {ρ}

namespace Emitter

theorem free_rename (e : Emitter) : (e.rename ρ).free = e.free := by
  unfold free rename
  cases e.current <;> rfl

theorem take_rename (e : Emitter) (name : Text) (kind : SlotKind) (size : Word) :
    (e.rename ρ).take (kind.rename ρ name) kind size = (e.take name kind size).rename ρ := by
  unfold take
  cases current : e.current with
  | none => simp [rename, current]
  | some f => simp [rename, current, Function.rename, Frame.rename, Frame.push, Slot.rename]

theorem countParam_rename (e : Emitter) : (e.rename ρ).countParam = e.countParam.rename ρ := by
  unfold countParam rename
  cases e.current <;> rfl

theorem carries_emit (i : Instruction) : Carries (rename ρ) id (emit i) (emit i) :=
  Carries.get.bind fun _ => (Carries.set rfl).bind fun _ => .pure rfl

theorem carries_here : Carries (rename ρ) id here here :=
  Carries.get.bind fun _ => .pure rfl

theorem carries_backpatch (index target : Int) :
    Carries (rename ρ) id (backpatch index target) (backpatch index target) := by
  refine Carries.get.bind fun e => ?_
  cases index with
  | negSucc i => exact .throw _
  | ofNat i =>
    have code : (e.rename ρ).code = e.code := rfl
    simp only [code]
    cases e.code[i]? with
    | none => exact .throw _
    | some instruction =>
      simp only
      cases instruction.op.target? with
      | none => exact .throw _
      | some position => exact .set rfl

theorem carries_reserve (name : Text) (kind : SlotKind) (size : Word) :
    Carries (rename ρ) id (reserve name kind size) (reserve (kind.rename ρ name) kind size) :=
  Carries.get.bind fun e => (Carries.set (take_rename e name kind size)).bind fun _ => .pure (free_rename e)

theorem carries_newTemp : Carries (rename ρ) id newTemp newTemp := by
  unfold newTemp
  refine Carries.bind (f := id) (.modify fun _ => rfl) fun _ => Carries.get.bind fun e => ?_
  exact carries_reserve ("t" ++ Decimal.ofNat e.temps) .temp wordSize

theorem carries_allocate (s : Symbol) : Carries (rename ρ) id (allocate s) (allocate (s.rename ρ)) := by
  unfold allocate
  have isParam : (s.rename ρ).isParam = s.isParam := rfl
  rw [isParam]
  cases s.isParam with
  | false => exact carries_reserve s.name .var (storageSize s)
  | true =>
    exact Carries.bind (f := id) (.modify countParam_rename) fun _ => carries_reserve s.name .param (storageSize s)

theorem carries_beginFunction (name : Text) :
    Carries (rename ρ) id (beginFunction name) (beginFunction (ρ name)) := by
  unfold beginFunction
  refine (carries_emit _).bind fun entry => Carries.bind (f := id) (.modify fun e => ?_) fun _ => .pure rfl
  simp [rename, Function.rename, Frame.rename, Option.toList_map]

theorem carries_reserveResult : Carries (rename ρ) id reserveResult reserveResult := by
  unfold reserveResult
  refine Carries.get.bind fun e => ?_
  have inside : (e.rename ρ).current.isNone = e.current.isNone := Option.isNone_map
  rw [inside]
  have reserves : Carries (rename ρ) id (do let _ ← reserve "return" .ret wordSize)
      (do let _ ← reserve "return" .ret wordSize) :=
    (carries_reserve "return" .ret wordSize).bind fun _ => .pure rfl
  exact .ite (fun _ => Carries.bind (f := id) (.throw _) fun _ => reserves) fun _ => reserves

theorem carries_endFunction : Carries (rename ρ) id endFunction endFunction := by
  unfold endFunction
  refine (carries_emit _).bind fun _ => Carries.get.bind fun e => ?_
  have current : (e.rename ρ).current = e.current.map (Function.rename ρ) := rfl
  rw [current]
  cases e.current with
  | none => exact .throw _
  | some f =>
    refine .set ?_
    simp [rename, Function.rename, Frame.rename]

theorem carries_setMain (entry : Int) : Carries (rename ρ) id (setMain entry) (setMain entry) :=
  carries_backpatch 0 entry

theorem carries_finish : Carries (rename ρ) id finish finish := by
  unfold finish
  exact carries_here.bind fun _ => (carries_backpatch _ _).bind fun _ => .modify fun _ => rfl

end Emitter

section Lookup

variable (injective : Function.Injective ρ)

include injective

theorem Scope.find?_rename (s : Scope) (name : Text) :
    (s.rename ρ).find? (ρ name) = (s.find? name).map (Symbol.rename ρ) := by
  have same : (fun s : Symbol => decide (s.name = ρ name)) ∘ Symbol.rename ρ = fun s => decide (s.name = name) := by
    funext s
    simp [Symbol.rename, injective.eq_iff]
  rw [find?_eq, rename, List.find?_map, same, find?_eq]

theorem Scopes.resolve?_rename (t : Scopes) (name : Text) :
    (t.rename ρ).resolve? (ρ name) = (t.resolve? name).map (Symbol.rename ρ) := by
  have scopes : (t.rename ρ).current :: (t.rename ρ).outer = (t.current :: t.outer).map (Scope.rename ρ) := rfl
  rw [resolve?, scopes, resolve?]
  induction t.current :: t.outer with
  | nil => rfl
  | cons s rest ih =>
    rw [List.map_cons, List.findSome?_cons, List.findSome?_cons, Scope.find?_rename injective, ih]
    cases s.find? name <;> rfl

end Lookup

theorem Scopes.add_rename (t : Scopes) (s : Symbol) : (t.rename ρ).add (s.rename ρ) = (t.add s).rename ρ := by
  simp [add, rename, Scope.rename, Scope.insert, Symbol.rename]

namespace Verdict

theorem isAccepted_rename (v : Verdict) : (v.rename ρ).isAccepted = v.isAccepted := by
  cases v <;> rfl

theorem error?_rename (v : Verdict) : (v.rename ρ).error? = v.error?.map (SemanticError.rename ρ) := by
  cases v <;> rfl

theorem require_rename (holds : Bool) (e : SemanticError) : (require holds e).rename ρ = require holds (e.rename ρ) := by
  cases holds <;> rfl

end Verdict

namespace Check

theorem declared_rename (name : Text) (s : Option Symbol) :
    declared (ρ name) (s.map (Symbol.rename ρ)) = (declared name s).rename ρ := by
  rw [declared, declared, Verdict.require_rename, Option.isSome_map]
  rfl

theorem variableType_rename (name : Text) (type : Ty) : variableType (ρ name) type = (variableType name type).rename ρ := by
  rw [variableType, variableType, Verdict.require_rename]
  rfl

theorem arraySize_rename (name : Text) (n : Word) : arraySize (ρ name) n = (arraySize name n).rename ρ := by
  rw [arraySize, arraySize, Verdict.require_rename]
  rfl

theorem voidCallee?_rename (x : Value) : voidCallee? (x.rename ρ) = (voidCallee? x).map (Symbol.rename ρ) := by
  rcases x with ⟨type, operand, _ | s, assignable⟩
  · by_cases void : type = .void <;> simp [voidCallee?, Value.rename, void]
  · by_cases void : type = .void <;> by_cases function : s.kind = .func <;>
      simp [voidCallee?, Value.rename, Symbol.rename, void, function, Option.filter]

theorem integer_rename (mismatch mismatch' : Ty → SemanticError) (same : ∀ got, mismatch' got = (mismatch got).rename ρ)
    (x : Value) : integer (x.rename ρ) mismatch' = (integer x mismatch).rename ρ := by
  unfold integer
  have type : (x.rename ρ).type = x.type := rfl
  rw [voidCallee?_rename, type]
  cases x.type with
  | int | error => rfl
  | void | array | real =>
    cases voidCallee? x with
    | none => simp [same, Verdict.rename]
    | some s => rfl

theorem operand_rename (x : Value) : operand (x.rename ρ) = (operand x).rename ρ :=
  integer_rename .operandType .operandType (fun _ => rfl) x

theorem operands_rename (x y : Value) : operands (x.rename ρ) (y.rename ρ) = (operands x y).rename ρ := by
  rw [operands, operands, operand_rename]
  cases operand x with
  | accepted => exact operand_rename y
  | _ => rfl

theorem assignment_rename (target x : Value) :
    assignment (target.rename ρ) (x.rename ρ) = (assignment target x).rename ρ := by
  unfold assignment
  rw [integer_rename .assignedType .assignedType fun _ => rfl]
  change (if target.type = .error then _ else if target.assignable = true then _ else _) = _
  split
  · rfl
  · split <;> rfl

theorem index_rename (array : Symbol) (x : Value) : index (array.rename ρ) (x.rename ρ) = (index array x).rename ρ := by
  rcases x with ⟨type, operand, symbol, assignable⟩
  by_cases isArray : array.kind = .array <;> cases type <;>
    simp [index, Symbol.rename, Value.rename, isArray, Verdict.rename, SemanticError.rename]

theorem name_rename (s : Symbol) : name (s.rename ρ) = (name s).rename ρ := by
  rw [name, name, Verdict.require_rename]
  rfl

theorem callee_rename (s : Symbol) : callee (s.rename ρ) = (callee s).rename ρ := by
  rw [callee, callee, Verdict.require_rename]
  rfl

theorem argument_rename (s : Symbol) (position : Nat) (x : Value) :
    argument (s.rename ρ) position (x.rename ρ) = (argument s position x).rename ρ := by
  unfold argument
  have params : (s.rename ρ).params = s.params := rfl
  have type : (x.rename ρ).type = x.type := rfl
  rw [params, type]
  cases s.params[position]? with
  | none => rfl
  | some want =>
    by_cases spoiled : x.type = .error
    · simp [spoiled, Verdict.rename]
    · simp only [spoiled, if_false, Verdict.require_rename]
      rfl

theorem argumentCount_rename (s : Symbol) (count : Int) :
    argumentCount (s.rename ρ) count = (argumentCount s count).rename ρ := by
  rw [argumentCount, argumentCount, Verdict.require_rename]
  rfl

theorem result_rename (s : Symbol) (x : Option Value) :
    result (s.rename ρ) (x.map (Value.rename ρ)) = (result s x).rename ρ := by
  unfold result
  have type : (s.rename ρ).type = s.type := rfl
  rw [type]
  split
  · rw [Verdict.require_rename, Option.isNone_map]
    rfl
  · cases x with
    | none => rfl
    | some x => exact integer_rename (.returnType s.name) (.returnType (ρ s.name)) (fun _ => rfl) x

end Check

namespace Codegen

theorem carries_lift {α β : Type} {f : α → β} {x : EmitM α} {y : EmitM β} (h : Carries (Emitter.rename ρ) f x y) :
    Carries (rename ρ) f (liftM x : GenM α) (liftM y) := by
  intro g
  have emits : y (g.rename ρ).emitter = outcome (Emitter.rename ρ) f (x g.emitter) := h g.emitter
  change emitting y (g.rename ρ) = outcome _ f (emitting x g)
  unfold emitting
  rw [emits]
  cases x g.emitter <;> rfl

theorem carries_emit (i : Instruction) :
    Carries (rename ρ) id (liftM (Emitter.emit i) : GenM Nat) (liftM (Emitter.emit i)) :=
  carries_lift (Emitter.carries_emit i)

theorem carries_newTemp : Carries (rename ρ) id (liftM Emitter.newTemp : GenM Operand) (liftM Emitter.newTemp) :=
  carries_lift Emitter.carries_newTemp

theorem carries_report (line : Nat) (e : SemanticError) :
    Carries (rename ρ) id (report line e) (report line (e.rename ρ)) := by
  refine .modify fun g => ?_
  simp [rename]

theorem carries_check (line : Nat) {v v' : Verdict} (same : v' = v.rename ρ) :
    Carries (rename ρ) id (check line v) (check line v') := by
  subst same
  unfold check
  rw [Verdict.error?_rename, Verdict.isAccepted_rename]
  cases v.error? with
  | none => exact .pure rfl
  | some e => exact (carries_report line e).bind fun _ => .pure rfl

theorem carries_arrayBase (s : Symbol) : Carries (rename ρ) id (arrayBase s) (arrayBase (s.rename ρ)) := by
  refine .ite (fun _ => .pure rfl) fun _ => ?_
  exact carries_newTemp.bind fun base => (carries_emit _).bind fun _ => .pure rfl

theorem carries_argument (c : Call) (x : Value) :
    Carries (rename ρ) (Call.rename ρ) (argument c x) (argument (c.rename ρ) (x.rename ρ)) := by
  rcases c with ⟨_ | s, line, count, printed⟩
  · exact .pure rfl
  · refine (carries_check line (Check.argument_rename s count x)).bind fun accepted => ?_
    refine .ite (fun _ => .pure rfl) fun _ => .ite (fun _ => .pure rfl) fun _ => ?_
    have pass : ∀ o, Carries (rename ρ) (Call.rename ρ)
        (do let _ ← Emitter.emit { op := .param, a1 := o }; return ⟨some s, line, count + 1, printed⟩)
        (do let _ ← Emitter.emit { op := .param, a1 := o }; return ⟨some (s.rename ρ), line, count + 1, printed⟩) :=
      fun o => (carries_emit _).bind fun _ => .pure rfl
    rcases x with ⟨type, operand, _ | array, assignable⟩
    · cases type <;> exact pass operand
    · cases type with
      | array => exact (carries_arrayBase array).bind pass
      | _ => exact pass operand

theorem carries_endCall (c : Call) : Carries (rename ρ) (Value.rename ρ) (endCall c) (endCall (c.rename ρ)) := by
  rcases c with ⟨_ | s, line, count, printed⟩
  · exact .pure rfl
  · refine (carries_check line (Check.argumentCount_rename s count)).bind fun accepted => ?_
    refine .ite (fun _ => ?_) fun _ => .ite (fun _ => ?_) fun _ => ?_
    · exact .ite (fun _ => (carries_emit _).bind fun _ => .pure rfl) fun _ => .pure rfl
    · exact (carries_emit _).bind fun _ => .pure rfl
    · exact carries_newTemp.bind fun result => (carries_emit _).bind fun _ => .pure rfl

theorem carries_unary (op : UnaryOp) (line : Nat) (x : Value) :
    Carries (rename ρ) (Value.rename ρ) (unary op line x) (unary op line (x.rename ρ)) := by
  refine (carries_check line (Check.operand_rename x)).bind fun accepted => ?_
  refine .ite (fun _ => carries_newTemp.bind fun result => ?_) fun _ => .pure rfl
  cases op <;> exact (carries_emit _).bind fun _ => .pure rfl

theorem carries_binary (op : BinaryOp) (line : Nat) (x y : Value) :
    Carries (rename ρ) (Value.rename ρ) (binary op line x y) (binary op line (x.rename ρ) (y.rename ρ)) := by
  refine (carries_check line (Check.operands_rename x y)).bind fun accepted => ?_
  refine .ite (fun _ => ?_) fun _ => .pure rfl
  cases op.opcode? with
  | none => exact .throw _
  | some code => exact carries_newTemp.bind fun result => (carries_emit _).bind fun _ => .pure rfl

theorem carries_beginLogical (conjunction : Bool) (line : Nat) (x : Value) :
    Carries (rename ρ) id (beginLogical conjunction line x) (beginLogical conjunction line (x.rename ρ)) := by
  refine (carries_check line (Check.operand_rename x)).bind fun accepted => ?_
  refine .ite (fun _ => carries_newTemp.bind fun result => .ite (fun _ => ?_) fun _ => ?_) fun _ => .pure rfl
  · exact (carries_emit _).bind fun _ => (carries_emit _).bind fun _ => .pure rfl
  · exact carries_newTemp.bind fun zero => (carries_emit _).bind fun _ => (carries_emit _).bind fun _ =>
      (carries_emit _).bind fun _ => .pure rfl

theorem carries_landHere (jump : Nat) : Carries (rename ρ) id (landHere jump) (landHere jump) :=
  (carries_lift Emitter.carries_here).bind fun _ => carries_lift (Emitter.carries_backpatch _ _)

theorem carries_endLogical (l : Option Logical) (line : Nat) (x : Value) :
    Carries (rename ρ) (Value.rename ρ) (endLogical l line x) (endLogical l line (x.rename ρ)) := by
  refine (carries_check line (Check.operand_rename x)).bind fun accepted => ?_
  cases l with
  | none => exact .pure rfl
  | some l =>
    have lands : ∀ accepted : Bool, Carries (rename ρ) (Value.rename ρ)
        (do
          Emitter.backpatch l.jump (← Emitter.here)
          return if accepted then { type := .int, operand := l.result } else .reported)
        (do
          Emitter.backpatch l.jump (← Emitter.here)
          return if accepted then { type := .int, operand := l.result } else .reported) := by
      intro accepted
      refine (carries_lift Emitter.carries_here).bind fun _ => (carries_lift (Emitter.carries_backpatch _ _)).bind fun _ =>
        .pure ?_
      cases accepted <;> rfl
    exact .ite (fun _ => (carries_emit _).bind fun _ => lands _) fun _ => lands _

theorem carries_assign (line : Nat) (target x : Value) :
    Carries (rename ρ) (Value.rename ρ) (assign line target x) (assign line (target.rename ρ) (x.rename ρ)) := by
  refine (carries_check line (Check.assignment_rename target x)).bind fun accepted => ?_
  exact .ite (fun _ => (carries_emit _).bind fun _ => .pure rfl) fun _ => .pure rfl

theorem carries_arguments {args : List Expr}
    (each : ∀ e ∈ args, Carries (rename ρ) (Value.rename ρ) (expr e) (expr (e.rename ρ))) (c : Call) :
    Carries (rename ρ) (Call.rename ρ) (arguments c args) (arguments (c.rename ρ) (Expr.renameAll ρ args)) := by
  induction args generalizing c with
  | nil =>
    rw [Expr.renameAll, arguments, arguments]
    exact .pure rfl
  | cons e rest ih =>
    rw [Expr.renameAll, arguments, arguments]
    exact (each e (by simp)).bind fun x => (carries_argument c x).bind fun c =>
      ih (fun e member => each e (by simp [member])) c

theorem carries_jumpUnless (line : Nat) (x : Value) :
    Carries (rename ρ) id (jumpUnless line x) (jumpUnless line (x.rename ρ)) := by
  have condition : Carries (rename ρ) id (condition line x) (condition line (x.rename ρ)) := by
    refine (carries_check line (Check.operand_rename x)).bind fun accepted => ?_
    exact .ite (fun _ => .pure rfl) fun _ => .pure rfl
  exact condition.bind fun o => carries_emit _

theorem carries_enterLoop : Carries (rename ρ) id enterLoop enterLoop := by
  unfold enterLoop
  exact (carries_lift Emitter.carries_here).bind fun start => Carries.bind (f := id)
    (.modify fun _ => rfl) fun _ => .pure rfl

theorem carries_exitLoop : Carries (rename ρ) id exitLoop exitLoop := by
  unfold exitLoop
  refine Carries.get.bind fun g => ?_
  have loops : (g.rename ρ).loops = g.loops := rfl
  rw [loops]
  cases g.loops with
  | nil => exact .throw _
  | cons l outer =>
    have lands := Carries.forM (r := rename ρ) (f := id) carries_landHere l.exits
    rw [List.map_id] at lands
    exact lands.bind fun _ => .modify fun _ => rfl

theorem carries_leave (line : Nat) : Carries (rename ρ) id (leave line) (leave line) := by
  unfold leave
  refine Carries.get.bind fun g => ?_
  have loops : (g.rename ρ).loops = g.loops := rfl
  have verdict : ∀ inLoop, Check.loopJump "break" inLoop = (Check.loopJump "break" inLoop).rename ρ := by
    rintro (_ | _) <;> rfl
  rw [loops]
  refine (carries_check line (verdict _)).bind fun accepted => .ite (fun _ => ?_) fun _ => .pure rfl
  cases g.loops with
  | nil => exact .throw _
  | cons l outer => exact (carries_emit _).bind fun jump => .modify fun _ => rfl

theorem carries_again (line : Nat) : Carries (rename ρ) id (again line) (again line) := by
  unfold again
  refine Carries.get.bind fun g => ?_
  have loops : (g.rename ρ).loops = g.loops := rfl
  have verdict : ∀ inLoop, Check.loopJump "continue" inLoop = (Check.loopJump "continue" inLoop).rename ρ := by
    rintro (_ | _) <;> rfl
  rw [loops]
  refine (carries_check line (verdict _)).bind fun accepted => .ite (fun _ => ?_) fun _ => .pure rfl
  cases g.loops with
  | nil => exact .throw _
  | cons l outer => exact (carries_emit _).bind fun _ => .pure rfl

theorem carries_ret (line : Nat) (x : Option Value) :
    Carries (rename ρ) id (ret line x) (ret line (x.map (Value.rename ρ))) := by
  have emits : ∀ o, Carries (rename ρ) id (do let _ ← Emitter.emit { op := .ret, a1 := o } : GenM Unit)
      (do let _ ← Emitter.emit { op := .ret, a1 := o }) :=
    fun o => (carries_emit _).bind fun _ => .pure rfl
  unfold ret
  refine Carries.get.bind fun g => ?_
  have function : (g.rename ρ).function = g.function.map (Symbol.rename ρ) := rfl
  rw [function]
  cases g.function with
  | none =>
    rcases x with _ | ⟨type, operand, symbol, assignable⟩
    · exact emits .absent
    · cases type <;> exact emits _
  | some s =>
    refine (carries_check line (Check.result_rename s x)).bind fun _ => ?_
    rcases x with _ | ⟨type, operand, symbol, assignable⟩
    · exact emits .absent
    · cases type <;> exact emits _

theorem carries_enterScope : Carries (rename ρ) id enterScope enterScope :=
  .modify fun _ => rfl

theorem carries_exitScope : Carries (rename ρ) id exitScope exitScope := by
  unfold exitScope
  refine Carries.get.bind fun g => ?_
  have exits : (g.rename ρ).scopes.exit? = g.scopes.exit?.map (Scopes.rename ρ) := by
    cases outer : g.scopes.outer with
    | nil =>
      rw [Scopes.exit?_of_nil outer, Scopes.exit?_of_nil (by simp [rename, Scopes.rename, outer])]
      rfl
    | cons scope rest =>
      have renamed : (g.rename ρ).scopes.outer = scope.rename ρ :: rest.map (Scope.rename ρ) := by
        simp [rename, Scopes.rename, outer]
      rw [Scopes.exit?_of_cons outer, Scopes.exit?_of_cons renamed]
      simp [rename, Scopes.rename]
  rw [exits]
  cases g.scopes.exit? with
  | none => exact .throw _
  | some scopes => exact .set rfl

theorem carries_variableType (id : Ident) (type : TypeName) :
    Carries (rename ρ) (fun t => t) (variableType id type) (variableType (id.rename ρ) type) := by
  refine (carries_check id.line (Check.variableType_rename id.name type.ty)).bind fun accepted => ?_
  exact .ite (fun _ => .pure rfl) fun _ => .pure rfl

theorem carries_arrayLength (id : Ident) (size : Option Numeral) :
    Carries (rename ρ) (fun n => n) (arrayLength id size) (arrayLength (id.rename ρ) size) := by
  cases size with
  | none => exact .pure rfl
  | some n =>
    refine .ite (fun _ => .pure rfl) fun _ => ?_
    refine (carries_check id.line (Check.arraySize_rename id.name n.value)).bind fun accepted => ?_
    exact .ite (fun _ => .pure rfl) fun _ => .pure rfl

theorem carries_stmts {body : List Stmt} (each : ∀ s ∈ body, Carries (rename ρ) id (stmt s) (stmt (s.rename ρ))) :
    Carries (rename ρ) id (stmts body) (stmts (Stmt.renameAll ρ body)) := by
  induction body with
  | nil =>
    rw [Stmt.renameAll, stmts]
    exact .pure rfl
  | cons s rest ih =>
    rw [Stmt.renameAll, stmts, stmts]
    exact (each s (by simp)).bind fun _ => ih fun s member => each s (by simp [member])

section Names

variable (injective : Function.Injective ρ)

include injective

theorem carries_resolve? (name : Text) :
    Carries (rename ρ) (Option.map (Symbol.rename ρ)) (resolve? name) (resolve? (ρ name)) :=
  Carries.get.bind fun g => .pure (Scopes.resolve?_rename injective g.scopes name)

theorem carries_lookup (id : Ident) :
    Carries (rename ρ) (Option.map (Symbol.rename ρ)) (lookup id) (lookup (id.rename ρ)) :=
  (carries_resolve? injective id.name).bind fun s =>
    (carries_check id.line (Check.declared_rename id.name s)).bind fun _ => .pure rfl

theorem carries_name (id : Ident) : Carries (rename ρ) (Value.rename ρ) (name id) (name (id.rename ρ)) := by
  refine (carries_lookup injective id).bind fun s => ?_
  cases s with
  | none => exact .pure rfl
  | some s =>
    refine (carries_check id.line (Check.name_rename s)).bind fun accepted => ?_
    refine .ite (fun _ => ?_) fun _ => .pure rfl
    exact .ite (fun _ => .pure rfl) fun _ => .ite (fun _ => .pure rfl) fun _ => .pure rfl

theorem carries_index (array : Ident) (x : Value) :
    Carries (rename ρ) (Value.rename ρ) (index array x) (index (array.rename ρ) (x.rename ρ)) := by
  refine (carries_lookup injective array).bind fun s => ?_
  cases s with
  | none => exact .pure rfl
  | some s =>
    refine (carries_check array.line (Check.index_rename s x)).bind fun accepted => ?_
    refine .ite (fun _ => ?_) fun _ => .pure rfl
    exact (carries_arrayBase s).bind fun base => carries_newTemp.bind fun address => (carries_emit _).bind fun _ => .pure rfl

theorem carries_beginCall (id : Ident) : Carries (rename ρ) (Call.rename ρ) (beginCall id) (beginCall (id.rename ρ)) := by
  refine (carries_lookup injective id).bind fun s => ?_
  cases s with
  | none => exact .pure rfl
  | some s =>
    refine (carries_check id.line (Check.callee_rename s)).bind fun accepted => ?_
    exact .ite (fun _ => .pure rfl) fun _ => .pure rfl

theorem carries_expr (e : Expr) : Carries (rename ρ) (Value.rename ρ) (expr e) (expr (e.rename ρ)) := by
  induction e using Expr.induction with
  | missing =>
    rw [Expr.rename, expr]
    exact .pure rfl
  | number n =>
    rw [Expr.rename, expr]
    exact .pure rfl
  | name id =>
    rw [Expr.rename, expr, expr]
    exact carries_name injective id
  | index array e ih =>
    rw [Expr.rename, expr, expr]
    exact ih.bind fun x => carries_index injective array x
  | call callee args ih =>
    rw [Expr.rename, expr, expr]
    exact (carries_beginCall injective callee).bind fun c => (carries_arguments ih c).bind fun c => carries_endCall c
  | unary op line e ih =>
    rw [Expr.rename, expr, expr]
    exact ih.bind fun x => carries_unary op line x
  | binary op line left right ih ih' =>
    have logical : ∀ conjunction x, Carries (rename ρ) (Value.rename ρ)
        (do let l ← beginLogical conjunction line x; let y ← expr right; endLogical l line y)
        (do
          let l ← beginLogical conjunction line (x.rename ρ)
          let y ← expr (right.rename ρ)
          endLogical l line y) :=
      fun conjunction x => (carries_beginLogical conjunction line x).bind fun l => ih'.bind fun y =>
        carries_endLogical l line y
    rw [Expr.rename, expr, expr]
    refine ih.bind fun x => ?_
    cases op with
    | and => exact logical true x
    | or => exact logical false x
    | _ => exact ih'.bind fun y => carries_binary _ line x y
  | assign line target value ih ih' =>
    rw [Expr.rename, expr, expr]
    exact ih.bind fun x => ih'.bind fun y => carries_assign line x y

theorem carries_declare (line : Nat) (s : Symbol) : Carries (rename ρ) id (declare line s) (declare line (s.rename ρ)) := by
  unfold declare Scopes.declare
  refine Carries.get.bind fun g => ?_
  have found : (g.rename ρ).scopes.current.find? (s.rename ρ).name = (g.scopes.current.find? s.name).map (Symbol.rename ρ) :=
    Scope.find?_rename injective g.scopes.current s.name
  have added : (g.rename ρ).scopes.add (s.rename ρ) = (g.scopes.add s).rename ρ := Scopes.add_rename g.scopes s
  rw [found]
  cases g.scopes.current.find? s.name with
  | none =>
    simp only [Option.map_none, added]
    exact (Carries.set rfl).bind fun _ => .pure rfl
  | some previous => exact (carries_report line (.redeclared s.name)).bind fun _ => .pure rfl

theorem carries_varDecl (d : VarDecl) : Carries (rename ρ) id (varDecl d) (varDecl (d.rename ρ)) := by
  have places : ∀ s : Symbol, Carries (rename ρ) id
      (do
        let storage := (← get).emitter.free
        if ← declare d.id.line { s with storage := some storage } then
          let _ ← Emitter.allocate s)
      (do
        let storage := (← get).emitter.free
        if ← declare d.id.line { s.rename ρ with storage := some storage } then
          let _ ← Emitter.allocate (s.rename ρ)) := by
    intro s
    refine Carries.get.bind fun g => ?_
    have free : (g.rename ρ).emitter.free = g.emitter.free := Emitter.free_rename g.emitter
    rw [free]
    refine (carries_declare injective d.id.line { s with storage := some g.emitter.free }).bind fun fresh => ?_
    exact .ite (fun _ => (carries_lift (Emitter.carries_allocate s)).bind fun _ => .pure rfl) fun _ => .pure rfl
  unfold varDecl
  refine (carries_variableType d.id d.type).bind fun type => ?_
  rcases d with ⟨_, id, _ | size⟩
  · exact places _
  · exact (carries_arrayLength id size).bind fun length => places _

theorem carries_stmt (s : Stmt) : Carries (rename ρ) id (stmt s) (stmt (s.rename ρ)) := by
  have condition := fun e => carries_expr injective (ρ := ρ) e
  induction s using Stmt.induction with
  | skipped | empty =>
    rw [Stmt.rename, stmt]
    exact .pure rfl
  | expr e =>
    rw [Stmt.rename, stmt, stmt]
    exact (condition e).bind fun _ => .pure rfl
  | block vars body ih =>
    rw [Stmt.rename, stmt, stmt]
    exact carries_enterScope.bind fun _ => (Carries.forM (carries_varDecl injective) vars).bind fun _ =>
      (carries_stmts ih).bind fun _ => carries_exitScope
  | ifThen line e body ih =>
    rw [Stmt.rename, stmt, stmt]
    exact (condition e).bind fun x => (carries_jumpUnless line x).bind fun jump => ih.bind fun _ => carries_landHere jump
  | ifElse line e body orElse ih ih' =>
    rw [Stmt.rename, stmt, stmt]
    exact (condition e).bind fun x => (carries_jumpUnless line x).bind fun jump => ih.bind fun _ =>
      (carries_emit _).bind fun skip => (carries_landHere jump).bind fun _ => ih'.bind fun _ => carries_landHere skip
  | loop line e body ih =>
    rw [Stmt.rename, stmt, stmt]
    exact carries_enterLoop.bind fun start => (condition e).bind fun x => (carries_jumpUnless line x).bind fun jump =>
      ih.bind fun _ => (carries_emit _).bind fun _ => (carries_landHere jump).bind fun _ => carries_exitLoop
  | ret line value =>
    rcases value with _ | e
    · rw [Stmt.rename, Option.map_none, stmt]
      exact carries_ret line none
    · rw [Stmt.rename, Option.map_some, stmt, stmt]
      exact (condition e).bind fun x => carries_ret line (some x)
  | leave line =>
    rw [Stmt.rename, stmt]
    exact carries_leave line
  | again line =>
    rw [Stmt.rename, stmt]
    exact carries_again line

theorem carries_param (p : Param) : Carries (rename ρ) id (param p) (param (p.rename ρ)) := by
  rcases p with type | ⟨type, name, isArray⟩
  · exact .pure rfl
  · unfold param
    refine (carries_variableType name type).bind fun ty => Carries.get.bind fun g => ?_
    have free : (g.rename ρ).emitter.free = g.emitter.free := Emitter.free_rename g.emitter
    rw [free]
    exact (carries_declare injective name.line _).bind fun _ =>
      (carries_lift (Emitter.carries_allocate _)).bind fun _ => .pure rfl

omit injective in
theorem paramTypes_rename (params : List Param) : paramTypes (params.map (Param.rename ρ)) = paramTypes params := by
  rw [paramTypes, paramTypes, List.filterMap_map]
  refine congrArg (fun f => params.filterMap f) (funext fun p => ?_)
  cases p <;> rfl

variable (main : ρ mainName = mainName)

include main

theorem carries_funDecl (f : FunDecl) : Carries (rename ρ) id (funDecl f) (funDecl (f.rename ρ)) := by
  have isMain : (f.rename ρ).id.name = mainName ↔ f.id.name = mainName := by
    have named : (f.rename ρ).id.name = ρ f.id.name := rfl
    rw [named, ← main, injective.eq_iff, main]
  have params : (f.rename ρ).params.toList = f.params.toList.map (Param.rename ρ) := by
    rcases f with ⟨_, _, _ | _, _, _⟩ <;> rfl
  have types : paramTypes (f.rename ρ).params.toList = paramTypes f.params.toList := by
    rw [params, paramTypes_rename]
  have signature : ∀ s : Symbol, Check.mainSignature (s.rename ρ) = (Check.mainSignature s).rename ρ := by
    intro s
    rw [Check.mainSignature, Check.mainSignature, Verdict.require_rename]
    rfl
  have rest : Carries (rename ρ) id
      (do
        f.vars.forM varDecl
        stmts f.body
        Emitter.endFunction
        exitScope
        modify fun g => { g with function := none })
      (do
        (f.rename ρ).vars.forM varDecl
        stmts (f.rename ρ).body
        Emitter.endFunction
        exitScope
        modify fun g => { g with function := none }) := by
    exact (Carries.forM (carries_varDecl injective) f.vars).bind fun _ =>
      (carries_stmts fun s _ => carries_stmt injective s).bind fun _ =>
        (carries_lift Emitter.carries_endFunction).bind fun _ =>
        carries_exitScope.bind fun _ => .modify fun _ => rfl
  unfold funDecl
  refine (carries_lift Emitter.carries_here).bind fun entry => ?_
  simp only [types, isMain, id_eq]
  refine (carries_declare injective f.id.line _).bind fun _ =>
    (carries_lift (Emitter.carries_beginFunction f.id.name)).bind fun _ => carries_enterScope.bind fun _ =>
      Carries.bind (f := id) (.modify fun _ => rfl) fun _ => ?_
  rw [params]
  refine (Carries.forM (carries_param injective) _).bind fun _ =>
    (carries_lift Emitter.carries_reserveResult).bind fun _ => ?_
  refine .ite (fun _ => ?_) fun _ => rest
  exact (carries_check f.id.line (signature _)).bind fun _ => (carries_lift (Emitter.carries_setMain _)).bind fun _ => rest

theorem carries_source (s : Source) : Carries (rename ρ) id (source s) (source (s.rename ρ)) := by
  have decls : ∀ d, Carries (rename ρ) id (decl d) (decl (d.rename ρ)) := by
    rintro (d | f)
    · exact carries_varDecl injective d
    · exact carries_funDecl injective main f
  have declared : ∀ m : Option Symbol, Check.mainDeclared (m.map (Symbol.rename ρ)) = (Check.mainDeclared m).rename ρ := by
    intro m
    rw [Check.mainDeclared, Check.mainDeclared, Verdict.require_rename]
    cases m <;> rfl
  have resolves := carries_resolve? injective mainName
  rw [main] at resolves
  exact (Carries.forM decls s.decls).bind fun _ => resolves.bind fun m =>
    (carries_check s.endLine (declared m)).bind fun _ =>
    carries_lift Emitter.carries_finish

theorem run_rename (output : ρ "output" = "output") (s : Source) :
    run (s.rename ρ) = (run s).map (rename ρ) := by
  have start : ({} : Codegen).rename ρ = {} := by
    simp [rename, Scopes.rename, Scopes.initial, Scopes.add, Scope.rename, Scope.insert, Symbol.rename,
      Symbol.output, output, Emitter.rename, Emitter.initial]
  have runs := carries_source injective main s {}
  rw [start] at runs
  have runs' : source (s.rename ρ) {} = outcome (rename ρ) id (source s {}) := runs
  unfold run
  rw [runs']
  cases source s {} <;> rfl

end Names

end Codegen

end MiniC
