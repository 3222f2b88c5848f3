import Mathlib.Data.List.Forall2
import MiniC.Proofs.Generation.Realization.Source

namespace MiniC

open Reference (words variablesIn variablesAll)

/-- Slots that hold variables in the order of their declarations, among slots of one word. Which sizes
    hold a number of words is left open. -/
inductive Slot.Holds (fits : Word → Nat → Prop) : List Slot → List VarDecl → Prop where
  | nil : Holds fits [] []
  | var {s : Slot} {d : VarDecl} {slots : List Slot} {vars : List VarDecl} : s.kind = .var → s.name = d.id.name →
      fits s.size (words d) → Holds fits slots vars → Holds fits (s :: slots) (d :: vars)
  | word {s : Slot} {slots : List Slot} {vars : List VarDecl} : s.kind ≠ .var → fits s.size 1 →
      Holds fits slots vars → Holds fits (s :: slots) vars

theorem Slot.Holds.append {fits : Word → Nat → Prop} {slots slots' : List Slot} {vars vars' : List VarDecl}
    (first : Holds fits slots vars) (second : Holds fits slots' vars') :
    Holds fits (slots ++ slots') (vars ++ vars') := by
  induction first with
  | nil => exact second
  | var kind name size _ ih => exact .var kind name size ih
  | word kind size _ ih => exact .word kind size ih

def Measures (size : Word) (n : Nat) : Prop :=
  size = .ofNat n * wordSize

namespace Codegen

open EStateM (run_bind run_pure run_get run_modify run_set)
open Typing (VarOk)

/-- What an action within a scope does to the storage at hand: the symbols that it adds belong to the
    scope or to inner ones, and in a function the slots that it takes hold the variables that it declares. -/
structure Allots (vars : List VarDecl) (g g' : Codegen) : Prop where
  errors : g.errors.toList <+: g'.errors.toList
  outer : g'.scopes.outer = g.scopes.outer
  scope : g'.scopes.current.id = g.scopes.current.id
  nextId : g.scopes.nextId ≤ g'.scopes.nextId
  symbols : ∃ new, g'.scopes.all = g.scopes.all ++ new ∧
    (g.scopes.current.id ≠ 0 → g.scopes.nextId ≠ 0 → ∀ s ∈ new, s.scope ≠ 0)
  functions : g'.emitter.functions = g.emitter.functions
  current : ∀ fn, g.emitter.current = some fn → ∃ fn', g'.emitter.current = some fn' ∧ fn'.name = fn.name ∧
    g'.emitter.nextGlobal = g.emitter.nextGlobal ∧
    (Slot.Packed 0 fn.frame.slots fn.frame.size → Slot.Packed 0 fn'.frame.slots fn'.frame.size) ∧
    (g'.errors = #[] → ∃ new, fn'.frame.slots = fn.frame.slots ++ new ∧ Slot.Holds Measures new vars)

variable {vars vars' : List VarDecl} {f g h : Codegen}

theorem clean_before (errors : g.errors.toList <+: h.errors.toList) (clean : h.errors = #[]) : g.errors = #[] := by
  rw [clean] at errors
  exact Array.toList_eq_nil_iff.mp (List.prefix_nil.mp errors)

theorem Allots.trans (first : Allots vars f g) (second : Allots vars' g h) : Allots (vars ++ vars') f h where
  errors := first.errors.trans second.errors
  outer := second.outer.trans first.outer
  scope := second.scope.trans first.scope
  nextId := Nat.le_trans first.nextId second.nextId
  symbols := by
    obtain ⟨new, all, inner⟩ := first.symbols
    obtain ⟨new', all', inner'⟩ := second.symbols
    refine ⟨new ++ new', by rw [all', all, List.append_assoc], fun id next => ?_⟩
    have next' := first.nextId
    exact List.forall_mem_append.mpr ⟨inner id next, inner' (by rw [first.scope]; exact id) (by omega)⟩
  functions := second.functions.trans first.functions
  current fn current := by
    obtain ⟨fn₁, current₁, name, global, packed, holds⟩ := first.current fn current
    obtain ⟨fn₂, current₂, name', global', packed', holds'⟩ := second.current fn₁ current₁
    refine ⟨fn₂, current₂, name'.trans name, global'.trans global, packed' ∘ packed, fun clean => ?_⟩
    obtain ⟨new, slots, own⟩ := holds (clean_before second.errors clean)
    obtain ⟨new', slots', own'⟩ := holds' clean
    exact ⟨new ++ new', by rw [slots', slots, List.append_assoc], own.append own'⟩

theorem Allots.same (scopes : h.scopes = g.scopes) (functions : h.emitter.functions = g.emitter.functions)
    (current : h.emitter.current = g.emitter.current) (global : h.emitter.nextGlobal = g.emitter.nextGlobal)
    (errors : g.errors.toList <+: h.errors.toList) : Allots [] g h where
  errors := errors
  outer := by rw [scopes]
  scope := by rw [scopes]
  nextId := Nat.le_of_eq (by rw [scopes])
  symbols := ⟨[], by rw [scopes, List.append_nil], by simp⟩
  functions := functions
  current fn here :=
    ⟨fn, current.trans here, rfl, global, fun packed => packed, fun _ => ⟨[], (List.append_nil _).symm, .nil⟩⟩

theorem Allots.judged (g : Codegen) (line : Nat) (v : Verdict) : Allots [] g (g.judged line v) :=
  .same (judged_scopes ..) (by rw [judged_emitter]) (by rw [judged_emitter]) (by rw [judged_emitter])
    (Moves.judged g line v).errors

theorem Allots.take (g : Codegen) {name : Text} {kind : SlotKind} {size : Word}
    (holds : g.errors = #[] → ∀ offset, Slot.Holds Measures [⟨name, kind, offset, size⟩] vars) :
    Allots vars g { g with emitter := g.emitter.take name kind size } := by
  refine ⟨List.prefix_rfl, rfl, rfl, Nat.le_refl _, ⟨[], by simp, by simp⟩, ?_, fun fn current => ?_⟩
  · unfold Emitter.take
    cases g.emitter.current <;> rfl
  · unfold Emitter.take
    rw [current]
    exact ⟨_, rfl, rfl, rfl, fun packed => packed.push rfl, fun clean => ⟨_, rfl, holds clean _⟩⟩

theorem Allots.takeWord (g : Codegen) (name : Text) {kind : SlotKind} (other : kind ≠ .var) :
    Allots [] g { g with emitter := g.emitter.take name kind wordSize } :=
  .take g fun _ _ => .word other rfl .nil

def Allotting {α : Type} (vars : List VarDecl) (x : GenM α) : Prop :=
  ∀ (g : Codegen) (a : α) (g' : Codegen), x.run g = .ok a g' → Allots vars g g'

section

variable {α β : Type} {x : GenM α} {k : α → GenM β}

theorem Allotting.append (first : Allotting vars x) (second : ∀ a, Allotting vars' (k a)) :
    Allotting (vars ++ vars') (x >>= k) := by
  intro g b g' run
  obtain ⟨a, g₁, run₁, run₂⟩ := bind_ok run
  exact (first g a g₁ run₁).trans (second a g₁ b g' run₂)

theorem Allotting.bind (first : Allotting [] x) (second : ∀ a, Allotting vars (k a)) : Allotting vars (x >>= k) :=
  first.append second

theorem Allotting.andThen (first : Allotting vars x) (second : ∀ a, Allotting [] (k a)) : Allotting vars (x >>= k) := by
  have both := first.append second
  rwa [List.append_nil] at both

theorem Allotting.pure (a : α) : Allotting [] (Pure.pure a : GenM α) := by
  rintro g _ _ ⟨⟩
  exact .same rfl rfl rfl rfl List.prefix_rfl

theorem Allotting.throw (fault : Fault) : Allotting vars (MonadExcept.throw fault : GenM α) := by
  intro g a g' run
  cases run

theorem Allotting.modify {change : Codegen → Codegen} (allots : ∀ g, Allots [] g (change g)) :
    Allotting [] (modify change : GenM Unit) := by
  rintro g _ _ ⟨⟩
  exact allots g

theorem Allotting.get {k : Codegen → GenM β} (second : ∀ g, Allotting vars (k g)) :
    Allotting vars (MonadState.get >>= k) :=
  .bind (by rintro g _ _ ⟨⟩; exact .same rfl rfl rfl rfl List.prefix_rfl) second

theorem Allotting.forM {γ : Type} {l : List γ} {f : γ → GenM Unit} (each : ∀ c, Allotting [] (f c)) :
    Allotting [] (l.forM f) := by
  induction l with
  | nil => exact .pure ()
  | cons c rest ih => exact .bind (each c) fun _ => ih

end

theorem allotting_check (line : Nat) (v : Verdict) : Allotting [] (check line v) := by
  intro g a g' run
  rw [run_check] at run
  cases run
  exact .judged g line v

theorem allotting_emit (i : Instruction) : Allotting [] (liftM (Emitter.emit i) : GenM Nat) := by
  rintro g _ _ ⟨⟩
  exact .same rfl rfl rfl rfl List.prefix_rfl

theorem allotting_here : Allotting [] (liftM Emitter.here : GenM Nat) := by
  rintro g _ _ ⟨⟩
  exact .same rfl rfl rfl rfl List.prefix_rfl

theorem allotting_newTemp : Allotting [] (liftM Emitter.newTemp : GenM Operand) := by
  rintro g _ _ ⟨⟩
  have numbered : Allots [] g { g with emitter := { g.emitter with temps := g.emitter.temps + 1 } } :=
    .same rfl rfl rfl rfl List.prefix_rfl
  exact numbered.trans (.takeWord _ _ (by simp))

theorem allotting_backpatch (index target : Int) :
    Allotting [] (liftM (Emitter.backpatch index target) : GenM Unit) := by
  intro g a g' run
  have patches : emitting (Emitter.backpatch index target) g = .ok a g' := run
  unfold emitting at patches
  split at patches
  · next e patched =>
    cases patches
    change (Emitter.backpatch index target).run g.emitter = _ at patched
    simp only [Emitter.backpatch, run_bind, run_get] at patched
    cases index with
    | negSucc i => cases patched
    | ofNat i =>
      dsimp only at patched
      split at patched
      · cases patched
      · split at patched
        · cases patched
        · cases patched
          exact .same rfl rfl rfl rfl List.prefix_rfl
  · cases patches

theorem allotting_lookup (id : Ident) : Allotting [] (lookup id) := by
  refine .bind ?_ fun symbol => .bind (allotting_check _ _) fun _ => .pure _
  exact .get fun g => .pure _

theorem allotting_name (id : Ident) : Allotting [] (name id) := by
  refine .bind (allotting_lookup id) fun symbol => ?_
  split
  · exact .pure _
  · refine .bind (allotting_check _ _) fun accepted => ?_
    split
    · split
      · exact .pure _
      · split
        · exact .pure _
        · exact .pure _
    · exact .pure _

theorem allotting_arrayBase (s : Symbol) : Allotting [] (arrayBase s) := by
  unfold arrayBase
  split
  · exact .pure _
  · exact .bind allotting_newTemp fun _ => .bind (allotting_emit _) fun _ => .pure _

theorem allotting_index (array : Ident) (x : Value) : Allotting [] (index array x) := by
  refine .bind (allotting_lookup array) fun symbol => ?_
  split
  · exact .pure _
  · refine .bind (allotting_check _ _) fun accepted => ?_
    split
    · exact .bind (allotting_arrayBase _) fun _ => .bind allotting_newTemp fun _ =>
        .bind (allotting_emit _) fun _ => .pure _
    · exact .pure _

theorem allotting_beginCall (id : Ident) : Allotting [] (beginCall id) := by
  refine .bind (allotting_lookup id) fun symbol => ?_
  split
  · exact .pure _
  · refine .bind (allotting_check _ _) fun accepted => ?_
    split
    · exact .pure _
    · exact .pure _

theorem allotting_argument (c : Call) (x : Value) : Allotting [] (argument c x) := by
  unfold argument
  dsimp only
  split
  · exact .pure _
  · refine .bind (allotting_check _ _) fun _ => ?_
    split
    · exact .pure _
    · split
      · exact .pure _
      · split
        · exact .bind (allotting_arrayBase _) fun _ => .bind (allotting_emit _) fun _ => .pure _
        · exact .bind (.pure _) fun _ => .bind (allotting_emit _) fun _ => .pure _

theorem allotting_endCall (c : Call) : Allotting [] (endCall c) := by
  unfold endCall
  split
  · exact .pure _
  · refine .bind (allotting_check _ _) fun _ => ?_
    split
    · split
      · exact .bind (allotting_emit _) fun _ => .pure _
      · exact .pure _
    · split
      · exact .bind (allotting_emit _) fun _ => .pure _
      · exact .bind allotting_newTemp fun _ => .bind (allotting_emit _) fun _ => .pure _

theorem allotting_unary (op : UnaryOp) (line : Nat) (x : Value) : Allotting [] (unary op line x) := by
  refine .bind (allotting_check _ _) fun accepted => ?_
  split
  · refine .bind allotting_newTemp fun _ => ?_
    cases op with
    | neg => exact .bind (allotting_emit _) fun _ => .pure _
    | not => exact .bind (allotting_emit _) fun _ => .pure _
  · exact .pure _

theorem allotting_binary (op : BinaryOp) (line : Nat) (x y : Value) : Allotting [] (binary op line x y) := by
  refine .bind (allotting_check _ _) fun accepted => ?_
  split
  · split
    · exact .throw _
    · exact .bind allotting_newTemp fun _ => .bind (allotting_emit _) fun _ => .pure _
  · exact .pure _

theorem allotting_beginLogical (conjunction : Bool) (line : Nat) (x : Value) :
    Allotting [] (beginLogical conjunction line x) := by
  refine .bind (allotting_check _ _) fun accepted => ?_
  split
  · refine .bind allotting_newTemp fun _ => ?_
    split
    · exact .bind (allotting_emit _) fun _ => .bind (allotting_emit _) fun _ => .pure _
    · exact .bind allotting_newTemp fun _ => .bind (allotting_emit _) fun _ => .bind (allotting_emit _) fun _ =>
        .bind (allotting_emit _) fun _ => .pure _
  · exact .pure _

theorem allotting_endLogical (l : Option Logical) (line : Nat) (x : Value) : Allotting [] (endLogical l line x) := by
  refine .bind (allotting_check _ _) fun accepted => ?_
  split
  · exact .pure _
  · split
    · exact .bind (allotting_emit _) fun _ => .bind allotting_here fun _ =>
        .bind (allotting_backpatch _ _) fun _ => .pure _
    · exact .bind allotting_here fun _ => .bind (allotting_backpatch _ _) fun _ => .pure _

theorem allotting_assign (line : Nat) (x y : Value) : Allotting [] (assign line x y) := by
  refine .bind (allotting_check _ _) fun accepted => ?_
  split
  · exact .bind (allotting_emit _) fun _ => .pure _
  · exact .pure _

theorem allotting_arguments {args : List Expr} (each : ∀ e ∈ args, Allotting [] (expr e)) (c : Call) :
    Allotting [] (arguments c args) := by
  induction args generalizing c with
  | nil => exact .pure c
  | cons e rest ih =>
    rw [arguments]
    exact .bind (each e (by simp)) fun x => .bind (allotting_argument c x) fun c =>
      ih (fun e member => each e (by simp [member])) c

theorem allotting_expr (e : Expr) : Allotting [] (expr e) := by
  induction e using Expr.induction with
  | missing => exact .pure _
  | number n => exact .pure _
  | name id => exact allotting_name id
  | index array e ih => exact .bind ih fun x => allotting_index array x
  | call callee args ih =>
    exact .bind (allotting_beginCall callee) fun c => .bind (allotting_arguments ih c) fun c => allotting_endCall c
  | unary op line e ih => exact .bind ih fun x => allotting_unary op line x
  | binary op line left right ihl ihr =>
    refine .bind ihl fun x => ?_
    split
    · exact .bind (allotting_beginLogical _ _ _) fun l => .bind ihr fun y => allotting_endLogical l line y
    · exact .bind (allotting_beginLogical _ _ _) fun l => .bind ihr fun y => allotting_endLogical l line y
    · exact .bind ihr fun y => allotting_binary op line x y
  | assign line target value iht ihv => exact .bind iht fun x => .bind ihv fun y => allotting_assign line x y

theorem allotting_jumpUnless (line : Nat) (x : Value) : Allotting [] (jumpUnless line x) := by
  refine .bind (.bind (allotting_check _ _) fun accepted => ?_) fun o => allotting_emit _
  split
  · exact .pure _
  · exact .pure _

theorem allotting_landHere (jump : Nat) : Allotting [] (landHere jump) :=
  .bind allotting_here fun _ => allotting_backpatch _ _

theorem allotting_loops (change : Codegen → List Loop) :
    Allotting [] (modify fun g => { g with loops := change g } : GenM Unit) :=
  .modify fun _ => .same rfl rfl rfl rfl List.prefix_rfl

theorem allotting_enterLoop : Allotting [] enterLoop :=
  .bind allotting_here fun _ => .bind (allotting_loops _) fun _ => .pure _

theorem allotting_exitLoop : Allotting [] exitLoop := by
  refine .get fun g => ?_
  split
  · exact .throw _
  · exact .bind (.forM allotting_landHere) fun _ => allotting_loops _

theorem allotting_leave (line : Nat) : Allotting [] (leave line) := by
  refine .get fun g => .bind (allotting_check _ _) fun accepted => ?_
  split
  · split
    · exact .throw _
    · exact .bind (allotting_emit _) fun _ => allotting_loops _
  · exact .pure _

theorem allotting_again (line : Nat) : Allotting [] (again line) := by
  refine .get fun g => .bind (allotting_check _ _) fun accepted => ?_
  split
  · split
    · exact .throw _
    · exact .bind (allotting_emit _) fun _ => .pure _
  · exact .pure _

theorem allotting_ret (line : Nat) (x : Option Value) : Allotting [] (ret line x) := by
  refine .get fun g => ?_
  split
  all_goals
    dsimp only
    split
    · exact .bind (allotting_check _ _) fun _ => .bind (allotting_emit _) fun _ => .pure _
    · exact .bind (allotting_emit _) fun _ => .pure _

theorem Allots.declared {s : Symbol} {scopes : Scopes} (declared : g.scopes.declare s = .ok scopes) :
    Allots [] g { g with scopes := scopes } := by
  cases eq_add_of_declare declared
  exact ⟨List.prefix_rfl, rfl, rfl, Nat.le_refl _, ⟨_, rfl, fun scope _ => by simpa using scope⟩, rfl,
    fun fn current => ⟨fn, current, rfl, rfl, fun packed => packed, fun _ => ⟨[], (List.append_nil _).symm, .nil⟩⟩⟩

theorem Allots.variable {d : VarDecl} (storage : Operand) (sound : g.errors = #[] → VarOk d) :
    Allots [d] g (g.allocated (varSymbol d storage)) := by
  have own : (varSymbol d storage).isParam = false := rfl
  simp only [allocated, own, Bool.false_eq_true, if_false]
  exact .take g fun clean _ => .var rfl rfl (storageSize_varSymbol (sound clean) _) .nil

theorem Allots.parameter {s : Symbol} (param : s.isParam = true) : Allots [] g (g.allocated s) := by
  have counted : Allots [] g { g with emitter := g.emitter.countParam } := by
    refine ⟨List.prefix_rfl, rfl, rfl, Nat.le_refl _, ⟨[], by simp, by simp⟩, rfl, fun fn current => ?_⟩
    simp only [Emitter.countParam, current, Option.map_some]
    exact ⟨_, rfl, rfl, trivial, fun packed => packed, fun _ => ⟨[], (List.append_nil _).symm, .nil⟩⟩
  have size : Emitter.storageSize s = wordSize := by simp [Emitter.storageSize, param]
  simp only [allocated, param, if_true, size]
  exact counted.trans (.takeWord _ _ (by simp))

theorem allotting_varDecl (d : VarDecl) : Allotting [d] (varDecl d) := by
  intro g a g' run
  have sound := varDecl_sound run
  rw [run_varDecl] at run
  have examined : Allots [] g (g.examined d) := (Allots.judged ..).trans (.judged ..)
  have scopes : (g.examined d).scopes = g.scopes := by rw [Codegen.examined, judged_scopes, judged_scopes]
  cases declared : g.scopes.declare (varSymbol d g.temp) with
  | error earlier =>
    rw [declared] at run
    cases run
    have judged := examined.trans (.judged (g.examined d) d.id.line (.rejected (.redeclared earlier.name)))
    refine ⟨judged.errors, judged.outer, judged.scope, judged.nextId, judged.symbols, judged.functions, ?_⟩
    intro fn current
    obtain ⟨fn', current', name, global, packed, _⟩ := judged.current fn current
    refine ⟨fn', current', name, global, packed, fun clean => ?_⟩
    simp [Codegen.judged, Verdict.error?] at clean
  | ok t =>
    rw [declared] at run
    cases run
    exact (examined.trans (.declared (scopes ▸ declared))).trans (.variable _ fun clean => (sound clean).1)

theorem allotting_vars (vars : List VarDecl) : Allotting vars (vars.forM varDecl) := by
  induction vars with
  | nil => exact .pure ()
  | cons d rest ih => exact (allotting_varDecl d).append fun _ => ih

theorem Allots.scoped {a : Unit} (inner : Allots vars { g with scopes := g.scopes.enter } f)
    (exits : exitScope.run f = .ok a h) : Allots vars g h := by
  have outer : f.scopes.outer = g.scopes.current :: g.scopes.outer := inner.outer
  rw [run_exitScope (Scopes.exit?_of_cons outer)] at exits
  cases exits
  have next : g.scopes.nextId + 1 ≤ f.scopes.nextId := inner.nextId
  refine ⟨inner.errors, rfl, rfl, Nat.le_of_succ_le next, ?_, inner.functions, inner.current⟩
  obtain ⟨new, all, deep⟩ := inner.symbols
  exact ⟨new, all, fun _ numbered => deep numbered (Nat.succ_ne_zero _)⟩

theorem allotting_stmts {body : List Stmt} (each : ∀ s ∈ body, Allotting (variablesIn s) (stmt s)) :
    Allotting (variablesAll body) (stmts body) := by
  induction body with
  | nil => exact .pure ()
  | cons s rest ih =>
    rw [stmts, variablesAll]
    exact .append (each s (by simp)) fun _ => ih fun s member => each s (by simp [member])

theorem allotting_stmt (s : Stmt) : Allotting (variablesIn s) (stmt s) := by
  induction s using Stmt.induction with
  | skipped | empty => exact .pure ()
  | expr e => exact .bind (allotting_expr e) fun _ => .pure ()
  | block vars body ih =>
    intro g a g' run
    obtain ⟨_, g₁, enters, run⟩ := bind_ok run
    cases enters
    obtain ⟨_, g₂, runVars, run⟩ := bind_ok run
    obtain ⟨_, g₃, runBody, exits⟩ := bind_ok run
    exact .scoped ((allotting_vars vars _ _ _ runVars).trans (allotting_stmts ih _ _ _ runBody)) exits
  | ifThen line e body ih =>
    exact .bind (allotting_expr e) fun x => .bind (allotting_jumpUnless line x) fun jump =>
      .andThen ih fun _ => allotting_landHere jump
  | ifElse line e body orElse ih ih' =>
    refine .bind (allotting_expr e) fun x => .bind (allotting_jumpUnless line x) fun jump => .append ih fun _ => ?_
    exact .bind (allotting_emit _) fun skip => .bind (allotting_landHere jump) fun _ =>
      .andThen ih' fun _ => allotting_landHere skip
  | loop line e body ih =>
    refine .bind allotting_enterLoop fun start => .bind (allotting_expr e) fun x =>
      .bind (allotting_jumpUnless line x) fun jump => .andThen ih fun _ => ?_
    exact .bind (allotting_emit _) fun _ => .bind (allotting_landHere jump) fun _ => allotting_exitLoop
  | ret line value =>
    cases value with
    | none => exact allotting_ret line none
    | some e => exact .bind (allotting_expr e) fun x => allotting_ret line (some x)
  | leave line => exact allotting_leave line
  | again line => exact allotting_again line

theorem allotting_param (p : Param) : Allotting [] (param p) := by
  cases p with
  | unnamed type => exact .pure ()
  | named type id isArray =>
    intro g a g' run
    rw [run_param_named] at run
    dsimp only at run
    have judged := Allots.judged g id.line (Check.variableType id.name type.ty)
    have scopes := judged_scopes g id.line (Check.variableType id.name type.ty)
    split at run
    · next t declared =>
      cases run
      exact (judged.trans (.declared (scopes ▸ declared))).trans (.parameter rfl)
    · cases run
      exact (judged.trans (.judged ..)).trans (.parameter rfl)

theorem Allots.announced (g : Codegen) (f : FunDecl) (s : Symbol) : Allots [] g (g.announced f s) := by
  unfold Codegen.announced
  split
  · exact (Allots.judged ..).trans (.same rfl rfl rfl rfl List.prefix_rfl)
  · exact .same rfl rfl rfl rfl List.prefix_rfl

theorem FunctionRun.allots {f : FunDecl} {g g₁ g₂ g₃ g₄ : Codegen} {fn : Function} {scopes : Scopes}
    (h : FunctionRun f g g₁ g₂ g₃ g₄ fn scopes) :
    Allots (f.vars ++ variablesAll f.body) (g₁.entered f (funSymbol f g.code.size)) g₄ := by
  have params : Allots [] (g₁.entered f (funSymbol f g.code.size)) g₂ := Allotting.forM allotting_param _ _ _ h.params
  have result : Allots [] g₂ g₂.withResult := .takeWord g₂ _ (by simp)
  have vars := allotting_vars f.vars _ _ _ h.vars
  have body := allotting_stmts (fun s _ => allotting_stmt s) _ _ _ h.body
  exact ((params.trans result).trans (.announced ..)).trans (vars.trans body)

end Codegen

def Symbol.isGlobal (s : Symbol) : Bool :=
  s.scope = 0 ∧ s.kind ≠ .func

def Symbol.words (s : Symbol) : Nat :=
  if s.kind = .array ∧ s.isParam = false then s.length.toNatClampNeg else 1

/-- Symbols of globals that follow one another in the data from an address up to another. -/
inductive Symbol.Laid : Word → List Symbol → List VarDecl → Word → Prop where
  | nil {a : Word} : Laid a [] [] a
  | cons {a b : Word} {s : Symbol} {d : VarDecl} {symbols : List Symbol} {vars : List VarDecl} :
      s.name = d.id.name → s.words = Reference.words d → s.storage = some (.global a) →
      Laid (a + .ofNat (Reference.words d) * wordSize) symbols vars b → Laid a (s :: symbols) (d :: vars) b

theorem Symbol.Laid.append {a b c : Word} {symbols symbols' : List Symbol} {vars vars' : List VarDecl}
    (first : Laid a symbols vars b) (second : Laid b symbols' vars' c) :
    Laid a (symbols ++ symbols') (vars ++ vars') c := by
  induction first with
  | nil => exact second
  | cons name words storage _ ih => exact .cons name words storage (ih second)

def FunDecl.variables (f : FunDecl) : List VarDecl :=
  f.vars ++ variablesAll f.body

structure Function.Frames (f : FunDecl) (fn : Function) : Prop where
  name : fn.name = f.id.name
  packed : Slot.Packed 0 fn.frame.slots fn.frame.size
  holds : Slot.Holds Measures fn.frame.slots f.variables

def Decl.function? : Decl → Option FunDecl
  | .fn f => some f
  | .var _ => none

def Source.functions (s : Source) : List FunDecl :=
  s.decls.filterMap Decl.function?

def Decl.variable? : Decl → Option VarDecl
  | .var d => some d
  | .fn _ => none

namespace Codegen

open Typing (VarOk)

structure Stores (decls : List Decl) (g g' : Codegen) (functions : List Function) (globals : List Symbol) : Prop where
  added : g'.emitter.functions = g.emitter.functions ++ functions
  frames : List.Forall₂ Function.Frames (decls.filterMap Decl.function?) functions
  declared : g'.scopes.all.filter Symbol.isGlobal = g.scopes.all.filter Symbol.isGlobal ++ globals
  laid : Symbol.Laid g.emitter.nextGlobal globals (decls.filterMap Decl.variable?) g'.emitter.nextGlobal

structure Outermost (g : Codegen) : Prop where
  top : g.TopLevel
  scope : g.scopes.current.id = 0
  nextId : g.scopes.nextId ≠ 0

theorem words_varSymbol {d : VarDecl} (ok : VarOk d) (storage : Operand) :
    (varSymbol d storage).words = Reference.words d := by
  have positive := ok.size
  rcases d with ⟨type, id, extent⟩
  cases extent with
  | scalar => rfl
  | array size =>
    cases size with
    | none => rfl
    | some n =>
      cases real : n.real with
      | true => simp [Symbol.words, varSymbol, lengthOf, Reference.words, real]
      | false => simp [Symbol.words, varSymbol, lengthOf, Reference.words, real, positive n rfl real]

theorem var_stores {d : VarDecl} {g g' : Codegen} (start : Outermost g) (run : (varDecl d).run g = .ok () g')
    (clean : g'.errors = #[]) : Outermost g' ∧ ∃ s, Stores [.var d] g g' [] [s] := by
  obtain ⟨ok, fresh, _⟩ := varDecl_sound run clean
  have top := ((yields_varDecl d g).of_run run).1.topLevel start.top
  rw [run_varDecl_ok ok fresh] at run
  cases run
  have location : g.temp = .global g.emitter.nextGlobal := by simp [temp, Emitter.free, start.top.current]
  have own : (varSymbol d g.temp).isParam = false := rfl
  have taken : ({ g with scopes := g.scopes.add (varSymbol d g.temp) }.allocated (varSymbol d g.temp)).emitter =
      { g.emitter with nextGlobal := g.emitter.nextGlobal + .ofNat (words d) * wordSize } := by
    simp only [allocated, own, Bool.false_eq_true, if_false, Emitter.take, start.top.current, storageSize_varSymbol ok]
  refine ⟨⟨top, start.scope, start.nextId⟩, { varSymbol d g.temp with scope := g.scopes.current.id }, ?_, .nil, ?_, ?_⟩
  · rw [taken, List.append_nil]
  · change (g.scopes.all ++ [_]).filter _ = _
    rw [List.filter_append, List.filter_cons_of_pos, List.filter_nil]
    simp only [Symbol.isGlobal, start.scope, varSymbol]
    cases d.extent <;> rfl
  · rw [taken]
    exact .cons rfl (words_varSymbol ok g.temp) (congrArg some location) .nil

theorem declare_function {f : FunDecl} {g g₁ : Codegen} {line entry : Nat} {isNew : Bool}
    (run : (declare line (funSymbol f entry)).run g = .ok isNew g₁) :
    g₁.emitter = g.emitter ∧ Allots [] g g₁ ∧
      g₁.scopes.all.filter Symbol.isGlobal = g.scopes.all.filter Symbol.isGlobal := by
  rw [run_declare] at run
  split at run
  · next scopes declared =>
    cases run
    refine ⟨rfl, .declared declared, ?_⟩
    cases eq_add_of_declare declared
    change (g.scopes.all ++ [_]).filter _ = _
    rw [List.filter_append, List.filter_cons_of_neg (by simp [Symbol.isGlobal, funSymbol]), List.filter_nil,
      List.append_nil]
  · cases run
    exact ⟨judged_emitter .., .judged .., by rw [judged_scopes]⟩

theorem fn_stores {f : FunDecl} {g g' : Codegen} (start : Outermost g) (run : (funDecl f).run g = .ok () g')
    (clean : g'.errors = #[]) : Outermost g' ∧ ∃ fn, Stores [.fn f] g g' [fn] [] := by
  obtain ⟨g₁, g₂, g₃, g₄, fn, scopes, h⟩ := exists_functionRun f start.top
  rw [h.run] at run
  cases run
  obtain ⟨isNew, declared⟩ := h.declared
  obtain ⟨emitter, announces, symbols⟩ := declare_function declared
  have allots := h.allots
  have numbered : 0 < g₁.scopes.nextId := Nat.lt_of_lt_of_le (Nat.pos_of_ne_zero start.nextId) announces.nextId
  have next : g₁.scopes.nextId + 1 ≤ g₄.scopes.nextId := allots.nextId
  have nextId : scopes.nextId = g₄.scopes.nextId := (Scopes.outer_of_exit? h.exit).2.1
  have scope : scopes.current.id = 0 := by
    have visible := h.visible
    simp only [Scopes.visible, List.cons.injEq] at visible
    rw [visible.1, announces.scope, start.scope]
  refine ⟨⟨(h.adds start.top).topLevel, scope, ?_⟩, { fn with stop := (g₄.code.size + 1 : Nat) }, ?_, ?_, ?_, ?_⟩
  · change scopes.nextId ≠ 0
    omega
  · change g₄.emitter.functions ++ _ = _
    rw [allots.functions]
    change g₁.emitter.functions ++ g₁.emitter.current.toList ++ _ = _
    rw [emitter, start.top.current]
    simp
  · obtain ⟨fn', current, name, global, packed, holds⟩ := allots.current _ rfl
    rw [h.current] at current
    cases current
    obtain ⟨new, slots, held⟩ := holds clean
    exact .cons ⟨name, packed .nil, by rw [slots]; exact held⟩ .nil
  · change scopes.all.filter _ = _
    obtain ⟨new, all, inner⟩ := allots.symbols
    have none : new.filter Symbol.isGlobal = [] := by
      refine List.filter_eq_nil_iff.mpr fun s member => ?_
      have outside := inner (Nat.ne_of_gt numbered) (Nat.succ_ne_zero _) s member
      simp [Symbol.isGlobal, outside]
    rw [h.symbols, all, List.filter_append, none, List.append_nil, List.append_nil]
    exact symbols
  · obtain ⟨fn', current, name, global, packed, holds⟩ := allots.current _ rfl
    change Symbol.Laid _ _ _ g₄.emitter.nextGlobal
    rw [global]
    change Symbol.Laid _ _ _ g₁.emitter.nextGlobal
    rw [emitter]
    exact .nil

theorem Stores.trans {first second : List Decl} {f g h : Codegen} {functions functions' : List Function}
    {globals globals' : List Symbol} (before : Stores first f g functions globals)
    (after : Stores second g h functions' globals') :
    Stores (first ++ second) f h (functions ++ functions') (globals ++ globals') where
  added := by rw [after.added, before.added, List.append_assoc]
  frames := by
    rw [List.filterMap_append]
    exact List.rel_append before.frames after.frames
  declared := by rw [after.declared, before.declared, List.append_assoc]
  laid := by
    rw [List.filterMap_append]
    exact before.laid.append after.laid

theorem decls_store {decls : List Decl} {g g' : Codegen} (start : Outermost g)
    (run : (decls.forM decl).run g = .ok () g') (clean : g'.errors = #[]) :
    Outermost g' ∧ ∃ functions globals, Stores decls g g' functions globals := by
  induction decls generalizing g with
  | nil =>
    cases run
    exact ⟨start, [], [], by simp, .nil, by simp, .nil⟩
  | cons d rest ih =>
    obtain ⟨_, g₁, runFirst, runRest⟩ := bind_ok (show (decl d >>= fun _ => rest.forM decl).run g = _ from run)
    obtain ⟨_, runs, adds, _⟩ := runs_decl d start.top
    rw [runFirst] at runs
    cases runs
    obtain ⟨_, runs, adds', _⟩ := runs_decls rest adds.topLevel
    rw [runRest] at runs
    cases runs
    have clean₁ := clean_before adds'.errors clean
    have first : Outermost g₁ ∧ ∃ functions globals, Stores [d] g g₁ functions globals := by
      cases d with
      | var d =>
        obtain ⟨next, s, stores⟩ := var_stores start runFirst clean₁
        exact ⟨next, [], [s], stores⟩
      | fn f =>
        obtain ⟨next, fn, stores⟩ := fn_stores start runFirst clean₁
        exact ⟨next, [fn], [], stores⟩
    obtain ⟨next, functions, globals, stores⟩ := first
    obtain ⟨last, functions', globals', stores'⟩ := ih next runRest
    exact ⟨last, functions ++ functions', globals ++ globals', stores.trans stores'⟩

theorem source_stores {s : Source} {g : Codegen} (run : Codegen.run s = .ok g) (clean : g.errors = #[]) :
    List.Forall₂ Function.Frames s.functions g.emitter.program.functions ∧
      Symbol.Laid dataBase (g.scopes.all.filter Symbol.isGlobal) (Reference.globalVariables s)
        (dataBase + g.emitter.program.globalSize) := by
  obtain ⟨g₁, runDecls, adds, _⟩ := runs_decls s.decls topLevel_initial
  rw [run_eq_completed runDecls adds.topLevel] at run
  cases run
  have judged := Allots.judged g₁ s.endLine (Check.mainDeclared (g₁.scopes.resolve? mainName))
  obtain ⟨last, functions, globals, stores⟩ := decls_store ⟨topLevel_initial, rfl, Nat.one_ne_zero⟩ runDecls
    (clean_before judged.errors clean)
  have program : (g₁.completed s).emitter.program.functions = g₁.emitter.functions := by
    simp [Emitter.program, completed, finished, landed, aimed, last.top.current]
  have symbols : (g₁.completed s).scopes.all = g₁.scopes.all := by
    simp [completed, finished, landed, aimed]
  have size : dataBase + (g₁.completed s).emitter.program.globalSize = g₁.emitter.nextGlobal := by
    simp [Emitter.program, completed, finished, landed, aimed, Int64.add_comm dataBase]
  rw [program, symbols, size, stores.added, stores.declared]
  exact ⟨stores.frames, stores.laid⟩

end Codegen

end MiniC
