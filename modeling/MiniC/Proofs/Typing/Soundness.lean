import MiniC.Proofs.Generation.Growth
import MiniC.Proofs.Typing.Rules

namespace MiniC

open Typing

def Symbol.declaredAs (s : Symbol) : Declared :=
  match s.kind with
  | .var => .var
  | .array => .array
  | .func => .function (if s.type = .void then .void else .int) s.params

abbrev Scope.layer (s : Scope) : Layer :=
  s.view Symbol.declaredAs

abbrev Scopes.env (t : Scopes) : Env :=
  t.view Symbol.declaredAs

theorem Scopes.find?_env (t : Scopes) (name : Text) : t.env.find? name = (t.resolve? name).map Symbol.declaredAs :=
  t.find?_view _ name

theorem Scopes.declare_eq_ok {t t' : Scopes} {s : Symbol} (h : t.declare s = .ok t') :
    s.name ∉ t.current.layer.names ∧ t' = t.add s := by
  unfold declare at h
  split at h
  · cases h
  · rename_i absent
    cases h
    exact ⟨(t.current.find?_eq_none_iff _ s.name).mp absent, rfl⟩

theorem Scopes.declare_of_fresh {t : Scopes} {s : Symbol} (fresh : s.name ∉ t.current.layer.names) :
    t.declare s = .ok (t.add s) := by
  unfold declare
  rw [(t.current.find?_eq_none_iff _ s.name).mpr fresh]

theorem Scopes.layer_add (t : Scopes) (s : Symbol) :
    (t.add s).current.layer = t.current.layer ++ [(s.name, s.declaredAs)] :=
  t.view_add Symbol.declaredAs (fun _ _ => rfl) s

/-- What a symbol is like that was declared without complaint. -/
structure Symbol.Regular (s : Symbol) : Prop where
  word : s.kind ≠ .func → s.type = .int
  function : s.kind = .func → (s.type = .int ∨ s.type = .void) ∧ ∀ type ∈ s.params, type = .int ∨ type = .array
  builtin : s.builtin = true → s.name = Symbol.output.name ∧ s.type = .void ∧ s.params = [.int]

theorem Symbol.Regular.error_not_mem {s : Symbol} (h : s.Regular) (function : s.kind = .func) : .error ∉ s.params := by
  intro member
  rcases (h.function function).2 _ member with h | h <;> cases h

def Scopes.Regular (t : Scopes) : Prop :=
  ∀ scope ∈ t.visible, ∀ s ∈ scope.symbols, s.Regular

theorem Scopes.Regular.of_resolve? {t : Scopes} (h : t.Regular) {name : Text} {s : Symbol}
    (found : t.resolve? name = some s) : s.Regular := by
  obtain ⟨scope, member, found⟩ := List.exists_of_findSome?_eq_some found
  exact h scope member s (Scope.mem_of_find? found)

theorem Scopes.Regular.add {t : Scopes} (h : t.Regular) {s : Symbol} (regular : s.Regular) : (t.add s).Regular := by
  intro scope member symbol inside
  rcases List.mem_cons.mp member with rfl | member
  · rcases List.mem_append.mp inside with inside | inside
    · exact h t.current (by simp [visible]) symbol inside
    · rw [List.mem_singleton.mp inside]
      exact ⟨regular.word, regular.function, regular.builtin⟩
  · exact h scope (List.mem_cons_of_mem _ member) symbol inside

theorem Scopes.Regular.enter {t : Scopes} (h : t.Regular) : t.enter.Regular := by
  intro scope member s inside
  rcases List.mem_cons.mp member with rfl | member
  · cases inside
  · exact h scope member s inside

theorem Scopes.Regular.of_visible {t t' : Scopes} (h : t.Regular) (same : t'.visible = t.visible) : t'.Regular := by
  unfold Regular
  rw [same]
  exact h

theorem Scopes.env_of_visible {t t' : Scopes} (same : t'.visible = t.visible) : t'.env = t.env :=
  Scopes.view_of_visible _ same

theorem Typing.HasType.ne_error {Γ : Env} {e : Expr} {type : Ty} (h : HasType Γ e type) : type ≠ .error := by
  cases h with
  | call found args =>
    rename_i result params
    cases result <;> exact fun h => by cases h
  | _ => exact fun h => by cases h

theorem Typing.ParamOk.complete {p : Param} (ok : ParamOk p) : p.Complete := by
  cases p with
  | unnamed type => cases ok
  | named type id isArray => trivial

theorem Typing.HasTypes.length_eq {Γ : Env} {args : List Expr} {types : List Ty} (h : HasTypes Γ args types) :
    args.length = types.length := by
  induction args generalizing types with
  | nil => cases h; rfl
  | cons e rest ih =>
    cases h with
    | cons _ others => simp [ih others]

namespace Codegen

theorem Moves.clean {g g' : Codegen} (h : Moves g g') (clean : g'.errors = #[]) : g.errors = #[] := by
  have errors := h.errors
  rw [clean] at errors
  simpa using List.prefix_nil.mp errors

theorem judged_clean {g : Codegen} {line : Nat} {v : Verdict} (clean : (g.judged line v).errors = #[]) :
    v.error? = none := by
  cases v with
  | accepted => rfl
  | spoiled => rfl
  | rejected error => exact absurd clean Array.push_ne_empty

theorem not_clean_of_rejected {g : Codegen} {line : Nat} {v : Verdict} {error : SemanticError}
    (rejected : v = .rejected error) : (g.judged line v).errors ≠ #[] := by
  intro clean
  have silent := judged_clean clean
  rw [rejected] at silent
  cases silent

theorem integer_decided {x : Value} (mismatch : Ty → SemanticError) (typed : x.type ≠ .error) :
    (x.type = .int ∧ Check.integer x mismatch = .accepted) ∨ ∃ error, Check.integer x mismatch = .rejected error := by
  unfold Check.integer
  split
  · exact .inl ⟨by assumption, rfl⟩
  · exact absurd (by assumption) typed
  · split <;> exact .inr ⟨_, rfl⟩

theorem operands_decided {x y : Value} (typed : x.type ≠ .error) (typed' : y.type ≠ .error) :
    (x.type = .int ∧ y.type = .int ∧ Check.operands x y = .accepted) ∨ ∃ error, Check.operands x y = .rejected error := by
  unfold Check.operands Check.operand
  rcases integer_decided .operandType typed with ⟨int, accepted⟩ | ⟨error, rejected⟩
  · rw [accepted]
    rcases integer_decided .operandType typed' with ⟨int', accepted'⟩ | ⟨error, rejected⟩
    · exact .inl ⟨int, int', accepted'⟩
    · exact .inr ⟨error, rejected⟩
  · rw [rejected]
    exact .inr ⟨error, rfl⟩

theorem assignment_decided {x y : Value} (typed : x.type ≠ .error) (typed' : y.type ≠ .error) :
    (x.assignable = true ∧ y.type = .int ∧ Check.assignment x y = .accepted) ∨
      ∃ error, Check.assignment x y = .rejected error := by
  unfold Check.assignment
  rw [if_neg typed]
  split
  · rename_i assignable
    rcases integer_decided .assignedType typed' with ⟨int, accepted⟩ | ⟨error, rejected⟩
    · exact .inl ⟨assignable, int, accepted⟩
    · exact .inr ⟨error, rejected⟩
  · exact .inr ⟨_, rfl⟩

theorem index_decided {s : Symbol} {x : Value} (typed : x.type ≠ .error) :
    (s.kind = .array ∧ x.type = .int ∧ Check.index s x = .accepted) ∨ ∃ error, Check.index s x = .rejected error := by
  unfold Check.index
  split
  · rename_i array
    split
    · exact .inl ⟨array, by assumption, rfl⟩
    · exact absurd (by assumption) typed
    · exact .inr ⟨_, rfl⟩
  · exact .inr ⟨_, rfl⟩

/-- The value that an expression has led to is of the type that the rules give. -/
structure ValueOk (Γ : Env) (e : Expr) (v : Value) : Prop where
  type : HasType Γ e v.type
  place : v.assignable = true → IsPlace e ∧ v.type = .int

theorem require_clean {holds : Bool} {error : SemanticError} (clean : (Verdict.require holds error).error? = none) :
    holds = true := by
  cases holds with
  | true => rfl
  | false => cases clean

theorem name_sound {id : Ident} {g g' : Codegen} {v : Value} (regular : g.scopes.Regular)
    (run : (name id).run g = .ok v g') (clean : g'.errors = #[]) : ValueOk g.scopes.env (.name id) v := by
  have found := g.scopes.find?_env id.name
  cases resolved : g.scopes.resolve? id.name with
  | none =>
    rw [run_name_none resolved] at run
    cases run
    cases judged_clean clean
  | some s =>
    rw [resolved] at found
    rw [run_name_some resolved] at run
    cases run
    have notFunction : s.kind ≠ .func := by simpa using require_clean (judged_clean clean)
    have type := (regular.of_resolve? resolved).word notFunction
    have role : s.declaredAs = if s.kind = .array then .array else .var := by
      unfold Symbol.declaredAs
      cases kind : s.kind <;> simp_all
    by_cases array : s.kind = .array
    · have value : (nameValue s).type = .array := by simp [nameValue, type, array]
      have assignable : (nameValue s).assignable = false := by simp [nameValue, type, array]
      exact ⟨value ▸ .array (by simp [found, role, array]), by simp [assignable]⟩
    · have value : (nameValue s).type = .int := by simp [nameValue, notFunction, type, array]
      exact ⟨value ▸ .var (by simp [found, role, array]), fun _ => ⟨trivial, value⟩⟩

theorem index_sound {id : Ident} {e : Expr} {g g₁ g' : Codegen} {x v : Value} (typed : ValueOk g.scopes.env e x)
    (same : g₁.scopes.visible = g.scopes.visible) (run : (index id x).run g₁ = .ok v g')
    (clean : g'.errors = #[]) : ValueOk g.scopes.env (.index id e) v := by
  have found := g₁.scopes.find?_env id.name
  rw [Scopes.env_of_visible same] at found
  cases resolved : g₁.scopes.resolve? id.name with
  | none =>
    rw [run_index_none resolved] at run
    cases run
    cases judged_clean clean
  | some s =>
    rw [resolved] at found
    rcases @index_decided s x typed.type.ne_error with ⟨array, int, accepted⟩ | ⟨error, rejected⟩
    · rw [run_index_accepted resolved accepted] at run
      cases run
      exact ⟨.index (by simp [found, Symbol.declaredAs, array]) (int ▸ typed.type), fun _ => ⟨trivial, rfl⟩⟩
    · rw [run_index_refused resolved (by simp [rejected])] at run
      cases run
      exact absurd clean (not_clean_of_rejected rejected)

theorem unary_sound {op : UnaryOp} {line : Nat} {e : Expr} {Γ : Env} {g g' : Codegen} {x v : Value}
    (typed : ValueOk Γ e x) (run : (unary op line x).run g = .ok v g') (clean : g'.errors = #[]) :
    ValueOk Γ (.unary op line e) v := by
  rcases integer_decided .operandType typed.type.ne_error with ⟨int, accepted⟩ | ⟨error, rejected⟩
  · rw [run_unary_accepted accepted] at run
    cases run
    exact ⟨.unary (int ▸ typed.type), fun h => by cases h⟩
  · rw [run_unary_refused (by simp [Check.operand, rejected])] at run
    cases run
    exact absurd clean (not_clean_of_rejected rejected)

section Operators

variable {op : BinaryOp} {line : Nat} {left right : Expr} {Γ : Env} {g g' : Codegen} {x y v : Value}

theorem binary_sound (known : op.opcode?.isSome) (typed : ValueOk Γ left x) (typed' : ValueOk Γ right y)
    (run : (binary op line x y).run g = .ok v g') (clean : g'.errors = #[]) :
    ValueOk Γ (.binary op line left right) v := by
  obtain ⟨operation, known⟩ := Option.isSome_iff_exists.mp known
  rcases operands_decided typed.type.ne_error typed'.type.ne_error with ⟨int, int', accepted⟩ | ⟨error, rejected⟩
  · rw [run_binary_accepted known accepted] at run
    cases run
    exact ⟨.binary (int ▸ typed.type) (int' ▸ typed'.type), fun h => by cases h⟩
  · rw [run_binary_refused (by simp [rejected])] at run
    cases run
    exact absurd clean (not_clean_of_rejected rejected)

theorem endLogical_clean {l : Option Logical} (jumps : ∀ l' ∈ l, g.Jumps l'.jump)
    (run : (endLogical l line y).run g = .ok v g') (clean : g'.errors = #[]) : g.errors = #[] := by
  have judged : (g.judged line (Check.operand y)).errors = #[] → g.errors = #[] :=
    (Moves.judged g line (Check.operand y)).clean
  cases l with
  | none =>
    rw [run_endLogical_none] at run
    cases run
    exact judged clean
  | some l =>
    by_cases accepted : Check.operand y = .accepted
    · rw [run_endLogical_accepted accepted (jumps l rfl)] at run
      cases run
      exact clean
    · rw [run_endLogical_refused accepted (jumps l rfl)] at run
      cases run
      exact judged clean

theorem logical_sound {conjunction : Bool} {g₁ g₂ : Codegen} {l : Option Logical} (typed : ValueOk Γ left x)
    (typed' : ValueOk Γ right y) (start : (beginLogical conjunction line x).run g = .ok l g₁)
    (kept : Keeps g₁ g₂) (finish : (endLogical l line y).run g₂ = .ok v g') (clean : g'.errors = #[]) :
    ValueOk Γ (.binary op line left right) v := by
  rcases integer_decided .operandType typed.type.ne_error with ⟨int, accepted⟩ | ⟨error, rejected⟩
  · rw [run_beginLogical_accepted accepted] at start
    cases start
    obtain ⟨jump, found, isJump, _⟩ := branched_jump g conjunction x.operand
    have jumps := kept.toMoves.jumps ⟨jump, found, by rw [isJump]; rfl⟩
    rcases integer_decided .operandType typed'.type.ne_error with ⟨int', accepted'⟩ | ⟨error, rejected⟩
    · rw [run_endLogical_accepted accepted' jumps] at finish
      cases finish
      exact ⟨.binary (int ▸ typed.type) (int' ▸ typed'.type), fun h => by cases h⟩
    · rw [run_endLogical_refused (by simp [Check.operand, rejected]) jumps] at finish
      cases finish
      exact absurd clean (not_clean_of_rejected rejected)
  · rw [run_beginLogical_refused (by simp [Check.operand, rejected])] at start
    cases start
    rw [run_endLogical_none] at finish
    cases finish
    have before := (kept.toMoves.trans (.judged g₂ line (Check.operand y))).clean clean
    exact absurd before (not_clean_of_rejected rejected)

theorem assign_sound (typed : ValueOk Γ left x) (typed' : ValueOk Γ right y)
    (run : (assign line x y).run g = .ok v g') (clean : g'.errors = #[]) :
    ValueOk Γ (.assign line left right) v := by
  rcases assignment_decided typed.type.ne_error typed'.type.ne_error with ⟨assignable, int', accepted⟩ | ⟨error, rejected⟩
  · rw [run_assign_accepted accepted] at run
    cases run
    exact ⟨.assign (typed.place assignable).1 ((typed.place assignable).2 ▸ typed.type) (int' ▸ typed'.type),
      fun h => by cases h⟩
  · rw [run_assign_refused (by simp [rejected])] at run
    cases run
    exact absurd clean (not_clean_of_rejected rejected)

end Operators

theorem argument_sound {c c' : Call} {x : Value} {g g' : Codegen} {s : Symbol} (callee : c.callee = some s)
    (known : .error ∉ s.params) (typed : x.type ≠ .error) (run : (argument c x).run g = .ok c' g')
    (clean : g'.errors = #[]) :
    c'.callee = some s ∧ c'.count = c.count + 1 ∧ ∀ type, s.params[c.count]? = some type → x.type = type := by
  rw [run_argument callee] at run
  have judged : (g.judged c.line (Check.argument s c.count x)).errors = #[] := by
    dsimp only at run
    split at run
    · cases run
      exact clean
    · split at run
      · cases run
        exact clean
      · cases run
        exact (((Keeps.passing _ x).trans (.emitted _ _)).toMoves).clean clean
  have silent := judged_clean judged
  refine ⟨?_, ?_, ?_⟩
  · dsimp only at run
    split at run
    · cases run
      exact callee
    · split at run <;>
      · cases run
        exact callee
  · dsimp only at run
    split at run
    · cases run
      rfl
    · split at run <;>
      · cases run
        rfl
  · intro type wanted
    unfold Check.argument at silent
    rw [wanted] at silent
    simp only [if_neg typed] at silent
    have accepted := require_clean silent
    have member : type ≠ .error := fun h => known (h ▸ List.mem_of_getElem? wanted)
    simpa [member] using accepted

def SoundAt (e : Expr) : Prop :=
  ∀ (g g' : Codegen) (v : Value), g.scopes.Regular → (expr e).run g = .ok v g' → g'.errors = #[] →
    ValueOk g.scopes.env e v

theorem arguments_sound {args : List Expr} (sound : ∀ e ∈ args, SoundAt e) {c c' : Call} {g g' : Codegen} {s : Symbol}
    (callee : c.callee = some s) (known : .error ∉ s.params) (regular : g.scopes.Regular)
    (run : (arguments c args).run g = .ok c' g') (clean : g'.errors = #[]) :
    c'.callee = some s ∧ c'.count = c.count + args.length ∧
      (c.count + args.length = s.params.length → HasTypes g.scopes.env args (s.params.drop c.count)) := by
  induction args generalizing c g with
  | nil =>
    cases run
    refine ⟨callee, rfl, fun all => ?_⟩
    rw [List.drop_eq_nil_of_le (by simpa using Nat.le_of_eq all.symm)]
    exact .nil
  | cons e rest ih =>
    rw [arguments] at run
    obtain ⟨x, g₁, runFirst, run⟩ := bind_ok run
    obtain ⟨c₁, g₂, runArgument, run⟩ := bind_ok run
    have kept₁ := Keeps.of_expr runFirst
    have kept₂ := Keeps.of_argument runArgument
    have clean₂ := (Keeps.of_arguments run).toMoves.clean clean
    have first := sound e (by simp) _ _ _ regular runFirst (kept₂.toMoves.clean clean₂)
    obtain ⟨callee₁, count₁, type₁⟩ := argument_sound callee known first.type.ne_error runArgument clean₂
    have visible : g₂.scopes.visible = g.scopes.visible := kept₂.visible.trans kept₁.visible
    obtain ⟨callee', count', types'⟩ :=
      ih (fun e member => sound e (by simp [member])) callee₁ (regular.of_visible visible) run
    refine ⟨callee', by simp [count', count₁]; omega, fun all => ?_⟩
    simp only [List.length_cons] at all
    have bound : c.count < s.params.length := by omega
    rw [List.drop_eq_getElem_cons bound]
    rw [Scopes.env_of_visible visible] at types'
    refine .cons ?_ ?_
    · exact type₁ _ (List.getElem?_eq_getElem bound) ▸ first.type
    · exact count₁ ▸ types' (by omega)

theorem endCall_sound {c : Call} {g g' : Codegen} {v : Value} {s : Symbol} (calls : c.callee = some s)
    (regular : s.Regular) (function : s.kind = .func) (run : (endCall c).run g = .ok v g') (clean : g'.errors = #[]) :
    c.count = s.params.length ∧ v.type = s.type ∧ v.assignable = false := by
  rw [run_endCall calls] at run
  dsimp only at run
  have counted : (g.judged c.line (Check.argumentCount s c.count)).errors = #[] → c.count = s.params.length := by
    intro clean
    have accepted := require_clean (judged_clean clean)
    simp only [decide_eq_true_eq] at accepted
    omega
  split at run
  · rename_i builtin
    cases run
    refine ⟨counted ?_, (regular.builtin builtin).2.1.symm, rfl⟩
    split at clean <;> exact clean
  · split at run
    · rename_i void
      cases run
      exact ⟨counted clean, void.symm, rfl⟩
    · rename_i notVoid
      cases run
      have int : s.type = .int := by
        rcases (regular.function function).1 with int | void
        · exact int
        · exact absurd void notVoid
      exact ⟨counted clean, int.symm, rfl⟩

theorem call_sound {callee : Ident} {args : List Expr} (sound : ∀ e ∈ args, SoundAt e) : SoundAt (.call callee args) := by
  intro g g' v regular run clean
  rw [expr] at run
  obtain ⟨c, g₁, runBegin, runRest⟩ := bind_ok run
  obtain ⟨c', g₂, runArguments, runEnd⟩ := bind_ok runRest
  have found := g.scopes.find?_env callee.name
  have clean₂ := (Keeps.of_endCall runEnd).toMoves.clean clean
  have clean₁ := (Keeps.of_arguments runArguments).toMoves.clean clean₂
  cases resolved : g.scopes.resolve? callee.name with
  | none =>
    rw [run_beginCall_none resolved] at runBegin
    cases runBegin
    cases judged_clean clean₁
  | some s =>
    rw [resolved] at found
    by_cases function : s.kind = .func
    · rw [run_beginCall_function resolved function] at runBegin
      cases runBegin
      have regular' := regular.of_resolve? resolved
      obtain ⟨type, _⟩ := regular'.function function
      obtain ⟨calls, count, types⟩ :=
        arguments_sound sound rfl (regular'.error_not_mem function) regular runArguments clean₂
      obtain ⟨all, value, assignable⟩ := endCall_sound calls regular' function runEnd clean
      have arguments : HasTypes g.scopes.env args s.params := by simpa using types (count ▸ all)
      refine ⟨?_, by simp [assignable]⟩
      rw [value]
      rcases type with int | void
      · have call : HasType g.scopes.env (.call callee args) (TypeName.ty .int) :=
          .call (by simp [found, Symbol.declaredAs, function, int]) arguments
        rwa [int]
      · have call : HasType g.scopes.env (.call callee args) (TypeName.ty .void) :=
          .call (by simp [found, Symbol.declaredAs, function, void]) arguments
        rwa [void]
    · rw [run_beginCall_other resolved function] at runBegin
      cases runBegin
      cases judged_clean clean₁

theorem expr_sound (e : Expr) (complete : e.Complete) : SoundAt e := by
  induction e using Expr.induction with
  | missing => cases complete
  | number n =>
    intro g g' v regular run clean
    rw [expr] at run
    cases run
    refine ⟨?_, fun h => by cases h⟩
    cases real : n.real with
    | false => simpa [number, real] using HasType.integer real
    | true => simpa [number, real] using HasType.real real
  | name id =>
    intro g g' v regular run clean
    rw [expr] at run
    exact name_sound regular run clean
  | index array e ih =>
    intro g g' v regular run clean
    rw [expr] at run
    obtain ⟨x, g₁, runFirst, runIndex⟩ := bind_ok run
    have clean₁ := ((yields_index array x g₁).of_run runIndex).toMoves.clean clean
    have first := ih complete _ _ _ regular runFirst clean₁
    exact index_sound first (Keeps.of_expr runFirst).visible runIndex clean
  | call callee args ih => exact call_sound fun e member => ih e member (Expr.AllComplete.of_mem complete member)
  | unary op line e ih =>
    intro g g' v regular run clean
    rw [expr] at run
    obtain ⟨x, g₁, runFirst, runUnary⟩ := bind_ok run
    have clean₁ := ((yields_unary op line x g₁).of_run runUnary).toMoves.clean clean
    exact unary_sound (ih complete _ _ _ regular runFirst clean₁) runUnary clean
  | binary op line left right ihl ihr =>
    intro g g' v regular run clean
    have logical : ∀ conjunction, (do
        let x ← expr left
        let l ← beginLogical conjunction line x
        let y ← expr right
        endLogical l line y).run g = .ok v g' → ValueOk g.scopes.env (.binary op line left right) v := by
      intro conjunction run
      obtain ⟨x, g₁, runLeft, run₁⟩ := bind_ok run
      obtain ⟨l, g₂, runBegin, run₂⟩ := bind_ok run₁
      obtain ⟨y, g₃, runRight, runEnd⟩ := bind_ok run₂
      have kept₁ := Keeps.of_expr runLeft
      obtain ⟨kept₂, jumps⟩ := beginLogical_jumps runBegin
      have kept₃ := Keeps.of_expr runRight
      have clean₃ := endLogical_clean (fun l' member => kept₃.toMoves.jumps (jumps l' member)) runEnd clean
      have visible : g₂.scopes.visible = g.scopes.visible := kept₂.visible.trans kept₁.visible
      have first := ihl complete.1 _ _ _ regular runLeft (kept₂.toMoves.clean (kept₃.toMoves.clean clean₃))
      have second := ihr complete.2 _ _ _ (regular.of_visible visible) runRight clean₃
      rw [Scopes.env_of_visible visible] at second
      exact logical_sound first second runBegin kept₃ runEnd clean
    have strict : op.opcode?.isSome → (do
        let x ← expr left
        let y ← expr right
        binary op line x y).run g = .ok v g' → ValueOk g.scopes.env (.binary op line left right) v := by
      intro known run
      obtain ⟨x, g₁, runLeft, run₁⟩ := bind_ok run
      obtain ⟨y, g₂, runRight, runBinary⟩ := bind_ok run₁
      have kept₁ := Keeps.of_expr runLeft
      have clean₂ := ((yields_binary known line x y g₂).of_run runBinary).toMoves.clean clean
      have first := ihl complete.1 _ _ _ regular runLeft ((Keeps.of_expr runRight).toMoves.clean clean₂)
      have second := ihr complete.2 _ _ _ (regular.of_visible kept₁.visible) runRight clean₂
      rw [Scopes.env_of_visible kept₁.visible] at second
      exact binary_sound known first second runBinary clean
    cases op with
    | or => exact logical _ (by simpa only [expr] using run)
    | and => exact logical _ (by simpa only [expr] using run)
    | _ => exact strict rfl (by simpa only [expr] using run)
  | assign line target value iht ihv =>
    intro g g' v regular run clean
    rw [expr] at run
    obtain ⟨x, g₁, runTarget, run₁⟩ := bind_ok run
    obtain ⟨y, g₂, runValue, runAssign⟩ := bind_ok run₁
    have kept₁ := Keeps.of_expr runTarget
    have clean₂ := ((yields_assign line x y g₂).of_run runAssign).toMoves.clean clean
    have first := iht complete.1 _ _ _ regular runTarget ((Keeps.of_expr runValue).toMoves.clean clean₂)
    have second := ihv complete.2 _ _ _ (regular.of_visible kept₁.visible) runValue clean₂
    rw [Scopes.env_of_visible kept₁.visible] at second
    exact assign_sound first second runAssign clean

theorem Declares.clean {g g' : Codegen} (h : Declares g g') (clean : g'.errors = #[]) : g.errors = #[] := by
  have errors := h.errors
  rw [clean] at errors
  simpa using List.prefix_nil.mp errors

structure Enlarges (g g' : Codegen) (added : Layer) : Prop where
  layer : g'.scopes.current.layer = g.scopes.current.layer ++ added
  outer : g'.scopes.outer = g.scopes.outer
  regular : g.scopes.Regular → g'.scopes.Regular
  distinct : g.scopes.current.layer.names.Nodup → g'.scopes.current.layer.names.Nodup

theorem Enlarges.refl (g : Codegen) : Enlarges g g [] :=
  ⟨by simp, rfl, id, id⟩

theorem Enlarges.trans {f g h : Codegen} {a b : Layer} (first : Enlarges f g a) (second : Enlarges g h b) :
    Enlarges f h (a ++ b) :=
  ⟨by rw [second.layer, first.layer, List.append_assoc], second.outer.trans first.outer,
    fun regular => second.regular (first.regular regular), fun distinct => second.distinct (first.distinct distinct)⟩

theorem Enlarges.added {g g' : Codegen} {s : Symbol} (scopes : g'.scopes = g.scopes.add s) (regular : s.Regular)
    (fresh : s.name ∉ g.scopes.current.layer.names) : Enlarges g g' [(s.name, s.declaredAs)] := by
  have layer : g'.scopes.current.layer = g.scopes.current.layer ++ [(s.name, s.declaredAs)] := by
    rw [scopes, Scopes.layer_add]
  refine ⟨layer, by rw [scopes]; rfl, fun all => scopes ▸ all.add regular, fun distinct => ?_⟩
  rw [layer, Bindings.names, List.map_append, List.nodup_append]
  refine ⟨distinct, by simp, ?_⟩
  intro a member b last
  rintro rfl
  simp only [List.map_cons, List.map_nil, List.mem_singleton] at last
  exact fresh (last ▸ member)

theorem variableType_sound {g : Codegen} {line : Nat} {name : Text} {type : TypeName}
    (clean : (g.judged line (Check.variableType name type.ty)).errors = #[]) : type = .int := by
  have accepted := require_clean (judged_clean clean)
  cases type with
  | int => rfl
  | void => simp [TypeName.ty] at accepted

theorem varDecl_sound {d : VarDecl} {g g' : Codegen} (run : (varDecl d).run g = .ok () g') (clean : g'.errors = #[]) :
    VarOk d ∧ d.id.name ∉ g.scopes.current.layer.names ∧ Enlarges g g' (varLayer [d]) := by
  rw [run_varDecl] at run
  have examined : (g.examined d).errors = #[] → VarOk d := by
    intro clean
    refine ⟨variableType_sound ((Moves.judged _ _ _).clean clean), fun n extent integer => ?_⟩
    have silent := judged_clean clean
    simp only [extentVerdict, extent, sizeVerdict, integer] at silent
    simpa using require_clean silent
  cases declared : g.scopes.declare (varSymbol d g.temp) with
  | error earlier =>
    rw [declared] at run
    cases run
    cases judged_clean clean
  | ok scopes =>
    rw [declared] at run
    cases run
    obtain ⟨fresh, rfl⟩ := Scopes.declare_eq_ok declared
    have ok := examined clean
    refine ⟨ok, fresh, ?_⟩
    have regular : (varSymbol d g.temp).Regular := by
      refine ⟨fun _ => by simp [varSymbol, ok.type], fun function => ?_, fun h => by cases h⟩
      simp only [varSymbol] at function
      split at function <;> cases function
    have role : [((varSymbol d g.temp).name, (varSymbol d g.temp).declaredAs)] = varLayer [d] := by
      rcases d with ⟨type, id, extent⟩
      cases extent <;> rfl
    exact role ▸ Enlarges.added rfl regular fresh

theorem vars_sound {vars : List VarDecl} {g g' : Codegen} (run : (vars.forM varDecl).run g = .ok () g')
    (clean : g'.errors = #[]) : (∀ d ∈ vars, VarOk d) ∧ Enlarges g g' (varLayer vars) := by
  induction vars generalizing g with
  | nil =>
    cases run
    exact ⟨by simp, .refl _⟩
  | cons d rest ih =>
    change (varDecl d >>= fun _ => rest.forM varDecl).run g = _ at run
    obtain ⟨_, g₁, runFirst, runRest⟩ := bind_ok run
    obtain ⟨oks, enlarges'⟩ := ih runRest
    obtain ⟨ok, _, enlarges⟩ := varDecl_sound runFirst (((yields_vars rest g₁).of_run runRest).1.clean clean)
    refine ⟨fun d' member => ?_, enlarges.trans enlarges'⟩
    rcases List.mem_cons.mp member with rfl | member
    · exact ok
    · exact oks d' member

theorem param_sound {p : Param} {g g' : Codegen} (complete : p.Complete) (run : (param p).run g = .ok () g')
    (clean : g'.errors = #[]) : ParamOk p ∧ Enlarges g g' (paramLayer [p]) := by
  cases p with
  | unnamed type => cases complete
  | named type id isArray =>
    rw [run_param_named] at run
    dsimp only at run
    cases declared : g.scopes.declare (paramSymbol type id isArray g.temp) with
    | error earlier =>
      rw [declared] at run
      cases run
      have judged := (Declares.allocated _ (paramSymbol type id isArray g.temp)).clean clean
      cases judged_clean judged
    | ok scopes =>
      rw [declared] at run
      cases run
      obtain ⟨fresh, rfl⟩ := Scopes.declare_eq_ok declared
      have int := variableType_sound ((Declares.allocated _ (paramSymbol type id isArray g.temp)).clean clean)
      refine ⟨int, ?_⟩
      have regular : (paramSymbol type id isArray g.temp).Regular := by
        refine ⟨fun _ => by simp [paramSymbol, int], fun function => ?_, fun h => by cases h⟩
        simp only [paramSymbol] at function
        split at function <;> cases function
      have role : [((paramSymbol type id isArray g.temp).name, (paramSymbol type id isArray g.temp).declaredAs)] =
          paramLayer [.named type id isArray] := by
        cases isArray <;> rfl
      exact role ▸ Enlarges.added rfl regular fresh

theorem params_sound {params : List Param} {g g' : Codegen} (complete : ∀ p ∈ params, p.Complete)
    (run : (params.forM param).run g = .ok () g') (clean : g'.errors = #[]) :
    (∀ p ∈ params, ParamOk p) ∧ Enlarges g g' (paramLayer params) := by
  induction params generalizing g with
  | nil =>
    cases run
    exact ⟨by simp, .refl _⟩
  | cons p rest ih =>
    change (param p >>= fun _ => rest.forM param).run g = _ at run
    obtain ⟨_, g₁, runFirst, runRest⟩ := bind_ok run
    obtain ⟨oks, enlarges'⟩ := ih (fun p member => complete p (by simp [member])) runRest
    obtain ⟨ok, enlarges⟩ :=
      param_sound (complete p (by simp)) runFirst (((yields_params rest g₁).of_run runRest).clean clean)
    have layers : paramLayer (p :: rest) = paramLayer [p] ++ paramLayer rest := by
      rw [paramLayer, paramLayer, paramLayer, ← List.filterMap_append]
      rfl
    refine ⟨fun p' member => ?_, layers ▸ enlarges.trans enlarges'⟩
    rcases List.mem_cons.mp member with rfl | member
    · exact ok
    · exact oks p' member

def StmtSoundAt (result : TypeName) (s : Stmt) : Prop :=
  ∀ (g g' : Codegen), g.scopes.Regular → g.ExitsOpen → (∃ f, g.function = some f ∧ f.type = result.ty) →
    (stmt s).run g = .ok () g' → g'.errors = #[] → StmtOk result (!g.loops.isEmpty) g.scopes.env s

theorem LoopsGrow.isEmpty {low : Nat} {code : Array Instruction} {x y : List Loop} (h : LoopsGrow low code x y) :
    y.isEmpty = x.isEmpty := by
  match x, y, h with
  | [], [], _ => rfl
  | _ :: _, _ :: _, _ => rfl

theorem stmts_sound {result : TypeName} {body : List Stmt} (sound : ∀ s ∈ body, StmtSoundAt result s) {g g' : Codegen}
    (regular : g.scopes.Regular) (exits : g.ExitsOpen) (function : ∃ f, g.function = some f ∧ f.type = result.ty)
    (run : (stmts body).run g = .ok () g') (clean : g'.errors = #[]) :
    ∀ s ∈ body, StmtOk result (!g.loops.isEmpty) g.scopes.env s := by
  induction body generalizing g with
  | nil => exact fun s member => by cases member
  | cons s rest ih =>
    rw [stmts] at run
    obtain ⟨_, g₁, runFirst, runRest⟩ := bind_ok run
    have grows := (yields_stmt s g exits).of_run runFirst
    have exits₁ := grows.toMoves.exitsOpen exits
    have grows' := (yields_stmts (fun s _ => yields_stmt s) g₁ exits₁).of_run runRest
    have first := sound s (by simp) g g₁ regular exits function runFirst (grows'.toMoves.clean clean)
    have others := ih (fun s member => sound s (by simp [member])) (regular.of_visible grows.visible) exits₁
      (grows.function ▸ function) runRest
    rw [grows.loops.isEmpty, Scopes.env_of_visible grows.visible] at others
    intro s' member
    rcases List.mem_cons.mp member with rfl | member
    · exact first
    · exact others s' member

theorem block_sound {result : TypeName} {vars : List VarDecl} {body : List Stmt}
    (sound : ∀ s ∈ body, StmtSoundAt result s) : StmtSoundAt result (.block vars body) := by
  intro g g' regular exits function run clean
  obtain ⟨g₁, g₂, scopes, runVars, declares, moves, runBody, grows, _, _, run', _⟩ :=
    @block_cases vars body g (yields_stmts fun s _ => yields_stmt s) exits
  rw [run'] at run
  cases run
  obtain ⟨oks, enlarges⟩ := vars_sound runVars (grows.toMoves.clean clean)
  have inside := stmts_sound sound (enlarges.regular regular.enter) (moves.exitsOpen exits)
    (moves.function ▸ function) runBody clean
  have env : g₁.scopes.env = varLayer vars :: g.scopes.env := by
    simp only [Scopes.env, Scopes.view, Scopes.visible, List.map_cons, enlarges.layer, enlarges.outer]
    rfl
  rw [moves.loops.isEmpty, env] at inside
  have distinct := enlarges.distinct List.nodup_nil
  rw [enlarges.layer] at distinct
  exact .block oks distinct inside

section Branches

variable {result : TypeName} {line : Nat} {e : Expr} {body orElse : Stmt}

theorem condition_sound {g g₁ : Codegen} {x : Value} (complete : e.Complete) (regular : g.scopes.Regular)
    (run : (expr e).run g = .ok x g₁) (clean : (g₁.guarded line x).errors = #[]) : HasType g.scopes.env e .int := by
  have judged : (g₁.judged line (Check.operand x)).errors = #[] := clean
  have typed := (expr_sound e complete _ _ _ regular run ((Moves.judged _ _ _).clean judged)).type
  rcases integer_decided .operandType typed.ne_error with ⟨int, accepted⟩ | ⟨error, rejected⟩
  · exact int ▸ typed
  · exact absurd judged (not_clean_of_rejected rejected)

theorem ifThen_sound (complete : e.Complete) (sound : StmtSoundAt result body) :
    StmtSoundAt result (.ifThen line e body) := by
  intro g g' regular exits function run clean
  obtain ⟨x, g₁, g₂, runCondition, kept, runBody, grows, run', _⟩ := @ifThen_cases line e body g (yields_stmt body) exits
  rw [run'] at run
  cases run
  have clean₂ : g₂.errors = #[] := clean
  have entered := kept.trans (.guarded g₁ line x)
  have inside := sound _ _ (regular.of_visible entered.visible) (entered.toMoves.exitsOpen exits)
    (entered.function ▸ function) runBody clean₂
  rw [entered.sameLoops, Scopes.env_of_visible entered.visible] at inside
  exact .ifThen (condition_sound complete regular runCondition (grows.toMoves.clean clean₂)) inside

theorem ifElse_sound (complete : e.Complete) (sound : StmtSoundAt result body) (sound' : StmtSoundAt result orElse) :
    StmtSoundAt result (.ifElse line e body orElse) := by
  intro g g' regular exits function run clean
  obtain ⟨x, g₁, g₂, g₃, runCondition, kept, runBody, grows, runElse, grows', run', _⟩ :=
    @ifElse_cases line e body orElse g (yields_stmt body) (yields_stmt orElse) exits
  rw [run'] at run
  cases run
  have clean₃ : g₃.errors = #[] := clean
  have clean₂ : g₂.errors = #[] := grows'.toMoves.clean clean₃
  have entered := kept.trans (.guarded g₁ line x)
  have inside := sound _ _ (regular.of_visible entered.visible) (entered.toMoves.exitsOpen exits)
    (entered.function ▸ function) runBody clean₂
  rw [entered.sameLoops, Scopes.env_of_visible entered.visible] at inside
  have turned : Grows g (g₂.turned g₁.code.size) := .ifThen kept exits (grows.trans (.emitted g₂ openJump))
  have other := sound' _ _ (regular.of_visible turned.visible) (turned.toMoves.exitsOpen exits)
    (turned.function ▸ function) runElse clean₃
  rw [turned.loops.isEmpty, Scopes.env_of_visible turned.visible] at other
  exact .ifElse (condition_sound complete regular runCondition (grows.toMoves.clean clean₂)) inside other

theorem loop_sound (complete : e.Complete) (sound : StmtSoundAt result body) :
    StmtSoundAt result (.loop line e body) := by
  intro g g' regular exits function run clean
  obtain ⟨x, g₁, g₂, l, outer, runCondition, kept, runBody, grows, _, run', _, _⟩ :=
    @loop_cases line e body g (yields_stmt body) exits
  rw [run'] at run
  cases run
  have clean₂ : g₂.errors = #[] := by
    have same : (({ (g₂.returnedTo g.code.size g₁.code.size).landedAll l.exits with loops := outer } : Codegen)).errors =
        g₂.errors := by
      rw [landedAll_eq]
      rfl
    rw [← same]
    exact clean
  have entered := kept.trans (.guarded g₁ line x)
  have inside := sound _ _ (regular.of_visible entered.visible) (entered.toMoves.exitsOpen exits.looping)
    (entered.function ▸ function) runBody clean₂
  rw [entered.sameLoops, Scopes.env_of_visible entered.visible] at inside
  have condition : HasType g.looping.scopes.env e .int :=
    condition_sound complete regular runCondition (grows.toMoves.clean clean₂)
  exact .loop condition inside

end Branches

theorem ret_sound {result : TypeName} {line : Nat} {value : Option Expr} (complete : (Stmt.ret line value).Complete) :
    StmtSoundAt result (.ret line value) := by
  intro g g' regular exits ⟨f, function, type⟩ run clean
  cases value with
  | none =>
    rw [stmt, run_ret] at run
    cases run
    have judged : (g.judged line (g.resultVerdict none)).errors = #[] := clean
    have silent := judged_clean judged
    simp only [resultVerdict, function, Check.result, type] at silent
    cases result with
    | void => exact .ret rfl
    | int => cases silent
  | some e =>
    rw [stmt] at run
    obtain ⟨x, g₁, runValue, runRet⟩ := bind_ok run
    have kept := Keeps.of_expr runValue
    rw [run_ret] at runRet
    cases runRet
    have judged : (g₁.judged line (g₁.resultVerdict (some x))).errors = #[] := clean
    have typed := (expr_sound e complete _ _ _ regular runValue ((Moves.judged _ _ _).clean judged)).type
    have verdict : g₁.resultVerdict (some x) = Check.result f (some x) := by
      simp only [resultVerdict, kept.function, function]
    rw [verdict] at judged
    simp only [Check.result, type] at judged
    cases result with
    | void => cases judged_clean judged
    | int =>
      rcases integer_decided (.returnType f.name) typed.ne_error with ⟨int, accepted⟩ | ⟨error, rejected⟩
      · exact .value rfl (int ▸ typed)
      · exact absurd judged (not_clean_of_rejected rejected)

theorem stmt_sound (result : TypeName) (s : Stmt) (complete : s.Complete) : StmtSoundAt result s := by
  induction s using Stmt.induction with
  | skipped => cases complete
  | empty => exact fun _ _ _ _ _ _ _ => .empty
  | expr e =>
    intro g g' regular exits function run clean
    rw [stmt] at run
    obtain ⟨x, g₁, runFirst, runRest⟩ := bind_ok run
    cases runRest
    exact .expr (expr_sound e complete _ _ _ regular runFirst clean).type
  | block vars body ih => exact block_sound fun s member => ih s member (complete.2.of_mem member)
  | ifThen line e body ih => exact ifThen_sound complete.1 (ih complete.2)
  | ifElse line e body orElse ih ih' => exact ifElse_sound complete.1 (ih complete.2.1) (ih' complete.2.2)
  | loop line e body ih => exact loop_sound complete.1 (ih complete.2)
  | ret line value => exact ret_sound complete
  | leave line =>
    intro g g' regular exits function run clean
    rw [stmt] at run
    cases loops : g.loops with
    | nil =>
      rw [run_leave_nil loops] at run
      cases run
      cases judged_clean clean
    | cons l outer => exact .leave
  | again line =>
    intro g g' regular exits function run clean
    rw [stmt] at run
    cases loops : g.loops with
    | nil =>
      rw [run_again_nil loops] at run
      cases run
      cases judged_clean clean
    | cons l outer => exact .again

theorem declare_sound {line : Nat} {s : Symbol} {g g' : Codegen} {isNew : Bool}
    (run : (declare line s).run g = .ok isNew g') (clean : g'.errors = #[]) :
    s.name ∉ g.scopes.current.layer.names ∧ g' = { g with scopes := g.scopes.add s } := by
  rw [run_declare] at run
  split at run
  · rename_i scopes declared
    cases run
    obtain ⟨fresh, rfl⟩ := Scopes.declare_eq_ok declared
    exact ⟨fresh, rfl⟩
  · cases run
    cases judged_clean clean

theorem paramTypes_eq {params : List Param} (ok : ∀ p ∈ params, ParamOk p) :
    Codegen.paramTypes params = Typing.paramTypes params := by
  induction params with
  | nil => rfl
  | cons p rest ih =>
    have later := ih fun p member => ok p (by simp [member])
    have valid := ok p (by simp)
    cases p with
    | unnamed type => exact later
    | named type id isArray =>
      have int : type = .int := valid
      subst int
      cases isArray <;> exact congrArg _ later

theorem mem_paramTypes {params : List Param} {type : Ty} (member : type ∈ Typing.paramTypes params) :
    type = .int ∨ type = .array := by
  obtain ⟨p, _, found⟩ := List.mem_filterMap.mp member
  cases p with
  | unnamed type' => cases found
  | named type' id isArray => cases isArray <;> cases found <;> simp

theorem funSymbol_regular {f : FunDecl} (entry : Nat) (ok : ∀ p ∈ f.params.toList, ParamOk p) :
    (funSymbol f entry).Regular := by
  refine ⟨fun h => absurd rfl h, fun _ => ⟨?_, ?_⟩, fun h => by cases h⟩
  · cases type : f.type <;> simp [funSymbol, type, TypeName.ty]
  · simp only [funSymbol, paramTypes_eq ok]
    exact fun _ => mem_paramTypes

theorem declaredAs_funSymbol {f : FunDecl} (entry : Nat) (ok : ∀ p ∈ f.params.toList, ParamOk p) :
    ((funSymbol f entry).name, (funSymbol f entry).declaredAs) = functionEntry f := by
  simp only [Symbol.declaredAs, funSymbol, paramTypes_eq ok, functionEntry]
  cases f.type <;> rfl

theorem announced_sound {g : Codegen} {f : FunDecl} {entry : Nat} (complete : ∀ p ∈ f.params.toList, p.Complete)
    (clean : (g.announced f (funSymbol f entry)).errors = #[]) :
    f.id.name = mainName → f.type = .void ∧ f.params.toList = [] := by
  intro isMain
  rw [announced, if_pos isMain] at clean
  have judged : (g.judged f.id.line (Check.mainSignature (funSymbol f entry))).errors = #[] := clean
  have accepted : (funSymbol f entry).type = .void ∧ (funSymbol f entry).params = [] := by
    simpa using require_clean (judged_clean judged)
  obtain ⟨void, none⟩ := accepted
  refine ⟨by cases type : f.type <;> simp_all [funSymbol, TypeName.ty], ?_⟩
  cases params : f.params.toList with
  | nil => rfl
  | cons p rest =>
    have named := complete p (by simp [params])
    cases p with
    | unnamed type => cases named
    | named type id isArray => simp [funSymbol, Codegen.paramTypes, params] at none

structure Prepared (f : FunDecl) (g g₁ g₃ : Codegen) : Prop where
  fresh : f.id.name ∉ g.scopes.current.layer.names
  added : g₁ = { g with scopes := g.scopes.add (funSymbol f g.code.size) }
  params : ∀ p ∈ f.params.toList, ParamOk p
  vars : ∀ d ∈ f.vars, VarOk d
  main : f.id.name = mainName → f.type = .void ∧ f.params.toList = []
  distinct : (localLayer f).names.Nodup
  globals : g₁.scopes.Regular
  regular : g₃.scopes.Regular
  layer : g₁.scopes.current.layer = g.scopes.current.layer ++ [functionEntry f]
  outer : g₃.scopes.outer = [g₁.scopes.current]
  env : g₃.scopes.env = [localLayer f, g.scopes.current.layer ++ [functionEntry f]]
  loops : g₃.loops = []
  function : g₃.function = some (funSymbol f g.code.size)

theorem Prepared.exits {f : FunDecl} {g g₁ g₃ : Codegen} (h : Prepared f g g₁ g₃) : g₃.ExitsOpen := by
  intro l member
  rw [h.loops] at member
  cases member

namespace FunctionRun

variable {f : FunDecl} {g g₁ g₂ g₃ g₄ : Codegen} {fn : Function} {scopes : Scopes}

theorem prepared (h : FunctionRun f g g₁ g₂ g₃ g₄ fn scopes) (top : g.TopLevel) (regular : g.scopes.Regular)
    (complete : ∀ p ∈ f.params.toList, p.Complete) (clean₃ : g₃.errors = #[]) : Prepared f g g₁ g₃ := by
  have announced := h.declaresVars.clean clean₃
  have clean₂ : g₂.errors = #[] := by
    have errors := announced_errors g₂.withResult f (funSymbol f g.code.size)
    rw [announced] at errors
    have none : g₂.withResult.errors = #[] := by simpa using List.prefix_nil.mp errors
    exact none
  obtain ⟨isNew, declared⟩ := h.declared
  obtain ⟨fresh, added⟩ := declare_sound declared (h.enlists.clean clean₂)
  obtain ⟨paramsOk, params⟩ := params_sound complete h.params clean₂
  obtain ⟨varsOk, vars⟩ := vars_sound h.vars clean₃
  have regular₁ : g₁.scopes.Regular := by
    rw [added]
    exact regular.add (funSymbol_regular _ paramsOk)
  have layer₁ : g₁.scopes.current.layer = g.scopes.current.layer ++ [functionEntry f] := by
    rw [added, Scopes.layer_add, declaredAs_funSymbol _ paramsOk]
  have outer₁ : g₁.scopes.outer = [] := h.declares.outer.trans top.outer
  -- The parameters, the result and the variables share the scope of the function.
  have middle : (g₂.withResult.announced f (funSymbol f g.code.size)).scopes = g₂.scopes := announced_scopes _ _ _
  have layer₃ : g₃.scopes.current.layer = localLayer f := by
    rw [vars.layer, middle, params.layer]
    rfl
  have outer₃ : g₃.scopes.outer = [g₁.scopes.current] := by
    rw [vars.outer, middle, params.outer]
    change g₁.scopes.current :: g₁.scopes.outer = _
    rw [outer₁]
  have distinct : g₃.scopes.current.layer.names.Nodup := by
    refine vars.distinct ?_
    rw [middle]
    exact params.distinct List.nodup_nil
  have regular₃ : g₃.scopes.Regular := by
    refine vars.regular ?_
    rw [middle]
    exact params.regular regular₁.enter
  have env : g₃.scopes.env = [localLayer f, g.scopes.current.layer ++ [functionEntry f]] := by
    simp only [Scopes.env, Scopes.view, Scopes.visible, outer₃, List.map_cons, List.map_nil, layer₃, layer₁]
  have loops₃ : g₃.loops = [] := by
    rw [h.declaresVars.loops, announced_loops, (Declares.withResult g₂).loops, h.enlists.loops]
    exact (h.declares.topLevel top).loops
  have function₃ : g₃.function = some (funSymbol f g.code.size) := by
    rw [h.declaresVars.function, announced_function, (Declares.withResult g₂).function, h.enlists.function]
    rfl
  rw [layer₃] at distinct
  exact ⟨fresh, added, paramsOk, varsOk, announced_sound complete announced, distinct, regular₁, regular₃, layer₁, outer₃,
    env, loops₃, function₃⟩

theorem sound (h : FunctionRun f g g₁ g₂ g₃ g₄ fn scopes) (top : g.TopLevel) (regular : g.scopes.Regular)
    (complete : f.Complete) (clean : g₄.errors = #[]) :
    f.id.name ∉ g.scopes.current.layer.names ∧
      FunctionOk (g.scopes.current.layer ++ [functionEntry f]) f ∧
      scopes.Regular ∧ scopes.current.layer = g.scopes.current.layer ++ [functionEntry f] := by
  have prepared := h.prepared top regular complete.params (h.grows.toMoves.clean clean)
  have body := stmts_sound (fun s member => stmt_sound f.type s (complete.body.of_mem member)) prepared.regular
    prepared.exits ⟨_, prepared.function, rfl⟩ h.body clean
  rw [prepared.loops, prepared.env] at body
  have visible := h.visible
  simp only [Scopes.visible, List.cons.injEq] at visible
  exact ⟨prepared.fresh, ⟨prepared.params, prepared.vars, prepared.distinct, prepared.main, body⟩,
    prepared.globals.of_visible h.visible, by rw [visible.1, prepared.layer]⟩

end FunctionRun

theorem decls_sound {decls : List Decl} {g g' : Codegen} (top : g.TopLevel) (regular : g.scopes.Regular)
    (complete : ∀ d ∈ decls, d.Complete) (run : (decls.forM decl).run g = .ok () g') (clean : g'.errors = #[]) :
    DeclsOk g.scopes.current.layer decls g'.scopes.current.layer := by
  induction decls generalizing g with
  | nil =>
    cases run
    exact .nil
  | cons d rest ih =>
    change (decl d >>= fun _ => rest.forM decl).run g = _ at run
    obtain ⟨_, g₁, runFirst, runRest⟩ := bind_ok run
    obtain ⟨_, run₁, adds, _⟩ := runs_decl d top
    rw [runFirst] at run₁
    cases run₁
    obtain ⟨_, run₂, adds', _⟩ := runs_decls rest adds.topLevel
    rw [runRest] at run₂
    cases run₂
    have clean₁ : g₁.errors = #[] := by
      have errors := adds'.errors
      rw [clean] at errors
      simpa using List.prefix_nil.mp errors
    have later := fun regular₁ => ih adds.topLevel regular₁ (fun d member => complete d (by simp [member])) runRest
    cases d with
    | var d =>
      obtain ⟨ok, fresh, enlarges⟩ := varDecl_sound runFirst clean₁
      have rest := later (enlarges.regular regular)
      rw [enlarges.layer] at rest
      exact .var ok fresh rest
    | fn f =>
      obtain ⟨g₁, g₂, g₃, g₄, fn, scopes, h⟩ := exists_functionRun f top
      have same := h.run
      change (funDecl f).run g = _ at runFirst
      rw [runFirst] at same
      cases same
      obtain ⟨fresh, ok, regular', layer⟩ := h.sound top regular (complete (.fn f) (by simp)) clean₁
      have rest := later regular'
      change DeclsOk scopes.current.layer _ _ at rest
      rw [layer] at rest
      exact .fn fresh ok rest

theorem regular_initial : Scopes.initial.Regular := by
  intro scope member s inside
  rw [List.mem_singleton.mp member] at inside
  rw [List.mem_singleton.mp inside]
  exact ⟨fun h => absurd rfl h, fun _ => ⟨.inr rfl, by decide⟩, fun _ => ⟨rfl, rfl, rfl⟩⟩

theorem source_sound {s : Source} {g : Codegen} (complete : s.Complete) (run : Codegen.run s = .ok g)
    (clean : g.errors = #[]) : WellTyped s := by
  obtain ⟨g', decls, adds, _⟩ := runs_decls s.decls topLevel_initial
  rw [run_eq_completed decls adds.topLevel] at run
  cases run
  have judged : (g'.judged s.endLine (Check.mainDeclared (g'.scopes.resolve? mainName))).errors = #[] := clean
  have ok := decls_sound topLevel_initial regular_initial complete decls ((Moves.judged _ _ _).clean judged)
  refine ⟨_, ok, ?_⟩
  have declared := require_clean (judged_clean judged)
  cases resolved : g'.scopes.resolve? mainName with
  | none => simp [resolved] at declared
  | some main =>
    have found := g'.scopes.find?_env mainName
    simp only [resolved, Option.any_some, decide_eq_true_eq] at declared
    rw [Scopes.find?_view_global _ adds.topLevel.outer, resolved] at found
    rw [found]
    exact ⟨if main.type = .void then .void else .int, main.params, by simp [Symbol.declaredAs, declared.1]⟩

end Codegen

end MiniC
