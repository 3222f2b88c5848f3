import MiniC.Proofs.Generation.Translation
import MiniC.Proofs.Typing.Soundness

namespace MiniC.Codegen

open Typing Translation

def place (g : Codegen) : Place :=
  ⟨g.code.size, g.slots.length⟩

abbrev homes (g : Codegen) : Scoped Home :=
  g.scopes.view Symbol.home

theorem find?_homes {g : Codegen} {name : Text} {s : Symbol} (found : g.scopes.resolve? name = some s) :
    g.homes.find? name = some s.home := by
  rw [homes, Scopes.find?_view, found]
  rfl

/-- Whether a finished code holds what was emitted between two states. -/
def Fits (code : Array Instruction) (g g' : Codegen) : Prop :=
  ∀ i, g.code.size ≤ i → i < g'.code.size → code[i]? = g'.code[i]?

namespace Fits

variable {code : Array Instruction} {g g₁ g' : Codegen}

theorem before (fits : Fits code g g') (moves : Moves g₁ g') : Fits code g g₁ := by
  intro i low high
  rw [fits i low (Nat.lt_of_lt_of_le high moves.size_le), Array.getElem?_eq_getElem high]
  exact moves.code (Array.getElem?_eq_getElem high)

theorem after (fits : Fits code g g') (later : g.code.size ≤ g₁.code.size) : Fits code g₁ g' :=
  fun i low high => fits i (Nat.le_trans later low) high

theorem emitted {i : Instruction} (fits : Fits code g (g₁.emitted i)) (later : g.code.size ≤ g₁.code.size) :
    code[g₁.code.size]? = some i := by
  rw [fits _ later (by simp), emitted_code, Array.getElem?_push_size]

theorem landed {jump : Nat} (fits : Fits code g (g'.landed jump)) (later : g.code.size ≤ g₁.code.size)
    (earlier : jump < g₁.code.size) : Fits code g₁ g' := by
  intro i low high
  rw [fits i (Nat.le_trans later low) (by simpa using high), landed_code, Array.getElem?_modify, if_neg (by omega)]

theorem jump {jump : Nat} {i : Instruction} (fits : Fits code g (g'.landed jump)) (later : g.code.size ≤ jump)
    (found : g'.code[jump]? = some i) : code[jump]? = some (i.aimed g'.code.size) := by
  have bound := (Array.getElem?_eq_some_iff.mp found).1
  rw [fits jump later (by simpa using bound), landed_code, Array.getElem?_modify, if_pos rfl, found]
  rfl

end Fits

section Temporaries

variable {g : Codegen} (inside : g.emitter.current.isSome)

include inside

theorem temp_placed {frame : List Slot} (fits : g.reserved.slots <+: frame) : Temp frame g.slots.length g.temp := by
  obtain ⟨s, grown, kind, size, operand⟩ := reserved_slots inside
  refine ⟨s, ?_, kind, size, operand⟩
  rw [grown] at fits
  obtain ⟨rest, rfl⟩ := fits
  simp

theorem reserved_length : g.reserved.slots.length = g.slots.length + 1 := by
  obtain ⟨s, grown, _⟩ := reserved_slots inside
  simp [grown]

theorem filled_place (i : Instruction) : (g.reserved.emitted i).place = g.place.fill := by
  have code : (g.reserved.emitted i).code.size = g.code.size + 1 := by simp [reserved_size]
  have slots : (g.reserved.emitted i).slots.length = g.slots.length + 1 := reserved_length inside
  simp only [place, Place.fill, code, slots]

end Temporaries

theorem emitted_place (g : Codegen) (i : Instruction) : (g.emitted i).place = g.place.next := by
  have code : (g.emitted i).code.size = g.code.size + 1 := by simp
  have slots : (g.emitted i).slots = g.slots := rfl
  simp only [place, Place.next, code, slots]

theorem based_code {g : Codegen} {s : Symbol} {code : Array Instruction} {frame : List Slot}
    (inside : g.emitter.current.isSome) (fits : Fits code g (g.based s)) (placed : (g.based s).slots <+: frame) :
    BaseCode code frame s.location s.isParam g.place (g.base s) (g.based s).place := by
  unfold based at fits placed ⊢
  unfold base
  cases param : s.isParam with
  | true => exact .param
  | false =>
    simp only [param, Bool.false_eq_true, if_false] at fits placed ⊢
    rw [filled_place inside]
    have sizes := reserved_size g
    have found := fits.emitted (Nat.le_of_eq sizes.symm)
    rw [sizes] at found
    exact .own (temp_placed inside placed) found

theorem based_errors (g : Codegen) (s : Symbol) : (g.based s).errors = g.errors := by
  unfold based
  split <;> rfl

structure Translates (e : Expr) (type : Ty) (g : Codegen) (v : Value) (g' : Codegen) : Prop where
  errors : g'.errors = g.errors
  typed : v.type = type
  assignable : IsPlace e → type = .int → v.assignable = true
  array : type = .array → ∃ id s, e = .name id ∧ g.scopes.resolve? id.name = some s ∧ s.kind = .array ∧
    v.symbol = some s
  code : ∀ code frame, Fits code g g' → g'.slots <+: frame →
    ExprCode code frame g.homes e g.place type v.operand g'.place

theorem integer_accepted {x : Value} (int : x.type = .int) (mismatch : Ty → SemanticError) :
    Check.integer x mismatch = .accepted := by
  simp only [Check.integer, int]

theorem operands_accepted {x y : Value} (int : x.type = .int) (int' : y.type = .int) :
    Check.operands x y = .accepted := by
  simp only [Check.operands, Check.operand, integer_accepted int, integer_accepted int']

theorem assignment_accepted {x y : Value} (int : x.type = .int) (assignable : x.assignable = true)
    (int' : y.type = .int) : Check.assignment x y = .accepted := by
  simp [Check.assignment, int, assignable, integer_accepted int']

theorem index_accepted {s : Symbol} {x : Value} (array : s.kind = .array) (int : x.type = .int) :
    Check.index s x = .accepted := by
  simp [Check.index, array, int]

theorem resolve?_of_env {t : Scopes} {name : Text} {entry : Declared} (found : t.env.find? name = some entry) :
    ∃ s, t.resolve? name = some s ∧ s.declaredAs = entry := by
  rw [Scopes.find?_env] at found
  exact Option.map_eq_some_iff.mp found

theorem kind_of_declaredAs {s : Symbol} :
    (s.declaredAs = .var → s.kind = .var) ∧ (s.declaredAs = .array → s.kind = .array) ∧
      ∀ {result : TypeName} {params : List Ty}, s.declaredAs = .function result params →
        s.kind = .func ∧ result = (if s.type = .void then .void else .int) ∧ params = s.params := by
  unfold Symbol.declaredAs
  cases s.kind <;> simp +contextual [eq_comm]

theorem homes_of_visible {g g' : Codegen} (same : g'.scopes.visible = g.scopes.visible) : g'.homes = g.homes :=
  Scopes.view_of_visible _ same

theorem name_translates {id : Ident} {type : Ty} {g g' : Codegen} {v : Value} (regular : g.scopes.Regular)
    (typed : HasType g.scopes.env (.name id) type) (run : (name id).run g = .ok v g') :
    Translates (.name id) type g v g' := by
  cases typed with
  | var found =>
    obtain ⟨s, resolved, declared⟩ := resolve?_of_env found
    have kind := kind_of_declaredAs.1 declared
    have int := (regular.of_resolve? resolved).word (by simp [kind])
    have home : g.homes.find? id.name = some (.var s.location) := by simp [find?_homes resolved, Symbol.home, kind]
    rw [run_name_some resolved] at run
    simp only [Check.name, Verdict.require, kind, nameValue, int] at run
    cases run
    exact ⟨rfl, rfl, fun _ _ => rfl, (fun h => by cases h), fun _ _ _ _ => .var home⟩
  | array found =>
    obtain ⟨s, resolved, declared⟩ := resolve?_of_env found
    have kind := kind_of_declaredAs.2.1 declared
    have int := (regular.of_resolve? resolved).word (by simp [kind])
    have home : g.homes.find? id.name = some (.array s.location s.isParam) := by
      simp [find?_homes resolved, Symbol.home, kind]
    rw [run_name_some resolved] at run
    simp only [Check.name, Verdict.require, kind, nameValue, int] at run
    cases run
    exact ⟨rfl, rfl, (fun _ h => by cases h), fun _ => ⟨id, s, rfl, resolved, kind, rfl⟩, fun _ _ _ _ => .array home⟩

theorem index_translates {id : Ident} {e : Expr} {g g₁ g' : Codegen} {x v : Value} (kept : Keeps g g₁)
    (inside : g.emitter.current.isSome) (found : g.scopes.env.find? id.name = some .array)
    (first : Translates e .int g x g₁) (run : (index id x).run g₁ = .ok v g') :
    Translates (.index id e) .int g v g' := by
  rw [← Scopes.env_of_visible kept.visible] at found
  obtain ⟨s, resolved, declared⟩ := resolve?_of_env found
  have kind := kind_of_declaredAs.2.1 declared
  have home : g.homes.find? id.name = some (.array s.location s.isParam) := by
    simp [← homes_of_visible kept.visible, find?_homes resolved, Symbol.home, kind]
  have inside₁ := kept.toMoves.inside inside
  have inside₂ := (Keeps.based g₁ s).toMoves.inside inside₁
  rw [run_index_accepted resolved (index_accepted kind first.typed)] at run
  cases run
  refine ⟨(based_errors g₁ s).trans first.errors, rfl, fun _ _ => rfl, (fun h => by cases h), ?_⟩
  intro code frame fits placed
  have filled : Keeps (g₁.based s) ((g₁.based s).reserved.emitted
      { op := .elem, a1 := g₁.base s, a2 := x.operand, a3 := (g₁.based s).temp }) :=
    (Keeps.reserved _).trans (.emitted _ _)
  have whole := (Keeps.based g₁ s).trans filled
  have sizes := reserved_size (g₁.based s)
  have later := kept.toMoves.size_le
  have later' := (Keeps.based g₁ s).toMoves.size_le
  have operand := first.code code frame (fits.before whole.toMoves) (whole.toMoves.slots.trans placed)
  have base := based_code inside₁ ((fits.before filled.toMoves).after later) (filled.toMoves.slots.trans placed)
  have found := fits.emitted (by omega)
  rw [sizes] at found
  rw [filled_place inside₂]
  exact .index operand home base (temp_placed inside₂ placed) found

theorem unary_translates {op : UnaryOp} {line : Nat} {e : Expr} {g g₁ g' : Codegen} {x v : Value} (kept : Keeps g g₁)
    (inside : g.emitter.current.isSome) (first : Translates e .int g x g₁)
    (run : (unary op line x).run g₁ = .ok v g') : Translates (.unary op line e) .int g v g' := by
  have inside₁ := kept.toMoves.inside inside
  rw [run_unary_accepted (integer_accepted first.typed _)] at run
  cases run
  refine ⟨first.errors, rfl, (fun h => by cases h), (fun h => by cases h), fun code frame fits placed => ?_⟩
  have filled : Keeps g₁ (g₁.reserved.emitted (unaryInstruction op x.operand g₁.temp)) :=
    (Keeps.reserved _).trans (.emitted _ _)
  have sizes := reserved_size g₁
  have later := kept.toMoves.size_le
  have operand := first.code code frame (fits.before filled.toMoves) (filled.toMoves.slots.trans placed)
  have found := fits.emitted (by omega)
  rw [sizes] at found
  rw [filled_place inside₁]
  exact .unary operand (temp_placed inside₁ placed) found

section Operators

variable {line : Nat} {left right : Expr} {g g₁ g₂ g' : Codegen} {x y v : Value}

theorem binary_translates {op : BinaryOp} {operation : Opcode} (known : op.opcode? = some operation) (kept : Keeps g g₁)
    (kept' : Keeps g₁ g₂) (inside : g.emitter.current.isSome) (first : Translates left .int g x g₁)
    (second : Translates right .int g₁ y g₂) (run : (binary op line x y).run g₂ = .ok v g') :
    Translates (.binary op line left right) .int g v g' := by
  have inside₂ := (kept.trans kept').toMoves.inside inside
  rw [run_binary_accepted known (operands_accepted first.typed second.typed)] at run
  cases run
  refine ⟨second.errors.trans first.errors, rfl, (fun h => by cases h), (fun h => by cases h), ?_⟩
  intro code frame fits placed
  have filled : Keeps g₂ (g₂.reserved.emitted { op := operation, a1 := x.operand, a2 := y.operand, a3 := g₂.temp }) :=
    (Keeps.reserved _).trans (.emitted _ _)
  have whole := kept'.trans filled
  have sizes := reserved_size g₂
  have later := kept.toMoves.size_le
  have later' := kept'.toMoves.size_le
  have operand := first.code code frame (fits.before whole.toMoves) (whole.toMoves.slots.trans placed)
  have operand' := second.code code frame ((fits.before filled.toMoves).after later) (filled.toMoves.slots.trans placed)
  rw [homes_of_visible kept.visible] at operand'
  have found := fits.emitted (by omega)
  rw [sizes] at found
  rw [filled_place inside₂]
  exact .binary known operand operand' (temp_placed inside₂ placed) found

theorem assign_translates (isPlace : IsPlace left) (kept : Keeps g g₁) (kept' : Keeps g₁ g₂)
    (first : Translates left .int g x g₁) (second : Translates right .int g₁ y g₂)
    (run : (assign line x y).run g₂ = .ok v g') : Translates (.assign line left right) .int g v g' := by
  rw [run_assign_accepted (assignment_accepted first.typed (first.assignable isPlace rfl) second.typed)] at run
  cases run
  refine ⟨second.errors.trans first.errors, rfl, (fun h => by cases h), (fun h => by cases h), ?_⟩
  intro code frame fits placed
  have last := Keeps.emitted g₂ { op := .assign, a1 := y.operand, a2 := x.operand }
  have whole := kept'.trans last
  have later := kept.toMoves.size_le
  have later' := kept'.toMoves.size_le
  have operand := first.code code frame (fits.before whole.toMoves) (whole.toMoves.slots.trans placed)
  have operand' := second.code code frame ((fits.before last.toMoves).after later) (last.toMoves.slots.trans placed)
  rw [homes_of_visible kept.visible] at operand'
  rw [emitted_place]
  exact .assign isPlace operand operand' (fits.emitted (by omega))

theorem landed_place (g : Codegen) (jump : Nat) : (g.landed jump).place = g.place := by
  have code : (g.landed jump).code.size = g.code.size := by simp
  have slots : (g.landed jump).slots = g.slots := rfl
  simp only [place, code, slots]

/-- A finished code around the right operand of `&&` or `||`: what comes before the jump over it,
    the jump, the operand, and the instruction behind it. -/
theorem Fits.over {code : Array Instruction} {g₀ : Codegen} {jump last : Instruction}
    (fits : Fits code g ((g₂.emitted last).landed g₀.code.size)) (kept : Keeps (g₀.emitted jump) g₂)
    (later : g.code.size ≤ g₀.code.size) :
    Fits code g g₀ ∧ code[g₀.code.size]? = some (jump.aimed (g₂.code.size + 1)) ∧ Fits code (g₀.emitted jump) g₂ ∧
      code[g₂.code.size]? = some last := by
  have kept' := kept.trans (.emitted g₂ last)
  have whole := ((Keeps.emitted g₀ jump).trans kept').aimed (Nat.le_refl _) (g₂.emitted last).code.size
  have size : (g₀.emitted jump).code.size = g₀.code.size + 1 := by simp
  have bound := kept.toMoves.size_le
  have found := fits.jump later (kept'.code (g₀.emitted_found jump))
  have inner : Fits code (g₀.emitted jump) (g₂.emitted last) := fits.landed (by omega) (by omega)
  refine ⟨fits.before whole.toMoves, ?_, inner.before (Moves.emitted _ _), inner.emitted bound⟩
  rwa [emitted_code, Array.size_push] at found

theorem and_translates (kept : Keeps g g₁) (kept' : Keeps (g₁.branched true x.operand) g₂)
    (inside : g.emitter.current.isSome) (first : Translates left .int g x g₁)
    (second : Translates right .int (g₁.branched true x.operand) y g₂)
    (run : (endLogical (some ⟨g₁.temp, (g₁.branched true x.operand).code.size - 1⟩) line y).run g₂ = .ok v g') :
    Translates (.binary .and line left right) .int g v g' := by
  have inside₁ := kept.toMoves.inside inside
  obtain ⟨i, found, isJump, _⟩ := branched_jump g₁ true x.operand
  rw [run_endLogical_accepted (integer_accepted second.typed _)
    (kept'.toMoves.jumps ⟨i, found, by rw [isJump]; rfl⟩)] at run
  cases run
  refine ⟨second.errors.trans first.errors, rfl, (fun h => by cases h), (fun h => by cases h), ?_⟩
  intro code frame fits placed
  have started : Keeps g₁ (g₁.reserved.emitted { op := .assign, a1 := .imm 0, a2 := g₁.temp }) :=
    (Keeps.reserved g₁).trans (.emitted _ _)
  have place := filled_place inside₁ { op := .assign, a1 := .imm 0, a2 := g₁.temp }
  have jump : (g₁.branched true x.operand).code.size - 1 =
      (g₁.reserved.emitted { op := .assign, a1 := .imm 0, a2 := g₁.temp }).code.size := by simp [branched]
  rw [jump] at fits
  have later := kept.toMoves.size_le
  obtain ⟨before, jumps, beyond, result⟩ := fits.over kept' (Nat.le_trans later started.toMoves.size_le)
  have size : (g₁.reserved.emitted { op := .assign, a1 := .imm 0, a2 := g₁.temp }).code.size = g₁.code.size + 1 :=
    congrArg Place.pc place
  have assign := before.emitted (by rw [reserved_size]; exact later)
  rw [reserved_size] at assign
  rw [size] at jumps
  have slots := kept'.toMoves.slots.trans placed
  have operand := first.code code frame (before.before started.toMoves)
    ((started.trans (.emitted _ _)).toMoves.slots.trans slots)
  have operand' := second.code code frame beyond placed
  rw [homes_of_visible (kept.trans (.branched g₁ true x.operand)).visible, branched, if_pos rfl, emitted_place, place]
    at operand'
  rw [landed_place, emitted_place]
  exact .and operand (temp_placed inside₁ slots) assign jumps operand' result

theorem or_translates (kept : Keeps g g₁) (kept' : Keeps (g₁.branched false x.operand) g₂)
    (inside : g.emitter.current.isSome) (first : Translates left .int g x g₁)
    (second : Translates right .int (g₁.branched false x.operand) y g₂)
    (run : (endLogical (some ⟨g₁.temp, (g₁.branched false x.operand).code.size - 1⟩) line y).run g₂ = .ok v g') :
    Translates (.binary .or line left right) .int g v g' := by
  have inside₁ := kept.toMoves.inside inside
  have inside₂ := (Keeps.reserved g₁).toMoves.inside inside₁
  obtain ⟨i, found, isJump, _⟩ := branched_jump g₁ false x.operand
  rw [run_endLogical_accepted (integer_accepted second.typed _)
    (kept'.toMoves.jumps ⟨i, found, by rw [isJump]; rfl⟩)] at run
  cases run
  refine ⟨second.errors.trans first.errors, rfl, (fun h => by cases h), (fun h => by cases h), ?_⟩
  intro code frame fits placed
  have taken := (Keeps.reserved g₁).trans (.reserved _)
  have set := Keeps.emitted g₁.reserved.reserved { op := .assign, a1 := .imm 1, a2 := g₁.temp }
  have tested := Keeps.emitted (g₁.reserved.reserved.emitted { op := .assign, a1 := .imm 1, a2 := g₁.temp })
    { op := .eq, a1 := x.operand, a2 := .imm 0, a3 := g₁.reserved.temp }
  have started := (taken.trans set).trans tested
  have size : g₁.reserved.reserved.code.size = g₁.code.size := by rw [reserved_size, reserved_size]
  have length : g₁.reserved.reserved.slots.length = g₁.slots.length + 2 := by
    rw [reserved_length inside₂, reserved_length inside₁]
  have later := kept.toMoves.size_le
  have jump : (g₁.branched false x.operand).code.size - 1 =
      ((g₁.reserved.reserved.emitted { op := .assign, a1 := .imm 1, a2 := g₁.temp }).emitted
        { op := .eq, a1 := x.operand, a2 := .imm 0, a3 := g₁.reserved.temp }).code.size := by simp [branched]
  rw [jump] at fits
  obtain ⟨before, jumps, beyond, result⟩ := fits.over kept' (Nat.le_trans later started.toMoves.size_le)
  have assign := (before.before tested.toMoves).emitted (by omega)
  have test := before.emitted (Nat.le_trans later (taken.trans set).toMoves.size_le)
  simp only [emitted_code, Array.size_push, size] at assign test jumps
  have slots := kept'.toMoves.slots.trans placed
  have operand := first.code code frame (before.before started.toMoves)
    ((started.trans (.emitted _ _)).toMoves.slots.trans slots)
  have operand' := second.code code frame beyond placed
  have place : (g₁.branched false x.operand).place = ⟨g₁.code.size + 3, g₁.slots.length + 2⟩ := by
    rw [branched, if_neg Bool.false_ne_true, emitted_place, emitted_place, emitted_place]
    simp only [Codegen.place, Place.next, size, length]
  rw [homes_of_visible (kept.trans (.branched g₁ false x.operand)).visible, place] at operand'
  rw [landed_place, emitted_place]
  have zero := temp_placed inside₂ slots
  rw [reserved_length inside₁] at zero
  exact .or operand (temp_placed inside₁ ((Keeps.reserved _).toMoves.slots.trans slots))
    zero assign test jumps operand' result

end Operators

def TranslatesAt (e : Expr) : Prop :=
  ∀ (g g' : Codegen) (v : Value) (type : Ty), g.scopes.Regular → g.emitter.current.isSome →
    HasType g.scopes.env e type → (expr e).run g = .ok v g' → Translates e type g v g'

theorem argument_accepted {s : Symbol} {position : Nat} {x : Value} {type : Ty}
    (wanted : s.params[position]? = some type) (typed : x.type = type) (regular : type ≠ .error) :
    Check.argument s position x = .accepted := by
  simp [Check.argument, wanted, typed, regular, Verdict.require]

theorem argument_translates {c c' : Call} {s : Symbol} {e : Expr} {type : Ty} {g g₁ g₂ : Codegen} {x : Value}
    (callee : c.callee = some s) (own : s.builtin = false) (wanted : s.params[c.count]? = some type)
    (word : type = .int ∨ type = .array) (kept : Keeps g g₁) (inside : g.emitter.current.isSome)
    (first : Translates e type g x g₁) (run : (argument c x).run g₁ = .ok c' g₂) :
    g₂.errors = g.errors ∧ c' = { c with count := c.count + 1 } ∧
      ∀ {code frame}, Fits code g g₂ → g₂.slots <+: frame → ∀ {rest types r},
        ArgsCode code frame g.homes rest g₂.place types r →
          ArgsCode code frame g.homes (e :: rest) g.place (type :: types) r := by
  have bound : ¬ s.params.length ≤ c.count := Nat.not_le_of_lt (List.getElem?_eq_some_iff.mp wanted).1
  have known : type ≠ .error := by rintro rfl; simp at word
  rw [run_argument callee] at run
  simp only [argument_accepted wanted first.typed known, judged_accepted, bound, if_false, own, Bool.false_eq_true] at run
  have later := kept.toMoves.size_le
  rcases word with rfl | rfl
  · have same : g₁.passing x = g₁ ∧ g₁.passed x = x.operand := by simp [passing, passed, first.typed]
    rw [same.1, same.2] at run
    cases run
    refine ⟨first.errors, rfl, fun fits placed rest types r others => ?_⟩
    have last := Keeps.emitted g₁ { op := .param, a1 := x.operand }
    rw [emitted_place] at others
    exact .word (first.code _ _ (fits.before last.toMoves) placed) (fits.emitted later) others
  · obtain ⟨id, array, rfl, resolved, kind, symbol⟩ := first.array rfl
    have same : g₁.passing x = g₁.based array ∧ g₁.passed x = g₁.base array := by
      simp [passing, passed, first.typed, symbol]
    rw [same.1, same.2] at run
    cases run
    refine ⟨(based_errors g₁ array).trans first.errors, rfl, fun fits placed rest types r others => ?_⟩
    have based := Keeps.based g₁ array
    have last := Keeps.emitted (g₁.based array) { op := .param, a1 := g₁.base array }
    have home : g.homes.find? id.name = some (.array array.location array.isParam) := by
      simp [find?_homes resolved, Symbol.home, kind]
    have silent := (first.code _ _ (fits.before (based.trans last).toMoves)
      ((based.trans last).toMoves.slots.trans placed)).place_of_array
    have base := based_code (kept.toMoves.inside inside) ((fits.before last.toMoves).after later) placed
    rw [silent] at base
    rw [emitted_place] at others
    exact .array home base (fits.emitted (Nat.le_trans later based.toMoves.size_le)) others

theorem arguments_translate {args : List Expr} (translate : ∀ e ∈ args, TranslatesAt e) {c c' : Call} {s : Symbol}
    {types : List Ty} {g g' : Codegen} (callee : c.callee = some s) (own : s.builtin = false)
    (words : ∀ type ∈ s.params, type = .int ∨ type = .array) (regular : g.scopes.Regular)
    (inside : g.emitter.current.isSome) (remaining : s.params.drop c.count = types)
    (typed : HasTypes g.scopes.env args types) (run : (arguments c args).run g = .ok c' g') :
    g'.errors = g.errors ∧ c' = { c with count := c.count + args.length } ∧
      ∀ {code frame}, Fits code g g' → g'.slots <+: frame →
        ArgsCode code frame g.homes args g.place types g'.place := by
  induction args generalizing c g types with
  | nil =>
    cases run
    cases typed
    exact ⟨rfl, rfl, fun _ _ => .nil⟩
  | cons e rest ih =>
    rw [arguments] at run
    obtain ⟨x, g₁, runFirst, run⟩ := bind_ok run
    obtain ⟨c₁, g₂, runArgument, run⟩ := bind_ok run
    have kept₁ := Keeps.of_expr runFirst
    have kept := kept₁.trans (Keeps.of_argument runArgument)
    have kept' := Keeps.of_arguments run
    cases typed with
    | cons typed others =>
      rename_i type types
      have wanted : s.params[c.count]? = some type := by
        rw [← List.head?_drop, remaining]
        rfl
      have dropped : s.params.drop (c.count + 1) = types := by
        rw [← List.tail_drop, remaining]
        rfl
      have first := translate e (by simp) _ _ _ _ regular inside typed runFirst
      obtain ⟨errors, rfl, push⟩ := argument_translates callee own wanted
        (words type (List.mem_of_getElem? wanted)) kept₁ inside first runArgument
      rw [← Scopes.env_of_visible kept.visible] at others
      obtain ⟨errors', last, code⟩ := @ih (fun e member => translate e (by simp [member]))
        { c with count := c.count + 1 } types g₂ callee
        (regular.of_visible kept.visible) (kept.toMoves.inside inside) dropped others run
      refine ⟨errors'.trans errors, by simp [last, Nat.add_assoc, Nat.add_comm 1], fun fits placed => ?_⟩
      have others := code (fits.after kept.toMoves.size_le) placed
      rw [homes_of_visible kept.visible] at others
      exact push (fits.before kept'.toMoves) (kept'.toMoves.slots.trans placed) others

theorem argumentCount_accepted {s : Symbol} {count : Nat} (all : count = s.params.length) :
    Check.argumentCount s count = .accepted := by
  simp [Check.argumentCount, Verdict.require, all]

theorem output_translates {callee : Ident} {args : List Expr} (translate : ∀ e ∈ args, TranslatesAt e) {s : Symbol}
    {g g' g₁ : Codegen} {c : Call} {v : Value} (regular : g.scopes.Regular) (inside : g.emitter.current.isSome)
    (resolved : g.scopes.resolve? callee.name = some s) (kind : s.kind = .func) (builtin : s.builtin = true)
    (typed : HasTypes g.scopes.env args s.params)
    (runArguments : (arguments { callee := some s, line := callee.line } args).run g = .ok c g₁)
    (runEnd : (endCall c).run g₁ = .ok v g') : Translates (.call callee args) .void g v g' := by
  have single := ((regular.of_resolve? resolved).builtin builtin).2.2
  have home : g.homes.find? callee.name = some .output := by simp [find?_homes resolved, Symbol.home, kind, builtin]
  rw [single] at typed
  cases typed with
  | cons typed others =>
    cases others
    rename_i e
    rw [arguments] at runArguments
    obtain ⟨x, g₂, runFirst, run⟩ := bind_ok runArguments
    obtain ⟨c₁, g₃, runArgument, run⟩ := bind_ok run
    cases run
    have kept := Keeps.of_expr runFirst
    have first := translate e (by simp) _ _ _ _ regular inside typed runFirst
    have wanted : s.params[0]? = some .int := by rw [single]; rfl
    have run := runArgument
    rw [run_argument rfl] at run
    simp only [argument_accepted wanted first.typed (fun h => by cases h), judged_accepted, single, List.length_cons,
      List.length_nil, Nat.not_le_of_lt Nat.zero_lt_one, if_false, builtin, if_true] at run
    cases run
    rw [run_endCall rfl] at runEnd
    have all : 0 + 1 = s.params.length := by rw [single]; rfl
    simp only [argumentCount_accepted all, judged_accepted, builtin, if_true, single, List.length_cons,
      List.length_nil] at runEnd
    cases runEnd
    refine ⟨first.errors, rfl, (fun h => by cases h), (fun h => by cases h), fun code frame fits placed => ?_⟩
    rw [emitted_place]
    exact .print home (first.code code frame (fits.before (Moves.emitted _ _)) placed)
      (fits.emitted kept.toMoves.size_le)

theorem function_translates {callee : Ident} {args : List Expr} (translate : ∀ e ∈ args, TranslatesAt e) {s : Symbol}
    {g g' g₁ : Codegen} {c : Call} {v : Value} (regular : g.scopes.Regular) (inside : g.emitter.current.isSome)
    (resolved : g.scopes.resolve? callee.name = some s) (kind : s.kind = .func) (own : s.builtin = false)
    (typed : HasTypes g.scopes.env args s.params)
    (runArguments : (arguments { callee := some s, line := callee.line } args).run g = .ok c g₁)
    (runEnd : (endCall c).run g₁ = .ok v g') : Translates (.call callee args) s.type g v g' := by
  obtain ⟨type, words⟩ := (regular.of_resolve? resolved).function kind
  have kept := Keeps.of_arguments runArguments
  have later := kept.toMoves.size_le
  have inside₁ := kept.toMoves.inside inside
  obtain ⟨errors, rfl, push⟩ := arguments_translate translate rfl own words regular inside (by rfl) typed runArguments
  have all : 0 + args.length = s.params.length := by rw [Nat.zero_add, typed.length_eq]
  rw [run_endCall rfl] at runEnd
  simp only [argumentCount_accepted all, judged_accepted, own, Bool.false_eq_true, if_false] at runEnd
  rcases type with int | void
  · have home : g.homes.find? callee.name = some (.function s.entry .int s.params) := by
      simp [find?_homes resolved, Symbol.home, kind, own, int]
    simp only [int, reduceCtorEq, if_false] at runEnd
    cases runEnd
    rw [int]
    refine ⟨errors, rfl, (fun h => by cases h), (fun h => by cases h), fun code frame fits placed => ?_⟩
    have filled : Keeps g₁ (g₁.reserved.emitted (callInstruction s (0 + args.length) g₁.temp)) :=
      (Keeps.reserved _).trans (.emitted _ _)
    have found := fits.emitted (by rw [reserved_size]; exact later)
    rw [reserved_size, callInstruction, Nat.zero_add] at found
    rw [filled_place inside₁]
    exact .function home (push (fits.before filled.toMoves) (filled.toMoves.slots.trans placed))
      (temp_placed inside₁ placed) found
  · have home : g.homes.find? callee.name = some (.function s.entry .void s.params) := by
      simp [find?_homes resolved, Symbol.home, kind, own, void]
    simp only [void, if_true] at runEnd
    cases runEnd
    rw [void]
    refine ⟨errors, rfl, (fun h => by cases h), (fun h => by cases h), fun code frame fits placed => ?_⟩
    have found := fits.emitted later
    rw [callInstruction, Nat.zero_add] at found
    rw [emitted_place]
    exact .procedure home (push (fits.before (Moves.emitted _ _)) placed) found

theorem call_translates {callee : Ident} {args : List Expr} (translate : ∀ e ∈ args, TranslatesAt e) :
    TranslatesAt (.call callee args) := by
  intro g g' v type regular inside typed run
  rw [expr] at run
  obtain ⟨c, g₁, runBegin, runRest⟩ := bind_ok run
  obtain ⟨c', g₂, runArguments, runEnd⟩ := bind_ok runRest
  cases typed with
  | call found types =>
    obtain ⟨s, resolved, declared⟩ := resolve?_of_env found
    obtain ⟨kind, rfl, rfl⟩ := kind_of_declaredAs.2.2 declared
    rw [run_beginCall_function resolved kind] at runBegin
    cases runBegin
    cases builtin : s.builtin with
    | true =>
      have void := ((regular.of_resolve? resolved).builtin builtin).2.1
      rw [void]
      exact output_translates translate regular inside resolved kind builtin types runArguments runEnd
    | false =>
      have same : TypeName.ty (if s.type = .void then .void else .int) = s.type := by
        rcases ((regular.of_resolve? resolved).function kind).1 with type | type <;> rw [type] <;> rfl
      rw [same]
      exact function_translates translate regular inside resolved kind builtin types runArguments runEnd

theorem expr_translates (e : Expr) : TranslatesAt e := by
  induction e using Expr.induction with
  | missing =>
    intro g g' v type regular inside typed run
    cases typed
  | number n =>
    intro g g' v type regular inside typed run
    rw [expr] at run
    cases run
    cases typed with
    | integer whole =>
      refine ⟨rfl, by simp [number, whole], (fun h => by cases h), (fun h => by cases h), fun _ _ _ _ => .integer whole⟩
    | real real =>
      refine ⟨rfl, by simp [number, real], (fun h => by cases h), (fun h => by cases h), fun _ _ _ _ => .real real⟩
  | name id =>
    intro g g' v type regular inside typed run
    rw [expr] at run
    exact name_translates regular typed run
  | index array e ih =>
    intro g g' v type regular inside typed run
    rw [expr] at run
    obtain ⟨x, g₁, runFirst, runIndex⟩ := bind_ok run
    cases typed with
    | index found typed =>
      exact index_translates (Keeps.of_expr runFirst) inside found (ih _ _ _ _ regular inside typed runFirst) runIndex
  | call callee args ih => exact call_translates ih
  | unary op line e ih =>
    intro g g' v type regular inside typed run
    rw [expr] at run
    obtain ⟨x, g₁, runFirst, runUnary⟩ := bind_ok run
    cases typed with
    | unary typed =>
      exact unary_translates (Keeps.of_expr runFirst) inside (ih _ _ _ _ regular inside typed runFirst) runUnary
  | binary op line left right ihl ihr =>
    intro g g' v type regular inside typed run
    cases typed with
    | binary typed typed' =>
      have logical : ∀ conjunction, (do
          let x ← expr left
          let l ← beginLogical conjunction line x
          let y ← expr right
          endLogical l line y).run g = .ok v g' →
            Translates (.binary (if conjunction then .and else .or) line left right) .int g v g' := by
        intro conjunction run
        obtain ⟨x, g₁, runLeft, run₁⟩ := bind_ok run
        obtain ⟨l, g₂, runBegin, run₂⟩ := bind_ok run₁
        obtain ⟨y, g₃, runRight, runEnd⟩ := bind_ok run₂
        have kept := Keeps.of_expr runLeft
        have first := ihl _ _ _ _ regular inside typed runLeft
        rw [run_beginLogical_accepted (integer_accepted first.typed _)] at runBegin
        cases runBegin
        have started := kept.trans (.branched g₁ conjunction x.operand)
        rw [← Scopes.env_of_visible started.visible] at typed'
        have second := ihr _ _ _ _ (regular.of_visible started.visible) (started.toMoves.inside inside) typed' runRight
        cases conjunction with
        | true => exact and_translates kept (Keeps.of_expr runRight) inside first second runEnd
        | false => exact or_translates kept (Keeps.of_expr runRight) inside first second runEnd
      have strict : ∀ {operation}, op.opcode? = some operation → (do
          let x ← expr left
          let y ← expr right
          binary op line x y).run g = .ok v g' → Translates (.binary op line left right) .int g v g' := by
        intro operation known run
        obtain ⟨x, g₁, runLeft, run₁⟩ := bind_ok run
        obtain ⟨y, g₂, runRight, runBinary⟩ := bind_ok run₁
        have kept := Keeps.of_expr runLeft
        have first := ihl _ _ _ _ regular inside typed runLeft
        rw [← Scopes.env_of_visible kept.visible] at typed'
        have second := ihr _ _ _ _ (regular.of_visible kept.visible) (kept.toMoves.inside inside) typed' runRight
        exact binary_translates known kept (Keeps.of_expr runRight) inside first second runBinary
      cases op with
      | or => exact logical false (by simpa only [expr, reduceCtorEq, decide_false] using run)
      | and => exact logical true (by simpa only [expr, decide_true] using run)
      | _ => exact strict rfl (by simpa only [expr] using run)
  | assign line target value iht ihv =>
    intro g g' v type regular inside typed run
    rw [expr] at run
    obtain ⟨x, g₁, runTarget, run₁⟩ := bind_ok run
    obtain ⟨y, g₂, runValue, runAssign⟩ := bind_ok run₁
    have kept := Keeps.of_expr runTarget
    cases typed with
    | assign isPlace typed typed' =>
      rw [← Scopes.env_of_visible kept.visible] at typed'
      have first := iht _ _ _ _ regular inside typed runTarget
      have second := ihv _ _ _ _ (regular.of_visible kept.visible) (kept.toMoves.inside inside) typed' runValue
      exact assign_translates isPlace kept (Keeps.of_expr runValue) first second runAssign

end MiniC.Codegen
