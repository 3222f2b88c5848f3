import Mathlib.Data.List.Forall2
import Mathlib.Data.List.Induction
import MiniC.Proofs.EmittedCode
import MiniC.Proofs.Generation.Allotment

namespace MiniC

def Param.name? : Param → Option Text
  | .unnamed _ => none
  | .named _ id _ => some id.name

def FunDecl.parameters (f : FunDecl) : List Text :=
  f.params.toList.filterMap Param.name?

namespace Frame

def paramSlots (names : List Text) : List Slot :=
  names.mapIdx fun i name => ⟨name, .param, .ofNat i * wordSize, wordSize⟩

def returnSlot (f : Frame) : Slot :=
  ⟨"return", .ret, f.returnOffset, wordSize⟩

structure Records (names : List Text) (f : Frame) : Prop where
  params : f.params = .ofNat names.length
  slots : ∃ inner, f.slots = paramSlots names ++ f.returnSlot :: inner ∧ ∀ s ∈ inner, s.kind.Inner
  next : ∀ i s s', f.slots[i]? = some s → f.slots[i + 1]? = some s' → s'.offset = s.offset + s.size
  last : ∀ s, f.slots.getLast? = some s → f.size = s.offset + s.size

end Frame

namespace Slot.Packed

variable {a b : Word} {slots : List Slot}

theorem last (packed : Packed a slots b) {s : Slot} (found : slots.getLast? = some s) : b = s.offset + s.size := by
  induction packed with
  | nil => cases found
  | @cons a b t slots offset rest ih =>
    cases rest with
    | nil =>
      rw [List.getLast?_singleton, Option.some.injEq] at found
      rw [← found, offset]
    | cons => exact ih (by rwa [List.getLast?_cons_cons] at found)

theorem next (packed : Packed a slots b) {i : Nat} {s s' : Slot} (here : slots[i]? = some s)
    (behind : slots[i + 1]? = some s') : s'.offset = s.offset + s.size := by
  induction packed generalizing i with
  | nil => cases here
  | cons offset rest ih =>
    cases i with
    | zero =>
      cases rest with
      | nil => cases behind
      | cons offset' =>
        cases here
        cases behind
        rw [offset', offset]
    | succ i => exact ih here behind

end Slot.Packed

namespace Codegen

variable {f : FunDecl} {g g' g₁ g₂ g₃ g₄ : Codegen} {fn : Function} {scopes : Scopes}

theorem ofNat_succ_mul (n : Nat) : (.ofNat (n + 1) * wordSize : Word) = .ofNat n * wordSize + wordSize := by
  rw [Int64.ofNat_add, Int64.add_mul]
  rfl

theorem foldl_withParam (names : List Text) (start : fn.frame = {}) :
    (names.foldl withParam fn).frame =
      ⟨Frame.paramSlots names, .ofNat names.length * wordSize, .ofNat names.length⟩ := by
  induction names using List.reverseRecOn with
  | nil => exact start
  | append_singleton names name ih =>
    rw [List.foldl_concat, List.length_append, List.length_singleton, ofNat_succ_mul, Int64.ofNat_add]
    simp only [withParam, ih, Frame.push, Frame.paramSlots, List.mapIdx_append, List.mapIdx_singleton, Nat.zero_add]
    rfl

theorem current_of_param {p : Param} (current : g.emitter.current = some fn) (run : (param p).run g = .ok () g') :
    g'.emitter.current = some (p.name?.toList.foldl withParam fn) := by
  cases p with
  | unnamed type =>
    cases run
    exact current
  | named type id isArray =>
    rw [run_param_named] at run
    dsimp only at run
    split at run
    · cases run
      refine (allocated_param ?_).1
      rw [← current]
      exact congrArg Emitter.current (judged_emitter ..)
    · cases run
      refine (allocated_param ?_).1
      rw [judged_emitter, judged_emitter, current]

theorem current_of_params {params : List Param} (current : g.emitter.current = some fn)
    (run : (params.forM param).run g = .ok () g') :
    g'.emitter.current = some ((params.filterMap Param.name?).foldl withParam fn) := by
  induction params generalizing g fn with
  | nil =>
    cases run
    exact current
  | cons p rest ih =>
    obtain ⟨_, g₁, runFirst, runRest⟩ := bind_ok (show (param p >>= fun _ => rest.forM param).run g = _ from run)
    rw [ih (current_of_param current runFirst) runRest]
    cases p <;> rfl

namespace FunctionRun

theorem framed (h : FunctionRun f g g₁ g₂ g₃ g₄ fn scopes) :
    ∃ fn₀ : Function, fn₀.Extends fn ∧ fn₀.frame.params = .ofNat f.parameters.length ∧
      fn₀.frame.slots = Frame.paramSlots f.parameters ++
        [⟨"return", .ret, .ofNat f.parameters.length * wordSize, wordSize⟩] := by
  have entered := withResult_current (current_of_params rfl h.params)
  have current := (announced_current _ f (funSymbol f g.code.size)).trans entered
  obtain ⟨_, grown, extends_⟩ := (h.moves.trans h.grows.toMoves).of_current current
  rw [h.current] at grown
  cases grown
  have frame := @foldl_withParam { name := f.id.name, entry := g₁.code.size } f.parameters rfl
  rw [FunDecl.parameters] at frame ⊢
  exact ⟨_, extends_, by simp only [Frame.push, frame], by simp only [Frame.push, frame]⟩

theorem packed (h : FunctionRun f g g₁ g₂ g₃ g₄ fn scopes) : Slot.Packed 0 fn.frame.slots fn.frame.size := by
  obtain ⟨_, taken, _, _, packed, _⟩ := h.allots.current _ rfl
  rw [h.current] at taken
  cases taken
  exact packed .nil

theorem records (h : FunctionRun f g g₁ g₂ g₃ g₄ fn scopes) : fn.frame.Records f.parameters := by
  obtain ⟨fn₀, extends_, params₀, slots₀⟩ := h.framed
  obtain ⟨inner, slots⟩ := extends_.slots
  have params : fn.frame.params = .ofNat f.parameters.length := extends_.params.trans params₀
  refine ⟨params, ⟨inner, ?_, extends_.inner inner slots.symm⟩, fun i s s' => h.packed.next, fun s => h.packed.last⟩
  rw [← slots, slots₀, Frame.returnSlot, Frame.returnOffset, params]
  exact List.append_assoc ..

end FunctionRun

end Codegen

structure Function.Implements (f : FunDecl) (fn : Function) : Prop where
  name : fn.name = f.id.name
  record : fn.frame.Records f.parameters

namespace Codegen

theorem implements_decl {d : Decl} (top : g.TopLevel) (run : (decl d).run g = .ok () g') :
    ∃ functions, g'.emitter.functions = g.emitter.functions ++ functions ∧
      List.Forall₂ Function.Implements d.function?.toList functions := by
  cases d with
  | var d =>
    have declares := ((yields_varDecl d g).of_run run).1
    exact ⟨[], by rw [declares.functions, List.append_nil], .nil⟩
  | fn f =>
    obtain ⟨g₁, g₂, g₃, g₄, fn, scopes, h⟩ := exists_functionRun f top
    change (funDecl f).run g = _ at run
    rw [h.run] at run
    cases run
    exact ⟨_, h.functions top, .cons ⟨h.opened.1, h.records⟩ .nil⟩

theorem implements_decls {decls : List Decl} (top : g.TopLevel) (run : (decls.forM decl).run g = .ok () g') :
    ∃ functions, g'.emitter.functions = g.emitter.functions ++ functions ∧
      List.Forall₂ Function.Implements (decls.filterMap Decl.function?) functions := by
  induction decls generalizing g with
  | nil =>
    cases run
    exact ⟨[], by rw [List.append_nil], .nil⟩
  | cons d rest ih =>
    obtain ⟨_, g₁, runFirst, runRest⟩ := bind_ok (show (decl d >>= fun _ => rest.forM decl).run g = _ from run)
    obtain ⟨_, runs, adds, _⟩ := runs_decl d top
    rw [runFirst] at runs
    cases runs
    obtain ⟨first, added, implements⟩ := implements_decl top runFirst
    obtain ⟨others, added', implements'⟩ := ih adds.topLevel runRest
    refine ⟨first ++ others, by rw [added', added, List.append_assoc], ?_⟩
    have both := List.rel_append implements implements'
    cases d <;> exact both

theorem implements_of_run {s : Source} (run : Codegen.run s = .ok g) :
    List.Forall₂ Function.Implements s.functions g.emitter.program.functions := by
  obtain ⟨g₁, runDecls, adds, _⟩ := runs_decls s.decls topLevel_initial
  rw [run_eq_completed runDecls adds.topLevel] at run
  cases run
  obtain ⟨functions, added, implements⟩ := implements_decls topLevel_initial runDecls
  have program : (g₁.completed s).emitter.program.functions = g₁.emitter.functions := by
    simp [Emitter.program, completed, finished, landed, aimed, adds.topLevel.current]
  rw [program, added]
  exact implements

end Codegen

/-- The functions of the code for a text, with or without diagnostics, are those that the text declares,
    in order. Each has the activation record of its parameters, and enters by an instruction that tells
    the size of the record and the number of the parameters. -/
theorem records_of_text (text : Text) :
    ∃ g, generate (parsedText text).source = .ok g ∧ (∀ c, compile text = .ok c → c.program = g.emitter.program) ∧
      let p := g.emitter.program
      List.Forall₂ Function.Implements (parsedText text).source.functions p.functions ∧
      ∀ fn ∈ p.functions, ∃ entry : Nat, fn.entry = entry ∧
        p.code[entry]? = some { op := .func, a1 := .imm fn.frame.size, a2 := .imm fn.frame.params } := by
  obtain ⟨g, run, _⟩ := exists_generated text
  refine ⟨g, generate_of_run run, fun c compiles => ?_, Codegen.implements_of_run run, fun fn member => ?_⟩
  · obtain ⟨g', assembly, run', _, rfl⟩ := generated_of_compile compiles
    rw [run] at run'
    cases run'
    rfl
  · obtain ⟨entry, last, _, spans⟩ := (Codegen.outline_of_run run).1.spans fn member
    exact ⟨entry, spans.startsAt, spans.enter⟩

end MiniC
