import MiniC.Proofs.Environment
import MiniC.Proofs.Generation.Actions
import MiniC.Proofs.Syntax

namespace MiniC

/-- Slots that follow one another from an offset up to another. -/
inductive Slot.Packed : Word → List Slot → Word → Prop where
  | nil {a : Word} : Packed a [] a
  | cons {a b : Word} {s : Slot} {slots : List Slot} : s.offset = a → Packed (a + s.size) slots b →
      Packed a (s :: slots) b

theorem Slot.Packed.push {a b : Word} {slots : List Slot} (h : Packed a slots b) {s : Slot} (offset : s.offset = b) :
    Packed a (slots ++ [s]) (b + s.size) := by
  induction h with
  | nil => exact .cons offset .nil
  | cons first _ ih => exact .cons first (ih offset)

def SlotKind.Inner (kind : SlotKind) : Prop :=
  kind = .var ∨ kind = .temp

/-- A function of which more slots may have been taken. -/
structure Function.Extends (f f' : Function) : Prop where
  name : f'.name = f.name
  entry : f'.entry = f.entry
  stop : f'.stop = f.stop
  params : f'.frame.params = f.frame.params
  slots : f.frame.slots <+: f'.frame.slots
  packed : Slot.Packed 0 f.frame.slots f.frame.size → Slot.Packed 0 f'.frame.slots f'.frame.size
  inner : ∀ more, f'.frame.slots = f.frame.slots ++ more → ∀ s ∈ more, s.kind.Inner

theorem Function.Extends.refl (f : Function) : f.Extends f := by
  refine ⟨rfl, rfl, rfl, rfl, List.prefix_rfl, id, fun more same s member => ?_⟩
  rw [List.self_eq_append_right.mp same] at member
  cases member

theorem Function.Extends.trans {f g h : Function} (first : f.Extends g) (second : g.Extends h) : f.Extends h where
  name := second.name.trans first.name
  entry := second.entry.trans first.entry
  stop := second.stop.trans first.stop
  params := second.params.trans first.params
  slots := first.slots.trans second.slots
  packed packed := second.packed (first.packed packed)
  inner more same s member := by
    obtain ⟨more₁, same₁⟩ := first.slots
    obtain ⟨more₂, same₂⟩ := second.slots
    rw [← same₂, ← same₁, List.append_assoc, List.append_cancel_left_eq] at same
    subst same
    rcases List.mem_append.mp member with member | member
    · exact first.inner more₁ same₁.symm s member
    · exact second.inner more₂ same₂.symm s member

namespace Codegen

def openJump : Instruction :=
  { op := .jp, a1 := .unresolved }

/-- The loops around a statement before and after it: the innermost may be left from more places,
    by jumps in the code from an index on. -/
def LoopsGrow (low : Nat) (code : Array Instruction) : List Loop → List Loop → Prop
  | [], [] => True
  | l :: outer, l' :: outer' =>
    l'.start = l.start ∧ outer' = outer ∧
      ∃ more, l'.exits = l.exits ++ more ∧ ∀ i ∈ more, low ≤ i ∧ code[i]? = some openJump
  | _, _ => False

/-- What an action within a function or a declaration may change, the visible scopes aside. -/
structure Moves (g g' : Codegen) : Prop where
  code : ∀ {index : Nat} {i : Instruction}, g.code[index]? = some i → g'.code[index]? = some i
  errors : g.errors.toList <+: g'.errors.toList
  function : g'.function = g.function
  functions : g'.emitter.functions = g.emitter.functions
  current : Option.Rel Function.Extends g.emitter.current g'.emitter.current
  nextGlobal : g.emitter.current.isSome → g'.emitter.nextGlobal = g.emitter.nextGlobal
  loops : LoopsGrow g.code.size g'.code g.loops g'.loops
  symbols : g.scopes.all <+: g'.scopes.all

structure Grows (g g' : Codegen) : Prop extends Moves g g' where
  visible : g'.scopes.visible = g.scopes.visible

structure Keeps (g g' : Codegen) : Prop extends Grows g g' where
  sameLoops : g'.loops = g.loops

/-- The jumps out of the loops at hand all await their target. -/
def ExitsOpen (g : Codegen) : Prop :=
  ∀ l ∈ g.loops, ∀ j ∈ l.exits, g.code[j]? = some openJump

theorem LoopsGrow.refl (low : Nat) (code : Array Instruction) (loops : List Loop) :
    LoopsGrow low code loops loops := by
  cases loops with
  | nil => trivial
  | cons l outer => exact ⟨rfl, rfl, [], by simp, by simp⟩

theorem LoopsGrow.trans {a b : Nat} {code code' : Array Instruction} {x y z : List Loop} (ab : a ≤ b)
    (kept : ∀ {index : Nat} {i : Instruction}, code[index]? = some i → code'[index]? = some i)
    (first : LoopsGrow a code x y) (second : LoopsGrow b code' y z) : LoopsGrow a code' x z := by
  match x, y, z, first, second with
  | [], [], [], _, _ => trivial
  | l :: _, l' :: _, l'' :: _, ⟨start, outer, more, exits, jumps⟩, ⟨start', outer', more', exits', jumps'⟩ =>
    refine ⟨start'.trans start, outer'.trans outer, more ++ more', by simp [exits', exits], ?_⟩
    intro i member
    rcases List.mem_append.mp member with member | member
    · exact ⟨(jumps i member).1, kept (jumps i member).2⟩
    · exact ⟨Nat.le_trans ab (jumps' i member).1, (jumps' i member).2⟩

theorem currentExtends_refl (x : Option Function) : Option.Rel Function.Extends x x := by
  cases x with
  | none => exact .none
  | some f => exact .some (.refl f)

theorem currentExtends_trans {x y z : Option Function} (first : Option.Rel Function.Extends x y)
    (second : Option.Rel Function.Extends y z) : Option.Rel Function.Extends x z := by
  cases first with
  | none => exact second
  | some first =>
    cases second with
    | some second => exact .some (first.trans second)

namespace Moves

theorem refl (g : Codegen) : Moves g g :=
  ⟨id, List.prefix_rfl, rfl, rfl, currentExtends_refl _, fun _ => rfl, .refl _ _ _, List.prefix_rfl⟩

theorem size_le {g g' : Codegen} (h : Moves g g') : g.code.size ≤ g'.code.size := by
  refine Nat.le_of_not_lt fun more => ?_
  have bound := (Array.getElem?_eq_some_iff.mp (h.code (Array.getElem?_eq_getElem more))).1
  omega

theorem inside {g g' : Codegen} (h : Moves g g') (inside : g.emitter.current.isSome) :
    g'.emitter.current.isSome := by
  have related := h.current
  generalize g.emitter.current = x, g'.emitter.current = y at inside related
  cases related with
  | none => exact inside
  | some _ => rfl

theorem trans {f g h : Codegen} (first : Moves f g) (second : Moves g h) : Moves f h where
  code found := second.code (first.code found)
  errors := first.errors.trans second.errors
  function := second.function.trans first.function
  functions := second.functions.trans first.functions
  current := currentExtends_trans first.current second.current
  nextGlobal inside := (second.nextGlobal (first.inside inside)).trans (first.nextGlobal inside)
  loops := .trans first.size_le second.code first.loops second.loops
  symbols := first.symbols.trans second.symbols

theorem jumps {g g' : Codegen} {jump : Nat} (h : Moves g g') (jumps : g.Jumps jump) : g'.Jumps jump := by
  obtain ⟨i, found, target⟩ := jumps
  exact ⟨i, h.code found, target⟩

theorem exitsOpen {g g' : Codegen} (h : Moves g g') (exits : g.ExitsOpen) : g'.ExitsOpen := by
  have grown := h.loops
  intro l' member j exit
  unfold ExitsOpen at exits
  generalize g.loops = x, g'.loops = y at exits grown member
  match x, y, grown with
  | [], [], _ => cases member
  | l :: outer, l'' :: outer', ⟨_, same, more, all, jumps⟩ =>
    rcases List.mem_cons.mp member with rfl | member
    · rw [all] at exit
      rcases List.mem_append.mp exit with exit | exit
      · exact h.code (exits l (by simp) j exit)
      · exact (jumps j exit).2
    · subst same
      exact h.code (exits l' (by simp [member]) j exit)

theorem emitted (g : Codegen) (i : Instruction) : Moves g (g.emitted i) := by
  refine ⟨?_, List.prefix_rfl, rfl, rfl, currentExtends_refl _, fun _ => rfl, .refl _ _ _, List.prefix_rfl⟩
  intro index x found
  have bound := (Array.getElem?_eq_some_iff.mp found).1
  rw [emitted_code, Array.getElem?_push_lt bound, ← found, Array.getElem?_eq_getElem bound]

theorem judged (g : Codegen) (line : Nat) (v : Verdict) : Moves g (g.judged line v) := by
  cases v with
  | accepted => exact .refl g
  | spoiled => exact .refl g
  | rejected error =>
    exact ⟨id, by simp [Codegen.judged, Verdict.error?], rfl, rfl, currentExtends_refl _, fun _ => rfl,
      .refl _ _ _, List.prefix_rfl⟩

theorem taken (g : Codegen) (temps : Nat) (name : Text) {kind : SlotKind} (inner : kind.Inner) (size : Word) :
    Moves g { g with emitter := { g.emitter with temps := temps }.take name kind size } := by
  unfold Emitter.take
  cases h : g.emitter.current with
  | none =>
    refine ⟨id, List.prefix_rfl, rfl, rfl, ?_, by simp [h], .refl _ _ _, List.prefix_rfl⟩
    rw [h]
    exact .none
  | some f =>
    refine ⟨id, List.prefix_rfl, rfl, rfl, ?_, fun _ => rfl, .refl _ _ _, List.prefix_rfl⟩
    rw [h]
    refine .some ⟨rfl, rfl, rfl, rfl, by simp [Frame.push], fun packed => packed.push rfl, fun more same s member => ?_⟩
    rw [← List.append_cancel_left same, List.mem_singleton] at member
    rw [member]
    exact inner

theorem rescoped (g : Codegen) {scopes : Scopes} (symbols : g.scopes.all <+: scopes.all) :
    Moves g { g with scopes := scopes } :=
  ⟨id, List.prefix_rfl, rfl, rfl, currentExtends_refl _, fun _ => rfl, .refl _ _ _, symbols⟩

/-- A jump that was emitted after `g` and does not leave the innermost loop may be patched. -/
theorem aimed {g g' : Codegen} (h : Moves g g') {jump : Nat} (later : g.code.size ≤ jump)
    (settled : ∀ l ∈ g'.loops.head?, jump ∉ l.exits) (target : Nat) : Moves g (g'.aimed jump target) := by
  refine ⟨?_, h.errors, h.function, h.functions, h.current, h.nextGlobal, ?_, h.symbols⟩
  · intro index i found
    have bound := (Array.getElem?_eq_some_iff.mp found).1
    rw [aimed_code, Array.getElem?_modify, if_neg (by omega)]
    exact h.code found
  · have grown := h.loops
    have same : (g'.aimed jump target).loops = g'.loops := rfl
    rw [same]
    generalize g.loops = x, g'.loops = y at grown settled
    match x, y, grown with
    | [], [], _ => trivial
    | l :: outer, l' :: outer', ⟨start, outers, more, exits, jumps⟩ =>
      refine ⟨start, outers, more, exits, fun i member => ⟨(jumps i member).1, ?_⟩⟩
      have inside : jump ∉ l'.exits := settled l' (by simp)
      have other : jump ≠ i := by
        rintro rfl
        exact inside (by simp [exits, member])
      rw [aimed_code, Array.getElem?_modify, if_neg other]
      exact (jumps i member).2

end Moves

def slots (g : Codegen) : List Slot :=
  match g.emitter.current with
  | some f => f.frame.slots
  | none => []

theorem Moves.slots {g g' : Codegen} (h : Moves g g') : g.slots <+: g'.slots := by
  have related := h.current
  unfold Codegen.slots
  generalize g.emitter.current = x, g'.emitter.current = y at related
  cases related with
  | none => exact List.prefix_rfl
  | some extends_ => exact extends_.slots

namespace Grows

theorem refl (g : Codegen) : Grows g g :=
  ⟨.refl g, rfl⟩

theorem trans {f g h : Codegen} (first : Grows f g) (second : Grows g h) : Grows f h :=
  ⟨first.toMoves.trans second.toMoves, second.visible.trans first.visible⟩

theorem emitted (g : Codegen) (i : Instruction) : Grows g (g.emitted i) :=
  ⟨.emitted g i, rfl⟩

theorem judged (g : Codegen) (line : Nat) (v : Verdict) : Grows g (g.judged line v) :=
  ⟨.judged g line v, by rw [judged_scopes]⟩

end Grows

theorem Keeps.refl (g : Codegen) : Keeps g g :=
  ⟨.refl g, rfl⟩

theorem Keeps.trans {f g h : Codegen} (first : Keeps f g) (second : Keeps g h) : Keeps f h :=
  ⟨first.toGrows.trans second.toGrows, second.sameLoops.trans first.sameLoops⟩

theorem Keeps.emitted (g : Codegen) (i : Instruction) : Keeps g (g.emitted i) :=
  ⟨.emitted g i, rfl⟩

theorem Keeps.judged (g : Codegen) (line : Nat) (v : Verdict) : Keeps g (g.judged line v) :=
  ⟨.judged g line v, by cases v <;> rfl⟩

theorem Keeps.reserved (g : Codegen) : Keeps g g.reserved :=
  ⟨⟨.taken g _ _ (.inr rfl) _, rfl⟩, rfl⟩

theorem reserved_slots {g : Codegen} (inside : g.emitter.current.isSome) :
    ∃ s, g.reserved.slots = g.slots ++ [s] ∧ s.kind = .temp ∧ s.size = wordSize ∧
      g.temp = .slot s.offset := by
  obtain ⟨f, current⟩ := Option.isSome_iff_exists.mp inside
  simp only [slots, reserved, Emitter.take, temp, Emitter.free, current, Frame.push]
  exact ⟨_, rfl, rfl, rfl, rfl⟩

theorem Keeps.based (g : Codegen) (s : Symbol) : Keeps g (g.based s) := by
  unfold Codegen.based
  split
  · exact .refl g
  · exact (Keeps.reserved g).trans (.emitted _ _)

theorem Keeps.passing (g : Codegen) (x : Value) : Keeps g (g.passing x) := by
  unfold Codegen.passing
  split
  · exact .based g _
  · exact .refl g

theorem Keeps.branched (g : Codegen) (conjunction : Bool) (x : Operand) : Keeps g (g.branched conjunction x) := by
  unfold Codegen.branched
  split
  · exact ((Keeps.reserved g).trans (.emitted _ _)).trans (.emitted _ _)
  · exact ((((Keeps.reserved g).trans (.reserved _)).trans (.emitted _ _)).trans (.emitted _ _)).trans
      (.emitted _ _)

theorem reserved_size (g : Codegen) : g.reserved.code.size = g.code.size := by
  unfold reserved Emitter.take
  cases g.emitter.current <;> rfl

theorem judged_code (g : Codegen) (line : Nat) (v : Verdict) : (g.judged line v).code = g.code := by
  rw [code, judged_emitter]

theorem judged_size (g : Codegen) (line : Nat) (v : Verdict) : (g.judged line v).code.size = g.code.size := by
  rw [judged_code]

theorem based_size_le (g : Codegen) (s : Symbol) : (g.based s).code.size ≤ g.code.size + 1 := by
  unfold based
  split
  · omega
  · simp [reserved_size]

theorem passing_size_le (g : Codegen) (x : Value) : (g.passing x).code.size ≤ g.code.size + 1 := by
  unfold passing
  split
  · exact based_size_le g _
  · omega

theorem branched_size_le (g : Codegen) (conjunction : Bool) (x : Operand) :
    (g.branched conjunction x).code.size ≤ g.code.size + 3 := by
  unfold branched
  split <;> simp [reserved_size]

/-- An action that comes to an end, keeps what `R` says and emits at most `n` instructions. -/
def Yields {α : Type} (R : Codegen → Codegen → Prop) (n : Nat) (x : GenM α) (g : Codegen) : Prop :=
  ∃ a g', x.run g = .ok a g' ∧ R g g' ∧ g'.code.size ≤ g.code.size + n

theorem Yields.bind {α β : Type} {R : Codegen → Codegen → Prop} (trans : ∀ f g h, R f g → R g h → R f h)
    {m n : Nat} {x : GenM α} {f : α → GenM β} {g : Codegen} (first : Yields R m x g)
    (second : ∀ a g', x.run g = .ok a g' → R g g' → Yields R n (f a) g') : Yields R (m + n) (x >>= f) g := by
  obtain ⟨a, g', run, related, size⟩ := first
  obtain ⟨b, g'', run', related', size'⟩ := second a g' run related
  exact ⟨b, g'', run_bind_ok run run', trans _ _ _ related related', by omega⟩

theorem Yields.of_run {α : Type} {R : Codegen → Codegen → Prop} {n : Nat} {x : GenM α} {g g' : Codegen} {a : α}
    (h : Yields R n x g) (run : x.run g = .ok a g') : R g g' := by
  obtain ⟨a', g'', run', related, _⟩ := h
  rw [run] at run'
  cases run'
  exact related

theorem Yields.mono {α : Type} {R : Codegen → Codegen → Prop} {m n : Nat} {x : GenM α} {g : Codegen}
    (h : Yields R m x g) (le : m ≤ n) : Yields R n x g := by
  obtain ⟨a, g', run, related, size⟩ := h
  exact ⟨a, g', run, related, by omega⟩

theorem Yields.keeping {α β : Type} {m n : Nat} {x : GenM α} {f : α → GenM β} {g : Codegen}
    (first : Yields Keeps m x g) (second : ∀ a g', Yields Keeps n (f a) g') : Yields Keeps (m + n) (x >>= f) g :=
  first.bind (fun _ _ _ ab bc => ab.trans bc) fun a g' _ _ => second a g'

theorem yields_index (array : Ident) (x : Value) (g : Codegen) : Yields Keeps 2 (index array x) g := by
  cases found : g.scopes.resolve? array.name with
  | none => exact ⟨_, _, run_index_none found, .judged _ _ _, by simp [judged_size]⟩
  | some s =>
    by_cases accepted : Check.index s x = .accepted
    · refine ⟨_, _, run_index_accepted found accepted,
        ((Keeps.based g s).trans (.reserved _)).trans (.emitted _ _), ?_⟩
      have size := based_size_le g s
      simp [reserved_size]
      omega
    · exact ⟨_, _, run_index_refused found accepted, .judged _ _ _, by simp [judged_size]⟩

theorem yields_name (id : Ident) (g : Codegen) : Yields Keeps 0 (name id) g := by
  cases found : g.scopes.resolve? id.name with
  | none => exact ⟨_, _, run_name_none found, .judged _ _ _, by simp [judged_size]⟩
  | some s => exact ⟨_, _, run_name_some found, .judged _ _ _, by simp [judged_size]⟩

theorem yields_beginCall (id : Ident) (g : Codegen) : Yields Keeps 0 (beginCall id) g := by
  cases found : g.scopes.resolve? id.name with
  | none => exact ⟨_, _, run_beginCall_none found, .judged _ _ _, by simp [judged_size]⟩
  | some s =>
    by_cases function : s.kind = .func
    · exact ⟨_, _, run_beginCall_function found function, .refl g, by simp⟩
    · exact ⟨_, _, run_beginCall_other found function, .judged _ _ _, by simp [judged_size]⟩

theorem yields_argument (c : Call) (x : Value) (g : Codegen) : Yields Keeps 2 (argument c x) g := by
  cases h : c.callee with
  | none => exact ⟨_, _, run_argument_unknown h, .refl g, by simp⟩
  | some s =>
    have run := run_argument (x := x) (g := g) h
    have judged := Keeps.judged g c.line (Check.argument s c.count x)
    dsimp only at run
    split at run
    · exact ⟨_, _, run, judged, by simp [judged_size]⟩
    · split at run
      · exact ⟨_, _, run, judged, by simp [judged_size]⟩
      · refine ⟨_, _, run, (judged.trans (.passing _ x)).trans (.emitted _ _), ?_⟩
        have size := passing_size_le (g.judged c.line (Check.argument s c.count x)) x
        simp only [emitted_code, Array.size_push, judged_size] at size ⊢
        omega

theorem yields_endCall (c : Call) (g : Codegen) : Yields Keeps 1 (endCall c) g := by
  cases h : c.callee with
  | none => exact ⟨_, _, run_endCall_unknown h, .refl g, by simp⟩
  | some s =>
    have run := run_endCall (g := g) h
    have judged := Keeps.judged g c.line (Check.argumentCount s c.count)
    dsimp only at run
    split at run
    · split at run
      · exact ⟨_, _, run, judged.trans (.emitted _ _), by simp [judged_size]⟩
      · exact ⟨_, _, run, judged, by simp [judged_size]⟩
    · split at run
      · exact ⟨_, _, run, judged.trans (.emitted _ _), by simp [judged_size]⟩
      · exact ⟨_, _, run, (judged.trans (.reserved _)).trans (.emitted _ _), by simp [judged_size, reserved_size]⟩

theorem yields_unary (op : UnaryOp) (line : Nat) (x : Value) (g : Codegen) : Yields Keeps 1 (unary op line x) g := by
  by_cases accepted : Check.operand x = .accepted
  · exact ⟨_, _, run_unary_accepted accepted, (Keeps.reserved g).trans (.emitted _ _), by simp [reserved_size]⟩
  · exact ⟨_, _, run_unary_refused accepted, .judged _ _ _, by simp [judged_size]⟩

theorem yields_binary {op : BinaryOp} (known : op.opcode?.isSome) (line : Nat) (x y : Value) (g : Codegen) :
    Yields Keeps 1 (binary op line x y) g := by
  obtain ⟨operation, known⟩ := Option.isSome_iff_exists.mp known
  by_cases accepted : Check.operands x y = .accepted
  · exact ⟨_, _, run_binary_accepted known accepted, (Keeps.reserved g).trans (.emitted _ _),
      by simp [reserved_size]⟩
  · exact ⟨_, _, run_binary_refused accepted, .judged _ _ _, by simp [judged_size]⟩

theorem yields_assign (line : Nat) (x y : Value) (g : Codegen) : Yields Keeps 1 (assign line x y) g := by
  by_cases accepted : Check.assignment x y = .accepted
  · exact ⟨_, _, run_assign_accepted accepted, .emitted _ _, by simp⟩
  · exact ⟨_, _, run_assign_refused accepted, .judged _ _ _, by simp [judged_size]⟩

theorem Keeps.aimed {g g' : Codegen} (h : Keeps g g') {jump : Nat} (later : g.code.size ≤ jump) (target : Nat) :
    Keeps g (g'.aimed jump target) := by
  refine ⟨⟨⟨?_, h.errors, h.function, h.functions, h.current, h.nextGlobal, ?_, h.symbols⟩, h.visible⟩, h.sameLoops⟩
  · intro index i found
    have bound := (Array.getElem?_eq_some_iff.mp found).1
    rw [aimed_code, Array.getElem?_modify, if_neg (by omega)]
    exact h.code found
  · have same : (g'.aimed jump target).loops = g.loops := h.sameLoops
    rw [same]
    exact .refl _ _ _

theorem emitted_found (g : Codegen) (i : Instruction) : (g.emitted i).code[g.code.size]? = some i :=
  Array.getElem?_push_size

theorem emitted_last (g : Codegen) (i : Instruction) :
    (g.emitted i).code[(g.emitted i).code.size - 1]? = some i := by
  simp

theorem branched_jump (g : Codegen) (conjunction : Bool) (x : Operand) :
    ∃ i, (g.branched conjunction x).code[(g.branched conjunction x).code.size - 1]? = some i ∧ i.op = .jpf ∧
      g.code.size ≤ (g.branched conjunction x).code.size - 1 := by
  unfold branched
  cases conjunction with
  | false =>
    refine ⟨_, emitted_last _ _, rfl, ?_⟩
    simp only [Bool.false_eq_true, if_false, emitted_code, Array.size_push, reserved_size]
    omega
  | true =>
    refine ⟨_, emitted_last _ _, rfl, ?_⟩
    simp only [if_true, emitted_code, Array.size_push, reserved_size]
    omega

theorem beginLogical_jumps {conjunction : Bool} {line : Nat} {x : Value} {g g₁ : Codegen} {l : Option Logical}
    (run : (beginLogical conjunction line x).run g = .ok l g₁) :
    Keeps g g₁ ∧ ∀ l' ∈ l, g₁.Jumps l'.jump := by
  by_cases accepted : Check.operand x = .accepted
  · rw [run_beginLogical_accepted accepted] at run
    cases run
    obtain ⟨jump, found, isJump, _⟩ := branched_jump g conjunction x.operand
    refine ⟨.branched _ _ _, fun l' member => ?_⟩
    cases member
    exact ⟨jump, found, by rw [isJump]; rfl⟩
  · rw [run_beginLogical_refused accepted] at run
    cases run
    exact ⟨.judged _ _ _, fun l' member => by cases member⟩

theorem yields_logical {conjunction : Bool} {line n : Nat} {x : Value} {right : GenM Value} {g : Codegen}
    (yields : ∀ g, Yields Keeps n right g) :
    Yields Keeps (n + 4) (do
      let l ← beginLogical conjunction line x
      let y ← right
      endLogical l line y) g := by
  by_cases accepted : Check.operand x = .accepted
  · obtain ⟨y, g', run, kept, size⟩ := yields (g.branched conjunction x.operand)
    obtain ⟨jump, found, isJump, later⟩ := branched_jump g conjunction x.operand
    have jumps : g'.Jumps ((g.branched conjunction x.operand).code.size - 1) :=
      kept.toMoves.jumps ⟨jump, found, by rw [isJump]; rfl⟩
    have before := (Keeps.branched g conjunction x.operand).trans kept
    have started := branched_size_le g conjunction x.operand
    have start := @run_beginLogical_accepted conjunction line x g accepted
    by_cases accepted' : Check.operand y = .accepted
    · refine ⟨_, _, run_bind_ok start (run_bind_ok run (run_endLogical_accepted accepted' jumps)),
        (before.trans (.emitted _ _)).aimed later _, ?_⟩
      simp only [landed_code, Array.size_modify, emitted_code, Array.size_push]
      omega
    · refine ⟨_, _, run_bind_ok start (run_bind_ok run (run_endLogical_refused accepted' jumps)),
        (before.trans (.judged _ line (Check.operand y))).aimed later _, ?_⟩
      simp only [landed_code, Array.size_modify, judged_size]
      omega
  · obtain ⟨y, g', run, kept, size⟩ := yields (g.judged line (Check.operand x))
    refine ⟨_, _, run_bind_ok (run_beginLogical_refused accepted) (run_bind_ok run run_endLogical_none),
      ((Keeps.judged _ _ _).trans kept).trans (.judged _ line (Check.operand y)), ?_⟩
    simp only [judged_size] at size ⊢
    omega

theorem yields_arguments {args : List Expr} (yields : ∀ e ∈ args, ∀ g, Yields Keeps (4 * e.weight) (expr e) g)
    (c : Call) (g : Codegen) : Yields Keeps (4 * Expr.weights args) (arguments c args) g := by
  induction args generalizing c g with
  | nil => exact ⟨_, _, rfl, .refl g, by omega⟩
  | cons e rest ih =>
    have later := ih fun e member => yields e (by simp [member])
    simp only [arguments, Expr.weights]
    exact ((yields e (by simp) g).keeping fun x g' => (yields_argument c x g').keeping later).mono (by omega)

theorem yields_expr (e : Expr) (g : Codegen) : Yields Keeps (4 * e.weight) (expr e) g := by
  induction e using Expr.induction generalizing g with
  | missing => exact ⟨_, _, rfl, .refl g, by omega⟩
  | number n => exact ⟨_, _, rfl, .refl g, by omega⟩
  | name id =>
    simp only [expr, Expr.weight]
    exact (yields_name id g).mono (by omega)
  | index array e ih =>
    simp only [expr, Expr.weight]
    exact ((ih g).keeping (yields_index array)).mono (by omega)
  | call callee args ih =>
    simp only [expr, Expr.weight]
    exact ((yields_beginCall callee g).keeping fun c g' =>
      (yields_arguments ih c g').keeping yields_endCall).mono (by omega)
  | unary op line e ih =>
    simp only [expr, Expr.weight]
    exact ((ih g).keeping (yields_unary op line)).mono (by omega)
  | binary op line left right ihl ihr =>
    have logical : ∀ conjunction, Yields Keeps (4 * (1 + left.weight + right.weight)) (do
        let x ← expr left
        let l ← beginLogical conjunction line x
        let y ← expr right
        endLogical l line y) g := fun conjunction =>
      ((ihl g).keeping fun x g' => yields_logical ihr).mono (by omega)
    have strict : op.opcode?.isSome → Yields Keeps (4 * (1 + left.weight + right.weight)) (do
        let x ← expr left
        let y ← expr right
        binary op line x y) g := fun known =>
      ((ihl g).keeping fun x g' => (ihr g').keeping (yields_binary known line x)).mono (by omega)
    cases op with
    | or => simpa only [expr, Expr.weight] using logical _
    | and => simpa only [expr, Expr.weight] using logical _
    | _ => simpa only [expr, Expr.weight] using strict rfl
  | assign line target value iht ihv =>
    simp only [expr, Expr.weight]
    exact ((iht g).keeping fun x g' => (ihv g').keeping (yields_assign line x)).mono (by omega)

theorem Keeps.of_expr {e : Expr} {g g' : Codegen} {v : Value} (run : (expr e).run g = .ok v g') : Keeps g g' :=
  (yields_expr e g).of_run run

theorem Keeps.of_argument {c c' : Call} {x : Value} {g g' : Codegen} (run : (argument c x).run g = .ok c' g') :
    Keeps g g' :=
  (yields_argument c x g).of_run run

theorem Keeps.of_arguments {c c' : Call} {args : List Expr} {g g' : Codegen}
    (run : (arguments c args).run g = .ok c' g') : Keeps g g' :=
  (yields_arguments (fun e _ => yields_expr e) c g).of_run run

theorem Keeps.of_endCall {c : Call} {v : Value} {g g' : Codegen} (run : (endCall c).run g = .ok v g') :
    Keeps g g' :=
  (yields_endCall c g).of_run run

theorem ExitsOpen.size_not_exit {g : Codegen} (h : g.ExitsOpen) : ∀ l ∈ g.loops.head?, g.code.size ∉ l.exits := by
  intro l innermost exit
  have found := h l (List.mem_of_head? innermost) _ exit
  simp at found

theorem Moves.not_exit {g g' : Codegen} (h : Moves g g') {jump : Nat} (bound : jump < g.code.size)
    (before : ∀ l ∈ g.loops.head?, jump ∉ l.exits) : ∀ l ∈ g'.loops.head?, jump ∉ l.exits := by
  have grown := h.loops
  intro l' innermost exit
  generalize g.loops = x, g'.loops = y at grown before innermost
  match x, y, grown with
  | [], [], _ => cases innermost
  | l :: outer, l'' :: outer', ⟨_, _, more, exits, jumps⟩ =>
    cases innermost
    rw [exits] at exit
    rcases List.mem_append.mp exit with exit | exit
    · exact before l rfl exit
    · have later := (jumps jump exit).1
      omega

/-- Whether a jump out of the innermost loop awaits its target at an index. -/
def Pending (g : Codegen) (i : Nat) : Prop :=
  ∃ l ∈ g.loops.head?, i ∈ l.exits

theorem Moves.pending {g g' : Codegen} (h : Moves g g') {i : Nat} (pending : g.Pending i) : g'.Pending i := by
  have grown := h.loops
  obtain ⟨l, innermost, exit⟩ := pending
  unfold Pending
  generalize g.loops = x, g'.loops = y at grown innermost
  match x, y, grown with
  | [], [], _ => cases innermost
  | l₀ :: _, l' :: _, ⟨_, _, more, exits, _⟩ =>
    cases innermost
    exact ⟨l', rfl, by simp [exits, exit]⟩

theorem Moves.not_pending {g g' : Codegen} (h : Moves g g') {i : Nat} (bound : i < g.code.size)
    (settled : ¬ g.Pending i) : ¬ g'.Pending i := by
  rintro ⟨l, innermost, exit⟩
  exact h.not_exit bound (fun l innermost exit => settled ⟨l, innermost, exit⟩) l innermost exit

theorem ExitsOpen.not_pending {g : Codegen} (h : g.ExitsOpen) {i : Nat} (low : g.code.size ≤ i) : ¬ g.Pending i := by
  rintro ⟨l, innermost, exit⟩
  have bound := (Array.getElem?_eq_some_iff.mp (h l (List.mem_of_head? innermost) i exit)).1
  omega

theorem Grows.landed {g g' : Codegen} {i : Instruction} (exits : g.ExitsOpen) (h : Grows (g.emitted i) g') :
    Grows g (g'.landed g.code.size) := by
  have settled : ∀ l ∈ g'.loops.head?, g.code.size ∉ l.exits := h.toMoves.not_exit (by simp) exits.size_not_exit
  exact ⟨((Grows.emitted g i).trans h).toMoves.aimed (Nat.le_refl _) settled _,
    ((Grows.emitted g i).trans h).visible⟩

theorem aimed_aimed (i : Instruction) (target : Nat) : (i.aimed target).aimed target = i.aimed target := by
  rcases i with ⟨op, a1, a2, a3⟩
  cases op <;> rfl

theorem landedAll_size (g : Codegen) (jumps : List Nat) : (g.landedAll jumps).code.size = g.code.size := by
  induction jumps generalizing g with
  | nil => rfl
  | cons jump rest ih => exact (ih (g.landed jump)).trans (Array.size_modify ..)

theorem landedAll_getElem? (g : Codegen) (jumps : List Nat) (index : Nat) :
    (g.landedAll jumps).code[index]? =
      if index ∈ jumps then g.code[index]?.map (·.aimed g.code.size) else g.code[index]? := by
  induction jumps generalizing g with
  | nil => rfl
  | cons jump rest ih =>
    have sizes : (g.landed jump).code.size = g.code.size := Array.size_modify ..
    have rest := ih (g.landed jump)
    rw [sizes, landed_code, Array.getElem?_modify] at rest
    refine rest.trans ?_
    by_cases same : jump = index
    · subst same
      cases g.code[jump]? <;> simp [aimed_aimed]
    · simp [same, Ne.symm same]

theorem landedAll_eq (g : Codegen) (jumps : List Nat) :
    g.landedAll jumps = { g with emitter := { g.emitter with code := (g.landedAll jumps).code } } := by
  induction jumps generalizing g with
  | nil => rfl
  | cons jump rest ih => exact ih (g.landed jump)

theorem Grows.exitLoop {g g' : Codegen} {start : Nat} {l : Loop} {outer : List Loop}
    (h : Grows { g with loops := { start := start } :: g.loops } g') (loops : g'.loops = l :: outer) :
    Grows g { g'.landedAll l.exits with loops := outer } := by
  have grown := h.loops
  rw [loops] at grown
  obtain ⟨_, same, more, exits, jumps⟩ := grown
  rw [landedAll_eq]
  refine ⟨⟨?_, h.errors, h.function, h.functions, h.current, h.nextGlobal, ?_, h.symbols⟩, h.visible⟩
  · intro index i found
    have bound := (Array.getElem?_eq_some_iff.mp found).1
    have kept : index ∉ l.exits := by
      intro exit
      rw [exits] at exit
      have later := (jumps index exit).1
      change g.code.size ≤ index at later
      omega
    change (g'.landedAll l.exits).code[index]? = some i
    rw [landedAll_getElem?, if_neg kept]
    exact h.code found
  · subst same
    exact .refl _ _ _

structure Declares (g g' : Codegen) : Prop where
  code : g'.code = g.code
  errors : g.errors.toList <+: g'.errors.toList
  outer : g'.scopes.outer = g.scopes.outer
  function : g'.function = g.function
  functions : g'.emitter.functions = g.emitter.functions
  opened : g'.emitter.current.map (fun f => (f.name, f.entry)) = g.emitter.current.map fun f => (f.name, f.entry)
  loops : g'.loops = g.loops
  symbols : g.scopes.all <+: g'.scopes.all

theorem Declares.refl (g : Codegen) : Declares g g :=
  ⟨rfl, List.prefix_rfl, rfl, rfl, rfl, rfl, rfl, List.prefix_rfl⟩

theorem Declares.trans {f g h : Codegen} (first : Declares f g) (second : Declares g h) : Declares f h :=
  ⟨second.code.trans first.code, first.errors.trans second.errors, second.outer.trans first.outer,
    second.function.trans first.function, second.functions.trans first.functions,
    second.opened.trans first.opened, second.loops.trans first.loops, first.symbols.trans second.symbols⟩

theorem Declares.judged (g : Codegen) (line : Nat) (v : Verdict) : Declares g (g.judged line v) := by
  cases v with
  | accepted => exact .refl g
  | spoiled => exact .refl g
  | rejected error => exact ⟨rfl, by simp [Codegen.judged, Verdict.error?], rfl, rfl, rfl, rfl, rfl, List.prefix_rfl⟩

theorem Declares.taken (g : Codegen) (name : Text) (kind : SlotKind) (size : Word) :
    Declares g { g with emitter := g.emitter.take name kind size } := by
  unfold Emitter.take
  cases h : g.emitter.current with
  | none => exact ⟨rfl, List.prefix_rfl, rfl, rfl, rfl, by simp [h], rfl, List.prefix_rfl⟩
  | some f => exact ⟨rfl, List.prefix_rfl, rfl, rfl, rfl, by simp [h], rfl, List.prefix_rfl⟩

theorem Declares.counted (g : Codegen) : Declares g { g with emitter := g.emitter.countParam } := by
  refine ⟨rfl, List.prefix_rfl, rfl, rfl, rfl, ?_, rfl, List.prefix_rfl⟩
  simp only [Emitter.countParam, Option.map_map]
  rfl

theorem Declares.allocated (g : Codegen) (s : Symbol) : Declares g (g.allocated s) := by
  unfold Codegen.allocated
  cases s.isParam with
  | false => exact .taken g _ _ _
  | true => exact (Declares.counted g).trans (.taken _ _ _ _)

theorem eq_add_of_declare {t t' : Scopes} {s : Symbol} (h : t.declare s = .ok t') : t' = t.add s := by
  unfold Scopes.declare at h
  split at h
  · cases h
  · cases h
    rfl

theorem Declares.declared {g : Codegen} {s : Symbol} {scopes : Scopes} (h : g.scopes.declare s = .ok scopes) :
    Declares g { g with scopes := scopes } := by
  cases eq_add_of_declare h
  exact ⟨rfl, List.prefix_rfl, rfl, rfl, rfl, rfl, rfl, List.prefix_append _ _⟩

theorem yields_varDecl (d : VarDecl) (g : Codegen) :
    Yields (fun g g' => Declares g g' ∧ Moves g g') 0 (varDecl d) g := by
  have run := run_varDecl d g
  have declares : Declares g (g.examined d) := (Declares.judged _ _ _).trans (.judged _ _ _)
  have moves : Moves g (g.examined d) := (Moves.judged _ _ _).trans (.judged _ _ _)
  have scopes : (g.examined d).scopes = g.scopes := by
    rw [examined, judged_scopes, judged_scopes]
  cases h : g.scopes.declare (varSymbol d g.temp) with
  | error earlier =>
    rw [h] at run
    have size : ((g.examined d).judged d.id.line (.rejected (.redeclared earlier.name))).code = g.code :=
      (declares.trans (.judged _ _ _)).code
    exact ⟨_, _, run, ⟨declares.trans (.judged _ _ _), moves.trans (.judged _ _ _)⟩, by rw [size]; omega⟩
  | ok t =>
    rw [h] at run
    have declared := declares.trans (.declared (scopes ▸ h))
    have allocated := declared.trans (.allocated _ (varSymbol d g.temp))
    have local_ : (varSymbol d g.temp).isParam = false := rfl
    refine ⟨_, _, run, ⟨allocated, ?_⟩, by rw [allocated.code]; omega⟩
    refine (moves.trans (.rescoped _ (Declares.declared (scopes ▸ h)).symbols)).trans ?_
    simp only [Codegen.allocated, local_, Bool.false_eq_true, if_false]
    exact .taken _ _ _ (.inl rfl) _

theorem yields_forM {α : Type} {R : Codegen → Codegen → Prop} (refl : ∀ g, R g g)
    (trans : ∀ f g h, R f g → R g h → R f h) {f : α → GenM Unit} {l : List α}
    (yields : ∀ a ∈ l, ∀ g, Yields R 0 (f a) g) (g : Codegen) : Yields R 0 (l.forM f) g := by
  induction l generalizing g with
  | nil => exact ⟨_, _, rfl, refl g, by omega⟩
  | cons a rest ih =>
    change Yields R 0 (f a >>= fun _ => rest.forM f) g
    exact (yields a (by simp) g).bind trans fun _ g' _ _ => ih (fun b member => yields b (by simp [member])) g'

theorem yields_vars (vars : List VarDecl) (g : Codegen) :
    Yields (fun g g' => Declares g g' ∧ Moves g g') 0 (vars.forM varDecl) g :=
  yields_forM (fun g => ⟨.refl g, .refl g⟩)
    (fun _ _ _ first second => ⟨first.1.trans second.1, first.2.trans second.2⟩)
    (fun d _ => yields_varDecl d) g

theorem yields_leave (line : Nat) (g : Codegen) : Yields Grows 1 (leave line) g := by
  cases h : g.loops with
  | nil => exact ⟨_, _, run_leave_nil h, .judged _ _ _, by simp [judged_size]⟩
  | cons l outer =>
    refine ⟨_, _, run_leave_cons h, ⟨⟨(Moves.emitted g openJump).code, List.prefix_rfl, rfl, rfl,
      currentExtends_refl _, fun _ => rfl, ?_, List.prefix_rfl⟩, rfl⟩, Nat.le_of_eq (Array.size_push ..)⟩
    rw [h]
    refine ⟨rfl, rfl, [g.code.size], rfl, ?_⟩
    intro i member
    rw [List.mem_singleton.mp member]
    exact ⟨Nat.le_refl _, Array.getElem?_push_size⟩

theorem yields_again (line : Nat) (g : Codegen) : Yields Grows 1 (again line) g := by
  cases h : g.loops with
  | nil => exact ⟨_, _, run_again_nil h, .judged _ _ _, by simp [judged_size]⟩
  | cons l outer => exact ⟨_, _, run_again_cons h, .emitted _ _, by simp⟩

theorem yields_ret (line : Nat) (x : Option Value) (g : Codegen) : Yields Grows 1 (ret line x) g :=
  ⟨_, _, run_ret line x g, (Grows.judged _ _ _).trans (.emitted _ _), by simp [judged_size]⟩

theorem exit?_of_outer {t : Scopes} {scopes : List Scope} {scope : Scope} (h : t.outer = scope :: scopes) :
    ∃ t', t.exit? = some t' ∧ t'.visible = scope :: scopes ∧ t'.all = t.all :=
  ⟨_, Scopes.exit?_of_cons h, rfl, rfl⟩

theorem yields_stmts {body : List Stmt}
    (yields : ∀ s ∈ body, ∀ g, g.ExitsOpen → Yields Grows (4 * s.weight) (stmt s) g) (g : Codegen)
    (exits : g.ExitsOpen) : Yields Grows (4 * Stmt.weights body) (stmts body) g := by
  induction body generalizing g with
  | nil => exact ⟨_, _, rfl, .refl g, by omega⟩
  | cons s rest ih =>
    simp only [stmts, Stmt.weights]
    have whole := (yields s (by simp) g exits).bind (fun _ _ _ ab bc => ab.trans bc) fun _ g' _ grows =>
      ih (fun t member => yields t (by simp [member])) g' (grows.toMoves.exitsOpen exits)
    exact whole.mono (by omega)

theorem block_cases {vars : List VarDecl} {body : List Stmt} {g : Codegen}
    (ends : ∀ g : Codegen, g.ExitsOpen → Yields Grows (4 * Stmt.weights body) (stmts body) g) (exits : g.ExitsOpen) :
    ∃ g₁ g₂ scopes, (vars.forM varDecl).run { g with scopes := g.scopes.enter } = .ok () g₁ ∧
      Declares { g with scopes := g.scopes.enter } g₁ ∧ Moves g g₁ ∧ (stmts body).run g₁ = .ok () g₂ ∧ Grows g₁ g₂ ∧
      scopes.visible = g.scopes.visible ∧ scopes.all = g₂.scopes.all ∧
      (stmt (.block vars body)).run g = .ok () { g₂ with scopes := scopes } ∧
      g₂.code.size ≤ g.code.size + 4 * Stmt.weights body := by
  have entered : Moves g { g with scopes := g.scopes.enter } := .rescoped g List.prefix_rfl
  obtain ⟨_, g₁, runVars, ⟨declares, moves⟩, size⟩ := yields_vars vars { g with scopes := g.scopes.enter }
  obtain ⟨_, g₂, runBody, grows, size'⟩ := ends g₁ ((entered.trans moves).exitsOpen exits)
  have outer : g₂.scopes.outer = g.scopes.visible := by
    have visible := grows.visible
    simp only [Scopes.visible, List.cons.injEq] at visible
    exact visible.2.trans declares.outer
  obtain ⟨scopes, left, visible, symbols⟩ := exit?_of_outer outer
  refine ⟨g₁, g₂, scopes, runVars, declares, entered.trans moves, runBody, grows, visible, symbols, ?_, ?_⟩
  · exact run_bind_ok (run_enterScope g) (run_bind_ok runVars (run_bind_ok runBody (run_exitScope left)))
  · change g₁.code.size ≤ g.code.size + 0 at size
    omega

theorem emitted_jumps (g : Codegen) {i : Instruction} (target : i.op.target?.isSome) :
    (g.emitted i).Jumps g.code.size :=
  ⟨i, Array.getElem?_push_size, target⟩

def guarded (g : Codegen) (line : Nat) (x : Value) : Codegen :=
  (g.judged line (Check.operand x)).emitted { op := .jpf, a1 := tested x, a2 := .unresolved }

theorem guarded_size (g : Codegen) (line : Nat) (x : Value) : (g.guarded line x).code.size = g.code.size + 1 := by
  simp [guarded, judged_size]

theorem Keeps.guarded (g : Codegen) (line : Nat) (x : Value) : Keeps g (g.guarded line x) :=
  (Keeps.judged _ _ _).trans (.emitted _ _)

theorem guarded_jumps (g : Codegen) (line : Nat) (x : Value) : (g.guarded line x).Jumps g.code.size := by
  have jumps := emitted_jumps (g.judged line (Check.operand x)) (i := { op := .jpf, a1 := tested x, a2 := .unresolved }) rfl
  rwa [judged_size] at jumps

def looping (g : Codegen) : Codegen :=
  { g with loops := { start := g.code.size } :: g.loops }

theorem ExitsOpen.looping {g : Codegen} (h : g.ExitsOpen) : g.looping.ExitsOpen := by
  intro l member j exit
  rcases List.mem_cons.mp member with rfl | member
  · cases exit
  · exact h l member j exit

section Branches

variable {line : Nat} {e : Expr} {body orElse : Stmt} {g g' g₁ g₂ g₃ : Codegen} {x : Value}

theorem run_ifThen (condition : (expr e).run g = .ok x g₁) (first : (stmt body).run (g₁.guarded line x) = .ok () g₂)
    (moves : Moves (g₁.guarded line x) g₂) :
    (stmt (.ifThen line e body)).run g = .ok () (g₂.landed g₁.code.size) := by
  exact run_bind_ok condition (run_bind_ok (run_jumpUnless line x g₁) (run_bind_ok first
    (run_landHere (moves.jumps (guarded_jumps g₁ line x)))))

def turned (g : Codegen) (jump : Nat) : Codegen :=
  (g.emitted openJump).landed jump

theorem turned_size (g : Codegen) (jump : Nat) : (g.turned jump).code.size = g.code.size + 1 := by
  simp [turned]

theorem run_ifElse (condition : (expr e).run g = .ok x g₁) (first : (stmt body).run (g₁.guarded line x) = .ok () g₂)
    (moves : Moves (g₁.guarded line x) g₂) (second : (stmt orElse).run (g₂.turned g₁.code.size) = .ok () g₃)
    (moves' : Moves (g₂.turned g₁.code.size) g₃) :
    (stmt (.ifElse line e body orElse)).run g = .ok () (g₃.landed g₂.code.size) := by
  have jumps := (moves.trans (.emitted g₂ openJump)).jumps (guarded_jumps g₁ line x)
  have skips : (g₂.turned g₁.code.size).Jumps g₂.code.size := (g₂.emitted_jumps rfl).aimed _ _
  exact run_bind_ok condition (run_bind_ok (run_jumpUnless line x g₁) (run_bind_ok first (run_bind_ok (run_emit _ _)
    (run_bind_ok (run_landHere jumps) (run_bind_ok second (run_landHere (moves'.jumps skips)))))))

def returnedTo (g : Codegen) (start jump : Nat) : Codegen :=
  (g.emitted { op := .jp, a1 := .label start }).landed jump

theorem run_loop {l : Loop} {outer : List Loop} (condition : (expr e).run g.looping = .ok x g₁)
    (first : (stmt body).run (g₁.guarded line x) = .ok () g₂) (moves : Moves (g₁.guarded line x) g₂)
    (loops : g₂.loops = l :: outer) (exits : g₂.ExitsOpen) :
    (stmt (.loop line e body)).run g =
      .ok () { (g₂.returnedTo g.code.size g₁.code.size).landedAll l.exits with loops := outer } := by
  have back := Moves.emitted g₂ { op := .jp, a1 := .label g.code.size }
  have jumps := (moves.trans back).jumps (guarded_jumps g₁ line x)
  have leaves : ∀ j ∈ l.exits, (g₂.returnedTo g.code.size g₁.code.size).Jumps j := fun j exit =>
    (back.jumps ⟨openJump, exits l (by rw [loops]; simp) j exit, rfl⟩).aimed _ _
  exact run_bind_ok (run_enterLoop g) (run_bind_ok condition (run_bind_ok (run_jumpUnless line x g₁)
    (run_bind_ok first (run_bind_ok (run_emit _ _) (run_bind_ok (run_landHere jumps) (run_exitLoop loops leaves))))))

theorem Grows.ifThen (kept : Keeps g g₁) (exits : g.ExitsOpen) (grows : Grows (g₁.guarded line x) g₂) :
    Grows g (g₂.landed g₁.code.size) := by
  have judged := Keeps.judged g₁ line (Check.operand x)
  have landed := grows.landed ((kept.trans judged).toMoves.exitsOpen exits)
  rw [judged_size] at landed
  exact (kept.trans judged).toGrows.trans landed

theorem Grows.ifElse (kept : Keeps g g₁) (exits : g.ExitsOpen) (grows : Grows (g₁.guarded line x) g₂)
    (grows' : Grows (g₂.turned g₁.code.size) g₃) : Grows g (g₃.landed g₂.code.size) := by
  have turned := Grows.ifThen kept exits (grows.trans (.emitted g₂ openJump))
  have exits₂ := (kept.toGrows.trans ((Keeps.guarded g₁ line x).toGrows.trans grows)).toMoves.exitsOpen exits
  have settled : ∀ l ∈ g₃.loops.head?, g₂.code.size ∉ l.exits :=
    grows'.toMoves.not_exit (by rw [turned_size]; omega) exits₂.size_not_exit
  have later : g.code.size ≤ g₂.code.size := by
    have first := kept.toMoves.size_le
    have second := grows.toMoves.size_le
    rw [guarded_size] at second
    omega
  have whole := turned.trans grows'
  exact ⟨whole.toMoves.aimed later settled _, whole.visible⟩

theorem Grows.loop (kept : Keeps g.looping g₁) (exits : g.ExitsOpen) (grows : Grows (g₁.guarded line x) g₂) :
    ∃ l outer, g₂.loops = l :: outer ∧ g₂.ExitsOpen ∧
      Grows g { (g₂.returnedTo g.code.size g₁.code.size).landedAll l.exits with loops := outer } := by
  have whole := Grows.ifThen kept exits.looping (grows.trans (.emitted g₂ { op := .jp, a1 := .label g.code.size }))
  have exits₂ := (kept.toGrows.trans ((Keeps.guarded g₁ line x).toGrows.trans grows)).toMoves.exitsOpen exits.looping
  have grown := whole.loops
  cases loops : g₂.loops with
  | nil =>
    change LoopsGrow _ _ _ g₂.loops at grown
    rw [loops] at grown
    cases grown
  | cons l outer => exact ⟨l, outer, rfl, exits₂, whole.exitLoop loops⟩

abbrev Ends (s : Stmt) : Prop :=
  ∀ g : Codegen, g.ExitsOpen → Yields Grows (4 * s.weight) (stmt s) g

theorem ifThen_cases (ends : Ends body) (exits : g.ExitsOpen) :
    ∃ x g₁ g₂, (expr e).run g = .ok x g₁ ∧ Keeps g g₁ ∧ (stmt body).run (g₁.guarded line x) = .ok () g₂ ∧
      Grows (g₁.guarded line x) g₂ ∧
      (stmt (.ifThen line e body)).run g = .ok () (g₂.landed g₁.code.size) ∧
      g₂.code.size ≤ g.code.size + 4 * (Stmt.ifThen line e body).weight := by
  obtain ⟨x, g₁, condition, kept, size⟩ := yields_expr e g
  have exits₁ := (kept.trans (.guarded g₁ line x)).toMoves.exitsOpen exits
  obtain ⟨_, g₂, first, grows, size'⟩ := ends (g₁.guarded line x) exits₁
  refine ⟨x, g₁, g₂, condition, kept, first, grows, run_ifThen condition first grows.toMoves, ?_⟩
  rw [guarded_size] at size'
  simp only [Stmt.weight]
  omega

theorem ifElse_cases (ends : Ends body) (ends' : Ends orElse) (exits : g.ExitsOpen) :
    ∃ x g₁ g₂ g₃, (expr e).run g = .ok x g₁ ∧ Keeps g g₁ ∧ (stmt body).run (g₁.guarded line x) = .ok () g₂ ∧
      Grows (g₁.guarded line x) g₂ ∧ (stmt orElse).run (g₂.turned g₁.code.size) = .ok () g₃ ∧
      Grows (g₂.turned g₁.code.size) g₃ ∧
      (stmt (.ifElse line e body orElse)).run g = .ok () (g₃.landed g₂.code.size) ∧
      g₃.code.size ≤ g.code.size + 4 * (Stmt.ifElse line e body orElse).weight := by
  obtain ⟨x, g₁, condition, kept, size⟩ := yields_expr e g
  have exits₁ := (kept.trans (.guarded g₁ line x)).toMoves.exitsOpen exits
  obtain ⟨_, g₂, first, grows, size'⟩ := ends (g₁.guarded line x) exits₁
  have turned := Grows.ifThen kept exits (grows.trans (.emitted g₂ openJump))
  obtain ⟨_, g₃, second, grows', size''⟩ := ends' (g₂.turned g₁.code.size) (turned.toMoves.exitsOpen exits)
  refine ⟨x, g₁, g₂, g₃, condition, kept, first, grows, second, grows',
    run_ifElse condition first grows.toMoves second grows'.toMoves, ?_⟩
  rw [guarded_size] at size'
  rw [turned_size] at size''
  simp only [Stmt.weight]
  omega

theorem loop_cases (ends : Ends body) (exits : g.ExitsOpen) :
    ∃ x g₁ g₂ l outer, (expr e).run g.looping = .ok x g₁ ∧ Keeps g.looping g₁ ∧
      (stmt body).run (g₁.guarded line x) = .ok () g₂ ∧ Grows (g₁.guarded line x) g₂ ∧ g₂.loops = l :: outer ∧
      (stmt (.loop line e body)).run g =
        .ok () { (g₂.returnedTo g.code.size g₁.code.size).landedAll l.exits with loops := outer } ∧
      Grows g { (g₂.returnedTo g.code.size g₁.code.size).landedAll l.exits with loops := outer } ∧
      g₂.code.size + 1 ≤ g.code.size + 4 * (Stmt.loop line e body).weight := by
  obtain ⟨x, g₁, condition, kept, size⟩ := yields_expr e g.looping
  have exits₁ := (kept.trans (.guarded g₁ line x)).toMoves.exitsOpen exits.looping
  obtain ⟨_, g₂, first, grows, size'⟩ := ends (g₁.guarded line x) exits₁
  obtain ⟨l, outer, loops, exits₂, whole⟩ := Grows.loop kept exits grows
  refine ⟨x, g₁, g₂, l, outer, condition, kept, first, grows, loops,
    run_loop condition first grows.toMoves loops exits₂, whole, ?_⟩
  rw [guarded_size] at size'
  change g₁.code.size ≤ g.code.size + 4 * e.weight at size
  simp only [Stmt.weight]
  omega

end Branches

theorem yields_stmt (s : Stmt) (g : Codegen) (exits : g.ExitsOpen) : Yields Grows (4 * s.weight) (stmt s) g := by
  induction s using Stmt.induction generalizing g with
  | skipped => exact ⟨_, _, rfl, .refl g, by omega⟩
  | empty => exact ⟨_, _, rfl, .refl g, by omega⟩
  | expr e =>
    obtain ⟨x, g', run, kept, size⟩ := yields_expr e g
    exact ⟨_, _, run_bind_ok run rfl, kept.toGrows, size⟩
  | block vars body ih =>
    obtain ⟨g₁, g₂, scopes, _, _, moves, _, grows, visible, symbols, run, size⟩ :=
      @block_cases vars body g (yields_stmts ih) exits
    have left : g₂.scopes.all <+: scopes.all := symbols ▸ List.prefix_rfl
    exact ⟨_, _, run, ⟨(moves.trans grows.toMoves).trans (.rescoped _ left), visible⟩, size⟩
  | ifThen line e body ih =>
    obtain ⟨x, g₁, g₂, _, kept, _, grows, run, size⟩ := @ifThen_cases line e body g ih exits
    exact ⟨_, _, run, .ifThen kept exits grows, by simpa using size⟩
  | ifElse line e body orElse ih ih' =>
    obtain ⟨x, g₁, g₂, g₃, _, kept, _, grows, _, grows', run, size⟩ := @ifElse_cases line e body orElse g ih ih' exits
    exact ⟨_, _, run, .ifElse kept exits grows grows', by simpa using size⟩
  | loop line e body ih =>
    obtain ⟨x, g₁, g₂, l, outer, _, _, _, _, _, run, grows, size⟩ := @loop_cases line e body g ih exits
    refine ⟨_, _, run, grows, ?_⟩
    change (landedAll _ _).code.size ≤ _
    rw [landedAll_size]
    simpa [returnedTo] using size
  | ret line value =>
    cases value with
    | none => exact (yields_ret line none g).mono (by simp [Stmt.weight])
    | some e =>
      obtain ⟨x, g', run, kept, size⟩ := yields_expr e g
      obtain ⟨_, g'', run', grows, size'⟩ := yields_ret line (some x) g'
      simp only [stmt, Stmt.weight]
      exact ⟨_, _, run_bind_ok run run', kept.toGrows.trans grows, by omega⟩
  | leave line => exact (yields_leave line g).mono (by simp [Stmt.weight])
  | again line => exact (yields_again line g).mono (by simp [Stmt.weight])

theorem Declares.jumps {g g' : Codegen} {jump : Nat} (h : Declares g g') (jumps : g.Jumps jump) :
    g'.Jumps jump := by
  unfold Jumps at jumps ⊢
  rwa [h.code]

theorem Declares.current {g g' : Codegen} {f : Function} (h : Declares g g') (inside : g.emitter.current = some f) :
    ∃ f', g'.emitter.current = some f' ∧ f'.name = f.name ∧ f'.entry = f.entry := by
  have opened := h.opened
  rw [inside] at opened
  cases found : g'.emitter.current with
  | none => simp [found] at opened
  | some f' => exact ⟨f', rfl, by simpa [found] using opened⟩

theorem Moves.of_current {g g' : Codegen} {f : Function} (h : Moves g g') (inside : g.emitter.current = some f) :
    ∃ f', g'.emitter.current = some f' ∧ f.Extends f' := by
  have related := h.current
  rw [inside] at related
  generalize g'.emitter.current = y at related
  cases related with
  | some extends_ => exact ⟨_, rfl, extends_⟩

theorem Yields.declares {α : Type} {x : GenM α} {g g' : Codegen} {a : α} (run : x.run g = .ok a g')
    (h : Declares g g') : Yields Declares 0 x g :=
  ⟨a, g', run, h, by rw [h.code]; omega⟩

theorem yields_declare (line : Nat) (s : Symbol) (g : Codegen) : Yields Declares 0 (declare line s) g := by
  have run := run_declare line s g
  split at run
  · rename_i declared
    exact .declares run (.declared declared)
  · exact .declares run (.judged _ _ _)

theorem yields_param (p : Param) (g : Codegen) : Yields Declares 0 (param p) g := by
  cases p with
  | unnamed type => exact ⟨_, _, rfl, .refl g, by omega⟩
  | named type id isArray =>
    have run := run_param_named type id isArray g
    dsimp only at run
    have judged := Declares.judged g id.line (Check.variableType id.name type.ty)
    split at run
    · rename_i t declared
      have scopes := judged_scopes g id.line (Check.variableType id.name type.ty)
      exact .declares run ((judged.trans (.declared (scopes ▸ declared))).trans (.allocated _ _))
    · exact .declares run ((judged.trans (.judged _ _ _)).trans (.allocated _ _))

theorem yields_params (params : List Param) (g : Codegen) : Yields Declares 0 (params.forM param) g :=
  yields_forM .refl (fun _ _ _ first second => first.trans second) (fun p _ => yields_param p) g

structure TopLevel (g : Codegen) : Prop where
  outer : g.scopes.outer = []
  function : g.function = none
  loops : g.loops = []
  current : g.emitter.current = none
  start : g.Jumps 0
  halt : g.Jumps 1

theorem Declares.topLevel {g g' : Codegen} (h : Declares g g') (top : g.TopLevel) : g'.TopLevel where
  outer := h.outer.trans top.outer
  function := h.function.trans top.function
  loops := h.loops.trans top.loops
  current := by
    have opened := h.opened
    rw [top.current] at opened
    exact Option.map_eq_none_iff.mp opened
  start := h.jumps top.start
  halt := h.jumps top.halt

theorem Jumps.modified {g g' : Codegen} {jump index : Nat} {f : Instruction → Instruction}
    (h : g.Jumps jump) (same : ∀ i, (f i).op = i.op) (code : g'.code = g.code.modify index f) : g'.Jumps jump := by
  obtain ⟨i, found, target⟩ := h
  by_cases hit : index = jump
  · refine ⟨f i, ?_, by rw [same]; exact target⟩
    rw [code, Array.getElem?_modify, if_pos hit, found]
    rfl
  · refine ⟨i, ?_, target⟩
    rw [code, Array.getElem?_modify, if_neg hit, found]

theorem announced_size (g : Codegen) (f : FunDecl) (s : Symbol) :
    (g.announced f s).code.size = g.code.size := by
  unfold announced
  split
  · simp [judged_size]
  · rfl

theorem Jumps.announced {g : Codegen} {jump : Nat} (h : g.Jumps jump) (f : FunDecl) (s : Symbol) :
    (g.announced f s).Jumps jump := by
  unfold Codegen.announced
  split
  · exact (h.judged _ _).aimed _ _
  · exact h

theorem announced_errors (g : Codegen) (f : FunDecl) (s : Symbol) :
    g.errors.toList <+: (g.announced f s).errors.toList := by
  unfold announced
  split
  · exact (Moves.judged g f.id.line (Check.mainSignature s)).errors
  · exact List.prefix_rfl

theorem announced_current (g : Codegen) (f : FunDecl) (s : Symbol) :
    (g.announced f s).emitter.current = g.emitter.current := by
  unfold announced
  split
  · change (g.judged _ _).emitter.current = _
    rw [judged_emitter]
  · rfl

theorem announced_scopes (g : Codegen) (f : FunDecl) (s : Symbol) : (g.announced f s).scopes = g.scopes := by
  unfold announced
  split
  · exact judged_scopes ..
  · rfl

theorem announced_function (g : Codegen) (f : FunDecl) (s : Symbol) :
    (g.announced f s).function = g.function := by
  unfold announced
  split
  · exact (Moves.judged g f.id.line (Check.mainSignature s)).function
  · rfl

theorem announced_loops (g : Codegen) (f : FunDecl) (s : Symbol) : (g.announced f s).loops = g.loops := by
  unfold announced
  split
  · exact (Keeps.judged g f.id.line (Check.mainSignature s)).sameLoops
  · rfl

structure Adds (g g' : Codegen) : Prop where
  topLevel : g'.TopLevel
  errors : g.errors.toList <+: g'.errors.toList
  /-- Only the call of the main function may be patched. -/
  code : ∀ {index : Nat} {i : Instruction}, 0 < index → g.code[index]? = some i → g'.code[index]? = some i

theorem Declares.withResult (g : Codegen) : Declares g g.withResult :=
  .taken g _ _ _

/-- The states on the way through a function: before it, after its name is declared, after its
    parameters, before its body and after it. -/
structure FunctionRun (f : FunDecl) (g g₁ g₂ g₃ g₄ : Codegen) (fn : Function) (scopes : Scopes) : Prop where
  declared : ∃ isNew, (declare f.id.line (funSymbol f g.code.size)).run g = .ok isNew g₁
  declares : Declares g g₁
  params : (f.params.toList.forM param).run (g₁.entered f (funSymbol f g.code.size)) = .ok () g₂
  enlists : Declares (g₁.entered f (funSymbol f g.code.size)) g₂
  vars : (f.vars.forM varDecl).run (g₂.withResult.announced f (funSymbol f g.code.size)) = .ok () g₃
  declaresVars : Declares (g₂.withResult.announced f (funSymbol f g.code.size)) g₃
  moves : Moves (g₂.withResult.announced f (funSymbol f g.code.size)) g₃
  body : (stmts f.body).run g₃ = .ok () g₄
  grows : Grows g₃ g₄
  size : g₄.code.size ≤ g₃.code.size + 4 * Stmt.weights f.body
  current : g₄.emitter.current = some fn
  exit : g₄.scopes.exit? = some scopes
  visible : scopes.visible = g₁.scopes.visible
  symbols : scopes.all = g₄.scopes.all
  run : (funDecl f).run g = .ok () (g₄.concluded fn scopes)

theorem Jumps.opened {f : FunDecl} {s : Symbol} {g g' : Codegen} {jump : Nat} (h : g.Jumps jump)
    (enlists : Declares (g.entered f s) g') : (g'.withResult.announced f s).Jumps jump :=
  Jumps.announced ((Declares.withResult g').jumps
    (enlists.jumps (Jumps.emitted h { op := .func, a1 := .imm 0, a2 := .imm 0 }))) f s

theorem exists_functionRun (f : FunDecl) {g : Codegen} (top : g.TopLevel) :
    ∃ g₁ g₂ g₃ g₄ fn scopes, FunctionRun f g g₁ g₂ g₃ g₄ fn scopes := by
  obtain ⟨isNew, g₁, declared, declares, _⟩ := yields_declare f.id.line (funSymbol f g.code.size) g
  obtain ⟨_, g₂, params, enlists, _⟩ := yields_params f.params.toList (g₁.entered f (funSymbol f g.code.size))
  obtain ⟨fn, current, _⟩ := enlists.current rfl
  obtain ⟨fn₁, current₁, _⟩ := (Declares.withResult g₂).current current
  obtain ⟨_, g₃, vars, ⟨declaresVars, moves⟩, _⟩ :=
    yields_vars f.vars (g₂.withResult.announced f (funSymbol f g.code.size))
  -- No loop is open, so nothing in the body can be left.
  have exits : g₃.ExitsOpen := by
    intro l member
    rw [declaresVars.loops, announced_loops, (Declares.withResult g₂).loops, enlists.loops] at member
    change l ∈ g₁.loops at member
    rw [(declares.topLevel top).loops] at member
    cases member
  obtain ⟨_, g₄, body, grows, size⟩ := yields_stmts (fun s _ => yields_stmt s) g₃ exits
  obtain ⟨fn', current', _⟩ :=
    (moves.trans grows.toMoves).of_current ((announced_current _ _ _).trans current₁)
  have outer : g₄.scopes.outer = g₁.scopes.visible := by
    have visible := grows.visible
    simp only [Scopes.visible, List.cons.injEq] at visible
    rw [visible.2, declaresVars.outer, announced_scopes, (Declares.withResult g₂).outer, enlists.outer]
    rfl
  obtain ⟨scopes, exit, visible, symbols⟩ := exit?_of_outer outer
  have main : g₂.withResult.Jumps 0 := (Declares.withResult g₂).jumps (enlists.jumps
    (Jumps.emitted (declares.topLevel top).start { op := .func, a1 := .imm 0, a2 := .imm 0 }))
  exact ⟨g₁, g₂, g₃, g₄, fn', scopes, ⟨⟨isNew, declared⟩, declares, params, enlists, vars, declaresVars, moves,
    body, grows, size, current', exit, visible, symbols, run_funDecl declared params current main vars body current' exit⟩⟩

namespace FunctionRun

variable {f : FunDecl} {g g₁ g₂ g₃ g₄ : Codegen} {fn : Function} {scopes : Scopes}

theorem jumps (h : FunctionRun f g g₁ g₂ g₃ g₄ fn scopes) {jump : Nat} (before : g₁.Jumps jump) :
    (g₄.concluded fn scopes).Jumps jump :=
  Jumps.modified (((h.moves.trans h.grows.toMoves).jumps (before.opened h.enlists)).emitted { op := .ret })
    (f := fun i => { i with a1 := .imm fn.frame.size, a2 := .imm fn.frame.params }) (fun _ => rfl) rfl

theorem loops (h : FunctionRun f g g₁ g₂ g₃ g₄ fn scopes) (top : g.TopLevel) : g₄.loops = [] := by
  have grown := (h.moves.trans h.grows.toMoves).loops
  rw [announced_loops, (Declares.withResult g₂).loops, h.enlists.loops] at grown
  change LoopsGrow _ _ g₁.loops _ at grown
  rw [(h.declares.topLevel top).loops] at grown
  generalize g₄.loops = remaining at grown
  match remaining, grown with
  | [], _ => rfl

theorem loops_before (h : FunctionRun f g g₁ g₂ g₃ g₄ fn scopes) (top : g.TopLevel) : g₃.loops = [] := by
  rw [h.declaresVars.loops, announced_loops, (Declares.withResult g₂).loops, h.enlists.loops]
  exact (h.declares.topLevel top).loops

theorem errors (h : FunctionRun f g g₁ g₂ g₃ g₄ fn scopes) : g.errors.toList <+: g₄.errors.toList :=
  h.declares.errors.trans (h.enlists.errors.trans ((announced_errors g₂.withResult _ _).trans
    (h.declaresVars.errors.trans h.grows.errors)))

theorem size_before (h : FunctionRun f g g₁ g₂ g₃ g₄ fn scopes) : g₃.code.size = g.code.size + 1 := by
  rw [h.declaresVars.code, announced_size, (Declares.withResult g₂).code, h.enlists.code]
  change (g₁.code.push _).size = _
  rw [Array.size_push, h.declares.code]

theorem opened (h : FunctionRun f g g₁ g₂ g₃ g₄ fn scopes) : fn.name = f.id.name ∧ fn.entry = g.code.size := by
  obtain ⟨fn₂, current₂, name₂, entry₂⟩ := h.enlists.current rfl
  obtain ⟨fn₃, current₃, name₃, entry₃⟩ := (Declares.withResult g₂).current current₂
  obtain ⟨fn', current', extends_⟩ :=
    (h.moves.trans h.grows.toMoves).of_current ((announced_current _ f (funSymbol f g.code.size)).trans current₃)
  rw [h.current] at current'
  cases current'
  rw [extends_.name, name₃, name₂, extends_.entry, entry₃, entry₂, h.declares.code]
  exact ⟨rfl, rfl⟩

theorem entry (h : FunctionRun f g g₁ g₂ g₃ g₄ fn scopes) : fn.entry = g.code.size :=
  h.opened.2

theorem code_opened (h : FunctionRun f g g₁ g₂ g₃ g₄ fn scopes) {index : Nat} {i : Instruction}
    (found : g.code[index]? = some i) : g₂.withResult.code[index]? = some i := by
  rw [(Declares.withResult g₂).code, h.enlists.code]
  refine (Moves.emitted g₁ { op := .func, a1 := .imm 0, a2 := .imm 0 }).code ?_
  rw [h.declares.code]
  exact found

theorem code_whole (h : FunctionRun f g g₁ g₂ g₃ g₄ fn scopes) :
    (g₄.concluded fn scopes).code = (g₄.code.push { op := .ret }).modify g.code.size fun i =>
      { i with a1 := .imm fn.frame.size, a2 := .imm fn.frame.params } := by
  simp only [concluded, closed, Codegen.code, h.entry, Int.toNat_natCast]

theorem code_after (h : FunctionRun f g g₁ g₂ g₃ g₄ fn scopes) {index : Nat} {i : Instruction}
    (bound : index < g.code.size)
    (found : (g₂.withResult.announced f (funSymbol f g.code.size)).code[index]? = some i) :
    (g₄.concluded fn scopes).code[index]? = some i := by
  rw [h.code_whole, Array.getElem?_modify, if_neg (Nat.ne_of_gt bound)]
  exact (Moves.emitted g₄ { op := .ret }).code ((h.moves.trans h.grows.toMoves).code found)

theorem code_before (h : FunctionRun f g g₁ g₂ g₃ g₄ fn scopes) {index : Nat} {i : Instruction} (positive : 0 < index)
    (found : g.code[index]? = some i) : (g₄.concluded fn scopes).code[index]? = some i := by
  refine h.code_after (Array.getElem?_eq_some_iff.mp found).1 ?_
  unfold announced
  split
  · rw [aimed_code, Array.getElem?_modify, if_neg (by omega), judged_code]
    exact h.code_opened found
  · exact h.code_opened found

theorem enters (h : FunctionRun f g g₁ g₂ g₃ g₄ fn scopes) (top : g.TopLevel) :
    g₄.code[g.code.size]? = some { op := .func, a1 := .imm 0, a2 := .imm 0 } := by
  refine (h.moves.trans h.grows.toMoves).code ?_
  obtain ⟨_, found, _⟩ := top.halt
  have bound := (Array.getElem?_eq_some_iff.mp found).1
  have pushed : g₂.withResult.code[g.code.size]? = some { op := .func, a1 := .imm 0, a2 := .imm 0 } := by
    rw [(Declares.withResult g₂).code, h.enlists.code, ← h.declares.code]
    exact Array.getElem?_push_size
  unfold announced
  split
  · rw [aimed_code, Array.getElem?_modify, if_neg (by omega), judged_code]
    exact pushed
  · exact pushed

theorem start (h : FunctionRun f g g₁ g₂ g₃ g₄ fn scopes) {target : Operand}
    (found : g.code[0]? = some { op := .call, a1 := target, a2 := .imm 0 }) :
    (g₄.concluded fn scopes).code[0]? =
      some { op := .call, a1 := if f.id.name = mainName then .label g.code.size else target, a2 := .imm 0 } := by
  refine h.code_after (Array.getElem?_eq_some_iff.mp found).1 ?_
  unfold announced
  split
  · rw [aimed_code, Array.getElem?_modify, if_pos rfl, judged_code, h.code_opened found]
    rfl
  · exact h.code_opened found

theorem adds (h : FunctionRun f g g₁ g₂ g₃ g₄ fn scopes) (top : g.TopLevel) : Adds g (g₄.concluded fn scopes) := by
  have top₁ := h.declares.topLevel top
  have visible := h.visible
  simp only [Scopes.visible, List.cons.injEq] at visible
  exact ⟨⟨visible.2.trans top₁.outer, rfl, h.loops top, rfl, h.jumps top₁.start, h.jumps top₁.halt⟩, h.errors,
    h.code_before⟩

end FunctionRun

theorem runs_funDecl (f : FunDecl) {g : Codegen} (top : g.TopLevel) :
    ∃ g', (funDecl f).run g = .ok () g' ∧ Adds g g' ∧
      g'.code.size ≤ g.code.size + 4 * (1 + Stmt.weights f.body) := by
  obtain ⟨g₁, g₂, g₃, g₄, fn, scopes, h⟩ := exists_functionRun f top
  refine ⟨_, h.run, h.adds top, ?_⟩
  have size := h.size
  have sizes := h.size_before
  change ((g₄.code.push _).modify _ _).size ≤ _
  rw [Array.size_modify, Array.size_push]
  omega

theorem runs_decl (d : Decl) {g : Codegen} (top : g.TopLevel) :
    ∃ g', (decl d).run g = .ok () g' ∧ Adds g g' ∧ g'.code.size ≤ g.code.size + 4 * d.weight := by
  cases d with
  | var d =>
    obtain ⟨_, g', run, ⟨declares, _⟩, size⟩ := yields_varDecl d g
    exact ⟨g', run, ⟨declares.topLevel top, declares.errors, fun _ found => declares.code ▸ found⟩, by omega⟩
  | fn f => exact runs_funDecl f top

theorem runs_decls (decls : List Decl) {g : Codegen} (top : g.TopLevel) :
    ∃ g', (decls.forM decl).run g = .ok () g' ∧ Adds g g' ∧
      g'.code.size ≤ g.code.size + 4 * (decls.map Decl.weight).sum := by
  induction decls generalizing g with
  | nil => exact ⟨g, rfl, ⟨top, List.prefix_rfl, fun _ found => found⟩, by simp⟩
  | cons d rest ih =>
    obtain ⟨g', run, adds, size⟩ := runs_decl d top
    obtain ⟨g'', run', adds', size'⟩ := ih adds.topLevel
    refine ⟨g'', ?_, ⟨adds'.topLevel, adds.errors.trans adds'.errors,
      fun positive found => adds'.code positive (adds.code positive found)⟩, ?_⟩
    · change (decl d >>= fun _ => rest.forM decl).run g = _
      exact run_bind_ok run run'
    · simp only [List.map_cons, List.sum_cons]
      omega

theorem topLevel_initial : TopLevel {} :=
  ⟨rfl, rfl, rfl, rfl, ⟨_, rfl, rfl⟩, ⟨_, rfl, rfl⟩⟩

def completed (g : Codegen) (s : Source) : Codegen :=
  (g.judged s.endLine (Check.mainDeclared (g.scopes.resolve? mainName))).finished

theorem run_eq_completed {s : Source} {g : Codegen} (decls : (s.decls.forM decl).run {} = .ok () g)
    (top : g.TopLevel) : Codegen.run s = .ok (g.completed s) := by
  have halt := (Declares.judged g s.endLine (Check.mainDeclared (g.scopes.resolve? mainName))).jumps top.halt
  have whole : (source s).run {} = .ok () (g.completed s) :=
    run_bind_ok decls (run_bind_ok (run_resolve? mainName g) (run_bind_ok (run_check _ _ _) (run_finish halt)))
  change source s {} = _ at whole
  rw [Codegen.run, whole]

/-- The generator never faults. It ends outside of any scope, loop and function. -/
theorem runs_source (s : Source) :
    ∃ g, Codegen.run s = .ok g ∧ g.scopes.outer = [] ∧ g.loops = [] ∧ g.function = none ∧
      g.emitter.current = none ∧ g.code.size ≤ 2 + 4 * s.weight := by
  obtain ⟨g, run, adds, size⟩ := runs_decls s.decls topLevel_initial
  have judged := Declares.judged g s.endLine (Check.mainDeclared (g.scopes.resolve? mainName))
  have top := judged.topLevel adds.topLevel
  refine ⟨g.completed s, run_eq_completed run adds.topLevel, top.outer, top.loops, top.function, top.current, ?_⟩
  change (Array.modify _ _ _).size ≤ _
  rw [Array.size_modify, judged.code]
  exact size

end Codegen

end MiniC
