import MiniC.Proofs.Processor.Instructions

namespace MiniC.Assembly

def Line.isInstr : Line → Bool
  | .instr _ => true
  | _ => false

def sectionNames : List Text :=
  [".text", ".bss", ".section .rodata"]

structure Image where
  code : Word → Option Instr
  labels : Label → Word
  sections : Text → Word
  start : Nat → Word
  size : Nat → Nat

namespace Image

variable (g : Image)

def Loads : Word → List Line → Prop
  | _, [] => True
  | a, .blank :: rest => Loads a rest
  | a, .label l :: rest => g.labels l = a ∧ Loads a rest
  | a, .directive text :: rest => Loads (if text ∈ sectionNames then g.sections text else a) rest
  | a, .source n _ :: rest => (g.start n = a ∧ g.size n = (rest.takeWhile Line.isInstr).length) ∧ Loads a rest
  | a, .instr i :: rest => g.code a = some i ∧ Loads (a + 4) rest

def decLoads (a : Word) : (lines : List Line) → Decidable (g.Loads a lines)
  | [] => isTrue trivial
  | .blank :: rest => decLoads a rest
  | .label _ :: rest => @instDecidableAnd _ _ _ (decLoads a rest)
  | .directive _ :: rest => decLoads _ rest
  | .source _ _ :: rest => @instDecidableAnd _ _ _ (decLoads a rest)
  | .instr _ :: rest => @instDecidableAnd _ _ _ (decLoads _ rest)

instance (a : Word) (lines : List Line) : Decidable (g.Loads a lines) :=
  g.decLoads a lines

def Holds : Word → List Instr → Prop
  | _, [] => True
  | a, i :: is => g.code a = some i ∧ Holds (a + 4) is

def step? (s : Processor) : Option Processor :=
  match g.code s.pc with
  | some i => if i.encodable then some ((exec g.labels s i).goto (next g.labels s i)) else none
  | none => none

def steps? : Nat → Processor → Option Processor
  | 0, s => some s
  | k + 1, s => (g.step? s).bind (steps? k)

variable {g} {a : Word} {is : List Instr} {s s' : Processor}

theorem add_four (a : Word) (k : Nat) : a + 4 + .ofNat (4 * k) = a + .ofNat (4 * (k + 1)) := by
  rw [Nat.mul_add, Nat.add_comm]
  exact add_ofNat_add a 4 _

theorem Holds.of_append {is' : List Instr} (h : g.Holds a (is ++ is')) :
    g.Holds a is ∧ g.Holds (a + .ofNat (4 * is.length)) is' := by
  induction is generalizing a with
  | nil =>
    have start : a + .ofNat 0 = a := Int64.add_zero a
    exact ⟨trivial, start.symm ▸ h⟩
  | cons i is ih =>
    obtain ⟨first, rest⟩ := ih h.2
    rw [add_four] at rest
    exact ⟨⟨h.1, first⟩, rest⟩

theorem steps?_add {j k : Nat} (first : g.steps? j s = some s') : g.steps? (j + k) s = g.steps? k s' := by
  induction j generalizing s with
  | zero =>
    cases first
    rw [Nat.zero_add]
  | succ j ih =>
    rw [steps?, Option.bind_eq_some_iff] at first
    obtain ⟨s₁, one, more⟩ := first
    rw [Nat.add_right_comm, steps?, one]
    exact ih more

theorem steps?_straight (holds : g.Holds s.pc is) (straight : ∀ i ∈ is, i.branches = false) :
    g.steps? is.length s =
      if is.all Instr.encodable then some ((run g.labels s is).goto (s.pc + .ofNat (4 * is.length))) else none := by
  induction is generalizing s with
  | nil => simp [steps?, Processor.goto]
  | cons i is ih =>
    obtain ⟨here, later⟩ := holds
    rw [List.forall_mem_cons] at straight
    have next : next g.labels s i = s.pc + 4 := by
      have own := straight.1
      cases i
      case jump | jumpIfZero | call | ret => cases own
      all_goals rfl
    cases encodable : i.encodable with
    | false => simp [steps?, step?, here, encodable]
    | true =>
      have first : g.step? s = some ((exec g.labels s i).goto (s.pc + 4)) := by
        simp only [step?, here, encodable, next, if_true]
      rw [List.length_cons, steps?, first, Option.bind_some, ih later straight.2, List.all_cons, encodable, Bool.true_and,
        run_goto straight.2, Processor.pc_goto, add_four]
      rfl

theorem steps?_of_fit {reach : Prop} (holds : g.Holds s.pc is) (fit : Fit reach is) (near : reach) :
    g.steps? is.length s = some ((run g.labels s is).goto (s.pc + .ofNat (4 * is.length))) := by
  rw [steps?_straight holds fit.straight, if_pos (List.all_eq_true.mpr (fit.encodable near))]

namespace Loads

variable {before lines : List Line}

theorem of_append (h : g.Loads a (before ++ lines)) : ∃ a', g.Loads a' lines := by
  induction before generalizing a with
  | nil => exact ⟨a, h⟩
  | cons l before ih =>
    cases l with
    | blank | directive => exact ih h
    | label | source | instr => exact ih h.2

theorem holds (h : g.Loads a (is.map Line.instr ++ lines)) : g.Holds a is := by
  induction is generalizing a with
  | nil => trivial
  | cons i is ih => exact ⟨h.1, ih h.2⟩

theorem code {n : Nat} {i : Instruction} (h : g.Loads a lines) (code : CodeOf lines n i is) :
    g.Holds (g.start n) is ∧ g.size n = is.length := by
  obtain ⟨before, after, rfl, pauses⟩ := code
  obtain ⟨a', ⟨start, size⟩, here⟩ := h.of_append
  have own : (is.map Line.instr ++ after).takeWhile Line.isInstr = is.map Line.instr := by
    have none : after.takeWhile Line.isInstr = [] := by
      cases after with
      | nil => rfl
      | cons l after =>
        cases l with
        | instr i => exact absurd rfl (pauses i)
        | _ => rfl
    rw [List.takeWhile_append_of_pos (by simp [Line.isInstr]), none, List.append_nil]
  rw [start, size, own, List.length_map]
  exact ⟨here.holds, rfl⟩

variable {p : Program} {n : Nat} {i : Instruction}

theorem exists_code (h : g.Loads a lines) (lowered : lower p = .ok lines) (found : p.code[n]? = some i)
    {Q : Unit → List Reg → List Instr → Prop}
    (writes : ∀ c : Context, (i.op = .func → c.frame = frameBytes i.a1.value) →
      Writes (instruction p i) { index := n, function := c.function, frame := c.frame } Q) :
    ∃ free is, Q () free is ∧ g.Holds (g.start n) is ∧ g.size n = is.length := by
  obtain ⟨free, is, code, holds⟩ := codeOf_lower lowered found writes
  exact ⟨free, is, holds, h.code code⟩

theorem labels_functionLabel (h : g.Loads a lines) (lowered : lower p = .ok lines) (found : p.code[n]? = some i)
    (isFunc : i.op = .func) : g.labels (functionLabel p n) = g.start n := by
  obtain ⟨c, s, before, after, rfl, _⟩ := split_lower lowered found
  obtain ⟨a', here⟩ := h.of_append
  rcases s.opening_cases with ⟨other, _⟩ | ⟨_, opening, _⟩
  · exact absurd isFunc other
  · simp only [Step.lines, opening, List.cons_append, List.nil_append, List.append_assoc] at here
    obtain ⟨label, here⟩ := here
    rw [label]
    unfold landing at here
    split at here
    · exact here.2.1.1.symm
    · exact here.1.1.symm

end Loads

end Image

end MiniC.Assembly
