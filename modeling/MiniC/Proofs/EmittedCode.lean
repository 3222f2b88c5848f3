import MiniC.Proofs.Compilation
import MiniC.Proofs.Generation.Outline

namespace MiniC

theorem Consecutive.inside {m n k : Int} {functions : List Function} (h : Consecutive m functions n) (low : m ≤ k)
    (high : k < n) : ∃ f ∈ functions, f.entry ≤ k ∧ k < f.stop := by
  induction functions generalizing m with
  | nil =>
    have same : m = n := h
    omega
  | cons f rest ih =>
    obtain ⟨starts, _, others⟩ := h
    by_cases here : k < f.stop
    · exact ⟨f, by simp, by omega, here⟩
    · obtain ⟨f', member, bounds⟩ := ih others (by omega)
      exact ⟨f', by simp [member], bounds⟩

/-- Whether the code of a function is closed: it starts with its only `FUNC` and ends with a
    `RETURN`, jumps stay behind its start and before its end, and calls go to functions that start
    no later. -/
structure Function.Closed (p : Program) (f : Function) (entry last : Nat) : Prop where
  startsAt : f.entry = entry
  endsAt : f.stop = (last + 1 : Nat)
  enter : ∃ i, p.code[entry]? = some i ∧ i.op = .func
  leave : ∃ i, p.code[last]? = some i ∧ i.op = .ret
  single : ∀ n i, entry ≤ n → n ≤ last → p.code[n]? = some i → i.op = .func → n = entry
  jumps : ∀ n i position, entry ≤ n → n ≤ last → p.code[n]? = some i → i.op = .jp ∨ i.op = .jpf →
    i.op.target? = some position → ∃ t : Int, i.operand position = .label t ∧ f.entry < t ∧ t < f.stop
  calls : ∀ n i, entry ≤ n → n ≤ last → p.code[n]? = some i → i.op = .call →
    ∃ f' ∈ p.functions, i.a1 = .label f'.entry ∧ f'.entry ≤ f.entry

theorem Function.Spans.cases {code : Array Instruction} {symbols : List Symbol} {callee : Nat → Prop} {f : Function}
    {entry last n : Nat} {i : Instruction} (h : f.Spans code symbols callee entry last) (low : entry ≤ n) (high : n ≤ last)
    (found : code[n]? = some i) :
    (n = entry ∧ i = { op := .func, a1 := .imm f.frame.size, a2 := .imm f.frame.params }) ∨
      i.Within f.frame.slots symbols callee fun t => entry < t ∧ t ≤ last := by
  rcases Nat.eq_or_lt_of_le low with rfl | low
  · rw [h.enter] at found
    exact .inl ⟨rfl, (Option.some.inj found).symm⟩
  · rcases Nat.eq_or_lt_of_le high with rfl | high
    · rw [h.leave] at found
      cases found
      exact .inr (.plain (by decide) .absent .absent .absent)
    · exact .inr (h.body n i low high found)

theorem Function.Spans.closed {p : Program} {symbols : List Symbol} {f : Function} {entry last : Nat}
    (h : f.Spans p.code symbols (fun e => Begun p.functions e ∧ e ≤ entry) entry last) : f.Closed p entry last where
  startsAt := h.startsAt
  endsAt := h.endsAt
  enter := ⟨_, h.enter, rfl⟩
  leave := ⟨_, h.leave, rfl⟩
  single n i low high found function := by
    rcases h.cases low high found with ⟨same, _⟩ | within
    · exact same
    · cases within with
      | plain known => exact absurd function known.2.2
      | jump | branch | call => cases function
  jumps n i position low high found jump known := by
    rw [h.startsAt, h.endsAt]
    rcases h.cases low high found with ⟨_, rfl⟩ | within
    · simp at jump
    · cases within with
      | plain plain =>
        rw [plain.2.1] at known
        cases known
      | jump bounds | branch _ bounds =>
        cases known
        exact ⟨_, rfl, by omega, by omega⟩
      | call => simp at jump
  calls n i low high found call := by
    rcases h.cases low high found with ⟨_, rfl⟩ | within
    · cases call
    · cases within with
      | plain known =>
        subst call
        cases known.2.1
      | jump | branch => cases call
      | call callee =>
        obtain ⟨⟨f', member, starts⟩, le⟩ := callee
        exact ⟨f', member, by rw [starts], by rw [starts, h.startsAt]; omega⟩

/-- The code for a text, with or without diagnostics: a call of the last main function, a jump to the
    end, and then the functions of the text one after another, each closed in itself. -/
theorem layout_of_text (text : Text) :
    ∃ g, generate (parsedText text).source = .ok g ∧ (∀ c, compile text = .ok c → c.program = g.emitter.program) ∧
      let p := g.emitter.program
      p.functions.map (·.name) = (parsedText text).source.functionNames ∧
      p.code[0]? = some { op := .call, a1 := .label (mainEntry p.functions), a2 := .imm 0 } ∧
      p.code[1]? = some { op := .jp, a1 := .label p.code.size } ∧
      Consecutive 2 p.functions p.code.size ∧
      ∀ f ∈ p.functions, ∃ entry last, f.Closed p entry last := by
  obtain ⟨g, run, _⟩ := exists_generated text
  obtain ⟨outline, halt, names⟩ := Codegen.outline_of_run run
  refine ⟨g, generate_of_run run, fun c compiles => ?_, names, outline.start, halt, outline.consecutive, fun f member => ?_⟩
  · obtain ⟨g', assembly, run', _, rfl⟩ := generated_of_compile compiles
    rw [run] at run'
    cases run'
    rfl
  · obtain ⟨entry, last, _, spans⟩ := outline.spans f member
    exact ⟨entry, last, spans.closed⟩

theorem Instruction.Within.operand {slots : List Slot} {symbols : List Symbol} {callee : Nat → Prop}
    {target : Int → Prop} {i : Instruction} {o : Operand} (h : i.Within slots symbols callee target)
    (member : o ∈ i.operands) : o.Within slots symbols ∨ ∃ t, o = .label t := by
  cases h with
  | plain _ x y z =>
    simp only [operands, List.mem_cons, List.not_mem_nil, or_false] at member
    rcases member with rfl | rfl | rfl
    · exact .inl x
    · exact .inl y
    · exact .inl z
  | @jump t _ =>
    simp only [operands, List.mem_cons, List.not_mem_nil, or_false] at member
    rcases member with rfl | rfl | rfl
    · exact .inr ⟨t, rfl⟩
    · exact .inl .absent
    · exact .inl .absent
  | @branch _ t x _ =>
    simp only [operands, List.mem_cons, List.not_mem_nil, or_false] at member
    rcases member with rfl | rfl | rfl
    · exact .inl x
    · exact .inr ⟨t, rfl⟩
    · exact .inl .absent
  | @call entry _ _ _ z =>
    simp only [operands, List.mem_cons, List.not_mem_nil, or_false] at member
    rcases member with rfl | rfl | rfl
    · exact .inr ⟨entry, rfl⟩
    · exact .inl .imm
    · exact .inl z

/-- What an operand of the code of a function refers to: storage of that function if it counts from
    the frame, a global of the outermost scope, and a temporary if it is indirect. -/
structure Operand.Grounded (slots : List Slot) (symbols : List Symbol) (o : Operand) : Prop where
  slot : o.kind = .slot → ∃ s ∈ slots, s.kind ≠ .ret ∧ s.offset = o.value
  global : o.kind = .global → ∃ s ∈ symbols, s.scope = 0 ∧ (s.kind = .var ∨ s.kind = .array) ∧
    s.storage = some (.global o.value)
  indirect : o.indirect = true → o.kind = .slot ∧ ∃ s ∈ slots, s.kind = .temp ∧ s.offset = o.value

theorem Operand.Within.grounded {slots : List Slot} {symbols : List Symbol} {o : Operand} (h : o.Within slots symbols) :
    o.Grounded slots symbols := by
  cases h with
  | absent | imm => exact ⟨nofun, nofun, nofun⟩
  | @slot s member kind => exact ⟨fun _ => ⟨s, member, kind, rfl⟩, nofun, nofun⟩
  | @deref s member kind =>
    exact ⟨fun _ => ⟨s, member, by simp [kind], rfl⟩, nofun, fun _ => ⟨rfl, s, member, kind, rfl⟩⟩
  | @global s _ member scope kind storage =>
    refine ⟨nofun, fun _ => ⟨s, member, scope, ?_, storage⟩, nofun⟩
    cases same : s.kind with
    | func => exact absurd same kind
    | var => exact .inl rfl
    | array => exact .inr rfl

theorem Operand.Grounded.label {slots : List Slot} {symbols : List Symbol} (t : Int) :
    (Operand.label t).Grounded slots symbols :=
  ⟨nofun, nofun, nofun⟩

theorem Function.Spans.grounded {code : Array Instruction} {symbols : List Symbol} {callee : Nat → Prop} {f : Function}
    {entry last n : Nat} {i : Instruction} {o : Operand} (h : f.Spans code symbols callee entry last) (low : entry ≤ n)
    (high : n ≤ last) (found : code[n]? = some i) (member : o ∈ i.operands) : o.Grounded f.frame.slots symbols := by
  rcases h.cases low high found with ⟨_, rfl⟩ | within
  · simp only [Instruction.operands, List.mem_cons, List.not_mem_nil, or_false] at member
    rcases member with rfl | rfl | rfl
    · exact Operand.Within.imm.grounded
    · exact Operand.Within.imm.grounded
    · exact Operand.Within.absent.grounded
  · rcases within.operand member with within | ⟨t, rfl⟩
    · exact within.grounded
    · exact .label t

/-- In the code for a text, with or without diagnostics, the operands of a function refer to its own
    storage and to globals, and those of the first two instructions to no storage at all. -/
theorem operands_of_text (text : Text) :
    ∃ g, generate (parsedText text).source = .ok g ∧
      (∀ c, compile text = .ok c → c.program = g.emitter.program ∧ c.symbols = g.scopes.all) ∧
      let p := g.emitter.program
      ∀ (n : Nat) (i : Instruction) (o : Operand), p.code[n]? = some i → o ∈ i.operands →
        (∀ f ∈ p.functions, f.entry ≤ n → n < f.stop → o.Grounded f.frame.slots g.scopes.all) ∧
        ((∀ f ∈ p.functions, ¬ (f.entry ≤ n ∧ n < f.stop)) → o.isStorage = false ∧ o.indirect = false) := by
  obtain ⟨g, run, _⟩ := exists_generated text
  obtain ⟨outline, halt, _⟩ := Codegen.outline_of_run run
  refine ⟨g, generate_of_run run, fun c compiles => ?_, fun n i o found member => ⟨fun f function low high => ?_, ?_⟩⟩
  · obtain ⟨g', assembly, run', _, rfl⟩ := generated_of_compile compiles
    rw [run] at run'
    cases run'
    exact ⟨rfl, rfl⟩
  · obtain ⟨entry, last, _, spans⟩ := outline.spans f function
    rw [spans.startsAt] at low
    rw [spans.endsAt] at high
    exact spans.grounded (by omega) (by omega) found member
  · intro outside
    have bound := (Array.getElem?_eq_some_iff.mp found).1
    have first : n < 2 := by
      refine Nat.lt_of_not_le fun behind => ?_
      obtain ⟨f, function, bounds⟩ := outline.consecutive.inside (k := n) (by omega) (by omega)
      exact outside f function bounds
    obtain rfl | rfl : n = 0 ∨ n = 1 := by omega
    · rw [outline.start] at found
      cases found
      simp only [Instruction.operands, List.mem_cons, List.not_mem_nil, or_false] at member
      rcases member with rfl | rfl | rfl <;> exact ⟨rfl, rfl⟩
    · rw [halt] at found
      cases found
      simp only [Instruction.operands, List.mem_cons, List.not_mem_nil, or_false] at member
      rcases member with rfl | rfl | rfl <;> exact ⟨rfl, rfl⟩

end MiniC
