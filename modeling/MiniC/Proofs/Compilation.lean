import MiniC.Compile
import MiniC.Proofs.Generation.Realization.Source
import MiniC.Proofs.Generation.WellFormed
import MiniC.Proofs.Parsing.Progress

namespace MiniC

def parsedText (text : Text) : Parsed :=
  .ofTokens (.ofSource text)

def reported (text : Text) (g : Codegen) : Diagnostics :=
  ⟨(TokenStream.ofSource text).diagnostics, (parsedText text).diagnostics, g.diagnostics⟩

def compiled (text : Text) (g : Codegen) (assembly : Option Text) : Compilation :=
  ⟨.ofSource text, parsedText text, g.scopes.all, g.emitter.program, reported text g, assembly⟩

theorem generate_of_run {s : Source} {g : Codegen} (run : Codegen.run s = .ok g) : generate s = .ok g := by
  rw [generate, run]
  rfl

theorem compile_of_run {text : Text} {g : Codegen} (run : Codegen.run (parsedText text).source = .ok g)
    (outermost : g.scopes.outer = []) :
    compile text = (assemble (reported text g) g.emitter.program).map (compiled text g) := by
  have generated : generate (Parsed.ofTokens (.ofSource text)).source = .ok g := generate_of_run run
  have closed : g.scopes.depth = 0 := by rw [g.scopes.nested, outermost, List.length_nil]
  unfold compile
  simp only [generated, closed, ne_eq, not_true_eq_false, if_false, bind, Except.bind, pure, Except.pure]
  unfold reported parsedText
  cases assemble _ g.emitter.program <;> rfl

theorem exists_generated (text : Text) :
    ∃ g, Codegen.run (parsedText text).source = .ok g ∧ g.scopes.outer = [] ∧ g.loops = [] ∧ g.function = none ∧
      g.emitter.current = none ∧ g.emitter.code.size ≤ 2 + 4 * text.length ∧
      compile text = (assemble (reported text g) g.emitter.program).map (compiled text g) := by
  obtain ⟨g, run, outer, loops, function, current, size⟩ := Codegen.runs_source (parsedText text).source
  have weight : (parsedText text).source.weight ≤ text.length :=
    Nat.le_trans (Parsed.weight_le _) (TokenStream.length_tokens_le text)
  have bound : g.emitter.code.size ≤ 2 + 4 * text.length := Nat.le_trans size (by omega)
  exact ⟨g, run, outer, loops, function, current, bound, compile_of_run run outer⟩

theorem generated_of_compile {text : Text} {c : Compilation} (run : compile text = .ok c) :
    ∃ g assembly, Codegen.run (parsedText text).source = .ok g ∧ g.emitter.code.size ≤ 2 + 4 * text.length ∧
      c = compiled text g assembly := by
  obtain ⟨g, generated, _, _, _, _, size, compiles⟩ := exists_generated text
  rw [compiles] at run
  cases assembled : assemble (reported text g) g.emitter.program with
  | error e =>
    rw [assembled] at run
    cases run
  | ok assembly =>
    rw [assembled] at run
    cases run
    exact ⟨g, assembly, generated, size, rfl⟩

theorem Codegen.diagnostics_eq_nil_iff (g : Codegen) : g.diagnostics = [] ↔ g.errors = #[] := by
  rw [diagnostics, List.map_eq_nil_iff, Array.toList_eq_nil_iff]

theorem reported_clean {text : Text} {g : Codegen} (clean : (reported text g).hasErrors = false) :
    (parsedText text).diagnostics = [] ∧ g.errors = #[] := by
  simp only [Diagnostics.hasErrors, reported, Bool.not_eq_false', Bool.and_eq_true, List.isEmpty_iff] at clean
  exact ⟨clean.1.2, g.diagnostics_eq_nil_iff.mp clean.2⟩

theorem programCode_of_clean {text : Text} {g : Codegen} (run : Codegen.run (parsedText text).source = .ok g)
    (clean : (reported text g).hasErrors = false) :
    Typing.WellTyped (parsedText text).source ∧
      ∃ entry globals, Translation.ProgramCode (parsedText text).source g.emitter.program entry globals := by
  obtain ⟨syntactic, semantic⟩ := reported_clean clean
  have wellTyped : Typing.WellTyped (parsedText text).source :=
    Codegen.source_sound (Parsed.complete syntactic) run semantic
  obtain ⟨g', entry, globals, run', _, code⟩ := Codegen.source_translates wellTyped
  rw [run] at run'
  cases run'
  exact ⟨wellTyped, entry, globals, code⟩

/-- The checker of a text without syntax errors finds no error exactly if the tree keeps the static
    rules; what it finds is what a compilation reports. -/
theorem semantic_eq_nil_iff_wellTyped {text : Text} (clean : (parsedText text).diagnostics = []) :
    ∃ g, generate (parsedText text).source = .ok g ∧
      (g.diagnostics = [] ↔ Typing.WellTyped (parsedText text).source) ∧
      ∀ c, compile text = .ok c → c.parsed = parsedText text ∧ c.diagnostics.semantic = g.diagnostics := by
  obtain ⟨g, run, _⟩ := exists_generated text
  refine ⟨g, generate_of_run run, ?_, ?_⟩
  · rw [g.diagnostics_eq_nil_iff]
    constructor
    · exact Codegen.source_sound (Parsed.complete clean) run
    · intro wellTyped
      obtain ⟨g', entry, globals, run', errors, _⟩ := Codegen.source_translates wellTyped
      rw [run] at run'
      cases run'
      exact errors
  · intro c compiles
    obtain ⟨g', assembly, run', _, rfl⟩ := generated_of_compile compiles
    rw [run] at run'
    cases run'
    exact ⟨rfl, rfl⟩

theorem exists_of_checked {text : Text} {P : Compilation → Bool} (checked : (compile text).toOption.any P = true) :
    ∃ c, compile text = .ok c ∧ P c = true := by
  cases run : compile text with
  | error e =>
    rw [run] at checked
    cases checked
  | ok c =>
    rw [run] at checked
    exact ⟨c, rfl, checked⟩

def squaresText : Text :=
  List.flatten
    ["int cell[3]; int sum(int a[], int n) \x7b ",
      "if (n == 0) return 0; ",
      "return a[n - 1] + sum(a, n - 1); \x7d ",
      "void main(void) \x7b int i; i = 0; ",
      "while (i < 3) \x7b cell[i] = i * i; i = i + 1; \x7d ",
      "output(sum(cell, 3)); \x7d"]

theorem accepted_squares : ∃ c, compile squaresText = .ok c ∧ c.ok = true :=
  exists_of_checked (by decide +kernel)

theorem semantic_eq_nil_iff_wellTyped_squares :
    (parsedText squaresText).diagnostics = [] ∧
      ∃ g, generate (parsedText squaresText).source = .ok g ∧
        (g.diagnostics = [] ↔ Typing.WellTyped (parsedText squaresText).source) ∧
        ∀ c, compile squaresText = .ok c → c.parsed = parsedText squaresText ∧ c.diagnostics.semantic = g.diagnostics :=
  have clean : (parsedText squaresText).diagnostics = [] := by decide +kernel
  ⟨clean, semantic_eq_nil_iff_wellTyped clean⟩

theorem length_squares : squaresText.length < 2 ^ 60 := by
  decide +kernel

theorem short_squares {c : Compilation} (run : compile squaresText = .ok c) : c.program.code.size < 2 ^ 63 := by
  obtain ⟨g, assembly, _, size, rfl⟩ := generated_of_compile run
  have length := length_squares
  exact Nat.lt_of_le_of_lt size (by omega)

theorem wellFormed_of_clean {text : Text} {g : Codegen} (short : g.emitter.code.size < 2 ^ 63)
    (run : Codegen.run (parsedText text).source = .ok g) (clean : (reported text g).hasErrors = false) :
    g.emitter.program.WellFormed := by
  obtain ⟨_, entry, globals, code⟩ := programCode_of_clean run clean
  exact code.wellFormed short

end MiniC
