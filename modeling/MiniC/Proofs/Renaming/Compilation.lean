import Mathlib.Algebra.Group.End
import Mathlib.Data.Fintype.Sum
import MiniC.Proofs.Lowering
import MiniC.Proofs.Renaming.Generation
import MiniC.Proofs.Renaming.Lexing
import MiniC.Proofs.Renaming.Parsing

namespace MiniC

instance (name : Text) : Decidable (Segment.IsName name) :=
  decidable_of_iff
    (Segment.startsWith Segment.isLetter name = true ∧ name.all Segment.isWord = true ∧ Keyword.ofLexeme? name = none)
    ⟨fun h => ⟨h.1, List.all_eq_true.mp h.2.1, h.2.2⟩, fun h => ⟨h.first, List.all_eq_true.mpr h.word, h.free⟩⟩

/-- The names that matter for a source: its own, and those that have a meaning of their own. -/
def Text.vocabulary (t : Text) : List Text :=
  Codegen.mainName :: Symbol.output.name :: t.names

/-- A map of the names of a source to names. Different names stay different, and those that have a
    meaning of their own stay what they are. -/
structure Renaming (ρ : Text → Text) (t : Text) : Prop where
  names : ∀ name ∈ t.names, Segment.IsName (ρ name)
  injective : Set.InjOn ρ {name | name ∈ t.vocabulary}
  main : ρ Codegen.mainName = Codegen.mainName
  output : ρ Symbol.output.name = Symbol.output.name

structure Compilation.Alike (ρ : Text → Text) (c c' : Compilation) : Prop where
  stream : c'.stream = c.stream.rename ρ
  tree : c'.tree = c.tree.rename ρ
  code : c'.program.code = c.program.code
  globalSize : c'.program.globalSize = c.program.globalSize
  lexical : c'.diagnostics.lexical = c.diagnostics.lexical
  syntactic : c'.diagnostics.syntactic.map Diagnostic.line = c.diagnostics.syntactic.map Diagnostic.line
  semantic : c'.diagnostics.semantic.map Diagnostic.line = c.diagnostics.semantic.map Diagnostic.line

/-- A map that keeps finitely many names apart is one of a permutation of all names. -/
theorem exists_perm_of_injOn {ρ : Text → Text} {names : List Text} (injective : Set.InjOn ρ {name | name ∈ names}) :
    ∃ σ : Equiv.Perm Text, ∀ name ∈ names, σ name = ρ name := by
  let all : Finset Text := names.toFinset ∪ names.toFinset.image ρ
  let own : Finset all := Finset.univ.filter fun x => x.1 ∈ names
  have within : own.image (fun x => ρ x.1) ⊆ all := by
    intro y member
    simp only [own, all, Finset.mem_image, Finset.mem_filter, Finset.mem_union, List.mem_toFinset] at member ⊢
    obtain ⟨x, ⟨_, known⟩, rfl⟩ := member
    exact .inr ⟨x.1, known, rfl⟩
  have apart : Set.InjOn (fun x : all => ρ x.1) own := by
    intro x hx y hy same
    exact Subtype.ext (injective (Finset.mem_filter.mp hx).2 (Finset.mem_filter.mp hy).2 same)
  obtain ⟨g, extends_⟩ := Finset.exists_equiv_extend_of_card_eq (Fintype.card_coe all) within apart
  refine ⟨Equiv.Perm.ofSubtype g, fun name member => ?_⟩
  have known : name ∈ all := by simp [all, member]
  rw [Equiv.Perm.ofSubtype_apply_of_mem g known]
  exact extends_ ⟨name, known⟩ (by simp [own, member])

theorem exists_compiled {text : Text} {g : Codegen} (short : g.emitter.code.size < 2 ^ 63)
    (run : Codegen.run (parsedText text).source = .ok g) : ∃ c, compile text = .ok c := by
  rcases compile_of_generated short run with ⟨_, compiles⟩ | ⟨_, _, compiles⟩
  · exact ⟨_, compiles⟩
  · exact ⟨_, compiles⟩

section Text

variable {ρ : Text → Text} {text : Text} (h : Renaming ρ text)

include h

theorem Renaming.source :
    (parsedText (text.rename ρ)).source = (parsedText text).source.rename ρ ∧
      (parsedText (text.rename ρ)).errors.map Located.line = (parsedText text).errors.map Located.line := by
  unfold parsedText
  rw [TokenStream.ofSource_rename h.names]
  exact Parsed.ofTokens_rename ρ _

theorem Renaming.generated {g : Codegen} (run : Codegen.run (parsedText text).source = .ok g) :
    ∃ σ, Codegen.run (parsedText (text.rename ρ)).source = .ok (g.rename σ) := by
  obtain ⟨σ, same⟩ := exists_perm_of_injOn h.injective
  -- The names of the source are renamed by `σ` as well, and `σ` keeps all names apart.
  have own : ∀ name ∈ text.names, σ name = ρ name := fun name member => same name (by simp [Text.vocabulary, member])
  have main : σ Codegen.mainName = Codegen.mainName := by rw [same _ (by simp [Text.vocabulary]), h.main]
  have output : σ Symbol.output.name = Symbol.output.name := by rw [same _ (by simp [Text.vocabulary]), h.output]
  have names : ∀ name ∈ text.names, Segment.IsName (σ name) := fun name member => by
    rw [own name member]
    exact h.names name member
  refine ⟨σ, ?_⟩
  rw [parsedText, ← Text.rename_congr own, TokenStream.ofSource_rename names, (Parsed.ofTokens_rename σ _).1,
    Codegen.run_rename σ.injective main output]
  exact congrArg (Except.map (Codegen.rename σ)) run

theorem Renaming.alike {c c' : Compilation} (run : compile text = .ok c) (run' : compile (text.rename ρ) = .ok c') :
    c.Alike ρ c' := by
  obtain ⟨g, assembly, generated, _, rfl⟩ := generated_of_compile run
  obtain ⟨g', assembly', generated', _, rfl⟩ := generated_of_compile run'
  obtain ⟨σ, renamed⟩ := h.generated generated
  rw [generated'] at renamed
  cases renamed
  obtain ⟨source, lines⟩ := h.source
  have stream := TokenStream.ofSource_rename h.names
  refine ⟨stream, ?_, rfl, rfl, ?_, ?_, ?_⟩
  · exact (congrArg Source.tree source).trans (Source.tree_rename _)
  · have lexical := congrArg TokenStream.diagnostics stream
    exact lexical
  · simp only [compiled, reported, Parsed.diagnostics, List.map_map]
    exact lines
  · simp [compiled, reported, Codegen.diagnostics, Codegen.rename]

end Text

/-- Code does not depend on names. For every source and every renaming of its names, the source with
    other names compiles to the same code, from the same tree but for the names, and with diagnostics on
    the same lines. Both compilations succeed; the indices of instructions are words, so there must not be
    more of them than words count. -/
theorem compile_rename (ρ : Text → Text) (text : Text) (h : Renaming ρ text) :
    (∀ c c', compile text = .ok c → compile (text.rename ρ) = .ok c' → c.Alike ρ c') ∧
      ∃ g, generate (parsedText text).source = .ok g ∧ g.emitter.code.size ≤ 2 + 4 * text.length ∧
        (g.emitter.code.size < 2 ^ 63 → ∃ c c', compile text = .ok c ∧ compile (text.rename ρ) = .ok c') := by
  refine ⟨fun c c' run run' => h.alike run run', ?_⟩
  obtain ⟨g, run, _, _, _, _, size, _⟩ := exists_generated text
  refine ⟨g, generate_of_run run, size, fun short => ?_⟩
  obtain ⟨σ, run'⟩ := h.generated run
  obtain ⟨c, compiles⟩ := exists_compiled short run
  obtain ⟨c', compiles'⟩ := exists_compiled (show (g.rename σ).emitter.code.size < 2 ^ 63 from short) run'
  exact ⟨c, c', compiles, compiles'⟩

def exchange : Text → Text := fun name =>
  if name = ("sum" : Text) then "cell"
  else if name = ("cell" : Text) then "i"
  else if name = ("i" : Text) then "sum"
  else name

theorem compile_rename_squares :
    Renaming exchange squaresText ∧
      ∃ c c', compile squaresText = .ok c ∧ compile (squaresText.rename exchange) = .ok c' ∧ c.Alike exchange c' := by
  have valid : Renaming exchange squaresText := by
    have apart : ∀ a ∈ squaresText.vocabulary, ∀ b ∈ squaresText.vocabulary, exchange a = exchange b → a = b := by
      decide +kernel
    exact ⟨by decide +kernel, fun a ha b hb => apart a ha b hb, by decide, by decide⟩
  have length := length_squares
  obtain ⟨alike, g, _, size, succeeds⟩ := compile_rename exchange squaresText valid
  obtain ⟨c, c', run, run'⟩ := succeeds (by omega)
  exact ⟨valid, c, c', run, run', alike c c' run run'⟩

end MiniC
