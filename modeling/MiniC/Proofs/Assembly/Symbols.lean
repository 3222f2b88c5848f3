import MiniC.Proofs.Assembly.Resolution
import MiniC.Proofs.Preservation.Program

namespace MiniC

namespace Assembly

def symbol (f : Function) : Text :=
  "cm_" ++ f.name

theorem map_entry_functionsFrom (main : Option Word) (n : Nat) (rest : List Instruction) :
    (Listing.functionsFrom main n rest).map (·.entry) = (entries n rest).map fun k : Nat => (k : Int) := by
  induction rest generalizing n with
  | nil => rfl
  | cons i rest ih =>
    rw [Listing.functionsFrom, entries_cons]
    by_cases isFunc : i.op = .func
    · simp only [isFunc, if_true, List.map_cons, List.singleton_append, ih]
    · simp only [isFunc, if_false, List.nil_append, ih]

section Outline

variable {p : Program} {declared : List Symbol} (outline : Outline p.code p.functions declared)
  (halt : p.code[1]? = some { op := .jp, a1 := .label p.code.size })

include outline halt

theorem map_entry : p.functions.map (·.entry) = (entries 0 p.code.toList).map fun k : Nat => (k : Int) := by
  have listed := congrArg (List.map (·.entry)) (outline.layout halt)
  rw [List.map_map] at listed
  exact listed.symm.trans (map_entry_functionsFrom _ 0 _)

theorem functionAt?_entry {f : Function} (member : f ∈ p.functions) : p.functionAt? f.entry = some f := by
  have distinct : (p.functions.map (·.entry)).Nodup := by
    rw [map_entry outline halt]
    exact (entries_nodup _ _).map fun a b same => by omega
  exact find?_key distinct member

theorem functionLabel_entry {f : Function} (member : f ∈ p.functions) : functionLabel p f.entry = .symbol (symbol f) := by
  rw [functionLabel, functionAt?_entry outline halt member]
  rfl

theorem functionLabels_eq : functionLabels p 0 p.code.toList = p.functions.map fun f => .symbol (symbol f) := by
  have entries : functionLabels p 0 p.code.toList = (p.functions.map (·.entry)).map (functionLabel p) := by
    rw [map_entry outline halt, List.map_map]
    rfl
  rw [entries, List.map_map]
  exact List.map_congr_left fun f member => functionLabel_entry outline halt member

theorem function_of_isEntry {t : Int} (isEntry : p.isEntry t = true) : ∃ f ∈ p.functions, f.entry = t := by
  have member : t ∈ (entries 0 p.code.toList).map fun k : Nat => (k : Int) := by
    cases t with
    | negSucc => cases isEntry
    | ofNat k =>
      simp only [Program.isEntry, Program.fetch?, Option.any_eq_true, decide_eq_true_eq] at isEntry
      obtain ⟨i, found, isFunc⟩ := isEntry
      exact List.mem_map.mpr ⟨k, mem_entries.mpr ⟨i, by simpa using found, isFunc⟩, rfl⟩
  rw [← map_entry outline halt] at member
  exact List.mem_map.mp member

end Outline

def symbolTexts (functions : List Function) : List Text :=
  ("main" : Text) :: functions.map symbol ++ [("cm_data" : Text)]

instance (label : Text) : Decidable (isLocal label) :=
  inferInstanceAs (Decidable (_ = true))

structure Symbolic (p : Program) (asm : Text) : Prop where
  /-- There is a symbol for the start, one for each function, and one for the data. -/
  defined : ((definitions asm).filter (¬ isLocal ·)).Perm (symbolTexts p.functions)
  /-- They are different but for the one of the data, which a function may have as well. -/
  count : ∀ label ∈ definitions asm, ¬ isLocal label →
    (definitions asm).count label = if label = "cm_data" ∧ ∃ f ∈ p.functions, f.name = "data" then 2 else 1
  /-- Nothing else is named, but for the function that prints. -/
  named : ∀ label ∈ references asm, ¬ isLocal label → label = "printf" ∨ label ∈ definitions asm
  /-- The symbol of a function stands in front of its first instruction. -/
  function : ∀ f ∈ p.functions, ∃ n i, f.entry = (n : Nat) ∧ p.code[n]? = some i ∧ i.op = .func ∧
    ∃ between, (between = [] ∨ between = [(Label.code n).render ++ ":"]) ∧
      (symbol f ++ ":") :: between ++ ["\t// " ++ Listing.line n i] <:+: rows asm
  /-- A call goes to the symbol of the function that starts at its target. -/
  call : ∀ n i, p.code[n]? = some i → i.op = .call → ∃ f ∈ p.functions, f.entry = i.a1.value.toInt ∧
    ["\t// " ++ Listing.line n i, "\tbl " ++ symbol f] <:+: rows asm
  /-- The symbol of the data stands in front of it. -/
  data : ∃ size, [("cm_data:" : Text), "\t.zero " ++ Decimal.ofWord size] <:+: rows asm

theorem infix_rows {lines part : List Line} (legible : ∀ l ∈ lines, l.Legible) (within : part <:+: lines) :
    part.map Line.row <:+: rows (render lines) := by
  rw [rows_render legible]
  exact (within.map _).trans (List.prefix_append _ _).isInfix

theorem count_symbolTexts {functions : List Function} (distinct : (functions.map (·.name)).Nodup) {label : Text}
    (member : label ∈ symbolTexts functions) :
    (symbolTexts functions).count label = if label = "cm_data" ∧ ∃ f ∈ functions, f.name = "data" then 2 else 1 := by
  have unique : (functions.map symbol).Nodup := by
    have named : functions.map symbol = (functions.map (·.name)).map (("cm_" : Text) ++ ·) := by
      rw [List.map_map]
      rfl
    rw [named]
    exact distinct.map fun s t same => List.append_cancel_left same
  have start : ("main" : Text) ∉ functions.map symbol := by
    intro member
    obtain ⟨f, _, same⟩ := List.mem_map.mp member
    cases same
  have shared : ("cm_data" : Text) ∈ functions.map symbol ↔ ∃ f ∈ functions, f.name = "data" := by
    rw [List.mem_map]
    constructor
    · rintro ⟨f, known, same⟩
      exact ⟨f, known, List.append_cancel_left (show "cm_" ++ f.name = "cm_" ++ "data" from same)⟩
    · rintro ⟨f, known, same⟩
      exact ⟨f, known, by rw [symbol, same]; rfl⟩
  have apart : ("main" : Text) ≠ "cm_data" := by decide
  rw [symbolTexts, List.cons_append, List.count_cons, List.count_append, List.count_singleton, unique.count]
  simp only [symbolTexts, List.cons_append, List.mem_cons, List.mem_append, List.not_mem_nil, or_false] at member
  by_cases data : label = "cm_data"
  · subst data
    have first : (("main" : Text) == ("cm_data" : Text)) = false := by decide
    simp only [first, beq_self_eq_true, if_true, Bool.false_eq_true, if_false, true_and]
    by_cases also : ∃ f ∈ functions, f.name = "data"
    · rw [if_pos (shared.mpr also), if_pos also]
    · rw [if_neg (mt shared.mp also), if_neg also]
  · rcases member with rfl | member | same
    · simp [start, data, apart.symm]
    · have other : ("main" : Text) ≠ label := by
        rintro rfl
        exact start member
      simp [member, data, other, Ne.symm data]
    · exact absurd same data

section Symbolic

variable {p : Program} {declared : List Symbol} {lines : List Line} (outline : Outline p.code p.functions declared)
  (halt : p.code[1]? = some { op := .jp, a1 := .label p.code.size }) (plain : ∀ f ∈ p.functions, Plain f.name)
  (lowered : lower p = .ok lines)

include outline halt plain lowered

theorem definitions_perm : ((definitions (render lines)).filter (¬ isLocal ·)).Perm (symbolTexts p.functions) := by
  have delimited := delimited_of_outline outline halt
  have defined := (defines_lines delimited lowered).filter (!·.isLocal)
  have locals : (localLabels p).filter (!·.isLocal) = [] := by
    rw [List.filter_eq_nil_iff]
    intro l member
    simp [isLocal_of_mem_localLabels member]
  have own : (symbols p).filter (!·.isLocal) = symbols p := by
    rw [List.filter_eq_self]
    intro l member
    simp [isLocal_of_mem_symbols member]
  have texts : (symbols p).map Label.render = symbolTexts p.functions := by
    rw [symbols, functionLabels_eq outline halt, List.cons_append, List.map_cons, List.map_append, List.map_map]
    rfl
  have shows : ∀ l ∈ lines.filterMap Line.defines?, (decide (¬ isLocal l.render)) = !l.isLocal := by
    intro l member
    simp only [isLocal, (neat_of_defined plain delimited lowered member).shows, Bool.not_eq_true, Bool.decide_eq_false]
  rw [definitions_render (legible_lines plain lowered), List.filter_map, ← texts,
    List.filter_congr (q := (!·.isLocal)) shows]
  rw [List.filter_append, locals, own, List.nil_append] at defined
  exact defined.map _

theorem count_symbol (distinct : (p.functions.map (·.name)).Nodup) {label : Text}
    (member : label ∈ definitions (render lines))
    (other : ¬ isLocal label) :
    (definitions (render lines)).count label = if label = "cm_data" ∧ ∃ f ∈ p.functions, f.name = "data" then 2 else 1 := by
  have defined := definitions_perm outline halt plain lowered
  have known : label ∈ symbolTexts p.functions := defined.mem_iff.mp (List.mem_filter.mpr ⟨member, by simpa using other⟩)
  rw [← count_symbolTexts distinct known, ← List.perm_iff_count.mp defined label, List.count_filter (by simpa using other)]

theorem mem_definitions_of_symbol {l : Label} (member : l ∈ symbols p) : l.render ∈ definitions (render lines) := by
  have defined := (defines_lines (delimited_of_outline outline halt) lowered).mem_iff.mpr (List.mem_append_right _ member)
  rw [definitions_render (legible_lines plain lowered)]
  exact List.mem_map_of_mem defined

theorem named_symbol {label : Text} (member : label ∈ references (render lines)) (other : ¬ isLocal label) :
    label = "printf" ∨ label ∈ definitions (render lines) := by
  have delimited := delimited_of_outline outline halt
  have local_ : ∀ {l : Label}, l.Neat → l.isLocal = true → isLocal l.render := fun neat known => neat.shows.trans known
  rw [references_render (legible_lines plain lowered)] at member
  obtain ⟨l, named, rfl⟩ := List.mem_map.mp member
  have neat := neat_of_named plain delimited lowered named
  rcases names_lines delimited lowered named with member | ⟨i, stands, names⟩
  · obtain ⟨_, _, rfl⟩ := List.mem_map.mp member
    exact absurd (local_ neat rfl) other
  · cases names with
    | printf => exact .inl rfl
    | data => exact .inr (mem_definitions_of_symbol outline halt plain lowered (by simp [symbols]))
    | format => exact absurd (local_ neat rfl) other
    | target => exact absurd (local_ neat rfl) other
    | epilogue => exact absurd (local_ neat rfl) other
    | callee calls =>
      refine .inr (mem_definitions_of_symbol outline halt plain lowered ?_)
      have target : target? i = some i.a1.value := by rw [target?, calls]; rfl
      obtain ⟨_, _, isEntry⟩ := target_bounds (lower_cases lowered).1 stands target
      obtain ⟨f, known, starts⟩ := function_of_isEntry outline halt (isEntry calls)
      rw [← starts, functionLabel_entry outline halt known, symbols, functionLabels_eq outline halt]
      simp only [List.cons_append, List.mem_cons, List.mem_append, List.mem_map]
      exact .inr (.inl ⟨f, known, rfl⟩)

omit outline halt in
theorem step_rows {n : Nat} {i : Instruction} (found : p.code[n]? = some i) :
    ∃ (c : Context) (s : Step p n c i), (s.lines (jumped p)).map Line.row <:+: rows (render lines) := by
  have legible := legible_lines plain lowered
  obtain ⟨_, out, body, rfl⟩ := lower_cases lowered
  have steps := exists_step body (k := n) (i := i) (by simpa using found)
  rw [Nat.zero_add] at steps
  obtain ⟨c, s, within⟩ := steps
  have whole : s.lines (jumped p) <:+: header ++ out ++ footer p :=
    (within.trans (List.suffix_append _ _).isInfix).trans (List.prefix_append _ _).isInfix
  exact ⟨c, s, infix_rows legible whole⟩

theorem function_rows {f : Function} (member : f ∈ p.functions) :
    ∃ n i, f.entry = (n : Nat) ∧ p.code[n]? = some i ∧ i.op = .func ∧
      ∃ between, (between = [] ∨ between = [(Label.code n).render ++ ":"]) ∧
        (symbol f ++ ":") :: between ++ ["\t// " ++ Listing.line n i] <:+: rows (render lines) := by
  have starts : f.entry ∈ (entries 0 p.code.toList).map fun k : Nat => (k : Int) := by
    rw [← map_entry outline halt]
    exact List.mem_map_of_mem member
  obtain ⟨n, isEntry, entry⟩ := List.mem_map.mp starts
  obtain ⟨i, found, isFunc⟩ := mem_entries.mp isEntry
  rw [Array.getElem?_toList] at found
  obtain ⟨c, s, within⟩ := step_rows plain lowered found
  obtain ⟨_, opening, _⟩ := s.opening_cases.resolve_left fun other => other.1 isFunc
  have label := functionLabel_entry outline halt member
  rw [← entry] at label
  refine ⟨n, i, entry.symm, found, isFunc, (landing (jumped p) n).map Line.row, ?_, ?_⟩
  · unfold landing
    split
    · exact .inr rfl
    · exact .inl rfl
  · have part : .label (.symbol (symbol f)) :: landing (jumped p) n ++ [.source n i] <:+: s.lines (jumped p) :=
      ⟨[.blank], s.own ++ (closeFunction n s.inner).1, by rw [Step.lines, opening, label]; simp⟩
    have shown := (part.map Line.row).trans within
    rwa [List.map_append, List.map_cons] at shown

theorem call_rows {n : Nat} {i : Instruction} (found : p.code[n]? = some i) (calls : i.op = .call) :
    ∃ f ∈ p.functions, f.entry = i.a1.value.toInt ∧
      ["\t// " ++ Listing.line n i, "\tbl " ++ symbol f] <:+: rows (render lines) := by
  have target : target? i = some i.a1.value := by rw [target?, calls]; rfl
  have stands : i ∈ p.code.toList := List.mem_of_getElem? (by simpa using found)
  obtain ⟨_, _, isEntry⟩ := target_bounds (lower_cases lowered).1 stands target
  obtain ⟨f, known, starts⟩ := function_of_isEntry outline halt (isEntry calls)
  obtain ⟨c, s, within⟩ := step_rows plain lowered found
  obtain ⟨more, own⟩ := lines_of_call calls s.lowers
  rw [← starts, functionLabel_entry outline halt known] at own
  have part : [.source n i, .instr (.call (.symbol (symbol f)))] <:+: s.lines (jumped p) :=
    ⟨s.opening ++ landing (jumped p) n, more ++ (closeFunction n s.inner).1, by rw [Step.lines, own]; simp⟩
  have jump : Line.row (.instr (.call (.symbol (symbol f)))) = "\tbl " ++ symbol f := by
    have mnemonic : ("\tbl " : Text) = "\t" ++ ("bl" ++ " ") := by decide
    simp [Line.row, Instr.render, written, List.intercalate, Label.render, mnemonic]
  have shown := (part.map Line.row).trans within
  rw [List.map_cons, List.map_cons, jump] at shown
  exact ⟨f, known, starts, shown⟩

omit outline halt in
theorem data_rows : ∃ size, [("cm_data:" : Text), "\t.zero " ++ Decimal.ofWord size] <:+: rows (render lines) := by
  have legible := legible_lines plain lowered
  obtain ⟨_, out, body, rfl⟩ := lower_cases lowered
  let size := if machineOffset p.globalSize = 0 then machineWord else machineOffset p.globalSize
  have last : [.label dataLabel, .directive (".zero " ++ Decimal.ofWord size)] <:+: footer p :=
    ⟨(footer p).take 7, (footer p).drop 9, rfl⟩
  exact ⟨size, infix_rows legible (last.trans (List.suffix_append _ _).isInfix)⟩

theorem symbolic_lines (distinct : (p.functions.map (·.name)).Nodup) : Symbolic p (render lines) where
  defined := definitions_perm outline halt plain lowered
  count _ member other := count_symbol outline halt plain lowered distinct member other
  named _ member other := named_symbol outline halt plain lowered member other
  function _ member := function_rows outline halt plain lowered member
  call _ _ found calls := call_rows outline halt plain lowered found calls
  data := data_rows plain lowered

end Symbolic

end Assembly

theorem functionNames_nodup {text : Text} {g : Codegen} (run : Codegen.run (parsedText text).source = .ok g)
    (clean : (reported text g).hasErrors = false) : (g.emitter.program.functions.map (·.name)).Nodup := by
  obtain ⟨wellTyped, entry, globals, code⟩ := programCode_of_clean run clean
  obtain ⟨_, declared, _⟩ := wellTyped
  rw [DeclsCode.map_name code.decls]
  exact (DeclsOk.functionNames_nodup declared).1

/-- The symbols of the text for an accepted source are those of its start, its functions and its data.
    They are defined once and stand for that, but for the symbol of the data, which is that of a function,
    too, if there is one named `data`. -/
theorem symbols_of_accepted {text : Text} {c : Compilation} (run : compile text = .ok c) (ok : c.ok = true) :
    ∃ asm, c.assembly = some asm ∧ c.program.functions.map (·.name) = c.parsed.source.functionNames ∧
      Assembly.Symbolic c.program asm := by
  obtain ⟨g, lines, generated, clean, lowered, rfl⟩ := lowered_of_accepted run ok
  obtain ⟨outline, halt, names⟩ := Codegen.outline_of_run generated
  exact ⟨_, rfl, names,
    Assembly.symbolic_lines outline halt (plain_of_run generated) lowered (functionNames_nodup generated clean)⟩

theorem symbols_of_accepted_squares :
    ∃ c asm, compile squaresText = .ok c ∧ c.ok = true ∧ c.assembly = some asm ∧ Assembly.Symbolic c.program asm := by
  obtain ⟨c, run, ok⟩ := accepted_squares
  obtain ⟨asm, assembly, _, symbolic⟩ := symbols_of_accepted run ok
  exact ⟨c, asm, run, ok, assembly, symbolic⟩

def dataText : Text :=
  "void data(void) \x7b output(1); \x7d void main(void) \x7b data(); \x7d"

theorem symbols_clash_data :
    ∃ c asm, compile dataText = .ok c ∧ c.ok = true ∧ c.assembly = some asm ∧
      (Assembly.definitions asm).count ("cm_data" : Text) = 2 := by
  have checked : (compile dataText).toOption.any (fun c =>
      c.ok && c.assembly.any fun asm => (Assembly.definitions asm).count ("cm_data" : Text) = 2) = true := by decide +kernel
  obtain ⟨c, run, found⟩ := exists_of_checked checked
  simp only [Bool.and_eq_true, Option.any_eq_true, decide_eq_true_eq] at found
  obtain ⟨ok, asm, assembly, twice⟩ := found
  exact ⟨c, asm, run, ok, assembly, twice⟩

end MiniC
