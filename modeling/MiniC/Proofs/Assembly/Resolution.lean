import MiniC.Proofs.Assembly.Labels
import MiniC.Proofs.Renaming.Compilation

namespace MiniC

namespace Assembly

/-- Whether the text of a label is in one piece and shows if the label is local. -/
structure Label.Neat (l : Label) : Prop where
  plain : Plain l.render
  shows : (".L" : Text).isPrefixOf l.render = l.isLocal

theorem plain_fixed :
    ∀ t ∈ ([".L", ".Lret_", ".Lfmt", "main", "printf", "cm_", "data", "f"] : List Text), Plain t := by
  decide +kernel

theorem neat_code (index : Int) : (Label.code index).Neat :=
  ⟨Plain.append (plain_fixed ".L" (by simp)) (plain_ofInt index), rfl⟩

theorem neat_epilogue (entry : Int) : (Label.epilogue entry).Neat :=
  ⟨Plain.append (plain_fixed ".Lret_" (by simp)) (plain_ofInt entry), rfl⟩

theorem neat_format : Label.format.Neat :=
  ⟨plain_fixed ".Lfmt" (by simp), rfl⟩

theorem neat_main : mainLabel.Neat :=
  ⟨plain_fixed "main" (by simp), rfl⟩

theorem neat_printf : (Label.symbol "printf").Neat :=
  ⟨plain_fixed "printf" (by simp), rfl⟩

theorem neat_own {name : Text} (plain : Plain name) : (Label.symbol ("cm_" ++ name)).Neat :=
  ⟨Plain.append (plain_fixed "cm_" (by simp)) plain, rfl⟩

theorem neat_data : dataLabel.Neat :=
  neat_own (plain_fixed "data" (by simp))

theorem neat_functionLabel {p : Program} (plain : ∀ f ∈ p.functions, Plain f.name) (entry : Int) :
    (functionLabel p entry).Neat := by
  unfold functionLabel
  split
  · next f found => exact neat_own (plain f (List.mem_of_find?_eq_some found))
  · have plain : Plain ("f" ++ Decimal.ofInt entry) :=
      Plain.append (plain_fixed "f" (by simp)) (plain_ofInt entry)
    exact neat_own plain

theorem neat_of_names {p : Program} (plain : ∀ f ∈ p.functions, Plain f.name) {i : Instruction} {function : Option Function}
    {l : Label} (h : Names p i function l) : l.Neat := by
  cases h with
  | data => exact neat_data
  | format => exact neat_format
  | printf => exact neat_printf
  | target => exact neat_code _
  | callee => exact neat_functionLabel plain _
  | epilogue => exact neat_epilogue _

theorem render_injective {l l' : Label} (neat : l.Neat) (neat' : l'.Neat) (isLocal : l.isLocal = true)
    (same : l.render = l'.render) : l = l' := by
  have alike : l'.isLocal = true := by rw [← neat'.shows, ← same, neat.shows, isLocal]
  have cut : ∀ {s t u : Text}, s ++ t = s ++ u → t = u := List.append_cancel_left
  have number : ∀ {m n : Int}, Decimal.ofInt m = Decimal.ofInt n → m = n := by
    intro m n same
    have back := congrArg Decimal.toInt? same
    rw [Decimal.toInt?_ofInt, Decimal.toInt?_ofInt] at back
    exact Option.some.inj back
  have letter : ∀ {n : Int} {t : Text} {c : UInt8}, c ∈ t → c ≠ '-'.toUInt8 → Decimal.isDigit c = false →
      (Label.code n).render ≠ ".L" ++ t := by
    intro n t c member sign other same
    exact not_mem_ofInt sign other n (cut same ▸ member)
  have afterReturn : ∀ m n : Int, (Label.code m).render ≠ (Label.epilogue n).render := fun m n =>
    letter (c := 'r'.toUInt8) (t := "ret_" ++ Decimal.ofInt n) (List.mem_append_left _ (by decide)) (by decide) (by decide)
  have format : ∀ m : Int, (Label.code m).render ≠ Label.format.render := fun m =>
    letter (c := 'f'.toUInt8) (t := "fmt") (by decide) (by decide) (by decide)
  cases l with
  | symbol => cases isLocal
  | code m =>
    cases l' with
    | symbol => cases alike
    | code n => rw [number (cut same)]
    | epilogue n => exact absurd same (afterReturn m n)
    | format => exact absurd same (format m)
  | epilogue m =>
    cases l' with
    | symbol => cases alike
    | code n => exact absurd same.symm (afterReturn n m)
    | epilogue n => rw [number (cut same)]
    | format => cases same
  | format =>
    cases l' with
    | symbol => cases alike
    | code n => exact absurd same.symm (format n)
    | epilogue n => cases same
    | format => rfl

section Legible

theorem legible_of_mute {i : Instr} (mute : i.label? = none) : (Line.instr i).Legible := by
  intro l named
  rw [mute] at named
  cases named

theorem legible_epilogueLines (f : Function) (frame : Word) : ∀ l ∈ epilogueLines f frame, l.Legible := by
  intro l member
  unfold epilogueLines at member
  dsimp only at member
  split at member <;>
    simp only [List.map_cons, List.map_nil, List.cons_append, List.nil_append, List.mem_cons, List.not_mem_nil,
      or_false] at member
  · rcases member with rfl | rfl | rfl | rfl | rfl
    · exact (neat_epilogue _).plain
    all_goals exact legible_of_mute rfl
  · rcases member with rfl | rfl | rfl | rfl | rfl | rfl
    · exact (neat_epilogue _).plain
    all_goals exact legible_of_mute rfl

theorem legible_header : ∀ l ∈ header, l.Legible := by
  intro l member
  simp only [header, List.mem_cons, List.not_mem_nil, or_false] at member
  rcases member with rfl | rfl | rfl | rfl | rfl | rfl
  case inr.inr.inr.inl => exact neat_main.plain
  case inr.inr.inr.inr.inl => exact legible_of_mute rfl
  case inr.inr.inr.inr.inr => exact legible_of_mute rfl
  all_goals exact ⟨by decide, by decide⟩

theorem legible_zero (n : Word) : (Line.directive (".zero " ++ Decimal.ofWord n)).Legible := by
  have blank : (".zero " : Text) = ".zero" ++ " " := by decide
  have shape : ".zero " ++ Decimal.ofWord n = written ".zero" ([] ++ [Decimal.ofWord n]) := by
    simp [blank, written, List.intercalate]
  have mute : Mute (Decimal.ofWord n) := by
    rw [Mute, Text.lastWord_of_not_mem (blank_not_mem_ofWord n)]
    exact fun colon => colon_not_mem_ofWord n (List.mem_of_head? colon)
  refine ⟨?_, ?_⟩
  · rw [List.mem_append, not_or]
    exact ⟨by decide, inline_ofWord n⟩
  · rw [shape]
    exact named?_of_mute (by decide) [] (by decide) mute

theorem legible_footer (p : Program) : ∀ l ∈ footer p, l.Legible := by
  intro l member
  simp only [footer, List.mem_cons, List.not_mem_nil, or_false] at member
  rcases member with rfl | rfl | rfl | rfl | rfl | rfl | rfl | rfl | rfl | rfl | rfl | rfl | rfl
  · exact (neat_code _).plain
  · exact legible_of_mute rfl
  · exact legible_of_mute rfl
  · exact legible_of_mute rfl
  · trivial
  · exact ⟨by decide, by decide⟩
  · exact ⟨by decide, by decide⟩
  · exact neat_data.plain
  · exact legible_zero _
  · trivial
  · exact ⟨by decide, by decide⟩
  · exact neat_format.plain
  · exact ⟨by decide, by decide⟩

end Legible

namespace Step

variable {p : Program} {n : Nat} {c : Context} {i : Instruction}

theorem legible (plain : ∀ f ∈ p.functions, Plain f.name) (s : Step p n c i) (targets : List Int) :
    ∀ l ∈ s.lines targets, l.Legible := by
  obtain ⟨is, own, named⟩ := lines_of_instructionLines s.lowers
  have opening : ∀ l ∈ s.opening, l.Legible := by
    intro l member
    rcases s.opening_cases with ⟨_, none, _⟩ | ⟨_, opening, _⟩
    · simp [none] at member
    · simp only [opening, List.mem_cons, List.not_mem_nil, or_false] at member
      rcases member with rfl | rfl
      · trivial
      · exact (neat_functionLabel plain _).plain
  have label : ∀ l ∈ landing targets n, l.Legible := by
    intro l member
    unfold landing at member
    split at member
    · cases List.mem_singleton.mp member
      exact (neat_code _).plain
    · cases member
  have closing : ∀ l ∈ (closeFunction n s.inner).1, l.Legible := by
    intro l member
    unfold closeFunction at member
    split at member
    · split at member
      · exact legible_epilogueLines _ _ l member
      · cases member
    · cases member
  intro l member
  simp only [Step.lines, own, List.append_assoc, List.cons_append, List.mem_append, List.mem_cons, List.mem_map] at member
  rcases member with member | member | rfl | ⟨j, member, rfl⟩ | member
  · exact opening l member
  · exact label l member
  · exact known_of_instructionLines s.lowers
  · exact fun l known => (neat_of_names plain (named j member l known)).plain
  · exact closing l member

end Step

section Text

variable {p : Program} {lines : List Line} (plain : ∀ f ∈ p.functions, Plain f.name)

include plain

theorem legible_lines (lowered : lower p = .ok lines) : ∀ l ∈ lines, l.Legible := by
  obtain ⟨_, out, body, rfl⟩ := lower_cases lowered
  have inner := forall_body body fun n c i (s : Step p n c i) => s.legible plain (jumped p)
  simp only [List.mem_append]
  rintro l ((member | member) | member)
  · exact legible_header l member
  · exact inner l member
  · exact legible_footer p l member

theorem neat_of_defined (delimited : Delimited p) (lowered : lower p = .ok lines) {l : Label}
    (defined : l ∈ lines.filterMap Line.defines?) : l.Neat := by
  have member := (defines_lines delimited lowered).mem_iff.mp defined
  simp only [localLabels, symbols, landings, epilogues, functionLabels, List.cons_append, List.mem_append, List.mem_cons,
    List.mem_map, List.not_mem_nil, or_false] at member
  rcases member with ((⟨_, _, rfl⟩ | ⟨_, _, rfl⟩) | rfl | rfl) | rfl | ⟨_, _, rfl⟩ | rfl
  · exact neat_code _
  · exact neat_epilogue _
  · exact neat_code _
  · exact neat_format
  · exact neat_main
  · exact neat_functionLabel plain _
  · exact neat_data

theorem neat_of_named (delimited : Delimited p) (lowered : lower p = .ok lines) {l : Label}
    (named : l ∈ lines.filterMap Line.names?) : l.Neat := by
  rcases names_lines delimited lowered named with member | ⟨i, _, names⟩
  · obtain ⟨_, _, rfl⟩ := List.mem_map.mp member
    exact neat_epilogue _
  · exact neat_of_names plain names

theorem count_definitions (delimited : Delimited p) (lowered : lower p = .ok lines) {l : Label} (neat : l.Neat)
    (isLocal : l.isLocal = true) : (definitions (render lines)).count l.render = (localLabels p).count l := by
  have other : l ∉ symbols p := by
    intro member
    rw [isLocal_of_mem_symbols member] at isLocal
    cases isLocal
  have defined := (List.perm_iff_count.mp (defines_lines delimited lowered)) l
  rw [List.count_append, List.count_eq_zero.mpr other, Nat.add_zero] at defined
  rw [definitions_render (legible_lines plain lowered), ← defined, List.count, List.count, List.countP_map]
  refine List.countP_congr fun l' member => ?_
  have injective := render_injective neat (neat_of_defined plain delimited lowered member) isLocal
  simp only [Function.comp_apply, beq_iff_eq]
  constructor
  · intro same
    exact (injective same.symm).symm
  · rintro rfl
    rfl

end Text

def isLocal (label : Text) : Prop :=
  (".L" : Text).isPrefixOf label = true

/-- Whether every local label that is named is defined once, and none is defined twice. -/
structure Resolved (asm : Text) : Prop where
  named : ∀ label ∈ references asm, isLocal label → (definitions asm).count label = 1
  defined : ∀ label ∈ definitions asm, isLocal label → (definitions asm).count label = 1

theorem resolved_lines {p : Program} {lines : List Line} (plain : ∀ f ∈ p.functions, Plain f.name) (delimited : Delimited p)
    (lowered : lower p = .ok lines) : Resolved (render lines) := by
  have legible := legible_lines plain lowered
  have once : ∀ {l : Label}, l.Neat → l ∈ localLabels p → (definitions (render lines)).count l.render = 1 := by
    intro l neat member
    rw [count_definitions plain delimited lowered neat (isLocal_of_mem_localLabels member)]
    exact List.count_eq_one_of_mem (localLabels_nodup p) member
  constructor
  · intro label member isLocal
    rw [references_render legible] at member
    obtain ⟨l, named, rfl⟩ := List.mem_map.mp member
    have neat := neat_of_named plain delimited lowered named
    exact once neat (mem_localLabels delimited lowered named (neat.shows ▸ isLocal))
  · intro label member isLocal
    rw [definitions_render legible] at member
    obtain ⟨l, defined, rfl⟩ := List.mem_map.mp member
    have neat := neat_of_defined plain delimited lowered defined
    rcases List.mem_append.mp ((defines_lines delimited lowered).mem_iff.mp defined) with member | member
    · exact once neat member
    · have other := isLocal_of_mem_symbols member
      rw [← neat.shows, isLocal] at other
      cases other

section Listing

theorem head_functionsFrom (main : Option Word) (rest : List Instruction) (n : Nat) :
    ((Listing.functionsFrom main n rest).head?.map (·.entry)).getD (n + rest.length) = (n + upToFunction rest : Nat) := by
  induction rest generalizing n with
  | nil => simp [Listing.functionsFrom, upToFunction]
  | cons i rest ih =>
    have later := ih (n + 1)
    by_cases isFunc : i.op = .func
    · simp [Listing.functionsFrom, upToFunction_of_eq, isFunc]
    · have size : (n : Int) + (i :: rest).length = (n + 1 : Nat) + rest.length := by
        rw [List.length_cons]
        omega
      rw [Listing.functionsFrom, if_neg isFunc, size, later, upToFunction_of_ne isFunc]
      omega

theorem functionsFrom_cases {main : Option Word} {rest : List Instruction} {n : Nat} {f : Function}
    (member : f ∈ Listing.functionsFrom main n rest) :
    ∃ k : Nat, f.name = Listing.functionName main (n + k) ∧ f.entry = (n + k : Nat) ∧
      f.stop = (n + k + 1 + upToFunction (rest.drop (k + 1)) : Nat) := by
  induction rest generalizing n with
  | nil => cases member
  | cons i rest ih =>
    have later : f ∈ Listing.functionsFrom main (n + 1) rest → ∃ k : Nat, f.name = Listing.functionName main (n + k) ∧
        f.entry = (n + k : Nat) ∧ f.stop = (n + k + 1 + upToFunction ((i :: rest).drop (k + 1)) : Nat) := by
      intro member
      obtain ⟨k, name, entry, stop⟩ := ih member
      have same : n + 1 + k = n + (k + 1) := by omega
      rw [same] at name entry stop
      exact ⟨k + 1, name, entry, stop⟩
    rw [Listing.functionsFrom] at member
    split at member
    · rcases List.mem_cons.mp member with rfl | member
      · refine ⟨0, rfl, rfl, ?_⟩
        have next := head_functionsFrom main rest (n + 1)
        simpa using next
      · exact later member
    · exact later member

theorem plain_functionName (main : Option Word) (entry : Nat) : Plain (Listing.functionName main entry) := by
  unfold Listing.functionName
  split
  · exact plain_fixed "main" (by simp)
  · exact Plain.append (plain_fixed "f" (by simp)) (plain_ofNat entry)

variable (code : Array Instruction)

theorem plain_layout : ∀ f ∈ (Listing.layout code).functions, Plain f.name := by
  intro f member
  obtain ⟨k, name, _⟩ := functionsFrom_cases member
  rw [name]
  exact plain_functionName _ _

theorem delimited_layout : Delimited (Listing.layout code) := by
  intro f member
  obtain ⟨k, _, entry, stop⟩ := functionsFrom_cases member
  rw [Nat.zero_add] at entry stop
  exact ⟨k, entry, stop⟩

end Listing

theorem delimited_of_outline {p : Program} {symbols : List Symbol} (outline : Outline p.code p.functions symbols)
    (halt : p.code[1]? = some { op := .jp, a1 := .label p.code.size }) : Delimited p := by
  intro f member
  have listed : Listing.listed (some (.ofInt (mainEntry p.functions))) f ∈ (Listing.layout p.code).functions := by
    rw [outline.layout halt]
    exact List.mem_map_of_mem member
  obtain ⟨e, entry, stop⟩ := delimited_layout p.code _ listed
  exact ⟨e, entry, stop⟩

theorem lines_of_ofProgram {p : Program} {asm : Text} (assembled : ofProgram p = .ok asm) :
    ∃ lines, lower p = .ok lines ∧ asm = render lines := by
  rw [ofProgram] at assembled
  cases lowered : lower p with
  | error e =>
    rw [lowered] at assembled
    cases assembled
  | ok lines =>
    rw [lowered] at assembled
    cases assembled
    exact ⟨lines, rfl, rfl⟩

theorem plain_of_isName {name : Text} (h : Segment.IsName name) : Plain name := by
  have graphic : ∀ c, Segment.isWord c = true → Text.isGraphic c = true ∧ c ≠ '+'.toUInt8 :=
    forall_byte (by decide +kernel)
  exact fun c member => graphic c (h.word c member)

end Assembly

theorem Source.functionNames_rename (ρ : Text → Text) (s : Source) : (s.rename ρ).functionNames = s.functionNames.map ρ := by
  rw [functionNames, functionNames, MiniC.functionNames, MiniC.functionNames, rename, List.flatMap_map, List.map_flatMap]
  refine List.flatMap_congr fun d _ => ?_
  cases d <;> rfl

/-- Functions have names of the text: replacing all else by a name changes nothing. -/
theorem isName_of_mem_functionNames {text name : Text} (member : name ∈ (parsedText text).source.functionNames) :
    Segment.IsName name := by
  let ρ : Text → Text := fun t => if Segment.IsName t then t else "a"
  have names : ∀ t, Segment.IsName (ρ t) := by
    intro t
    change Segment.IsName (if Segment.IsName t then t else "a")
    split
    · assumption
    · decide
  have kept : text.rename ρ = text :=
    (Text.rename_congr fun t member => if_pos (Text.isName_of_mem_names member)).trans (Text.rename_id text)
  have stream : (TokenStream.ofSource text).rename ρ = .ofSource text := by
    rw [← TokenStream.ofSource_rename fun t _ => names t, kept]
  have source := (Parsed.ofTokens_rename ρ (.ofSource text)).1
  rw [stream] at source
  rw [parsedText, source, Source.functionNames_rename] at member
  obtain ⟨t, _, rfl⟩ := List.mem_map.mp member
  exact names t

theorem lowered_of_accepted {text : Text} {c : Compilation} (run : compile text = .ok c) (ok : c.ok = true) :
    ∃ g lines, Codegen.run (parsedText text).source = .ok g ∧ (reported text g).hasErrors = false ∧
      Assembly.lower g.emitter.program = .ok lines ∧ c = compiled text g (some (Assembly.render lines)) := by
  obtain ⟨g, generated, _, _, _, _, _, compiles⟩ := exists_generated text
  rw [compiles, assemble] at run
  cases errors : (reported text g).hasErrors with
  | true =>
    rw [errors] at run
    cases run
    have rejected : (!(reported text g).hasErrors) = true := ok
    rw [errors] at rejected
    cases rejected
  | false =>
    rw [errors] at run
    cases assembled : Assembly.ofProgram g.emitter.program with
    | error e =>
      rw [assembled] at run
      cases run
    | ok asm =>
      rw [assembled] at run
      cases run
      obtain ⟨lines, lowered, rfl⟩ := Assembly.lines_of_ofProgram assembled
      exact ⟨g, lines, generated, errors, lowered, rfl⟩

theorem plain_of_run {text : Text} {g : Codegen} (run : Codegen.run (parsedText text).source = .ok g) :
    ∀ f ∈ g.emitter.program.functions, Assembly.Plain f.name := by
  obtain ⟨_, _, names⟩ := Codegen.outline_of_run run
  intro f member
  have known : f.name ∈ (parsedText text).source.functionNames := names ▸ List.mem_map_of_mem member
  exact Assembly.plain_of_isName (isName_of_mem_functionNames known)

theorem layout_of_parse {text : Text} {p : Program} (read : Listing.parse text = .ok p) :
    ∃ code, p = Listing.layout code := by
  rw [Listing.parse] at read
  cases rows : Listing.parseRows 1 #[] (text.splitOn '\n'.toUInt8) with
  | error e =>
    rw [rows] at read
    cases read
  | ok code =>
    rw [rows] at read
    cases read
    exact ⟨code, rfl⟩

/-- Every local label of an assembly text is defined once, if it is named there, and never twice. This is
    so for every source that is accepted, and for every listing that can be lowered. -/
theorem local_labels_resolve :
    (∀ text c, compile text = .ok c → c.ok = true → ∃ asm, c.assembly = some asm ∧ Assembly.Resolved asm) ∧
      ∀ text p asm, Listing.parse text = .ok p → Assembly.ofProgram p = .ok asm → Assembly.Resolved asm := by
  constructor
  · intro text c run ok
    obtain ⟨g, lines, generated, _, lowered, rfl⟩ := lowered_of_accepted run ok
    obtain ⟨outline, halt, _⟩ := Codegen.outline_of_run generated
    exact ⟨_, rfl, Assembly.resolved_lines (plain_of_run generated) (Assembly.delimited_of_outline outline halt) lowered⟩
  · intro text p asm read assembled
    obtain ⟨code, rfl⟩ := layout_of_parse read
    obtain ⟨lines, lowered, rfl⟩ := Assembly.lines_of_ofProgram assembled
    exact Assembly.resolved_lines (Assembly.plain_layout code) (Assembly.delimited_layout code) lowered

def loopListing : Text :=
  List.flatten
    ["0\t(CALL, 2, #0, )\n", "1\t(JP, 8, , )\n", "2\t(FUNC, #8, #0, )\n", "3\t(JPF, fp+4, 6, )\n",
      "4\t(PRINT, 500, , )\n", "5\t(RETURN, , , )\n", "6\t(ASSIGN, #1, fp+4, )\n", "7\t(JP, 3, , )\n"]

theorem local_labels_resolve_squares :
    (∃ c asm, compile squaresText = .ok c ∧ c.ok = true ∧ c.assembly = some asm ∧ Assembly.Resolved asm) ∧
      ∃ p asm, Listing.parse loopListing = .ok p ∧ Assembly.ofProgram p = .ok asm ∧
        (".Lret_2" : Text) ∈ Assembly.references asm ∧ Assembly.Resolved asm := by
  constructor
  · obtain ⟨c, run, ok⟩ := accepted_squares
    obtain ⟨asm, assembly, resolved⟩ := local_labels_resolve.1 squaresText c run ok
    exact ⟨c, asm, run, ok, assembly, resolved⟩
  · have checked : ((Listing.parse loopListing).toOption.bind fun p => (Assembly.ofProgram p).toOption).any
        (fun asm => decide ((".Lret_2" : Text) ∈ Assembly.references asm)) = true := by decide +kernel
    cases read : Listing.parse loopListing with
    | error e =>
      rw [read] at checked
      cases checked
    | ok p =>
      cases lowered : Assembly.ofProgram p with
      | error e =>
        simp [read, lowered, Except.toOption] at checked
      | ok asm =>
        have named : (".Lret_2" : Text) ∈ Assembly.references asm := by
          simpa [read, lowered, Except.toOption] using checked
        exact ⟨p, asm, rfl, lowered, named, local_labels_resolve.2 loopListing p asm read lowered⟩

end MiniC
