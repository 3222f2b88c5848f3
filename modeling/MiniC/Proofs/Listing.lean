import MiniC.Code.Listing
import MiniC.Proofs.EmittedCode
import MiniC.Proofs.Machine.Hosting
import MiniC.Proofs.Text

namespace MiniC

open Text (Solid Bounded)

/-- The operands that a listing shows in full, in the place of a jump target or elsewhere. -/
inductive Operand.Shown : Bool → Operand → Prop where
  | absent {isTarget : Bool} : Shown isTarget .absent
  | imm {isTarget : Bool} {w : Word} : Shown isTarget (.imm w)
  | global {w : Word} {indirect : Bool} : Shown false ⟨.global, w, indirect⟩
  | slot {w : Word} {indirect : Bool} : Shown false ⟨.slot, w, indirect⟩
  | slotTarget {w : Word} : Shown true (.slot w)
  | label {w : Word} : Shown true ⟨.label, w, false⟩

structure Instruction.Shown (i : Instruction) : Prop where
  known : i.op ∈ Opcode.all
  operand : ∀ position, (i.operand position).Shown (i.op.target? = some position)

namespace Operand

theorem ofWord_eq_cons (w : Word) :
    ∃ c rest, Decimal.ofWord w = c :: rest ∧ c ≠ '#'.toUInt8 ∧ c ≠ '@'.toUInt8 ∧ c ≠ 'f'.toUInt8 := by
  have digit : ∀ n, ∃ c rest, Decimal.ofNat n = c :: rest ∧ c ≠ '#'.toUInt8 ∧ c ≠ '@'.toUInt8 ∧ c ≠ 'f'.toUInt8 := by
    intro n
    obtain ⟨c, rest, written⟩ := List.exists_cons_of_ne_nil (Decimal.ofNat_ne_nil n)
    have digit : Decimal.isDigit c = true := Decimal.isDigit_of_mem_ofNat (n := n) (by simp [written])
    refine ⟨c, rest, written, ?_, ?_, ?_⟩ <;> rintro rfl <;> exact absurd digit (by decide)
  unfold Decimal.ofWord
  cases w.toInt with
  | ofNat n => exact digit n
  | negSucc n => exact ⟨_, _, rfl, by decide, by decide, by decide⟩

theorem parseWord_ofWord (w : Word) (isTarget : Bool) :
    parseWord (Decimal.ofWord w) isTarget = .ok (if isTarget then ⟨.label, w, false⟩ else .global w) := by
  have read := Decimal.toWord?_ofWord w
  obtain ⟨c, rest, written, _, _, other⟩ := ofWord_eq_cons w
  rw [written] at read ⊢
  have absent : ("fp+" : Text).isPrefixOf? (c :: rest) = none := Text.isPrefixOf?_of_ne other.symm ("p+" : Text) rest
  simp only [parseWord, absent, read]

theorem parseWord_slot (w : Word) (isTarget : Bool) :
    parseWord ("fp+" ++ Decimal.ofWord w) isTarget = .ok (.slot w) := by
  have found : ("fp+" : Text).isPrefixOf? ("fp+" ++ Decimal.ofWord w) = some (Decimal.ofWord w) := rfl
  rw [parseWord, found]
  simp only [Decimal.toWord?_ofWord]

theorem parse_ofWord (w : Word) (isTarget : Bool) :
    parse (Decimal.ofWord w) isTarget = parseWord (Decimal.ofWord w) isTarget := by
  obtain ⟨c, rest, written, immediate, indirect, _⟩ := ofWord_eq_cons w
  rw [written, parse, if_neg immediate, if_neg indirect]

theorem parse_render {o : Operand} {isTarget : Bool} (shown : o.Shown isTarget) : parse o.render isTarget = .ok o := by
  cases shown with
  | absent => rfl
  | @imm _ w =>
    change parse ('#'.toUInt8 :: Decimal.ofWord w) isTarget = _
    rw [parse, if_pos rfl, Decimal.toWord?_ofWord]
  | @global w indirect =>
    cases indirect with
    | false =>
      change parse (Decimal.ofWord w) false = _
      rw [parse_ofWord, parseWord_ofWord]
      rfl
    | true =>
      change parse ('@'.toUInt8 :: Decimal.ofWord w) false = _
      rw [parse, if_neg (by decide), if_pos rfl, parseWord_ofWord]
      rfl
  | @slot w indirect =>
    cases indirect with
    | false =>
      change parse ('f'.toUInt8 :: 'p'.toUInt8 :: '+'.toUInt8 :: Decimal.ofWord w) false = _
      rw [parse, if_neg (by decide), if_neg (by decide)]
      exact parseWord_slot w false
    | true =>
      change parse ('@'.toUInt8 :: ("fp+" ++ Decimal.ofWord w)) false = _
      rw [parse, if_neg (by decide), if_pos rfl, parseWord_slot]
      rfl
  | @slotTarget w =>
    change parse ('f'.toUInt8 :: 'p'.toUInt8 :: '+'.toUInt8 :: Decimal.ofWord w) true = _
    rw [parse, if_neg (by decide), if_neg (by decide)]
    exact parseWord_slot w true
  | @label w =>
    change parse (Decimal.ofWord w) true = _
    rw [parse_ofWord, parseWord_ofWord]
    rfl

theorem solid_mark (o : Operand) : Solid o.mark := by
  unfold mark
  split
  · decide
  · exact .nil

theorem solid_render (o : Operand) : Solid o.render := by
  unfold render
  split
  · exact .nil
  · exact Solid.append (by decide) (Text.solid_ofWord _)
  · exact Solid.append o.solid_mark (Text.solid_ofWord _)
  · exact Solid.append o.solid_mark (Text.solid_ofWord _)
  · exact Solid.append (Solid.append o.solid_mark (by decide)) (Text.solid_ofWord _)

theorem length_render_le (o : Operand) : o.render.length ≤ 24 := by
  have digits := Decimal.length_ofWord_le o.value
  have mark : o.mark.length ≤ 1 := by
    unfold Operand.mark
    split <;> decide
  have immediate : ("#" : Text).length = 1 := by decide
  have offset : ("fp+" : Text).length = 3 := by decide
  unfold render
  split <;> simp only [List.length_append, List.length_nil, immediate, offset] <;> omega

end Operand

namespace Instruction

def inner (i : Instruction) : Text :=
  i.op.name ++ ','.toUInt8 :: 0x20 ::
    (i.a1.render ++ ','.toUInt8 :: 0x20 :: (i.a2.render ++ ','.toUInt8 :: 0x20 :: i.a3.render))

theorem render_eq (i : Instruction) : i.render = '('.toUInt8 :: (i.inner ++ [')'.toUInt8]) := by
  have comma : (", " : Text) = [','.toUInt8, 0x20] := by decide
  have opening : ("(" : Text) = ['('.toUInt8] := by decide
  have closing : (")" : Text) = [')'.toUInt8] := by decide
  simp [render, inner, comma, opening, closing]

theorem solid_name {op : Opcode} (known : op ∈ Opcode.all) : Solid op.name := by
  have all : ∀ op ∈ Opcode.all, Solid op.name := by decide
  exact all op known

theorem length_name_le {op : Opcode} (known : op ∈ Opcode.all) : op.name.length ≤ 6 := by
  have all : ∀ op ∈ Opcode.all, op.name.length ≤ 6 := by decide
  exact all op known

theorem ofName?_name {op : Opcode} (known : op ∈ Opcode.all) : Opcode.ofName? op.name = some op := by
  have all : ∀ op ∈ Opcode.all, Opcode.ofName? op.name = some op := by decide
  exact all op known

end Instruction

namespace Listing

variable {i : Instruction}

theorem splitOn_inner (known : i.op ∈ Opcode.all) :
    i.inner.splitOn ','.toUInt8 = [i.op.name, 0x20 :: i.a1.render, 0x20 :: i.a2.render, 0x20 :: i.a3.render] := by
  have blank : ∀ o : Operand, ','.toUInt8 ∉ 0x20 :: o.render := by
    intro o member
    rcases List.mem_cons.mp member with same | member
    · exact absurd same (by decide)
    · exact o.solid_render.no_comma member
  rw [Instruction.inner, Text.splitOn_append (Instruction.solid_name known).no_comma]
  rw [← List.cons_append, Text.splitOn_append (blank _), ← List.cons_append, Text.splitOn_append (blank _),
    Text.splitOn_of_not_mem (blank _)]

theorem parseOperand_render {position : Position} (shown : (i.operand position).Shown (i.op.target? = some position)) :
    parseOperand i.op position (0x20 :: (i.operand position).render) = .ok (i.operand position) := by
  rw [parseOperand, Text.trim_blank (Operand.solid_render _).bounded, Operand.parse_render shown]
  rfl

theorem parseFields_inner (shown : i.Shown) : parseFields (i.inner.splitOn ','.toUInt8) = .ok i := by
  have first := parseOperand_render (shown.operand .first)
  have second := parseOperand_render (shown.operand .second)
  have third := parseOperand_render (shown.operand .third)
  simp only [Instruction.operand] at first second third
  rw [splitOn_inner shown.known]
  simp only [parseFields, Text.trim_eq_self (Instruction.solid_name shown.known).bounded,
    Instruction.ofName?_name shown.known, first, second, third, bind, Except.bind, pure, Except.pure]

theorem inBrackets?_render (i : Instruction) : inBrackets? i.render = some i.inner := by
  have opening : ("(" : Text).isPrefixOf? ('('.toUInt8 :: (i.inner ++ [')'.toUInt8])) =
    some (i.inner ++ [')'.toUInt8]) := rfl
  rw [Instruction.render_eq, inBrackets?, opening]
  simp

theorem bounded_render (i : Instruction) : Bounded i.render := by
  rw [Instruction.render_eq]
  refine ⟨fun c first => ?_, fun c last => ?_⟩
  · cases first
    decide
  · rw [← List.cons_append, List.getLast?_concat] at last
    cases last
    decide

def line (index : Nat) (i : Instruction) : Text :=
  Decimal.ofNat index ++ '\t'.toUInt8 :: i.render

theorem row_eq (index : Nat) (i : Instruction) : Program.row index i = line index i ++ ['\n'.toUInt8] := by
  have tab : ("\t" : Text) = ['\t'.toUInt8] := by decide
  have newline : ("\n" : Text) = ['\n'.toUInt8] := by decide
  simp [Program.row, line, tab, newline]

theorem bounded_line (index : Nat) (i : Instruction) : Bounded (line index i) := by
  have shape : line index i = (Decimal.ofNat index ++ '\t'.toUInt8 :: '('.toUInt8 :: i.inner) ++ [')'.toUInt8] := by
    simp [line, Instruction.render_eq]
  obtain ⟨c, rest, written⟩ := List.exists_cons_of_ne_nil (Decimal.ofNat_ne_nil index)
  refine ⟨fun c' first => ?_, fun c' last => ?_⟩
  · rw [line, written] at first
    cases first
    exact (Text.solid_ofNat index c (by simp [written])).1
  · rw [shape, List.getLast?_concat] at last
    cases last
    decide

theorem newline_not_mem_line (index : Nat) (known : i.op ∈ Opcode.all) : '\n'.toUInt8 ∉ line index i := by
  have solid : ∀ {t : Text}, t.Solid → '\n'.toUInt8 ∉ t := fun solid => solid.ne (by decide)
  have name := solid (Instruction.solid_name known)
  have first := solid i.a1.solid_render
  have second := solid i.a2.solid_render
  have third := solid i.a3.solid_render
  have number := solid (Text.solid_ofNat index)
  have marks : '\n'.toUInt8 ≠ '\t'.toUInt8 ∧ '\n'.toUInt8 ≠ '('.toUInt8 ∧ '\n'.toUInt8 ≠ ','.toUInt8 ∧
      '\n'.toUInt8 ≠ (0x20 : UInt8) ∧ '\n'.toUInt8 ≠ ')'.toUInt8 := by decide
  obtain ⟨tab, opening, comma, blank, closing⟩ := marks
  rw [line, Instruction.render_eq, Instruction.inner]
  simp only [List.mem_append, List.mem_cons, List.not_mem_nil, not_or, or_false]
  exact ⟨number, tab, opening, ⟨name, comma, blank, first, comma, blank, second, comma, blank, third⟩, closing⟩

theorem length_line_lt {index : Nat} (small : index < 2 ^ 63) (known : i.op ∈ Opcode.all) :
    (line index i).length < maxRow := by
  have number := Decimal.length_ofNat_le (n := index) (k := 18) (by omega)
  have name := Instruction.length_name_le known
  have first := i.a1.length_render_le
  have second := i.a2.length_render_le
  have third := i.a3.length_render_le
  rw [line, Instruction.render_eq, Instruction.inner, maxRow]
  simp only [List.length_append, List.length_cons, List.length_nil]
  omega

theorem parseRow_line {index : Nat} (small : index < 2 ^ 63) (shown : i.Shown) : parseRow (line index i) index = .ok i := by
  have number := Text.solid_ofNat index
  have split : splitRow? (line index i) = some (Decimal.ofNat index, i.render) := by
    rw [splitRow?, line, Text.cut?_append (number.ne (by decide))]
    rfl
  have whole : (Int64.ofInt index).toInt = index := Int64.toInt_ofInt_of_le (by omega) (by omega)
  simp only [parseRow, split, Text.trim_eq_self number.bounded, Decimal.toWord?_ofNat small, whole, ne_eq, not_true_eq_false,
    if_false, Text.trim_eq_self (bounded_render i), inBrackets?_render, parseFields_inner shown]

def lines (index : Nat) : List Instruction → List Text
  | [] => []
  | i :: rest => line index i :: lines (index + 1) rest

theorem splitOn_rows {code : List Instruction} (known : ∀ i ∈ code, i.op ∈ Opcode.all) (index : Nat) :
    (Program.rows index code).splitOn '\n'.toUInt8 = lines index code ++ [[]] := by
  induction code generalizing index with
  | nil => rfl
  | cons i rest ih =>
    have later := ih (fun i member => known i (by simp [member])) (index + 1)
    rw [Program.rows, row_eq, List.append_assoc, List.singleton_append,
      Text.splitOn_append (newline_not_mem_line index (known i (by simp))), later]
    rfl

theorem parseRows_lines {rest : List Instruction} (shown : ∀ i ∈ rest, i.Shown) (number : Nat) (code : Array Instruction)
    (small : code.size + rest.length ≤ 2 ^ 63) :
    parseRows number code (lines code.size rest ++ [[]]) = .ok (code ++ rest.toArray) := by
  induction rest generalizing number code with
  | nil =>
    have blank : Text.trim [] = [] := Text.trim_eq_self Solid.nil.bounded
    simp [lines, parseRows, maxRow, blank]
  | cons i rest ih =>
    have first := shown i (by simp)
    rw [List.length_cons] at small
    have short := @length_line_lt i code.size (by omega) first.known
    have trimmed := Text.trim_eq_self (bounded_line code.size i)
    have filled : (line code.size i).isEmpty = false := by simp [line]
    have later := ih (fun i member => shown i (by simp [member])) (number + 1) (code.push i) (by simp; omega)
    rw [Array.size_push] at later
    rw [lines, List.cons_append, parseRows, if_neg (by omega), trimmed, filled, if_neg (by decide),
      parseRow_line (by omega) first]
    refine later.trans (congrArg Except.ok ?_)
    simp

theorem parse_listing_of_le {p : Program} (shown : ∀ i ∈ p.code.toList, i.Shown) (small : p.code.size ≤ 2 ^ 63) :
    parse p.listing = .ok (layout p.code) := by
  have rows := parseRows_lines shown 1 #[] (by simpa using small)
  rw [parse, Program.listing, splitOn_rows (fun i member => (shown i member).known)]
  simp only [List.size_toArray, List.length_nil] at rows
  rw [rows]
  simp [Except.map]

theorem functionsFrom_skip {main : Option Word} {code : List Instruction} {m n : Nat} (le : m ≤ n) (bound : n ≤ code.length)
    (other : ∀ k i, m ≤ k → k < n → code[k]? = some i → i.op ≠ .func) :
    functionsFrom main m (code.drop m) = functionsFrom main n (code.drop n) := by
  induction n with
  | zero =>
    obtain rfl : m = 0 := by omega
    rfl
  | succ n ih =>
    rcases Nat.eq_or_lt_of_le le with rfl | lt
    · rfl
    · have inside : n < code.length := by omega
      have plain := other n code[n] (by omega) (by omega) (List.getElem?_eq_getElem inside)
      rw [ih (by omega) (by omega) fun k i low high => other k i low (by omega), List.drop_eq_getElem_cons inside,
        functionsFrom, if_neg plain]

def listed (main : Option Word) (f : Function) : Function :=
  ⟨functionName main f.entry.toNat, f.entry, f.stop, { size := f.frame.size, params := f.frame.params }⟩

theorem functionsFrom_of_consecutive {main : Option Word} {code : Array Instruction} {symbols : List Symbol}
    {functions : List Function} {m : Nat}
    (spans : ∀ f ∈ functions, ∃ callee entry last, f.Spans code symbols callee entry last)
    (tiles : Consecutive m functions code.size) :
    functionsFrom main m (code.toList.drop m) = functions.map (listed main) := by
  induction functions generalizing m with
  | nil =>
    have whole : m = code.size := Int.ofNat.inj tiles
    rw [whole, List.drop_of_length_le (by simp)]
    rfl
  | cons f rest ih =>
    obtain ⟨starts, _, others⟩ := tiles
    obtain ⟨callee, entry, last, span⟩ := spans f (by simp)
    obtain rfl : entry = m := by
      have same := span.startsAt.symm.trans starts
      omega
    have ends := span.ends
    have bound := (Array.getElem?_eq_some_iff.mp span.leave).1
    rw [span.endsAt] at others
    have later := ih (fun f member => spans f (by simp [member])) others
    have skipped : functionsFrom main (entry + 1) (code.toList.drop (entry + 1)) =
        functionsFrom main (last + 1) (code.toList.drop (last + 1)) := by
      refine functionsFrom_skip (by omega) (by rw [Array.length_toList]; omega) fun k i low high found => ?_
      rcases span.cases (show entry ≤ k by omega) (by omega) (by simpa using found) with ⟨same, _⟩ | within
      · omega
      · cases within with
        | plain known => exact known.2.2
        | jump | branch | call => simp
    have listedStop : ((rest.map (listed main)).head?.map (·.entry)).getD
        (entry + 1 + (code.toList.drop (entry + 1)).length) = f.stop := by
      cases rest with
      | nil =>
        have whole : ((last + 1 : Nat) : Int) = code.size := others
        simp [span.endsAt]
        omega
      | cons f' rest => simpa [listed, span.endsAt] using others.1
    have enter := span.enter
    rw [Array.getElem?_eq_getElem (by omega), Option.some.injEq] at enter
    rw [List.drop_eq_getElem_cons (by simp; omega), Array.getElem_toList, enter, functionsFrom, if_pos rfl, skipped, later,
      listedStop, List.map_cons, listed, span.startsAt]
    rfl

end Listing

theorem Operand.Within.shown {slots : List Slot} {symbols : List Symbol} {o : Operand} (h : o.Within slots symbols) :
    o.Shown false := by
  cases h with
  | absent => exact .absent
  | imm => exact .imm
  | slot | deref => exact .slot
  | global => exact .global

theorem Instruction.Within.shown {slots : List Slot} {symbols : List Symbol} {callee : Nat → Prop} {target : Int → Prop}
    {i : Instruction} (h : i.Within slots symbols callee target) : i.Shown := by
  cases h with
  | plain known x y z =>
    refine ⟨known.1, fun position => ?_⟩
    simp only [known.2.1, reduceCtorEq, decide_false]
    cases position with
    | first => exact x.shown
    | second => exact y.shown
    | third => exact z.shown
  | jump =>
    refine ⟨by simp [Opcode.all], fun position => ?_⟩
    cases position with
    | first => exact .label
    | second | third => exact .absent
  | branch x =>
    refine ⟨by simp [Opcode.all], fun position => ?_⟩
    cases position with
    | first => exact x.shown
    | second => exact .label
    | third => exact .absent
  | call _ z =>
    refine ⟨by simp [Opcode.all], fun position => ?_⟩
    cases position with
    | first => exact .label
    | second => exact .imm
    | third => exact z.shown

theorem Outline.shown {code : Array Instruction} {functions : List Function} {symbols : List Symbol}
    (outline : Outline code functions symbols) (halt : code[1]? = some { op := .jp, a1 := .label code.size })
    {n : Nat} {i : Instruction} (found : code[n]? = some i) : i.Shown := by
  have bound := (Array.getElem?_eq_some_iff.mp found).1
  by_cases behind : 2 ≤ n
  · obtain ⟨f, member, low, high⟩ := outline.consecutive.inside (k := n) (by omega) (by omega)
    obtain ⟨entry, last, _, spans⟩ := outline.spans f member
    rw [spans.startsAt] at low
    rw [spans.endsAt] at high
    rcases spans.cases (by omega) (by omega) found with ⟨_, rfl⟩ | within
    · refine ⟨by simp [Opcode.all], fun position => ?_⟩
      cases position with
      | first | second => exact .imm
      | third => exact .absent
    · exact within.shown
  · obtain rfl | rfl : n = 0 ∨ n = 1 := by omega
    · rw [outline.start] at found
      cases found
      refine ⟨by simp [Opcode.all], fun position => ?_⟩
      cases position with
      | first => exact .label
      | second => exact .imm
      | third => exact .absent
    · rw [halt] at found
      cases found
      refine ⟨by simp [Opcode.all], fun position => ?_⟩
      cases position with
      | first => exact .label
      | second | third => exact .absent

theorem mainEntry_eq (functions : List Function) :
    mainEntry functions = -1 ∨ ∃ f ∈ functions, mainEntry functions = f.entry := by
  unfold mainEntry
  cases found : (functions.filter (·.name = Codegen.mainName)).getLast? with
  | none => exact .inl rfl
  | some f => exact .inr ⟨f, (List.mem_filter.mp (List.mem_of_getLast? found)).1, rfl⟩

theorem Listing.name_eq_main_iff (main : Option Word) (entry : Nat) :
    functionName main entry = Codegen.mainName ↔ main.map Int64.toInt = some (entry : Int) := by
  unfold functionName
  split
  · rename_i same
    exact ⟨fun _ => same, fun _ => rfl⟩
  · rename_i other
    refine ⟨fun same => ?_, fun same => absurd same other⟩
    have first := congrArg List.head? same
    cases first

theorem Outline.layout {code : Array Instruction} {functions : List Function} {symbols : List Symbol}
    (outline : Outline code functions symbols) (halt : code[1]? = some { op := .jp, a1 := .label code.size }) :
    (Listing.layout code).functions = functions.map (Listing.listed (some (.ofInt (mainEntry functions)))) := by
  have start := outline.start
  have size := (Array.getElem?_eq_some_iff.mp halt).1
  have target : Listing.startTarget? code.toList = some (.ofInt (mainEntry functions)) := by
    rw [Array.getElem?_eq_getElem (by omega), Option.some.injEq] at start
    have first : code.toList = code[0] :: code.toList.drop 1 := by
      rw [← Array.getElem_toList, ← List.drop_eq_getElem_cons (by simp; omega), List.drop_zero]
    rw [first, start]
    rfl
  have skipped : Listing.functionsFrom (some (.ofInt (mainEntry functions))) 0 (code.toList.drop 0) =
      Listing.functionsFrom (some (.ofInt (mainEntry functions))) 2 (code.toList.drop 2) := by
    refine Listing.functionsFrom_skip (by omega) (by simp; omega) fun k i _ high found => ?_
    obtain rfl | rfl : k = 0 ∨ k = 1 := by omega
    · rw [Array.getElem?_toList, start] at found
      cases found
      simp
    · rw [Array.getElem?_toList, halt] at found
      cases found
      simp
  change Listing.functionsFrom (Listing.startTarget? code.toList) 0 (code.toList.drop 0) = _
  rw [target, skipped]
  exact Listing.functionsFrom_of_consecutive
    (fun f member => by obtain ⟨entry, last, _, spans⟩ := outline.spans f member; exact ⟨_, entry, last, spans⟩)
    outline.consecutive

def Function.extent (f : Function) : Int × Int × Word × Word :=
  (f.entry, f.stop, f.frame.size, f.frame.params)

/-- The listing of the code for a text, with or without diagnostics, is read back as a program with
    the same instructions and functions, which runs alike. The rows are numbered by words, so there must
    not be more of them than words count. -/
theorem parse_listing_of_text (text : Text) :
    ∃ g, generate (parsedText text).source = .ok g ∧ (∀ c, compile text = .ok c → c.program = g.emitter.program) ∧
      let p := g.emitter.program
      p.code.size ≤ 2 + 4 * text.length ∧
      (p.code.size ≤ 2 ^ 63 → ∃ q, Listing.parse p.listing = .ok q ∧
        q.code = p.code ∧ q.functions.map Function.extent = p.functions.map Function.extent ∧
        (∃ t : Int, p.code[0]? = some { op := .call, a1 := .label t, a2 := .imm 0 } ∧
          ∀ f ∈ q.functions, f.name = Codegen.mainName ↔ f.entry = t) ∧
        ∀ maxSteps interruption tracing,
          let r := Run.ofProgram p maxSteps interruption tracing
          let r' := Run.ofProgram q maxSteps interruption tracing
          r'.machine = { r.machine with program := q } ∧ r'.failure = r.failure ∧ r'.trace = r.trace ∧
            r'.traceText = r.traceText) := by
  obtain ⟨g, run, _, _, _, _, size, _⟩ := exists_generated text
  obtain ⟨outline, halt, _⟩ := Codegen.outline_of_run run
  refine ⟨g, generate_of_run run, fun c compiles => ?_, size, fun small => ?_⟩
  · obtain ⟨g', assembly, run', _, rfl⟩ := generated_of_compile compiles
    rw [run] at run'
    cases run'
    rfl
  have read : Listing.parse g.emitter.program.listing = .ok (Listing.layout g.emitter.program.code) := by
    refine Listing.parse_listing_of_le (fun i member => ?_) small
    obtain ⟨n, found⟩ := List.getElem?_of_mem member
    exact outline.shown halt (by simpa using found)
  have functions := outline.layout halt
  refine ⟨_, read, rfl, ?_, ⟨_, outline.start, fun f member => ?_⟩, fun maxSteps interruption tracing => ?_⟩
  · rw [functions, List.map_map]
    rfl
  · rw [functions] at member
    obtain ⟨f', member', rfl⟩ := List.mem_map.mp member
    obtain ⟨entry, last, _, spans⟩ := outline.spans f' member'
    have bound := (Array.getElem?_eq_some_iff.mp spans.enter).1
    -- The target is -1 or the entry of a function, so that it is a word.
    have whole : (Int64.ofInt (mainEntry g.emitter.program.functions)).toInt = mainEntry g.emitter.program.functions := by
      rcases mainEntry_eq g.emitter.program.functions with none | ⟨main, isMain, starts⟩
      · rw [none]
        decide
      · obtain ⟨entry', last', _, spans'⟩ := outline.spans main isMain
        have bound' := (Array.getElem?_eq_some_iff.mp spans'.enter).1
        rw [starts, spans'.startsAt]
        exact Int64.toInt_ofInt_of_le (by omega) (by omega)
    change Listing.functionName _ f'.entry.toNat = _ ↔ f'.entry = _
    rw [Listing.name_eq_main_iff, Option.map_some, whole, Option.some.injEq, spans.startsAt, Int.toNat_natCast]
    exact eq_comm
  · have alike := @Run.ofProgram_of_code g.emitter.program (Listing.layout g.emitter.program.code)
      rfl maxSteps interruption tracing
    have own := @Run.ofProgram_of_code g.emitter.program g.emitter.program rfl maxSteps interruption tracing
    have program : (Run.ofProgram g.emitter.program maxSteps interruption tracing).machine.program = g.emitter.program := by
      rw [own]
      rfl
    simp only [alike]
    refine ⟨rfl, rfl, rfl, ?_⟩
    unfold Run.traceText
    rw [program]
    rfl

theorem parse_listing_of_text_squares :
    ∃ g q, generate (parsedText squaresText).source = .ok g ∧ g.emitter.program.code.size ≤ 2 ^ 63 ∧
      Listing.parse g.emitter.program.listing = .ok q ∧ q.code = g.emitter.program.code := by
  have length := length_squares
  obtain ⟨g, made, _, size, reads⟩ := parse_listing_of_text squaresText
  have small : g.emitter.program.code.size ≤ 2 ^ 63 := Nat.le_trans size (by omega)
  obtain ⟨q, read, same, _⟩ := reads small
  exact ⟨g, q, made, small, read, same⟩

end MiniC
