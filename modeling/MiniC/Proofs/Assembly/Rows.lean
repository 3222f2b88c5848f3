import Mathlib.Data.List.Basic
import Mathlib.Data.List.TakeWhile
import MiniC.Assembly.Lower
import MiniC.Proofs.Listing

namespace MiniC

namespace Text

theorem splitOn_ne_nil (mark : UInt8) (t : Text) : splitOn mark t ≠ [] := by
  cases t with
  | nil => simp [splitOn]
  | cons c rest =>
    rw [splitOn]
    split
    · simp
    · split <;> simp

theorem splitOn_append_cons (mark : UInt8) (t u : Text) :
    splitOn mark (t ++ mark :: u) = splitOn mark t ++ splitOn mark u := by
  induction t with
  | nil =>
    have none : splitOn mark [] = [[]] := rfl
    rw [none, List.nil_append, splitOn, if_pos rfl, List.singleton_append]
  | cons c rest ih =>
    rw [List.cons_append, splitOn, splitOn, ih]
    split
    · rfl
    · obtain ⟨piece, pieces, known⟩ := List.exists_cons_of_ne_nil (splitOn_ne_nil mark rest)
      rw [known]
      rfl

def lastWord (t : Text) : Text :=
  (t.splitOn ' '.toUInt8).getLastD []

theorem lastWord_append (t u : Text) : lastWord (t ++ ' '.toUInt8 :: u) = lastWord u := by
  obtain ⟨pieces, piece, known⟩ := List.eq_nil_or_concat (splitOn ' '.toUInt8 u) |>.resolve_left (splitOn_ne_nil _ _)
  rw [lastWord, splitOn_append_cons, lastWord, known, List.concat_eq_append, ← List.append_assoc, List.getLastD_concat,
    List.getLastD_concat]

theorem lastWord_of_not_mem {t : Text} (absent : ' '.toUInt8 ∉ t) : lastWord t = t := by
  rw [lastWord, splitOn_of_not_mem absent]
  rfl

end Text

namespace Assembly

def rows (asm : Text) : List Text :=
  asm.splitOn '\n'.toUInt8

/-- The label that a row defines: it is not indented and has a colon behind it. -/
def defined? (row : Text) : Option Text :=
  if row.head? ≠ some '\t'.toUInt8 ∧ row.getLast? = some ':'.toUInt8 then some row.dropLast else none

/-- The instructions whose last operand is a place in the program or its data. -/
def placed : List Text :=
  ["b", "bl", "cbz", "adrp"]

def base (place : Text) : Text :=
  place.takeWhile (· ≠ '+'.toUInt8)

def named? (row : Text) : Option Text := do
  let code ← ("\t" : Text).isPrefixOf? row
  if code.takeWhile (· ≠ ' '.toUInt8) ∈ placed then
    return base (Text.lastWord code)
  else
    return base (← (":lo12:" : Text).isPrefixOf? (Text.lastWord code))

def definitions (asm : Text) : List Text :=
  (rows asm).filterMap defined?

def references (asm : Text) : List Text :=
  (rows asm).filterMap named?

def Instr.label? : Instr → Option Label
  | addLow _ _ p | adrp _ p => some p.label
  | jump l | jumpIfZero _ l | call l => some l
  | _ => none

def Line.defines? : Line → Option Label
  | label l => some l
  | _ => none

def Line.names? : Line → Option Label
  | instr i => i.label?
  | _ => none

def Line.row : Line → Text
  | blank => []
  | label l => l.render ++ ":"
  | directive text => "\t" ++ text
  | source index i => "\t// " ++ Listing.line index i
  | instr i => "\t" ++ i.render

theorem Line.render_eq (l : Line) : l.render = l.row ++ ['\n'.toUInt8] := by
  have tab : ("\t" : Text) = ['\t'.toUInt8] := by decide
  have newline : ("\n" : Text) = ['\n'.toUInt8] := by decide
  have colon : (":\n" : Text) = ":" ++ "\n" := by decide
  cases l <;> simp [render, row, Listing.line, tab, newline, colon]

/-- Bytes that leave a mark on paper and are no sign. -/
def Plain (t : Text) : Prop :=
  ∀ c ∈ t, Text.isGraphic c = true ∧ c ≠ '+'.toUInt8

instance (t : Text) : Decidable (Plain t) :=
  inferInstanceAs (Decidable (∀ c ∈ t, Text.isGraphic c = true ∧ c ≠ '+'.toUInt8))

def Line.Legible : Line → Prop
  | blank => True
  | label l => Plain l.render
  | directive text => '\n'.toUInt8 ∉ text ∧ named? ("\t" ++ text) = none
  | source _ i => i.op ∈ Opcode.all
  | instr i => ∀ l, i.label? = some l → Plain l.render

theorem Plain.append {s t : Text} (first : Plain s) (second : Plain t) : Plain (s ++ t) := by
  intro c member
  rcases List.mem_append.mp member with member | member
  · exact first c member
  · exact second c member

theorem Plain.ne {t : Text} {c : UInt8} (plain : Plain t) (other : Text.isGraphic c = false) : c ∉ t := by
  intro member
  rw [(plain c member).1] at other
  cases other

theorem plain_ofNat (n : Nat) : Plain (Decimal.ofNat n) := by
  intro c member
  have digit := Decimal.isDigit_of_mem_ofNat member
  refine ⟨(Text.isGraphic_of_isDigit digit).1, ?_⟩
  rintro rfl
  exact absurd digit (by decide)

theorem plain_ofInt (n : Int) : Plain (Decimal.ofInt n) := by
  cases n with
  | ofNat n => exact plain_ofNat n
  | negSucc n => exact Plain.append (s := ['-'.toUInt8]) (by decide +kernel) (plain_ofNat _)

theorem not_mem_ofInt {c : UInt8} (sign : c ≠ '-'.toUInt8) (other : Decimal.isDigit c = false) (n : Int) :
    c ∉ Decimal.ofInt n := by
  have digits : ∀ n, c ∉ Decimal.ofNat n := by
    intro n member
    rw [Decimal.isDigit_of_mem_ofNat member] at other
    cases other
  cases n with
  | ofNat n => exact digits n
  | negSucc n =>
    rw [Decimal.ofInt, List.mem_cons, not_or]
    exact ⟨sign, digits _⟩

def Inline (t : Text) : Prop :=
  '\n'.toUInt8 ∉ t

instance (t : Text) : Decidable (Inline t) :=
  inferInstanceAs (Decidable ('\n'.toUInt8 ∉ t))

section Inline

variable {s t : Text}

theorem inline_append : Inline (s ++ t) ↔ Inline s ∧ Inline t := by
  simp [Inline]

theorem Plain.inline (h : Plain t) : Inline t :=
  h.ne (by decide)

theorem inline_ofWord (w : Word) : Inline (Decimal.ofWord w) :=
  (plain_ofInt _).inline

theorem inline_reg (r : Reg) : Inline r.render := by
  cases r with
  | x n => exact inline_append.mpr ⟨by decide, (plain_ofNat n).inline⟩
  | w n => exact inline_append.mpr ⟨by decide, (plain_ofNat n).inline⟩
  | sp => decide

theorem inline_mem (m : Mem) : Inline m.render := by
  cases m <;> simp only [Mem.render, inline_append, inline_reg, inline_ofWord, and_true] <;> decide

theorem inline_immediate (n : Word) : Inline (Instr.immediate n) :=
  inline_append.mpr ⟨by decide, inline_ofWord n⟩

theorem inline_condition (c : Condition) : Inline c.render := by
  cases c <;> decide

theorem inline_place {p : Place} (plain : Plain p.label.render) : Inline p.render := by
  unfold Place.render
  split
  · exact plain.inline
  · exact inline_append.mpr ⟨inline_append.mpr ⟨plain.inline, by decide⟩, inline_ofWord _⟩

theorem inline_intercalate {mark : Text} (inline : Inline mark) {operands : List Text} (each : ∀ o ∈ operands, Inline o) :
    Inline (List.intercalate mark operands) := by
  induction operands with
  | nil => simp [Inline, List.intercalate]
  | cons o rest ih =>
    have later := ih fun o member => each o (by simp [member])
    cases rest with
    | nil => simpa [List.intercalate] using each o (by simp)
    | cons o' rest =>
      have split : List.intercalate mark (o :: o' :: rest) = o ++ (mark ++ List.intercalate mark (o' :: rest)) := by
        simp [List.intercalate]
      rw [split, inline_append, inline_append]
      exact ⟨each o (by simp), inline, later⟩

theorem inline_written {mnemonic : Text} {operands : List Text} (name : Inline mnemonic) (each : ∀ o ∈ operands, Inline o) :
    Inline (written mnemonic operands) :=
  inline_append.mpr ⟨inline_append.mpr ⟨name, by decide⟩, inline_intercalate (by decide) each⟩

end Inline

theorem inline_instr {i : Instr} (plain : ∀ l, i.label? = some l → Plain l.render) : Inline i.render := by
  cases i with
  | addLow d a p =>
    refine inline_written (by decide) ?_
    have low : Inline (":lo12:" ++ p.render) := inline_append.mpr ⟨by decide, inline_place (plain p.label rfl)⟩
    simp [inline_reg, low]
  | adrp d p => exact inline_written (by decide) (by simp [inline_reg, inline_place (plain p.label rfl)])
  | jump l => exact inline_written (by decide) (by simp [(plain l rfl).inline])
  | jumpIfZero r l => exact inline_written (by decide) (by simp [inline_reg, (plain l rfl).inline])
  | call l => exact inline_written (by decide) (by simp [(plain l rfl).inline])
  | constant d n =>
    have value : Inline ("=" ++ Decimal.ofWord n) := inline_append.mpr ⟨by decide, inline_ofWord n⟩
    exact inline_written (by decide) (by simp [inline_reg, value])
  | addScaled d a b =>
    have scale : Inline "lsl #3" := by decide
    exact inline_written (by decide) (by simp [inline_reg, scale])
  | ret => decide
  | _ => exact inline_written (by decide) (by simp [inline_reg, inline_mem, inline_immediate, inline_condition])

/-- An operand that names no label: its last word does not start as one that does. -/
def Mute (t : Text) : Prop :=
  (Text.lastWord t).head? ≠ some ':'.toUInt8

theorem Mute.isPrefixOf?_eq_none {t : Text} (mute : Mute t) : (":lo12:" : Text).isPrefixOf? t.lastWord = none := by
  unfold Mute at mute
  cases known : t.lastWord with
  | nil => rfl
  | cons c rest =>
    rw [known] at mute
    exact Text.isPrefixOf?_of_ne (by rintro rfl; exact mute rfl) _ _

section Named

theorem takeWhile_of_not_mem {mark : UInt8} {t : Text} (absent : mark ∉ t) (u : Text) :
    (t ++ mark :: u).takeWhile (· ≠ mark) = t := by
  rw [List.takeWhile_append_of_pos fun c member => by simpa using ne_of_mem_of_not_mem member absent]
  simp

theorem lastWord_intercalate (operands : List Text) (last : Text) :
    Text.lastWord (List.intercalate ", " (operands ++ [last])) = last.lastWord := by
  induction operands with
  | nil => simp [List.intercalate]
  | cons o rest ih =>
    have split : List.intercalate ", " (o :: rest ++ [last]) =
        (o ++ [','.toUInt8]) ++ ' '.toUInt8 :: List.intercalate ", " (rest ++ [last]) := by
      have comma : (", " : Text) = [','.toUInt8, ' '.toUInt8] := by decide
      obtain ⟨o', rest', more⟩ := List.exists_cons_of_ne_nil (l := rest ++ [last]) (by simp)
      rw [List.cons_append, more]
      simp [List.intercalate, comma]
    rw [split, Text.lastWord_append, ih]

variable {mnemonic : Text} (single : ' '.toUInt8 ∉ mnemonic) (operands : List Text) {last : Text}

include single

theorem named?_written :
    named? ("\t" ++ written mnemonic (operands ++ [last])) =
      if mnemonic ∈ placed then some (base last.lastWord) else ((":lo12:" : Text).isPrefixOf? last.lastWord).map base := by
  have shape : written mnemonic (operands ++ [last]) =
      mnemonic ++ ' '.toUInt8 :: List.intercalate ", " (operands ++ [last]) := by
    have blank : (" " : Text) = [' '.toUInt8] := by decide
    rw [written, blank, List.append_assoc, List.singleton_append]
  have indented : ("\t" : Text).isPrefixOf? ("\t" ++ written mnemonic (operands ++ [last])) =
      some (written mnemonic (operands ++ [last])) := rfl
  rw [named?, indented, shape]
  simp only [Option.bind_eq_bind, Option.bind_some, takeWhile_of_not_mem single, Text.lastWord_append, lastWord_intercalate]
  split
  · rfl
  · cases (":lo12:" : Text).isPrefixOf? last.lastWord <;> rfl

theorem named?_of_mute (other : mnemonic ∉ placed) (mute : Mute last) :
    named? ("\t" ++ written mnemonic (operands ++ [last])) = none := by
  rw [named?_written single, if_neg other, mute.isPrefixOf?_eq_none]
  rfl

end Named

theorem base_of_plain {t : Text} (plain : Plain t) : base t = t := by
  rw [base, List.takeWhile_eq_self_iff]
  intro c member
  simpa using (plain c member).2

theorem Place.render_eq (p : Place) :
    p.render = p.label.render ∨ p.render = p.label.render ++ '+'.toUInt8 :: Decimal.ofWord p.offset := by
  unfold Place.render
  split
  · exact .inl rfl
  · have plus : ("+" : Text) = ['+'.toUInt8] := by decide
    rw [plus, List.append_assoc, List.singleton_append]
    exact .inr rfl

theorem base_place {p : Place} (plain : Plain p.label.render) : base p.render = p.label.render := by
  rcases p.render_eq with same | same
  · rw [same, base_of_plain plain]
  · rw [same, base, takeWhile_of_not_mem fun member => (plain _ member).2 rfl]

theorem lastWord_place {p : Place} (plain : Plain p.label.render) (t : Text) (single : ' '.toUInt8 ∉ t) :
    Text.lastWord (t ++ p.render) = t ++ p.render := by
  have label : ' '.toUInt8 ∉ p.label.render := plain.ne (by decide)
  have offset : ' '.toUInt8 ∉ Decimal.ofWord p.offset := (plain_ofInt _).ne (by decide)
  refine Text.lastWord_of_not_mem ?_
  rcases p.render_eq with same | same
  · simp only [same, List.mem_append, not_or]
    exact ⟨single, label⟩
  · simp only [same, List.mem_append, List.mem_cons, not_or]
    exact ⟨single, label, by decide, offset⟩

section Mute

theorem mute_cons {c : UInt8} {t : Text} (single : ' '.toUInt8 ∉ c :: t) (other : c ≠ ':'.toUInt8) : Mute (c :: t) := by
  rw [Mute, Text.lastWord_of_not_mem single]
  simpa using other

theorem blank_not_mem_ofWord (w : Word) : ' '.toUInt8 ∉ Decimal.ofWord w :=
  (plain_ofInt _).ne (by decide)

theorem blank_not_mem_ofNat (n : Nat) : ' '.toUInt8 ∉ Decimal.ofNat n :=
  (plain_ofNat n).ne (by decide)

theorem blank_not_mem_reg (r : Reg) : ' '.toUInt8 ∉ r.render := by
  cases r with
  | x n | w n =>
    intro member
    rcases List.mem_append.mp member with member | member
    · revert member
      decide
    · exact blank_not_mem_ofNat n member
  | sp => decide

theorem mute_reg (r : Reg) : Mute r.render := by
  rw [Mute, Text.lastWord_of_not_mem (blank_not_mem_reg r)]
  cases r <;> simp [Reg.render, Text.ofString] <;> decide

theorem mute_hash {t : Text} (single : ' '.toUInt8 ∉ t) : Mute ('#'.toUInt8 :: t) := by
  refine mute_cons ?_ (by decide)
  simp only [List.mem_cons, not_or]
  exact ⟨by decide, single⟩

theorem mute_immediate (n : Word) : Mute (Instr.immediate n) :=
  mute_hash (blank_not_mem_ofWord n)

/-- An operand is as mute as what stands behind its last blank. -/
theorem mute_append {t u : Text} (mute : Mute u) : Mute (t ++ ' '.toUInt8 :: u) := by
  rw [Mute, Text.lastWord_append]
  exact mute

theorem mute_offset (t : Text) (n : Word) (tail : Text) (single : ' '.toUInt8 ∉ tail) :
    Mute (t ++ ", #" ++ Decimal.ofWord n ++ tail) := by
  have mark : (", #" : Text) = [','.toUInt8, ' '.toUInt8, '#'.toUInt8] := by decide
  have shape : t ++ ", #" ++ Decimal.ofWord n ++ tail =
      (t ++ [','.toUInt8]) ++ ' '.toUInt8 :: '#'.toUInt8 :: (Decimal.ofWord n ++ tail) := by
    simp [mark]
  rw [shape]
  refine mute_append (mute_hash ?_)
  rw [List.mem_append, not_or]
  exact ⟨blank_not_mem_ofWord n, single⟩

theorem mute_mem (m : Mem) : Mute m.render := by
  cases m with
  | base r =>
    refine mute_cons (c := '['.toUInt8) (t := r.render ++ "]") ?_ (by decide)
    simp only [List.mem_cons, List.mem_append, not_or]
    exact ⟨by decide, blank_not_mem_reg r, by decide⟩
  | offset r n => exact mute_offset ("[" ++ r.render) n _ (by decide)
  | before r n => exact mute_offset ("[" ++ r.render) n _ (by decide)
  | after r n =>
    have mute := mute_offset ("[" ++ r.render ++ "]") n [] (by simp)
    have mark : ("], #" : Text) = "]" ++ ", #" := by decide
    simpa [Mem.render, mark] using mute

theorem mute_condition (c : Condition) : Mute c.render := by
  cases c <;> (unfold Mute; decide)

end Mute

theorem named?_instr {i : Instr} (plain : ∀ l, i.label? = some l → Plain l.render) :
    named? ("\t" ++ i.render) = i.label?.map Label.render := by
  have branch : ∀ {l : Label}, Plain l.render → base (Text.lastWord l.render) = l.render := by
    intro l plain
    rw [Text.lastWord_of_not_mem (plain.ne (by decide)), base_of_plain plain]
  cases i with
  | addLow d a p =>
    refine (named?_written (by decide) [d.render, a.render]).trans ?_
    have low : (":lo12:" : Text).isPrefixOf? (":lo12:" ++ p.render) = some p.render := rfl
    rw [if_neg (by decide), lastWord_place (plain p.label rfl) _ (by decide), low, Option.map_some,
      base_place (plain p.label rfl)]
    rfl
  | adrp d p =>
    refine (named?_written (by decide) [d.render]).trans ?_
    have word := lastWord_place (plain p.label rfl) [] (by simp)
    rw [if_pos (by decide), ← List.nil_append p.render, word, List.nil_append, base_place (plain p.label rfl)]
    rfl
  | jump l =>
    refine (named?_written (by decide) []).trans ?_
    rw [if_pos (by decide), branch (plain l rfl)]
    rfl
  | jumpIfZero r l =>
    refine (named?_written (by decide) [r.render]).trans ?_
    rw [if_pos (by decide), branch (plain l rfl)]
    rfl
  | call l =>
    refine (named?_written (by decide) []).trans ?_
    rw [if_pos (by decide), branch (plain l rfl)]
    rfl
  | ret => decide
  | movImm d n => exact named?_of_mute (by decide) [d.render] (by decide) (mute_immediate n)
  | mov d s => exact named?_of_mute (by decide) [d.render] (by decide) (mute_reg s)
  | constant d n =>
    refine named?_of_mute (by decide) [d.render] (by decide) (mute_cons (c := '='.toUInt8) ?_ (by decide))
    simp only [List.mem_cons, not_or]
    exact ⟨by decide, blank_not_mem_ofWord n⟩
  | ldr d m => exact named?_of_mute (by decide) [d.render] (by decide) (mute_mem m)
  | str r m => exact named?_of_mute (by decide) [r.render] (by decide) (mute_mem m)
  | addImm d a n => exact named?_of_mute (by decide) [d.render, a.render] (by decide) (mute_immediate n)
  | add d a b => exact named?_of_mute (by decide) [d.render, a.render] (by decide) (mute_reg b)
  | addScaled d a b => exact named?_of_mute (by decide) [d.render, a.render, b.render] (by decide) (by unfold Mute; decide)
  | subImm d a n => exact named?_of_mute (by decide) [d.render, a.render] (by decide) (mute_immediate n)
  | sub d a b => exact named?_of_mute (by decide) [d.render, a.render] (by decide) (mute_reg b)
  | mul d a b => exact named?_of_mute (by decide) [d.render, a.render] (by decide) (mute_reg b)
  | sdiv d a b => exact named?_of_mute (by decide) [d.render, a.render] (by decide) (mute_reg b)
  | msub d a b c => exact named?_of_mute (by decide) [d.render, a.render, b.render] (by decide) (mute_reg c)
  | cmp a b => exact named?_of_mute (by decide) [a.render] (by decide) (mute_reg b)
  | cset d c => exact named?_of_mute (by decide) [d.render] (by decide) (mute_condition c)
  | storePair a b m => exact named?_of_mute (by decide) [a.render, b.render] (by decide) (mute_mem m)
  | loadPair a b m => exact named?_of_mute (by decide) [a.render, b.render] (by decide) (mute_mem m)

section Lines

variable {l : Line}

theorem Line.Legible.inline (h : l.Legible) : Inline l.row := by
  cases l with
  | blank => simp [row, Inline]
  | label l => exact inline_append.mpr ⟨Plain.inline h, by decide⟩
  | directive text => exact inline_append.mpr ⟨by decide, h.1⟩
  | source index i => exact inline_append.mpr ⟨by decide, Listing.newline_not_mem_line index h⟩
  | instr i => exact inline_append.mpr ⟨by decide, inline_instr h⟩

theorem head_label {t : Text} (plain : Plain t) : (t ++ ":").head? ≠ some '\t'.toUInt8 := by
  intro tab
  rcases List.mem_append.mp (List.mem_of_head? tab) with member | member
  · exact plain.ne (by decide) member
  · revert member
    decide

theorem Line.Legible.defined (h : l.Legible) : defined? l.row = l.defines?.map Label.render := by
  cases l with
  | label l =>
    have colon : (":" : Text) = [':'.toUInt8] := by decide
    have first := head_label h
    rw [colon] at first
    simp only [row, colon, defined?, first, List.getLast?_concat, List.dropLast_concat, ne_eq, not_false_eq_true, and_self,
      if_true]
    rfl
  | _ => rfl

theorem colon_not_mem_ofWord (w : Word) : ':'.toUInt8 ∉ Decimal.ofWord w :=
  not_mem_ofInt (by decide) (by decide) _

theorem colon_not_mem_operand (o : Operand) : ':'.toUInt8 ∉ o.render := by
  have mark : ':'.toUInt8 ∉ o.mark := by
    unfold Operand.mark
    split <;> decide
  rcases o with ⟨kind, value, indirect⟩
  cases kind with
  | none => simp [Operand.render]
  | imm =>
    simp only [Operand.render, List.mem_append, not_or]
    exact ⟨by decide, colon_not_mem_ofWord value⟩
  | global | label =>
    simp only [Operand.render, List.mem_append, not_or]
    exact ⟨mark, colon_not_mem_ofWord value⟩
  | slot =>
    simp only [Operand.render, List.mem_append, not_or]
    exact ⟨⟨mark, by decide⟩, colon_not_mem_ofWord value⟩

theorem named?_source (index : Nat) (i : Instruction) : named? ("\t// " ++ Listing.line index i) = none := by
  have blank : ("// " : Text) = "//" ++ [' '.toUInt8] := by decide
  have comma : (", " : Text) = [','.toUInt8, ' '.toUInt8] := by decide
  have closing : (")" : Text) = [')'.toUInt8] := by decide
  have code : ("\t" : Text).isPrefixOf? ("\t// " ++ Listing.line index i) = some ("// " ++ Listing.line index i) := rfl
  have first : ("// " ++ Listing.line index i).takeWhile (· ≠ ' '.toUInt8) = "//" := by
    rw [blank, List.append_assoc, List.singleton_append]
    exact takeWhile_of_not_mem (by decide) _
  obtain ⟨t, shape⟩ : ∃ t, "// " ++ Listing.line index i = t ++ ' '.toUInt8 :: (i.a3.render ++ [')'.toUInt8]) :=
    ⟨"// " ++ Decimal.ofNat index ++ '\t'.toUInt8 ::
        ("(" ++ i.op.name ++ ", " ++ i.a1.render ++ ", " ++ i.a2.render ++ [','.toUInt8]),
      by simp [Listing.line, Instruction.render, comma, closing]⟩
  have single : ' '.toUInt8 ∉ i.a3.render ++ [')'.toUInt8] := by
    rw [List.mem_append, not_or]
    exact ⟨(i.a3.solid_render).ne (by decide), by decide⟩
  have mute : Mute ("// " ++ Listing.line index i) := by
    rw [shape]
    refine mute_append ?_
    rw [Mute, Text.lastWord_of_not_mem single]
    intro colon
    rcases List.mem_append.mp (List.mem_of_head? colon) with member | member
    · exact colon_not_mem_operand i.a3 member
    · revert member
      decide
  have other : ("//" : Text) ∉ placed := by decide
  rw [named?, code]
  simp only [Option.bind_eq_bind, Option.bind_some, first, other, if_false, mute.isPrefixOf?_eq_none]
  rfl

theorem Line.Legible.named (h : l.Legible) : named? l.row = l.names?.map Label.render := by
  cases l with
  | blank => rfl
  | label l =>
    have first := head_label h
    have none : ("\t" : Text).isPrefixOf? (l.render ++ ":") = none := by
      cases known : l.render ++ ":" with
      | nil => rfl
      | cons c rest =>
        rw [known] at first
        exact Text.isPrefixOf?_of_ne (by rintro rfl; exact first rfl) _ _
    rw [row, named?, none]
    rfl
  | directive text => exact h.2
  | source index i => exact named?_source index i
  | instr i => exact named?_instr h

theorem rows_render {lines : List Line} (legible : ∀ l ∈ lines, l.Legible) :
    rows (render lines) = lines.map Line.row ++ [[]] := by
  induction lines with
  | nil => rfl
  | cons l rest ih =>
    have later := ih fun l member => legible l (by simp [member])
    have whole : render (l :: rest) = l.row ++ '\n'.toUInt8 :: render rest := by
      rw [render, List.flatMap_cons, l.render_eq, List.append_assoc, List.singleton_append, render]
    rw [whole, rows, Text.splitOn_append (legible l (by simp)).inline, List.map_cons, List.cons_append, ← later, rows]

theorem filterMap_rows {lines : List Line} (legible : ∀ l ∈ lines, l.Legible) {read : Text → Option Text}
    {f : Line → Option Label} (nothing : read [] = none) (each : ∀ l ∈ lines, read l.row = (f l).map Label.render) :
    (rows (render lines)).filterMap read = (lines.filterMap f).map Label.render := by
  have last : [[]].filterMap read = [] := by simp [nothing]
  rw [rows_render legible, List.filterMap_append, last, List.append_nil, List.filterMap_map, List.map_filterMap]
  exact List.filterMap_congr each

theorem definitions_render {lines : List Line} (legible : ∀ l ∈ lines, l.Legible) :
    definitions (render lines) = (lines.filterMap Line.defines?).map Label.render :=
  filterMap_rows legible rfl fun l member => (legible l member).defined

theorem references_render {lines : List Line} (legible : ∀ l ∈ lines, l.Legible) :
    references (render lines) = (lines.filterMap Line.names?).map Label.render :=
  filterMap_rows legible rfl fun l member => (legible l member).named

end Lines

end Assembly

end MiniC
