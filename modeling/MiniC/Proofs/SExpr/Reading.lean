import Mathlib.Data.List.TakeWhile
import MiniC.Proofs.Text
import MiniC.SExpr.Read

namespace MiniC.SExpr

def isSign (c : UInt8) : Bool :=
  c = '+'.toUInt8 ∨ c = '-'.toUInt8

/-- The texts of symbols: a letter before letters, digits, `-` and `_`, or a sign that stands alone. -/
inductive SymbolText : Text → Prop where
  | name {c : UInt8} {rest : Text} : isLetter c = true → (∀ b ∈ rest, isSymbolByte b = true) → SymbolText (c :: rest)
  | sign {c : UInt8} : isSign c = true → SymbolText [c]

/-- The texts of integers: digits, with or without a sign in front. -/
inductive IntegerText : Text → Prop where
  | unsigned {digits : Text} : digits ≠ [] → (∀ b ∈ digits, Decimal.isDigit b = true) → IntegerText digits
  | signed {c : UInt8} {digits : Text} : isSign c = true → digits ≠ [] → (∀ b ∈ digits, Decimal.isDigit b = true) →
      IntegerText (c :: digits)

inductive WellFormed : SExpr → Prop where
  | symbol {t : Text} : SymbolText t → WellFormed (.symbol t)
  | string (t : Text) : WellFormed (.string t)
  | integer {t : Text} : IntegerText t → WellFormed (.integer t)
  | ellipsis : WellFormed .ellipsis
  | list {items : List SExpr} : (∀ n ∈ items, WellFormed n) → WellFormed (.list items)

/-- What may stand behind a datum that has been written: nothing, a blank or a closing bracket. -/
def Stops (rest : Text) : Prop :=
  ∀ c ∈ rest.head?, c = ' '.toUInt8 ∨ c = ')'.toUInt8

def isLead (c : UInt8) : Bool :=
  !(isBlank c || c = ';'.toUInt8 || c = '('.toUInt8 || c = ')'.toUInt8)

theorem isLead_iff {c : UInt8} :
    isLead c = true ↔ isBlank c = false ∧ c ≠ ';'.toUInt8 ∧ c ≠ '('.toUInt8 ∧ c ≠ ')'.toUInt8 := by
  simp [isLead, and_assoc]

/-- How reading goes on behind a datum that is complete. -/
def resume (size : Nat) (stack : List Open) (datum : SExpr) (rest : Text) : Except ReadError (SExpr × Text) :=
  match complete datum stack with
  | .error datum => .ok (datum, rest)
  | .ok stack => readFrom size stack rest

/-- How reading goes on at a byte that is neither blank nor in a comment. -/
def readNext (size : Nat) (stack : List Open) (c : UInt8) (rest : Text) : Except ReadError (SExpr × Text) :=
  let offset := size - (rest.length + 1)
  if c = '('.toUInt8 then readFrom size (⟨offset, []⟩ :: stack) rest
  else if c = ')'.toUInt8 then
    match stack with
    | [] => .error (.unexpectedClose offset)
    | top :: below => resume size below (.list top.items.reverse) rest
  else
    match atom c rest with
    | .error e => .error e
    | .ok (datum, n) => resume size stack datum (rest.drop n)

section Steps

variable {size : Nat} {stack : List Open} {c : UInt8} {t rest : Text}

theorem readFrom_of_skipBlank (next : skipBlank false t = c :: rest) :
    readFrom size stack t = readNext size stack c rest := by
  rw [readFrom.eq_def]
  split
  · rename_i empty
    rw [next] at empty
    cases empty
  · rename_i found
    rw [next] at found
    cases found
    rfl

theorem readNext_atom {datum : SExpr} {n : Nat} (lead : isLead c = true) (read : atom c rest = .ok (datum, n)) :
    readNext size stack c rest = resume size stack datum (rest.drop n) := by
  obtain ⟨_, _, opening, closing⟩ := isLead_iff.mp lead
  simp only [readNext, opening, closing, if_false, read]

end Steps

theorem skipBlank_of_dark {c : UInt8} (dark : isBlank c = false) (plain : c ≠ ';'.toUInt8) (rest : Text) :
    skipBlank false (c :: rest) = c :: rest := by
  simp [skipBlank, dark, plain]

section Atoms

variable {t rest : Text}

theorem takeWhile_of_stops {p : UInt8 → Bool} (space : p ' '.toUInt8 = false) (closing : p ')'.toUInt8 = false)
    (all : ∀ b ∈ t, p b = true) (stops : Stops rest) : (t ++ rest).takeWhile p = t := by
  rw [List.takeWhile_append_of_pos all]
  cases rest with
  | nil => simp
  | cons c rest =>
    have ends : p c = false := by
      rcases stops c rfl with rfl | rfl
      · exact space
      · exact closing
    simp [ends]

theorem escape_cons (c : UInt8) (t : Text) :
    escape (c :: t) = (if c = '\\'.toUInt8 ∨ c = '"'.toUInt8 then ['\\'.toUInt8, c] else [c]) ++ escape t :=
  List.flatMap_cons

theorem stringBody_quote (rest : Text) : stringBody ('"'.toUInt8 :: rest) = .ok ([], 1) := by
  rw [stringBody.eq_def]
  exact if_pos rfl

theorem stringBody_marked {c : UInt8} {contents : Text} {n : Nat} (marked : c = '"'.toUInt8 ∨ c = '\\'.toUInt8)
    (read : stringBody rest = .ok (contents, n)) :
    stringBody ('\\'.toUInt8 :: c :: rest) = .ok (c :: contents, n + 2) := by
  have known : unescape? c = some c := if_pos marked
  rw [stringBody, if_neg (by decide), if_pos rfl, known, read]
  rfl

theorem stringBody_plain {c : UInt8} {contents : Text} {n : Nat} (quote : c ≠ '"'.toUInt8) (mark : c ≠ '\\'.toUInt8)
    (read : stringBody rest = .ok (contents, n)) : stringBody (c :: rest) = .ok (c :: contents, n + 1) := by
  rw [stringBody.eq_def]
  simp only [quote, mark, if_false, read]
  rfl

theorem stringBody_escape (t rest : Text) :
    stringBody (escape t ++ '"'.toUInt8 :: rest) = .ok (t, (escape t).length + 1) := by
  induction t with
  | nil => exact stringBody_quote rest
  | cons c t ih =>
    rw [escape_cons]
    split
    · rename_i marked
      simpa using stringBody_marked marked.symm ih
    · rename_i unmarked
      rw [not_or] at unmarked
      simpa using stringBody_plain unmarked.2 unmarked.1 ih

/-- A datum that is read as one atom, whatever stops it. -/
structure Begins (n : SExpr) (c : UInt8) (tail : Text) : Prop where
  render : n.render = c :: tail
  lead : isLead c = true
  read : ∀ rest, Stops rest → atom c (tail ++ rest) = .ok (n, tail.length)

theorem letter_alone : ∀ c, isLetter c = true → isLead c = true ∧ c ≠ '"'.toUInt8 ∧ c ≠ '.'.toUInt8 :=
  forall_byte (by decide +kernel)

theorem digit_alone : ∀ c, Decimal.isDigit c = true →
    isLead c = true ∧ c ≠ '"'.toUInt8 ∧ c ≠ '.'.toUInt8 ∧ isLetter c = false :=
  forall_byte (by decide +kernel)

theorem sign_alone : ∀ c, isSign c = true →
    isLead c = true ∧ c ≠ '"'.toUInt8 ∧ c ≠ '.'.toUInt8 ∧ isLetter c = false ∧ Decimal.isDigit c = false :=
  forall_byte (by decide +kernel)

theorem begins_symbol (symbol : SymbolText t) : ∃ c tail, Begins (.symbol t) c tail := by
  cases symbol with
  | @name c tail letter bytes =>
    obtain ⟨lead, quote, dot⟩ := letter_alone c letter
    refine ⟨c, tail, by rw [SExpr.render], lead, fun rest stops => ?_⟩
    have whole := takeWhile_of_stops (p := isSymbolByte) (by decide) (by decide) bytes stops
    simp [atom, quote, dot, letter, whole]
  | @sign c sign =>
    obtain ⟨lead, quote, dot, letter, digit⟩ := sign_alone c sign
    refine ⟨c, [], by rw [SExpr.render], lead, fun rest stops => ?_⟩
    -- A sign that a digit followed would be that of an integer.
    have apart : rest.head?.any Decimal.isDigit = false := by
      cases rest with
      | nil => rfl
      | cons b rest => rcases stops b rfl with rfl | rfl <;> rfl
    have known : c = '+'.toUInt8 ∨ c = '-'.toUInt8 := by simpa [isSign] using sign
    simp [atom, quote, dot, letter, digit, known, apart]

theorem begins_integer (integer : IntegerText t) : ∃ c tail, Begins (.integer t) c tail := by
  cases integer with
  | unsigned some digits =>
    obtain ⟨c, tail, rfl⟩ := List.exists_cons_of_ne_nil some
    have digit := digits c List.mem_cons_self
    obtain ⟨lead, quote, dot, letter⟩ := digit_alone c digit
    refine ⟨c, tail, by rw [SExpr.render], lead, fun rest stops => ?_⟩
    have whole := takeWhile_of_stops (p := Decimal.isDigit) (by decide) (by decide)
      (fun b member => digits b (List.mem_cons_of_mem c member)) stops
    simp [atom, quote, dot, letter, digit, whole]
  | @signed c tail sign some digits =>
    obtain ⟨lead, quote, dot, letter, digit⟩ := sign_alone c sign
    refine ⟨c, tail, by rw [SExpr.render], lead, fun rest stops => ?_⟩
    have known : c = '+'.toUInt8 ∨ c = '-'.toUInt8 := by simpa [isSign] using sign
    have follows : (tail ++ rest).head?.any Decimal.isDigit = true := by
      obtain ⟨b, more, rfl⟩ := List.exists_cons_of_ne_nil some
      exact digits b List.mem_cons_self
    have whole := takeWhile_of_stops (p := Decimal.isDigit) (by decide) (by decide) digits stops
    simpa [atom, quote, dot, letter, digit, known, whole] using follows

theorem begins_string (t : Text) : Begins (.string t) '"'.toUInt8 (escape t ++ ['"'.toUInt8]) := by
  refine ⟨rfl, by decide, fun rest _ => ?_⟩
  have read := stringBody_escape t rest
  simp [atom, read, Except.map]

theorem begins_ellipsis : Begins .ellipsis '.'.toUInt8 ['.'.toUInt8, '.'.toUInt8] :=
  ⟨rfl, by decide, fun _ _ => rfl⟩

end Atoms

section RoundTrip

variable {size : Nat} {n : SExpr}

/-- Behind blanks, a datum that was written is read to its end. -/
def Returns (n : SExpr) : Prop :=
  ∀ ⦃size : Nat⦄ ⦃stack : List Open⦄ ⦃t rest : Text⦄, skipBlank false t = n.render ++ rest → Stops rest →
    readFrom size stack t = resume size stack n rest

/-- What is written of a datum starts with no blank. -/
def Dark (n : SExpr) : Prop :=
  ∃ c tail, n.render = c :: tail ∧ isBlank c = false ∧ c ≠ ';'.toUInt8

theorem Begins.returns {c : UInt8} {tail : Text} (begins : Begins n c tail) : Returns n := by
  intro size stack t rest next stops
  rw [begins.render, List.cons_append] at next
  rw [readFrom_of_skipBlank next, readNext_atom begins.lead (begins.read rest stops), List.drop_left]

theorem Begins.dark {c : UInt8} {tail : Text} (begins : Begins n c tail) : Dark n := by
  obtain ⟨blank, comment, _⟩ := isLead_iff.mp begins.lead
  exact ⟨c, tail, begins.render, blank, comment⟩

theorem dark_list (items : List SExpr) : Dark (.list items) :=
  ⟨'('.toUInt8, renderItems items ++ ")", by rw [SExpr.render]; rfl, by decide, by decide⟩

theorem Dark.skipBlank (dark : Dark n) (rest : Text) : skipBlank false (n.render ++ rest) = n.render ++ rest := by
  obtain ⟨c, tail, render, blank, comment⟩ := dark
  rw [render]
  exact skipBlank_of_dark blank comment _

def gap (behind : List SExpr) : Text :=
  if behind.isEmpty then [] else " "

theorem renderItems_cons (item : SExpr) (more : List SExpr) :
    renderItems (item :: more) = item.render ++ (gap more ++ renderItems more) := by
  cases more with
  | nil => simp [renderItems, gap]
  | cons next more => simp [renderItems, gap]

theorem stops_gap (items : List SExpr) (rest : Text) :
    Stops (gap items ++ (renderItems items ++ ')'.toUInt8 :: rest)) := by
  cases items with
  | nil =>
    rintro _ ⟨⟩
    exact .inr rfl
  | cons item items =>
    rintro _ ⟨⟩
    exact .inl rfl

theorem skipBlank_items {items : List SExpr} (dark : ∀ n ∈ items, Dark n) (rest : Text) :
    skipBlank false (renderItems items ++ ')'.toUInt8 :: rest) = renderItems items ++ ')'.toUInt8 :: rest := by
  cases items with
  | nil => exact skipBlank_of_dark (by decide) (by decide) rest
  | cons item more =>
    rw [renderItems_cons, List.append_assoc]
    exact (dark item List.mem_cons_self).skipBlank _

theorem skipBlank_gap (items : List SExpr) (rest : Text) : skipBlank false (gap items ++ rest) = skipBlank false rest := by
  cases items <;> rfl

theorem readFrom_items {items : List SExpr} (each : ∀ n ∈ items, Dark n ∧ Returns n) (offset : Nat) (before : List SExpr)
    (stack : List Open) {t rest : Text} (next : skipBlank false t = renderItems items ++ ')'.toUInt8 :: rest) :
    readFrom size (⟨offset, before⟩ :: stack) t = resume size stack (.list (before.reverse ++ items)) rest := by
  induction items generalizing before t with
  | nil =>
    rw [readFrom_of_skipBlank next, List.append_nil]
    rfl
  | cons item more ih =>
    have later : ∀ n ∈ more, Dark n ∧ Returns n := fun n member => each n (List.mem_cons_of_mem item member)
    rw [renderItems_cons, List.append_assoc, List.append_assoc] at next
    calc readFrom size (⟨offset, before⟩ :: stack) t
      _ = readFrom size (⟨offset, item :: before⟩ :: stack) (gap more ++ (renderItems more ++ ')'.toUInt8 :: rest)) :=
        (each item List.mem_cons_self).2 next (stops_gap more rest)
      _ = resume size stack (.list ((item :: before).reverse ++ more)) rest :=
        ih later (item :: before) ((skipBlank_gap more _).trans (skipBlank_items (fun n member => (later n member).1) rest))
      _ = resume size stack (.list (before.reverse ++ item :: more)) rest := by simp

theorem returns_list {items : List SExpr} (each : ∀ n ∈ items, Dark n ∧ Returns n) : Returns (.list items) := by
  intro size stack t rest next _
  have opened : skipBlank false t = '('.toUInt8 :: (renderItems items ++ ')'.toUInt8 :: rest) := by
    rw [next, SExpr.render, List.append_assoc, List.append_assoc]
    rfl
  rw [readFrom_of_skipBlank opened]
  exact readFrom_items each _ [] stack (skipBlank_items (fun n member => (each n member).1) rest)

theorem WellFormed.returns (wellFormed : n.WellFormed) : Dark n ∧ Returns n := by
  induction wellFormed with
  | symbol symbol =>
    obtain ⟨c, tail, begins⟩ := begins_symbol symbol
    exact ⟨begins.dark, begins.returns⟩
  | string t => exact ⟨(begins_string t).dark, (begins_string t).returns⟩
  | integer integer =>
    obtain ⟨c, tail, begins⟩ := begins_integer integer
    exact ⟨begins.dark, begins.returns⟩
  | ellipsis => exact ⟨begins_ellipsis.dark, begins_ellipsis.returns⟩
  | list _ ih => exact ⟨dark_list _, returns_list ih⟩

theorem WellFormed.read_render (wellFormed : n.WellFormed) : read n.render = .ok n := by
  obtain ⟨dark, returns⟩ := wellFormed.returns
  have next : skipBlank false n.render = n.render ++ [] := by simpa using dark.skipBlank []
  have ended : Stops [] := by simp [Stops]
  rw [read, returns next ended]
  rfl

end RoundTrip

section Soundness

variable {c : UInt8} {rest : Text} {datum : SExpr} {n : Nat}

theorem wellFormed_atom (read : atom c rest = .ok (datum, n)) : datum.WellFormed := by
  unfold atom at read
  split at read
  · cases body : stringBody rest with
    | error e =>
      rw [body] at read
      cases read
    | ok contents =>
      rw [body] at read
      cases read
      exact .string _
  split at read
  · cases read
    exact .ellipsis
  split at read
  · rename_i letter
    cases read
    exact .symbol (.name letter fun b member => (List.mem_takeWhile_imp member))
  split at read
  · rename_i number
    cases read
    have digits : ∀ b ∈ rest.takeWhile Decimal.isDigit, Decimal.isDigit b = true := fun b member =>
      List.mem_takeWhile_imp member
    rcases number with digit | ⟨sign, follows⟩
    · exact .integer (.unsigned (List.cons_ne_nil _ _) (by simpa [digit] using digits))
    · refine .integer (.signed (by simpa [isSign] using sign) ?_ digits)
      cases rest with
      | nil => cases follows
      | cons b rest =>
        have digit : Decimal.isDigit b = true := follows
        simp [digit]
  split at read
  · rename_i sign
    cases read
    exact .symbol (.sign (by simpa [isSign] using sign))
  · cases read

def Sound (stack : List Open) : Prop :=
  ∀ top ∈ stack, ∀ n ∈ top.items, n.WellFormed

theorem Sound.opened {stack : List Open} (sound : Sound stack) (offset : Nat) : Sound (⟨offset, []⟩ :: stack) := by
  intro top member
  rcases List.mem_cons.mp member with rfl | member
  · intro n item
    cases item
  · exact sound top member

theorem Sound.complete {stack stack' : List Open} (sound : Sound stack) (wellFormed : datum.WellFormed)
    (done : complete datum stack = .ok stack') : Sound stack' := by
  cases stack with
  | nil => cases done
  | cons top below =>
    cases done
    intro o member
    rcases List.mem_cons.mp member with rfl | member
    · intro n item
      rcases List.mem_cons.mp item with rfl | item
      · exact wellFormed
      · exact sound top List.mem_cons_self n item
    · exact sound o (List.mem_cons_of_mem top member)

theorem complete_error {stack : List Open} {whole : SExpr} (done : complete datum stack = .error whole) : whole = datum := by
  cases stack with
  | nil =>
    cases done
    rfl
  | cons top below => cases done

theorem Sound.closed {top : Open} {below : List Open} (sound : Sound (top :: below)) :
    Sound below ∧ (SExpr.list top.items.reverse).WellFormed := by
  constructor
  · exact fun o member => sound o (List.mem_cons_of_mem top member)
  · exact .list fun n member => sound top List.mem_cons_self n (List.mem_reverse.mp member)

theorem Sound.readFrom {size : Nat} {stack : List Open} {t : Text} (sound : Sound stack)
    (read : readFrom size stack t = .ok (datum, rest)) : datum.WellFormed := by
  fun_induction SExpr.readFrom size stack t with
  | case1 | case2 | case4 | case7 => cases read
  | case3 stack t rest offset _ ih => exact ih (sound.opened offset) read
  | case5 t rest top below whole done _ _ =>
    simp only [List.unattach_reverse, List.unattach_attach] at done
    simp only [done] at read
    cases read
    exact complete_error done ▸ sound.closed.2
  | case6 t rest top below stack done _ _ ih =>
    simp only [List.unattach_reverse, List.unattach_attach] at done
    simp only [done] at read
    exact ih (sound.closed.1.complete sound.closed.2 done) read
  | case8 stack t c rest _ _ _ single n found whole done =>
    cases read
    exact complete_error done ▸ wellFormed_atom found
  | case9 stack t c rest _ _ _ single n found stack' done ih =>
    exact ih (sound.complete (wellFormed_atom found) done) read

theorem wellFormed_of_read {t : Text} (found : read t = .ok datum) : datum.WellFormed := by
  unfold read at found
  split at found
  · cases found
  · rename_i first
    split at found
    · cases found
      have empty : Sound [] := by
        intro top member
        cases member
      exact empty.readFrom first
    · cases found

end Soundness

/-- The well-formed data are the ones that are read from their own text. Whatever is read from a text is
    well formed, and is read again from its own text. -/
theorem wellFormed_iff_read_render (n : SExpr) :
    (n.WellFormed ↔ read n.render = .ok n) ∧ ∀ t, read t = .ok n → n.WellFormed ∧ read n.render = read t := by
  refine ⟨⟨WellFormed.read_render, wellFormed_of_read⟩, fun t found => ?_⟩
  have wellFormed := wellFormed_of_read found
  exact ⟨wellFormed, wellFormed.read_render.trans found.symm⟩

def crowdedText : Text :=
  "(+1-x\"a;)\\n\\\"\"...-(07)) ; no more"

def spacedText : Text :=
  "(+1 - x \"a;)\n\\\"\" ... - (07))"

theorem wellFormed_iff_read_render_crowded :
    ∃ n, read crowdedText = .ok n ∧ n.render = spacedText ∧ n.WellFormed ∧
      read n.render = read crowdedText := by
  have written : (read crowdedText).toOption.map render = some spacedText := by decide +kernel
  cases found : read crowdedText with
  | error e =>
    rw [found] at written
    cases written
  | ok n =>
    rw [found] at written
    refine ⟨n, rfl, Option.some.inj written, ?_⟩
    rw [← found]
    exact (wellFormed_iff_read_render n).2 crowdedText found

end MiniC.SExpr
