import Mathlib.Data.List.Basic
import Mathlib.Data.List.TakeWhile
import MiniC.Proofs.Renaming.Basic
import MiniC.Proofs.Text

namespace MiniC

namespace Segment

/-- A text that is read as a name wherever no word goes on behind it. -/
structure IsName (name : Text) : Prop where
  first : startsWith isLetter name = true
  word : ∀ c ∈ name, isWord c = true
  free : Keyword.ofLexeme? name = none

theorem IsName.ne_nil {name : Text} (h : IsName name) : name ≠ [] := by
  rintro rfl
  cases h.first

/-- Two texts that are the same, or go on with a word each from the first place on where they are not. -/
inductive Alike : Text → Text → Prop where
  | nil : Alike [] []
  | cons (c : UInt8) {t t' : Text} : Alike t t' → Alike (c :: t) (c :: t')
  | word {t t' : Text} : startsWith isLetter t = true → startsWith isLetter t' = true → Alike t t'

/-- A property that all letters share, or none has. -/
def Uniform (p : UInt8 → Bool) (b : Bool) : Prop :=
  ∀ c, isLetter c = true → p c = b

theorem uniform_isBlank : Uniform isBlank false :=
  forall_byte (by decide +kernel)

theorem uniform_isLetter : Uniform isLetter true :=
  fun _ letter => letter

theorem uniform_isDigit : Uniform Decimal.isDigit false :=
  forall_byte (by decide +kernel)

theorem uniform_isWord : Uniform isWord true := by
  intro c letter
  rw [isWord, letter, Bool.true_or]

theorem uniform_isContinuation : Uniform Utf8.isContinuation false :=
  forall_byte (by decide +kernel)

theorem uniform_ne_newline : Uniform (fun c => c ≠ '\n'.toUInt8) true :=
  forall_byte (by decide +kernel)

theorem uniform_double? (c : UInt8) : Uniform (fun d => (double? c d).isSome) false := by
  intro d letter
  have ends : ∀ p ∈ [Punct.lessEq, .greaterEq, .equal, .notEqual, .andAnd, .orOr],
      p.lexeme.getLast?.any isLetter = false := by decide
  change (double? c d).isSome = false
  rw [double?, Option.isSome_eq_false_iff, Option.isNone_iff_eq_none, List.find?_eq_none]
  intro p member same
  have last := ends p member
  rw [of_decide_eq_true same] at last
  simp [letter] at last

namespace Alike

variable {t t' : Text}

theorem append (s : Text) (h : Alike t t') : Alike (s ++ t) (s ++ t') := by
  induction s with
  | nil => exact h
  | cons c s ih => exact .cons c ih

theorem eq_nil (h : Alike [] t') : t' = [] := by
  cases h with
  | nil => rfl
  | word first => cases first

theorem head_word {p : UInt8 → Bool} {b : Bool} (uniform : Uniform p b) (first : Segment.startsWith isLetter t = true) :
    Segment.startsWith p t = b := by
  cases t with
  | nil => cases first
  | cons c t => exact uniform c first

theorem startsWith {p : UInt8 → Bool} {b : Bool} (uniform : Uniform p b) (h : Alike t t') :
    Segment.startsWith p t' = Segment.startsWith p t := by
  cases h with
  | nil => rfl
  | cons c _ => rfl
  | word first first' => rw [head_word uniform first, head_word uniform first']

theorem cons_cases {c : UInt8} (h : Alike (c :: t) t') (other : isLetter c = false) : ∃ u', t' = c :: u' ∧ Alike t u' := by
  cases h with
  | cons _ h => exact ⟨_, rfl, h⟩
  | word first =>
    have letter : isLetter c = true := first
    rw [other] at letter
    cases letter

theorem takeWhile_eq {p : UInt8 → Bool} (uniform : Uniform p false) (h : Alike t t') :
    t'.takeWhile p = t.takeWhile p := by
  induction h with
  | nil => rfl
  | cons c _ ih => rw [List.takeWhile_cons, List.takeWhile_cons, ih]
  | @word t t' first first' =>
    have stops : ∀ {u : Text}, Segment.startsWith isLetter u = true → u.takeWhile p = [] := by
      intro u first
      cases u with
      | nil => rfl
      | cons c u => rw [List.takeWhile_cons_of_neg (by simp [uniform c first])]
    rw [stops first, stops first']

theorem dropWhile {p : UInt8 → Bool} (uniform : Uniform p false) (h : Alike t t') :
    Alike (t.dropWhile p) (t'.dropWhile p) := by
  induction h with
  | nil => exact .nil
  | cons c h ih =>
    rw [List.dropWhile_cons, List.dropWhile_cons]
    split
    · exact ih
    · exact .cons c h
  | @word t t' first first' =>
    have stops : ∀ {u : Text}, Segment.startsWith isLetter u = true → u.dropWhile p = u := by
      intro u first
      cases u with
      | nil => rfl
      | cons c u => rw [List.dropWhile_cons_of_neg (by simp [uniform c first])]
    rw [stops first, stops first']
    exact .word first first'

theorem isPrefixOf (mark : Text) (other : ∀ c ∈ mark, isLetter c = false) (h : Alike t t') :
    mark.isPrefixOf t' = mark.isPrefixOf t := by
  induction mark generalizing t t' with
  | nil => cases t <;> cases t' <;> rfl
  | cons m mark ih =>
    cases h with
    | nil => rfl
    | cons c h =>
      rw [List.isPrefixOf, List.isPrefixOf, ih (fun c member => other c (by simp [member])) h]
    | word first first' =>
      have differs : ∀ {u : Text}, Segment.startsWith isLetter u = true → (m :: mark).isPrefixOf u = false := by
        intro u first
        cases u with
        | nil => rfl
        | cons c u =>
          have letter : isLetter c = true := first
          have ne : m ≠ c := by
            rintro rfl
            rw [other m (by simp)] at letter
            cases letter
          simp [List.isPrefixOf, ne]
      rw [differs first, differs first']

end Alike

theorem takeWhile_append_iff {p : UInt8 → Bool} {t u : Text} :
    (t ++ u).takeWhile p = t ↔ (∀ c ∈ t, p c = true) ∧ startsWith p u = false := by
  have behind : u.takeWhile p = [] ↔ startsWith p u = false := by
    cases u with
    | nil => simp [startsWith]
    | cons c u => cases known : p c <;> simp [startsWith, known]
  constructor
  · intro run
    have all : ∀ c ∈ t, p c = true := by
      intro c member
      rw [← run] at member
      exact List.mem_takeWhile_imp member
    rw [List.takeWhile_append_of_pos all, List.append_right_eq_self] at run
    exact ⟨all, behind.mp run⟩
  · rintro ⟨all, stops⟩
    rw [List.takeWhile_append_of_pos all, behind.mpr stops, List.append_nil]

theorem takeWhile_append {p : UInt8 → Bool} {b : Bool} (uniform : Uniform p b) {t u u' : Text}
    (run : (t ++ u).takeWhile p = t) (h : Alike u u') : (t ++ u').takeWhile p = t := by
  rw [takeWhile_append_iff] at run ⊢
  rwa [h.startsWith uniform]

theorem closing?_append {t body : Text} (closed : closing? t = some body) :
    ∃ u, t = body ++ u ∧ ∀ u', closing? (body ++ u') = some body := by
  induction t generalizing body with
  | nil => cases closed
  | cons c t ih =>
    rw [closing?] at closed
    split at closed
    · next ends =>
      cases closed
      cases t with
      | nil => simp at ends
      | cons d t =>
        obtain ⟨rfl, rfl⟩ : c = '*'.toUInt8 ∧ d = '/'.toUInt8 := by simpa using ends
        refine ⟨t, rfl, fun u' => ?_⟩
        rw [List.cons_append, closing?, if_pos (by simp)]
    · next open_ =>
      obtain ⟨later, inside, rfl⟩ := Option.map_eq_some_iff.mp closed
      obtain ⟨u, rfl, again⟩ := ih inside
      refine ⟨u, rfl, fun u' => ?_⟩
      have heads : (later ++ u').head? = (later ++ u).head? := by
        cases later with
        | nil => cases again []
        | cons => rfl
      rw [List.cons_append, closing?, heads, if_neg open_, again]
      rfl

theorem Alike.symm {t t' : Text} (h : Alike t t') : Alike t' t := by
  induction h with
  | nil => exact .nil
  | cons c _ ih => exact .cons c ih
  | word first first' => exact .word first' first

theorem Alike.take_eq {t t' : Text} (h : Alike t t') {n : Nat} (full : (t.take n).length = n)
    (continued : (t.take n).all Utf8.isContinuation = true) : t'.take n = t.take n := by
  induction n generalizing t t' with
  | zero => rfl
  | succ n ih =>
    cases t with
    | nil => cases full
    | cons c t =>
      simp only [List.take_succ_cons, List.length_cons, List.all_cons, Bool.and_eq_true,
        Nat.add_right_cancel_iff] at full continued
      have other : isLetter c = false := by
        cases letter : isLetter c with
        | false => rfl
        | true =>
          rw [uniform_isContinuation c letter] at continued
          cases continued.1
      obtain ⟨u', rfl, later⟩ := h.cons_cases other
      rw [List.take_succ_cons, List.take_succ_cons, ih later full continued.2]

theorem decode?_of_alike {c : UInt8} {t t' : Text} (h : Alike t t') {code width : Nat}
    (found : Utf8.decode? (c :: t) = some (code, width)) :
    Utf8.decode? (c :: t') = some (code, width) ∧ (c :: t').take width = (c :: t).take width := by
  unfold Utf8.decode? at found
  cases known : Utf8.width? c with
  | none => simp [known] at found
  | some n =>
    simp only [known] at found
    split at found
    · next whole =>
      obtain ⟨rfl, rfl⟩ : _ = code ∧ n = width := by simpa using found
      have same := h.take_eq (n := n - 1) (by omega) whole.2.1
      refine ⟨?_, ?_⟩
      · simp only [Utf8.decode?, known, same, whole]
        rfl
      · rw [show n = n - 1 + 1 by omega, List.take_succ_cons, List.take_succ_cons, same]
    · cases found

theorem invalid_of_alike {c : UInt8} {t t' : Text} (h : Alike t t') : invalid (c :: t') = invalid (c :: t) := by
  unfold invalid
  cases found : Utf8.decode? (c :: t) with
  | some character =>
    obtain ⟨found', same⟩ := decode?_of_alike h found
    simp only [found', same]
  | none =>
    cases found' : Utf8.decode? (c :: t') with
    | none => rfl
    | some character =>
      obtain ⟨again, _⟩ := decode?_of_alike h.symm found'
      rw [found] at again
      cases again

theorem symbol?_of_alike {c : UInt8} {t t' : Text} (h : Alike t t') : symbol? (c :: t') = symbol? (c :: t) := by
  have longer : t'.head?.bind (double? c) = t.head?.bind (double? c) := by
    cases h with
    | nil => rfl
    | cons d _ => rfl
    | word first first' =>
      have none : ∀ {u : Text}, startsWith isLetter u = true → u.head?.bind (double? c) = none := by
        intro u first
        cases u with
        | nil => rfl
        | cons d u => simpa using uniform_double? c d first
      rw [none first, none first']
  rw [symbol?, symbol?, longer]

section Ends

variable {t u u' : Text}

theorem word_text (t : Text) : (word t).text = t.takeWhile isWord := by
  simp only [word]
  split <;> rfl

theorem word_append (cut : (word (t ++ u)).text = t) (h : Alike u u') : word (t ++ u') = word (t ++ u) := by
  rw [word_text] at cut
  rw [word, word, cut, takeWhile_append uniform_isWord cut h]

theorem lineComment_append (cut : (lineComment (t ++ u)).text = t) (h : Alike u u') :
    lineComment (t ++ u') = lineComment (t ++ u) := by
  have run : (t ++ u).takeWhile (· ≠ '\n'.toUInt8) = t := cut
  rw [lineComment, lineComment, run, takeWhile_append uniform_ne_newline run h]

theorem blockComment_append (opened : ("/*" : Text).isPrefixOf (t ++ u) = true) (cut : (blockComment (t ++ u)).text = t)
    (h : Alike u u') : blockComment (t ++ u') = blockComment (t ++ u) := by
  obtain ⟨rest, starts⟩ := List.isPrefixOf_iff_prefix.mp opened
  unfold blockComment at cut ⊢
  cases closed : closing? ((t ++ u).drop 2) with
  | none =>
    -- The comment takes all that there is.
    simp only [closed] at cut
    obtain rfl : u = [] := List.append_right_eq_self.mp cut
    rw [h.eq_nil, closed]
  | some body =>
    simp only [closed] at cut
    obtain ⟨_, _, again⟩ := closing?_append closed
    have first : (t ++ u).take 2 = ("/*" : Text) := by rw [← starts]; rfl
    rw [first] at cut
    have rest' : t ++ u' = ("/*" : Text) ++ (body ++ u') := by rw [← cut, List.append_assoc]
    have drop' : (t ++ u').drop 2 = body ++ u' := by rw [rest']; rfl
    have first' : (t ++ u').take 2 = ("/*" : Text) := by rw [rest']; rfl
    simp only [drop', again u', first, first']

def unspoiled (numeral rest : Text) (good : Segment) : Segment :=
  if startsWith isLetter rest then malformed (numeral ++ rest.takeWhile isWord) .invalidNumber else good

theorem unspoiled_append {numeral r r' : Text} {good : Segment} (cut : (unspoiled numeral r good).text = t)
    (all : numeral ++ r = t ++ u) (all' : numeral ++ r' = t ++ u') (h : Alike u u') (rest : Alike r r') :
    unspoiled numeral r' good = unspoiled numeral r good := by
  unfold unspoiled at cut ⊢
  rw [rest.startsWith uniform_isLetter]
  split
  · next spoiled =>
    rw [if_pos spoiled] at cut
    have text : numeral ++ r.takeWhile isWord = t := cut
    subst text
    have behind : r = r.takeWhile isWord ++ u := List.append_cancel_left (all.trans (List.append_assoc _ _ _))
    have behind' : r' = r.takeWhile isWord ++ u' := List.append_cancel_left (all'.trans (List.append_assoc _ _ _))
    have same : r'.takeWhile isWord = r.takeWhile isWord := by
      rw [behind']
      exact takeWhile_append uniform_isWord (u := u) (by rw [← behind]) h
    rw [same]
  · rfl

theorem number_eq (t : Text) :
    number t =
      if (t.dropWhile Decimal.isDigit).head? = some '.'.toUInt8 then
        if ((t.dropWhile Decimal.isDigit).tail.takeWhile Decimal.isDigit).isEmpty then
          malformed (t.takeWhile Decimal.isDigit ++
            '.'.toUInt8 :: (t.dropWhile Decimal.isDigit).tail.takeWhile Decimal.isDigit) .invalidNumber
        else
          unspoiled (t.takeWhile Decimal.isDigit ++
              '.'.toUInt8 :: (t.dropWhile Decimal.isDigit).tail.takeWhile Decimal.isDigit)
            ((t.dropWhile Decimal.isDigit).tail.dropWhile Decimal.isDigit)
            (real (t.takeWhile Decimal.isDigit) ((t.dropWhile Decimal.isDigit).tail.takeWhile Decimal.isDigit))
      else unspoiled (t.takeWhile Decimal.isDigit) (t.dropWhile Decimal.isDigit) (integer (t.takeWhile Decimal.isDigit)) :=
  rfl

theorem number_append (cut : (number (t ++ u)).text = t) (h : Alike u u') : number (t ++ u') = number (t ++ u) := by
  have alike := h.append t
  have rest := alike.dropWhile uniform_isDigit
  have all := List.takeWhile_append_dropWhile (p := Decimal.isDigit) (l := t ++ u)
  have all' := List.takeWhile_append_dropWhile (p := Decimal.isDigit) (l := t ++ u')
  rw [number_eq] at cut
  rw [number_eq, number_eq, alike.takeWhile_eq uniform_isDigit]
  rw [alike.takeWhile_eq uniform_isDigit] at all'
  generalize (t ++ u).takeWhile Decimal.isDigit = whole at *
  generalize (t ++ u).dropWhile Decimal.isDigit = r at *
  generalize (t ++ u').dropWhile Decimal.isDigit = r' at *
  by_cases point : r.head? = some '.'.toUInt8
  · obtain ⟨f, rfl⟩ : ∃ f, r = '.'.toUInt8 :: f := by
      cases r with
      | nil => cases point
      | cons c f => exact ⟨f, by simpa using point⟩
    obtain ⟨f', rfl, later⟩ := rest.cons_cases (by decide)
    have fraction := later.takeWhile_eq uniform_isDigit
    have split := List.takeWhile_append_dropWhile (p := Decimal.isDigit) (l := f)
    have split' := List.takeWhile_append_dropWhile (p := Decimal.isDigit) (l := f')
    simp only [List.head?_cons, List.tail_cons, if_true, fraction] at cut ⊢
    by_cases digits : (f.takeWhile Decimal.isDigit).isEmpty = true
    · simp only [digits, if_true]
    · simp only [digits] at cut ⊢
      refine unspoiled_append cut ?_ ?_ h (later.dropWhile uniform_isDigit)
      · rw [List.append_assoc, List.cons_append, split, all]
      · rw [← fraction, List.append_assoc, List.cons_append, split', all']
  · have point' : r'.head? ≠ some '.'.toUInt8 := by
      intro same
      refine point ?_
      cases r' with
      | nil => cases same
      | cons c f =>
        obtain rfl : c = '.'.toUInt8 := by simpa using same
        obtain ⟨_, rfl, _⟩ := rest.symm.cons_cases (by decide)
        rfl
    rw [if_neg point] at cut
    rw [if_neg point, if_neg point']
    exact unspoiled_append cut all all' h rest

end Ends

theorem first_append {t u u' : Text} (cut : (first (t ++ u)).text = t) (h : Alike u u') :
    first (t ++ u') = first (t ++ u) := by
  have alike := h.append t
  unfold first at cut ⊢
  rw [alike.startsWith uniform_isBlank, alike.startsWith uniform_isLetter, alike.startsWith uniform_isDigit,
    alike.isPrefixOf "//" (by decide +kernel), alike.isPrefixOf "/*" (by decide +kernel),
    alike.isPrefixOf "*/" (by decide +kernel)]
  split_ifs at cut ⊢ with blanks letter digit line block closes
  · rw [blank, blank, alike.takeWhile_eq uniform_isBlank]
  · exact word_append cut h
  · exact number_append cut h
  · exact lineComment_append cut h
  · exact blockComment_append block cut h
  · obtain ⟨rest, starts⟩ := List.isPrefixOf_iff_prefix.mp closes
    have text : (t ++ u).take 2 = t := cut
    have marked : (t ++ u).take 2 = ("*/" : Text) := by rw [← starts]; rfl
    have same : (t ++ u').take 2 = (t ++ u).take 2 := by
      rw [← text, marked]
      rfl
    rw [same]
  · -- What is left looks no further than Utf8 does, and starts with no letter.
    cases whole : t ++ u with
    | nil =>
      rw [whole] at alike
      rw [alike.eq_nil]
    | cons c rest =>
      rw [whole] at alike letter
      obtain ⟨rest', whole', later⟩ := alike.cons_cases (by simpa [startsWith] using letter)
      rw [whole', symbol?_of_alike later, invalid_of_alike later]

theorem first_name {name u : Text} (h : IsName name) (ends : startsWith isWord u = false) :
    first (name ++ u) = ⟨name, .token (.ident name)⟩ := by
  have heads : ∀ p, startsWith p (name ++ u) = startsWith p name := by
    intro p
    cases name with
    | nil => cases h.first
    | cons c name => rfl
  have letter := h.first
  have run := takeWhile_append_iff.mpr ⟨h.word, ends⟩
  rw [first, heads, heads, Alike.head_word uniform_isBlank letter, letter]
  simp [word, run, h.free]

section Shape

variable {t : Text}

theorem integer_text (digits : Text) : (integer digits).text = digits := by
  unfold integer
  split <;> rfl

theorem real_text (whole fraction : Text) : (real whole fraction).text = whole ++ '.'.toUInt8 :: fraction := by
  simp only [real]
  split <;> rfl

def Nameless (s : Segment) : Prop :=
  ∀ name, s.kind ≠ .token (.ident name)

theorem nameless_integer (digits : Text) : (integer digits).Nameless := by
  intro name found
  unfold integer at found
  split at found <;> cases found

theorem nameless_real (whole fraction : Text) : (real whole fraction).Nameless := by
  intro name found
  simp only [real] at found
  split at found <;> cases found

theorem nameless_unspoiled {numeral rest : Text} {good : Segment} (h : good.Nameless) :
    (unspoiled numeral rest good).Nameless := by
  intro name found
  unfold unspoiled at found
  split at found
  · cases found
  · exact h name found

theorem takeWhile_append_isPrefix {p : UInt8 → Bool} {t u : Text} (start : u <+: t.dropWhile p) :
    t.takeWhile p ++ u <+: t := by
  obtain ⟨v, same⟩ := start
  exact ⟨v, by rw [List.append_assoc, same, List.takeWhile_append_dropWhile]⟩

theorem unspoiled_isPrefix {numeral : Text} {good : Segment} (text : good.text = numeral) (rest : Text) :
    ∃ u, (unspoiled numeral rest good).text = numeral ++ u ∧ u <+: rest := by
  unfold unspoiled
  split
  · exact ⟨_, rfl, List.takeWhile_prefix isWord⟩
  · exact ⟨[], by rw [text, List.append_nil], List.nil_prefix⟩

theorem nameless_number (t : Text) : (number t).Nameless := by
  rw [number_eq]
  split
  · split
    · intro name found
      cases found
    · exact nameless_unspoiled (nameless_real _ _)
  · exact nameless_unspoiled (nameless_integer _)

theorem number_isPrefix (t : Text) :
    ∃ u, (number t).text = t.takeWhile Decimal.isDigit ++ u ∧ u <+: t.dropWhile Decimal.isDigit := by
  rw [number_eq]
  split
  · next point =>
    generalize t.dropWhile Decimal.isDigit = rest at *
    obtain ⟨f, rfl⟩ : ∃ f, rest = '.'.toUInt8 :: f := by
      cases rest with
      | nil => cases point
      | cons c f => exact ⟨f, by simpa using point⟩
    split
    · exact ⟨_, rfl, List.cons_prefix_cons.mpr ⟨rfl, List.takeWhile_prefix _⟩⟩
    · obtain ⟨u, text, start⟩ := unspoiled_isPrefix
        (real_text (t.takeWhile Decimal.isDigit) (f.takeWhile Decimal.isDigit)) (f.dropWhile Decimal.isDigit)
      refine ⟨'.'.toUInt8 :: (f.takeWhile Decimal.isDigit ++ u), ?_, List.cons_prefix_cons.mpr ⟨rfl, ?_⟩⟩
      · rw [List.tail_cons, text, List.append_assoc, List.cons_append]
      · exact takeWhile_append_isPrefix start
  · exact unspoiled_isPrefix (integer_text _) _

theorem symbol?_cases {c : UInt8} {rest : Text} {s : Segment} (found : symbol? (c :: rest) = some s) :
    ∃ p, s = punct p ∧ p.lexeme <+: c :: rest ∧ p.lexeme ≠ [] := by
  rw [symbol?] at found
  split at found
  · next p double =>
    obtain ⟨d, next, known⟩ := Option.bind_eq_some_iff.mp double
    have lexeme : p.lexeme = [c, d] := by simpa using List.find?_some known
    obtain ⟨u, rfl⟩ := List.head?_eq_some_iff.mp next
    cases found
    exact ⟨p, rfl, ⟨u, by rw [lexeme]; rfl⟩, by simp [lexeme]⟩
  · obtain ⟨p, single, rfl⟩ := Option.map_eq_some_iff.mp found
    have lexeme : p.lexeme = [c] := by simpa using List.find?_some single
    exact ⟨p, rfl, ⟨rest, by rw [lexeme]; rfl⟩, by simp [lexeme]⟩

theorem nameless_symbol (t : Text) : ((symbol? t).getD (invalid t)).Nameless := by
  intro name found
  cases known : symbol? t with
  | some s =>
    rw [known, Option.getD_some] at found
    cases t with
    | nil => cases known
    | cons c rest =>
      obtain ⟨p, rfl, _⟩ := symbol?_cases known
      cases found
  | none =>
    rw [known, Option.getD_none] at found
    unfold invalid at found
    split at found <;> cases found

theorem name_of_first {t name : Text} (found : (first t).kind = .token (.ident name)) :
    (first t).text = name ∧ t.takeWhile isWord = name ∧ IsName name := by
  unfold first at found ⊢
  split_ifs at found ⊢ with blanks letter digit line block closes
  · cases found
  · simp only [word] at found ⊢
    split at found
    · cases found
    · next free =>
      cases found
      refine ⟨rfl, rfl, ?_, fun c member => List.mem_takeWhile_imp member, free⟩
      cases t with
      | nil => cases letter
      | cons c rest =>
        have first : isLetter c = true := letter
        rw [List.takeWhile_cons_of_pos (uniform_isWord c first)]
        exact first
  · exact absurd found (nameless_number t name)
  · cases found
  · unfold blockComment at found
    split at found <;> cases found
  · cases found
  · exact absurd found (nameless_symbol t name)

theorem takeWhile_ne_nil {p : UInt8 → Bool} {t : Text} (first : startsWith p t = true) : t.takeWhile p ≠ [] := by
  cases t with
  | nil => cases first
  | cons c rest =>
    have holds : p c = true := first
    rw [List.takeWhile_cons_of_pos holds]
    simp

theorem first_isPrefix {t : Text} (some : t ≠ []) : (first t).text <+: t ∧ (first t).text ≠ [] := by
  unfold first
  split_ifs with blanks letter digit line block closes
  · exact ⟨List.takeWhile_prefix _, takeWhile_ne_nil blanks⟩
  · rw [word_text]
    exact ⟨List.takeWhile_prefix _, takeWhile_ne_nil (Alike.head_word uniform_isWord letter)⟩
  · obtain ⟨u, text, start⟩ := number_isPrefix t
    rw [text]
    exact ⟨takeWhile_append_isPrefix start, by simp [takeWhile_ne_nil digit]⟩
  · obtain ⟨rest, rfl⟩ := List.isPrefixOf_iff_prefix.mp line
    exact ⟨List.takeWhile_prefix _, takeWhile_ne_nil rfl⟩
  · obtain ⟨rest, rfl⟩ := List.isPrefixOf_iff_prefix.mp block
    unfold blockComment
    split
    · next body closed =>
      obtain ⟨u, same, _⟩ := closing?_append closed
      have rest : rest = body ++ u := same
      refine ⟨⟨u, ?_⟩, by simp [Text.ofString]⟩
      rw [rest]
      rfl
    · exact ⟨List.prefix_rfl, by simp [Text.ofString]⟩
  · exact ⟨List.take_prefix _ _, by simpa [malformed] using some⟩
  · obtain ⟨c, rest, rfl⟩ := List.exists_cons_of_ne_nil some
    cases known : symbol? (c :: rest) with
    | some s =>
      obtain ⟨p, rfl, start, ne⟩ := symbol?_cases known
      exact ⟨start, ne⟩
    | none =>
      rw [Option.getD_none]
      unfold invalid
      split
      · next code width found =>
        have positive := Utf8.decode?_width_pos found
        refine ⟨List.take_prefix _ _, ?_⟩
        simp [malformed]
        omega
      · exact ⟨List.take_prefix _ _, by simp⟩

end Shape

theorem cut_append {s : Segment} {u : Text} (found : first (s.text ++ u) = s) (ne : s.text ≠ []) :
    cut (s.text ++ u) = s :: cut u := by
  cases whole : s.text ++ u with
  | nil => simp [ne] at whole
  | cons c rest =>
    rw [whole] at found
    rw [cut, found]
    obtain ⟨d, text, same⟩ := List.exists_cons_of_ne_nil ne
    rw [same, List.cons_append, List.cons.injEq] at whole
    rw [← whole.2, same, List.length_cons, Nat.add_sub_cancel, List.drop_left]

@[elab_as_elim]
theorem cut_induction {motive : Text → Prop} (nil : motive [])
    (step : ∀ (s : Segment) (u : Text), s.text ≠ [] → first (s.text ++ u) = s → motive u → motive (s.text ++ u)) (t : Text) :
    motive t := by
  induction size : t.length using Nat.strongRecOn generalizing t with
  | ind n ih =>
    by_cases empty : t = []
    · subst empty
      exact nil
    · obtain ⟨⟨u, whole⟩, ne⟩ := first_isPrefix empty
      have shorter : u.length < n := by
        have positive := List.length_pos_iff.mpr ne
        rw [← size, ← whole, List.length_append]
        omega
      rw [← whole]
      exact step (first t) u ne (by rw [whole]) (ih _ shorter u rfl)

variable (ρ : Text → Text)

def rename (s : Segment) : Segment :=
  match s.kind with
  | .token (.ident name) => ⟨ρ name, .token (.ident (ρ name))⟩
  | _ => s

end Segment

def Text.names (t : Text) : List Text :=
  (Segment.cut t).filterMap fun s =>
    match s.kind with
    | .token (.ident name) => some name
    | _ => none

def Text.rename (ρ : Text → Text) (t : Text) : Text :=
  (Segment.cut t).flatMap fun s => (s.rename ρ).text

namespace Segment

variable {ρ : Text → Text}

theorem rename_of_nameless {s : Segment} (h : s.Nameless) : s.rename ρ = s := by
  unfold rename
  split
  · next name found => exact absurd found (h name)
  · rfl

theorem name_or_nameless {s : Segment} {u : Text} (found : first (s.text ++ u) = s) :
    (∃ name, s = ⟨name, .token (.ident name)⟩ ∧ IsName name ∧ startsWith isWord u = false) ∨ s.Nameless := by
  by_cases named : ∃ name, s.kind = .token (.ident name)
  · obtain ⟨name, kind⟩ := named
    have known : (first (s.text ++ u)).kind = .token (.ident name) := by rw [found, kind]
    obtain ⟨text, run, isName⟩ := name_of_first known
    rw [found] at text
    rw [text] at run
    have whole : s = ⟨s.text, s.kind⟩ := rfl
    rw [text, kind] at whole
    exact .inl ⟨name, whole, isName, (takeWhile_append_iff.mp run).2⟩
  · exact .inr fun name kind => named ⟨name, kind⟩

theorem startsWith_append {p : UInt8 → Bool} {t u : Text} (first : startsWith p t = true) :
    startsWith p (t ++ u) = true := by
  cases t with
  | nil => cases first
  | cons c t => exact first

theorem cut_rename {t : Text} (names : ∀ name ∈ t.names, IsName (ρ name)) :
    cut (t.rename ρ) = (cut t).map (rename ρ) ∧ Alike t (t.rename ρ) := by
  induction t using cut_induction with
  | nil =>
    have none : cut [] = [] := by rw [cut]
    rw [Text.rename, none]
    exact ⟨none, .nil⟩
  | step s u ne found ih =>
    have pieces := cut_append found ne
    have behind : ∀ name ∈ u.names, IsName (ρ name) := by
      intro name member
      refine names name ?_
      rw [Text.names, pieces, List.filterMap_cons]
      split
      · exact member
      · exact List.mem_cons_of_mem _ member
    obtain ⟨cuts, alike⟩ := ih behind
    have renamed : Text.rename ρ (s.text ++ u) = (s.rename ρ).text ++ Text.rename ρ u := by
      rw [Text.rename, pieces, List.flatMap_cons, Text.rename]
    rw [renamed, pieces, List.map_cons, ← cuts]
    rcases name_or_nameless found with ⟨name, rfl, isName, ends⟩ | nameless
    · have isName' : IsName (ρ name) := names name (by rw [Text.names, pieces]; simp)
      rw [← alike.startsWith uniform_isWord] at ends
      exact ⟨cut_append (s := ⟨ρ name, .token (.ident (ρ name))⟩) (first_name isName' ends) isName'.ne_nil,
        .word (startsWith_append isName.first) (startsWith_append isName'.first)⟩
    · rw [rename_of_nameless nameless]
      have found' : first (s.text ++ u.rename ρ) = s := by
        rw [first_append (by rw [found]) alike, found]
      exact ⟨cut_append found' ne, alike.append s.text⟩

theorem newlines_of_isName {name : Text} (h : IsName name) : name.newlines = 0 := by
  rw [Text.newlines, List.count_eq_zero]
  intro member
  have word := h.word _ member
  revert word
  decide

theorem name_of_mem_cut {t : Text} {s : Segment} (member : s ∈ cut t) :
    (∃ name, s = ⟨name, .token (.ident name)⟩ ∧ IsName name ∧ name ∈ t.names) ∨ s.Nameless := by
  induction t using cut_induction with
  | nil =>
    rw [cut] at member
    cases member
  | step s' u ne found ih =>
    have pieces := cut_append found ne
    rw [pieces, List.mem_cons] at member
    rcases member with rfl | member
    · rcases name_or_nameless found with ⟨name, rfl, isName, _⟩ | nameless
      · exact .inl ⟨name, rfl, isName, by rw [Text.names, pieces]; simp⟩
      · exact .inr nameless
    · rcases ih member with ⟨name, same, isName, known⟩ | nameless
      · refine .inl ⟨name, same, isName, ?_⟩
        rw [Text.names, pieces, List.filterMap_cons]
        split
        · exact known
        · exact List.mem_cons_of_mem _ known
      · exact .inr nameless

end Segment

namespace Text

variable {ρ σ : Text → Text} {t : Text}

theorem isName_of_mem_names {name : Text} (member : name ∈ t.names) : Segment.IsName name := by
  obtain ⟨s, found, named⟩ := List.mem_filterMap.mp member
  rcases Segment.name_of_mem_cut found with ⟨name', rfl, isName, _⟩ | nameless
  · cases named
    exact isName
  · split at named
    · next known => exact absurd known (nameless _)
    · cases named

theorem rename_congr (same : ∀ name ∈ t.names, ρ name = σ name) : t.rename ρ = t.rename σ := by
  refine List.flatMap_congr fun s found => ?_
  rcases Segment.name_of_mem_cut found with ⟨name, rfl, _, member⟩ | nameless
  · exact same name member
  · rw [Segment.rename_of_nameless nameless, Segment.rename_of_nameless nameless]

theorem rename_id (t : Text) : t.rename id = t := by
  induction t using Segment.cut_induction with
  | nil => rw [rename, Segment.cut, List.flatMap_nil]
  | step s u ne found ih =>
    have text : (s.rename id).text = s.text := by
      rcases Segment.name_or_nameless found with ⟨name, rfl, _⟩ | nameless
      · rfl
      · rw [Segment.rename_of_nameless nameless]
    rw [rename, Segment.cut_append found ne, List.flatMap_cons, text]
    exact congrArg (s.text ++ ·) ih

end Text

namespace TokenStream

variable {ρ : Text → Text}

theorem ofSegments_rename {segments : List Segment} (line : Nat)
    (lines : ∀ s ∈ segments, (s.rename ρ).text.newlines = s.text.newlines) :
    ofSegments line (segments.map (Segment.rename ρ)) = (ofSegments line segments).rename ρ := by
  induction segments generalizing line with
  | nil => rfl
  | cons s rest ih =>
    have later := ih (line + s.text.newlines) fun s member => lines s (by simp [member])
    rw [List.map_cons, ofSegments, lines s (by simp), later, ofSegments]
    rcases s with ⟨text, kind⟩
    cases kind with
    | token terminal => cases terminal <;> rfl
    | _ => rfl

theorem ofSource_rename {t : Text} (names : ∀ name ∈ t.names, Segment.IsName (ρ name)) :
    ofSource (t.rename ρ) = (ofSource t).rename ρ := by
  rw [ofSource, (Segment.cut_rename names).1, ofSource]
  refine ofSegments_rename 1 fun s found => ?_
  rcases Segment.name_of_mem_cut found with ⟨name, rfl, isName, member⟩ | nameless
  · have text : (Segment.rename ρ ⟨name, .token (.ident name)⟩).text = ρ name := rfl
    rw [text, Segment.newlines_of_isName (names name member), Segment.newlines_of_isName isName]
  · rw [Segment.rename_of_nameless nameless]

end TokenStream

end MiniC
