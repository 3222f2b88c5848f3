import MiniC.Proofs.Renaming.Lexing

namespace MiniC

namespace Punct

/-- The bytes that right behind a symbol make it part of a longer one, or of the mark of a comment. -/
def goesOn : Punct → UInt8 → Bool
  | .less | .greater | .assign | .bang => fun c => c = '='.toUInt8
  | .slash => fun c => c = '/'.toUInt8 ∨ c = '*'.toUInt8
  | .star => fun c => c = '/'.toUInt8
  | _ => fun _ => false

end Punct

namespace Segment

def Digits (t : Text) : Prop :=
  t ≠ [] ∧ ∀ c ∈ t, Decimal.isDigit c = true

def mixed (whole fraction : Text) : Text :=
  whole ++ '.'.toUInt8 :: fraction

def truncated? (whole fraction : Text) : Option Nat :=
  Binary64.truncate? (Decimal.value (whole ++ fraction)) (Decimal.unit fraction.length)

end Segment

open Segment (Digits IsName mixed truncated?)

inductive Numeral.Proper : Numeral → Prop where
  | integer {digits : Text} : Digits digits → Decimal.value digits < 2 ^ 63 →
      Proper ⟨digits, .ofNat (Decimal.value digits), false⟩
  | real {whole fraction : Text} {n : Nat} : Digits whole → Digits fraction → truncated? whole fraction = some n →
      Proper ⟨mixed whole fraction, Segment.clampWord n, true⟩

namespace Terminal

def Proper : Terminal → Prop
  | .keyword _ | .punct _ => True
  | .ident name => IsName name
  | .number n => n.Proper
  | .eof => False

/-- The bytes that may not stand right behind a token. -/
def goesOn : Terminal → UInt8 → Bool
  | .keyword _ | .ident _ => Segment.isWord
  | .number n => fun c => Segment.isWord c || (!n.real && c = '.'.toUInt8)
  | .punct p => p.goesOn
  | .eof => fun _ => false

end Terminal

namespace Segment

inductive Comment : Text → Text → Prop where
  | line {body rest : Text} : (∀ c ∈ body, c ≠ '\n'.toUInt8) → startsWith (· ≠ '\n'.toUInt8) rest = false →
      Comment ("//" ++ body) rest
  | block {body rest : Text} : ¬ ("*/" : Text) <:+: body → Comment ("/*" ++ body ++ "*/") rest

/-- Whether nothing of the language stands at the start of a text. -/
structure Foreign (t : Text) : Prop where
  blank : startsWith isBlank t = false
  letter : startsWith isLetter t = false
  digit : startsWith Decimal.isDigit t = false
  symbol : ∀ p : Punct, ¬ p.lexeme <+: t

inductive Written : Text → Prop where
  | whole {digits : Text} : Digits digits → Written digits
  | mixed {whole fraction : Text} : Digits whole → Digits fraction → Written (mixed whole fraction)

/-- Malformed lexemes, with what is reported on them, before what comes behind them. -/
inductive Faulty : Text → LexicalError → Text → Prop where
  | point {whole rest : Text} : Digits whole → startsWith Decimal.isDigit rest = false →
      Faulty (mixed whole []) ⟨mixed whole [], .invalidNumber⟩ rest
  | spoiled {numeral tail rest : Text} : Written numeral → startsWith isLetter tail = true →
      (∀ c ∈ tail, isWord c = true) → startsWith isWord rest = false →
      Faulty (numeral ++ tail) ⟨numeral ++ tail, .invalidNumber⟩ rest
  | large {digits rest : Text} : Digits digits → 2 ^ 63 ≤ Decimal.value digits → startsWith isWord rest = false →
      startsWith (· = '.'.toUInt8) rest = false → Faulty digits ⟨digits, .invalidNumber⟩ rest
  | infinite {whole fraction rest : Text} : Digits whole → Digits fraction → truncated? whole fraction = none →
      startsWith isWord rest = false → Faulty (mixed whole fraction) ⟨mixed whole fraction, .invalidNumber⟩ rest
  | unmatched {rest : Text} : Faulty "*/" ⟨"*/", .unmatchedComment⟩ rest
  | unclosed {body : Text} : ¬ ("*/" : Text) <:+: body →
      Faulty ("/*" ++ body) ⟨shownComment ("/*" ++ body), .unclosedComment⟩ []
  | character {t rest : Text} {code : Nat} : Foreign (t ++ rest) → Utf8.decode? (t ++ rest) = some (code, t.length) →
      Faulty t ⟨t, .invalidInput⟩ rest
  | byte {c : UInt8} {rest : Text} : Foreign (c :: rest) → Utf8.decode? (c :: rest) = none →
      Faulty [c] ⟨Text.quote [c], .invalidInput⟩ rest

/-- What may be a segment of a source, before what comes behind it. -/
inductive Stands : Segment → Text → Prop where
  | blank {t rest : Text} : t ≠ [] → (∀ c ∈ t, isBlank c = true) → startsWith isBlank rest = false → Stands ⟨t, .blank⟩ rest
  | comment {t rest : Text} : Comment t rest → Stands ⟨t, .comment⟩ rest
  | token (terminal : Terminal) {rest : Text} : terminal.Proper → startsWith terminal.goesOn rest = false →
      Stands ⟨terminal.lexeme.text, .token terminal⟩ rest
  | malformed {t rest : Text} {error : LexicalError} : Faulty t error rest → Stands ⟨t, .malformed error⟩ rest

/-- Segments that follow one another and cover a text. -/
inductive Tiles : Text → List Segment → Prop where
  | nil : Tiles [] []
  | cons {s : Segment} {rest : Text} {segments : List Segment} : Stands s rest → Tiles rest segments →
      Tiles (s.text ++ rest) (s :: segments)

theorem startsWith_append_left {p : UInt8 → Bool} {t : Text} (ne : t ≠ []) (u : Text) :
    startsWith p (t ++ u) = startsWith p t := by
  cases t with
  | nil => contradiction
  | cons c t => rfl

theorem startsWith_of_all {p : UInt8 → Bool} {t : Text} (ne : t ≠ []) (all : ∀ c ∈ t, p c = true) :
    startsWith p t = true := by
  cases t with
  | nil => contradiction
  | cons c t => exact all c (by simp)

theorem startsWith_or {p q : UInt8 → Bool} (t : Text) :
    startsWith (fun c => p c || q c) t = (startsWith p t || startsWith q t) := by
  cases t <;> rfl

theorem startsWith_isWord (t : Text) : startsWith isWord t = (startsWith isLetter t || startsWith Decimal.isDigit t) :=
  startsWith_or t

theorem digitless_of_wordless {rest : Text} (stops : startsWith isWord rest = false) :
    startsWith Decimal.isDigit rest = false := by
  rw [startsWith_isWord, Bool.or_eq_false_iff] at stops
  exact stops.2

theorem startsWith_dropWhile (p : UInt8 → Bool) (t : Text) : startsWith p (t.dropWhile p) = false := by
  have run : (t.takeWhile p ++ t.dropWhile p).takeWhile p = t.takeWhile p := by rw [List.takeWhile_append_dropWhile]
  exact (takeWhile_append_iff.mp run).2

theorem dropWhile_append {p : UInt8 → Bool} {t u : Text} (all : ∀ c ∈ t, p c = true) (stops : startsWith p u = false) :
    (t ++ u).dropWhile p = u := by
  have whole := List.takeWhile_append_dropWhile (p := p) (l := t ++ u)
  rw [takeWhile_append_iff.mpr ⟨all, stops⟩] at whole
  exact List.append_cancel_left whole

theorem digit_alone : ∀ c, Decimal.isDigit c = true → isBlank c = false ∧ isLetter c = false :=
  forall_byte (by decide +kernel)

theorem first_of_digit {t : Text} (digit : startsWith Decimal.isDigit t = true) : first t = number t := by
  cases t with
  | nil => cases digit
  | cons c rest =>
    obtain ⟨blank, letter⟩ := digit_alone c digit
    have blank : startsWith isBlank (c :: rest) = false := blank
    have letter : startsWith isLetter (c :: rest) = false := letter
    rw [first, blank, letter, digit]
    rfl

section Numbers

variable {numeral whole fraction rest : Text}

theorem number_whole (digits : Digits whole) (stops : startsWith Decimal.isDigit rest = false)
    (pointless : startsWith (· = '.'.toUInt8) rest = false) :
    number (whole ++ rest) = unspoiled whole rest (integer whole) := by
  have head : rest.head? ≠ some '.'.toUInt8 := by
    intro found
    rw [startsWith, found] at pointless
    cases pointless
  rw [number_eq, takeWhile_append_iff.mpr ⟨digits.2, stops⟩, dropWhile_append digits.2 stops, if_neg head]

theorem number_mixed (digits : Digits whole) (more : ∀ c ∈ fraction, Decimal.isDigit c = true)
    (stops : startsWith Decimal.isDigit rest = false) :
    number (mixed whole fraction ++ rest) =
      if fraction.isEmpty then malformed (mixed whole fraction) .invalidNumber
      else unspoiled (mixed whole fraction) rest (real whole fraction) := by
  have point : startsWith Decimal.isDigit ('.'.toUInt8 :: (fraction ++ rest)) = false := rfl
  rw [mixed, List.append_assoc, List.cons_append, number_eq, takeWhile_append_iff.mpr ⟨digits.2, point⟩,
    dropWhile_append digits.2 point, List.head?_cons, if_pos rfl, List.tail_cons, takeWhile_append_iff.mpr ⟨more, stops⟩,
    dropWhile_append more stops]

theorem unspoiled_of_word {tail : Text} {good : Segment} (letter : startsWith isLetter tail = true)
    (word : ∀ c ∈ tail, isWord c = true) (stops : startsWith isWord rest = false) :
    unspoiled numeral (tail ++ rest) good = malformed (numeral ++ tail) .invalidNumber := by
  rw [unspoiled, if_pos (startsWith_append letter), takeWhile_append_iff.mpr ⟨word, stops⟩]

theorem unspoiled_of_free {good : Segment} (stops : startsWith isWord rest = false) :
    unspoiled numeral rest good = good := by
  rw [startsWith_isWord, Bool.or_eq_false_iff] at stops
  rw [unspoiled, stops.1]
  rfl

theorem fitsWord_natCast (n : Nat) : Decimal.fitsWord n = decide (n < 2 ^ 63) := by
  have least : Int64.minValue.toInt = -2 ^ 63 := rfl
  have most : Int64.maxValue.toInt = 2 ^ 63 - 1 := rfl
  rw [Decimal.fitsWord, least, most]
  congr 1
  apply propext
  omega

theorem integer_of_lt (small : Decimal.value whole < 2 ^ 63) :
    integer whole = ⟨whole, .token (.number ⟨whole, .ofNat (Decimal.value whole), false⟩)⟩ := by
  rw [integer, fitsWord_natCast, decide_eq_true small]
  rfl

theorem integer_of_le (large : 2 ^ 63 ≤ Decimal.value whole) : integer whole = malformed whole .invalidNumber := by
  rw [integer, fitsWord_natCast, decide_eq_false (Nat.not_lt.mpr large)]
  rfl

theorem real_of_some {n : Nat} (finite : truncated? whole fraction = some n) :
    real whole fraction =
      ⟨mixed whole fraction, .token (.number ⟨mixed whole fraction, clampWord n, true⟩)⟩ := by
  rw [truncated?] at finite
  simp only [real, finite, mixed]

theorem real_of_none (infinite : truncated? whole fraction = none) :
    real whole fraction = malformed (mixed whole fraction) .invalidNumber := by
  rw [truncated?] at infinite
  simp only [real, infinite, mixed]

end Numbers

section Comments

variable {t body rest : Text}

theorem closing?_of_first (opened : ¬ ("*/" : Text) <:+: body) : closing? (body ++ "*/" ++ rest) = some (body ++ "*/") := by
  induction body with
  | nil => rfl
  | cons c body ih =>
    have inside : ¬ ("*/" : Text) <:+: body := fun found => opened (List.infix_cons found)
    have later : ¬ (c = '*'.toUInt8 ∧ (body ++ "*/" ++ rest).head? = some '/'.toUInt8) := by
      rintro ⟨rfl, slash⟩
      cases body with
      | nil => cases slash
      | cons d body =>
        obtain rfl : d = '/'.toUInt8 := by simpa using slash
        exact opened ⟨[], body, rfl⟩
    rw [List.cons_append, List.cons_append, closing?, if_neg later, ih inside]
    rfl

theorem closes_iff {c : UInt8} : ("*/" : Text) <+: c :: t ↔ c = '*'.toUInt8 ∧ t.head? = some '/'.toUInt8 := by
  constructor
  · rintro ⟨u, same⟩
    cases same
    exact ⟨rfl, rfl⟩
  · rintro ⟨rfl, slash⟩
    obtain ⟨u, rfl⟩ := List.head?_eq_some_iff.mp slash
    exact ⟨u, rfl⟩

theorem closing?_eq_none_iff : closing? t = none ↔ ¬ ("*/" : Text) <:+: t := by
  induction t with
  | nil => exact iff_of_true rfl (by decide)
  | cons c t ih =>
    rw [List.infix_cons_iff, closes_iff, closing?]
    by_cases closes : c = '*'.toUInt8 ∧ t.head? = some '/'.toUInt8
    · simp [closes]
    · simp only [closes, if_false, Option.map_eq_none_iff, ih, false_or]

theorem closing?_cases (closed : closing? t = some rest) :
    ∃ body, rest = body ++ "*/" ∧ ¬ ("*/" : Text) <:+: body := by
  induction t generalizing rest with
  | nil => cases closed
  | cons c t ih =>
    rw [closing?] at closed
    split at closed
    · next ends =>
      cases closed
      exact ⟨[], by rw [ends.1]; rfl, by decide⟩
    · next opened =>
      obtain ⟨later, inside, rfl⟩ := Option.map_eq_some_iff.mp closed
      obtain ⟨body, rfl, none⟩ := ih inside
      obtain ⟨u, rfl, _⟩ := closing?_append inside
      refine ⟨c :: body, rfl, fun found => ?_⟩
      rcases List.infix_cons_iff.mp found with start | found
      · obtain ⟨star, slash⟩ := closes_iff.mp start
        obtain ⟨v, rfl⟩ := List.head?_eq_some_iff.mp slash
        exact opened ⟨star, rfl⟩
      · exact none found

end Comments

section Symbols

variable {p : Punct} {rest : Text}

theorem lexeme_alone (p : Punct) :
    p.lexeme ≠ [] ∧ startsWith isBlank p.lexeme = false ∧ startsWith isLetter p.lexeme = false ∧
      startsWith Decimal.isDigit p.lexeme = false := by
  cases p <;> decide

theorem symbol?_isSome (p : Punct) (rest : Text) : (symbol? (p.lexeme ++ rest)).isSome = true := by
  have single : ∀ c, (single? c).isSome = true → (symbol? (c :: rest)).isSome = true := by
    intro c known
    rw [symbol?]
    split
    · rfl
    · rw [Option.isSome_map, known]
  cases p with
  | lessEq | greaterEq | equal | notEqual | andAnd | orOr => rfl
  | _ => exact single _ rfl

theorem double?_eq_none {c d : UInt8} (and : c ≠ '&'.toUInt8) (or : c ≠ '|'.toUInt8) (other : d ≠ '='.toUInt8) :
    double? c d = none := by
  have shapes : ∀ q ∈ [Punct.lessEq, .greaterEq, .equal, .notEqual, .andAnd, .orOr],
      q.lexeme.getLast? = some '='.toUInt8 ∨ q.lexeme.head? = some '&'.toUInt8 ∨ q.lexeme.head? = some '|'.toUInt8 := by
    decide
  rw [double?, List.find?_eq_none]
  intro q member same
  have shape := shapes q member
  rw [of_decide_eq_true same] at shape
  simp [and, or, other] at shape

theorem symbol?_of_ends (ends : startsWith p.goesOn rest = false) : symbol? (p.lexeme ++ rest) = some (punct p) := by
  have single : ∀ c, (∀ d, p.goesOn d = false → double? c d = none) → single? c = some p →
      symbol? (c :: rest) = some (punct p) := by
    intro c longer known
    have none : rest.head?.bind (double? c) = none := by
      cases rest with
      | nil => rfl
      | cons d rest => exact longer d ends
    rw [symbol?, none, known]
    rfl
  cases p with
  | lessEq | greaterEq | equal | notEqual | andAnd | orOr => rfl
  | less | greater | assign | bang =>
    exact single _ (fun d other => double?_eq_none (by decide) (by decide) (of_decide_eq_false other)) rfl
  | _ => exact single _ (fun d _ => rfl) rfl

theorem not_comment_of_ends (ends : startsWith p.goesOn rest = false) :
    ("//" : Text).isPrefixOf (p.lexeme ++ rest) = false ∧ ("/*" : Text).isPrefixOf (p.lexeme ++ rest) = false ∧
      ("*/" : Text).isPrefixOf (p.lexeme ++ rest) = false := by
  have mark : ∀ a b : UInt8, startsWith (· = b) rest = false → [a, b].isPrefixOf (a :: rest) = false := by
    intro a b other
    cases rest with
    | nil => simp [List.isPrefixOf]
    | cons d rest =>
      have other : b ≠ d := fun same => of_decide_eq_false other same.symm
      simp [List.isPrefixOf, other]
  cases p with
  | slash =>
    have ends : startsWith (· = '/'.toUInt8) rest = false ∧ startsWith (· = '*'.toUInt8) rest = false := by
      cases rest with
      | nil => exact ⟨rfl, rfl⟩
      | cons d rest => simpa [startsWith, Punct.goesOn] using ends
    exact ⟨mark _ _ ends.1, mark _ _ ends.2, rfl⟩
  | star => exact ⟨rfl, rfl, mark _ _ ends⟩
  | _ => exact ⟨rfl, rfl, rfl⟩

theorem first_of_symbol (ends : startsWith p.goesOn rest = false) : first (p.lexeme ++ rest) = punct p := by
  obtain ⟨ne, blank, letter, digit⟩ := lexeme_alone p
  obtain ⟨line, block, closes⟩ := not_comment_of_ends ends
  rw [first, startsWith_append_left ne, blank, startsWith_append_left ne, letter, startsWith_append_left ne, digit, line,
    block, closes, symbol?_of_ends ends]
  rfl

end Symbols

theorem keyword_isWord (k : Keyword) :
    k.lexeme ≠ [] ∧ startsWith isLetter k.lexeme = true ∧ (∀ c ∈ k.lexeme, isWord c = true) ∧
      Keyword.ofLexeme? k.lexeme = some k := by
  have each : ∀ k ∈ Keyword.all, k.lexeme ≠ [] ∧ startsWith isLetter k.lexeme = true ∧
      (∀ c ∈ k.lexeme, isWord c = true) ∧ Keyword.ofLexeme? k.lexeme = some k := by decide +kernel
  apply each
  cases k <;> simp [Keyword.all]

theorem first_of_letter {t : Text} (letter : startsWith isLetter t = true) : first t = word t := by
  rw [first, Alike.head_word uniform_isBlank letter, letter]
  rfl

theorem first_of_keyword {k : Keyword} {rest : Text} (ends : startsWith isWord rest = false) :
    first (k.lexeme ++ rest) = ⟨k.lexeme, .token (.keyword k)⟩ := by
  obtain ⟨_, letter, all, known⟩ := keyword_isWord k
  rw [first_of_letter (startsWith_append letter)]
  simp only [word, takeWhile_append_iff.mpr ⟨all, ends⟩, known]

theorem Digits.startsWith {t : Text} (h : Digits t) (rest : Text) : Segment.startsWith Decimal.isDigit (t ++ rest) = true :=
  startsWith_append (startsWith_of_all h.1 h.2)

theorem mixed_append (whole fraction rest : Text) :
    mixed whole fraction ++ rest = whole ++ '.'.toUInt8 :: (fraction ++ rest) :=
  List.append_assoc ..

theorem Digits.startsWith_mixed {whole : Text} (h : Digits whole) (fraction rest : Text) :
    Segment.startsWith Decimal.isDigit (mixed whole fraction ++ rest) = true := by
  rw [mixed_append]
  exact h.startsWith _

theorem first_of_number {n : Numeral} {rest : Text} (proper : n.Proper)
    (ends : startsWith (Terminal.number n).goesOn rest = false) :
    first (n.text ++ rest) = ⟨n.text, .token (.number n)⟩ := by
  have ends : startsWith isWord rest = false ∧ startsWith (fun c => !n.real && c = '.'.toUInt8) rest = false := by
    rw [← Bool.or_eq_false_iff, ← startsWith_or]
    exact ends
  have digitless := digitless_of_wordless ends.1
  cases proper with
  | integer digits small =>
    rw [first_of_digit (digits.startsWith rest), number_whole digits digitless ends.2, unspoiled_of_free ends.1,
      integer_of_lt small]
  | @real whole fraction n digits more finite =>
    rw [first_of_digit (digits.startsWith_mixed fraction rest), number_mixed digits more.2 digitless,
      if_neg (by simpa using more.1), unspoiled_of_free ends.1, real_of_some finite]

theorem lineComment_mark (t : Text) : lineComment ("//" ++ t) = ⟨"//" ++ t.takeWhile (· ≠ '\n'.toUInt8), .comment⟩ :=
  rfl

theorem first_of_comment {t rest : Text} (h : Comment t rest) : first (t ++ rest) = ⟨t, .comment⟩ := by
  cases h with
  | @line body _ inside stops =>
    have opened : first ("//" ++ (body ++ rest)) = lineComment ("//" ++ (body ++ rest)) := rfl
    have all : ∀ c ∈ body, decide (c ≠ '\n'.toUInt8) = true := fun c member => decide_eq_true (inside c member)
    rw [List.append_assoc, opened, lineComment_mark, takeWhile_append_iff.mpr ⟨all, stops⟩]
  | @block body _ inside =>
    have closed : closing? ((("/*" : Text) ++ body ++ "*/" ++ rest).drop 2) = some (body ++ "*/") :=
      closing?_of_first inside
    have opened : first ("/*" ++ body ++ "*/" ++ rest) = blockComment ("/*" ++ body ++ "*/" ++ rest) := rfl
    rw [opened, blockComment, closed]
    rfl

theorem Foreign.first_eq {t : Text} (h : Foreign t) (ne : t ≠ []) : first t = invalid t := by
  have none : symbol? t = none := by
    obtain ⟨c, rest, rfl⟩ := List.exists_cons_of_ne_nil ne
    cases known : symbol? (c :: rest) with
    | none => rfl
    | some s =>
      obtain ⟨p, _, start, _⟩ := symbol?_cases known
      exact absurd start (h.symbol p)
  -- The marks of comments start with symbols.
  have markless : ∀ (p : Punct) (mark : Text), p.lexeme <+: mark → mark.isPrefixOf t = false := by
    intro p mark start
    rw [Bool.eq_false_iff]
    intro found
    exact h.symbol p (start.trans (List.isPrefixOf_iff_prefix.mp found))
  rw [first, h.blank, h.letter, h.digit, markless .slash "//" (by decide), markless .slash "/*" (by decide),
    markless .star "*/" (by decide), none]
  rfl

theorem Written.digit {numeral : Text} (h : Written numeral) (rest : Text) :
    startsWith Decimal.isDigit (numeral ++ rest) = true := by
  cases h with
  | whole digits => exact digits.startsWith rest
  | mixed digits _ => exact digits.startsWith_mixed _ rest

theorem number_spoiled {numeral tail rest : Text} (h : Written numeral) (letter : startsWith isLetter tail = true)
    (word : ∀ c ∈ tail, isWord c = true) (stops : startsWith isWord rest = false) :
    number (numeral ++ (tail ++ rest)) = malformed (numeral ++ tail) .invalidNumber := by
  have letter' : startsWith isLetter (tail ++ rest) = true := startsWith_append letter
  have digitless := Alike.head_word uniform_isDigit letter'
  cases h with
  | whole digits =>
    have pointless : startsWith (· = '.'.toUInt8) (tail ++ rest) = false :=
      Alike.head_word (forall_byte (by decide +kernel)) letter'
    rw [number_whole digits digitless pointless, unspoiled_of_word letter word stops]
  | mixed digits more =>
    rw [number_mixed digits more.2 digitless, if_neg (by simpa using more.1), unspoiled_of_word letter word stops]

theorem first_of_faulty {t rest : Text} {error : LexicalError} (h : Faulty t error rest) :
    first (t ++ rest) = ⟨t, .malformed error⟩ := by
  cases h with
  | point digits stops =>
    rw [first_of_digit (digits.startsWith_mixed [] rest), number_mixed digits (by simp) stops]
    rfl
  | spoiled written letter word stops =>
    rw [List.append_assoc, first_of_digit (written.digit _), number_spoiled written letter word stops]
    rfl
  | large digits large stops pointless =>
    rw [first_of_digit (digits.startsWith rest), number_whole digits (digitless_of_wordless stops) pointless,
      unspoiled_of_free stops, integer_of_le large]
    rfl
  | infinite digits more infinite stops =>
    rw [first_of_digit ((Written.mixed digits more).digit rest), number_mixed digits more.2 (digitless_of_wordless stops),
      if_neg (by simpa using more.1), unspoiled_of_free stops, real_of_none infinite]
    rfl
  | unmatched => rfl
  | @unclosed body inside =>
    have opened : first ("/*" ++ body) = blockComment ("/*" ++ body) := rfl
    have none : closing? ((("/*" : Text) ++ body).drop 2) = none := closing?_eq_none_iff.mpr inside
    rw [List.append_nil, opened, blockComment, none]
  | character foreign decoded =>
    have ne : t ++ rest ≠ [] := by
      intro empty
      rw [empty] at decoded
      cases decoded
    rw [foreign.first_eq ne, invalid, decoded]
    simp only [List.take_left', malformed]
  | @byte c _ foreign broken =>
    have ne : c :: rest ≠ [] := List.cons_ne_nil c rest
    rw [List.singleton_append, foreign.first_eq ne, invalid, broken]
    rfl

theorem first_of_stands {s : Segment} {rest : Text} (h : Stands s rest) : first (s.text ++ rest) = s := by
  cases h with
  | @blank t _ ne all stops =>
    have start : startsWith isBlank (t ++ rest) = true := startsWith_append (startsWith_of_all ne all)
    rw [first, start, if_pos rfl, blank, takeWhile_append_iff.mpr ⟨all, stops⟩]
  | comment comment => exact first_of_comment comment
  | token terminal proper ends =>
    cases terminal with
    | keyword k => exact first_of_keyword ends
    | ident name => exact first_name proper ends
    | number n => exact first_of_number proper ends
    | punct p => exact first_of_symbol ends
    | eof => exact proper.elim
  | malformed faulty => exact first_of_faulty faulty

theorem Written.ne_nil {numeral : Text} (h : Written numeral) : numeral ≠ [] := by
  cases h with
  | whole digits => exact digits.1
  | mixed digits _ => exact List.append_ne_nil_of_left_ne_nil digits.1 _

theorem lexeme_ne_nil_of_proper {terminal : Terminal} (h : terminal.Proper) : terminal.lexeme.text ≠ [] := by
  cases terminal with
  | keyword k => exact (keyword_isWord k).1
  | ident name => exact IsName.ne_nil h
  | number n =>
    cases h with
    | integer digits _ => exact digits.1
    | real digits more _ => exact (Written.mixed digits more).ne_nil
  | punct p => exact (lexeme_alone p).1
  | eof => exact h.elim

theorem Faulty.ne_nil {t rest : Text} {error : LexicalError} (h : Faulty t error rest) : t ≠ [] := by
  cases h with
  | point digits _ => exact List.append_ne_nil_of_left_ne_nil digits.1 _
  | spoiled written _ _ _ => exact List.append_ne_nil_of_left_ne_nil written.ne_nil _
  | large digits _ _ _ => exact digits.1
  | infinite digits more _ _ => exact (Written.mixed digits more).ne_nil
  | unmatched => exact List.cons_ne_nil _ _
  | unclosed _ => exact List.cons_ne_nil _ _
  | character _ decoded => exact List.length_pos_iff.mp (Utf8.decode?_width_pos decoded)
  | byte _ _ => exact List.cons_ne_nil _ _

theorem Stands.ne_nil {s : Segment} {rest : Text} (h : Stands s rest) : s.text ≠ [] := by
  cases h with
  | blank ne _ _ => exact ne
  | comment comment => cases comment <;> exact List.cons_ne_nil _ _
  | token _ proper _ => exact lexeme_ne_nil_of_proper proper
  | malformed faulty => exact faulty.ne_nil

def Begins (t : Text) (s : Segment) : Prop :=
  ∃ rest, t = s.text ++ rest ∧ Stands s rest

section Reading

variable {t : Text}

theorem begins_blank (start : startsWith isBlank t = true) : Begins t (blank t) := by
  refine ⟨t.dropWhile isBlank, List.takeWhile_append_dropWhile.symm, ?_⟩
  exact .blank (takeWhile_ne_nil start) (fun c member => List.mem_takeWhile_imp member) (startsWith_dropWhile isBlank t)

theorem begins_word (start : startsWith isLetter t = true) : Begins t (word t) := by
  have stops := startsWith_dropWhile isWord t
  have whole : t = t.takeWhile isWord ++ t.dropWhile isWord := List.takeWhile_append_dropWhile.symm
  simp only [word]
  split
  · next k known =>
    have lexeme : k.lexeme = t.takeWhile isWord := by simpa using List.find?_some known
    rw [← lexeme] at whole ⊢
    exact ⟨_, whole, .token (.keyword k) trivial stops⟩
  · next free =>
    have named : (first t).kind = .token (.ident (t.takeWhile isWord)) := by
      rw [first_of_letter start]
      simp only [word, free]
    exact ⟨_, whole, .token (.ident _) (name_of_first named).2.2 stops⟩

theorem begins_unspoiled {numeral rest : Text} {good : Segment} (written : Written numeral) (text : good.text = numeral)
    (digitless : startsWith Decimal.isDigit rest = false) (fine : startsWith isWord rest = false → Stands good rest) :
    Begins (numeral ++ rest) (unspoiled numeral rest good) := by
  unfold unspoiled
  split
  · next letter =>
    refine ⟨rest.dropWhile isWord, ?_, .malformed (.spoiled written ?_ ?_ (startsWith_dropWhile isWord rest))⟩
    · rw [malformed, List.append_assoc, List.takeWhile_append_dropWhile]
    · cases rest with
      | nil => cases letter
      | cons c rest =>
        rw [List.takeWhile_cons_of_pos (uniform_isWord c letter)]
        exact letter
    · intro c member
      exact List.mem_takeWhile_imp member
  · next free =>
    refine ⟨rest, by rw [text], fine ?_⟩
    rw [startsWith_isWord, digitless, Bool.or_false]
    exact Bool.eq_false_iff.mpr free

theorem begins_integer {digits rest : Text} (all : Digits digits) (digitless : startsWith Decimal.isDigit rest = false)
    (pointless : startsWith (· = '.'.toUInt8) rest = false) : Begins (digits ++ rest) (number (digits ++ rest)) := by
  rw [number_whole all digitless pointless]
  apply begins_unspoiled (.whole all) (integer_text digits) digitless
  intro stops
  by_cases small : Decimal.value digits < 2 ^ 63
  · rw [integer_of_lt small]
    refine .token (.number ⟨digits, .ofNat (Decimal.value digits), false⟩) (.integer all small) ?_
    rw [Terminal.goesOn, startsWith_or, stops]
    exact pointless
  · rw [integer_of_le (Nat.le_of_not_lt small)]
    exact .malformed (.large all (Nat.le_of_not_lt small) stops pointless)

theorem begins_real {whole fraction rest : Text} (all : Digits whole) (more : ∀ c ∈ fraction, Decimal.isDigit c = true)
    (digitless : startsWith Decimal.isDigit rest = false) :
    Begins (mixed whole fraction ++ rest) (number (mixed whole fraction ++ rest)) := by
  rw [number_mixed all more digitless]
  by_cases empty : fraction = []
  · subst empty
    exact ⟨rest, rfl, .malformed (.point all digitless)⟩
  · rw [if_neg (by simpa using empty)]
    have more : Digits fraction := ⟨empty, more⟩
    apply begins_unspoiled (.mixed all more) (real_text whole fraction) digitless
    intro stops
    cases finite : truncated? whole fraction with
    | some n =>
      rw [real_of_some finite]
      refine .token (.number ⟨mixed whole fraction, clampWord n, true⟩) (.real all more finite) ?_
      rw [Terminal.goesOn, startsWith_or, stops]
      cases rest <;> rfl
    | none =>
      rw [real_of_none finite]
      exact .malformed (.infinite all more finite stops)

theorem begins_number (start : startsWith Decimal.isDigit t = true) : Begins t (number t) := by
  have all : Digits (t.takeWhile Decimal.isDigit) :=
    ⟨takeWhile_ne_nil start, fun c member => List.mem_takeWhile_imp member⟩
  have digitless := startsWith_dropWhile Decimal.isDigit t
  have whole : t = t.takeWhile Decimal.isDigit ++ t.dropWhile Decimal.isDigit := List.takeWhile_append_dropWhile.symm
  generalize t.takeWhile Decimal.isDigit = digits, t.dropWhile Decimal.isDigit = rest at all digitless whole
  subst whole
  by_cases pointless : startsWith (· = '.'.toUInt8) rest = false
  · exact begins_integer all digitless pointless
  · obtain ⟨tail, rfl⟩ : ∃ tail, rest = '.'.toUInt8 :: tail := by
      cases rest with
      | nil => exact absurd rfl pointless
      | cons c tail => exact ⟨tail, by simpa [startsWith] using pointless⟩
    have whole : digits ++ '.'.toUInt8 :: tail =
        mixed digits (tail.takeWhile Decimal.isDigit) ++ tail.dropWhile Decimal.isDigit := by
      rw [mixed_append, List.takeWhile_append_dropWhile]
    rw [whole]
    exact begins_real all (fun c member => List.mem_takeWhile_imp member) (startsWith_dropWhile Decimal.isDigit tail)

theorem begins_lineComment (opened : ("//" : Text) <+: t) : Begins t (lineComment t) := by
  obtain ⟨body, rfl⟩ := opened
  have stops := startsWith_dropWhile (· ≠ '\n'.toUInt8) body
  have inside : ∀ c ∈ body.takeWhile (· ≠ '\n'.toUInt8), c ≠ '\n'.toUInt8 := by
    intro c member
    simpa using List.mem_takeWhile_imp member
  rw [lineComment_mark]
  refine ⟨_, ?_, .comment (.line inside stops)⟩
  rw [List.append_assoc, List.takeWhile_append_dropWhile]

theorem begins_blockComment (opened : ("/*" : Text) <+: t) : Begins t (blockComment t) := by
  obtain ⟨rest, rfl⟩ := opened
  have inside : (("/*" : Text) ++ rest).drop 2 = rest := rfl
  rw [blockComment, inside]
  cases closed : closing? rest with
  | none =>
    exact ⟨[], (List.append_nil _).symm, .malformed (.unclosed (closing?_eq_none_iff.mp closed))⟩
  | some text =>
    obtain ⟨body, rfl, first⟩ := closing?_cases closed
    obtain ⟨u, rfl, _⟩ := closing?_append closed
    exact ⟨u, rfl, .comment (.block first)⟩

theorem begins_symbol {p : Punct} {rest : Text} (known : symbol? (p.lexeme ++ rest) = some (punct p))
    (line : ¬ ("//" : Text) <+: p.lexeme ++ rest) (block : ¬ ("/*" : Text) <+: p.lexeme ++ rest)
    (closes : ¬ ("*/" : Text) <+: p.lexeme ++ rest) : Begins (p.lexeme ++ rest) (punct p) := by
  refine ⟨rest, rfl, .token (.punct p) trivial ?_⟩
  cases rest with
  | nil => rfl
  | cons d rest =>
    change p.goesOn d = false
    rw [Bool.eq_false_iff]
    intro goes
    cases p with
    | less | greater | assign | bang =>
      obtain rfl := of_decide_eq_true goes
      cases known
    | slash =>
      rcases of_decide_eq_true goes with rfl | rfl
      · exact line ⟨rest, rfl⟩
      · exact block ⟨rest, rfl⟩
    | star =>
      obtain rfl := of_decide_eq_true goes
      exact closes ⟨rest, rfl⟩
    | _ => cases goes

theorem decode?_width_le {code width : Nat} (decoded : Utf8.decode? t = some (code, width)) : width ≤ t.length := by
  cases t with
  | nil => cases decoded
  | cons lead rest =>
    rw [Utf8.decode?] at decoded
    split at decoded
    · cases decoded
    · next n _ =>
      dsimp only at decoded
      split at decoded
      · next fits =>
        cases decoded
        have length := fits.1
        rw [List.length_take] at length
        rw [List.length_cons]
        omega
      · cases decoded

theorem begins_invalid {c : UInt8} {rest : Text} (foreign : Foreign (c :: rest)) :
    Begins (c :: rest) (invalid (c :: rest)) := by
  unfold invalid
  split
  · next code width decoded =>
    have length : ((c :: rest).take width).length = width := by
      rw [List.length_take, Nat.min_eq_left (decode?_width_le decoded)]
    have whole : (c :: rest).take width ++ (c :: rest).drop width = c :: rest := List.take_append_drop width _
    rw [← whole] at foreign
    have decoded : Utf8.decode? ((c :: rest).take width ++ (c :: rest).drop width) =
        some (code, ((c :: rest).take width).length) := by
      rw [whole, length, decoded]
    exact ⟨(c :: rest).drop width, whole.symm, .malformed (.character foreign decoded)⟩
  · next broken => exact ⟨rest, rfl, .malformed (.byte foreign broken)⟩

theorem begins_first (some : t ≠ []) : Begins t (first t) := by
  unfold first
  split_ifs with blanks letter digit line block closes
  · exact begins_blank blanks
  · exact begins_word letter
  · exact begins_number digit
  · exact begins_lineComment (List.isPrefixOf_iff_prefix.mp line)
  · exact begins_blockComment (List.isPrefixOf_iff_prefix.mp block)
  · obtain ⟨rest, rfl⟩ := List.isPrefixOf_iff_prefix.mp closes
    exact ⟨rest, rfl, .malformed .unmatched⟩
  · rw [List.isPrefixOf_iff_prefix] at line block closes
    obtain ⟨c, rest, rfl⟩ := List.exists_cons_of_ne_nil some
    cases known : symbol? (c :: rest) with
    | some s =>
      obtain ⟨p, rfl, ⟨u, same⟩, _⟩ := symbol?_cases known
      rw [← same] at known line block closes ⊢
      exact begins_symbol known line block closes
    | none =>
      refine begins_invalid ⟨by simpa using blanks, by simpa using letter, by simpa using digit, fun p start => ?_⟩
      obtain ⟨u, same⟩ := start
      have found := symbol?_isSome p u
      rw [same, known] at found
      cases found

end Reading

theorem tiles_cut (t : Text) : Tiles t (cut t) := by
  induction t using cut_induction with
  | nil =>
    rw [cut]
    exact .nil
  | step s u ne found ih =>
    rw [cut_append found ne]
    obtain ⟨rest, whole, stands⟩ := begins_first (t := s.text ++ u) (List.append_ne_nil_of_left_ne_nil ne u)
    rw [found] at whole stands
    cases List.append_cancel_left whole
    exact .cons stands ih

theorem tiles_iff {t : Text} {segments : List Segment} : Tiles t segments ↔ segments = cut t := by
  constructor
  · intro tiles
    induction tiles with
    | nil => rw [cut]
    | cons stands _ ih => rw [cut_append (first_of_stands stands) stands.ne_nil, ih]
  · rintro rfl
    exact tiles_cut t

theorem Tiles.text_eq {t : Text} {segments : List Segment} (h : Tiles t segments) : segments.flatMap (·.text) = t := by
  induction h with
  | nil => rfl
  | cons _ _ ih => rw [List.flatMap_cons, ih]

def placed (before : Text) : List Segment → List (Nat × Segment)
  | [] => []
  | s :: rest => (1 + before.newlines, s) :: placed (before ++ s.text) rest

end Segment

namespace TokenStream

def token? (place : Nat × Segment) : Option Token :=
  match place.2.kind with
  | .token terminal => some ⟨terminal, place.1⟩
  | _ => none

def diagnostic? (place : Nat × Segment) : Option Diagnostic :=
  match place.2.kind with
  | .malformed error => some ⟨.lexical, place.1, error.message⟩
  | _ => none

theorem newlines_append (t u : Text) : Text.newlines (t ++ u) = t.newlines + u.newlines :=
  List.count_append

theorem ofSegments_placed (before : Text) (segments : List Segment) :
    let stream := ofSegments (1 + before.newlines) segments
    stream.tokens = (Segment.placed before segments).filterMap token? ∧
      stream.diagnostics = (Segment.placed before segments).filterMap diagnostic? ∧
      stream.endLine = 1 + (before ++ segments.flatMap (·.text)).newlines := by
  induction segments generalizing before with
  | nil => exact ⟨rfl, rfl, by simp [ofSegments]⟩
  | cons s rest ih =>
    obtain ⟨tokens, diagnostics, last⟩ := ih (before ++ s.text)
    rw [newlines_append, ← Nat.add_assoc] at tokens diagnostics last
    rw [List.append_assoc] at last
    rcases s with ⟨text, kind⟩
    cases kind with
    | token terminal => exact ⟨congrArg (List.cons (Token.mk terminal (1 + before.newlines))) tokens, diagnostics, last⟩
    | malformed error =>
      exact ⟨tokens, congrArg (List.cons (Diagnostic.mk .lexical (1 + before.newlines : Nat) error.message))
        diagnostics, last⟩
    | blank | comment => exact ⟨tokens, diagnostics, last⟩

end TokenStream

/-- A text is cut in the only way there is into blanks, comments, tokens and malformed lexemes, of which
    none goes on behind its end. Its tokens and lexical diagnostics are those of the segments in order,
    each on the line on which its segment starts. -/
theorem tiling_of_text (text : Text) :
    ∃ segments, (∀ others, Segment.Tiles text others ↔ others = segments) ∧ segments.flatMap (·.text) = text ∧
      let stream := TokenStream.ofSource text
      stream.all = (Segment.placed [] segments).filterMap TokenStream.token? ++ [⟨.eof, (1 + text.newlines : Nat)⟩] ∧
      stream.diagnostics = (Segment.placed [] segments).filterMap TokenStream.diagnostic? := by
  have covers := (Segment.tiles_cut text).text_eq
  obtain ⟨tokens, diagnostics, last⟩ := TokenStream.ofSegments_placed [] (Segment.cut text)
  refine ⟨Segment.cut text, fun others => Segment.tiles_iff, covers, ?_, diagnostics⟩
  rw [List.nil_append, covers] at last
  have stream : TokenStream.ofSource text = .ofSegments 1 (Segment.cut text) := rfl
  rw [TokenStream.all, TokenStream.endToken, stream, ← last, ← tokens]
  rfl

end MiniC
