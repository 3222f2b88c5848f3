import MiniC.Proofs.Lexing.Segments

namespace MiniC

open Segment (isBlank Comment Stands cut startsWith)

inductive Filler where
  | blank (c : UInt8) (blank : isBlank c = true)
  | block (body : Text) (inside : ¬ ("*/" : Text) <:+: body)
  | line (body : Text) (inside : ∀ c ∈ body, c ≠ '\n'.toUInt8)

def Filler.text : Filler → Text
  | blank c _ => [c]
  | block body _ => "/*" ++ body ++ "*/"
  | line body _ => "//" ++ body ++ "\n"

/-- What keeps two lexemes apart: a blank, and more layout behind it. -/
structure Separator where
  first : UInt8
  blank : isBlank first = true
  more : List Filler

def Separator.text (s : Separator) : Text :=
  s.first :: s.more.flatMap Filler.text

abbrev Lexable := { terminal : Terminal // terminal.Proper }

def Lexable.text (w : Lexable) : Text :=
  w.val.lexeme.text

def spread (gaps : Nat → Separator) : List Lexable → Text
  | [] => []
  | w :: rest => (gaps 0).text ++ (w.text ++ spread (fun n => gaps (n + 1)) rest)

def joined (gaps : Nat → Separator) : List Lexable → Text
  | [] => []
  | w :: rest => w.text ++ spread gaps rest

namespace Segment

def terminal? (s : Segment) : Option Terminal :=
  match s.kind with
  | .token terminal => some terminal
  | _ => none

def error? (s : Segment) : Option LexicalError :=
  match s.kind with
  | .malformed error => some error
  | _ => none

end Segment

/-- What is read of a text: its terminals, and what is wrong with its malformed lexemes. -/
def Text.read (t : Text) : List Terminal × List LexicalError :=
  ((cut t).filterMap Segment.terminal?, (cut t).filterMap Segment.error?)

namespace Text

variable {t rest : Text}

theorem read_nil : read [] = ([], []) := by
  rw [read, cut]
  rfl

theorem read_segment {s : Segment} (stands : Stands s rest) :
    read (s.text ++ rest) = (s.terminal?.toList ++ (read rest).1, s.error?.toList ++ (read rest).2) := by
  rw [read, Segment.cut_append (Segment.first_of_stands stands) stands.ne_nil, read, List.filterMap_cons,
    List.filterMap_cons]
  cases s.terminal? <;> cases s.error? <;> rfl

theorem read_blank {c : UInt8} (blank : isBlank c = true) (t : Text) : read (c :: t) = read t := by
  by_cases goes : startsWith isBlank t = true
  · -- The blanks behind it belong to the same segment.
    have blanks : ∀ d ∈ t.takeWhile isBlank, isBlank d = true := fun d member => List.mem_takeWhile_imp member
    have stops := Segment.startsWith_dropWhile isBlank t
    have longer := read_segment (.blank (List.cons_ne_nil c _) (List.forall_mem_cons.mpr ⟨blank, blanks⟩) stops)
    have shorter := read_segment (.blank (Segment.takeWhile_ne_nil goes) blanks stops)
    rw [List.cons_append] at longer
    rw [List.takeWhile_append_dropWhile] at longer shorter
    exact longer.trans shorter.symm
  · exact read_segment (.blank (List.cons_ne_nil c []) (by simpa using blank) (Bool.eq_false_iff.mpr goes))

theorem read_comment (comment : Comment t rest) : read (t ++ rest) = read rest :=
  read_segment (.comment comment)

theorem read_filler (f : Filler) (rest : Text) : read (f.text ++ rest) = read rest := by
  cases f with
  | blank c blank => exact read_blank blank rest
  | block body inside => exact read_comment (.block inside)
  | line body inside =>
    have comment : Comment ("//" ++ body) ("\n" ++ rest) := .line inside rfl
    rw [Filler.text, List.append_assoc, read_comment comment]
    exact read_blank rfl rest

theorem read_separator (s : Separator) (rest : Text) : read (s.text ++ rest) = read rest := by
  rw [Separator.text, List.cons_append, read_blank s.blank]
  induction s.more with
  | nil => rfl
  | cons f more ih => rw [List.flatMap_cons, List.append_assoc, read_filler, ih]

end Text

theorem Terminal.goesOn_blank (terminal : Terminal) {c : UInt8} (blank : isBlank c = true) : terminal.goesOn c = false := by
  have apart : ∀ c, isBlank c = true → Segment.isWord c = false ∧
      ∀ d ∈ ['.'.toUInt8, '='.toUInt8, '/'.toUInt8, '*'.toUInt8], decide (c = d) = false :=
    forall_byte (by decide +kernel)
  obtain ⟨word, marks⟩ := apart c blank
  cases terminal with
  | keyword k => exact word
  | ident name => exact word
  | number n =>
    change (Segment.isWord c || (!n.real && decide (c = '.'.toUInt8))) = false
    rw [word, marks _ (by simp), Bool.and_false, Bool.or_false]
  | punct p =>
    have equals := marks '='.toUInt8 (by simp)
    have slash := of_decide_eq_false (marks '/'.toUInt8 (by simp))
    have star := of_decide_eq_false (marks '*'.toUInt8 (by simp))
    cases p with
    | less | greater | assign | bang => exact equals
    | slash => exact decide_eq_false (not_or.mpr ⟨slash, star⟩)
    | star => exact decide_eq_false slash
    | _ => rfl
  | eof => rfl

theorem startsWith_spread (terminal : Terminal) (gaps : Nat → Separator) (words : List Lexable) :
    startsWith terminal.goesOn (spread gaps words) = false := by
  cases words with
  | nil => rfl
  | cons w rest => exact terminal.goesOn_blank (gaps 0).blank

theorem read_lexable (w : Lexable) (gaps : Nat → Separator) (words : List Lexable) :
    (w.text ++ spread gaps words).read = (w.val :: (spread gaps words).read.1, (spread gaps words).read.2) :=
  Text.read_segment (.token w.val w.property (startsWith_spread w.val gaps words))

theorem read_spread (gaps : Nat → Separator) (words : List Lexable) :
    (spread gaps words).read = (words.map Subtype.val, []) := by
  induction words generalizing gaps with
  | nil => exact Text.read_nil
  | cons w rest ih => rw [spread, Text.read_separator, read_lexable, ih, List.map_cons]

theorem read_joined (gaps : Nat → Separator) (words : List Lexable) :
    (joined gaps words).read = (words.map Subtype.val, []) := by
  cases words with
  | nil => exact Text.read_nil
  | cons w rest => rw [joined, read_lexable, read_spread, List.map_cons]

theorem TokenStream.ofSegments_read (line : Nat) (segments : List Segment) :
    (ofSegments line segments).tokens.map (·.terminal) = segments.filterMap Segment.terminal? ∧
      (ofSegments line segments).errors.map (·.cause) = segments.filterMap Segment.error? := by
  induction segments generalizing line with
  | nil => exact ⟨rfl, rfl⟩
  | cons s rest ih =>
    obtain ⟨terminals, errors⟩ := ih (line + s.text.newlines)
    rcases s with ⟨text, kind⟩
    cases kind with
    | token terminal => exact ⟨congrArg (List.cons terminal) terminals, errors⟩
    | malformed error => exact ⟨terminals, congrArg (List.cons error) errors⟩
    | blank | comment => exact ⟨terminals, errors⟩

/-- Lexemes that are joined by separators, whatever blanks and comments these are made of, are read
    back in order, and nothing is reported on them. -/
theorem tokens_of_joined (gaps : Nat → Separator) (words : List Lexable) :
    (TokenStream.ofSource (joined gaps words)).all.map (·.terminal) = words.map Subtype.val ++ [.eof] ∧
      (TokenStream.ofSource (joined gaps words)).diagnostics = [] := by
  have read := read_joined gaps words
  obtain ⟨terminals, errors⟩ := TokenStream.ofSegments_read 1 (cut (joined gaps words))
  rw [Text.read, Prod.mk.injEq] at read
  rw [read.1] at terminals
  rw [read.2, List.map_eq_nil_iff] at errors
  constructor
  · rw [TokenStream.all, List.map_append, TokenStream.ofSource, terminals]
    rfl
  · rw [TokenStream.diagnostics, TokenStream.ofSource, errors]
    rfl

end MiniC
