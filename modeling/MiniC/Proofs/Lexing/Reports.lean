import MiniC.Proofs.Assembly.Rows
import MiniC.Proofs.Parsing.Order
import MiniC.Proofs.SExpr.ParseTree
import MiniC.Token.Listing

namespace MiniC

namespace Text

theorem intercalate_concat (mark last : Text) {texts : List Text} (some : texts ≠ []) :
    List.intercalate mark (texts ++ [last]) = List.intercalate mark texts ++ mark ++ last := by
  induction texts with
  | nil => exact absurd rfl some
  | cons first rest ih =>
    cases rest with
    | nil => rw [List.singleton_append, List.intercalate_cons_cons, List.intercalate_singleton, List.intercalate_singleton]
    | cons second rest =>
      rw [List.cons_append, List.intercalate_cons_of_ne_nil (by simp), ih (by simp), List.intercalate_cons_cons]
      simp only [List.append_assoc]

theorem intercalate_append (mark start first : Text) (texts : List Text) :
    List.intercalate mark ((start ++ first) :: texts) = start ++ List.intercalate mark (first :: texts) := by
  cases texts <;> simp [List.intercalate]

/-- What is split at the marks that have been put between texts, if only the last of them has marks of its own. -/
theorem splitOn_intercalate {mark : UInt8} {front : List Text} (absent : ∀ t ∈ front, mark ∉ t) (last : Text) :
    splitOn mark (List.intercalate [mark] (front ++ [last])) = front ++ splitOn mark last := by
  induction front with
  | nil => rw [List.nil_append, List.intercalate_singleton, List.nil_append]
  | cons t rest ih =>
    obtain ⟨first, others⟩ := List.forall_mem_cons.mp absent
    rw [List.cons_append, List.intercalate_cons_of_ne_nil (by simp), List.append_assoc, List.singleton_append,
      splitOn_append first, ih others, List.cons_append]

theorem splitOn_eq_singleton_iff {mark : UInt8} {t : Text} : splitOn mark t = [t] ↔ mark ∉ t := by
  refine ⟨fun whole member => ?_, splitOn_of_not_mem⟩
  obtain ⟨before, after, rfl⟩ := List.append_of_mem member
  rw [splitOn_append_cons] at whole
  have first := List.length_pos_iff.mpr (splitOn_ne_nil mark before)
  have second := List.length_pos_iff.mpr (splitOn_ne_nil mark after)
  have count := congrArg List.length whole
  rw [List.length_append, List.length_singleton] at count
  omega

end Text

namespace Report

structure Row (α : Type) where
  line : Int
  items : List α

variable {α : Type}

def Row.text (shown : α → Text) (r : Row α) : Text :=
  Decimal.ofInt r.line ++ ".\t" ++ List.intercalate " " (r.items.map shown)

/-- Whether rows list items by their lines. The lines go up from row to row, each row has all items of its line in
    their order, and no item is left out. -/
structure ByLine (line : α → Int) (items : List α) (rows : List (Row α)) : Prop where
  ordered : (rows.map Row.line).Pairwise (· < ·)
  whole : ∀ r ∈ rows, r.items = items.filter fun a => line a = r.line
  filled : ∀ r ∈ rows, r.items ≠ []
  covers : ∀ a ∈ items, ∃ r ∈ rows, r.line = line a

variable {line : α → Int} {items : List α} {a : α} {r : Row α} {rows : List (Row α)}

theorem ByLine.line_mem (h : ByLine line items rows) (member : r ∈ rows) : ∃ a ∈ items, line a = r.line := by
  obtain ⟨a, found⟩ := List.exists_mem_of_ne_nil _ (h.filled r member)
  rw [h.whole r member, List.mem_filter, decide_eq_true_iff] at found
  exact ⟨a, found⟩

theorem ByLine.mem_lines_iff (h : ByLine line items rows) (l : Int) :
    l ∈ rows.map Row.line ↔ ∃ a ∈ items, line a = l := by
  rw [List.mem_map]
  constructor
  · rintro ⟨r, member, rfl⟩
    exact h.line_mem member
  · rintro ⟨a, member, rfl⟩
    exact h.covers a member

theorem ByLine.eq_map (h : ByLine line items rows) :
    rows = (rows.map Row.line).map fun l => ⟨l, items.filter fun a => line a = l⟩ := by
  rw [List.map_map]
  refine (List.map_id rows).symm.trans (List.map_congr_left fun r member => ?_)
  exact congrArg (Row.mk r.line) (h.whole r member)

theorem ByLine.unique {rows' : List (Row α)} (h : ByLine line items rows) (h' : ByLine line items rows') :
    rows = rows' := by
  have lines : rows.map Row.line = rows'.map Row.line := by
    refine List.Perm.eq_of_pairwise (fun _ _ _ _ => by omega) h.ordered h'.ordered ?_
    refine (List.perm_ext_iff_of_nodup (h.ordered.imp Int.ne_of_lt) (h'.ordered.imp Int.ne_of_lt)).mpr fun l => ?_
    rw [h.mem_lines_iff, h'.mem_lines_iff]
  rw [h.eq_map, lines]
  exact h'.eq_map.symm

theorem ByLine.nil : ByLine line [] [] :=
  ⟨.nil, by simp, by simp, by simp⟩

theorem ByLine.new (h : ByLine line items rows) (before : ∀ b ∈ items, line a < line b) :
    ByLine line (a :: items) (⟨line a, [a]⟩ :: rows) := by
  have behind : ∀ r ∈ rows, line a < r.line := by
    intro r member
    obtain ⟨b, found, same⟩ := h.line_mem member
    exact same ▸ before b found
  have alone : items.filter (fun b => line b = line a) = [] :=
    List.filter_eq_nil_iff.mpr fun b member => by
      have := before b member
      simp only [decide_eq_true_iff]
      omega
  refine ⟨?_, ?_, ?_, ?_⟩
  · refine List.pairwise_cons.mpr ⟨?_, h.ordered⟩
    simpa using behind
  · refine List.forall_mem_cons.mpr ⟨?_, fun r member => ?_⟩
    · rw [List.filter_cons_of_pos (by simp), alone]
    · have := behind r member
      rw [List.filter_cons_of_neg (by simp only [decide_eq_true_iff]; omega), h.whole r member]
  · exact List.forall_mem_cons.mpr ⟨by simp, h.filled⟩
  · refine List.forall_mem_cons.mpr ⟨⟨_, List.mem_cons_self, rfl⟩, fun b member => ?_⟩
    obtain ⟨r, found, same⟩ := h.covers b member
    exact ⟨r, List.mem_cons_of_mem _ found, same⟩

theorem ByLine.join (h : ByLine line items (r :: rows)) (same : line a = r.line) :
    ByLine line (a :: items) (⟨r.line, a :: r.items⟩ :: rows) := by
  obtain ⟨behind, ordered⟩ := List.pairwise_cons.mp h.ordered
  obtain ⟨first, others⟩ := List.forall_mem_cons.mp h.whole
  refine ⟨h.ordered, ?_, ?_, ?_⟩
  · refine List.forall_mem_cons.mpr ⟨?_, fun r' member => ?_⟩
    · rw [List.filter_cons_of_pos (by simpa using same), ← first]
    · have := behind r'.line (List.mem_map_of_mem member)
      rw [List.filter_cons_of_neg (by simp only [decide_eq_true_iff]; omega), others r' member]
  · exact List.forall_mem_cons.mpr ⟨by simp, (List.forall_mem_cons.mp h.filled).2⟩
  · refine List.forall_mem_cons.mpr ⟨⟨_, List.mem_cons_self, same.symm⟩, fun b member => ?_⟩
    obtain ⟨r', found, on⟩ := h.covers b member
    rcases List.mem_cons.mp found with rfl | found
    · exact ⟨_, List.mem_cons_self, on⟩
    · exact ⟨r', List.mem_cons_of_mem _ found, on⟩

/-- What is behind the first item of a report, where `current` is the line of the item before. -/
def continued (line : α → Int) (shown : α → Text) (current : Int) : List α → Text
  | [] => []
  | a :: rest =>
    (if line a = current then " " ++ shown a else "\n" ++ Decimal.ofInt (line a) ++ ".\t" ++ shown a) ++
      continued line shown (line a) rest

/-- Behind the head of the first row, a report of items whose lines do not go back has the items of that row, and then
    the other rows. -/
theorem exists_rows (shown : α → Text) (a : α) (rest : List α) (sorted : ((a :: rest).map line).Pairwise (· ≤ ·)) :
    ∃ first rows, ByLine line (a :: rest) (⟨line a, first⟩ :: rows) ∧
      shown a ++ continued line shown (line a) rest =
        List.intercalate "\n" (List.intercalate " " (first.map shown) :: rows.map (Row.text shown)) := by
  induction rest generalizing a with
  | nil => exact ⟨[a], [], ByLine.nil.new (by simp), by simp [continued, List.intercalate]⟩
  | cons b rest ih =>
    obtain ⟨least, later⟩ := List.pairwise_cons.mp sorted
    obtain ⟨first, rows, byLine, text⟩ := ih b later
    -- The printer compares with the item before only; that no later item is on the line of `a` comes from the order.
    by_cases same : line b = line a
    · have filled : first.map shown ≠ [] := by simpa using byLine.filled _ List.mem_cons_self
      refine ⟨a :: first, rows, same ▸ byLine.join same.symm, ?_⟩
      rw [continued, if_pos same, List.map_cons, List.intercalate_cons_of_ne_nil filled,
        Text.intercalate_append, ← text]
      simp only [List.append_assoc]
    · refine ⟨[a], ⟨line b, first⟩ :: rows, byLine.new fun c member => ?_, ?_⟩
      · have next := least (line b) List.mem_cons_self
        rcases List.mem_cons.mp member with rfl | member
        · omega
        · have := List.rel_of_pairwise_cons later (List.mem_map_of_mem member)
          omega
      · rw [continued, if_neg same, List.map_singleton, List.map_cons, List.intercalate_cons_cons, Row.text,
          Text.intercalate_append, ← text, List.intercalate_singleton]
        simp only [List.append_assoc]

theorem byLine_of_sorted (shown : α → Text) (a : α) (rest : List α) (sorted : ((a :: rest).map line).Pairwise (· ≤ ·)) :
    ∃ rows, ByLine line (a :: rest) rows ∧
      Decimal.ofInt (line a) ++ ".\t" ++ shown a ++ continued line shown (line a) rest =
        List.intercalate "\n" (rows.map (Row.text shown)) := by
  obtain ⟨first, rows, byLine, text⟩ := exists_rows shown a rest sorted
  refine ⟨_, byLine, ?_⟩
  rw [List.map_cons, Row.text, Text.intercalate_append, ← text, List.append_assoc]

open Assembly (Inline inline_append inline_intercalate)

theorem inline_ofInt (n : Int) : Inline (Decimal.ofInt n) := by
  cases n with
  | ofNat n => exact (Text.solid_ofNat n).ne (by decide)
  | negSucc n => exact inline_append.mpr ⟨show Inline ['-'.toUInt8] by decide, (Text.solid_ofNat (n + 1)).ne (by decide)⟩

theorem Row.inline_text {shown : α → Text} (each : ∀ a ∈ r.items, Inline (shown a)) : Inline (r.text shown) := by
  refine inline_append.mpr ⟨inline_append.mpr ⟨inline_ofInt _, by decide⟩, inline_intercalate (by decide) ?_⟩
  simpa using each

theorem Row.text_concat {shown : α → Text} (line : Int) {before : List α} (each : ∀ b ∈ before, Inline (shown b)) (a : α) :
    ∃ start, Inline start ∧ Row.text shown ⟨line, before ++ [a]⟩ = start ++ shown a := by
  have head : Inline (Decimal.ofInt line ++ ".\t") := inline_append.mpr ⟨inline_ofInt _, by decide⟩
  by_cases alone : before = []
  · exact ⟨_, head, by simp [alone, Row.text, List.intercalate]⟩
  · have listed : Inline (List.intercalate " " (before.map shown)) :=
      inline_intercalate (by decide) (List.forall_mem_map.mpr each)
    refine ⟨_, inline_append.mpr ⟨inline_append.mpr ⟨head, listed⟩, (by decide : Inline " ")⟩, ?_⟩
    rw [Row.text, List.map_append, List.map_singleton, Text.intercalate_concat _ _ (by simpa using alone)]
    simp only [List.append_assoc]

theorem ByLine.lt_last {last : Row α} (byLine : ByLine line items (rows ++ [last])) (member : r ∈ rows) :
    r.line < last.line := by
  have ordered := byLine.ordered
  rw [List.map_append] at ordered
  exact (List.pairwise_append.mp ordered).2.2 _ (List.mem_map_of_mem member) _ List.mem_cons_self

section Last

variable {before : List α} {last : Row α} (byLine : ByLine line (before ++ [a]) (rows ++ [last]))
  (sorted : ((before ++ [a]).map line).Pairwise (· ≤ ·))

include byLine sorted

theorem ByLine.last_line : last.line = line a := by
  obtain ⟨b, member, same⟩ := byLine.line_mem (List.mem_append_right rows (List.mem_singleton_self last))
  have below : line b ≤ line a := by
    rw [List.map_append] at sorted
    rcases List.mem_append.mp member with earlier | final
    · exact (List.pairwise_append.mp sorted).2.2 _ (List.mem_map_of_mem earlier) _ List.mem_cons_self
    · exact Int.le_of_eq (congrArg line (List.mem_singleton.mp final))
  obtain ⟨r, found, on⟩ := byLine.covers a (List.mem_append_right before (List.mem_singleton_self a))
  rcases List.mem_append.mp found with earlier | final
  · have above := byLine.lt_last earlier
    omega
  · rw [← on, List.mem_singleton.mp final]

theorem ByLine.last_eq : last = ⟨line a, before.filter (fun b => line b = line a) ++ [a]⟩ := by
  have same := byLine.last_line sorted
  have items := byLine.whole last (List.mem_append_right rows (List.mem_singleton_self last))
  rw [same, List.filter_append, List.filter_cons_of_pos (by simp), List.filter_nil] at items
  rw [← items, ← same]

/-- If only the last item has newlines in it, then only the last row has. -/
theorem ByLine.inline_front {shown : α → Text} (each : ∀ b ∈ before, Inline (shown b)) :
    ∀ r ∈ rows, Inline (r.text shown) := by
  intro r member
  refine Row.inline_text fun b found => ?_
  rw [byLine.whole r (List.mem_append_left _ member), List.mem_filter, decide_eq_true_iff] at found
  rcases List.mem_append.mp found.1 with earlier | final
  · exact each b earlier
  · -- The last item stands in the last row, which is on a later line.
    have below := byLine.lt_last member
    have same := byLine.last_line sorted
    rw [List.mem_singleton.mp final] at found
    omega

theorem ByLine.last_text {shown : α → Text} (each : ∀ b ∈ before, Inline (shown b)) :
    ∃ start, Inline start ∧ last.text shown = start ++ shown a := by
  rw [byLine.last_eq sorted]
  exact Row.text_concat _ (fun b member => each b (List.mem_of_mem_filter member)) a

end Last

end Report

namespace TokenListing

open Report (Row ByLine continued byLine_of_sorted)

theorem kind_eq_eof_iff (t : Token) : (entry t).lexeme.kind = .eof ↔ t.terminal = .eof := by
  rcases t with ⟨terminal, line⟩
  cases terminal <;> simp [entry, Token.lexeme, Terminal.lexeme, Keyword.shown, Numeral.shown, Punct.shown]

def listed (tokens : List Token) : List Token :=
  tokens.filter fun t => t.terminal ≠ .eof

theorem rows_eq {current : Int} (opened : current ≠ 0) {tokens : List Token} (lines : ∀ t ∈ tokens, t.line ≠ 0) :
    rows current (tokens.map entry) =
      continued (fun t : Token => t.line) (fun t => t.lexeme.render) current (listed tokens) ++ "\n" := by
  induction tokens generalizing current with
  | nil => simp [rows, rowEnd, opened, listed, continued]
  | cons t rest ih =>
    obtain ⟨first, others⟩ := List.forall_mem_cons.mp lines
    rw [List.map_cons, rows]
    by_cases ended : t.terminal = .eof
    · have hidden : listed (t :: rest) = listed rest := List.filter_cons_of_neg (by simp [ended])
      rw [if_pos ((kind_eq_eof_iff t).mpr ended), ih opened others, hidden]
    · have shown : listed (t :: rest) = t :: listed rest := List.filter_cons_of_pos (by simp [ended])
      rw [if_neg (fun kind => ended ((kind_eq_eof_iff t).mp kind)), shown, continued]
      have line : (entry t).line = t.line := rfl
      by_cases same : (t.line : Int) = current
      · rw [line, if_pos same, if_pos same, same, ih opened others, ← List.append_assoc]
        rfl
      · rw [line, if_neg same, if_neg same, ih (by simpa using first) others]
        simp [rowEnd, opened, entry]

theorem ofTokens_cons {t : Token} {rest : List Token} (shown : t.terminal ≠ .eof) (lines : ∀ t' ∈ t :: rest, t'.line ≠ 0) :
    ofTokens (t :: rest) = Decimal.ofInt t.line ++ ".\t" ++ t.lexeme.render ++
      continued (fun t : Token => t.line) (fun t => t.lexeme.render) t.line (listed rest) ++ "\n" := by
  obtain ⟨first, others⟩ := List.forall_mem_cons.mp lines
  have opens : (entry t).line ≠ 0 := by simpa [entry] using first
  rw [ofTokens, render, List.map_cons, rows, if_neg (fun kind => shown ((kind_eq_eof_iff t).mp kind)), if_neg opens,
    rows_eq opens others]
  simp [rowEnd, entry]

theorem ofTokens_byLine {tokens : List Token} (lines : ∀ t ∈ tokens, t.line ≠ 0)
    (sorted : (tokens.map fun t => (t.line : Int)).Pairwise (· ≤ ·)) :
    ∃ rows, ByLine (fun t : Token => t.line) (listed tokens) rows ∧
      ofTokens tokens = List.intercalate "\n" (rows.map (Row.text fun t => t.lexeme.render) ++ [[]]) := by
  induction tokens with
  | nil => exact ⟨[], .nil, rfl⟩
  | cons t rest ih =>
    by_cases ended : t.terminal = .eof
    · have hidden : listed (t :: rest) = listed rest := List.filter_cons_of_neg (by simp [ended])
      have same : ofTokens (t :: rest) = ofTokens rest := by
        rw [ofTokens, render, List.map_cons, rows, if_pos ((kind_eq_eof_iff t).mpr ended)]
        rfl
      rw [hidden, same]
      exact ih (List.forall_mem_cons.mp lines).2 (List.pairwise_cons.mp sorted).2
    · have shown : listed (t :: rest) = t :: listed rest := List.filter_cons_of_pos (by simp [ended])
      have kept : ((t :: listed rest).map fun t => (t.line : Int)).Pairwise (· ≤ ·) :=
        sorted.sublist ((List.filter_sublist.cons_cons t).map _)
      obtain ⟨rows, byLine, text⟩ := byLine_of_sorted (fun t : Token => t.lexeme.render) t (listed rest) kept
      have filled : rows ≠ [] := by
        rintro rfl
        obtain ⟨r, member, _⟩ := byLine.covers t List.mem_cons_self
        cases member
      refine ⟨rows, shown ▸ byLine, ?_⟩
      rw [ofTokens_cons ended lines, text, Text.intercalate_concat _ _ (by simpa using filled), List.append_nil]

end TokenListing

theorem Diagnostic.renderAfter_eq (current : Int) {ds : List Diagnostic} (lexical : ∀ d ∈ ds, d.category = .lexical) :
    renderAfter .lexical current ds = Report.continued Diagnostic.line Diagnostic.message current ds := by
  induction ds generalizing current with
  | nil => rfl
  | cons d rest ih =>
    obtain ⟨first, others⟩ := List.forall_mem_cons.mp lexical
    rw [renderAfter, Report.continued, ih d.line others, render, first]
    by_cases same : d.line = current
    · rw [if_pos ⟨rfl, same⟩, if_pos same]
    · rw [if_neg (fun both => same both.2), if_neg same]
      simp only [List.append_assoc]

theorem Diagnostic.renderAll_byLine {ds : List Diagnostic} (found : ds ≠ []) (lexical : ∀ d ∈ ds, d.category = .lexical)
    (sorted : (ds.map Diagnostic.line).Pairwise (· ≤ ·)) :
    ∃ rows, Report.ByLine Diagnostic.line ds rows ∧
      renderAll .lexical ds = List.intercalate "\n" (rows.map (Report.Row.text Diagnostic.message)) := by
  obtain ⟨d, rest, rfl⟩ := List.exists_cons_of_ne_nil found
  obtain ⟨first, others⟩ := List.forall_mem_cons.mp lexical
  obtain ⟨rows, byLine, text⟩ := Report.byLine_of_sorted Diagnostic.message d rest sorted
  refine ⟨rows, byLine, ?_⟩
  rw [← text, renderAll, renderAfter_eq d.line others, render, first]

theorem TokenStream.errors_ofSegments (line : Nat) (segments : List Segment) :
    ((line : Int) :: (ofSegments line segments).errors.map Located.line).Pairwise (· ≤ ·) := by
  induction segments generalizing line with
  | nil => simp [ofSegments]
  | cons segment rest ih =>
    obtain ⟨behind, later⟩ := List.pairwise_cons.mp (ih (line + segment.text.newlines))
    have sorted : ((line : Int) :: (ofSegments (line + segment.text.newlines) rest).errors.map
      Located.line).Pairwise (· ≤ ·) :=
      List.pairwise_cons.mpr ⟨fun l member => by have := behind l member; omega, later⟩
    unfold ofSegments
    cases segment.kind with
    | malformed error => exact pairwise_twice [] sorted
    | token terminal => exact sorted
    | blank => exact sorted
    | comment => exact sorted

namespace Segment

/-- Whether a segment is a comment that is not closed. -/
def isOpen (s : Segment) : Bool :=
  match s.kind with
  | .malformed error => error.fault = .unclosedComment
  | _ => false

def openComment? (t : Text) : Option Text :=
  ((cut t).find? isOpen).map Segment.text

end Segment

section Inline

open Assembly (Inline inline_append)
open Segment

theorem inline_of_all {p : UInt8 → Bool} {t : Text} (all : ∀ c ∈ t, p c = true)
    (other : p '\n'.toUInt8 = false) : Inline t := by
  intro member
  rw [all _ member] at other
  cases other

theorem Segment.Digits.inline {t : Text} (digits : Digits t) : Inline t :=
  inline_of_all digits.2 (by decide)

theorem inline_mixed {whole fraction : Text} (first : Inline whole) (second : Inline fraction) :
    Inline (mixed whole fraction) :=
  inline_append.mpr ⟨first, inline_append.mpr ⟨show Inline ['.'.toUInt8] by decide, second⟩⟩

theorem Terminal.Proper.inline {terminal : Terminal} (proper : terminal.Proper) : Inline terminal.lexeme.text := by
  cases terminal with
  | keyword k => exact inline_of_all (keyword_isWord k).2.2.1 (by decide)
  | punct p => cases p <;> decide
  | ident name => exact inline_of_all proper.word (by decide)
  | number n =>
    cases proper with
    | integer digits => exact digits.inline
    | real digits more => exact inline_mixed digits.inline more.inline
  | eof => cases proper

theorem Terminal.inline_kind (terminal : Terminal) : Inline terminal.lexeme.kind.name := by
  cases terminal with
  | keyword => exact (by decide : Inline "KEYWORD")
  | ident => exact (by decide : Inline "ID")
  | number => exact (by decide : Inline "NUM")
  | punct => exact (by decide : Inline "SYMBOL")
  | eof => exact (by decide : Inline "EOF")

theorem Terminal.Proper.inline_render {terminal : Terminal} (proper : terminal.Proper) : Inline terminal.lexeme.render := by
  have kind := terminal.inline_kind
  unfold Lexeme.render
  split
  · decide
  · simp only [inline_append]
    exact ⟨⟨⟨⟨by decide, kind⟩, by decide⟩, proper.inline⟩, by decide⟩

theorem Segment.Written.inline {numeral : Text} (written : Written numeral) : Inline numeral := by
  cases written with
  | whole digits => exact digits.inline
  | mixed digits more => exact inline_mixed digits.inline more.inline

theorem isContinuation_of_decode? {lead : UInt8} {rest : Text} {code width : Nat}
    (decoded : Utf8.decode? (lead :: rest) = some (code, width)) :
    ∀ c ∈ rest.take (width - 1), Utf8.isContinuation c = true := by
  rw [Utf8.decode?] at decoded
  split at decoded
  · cases decoded
  · dsimp only at decoded
    split at decoded
    · next fits =>
      cases decoded
      exact List.all_eq_true.mp fits.2.1
    · cases decoded

theorem inline_character {t rest : Text} {code : Nat} (foreign : Foreign (t ++ rest))
    (decoded : Utf8.decode? (t ++ rest) = some (code, t.length)) : Inline t := by
  cases t with
  | nil => exact List.not_mem_nil
  | cons lead tail =>
    have blank : isBlank lead = false := foreign.blank
    rw [List.cons_append] at decoded
    have continues := isContinuation_of_decode? decoded
    rw [List.length_cons, Nat.add_sub_cancel, List.take_left] at continues
    have first : Inline [lead] := inline_of_all (p := fun c => !isBlank c) (by simpa using blank) (by decide)
    exact inline_append.mpr ⟨first, inline_of_all continues (by decide)⟩

theorem inline_quote : ∀ c : UInt8, Inline (Text.quote [c]) :=
  forall_byte (by decide +kernel)

theorem Segment.Faulty.inline {t rest : Text} {error : LexicalError} (faulty : Faulty t error rest) :
    Inline error.lexeme ∧ error.fault ≠ .unclosedComment ∨ error = ⟨shownComment t, .unclosedComment⟩ ∧ rest = [] := by
  cases faulty with
  | point digits => exact .inl ⟨inline_mixed digits.inline List.not_mem_nil, by simp⟩
  | spoiled written _ word => exact .inl ⟨inline_append.mpr ⟨written.inline, inline_of_all word (by decide)⟩, by simp⟩
  | large digits => exact .inl ⟨digits.inline, by simp⟩
  | infinite digits more => exact .inl ⟨inline_mixed digits.inline more.inline, by simp⟩
  | unmatched => exact .inl ⟨by decide, by simp⟩
  | unclosed => exact .inr ⟨rfl, rfl⟩
  | character foreign decoded => exact .inl ⟨inline_character foreign decoded, by simp⟩
  | byte => exact .inl ⟨inline_quote _, by simp⟩

theorem LexicalError.inline_message {error : LexicalError} (inline : Inline error.lexeme) : Inline error.message := by
  have fault : Inline error.fault.name := by cases error.fault <;> decide
  simp only [message, inline_append]
  exact ⟨⟨⟨⟨by decide, inline⟩, by decide⟩, fault⟩, by decide⟩

theorem LexicalError.message_unclosed (lexeme : Text) :
    (⟨lexeme, .unclosedComment⟩ : LexicalError).message = "(" ++ lexeme ++ ", Unclosed comment)" := by
  simp only [message, List.append_assoc]
  rfl

/-- Messages are on one line, but for that about a comment which is not closed. It is the last one. -/
theorem Segment.Tiles.split_errors {t : Text} {segments : List Segment} (tiles : Tiles t segments) (line : Nat) :
    ∃ front back, (TokenStream.ofSegments line segments).errors = front ++ back ∧
      (∀ e ∈ front, Inline e.cause.message) ∧
      (segments.find? isOpen = none ∧ back = [] ∨ ∃ s line', segments.find? isOpen = some s ∧
        back = [⟨line', ⟨shownComment s.text, .unclosedComment⟩⟩]) := by
  induction tiles generalizing line with
  | nil => exact ⟨[], [], rfl, by simp, .inl ⟨rfl, rfl⟩⟩
  | @cons s rest segments stands tiles ih =>
    obtain ⟨front, back, errors, inline, ending⟩ := ih (line + s.text.newlines)
    cases stands with
    | blank | comment | token => exact ⟨front, back, errors, inline, ending⟩
    | @malformed t _ error faulty =>
      rcases faulty.inline with ⟨first, other⟩ | ⟨rfl, rfl⟩
      · have closed : isOpen ⟨t, .malformed error⟩ = false := by simpa [isOpen] using other
        refine ⟨⟨line, error⟩ :: front, back, congrArg (_ :: ·) errors, ?_, ?_⟩
        · exact List.forall_mem_cons.mpr ⟨LexicalError.inline_message first, inline⟩
        · rw [List.find?_cons_of_neg (by simp [closed])]
          exact ending
      · -- The comment takes all of the text, so that no segment is left behind it.
        rw [tiles_iff.mp tiles, Segment.cut]
        exact ⟨[], [⟨line, _⟩], rfl, by simp, .inr ⟨_, line, rfl, rfl⟩⟩

theorem newline_mem_shownComment {t : Text} : '\n'.toUInt8 ∈ shownComment t ↔ '\n'.toUInt8 ∈ t.take 7 := by
  unfold shownComment
  split
  · next short => rw [List.take_of_length_le short]
  · have dots : '\n'.toUInt8 ∉ ("..." : Text) := by decide
    rw [List.mem_append, or_iff_left dots]

namespace TokenStream

variable (text : Text)

theorem listed_all : TokenListing.listed (ofSource text).all = (ofSource text).tokens := by
  have shown : ∀ t ∈ (ofSource text).tokens, t.terminal ≠ .eof := by
    intro t member ended
    have proper := proper_of_mem member
    rw [ended] at proper
    exact proper
  rw [TokenListing.listed, all, List.filter_append, List.filter_eq_self.mpr (by simpa using shown)]
  exact List.append_nil _

theorem lines_all : (1 :: (ofSource text).all.map Token.line).Pairwise (· ≤ ·) := by
  have lines : (ofSource text).all.map Token.line = (ofSource text).lines := by
    rw [all, List.map_append]
    rfl
  rw [lines]
  exact lines_ofSegments 1 (Segment.cut text)

open Report (Row ByLine)

theorem listing_by_line :
    ∃ rows, ByLine (fun t : Token => t.line) (TokenListing.listed (ofSource text).all) rows ∧
      Text.splitOn '\n'.toUInt8 (TokenListing.ofTokens (ofSource text).all) =
        rows.map (Row.text fun t => t.lexeme.render) ++ [[]] := by
  obtain ⟨positive, sorted⟩ := List.pairwise_cons.mp (lines_all text)
  have lines : ∀ t ∈ (ofSource text).all, t.line ≠ 0 := by
    intro t member
    have := positive t.line (List.mem_map_of_mem member)
    omega
  have sorted : ((ofSource text).all.map fun t => (t.line : Int)).Pairwise (· ≤ ·) := by
    rw [List.pairwise_map] at sorted ⊢
    exact sorted.imp Int.ofNat_le.mpr
  obtain ⟨rows, byLine, report⟩ := TokenListing.ofTokens_byLine lines sorted
  refine ⟨rows, byLine, ?_⟩
  have inline : ∀ r ∈ rows, Inline (r.text fun t => t.lexeme.render) := by
    intro r member
    refine Row.inline_text fun t found => ?_
    rw [byLine.whole r member, listed_all] at found
    exact (proper_of_mem (List.mem_filter.mp found).1).inline_render
  rw [report]
  exact Text.splitOn_intercalate (List.forall_mem_map.mpr inline) []

theorem lines_diagnostics : ((ofSource text).diagnostics.map Diagnostic.line).Pairwise (· ≤ ·) := by
  have lines : (ofSource text).diagnostics.map Diagnostic.line = (ofSource text).errors.map Located.line := List.map_map
  rw [lines]
  exact (errors_ofSegments 1 (Segment.cut text)).of_cons

theorem inline_diagnostics {before : List Diagnostic} {d : Diagnostic}
    (split : (ofSource text).diagnostics = before ++ [d]) :
    (∀ d' ∈ before, Inline d'.message) ∧ (openComment? text = none → Inline d.message) ∧
      ∀ comment, openComment? text = some comment → d.message = "(" ++ shownComment comment ++ ", Unclosed comment)" := by
  obtain ⟨front, back, errors, inline, ending⟩ := (Segment.tiles_cut text).split_errors 1
  have all : (ofSource text).diagnostics = _ := congrArg (List.map _) errors
  rw [List.map_append] at all
  rcases ending with ⟨closed, rfl⟩ | ⟨s, line, found, rfl⟩
  · have each : ∀ d' ∈ before ++ [d], Inline d'.message := by
      rw [← split, all, List.map_nil, List.append_nil]
      exact List.forall_mem_map.mpr inline
    obtain ⟨earlier, final⟩ := List.forall_mem_append.mp each
    refine ⟨earlier, fun _ => final d List.mem_cons_self, fun comment some => ?_⟩
    rw [openComment?, closed] at some
    cases some
  · obtain ⟨rfl, same⟩ := List.append_inj' (split.symm.trans all) rfl
    obtain rfl := List.singleton_inj.mp same
    refine ⟨List.forall_mem_map.mpr inline, fun none => ?_, fun comment some => ?_⟩
    · rw [openComment?, found] at none
      cases none
    · rw [openComment?, found] at some
      cases some
      exact LexicalError.message_unclosed _

section Errors

variable {text : Text} (found : (ofSource text).diagnostics ≠ [])

include found

/-- The report of the lexical errors of a source that has any. Each row but the last is a line of it. The last row ends
    in the message about a comment that is not closed, if there is one, and goes on over the newlines shown of it. -/
theorem errors_by_line :
    ∃ rows last, ByLine Diagnostic.line (ofSource text).diagnostics (rows ++ [last]) ∧
      Text.splitOn '\n'.toUInt8 (Diagnostic.renderAll .lexical (ofSource text).diagnostics) =
        rows.map (Row.text Diagnostic.message) ++ Text.splitOn '\n'.toUInt8 (last.text Diagnostic.message) ∧
      (openComment? text = none → Inline (last.text Diagnostic.message)) ∧
      ∀ comment, openComment? text = some comment → ∃ start, Inline start ∧
        last.text Diagnostic.message = start ++ shownComment comment ++ ", Unclosed comment)" := by
  have sorted := lines_diagnostics text
  obtain ⟨all, byLine, report⟩ := Diagnostic.renderAll_byLine found (by simp [diagnostics]) sorted
  obtain rfl | ⟨rows, last, rfl⟩ := List.eq_nil_or_concat all
  · obtain ⟨d, member⟩ := List.exists_mem_of_ne_nil _ found
    obtain ⟨r, none, _⟩ := byLine.covers d member
    cases none
  · rw [List.concat_eq_append] at byLine report
    obtain ⟨before, d, split⟩ : ∃ before d, (ofSource text).diagnostics = before ++ [d] :=
      ⟨_, _, (List.dropLast_append_getLast found).symm⟩
    obtain ⟨inline, closed, opened⟩ := inline_diagnostics text split
    rw [split] at sorted byLine report ⊢
    obtain ⟨start, first, same⟩ := byLine.last_text sorted inline
    refine ⟨rows, last, byLine, ?_, fun none => ?_, fun comment some => ?_⟩
    · rw [report, List.map_append]
      exact Text.splitOn_intercalate (List.forall_mem_map.mpr (byLine.inline_front sorted inline)) _
    · rw [same]
      exact inline_append.mpr ⟨first, closed none⟩
    · refine ⟨start ++ "(", inline_append.mpr ⟨first, by decide⟩, ?_⟩
      rw [same, opened comment some]
      simp only [List.append_assoc]

/-- The rows of the report are its lines, unless newlines are shown of a comment that is not closed. -/
theorem rows_are_lines_iff :
    (∃ rows, ByLine Diagnostic.line (ofSource text).diagnostics rows ∧
      Text.splitOn '\n'.toUInt8 (Diagnostic.renderAll .lexical (ofSource text).diagnostics) =
        rows.map (Row.text Diagnostic.message)) ↔
      ∀ comment, openComment? text = some comment → '\n'.toUInt8 ∉ comment.take 7 := by
  obtain ⟨rows, last, byLine, report, closed, opened⟩ := errors_by_line found
  constructor
  · rintro ⟨rows', byLine', lines⟩ comment some newline
    obtain rfl := byLine'.unique byLine
    rw [report, List.map_append] at lines
    have whole := Text.splitOn_eq_singleton_iff.mp (List.append_cancel_left lines)
    obtain ⟨start, _, same⟩ := opened comment some
    refine whole ?_
    rw [same]
    exact List.mem_append_left _ (List.mem_append_right _ (newline_mem_shownComment.mpr newline))
  · intro short
    have inline : Inline (last.text Diagnostic.message) := by
      cases unclosed : openComment? text with
      | none => exact closed unclosed
      | some comment =>
        obtain ⟨start, first, same⟩ := opened comment unclosed
        have shown : Inline (shownComment comment) := fun newline =>
          short comment unclosed (newline_mem_shownComment.mp newline)
        rw [same]
        exact inline_append.mpr ⟨inline_append.mpr ⟨first, shown⟩, by decide⟩
    refine ⟨rows ++ [last], byLine, ?_⟩
    rw [report, Text.splitOn_of_not_mem inline, List.map_append, List.map_singleton]

end Errors

end TokenStream

end Inline

/-- Both reports on a text have one row for each line, in the order of the lines, and each row lists all that is on its
    line in the order of the source. The listing of the tokens leaves out the end of the source, and its rows are its
    lines. The rows of the report of the lexical errors are its lines if and only if it shows no newline of a comment that
    is not closed; otherwise the last row, which ends in the start of the comment, is broken at those newlines. The
    reports are those of a compilation. -/
theorem reports_by_line (text : Text) :
    let stream := TokenStream.ofSource text
    let tokens := stream.all.filter fun t => t.terminal ≠ .eof
    let ds := stream.diagnostics
    let lines := Text.splitOn '\n'.toUInt8 (Diagnostic.renderAll .lexical ds)
    (∃ rows, Report.ByLine (fun t : Token => t.line) tokens rows ∧
      Text.splitOn '\n'.toUInt8 (TokenListing.ofTokens stream.all) =
        rows.map (Report.Row.text fun t => t.lexeme.render) ++ [[]]) ∧
    (ds ≠ [] → (∃ rows last, Report.ByLine Diagnostic.line ds (rows ++ [last]) ∧
      lines = rows.map (Report.Row.text Diagnostic.message) ++ Text.splitOn '\n'.toUInt8 (last.text Diagnostic.message) ∧
      (Segment.openComment? text = none → '\n'.toUInt8 ∉ last.text Diagnostic.message) ∧
      ∀ comment, Segment.openComment? text = some comment → ∃ start, '\n'.toUInt8 ∉ start ∧
        last.text Diagnostic.message = start ++ Segment.shownComment comment ++ ", Unclosed comment)") ∧
      ((∃ rows, Report.ByLine Diagnostic.line ds rows ∧ lines = rows.map (Report.Row.text Diagnostic.message)) ↔
        ∀ comment, Segment.openComment? text = some comment → '\n'.toUInt8 ∉ comment.take 7)) ∧
    ∀ c, compile text = .ok c → c.stream = stream ∧ c.diagnostics.lexical = ds := by
  intro stream tokens ds lines
  refine ⟨TokenStream.listing_by_line text, fun found => ?_, fun c compiles => ?_⟩
  · exact ⟨TokenStream.errors_by_line found, TokenStream.rows_are_lines_iff found⟩
  · obtain ⟨g, assembly, _, _, rfl⟩ := generated_of_compile compiles
    exact ⟨rfl, rfl⟩

/-- A row that is broken inside a message. The second line is headed like a row of its own. -/
theorem row_broken_by_comment :
    let ds := (TokenStream.ofSource "$ /*\n1.\tab").diagnostics
    let lines := Text.splitOn '\n'.toUInt8 (Diagnostic.renderAll .lexical ds)
    lines = ["1.\t($, Invalid input) (/*", "1.\ta..., Unclosed comment)"] ∧
      ¬ ∃ rows, Report.ByLine Diagnostic.line ds rows ∧ lines = rows.map (Report.Row.text Diagnostic.message) := by
  have found : (TokenStream.ofSource "$ /*\n1.\tab").diagnostics ≠ [] := by decide +kernel
  have comment : Segment.openComment? "$ /*\n1.\tab" = some "/*\n1.\tab" := by decide +kernel
  refine ⟨by decide +kernel, fun rows => ?_⟩
  exact (TokenStream.rows_are_lines_iff found).mp rows _ comment (by decide)

end MiniC
