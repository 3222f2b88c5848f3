import Mathlib.Order.Defs.PartialOrder
import MiniC.Proofs.Parsing.Steps

namespace MiniC

theorem SyntaxError.message_eq_iff (e : SyntaxError) : e.message = "Unexpected EOF" ↔ e = .unexpectedEnd := by
  have other {first : Text} (filled : 1 ≤ first.length) (differs : first.take 1 ≠ ("Unexpected EOF" : Text).take 1)
      (text : Text) : first ++ text ≠ "Unexpected EOF" := by
    intro same
    apply differs
    rw [← same, List.take_append_of_le_length filled]
  cases e with
  | missing what => exact iff_of_false (other (by decide) (by decide) what) (by simp)
  | illegal lexeme => exact iff_of_false (other (by decide) (by decide) lexeme) (by simp)
  | unexpectedEnd => exact iff_of_true rfl rfl

theorem pairwise_twice {α : Type} [Preorder α] (before : List α) {behind : List α} {line : α}
    (sorted : (before ++ line :: behind).Pairwise (· ≤ ·)) : (before ++ line :: line :: behind).Pairwise (· ≤ ·) := by
  obtain ⟨first, second, across⟩ := List.pairwise_append.mp sorted
  have twice : ∀ l ∈ line :: behind, line ≤ l := by
    intro l member
    rcases List.mem_cons.mp member with rfl | member
    · exact le_refl l
    · exact List.rel_of_pairwise_cons second member
  refine List.pairwise_append.mpr ⟨first, List.pairwise_cons.mpr ⟨twice, second⟩, ?_⟩
  intro l earlier l' later
  rcases List.mem_cons.mp later with rfl | later
  · exact across l earlier l' List.mem_cons_self
  · exact across l earlier l' later

def TokenStream.lines (stream : TokenStream) : List Nat :=
  stream.tokens.map Token.line ++ [stream.endLine]

theorem TokenStream.lines_ofSegments (line : Nat) (segments : List Segment) :
    (line :: (ofSegments line segments).lines).Pairwise (· ≤ ·) := by
  induction segments generalizing line with
  | nil => simp [ofSegments, lines]
  | cons segment rest ih =>
    obtain ⟨behind, later⟩ := List.pairwise_cons.mp (ih (line + segment.text.newlines))
    have sorted : (line :: (ofSegments (line + segment.text.newlines) rest).lines).Pairwise (· ≤ ·) :=
      List.pairwise_cons.mpr ⟨fun l member => Nat.le_trans (Nat.le_add_right _ _) (behind l member), later⟩
    unfold ofSegments
    cases segment.kind with
    | token terminal => exact pairwise_twice [] sorted
    | malformed error => exact sorted
    | blank => exact sorted
    | comment => exact sorted

namespace Parser

def State.ahead (s : State) : List Int :=
  s.tokens.map (fun t => (t.line : Int)) ++ [(s.endLine : Int)]

/-- The errors are in order, and what can still be reported lies behind them. -/
inductive Ordered (s : State) : Prop where
  | going (ended : s.ended = false) (early : ∀ e ∈ s.errors.toList, e.cause ≠ .unexpectedEnd)
      (lines : (s.errors.toList.map Located.line ++ (s.lastLine : Int) :: s.ahead).Pairwise (· ≤ ·))
  | closed (ended : s.ended = true) {before : List (Located SyntaxError)}
      (errors : s.errors.toList = before ++ [⟨s.endLine, .unexpectedEnd⟩]) (early : ∀ e ∈ before, e.cause ≠ .unexpectedEnd)
      (lines : (before.map Located.line ++ [(s.endLine : Int)]).Pairwise (· ≤ ·))

theorem reporting_of_ended {s : State} (ended : s.ended = true) (line : Nat) (cause : SyntaxError) :
    s.reporting line cause = s := by
  rw [State.reporting, if_pos ended]

theorem reporting_of_going {s : State} (ended : s.ended = false) (line : Nat) (cause : SyntaxError) :
    s.reporting line cause = { s with errors := s.errors.push ⟨line, cause⟩ } := by
  rw [State.reporting, if_neg (by simp [ended])]

theorem Move.of_ended {s s' : State} (move : Move s s') (ended : s.ended = true) :
    s'.ended = true ∧ s'.errors = s.errors ∧ s'.endLine = s.endLine := by
  cases move with
  | take tokens => exact ⟨ended, rfl, rfl⟩
  | reject tokens other recovery =>
    rw [reporting_of_ended ended]
    exact ⟨ended, rfl, rfl⟩
  | miss what =>
    rw [reporting_of_ended ended]
    exact ⟨ended, rfl, rfl⟩
  | stop =>
    rw [reporting_of_ended ended]
    exact ⟨rfl, rfl, rfl⟩
  | keep recovery => exact ⟨ended, rfl, rfl⟩

theorem ahead_of_cons {s : State} {t : Token} {rest : List Token} (tokens : s.tokens = t :: rest) :
    s.ahead = (t.line : Int) :: { s with tokens := rest }.ahead := by
  rw [State.ahead, tokens]
  rfl

theorem ordered_report {s : State} (ended : s.ended = false) (early : ∀ e ∈ s.errors.toList, e.cause ≠ .unexpectedEnd)
    {line : Nat} (lines : (s.errors.toList.map Located.line ++ (line : Int) :: s.ahead).Pairwise (· ≤ ·))
    {cause : SyntaxError} (other : cause ≠ .unexpectedEnd) :
    Ordered { s with errors := s.errors.push ⟨line, cause⟩, lastLine := line } := by
  refine .going ended ?_ ?_
  · intro e member
    rcases List.mem_append.mp (Array.toList_push ▸ member) with member | member
    · exact early e member
    · rw [List.mem_singleton.mp member]
      exact other
  · rw [Array.toList_push, List.map_append, List.append_assoc]
    exact pairwise_twice _ lines

theorem Move.ordered {s s' : State} (move : Move s s') (ordered : Ordered s) : Ordered s' := by
  rcases ordered with ⟨ended, early, lines⟩ | ⟨ended, errors, early, lines⟩
  · -- Once the next token is taken, its line stands in the place of the last one's.
    have next {t : Token} {rest : List Token} (tokens : s.tokens = t :: rest) :
        (s.errors.toList.map Located.line ++ (t.line : Int) :: { s with tokens := rest }.ahead).Pairwise (· ≤ ·) := by
      rw [← ahead_of_cons tokens]
      exact lines.sublist ((List.Sublist.refl _).append (List.sublist_cons_self _ _))
    cases move with
    | take tokens => exact .going ended early (next tokens)
    | @reject t rest tokens cause other recovery =>
      rw [reporting_of_going ended]
      exact ordered_report (s := { s with tokens := rest, taken := s.taken + 1, recovery := recovery })
        ended early (next tokens) other
    | miss what =>
      rw [reporting_of_going ended]
      exact ordered_report ended early lines (by simp)
    | stop =>
      rw [reporting_of_going ended]
      refine .closed rfl Array.toList_push early (lines.sublist ((List.Sublist.refl _).append ?_))
      exact .cons _ (List.sublist_append_right _ _)
    | keep recovery => exact .going ended early lines
  · obtain ⟨ended', errors', endLine⟩ := move.of_ended ended
    rw [← endLine] at errors lines
    exact .closed ended' (errors'.symm ▸ errors) early lines

theorem ordered_start (text : Text) : Ordered (.start (.ofSource text)) := by
  let stream := TokenStream.ofSource text
  have first : ∃ behind, stream.lines = (State.start stream).lastLine :: behind := by
    unfold TokenStream.lines State.start
    cases stream.tokens with
    | nil => exact ⟨[], rfl⟩
    | cons t rest => exact ⟨_, rfl⟩
  obtain ⟨behind, lines⟩ := first
  have sorted : stream.lines.Pairwise (· ≤ ·) := (TokenStream.lines_ofSegments 1 (Segment.cut text)).of_cons
  rw [lines] at sorted
  have ahead : (State.start stream).ahead = stream.lines.map Int.ofNat := by
    simp [State.ahead, TokenStream.lines, State.start]
  refine .going rfl (by simp [State.start]) ?_
  show ((((State.start stream).lastLine : Nat) : Int) :: (State.start stream).ahead).Pairwise (· ≤ ·)
  rw [ahead, lines]
  exact (pairwise_twice [] sorted).map Int.ofNat fun _ _ => Int.ofNat_le.mpr

theorem Ordered.sorted {s : State} (ordered : Ordered s) :
    (s.errors.toList.map Located.line ++ [(s.endLine : Int)]).Pairwise (· ≤ ·) := by
  rcases ordered with ⟨_, _, lines⟩ | ⟨_, errors, _, lines⟩
  · refine lines.sublist ((List.Sublist.refl _).append ?_)
    exact .cons _ (List.sublist_append_right _ _)
  · rw [errors, List.map_append, List.append_assoc]
    exact pairwise_twice _ lines

theorem Ordered.last {s : State} (ordered : Ordered s) {first after : List (Located SyntaxError)}
    {e : Located SyntaxError} (split : s.errors.toList = first ++ e :: after) (cause : e.cause = .unexpectedEnd) :
    after = [] ∧ e.line = s.endLine := by
  cases ordered with
  | going _ early _ => exact absurd cause (early e (by simp [split]))
  | @closed _ before errors early _ =>
    rw [split] at errors
    rcases List.eq_nil_or_concat after with rfl | ⟨init, x, rfl⟩
    · obtain ⟨_, same⟩ := List.append_inj' errors rfl
      rw [(List.cons.inj same).1]
      exact ⟨rfl, rfl⟩
    · -- The error would be one of those before the end.
      have longer : (first ++ e :: init) ++ [x] = before ++ [⟨s.endLine, .unexpectedEnd⟩] := by simpa using errors
      have same := (List.append_inj' longer rfl).1
      exact absurd cause (early e (by simp [← same]))

end Parser

/-- The syntax errors of a text come in the order of their lines, none of them behind the end of the source. The
    end itself is reported at its line, and nothing is reported after it. The errors are those that a compilation
    shows. -/
theorem syntactic_in_order (text : Text) :
    let ds := (parsedText text).diagnostics
    let last : Int := (TokenStream.ofSource text).endToken.line
    (ds.map Diagnostic.line ++ [last]).Pairwise (· ≤ ·) ∧
    (∀ before d after, ds = before ++ d :: after → d.message = Text.ofString "Unexpected EOF" →
      after = [] ∧ d.line = last) ∧
    ∀ c, compile text = .ok c → c.diagnostics.syntactic = ds := by
  intro ds last
  let start := Parser.State.start (.ofSource text)
  let final := (Parser.source.run start).2
  have ordered : Parser.Ordered final :=
    Parser.Moves.invariant Parser.Move.ordered (Parser.moving_source start) (Parser.ordered_start text)
  have endLine : (final.endLine : Int) = last := by
    obtain ⟨n, steps⟩ := Parser.steady_source start
    exact congrArg Int.ofNat steps.endLine_eq
  refine ⟨?_, ?_, ?_⟩
  · have same : ds.map Diagnostic.line = final.errors.toList.map Located.line := List.map_map
    rw [same, ← endLine]
    exact ordered.sorted
  · intro first d after split message
    obtain ⟨es, behind, all, rfl, tail⟩ := List.map_eq_append_iff.mp split
    obtain ⟨e, es', rfl, rfl, rfl⟩ := List.map_eq_cons_iff.mp tail
    obtain ⟨nil, line⟩ := ordered.last all ((SyntaxError.message_eq_iff e.cause).mp message)
    exact ⟨by rw [nil, List.map_nil], line.trans endLine⟩
  · intro c compiles
    obtain ⟨g, assembly, _, _, rfl⟩ := generated_of_compile compiles
    rfl

example : (parsedText "int f()\n\x7b").diagnostics =
    [⟨.syntactic, 1, "missing void"⟩, ⟨.syntactic, 2, "Unexpected EOF"⟩] := by decide +kernel

end MiniC
