import Mathlib.Data.List.Forall2
import MiniC.TestCase

namespace MiniC

namespace Markdown.Block

def test? : Block → Option Text
  | .heading title _ => ("Test: " : Text).isPrefixOf? title
  | .fence .. => none

def program? : Block → Option Text
  | .heading .. => none
  | .fence language rows _ => if language = TestCase.inputLanguage then some (TestCase.content rows) else none

def asserted? : Block → Option (AssertionKind × Text)
  | .heading .. => none
  | .fence language rows _ => (AssertionKind.ofName? language).map fun kind => (kind, TestCase.content rows)

def IsProse : Block → Prop
  | .heading .. => True
  | .fence language .. => language = []

def IsKnown (b : Block) : Prop :=
  b.IsProse ∨ b.program?.isSome = true ∨ b.asserted?.isSome = true

end Markdown.Block

namespace TestCase

open Markdown (Block)

/-- A heading that opens a test case, with the blocks up to the next one. -/
structure Part where
  name : Text
  line : Nat
  body : List Block
  closed : ∀ b ∈ body, b.test? = none

namespace Part

def blocks (p : Part) : List Block :=
  .heading ("Test: " ++ p.name) p.line :: p.body

def programs (p : Part) : List Text :=
  p.body.filterMap Block.program?

def asserted (p : Part) : List (AssertionKind × Text) :=
  p.body.filterMap Block.asserted?

end Part

/-- Blocks as the ones in front of all test cases and the parts. -/
structure Parted (blocks front : List Block) (parts : List Part) : Prop where
  split : blocks = front ++ parts.flatMap Part.blocks
  closed : ∀ b ∈ front, b.test? = none

/-- The assertion that a fence makes. One on the tree holds a pattern that can be read. -/
inductive Makes : AssertionKind × Text → Assertion → Prop where
  | tree {content : Text} {pattern : SExpr} : SExpr.read content = .ok pattern →
      Makes (.tree, content) ⟨.tree, content, some pattern⟩
  | other {kind : AssertionKind} (content : Text) : kind ≠ .tree → Makes (kind, content) ⟨kind, content, none⟩

/-- Whether a program is not empty, and only empty ones stand before it. -/
def LastOf (programs : List Text) (program : Text) : Prop :=
  program ≠ [] ∧ ∃ n, programs = List.replicate n [] ++ [program]

def IsComplete (t : TestCase) : Prop :=
  t.input ≠ [] ∧ t.assertions ≠ []

structure Part.Holds (p : Part) (t : TestCase) : Prop where
  name : t.name = p.name
  line : t.line = p.line
  known : ∀ b ∈ p.body, b.IsKnown
  program : LastOf p.programs t.input
  assertions : List.Forall₂ Makes p.asserted t.assertions
  asserts : t.assertions ≠ []

structure Grows (t : TestCase) (body : List Block) (t' : TestCase) : Prop where
  name : t'.name = t.name
  line : t'.line = t.line
  known : ∀ b ∈ body, b.IsKnown
  program : LastOf (t.input :: body.filterMap Block.program?) t'.input
  assertions : ∃ added, t'.assertions = t.assertions ++ added ∧ List.Forall₂ Makes (body.filterMap Block.asserted?) added
  asserts : t'.assertions ≠ []

theorem assertion_eq_ok_iff {kind : AssertionKind} {content : Text} {a : Assertion} :
    assertion kind content = .ok a ↔ Makes (kind, content) a := by
  unfold assertion
  split
  · rename_i tree
    subst tree
    constructor
    · intro made
      cases read : SExpr.read content with
      | error e =>
        rw [read] at made
        cases made
      | ok pattern =>
        rw [read] at made
        cases made
        exact .tree read
    · rintro (read | ⟨_, other⟩)
      · rw [read]
        rfl
      · contradiction
  · rename_i other
    constructor
    · intro made
      cases made
      exact .other content other
    · rintro (_ | _)
      · contradiction
      · rfl

theorem lastOf_singleton_iff {first program : Text} : LastOf [first] program ↔ program = first ∧ first ≠ [] := by
  constructor
  · rintro ⟨some, n, same⟩
    cases n with
    | zero =>
      cases same
      exact ⟨rfl, some⟩
    | succ n => simp [List.replicate_succ] at same
  · rintro ⟨rfl, some⟩
    exact ⟨some, 0, rfl⟩

theorem lastOf_cons_iff {first program : Text} {more : List Text} (follow : more ≠ []) :
    LastOf (first :: more) program ↔ first = [] ∧ LastOf more program := by
  constructor
  · rintro ⟨some, n, same⟩
    cases n with
    | zero =>
      cases same
      contradiction
    | succ n =>
      cases same
      exact ⟨rfl, some, n, rfl⟩
  · rintro ⟨rfl, some, n, rfl⟩
    exact ⟨some, n + 1, rfl⟩

theorem lastOf_empty_iff {program : Text} {programs : List Text} :
    LastOf ([] :: programs) program ↔ LastOf programs program := by
  cases programs with
  | nil =>
    refine iff_of_false (fun last => (lastOf_singleton_iff.mp last).2 rfl) ?_
    rintro ⟨_, n, same⟩
    simp at same
  | cons first more => simp [lastOf_cons_iff]

inductive Step (t : TestCase) : Block → TestCase → Prop where
  | prose {b : Block} : b.IsProse → Step t b t
  | program {b : Block} {program : Text} : b.program? = some program → t.input = [] → Step t b { t with input := program }
  | asserted {b : Block} {fence : AssertionKind × Text} {a : Assertion} : b.asserted? = some fence → Makes fence a →
      Step t b { t with assertions := t.assertions ++ [a] }

section Blocks

variable {b : Block} {rest : List Block} {t : TestCase} {cases : List TestCase}

theorem program?_of_isProse (prose : b.IsProse) : b.program? = none := by
  cases b with
  | heading => rfl
  | fence language rows line =>
    cases prose
    rfl

theorem asserted?_of_isProse (prose : b.IsProse) : b.asserted? = none := by
  cases b with
  | heading => rfl
  | fence language rows line =>
    cases prose
    rfl

theorem asserted?_of_program {program : Text} (found : b.program? = some program) : b.asserted? = none := by
  cases b with
  | heading => rfl
  | fence language rows line =>
    simp only [Block.program?, Option.ite_none_right_eq_some] at found
    cases found.1
    rfl

theorem program?_of_asserted {fence : AssertionKind × Text} (found : b.asserted? = some fence) : b.program? = none := by
  cases program : b.program? with
  | none => rfl
  | some input =>
    rw [asserted?_of_program program] at found
    cases found

theorem addFence_eq_ok_iff {language : Text} {rows : List Text} {line : Nat} {t' : TestCase} :
    t.addFence language rows line = .ok t' ↔ Step t (.fence language rows line) t' := by
  constructor
  · intro added
    unfold addFence at added
    split at added
    · rename_i prose
      cases added
      exact .prose (List.isEmpty_iff.mp prose)
    · split at added
      · rename_i input
        split at added
        · rename_i first
          cases added
          exact .program (if_pos input) (List.isEmpty_iff.mp first)
        · cases added
      · split at added
        · cases added
        · rename_i kind known
          split at added
          · rename_i a made
            cases added
            have found : Block.asserted? (.fence language rows line) = some (kind, content rows) := by
              rw [Block.asserted?, known]
              rfl
            exact .asserted found (assertion_eq_ok_iff.mp made)
          · cases added
  · intro step
    cases step with
    | prose prose =>
      cases prose
      rfl
    | program found first =>
      simp only [Block.program?, Option.ite_none_right_eq_some, Option.some.injEq] at found
      obtain ⟨rfl, rfl⟩ := found
      rw [addFence, if_neg (by decide), if_pos rfl, if_pos (List.isEmpty_iff.mpr first)]
    | asserted found made =>
      simp only [Block.asserted?, Option.map_eq_some_iff] at found
      obtain ⟨kind, known, rfl⟩ := found
      have some : ¬ language.isEmpty = true := by
        rintro empty
        rw [List.isEmpty_iff.mp empty] at known
        cases known
      have other : language ≠ inputLanguage := by
        rintro rfl
        cases known
      rw [addFence, if_neg some, if_neg other]
      simp only [known, assertion_eq_ok_iff.mpr made]

theorem finish_of_complete (complete : t.IsComplete) : t.finish = .ok t := by
  rw [finish, if_neg (List.isEmpty_iff.not.mpr complete.1), if_neg (List.isEmpty_iff.not.mpr complete.2)]

theorem finish_of_incomplete (incomplete : ¬ t.IsComplete) : ∃ e, t.finish = .error e := by
  unfold finish
  split
  · exact ⟨_, rfl⟩
  · rename_i input
    split
    · exact ⟨_, rfl⟩
    · rename_i assertions
      exact absurd ⟨List.isEmpty_iff.not.mp input, List.isEmpty_iff.not.mp assertions⟩ incomplete

theorem fromBlocks_nil : fromBlocks (some t) [] = .ok cases ↔ t.IsComplete ∧ cases = [t] := by
  rw [fromBlocks]
  by_cases complete : t.IsComplete
  · rw [finish_of_complete complete]
    simp [complete, Except.map, Except.mapError, eq_comm]
  · obtain ⟨e, failed⟩ := finish_of_incomplete complete
    rw [failed]
    simp [complete, Except.map, Except.mapError]

theorem fromBlocks_test {title name : Text} {line : Nat} (test : ("Test: " : Text).isPrefixOf? title = some name) :
    fromBlocks (some t) (.heading title line :: rest) = .ok cases ↔
      t.IsComplete ∧ ∃ later, fromBlocks none (.heading title line :: rest) = .ok later ∧ cases = t :: later := by
  rw [fromBlocks, fromBlocks]
  simp only [test]
  by_cases complete : t.IsComplete
  · rw [finish_of_complete complete]
    cases fromBlocks (some { name := name, line := line }) rest with
    | error e => simp [complete, Except.map, Except.mapError, bind, Except.bind, pure, Except.pure]
    | ok later => simp [complete, Except.map, Except.mapError, bind, Except.bind, pure, Except.pure, eq_comm]
  · obtain ⟨e, failed⟩ := finish_of_incomplete complete
    rw [failed]
    simp [complete, Except.map, Except.mapError, bind, Except.bind]

theorem fromBlocks_none_test {title name : Text} {line : Nat} (test : ("Test: " : Text).isPrefixOf? title = some name) :
    fromBlocks none (.heading title line :: rest) = fromBlocks (some { name := name, line := line }) rest := by
  rw [fromBlocks]
  simp only [test]
  cases fromBlocks (some { name := name, line := line }) rest <;> rfl

theorem fromBlocks_step (closed : b.test? = none) :
    fromBlocks (some t) (b :: rest) = .ok cases ↔ ∃ t', Step t b t' ∧ fromBlocks (some t') rest = .ok cases := by
  cases b with
  | heading title line =>
    have prose : Block.IsProse (.heading title line) := trivial
    have same : fromBlocks (some t) (.heading title line :: rest) = fromBlocks (some t) rest := by
      rw [fromBlocks]
      simp only [show ("Test: " : Text).isPrefixOf? title = none from closed]
    rw [same]
    constructor
    · intro later
      exact ⟨t, .prose prose, later⟩
    · rintro ⟨t', step, later⟩
      cases step with
      | prose => exact later
      | program found => cases found
      | asserted found => cases found
  | fence language rows line =>
    rw [fromBlocks]
    constructor
    · intro later
      cases added : t.addFence language rows line with
      | error e =>
        rw [added] at later
        cases later
      | ok t' =>
        rw [added] at later
        exact ⟨t', addFence_eq_ok_iff.mp added, later⟩
    · rintro ⟨t', step, later⟩
      rw [addFence_eq_ok_iff.mpr step]
      exact later

theorem fromBlocks_none_step (closed : b.test? = none) :
    fromBlocks none (b :: rest) = .ok cases ↔ b.IsProse ∧ fromBlocks none rest = .ok cases := by
  cases b with
  | heading title line =>
    have prose : Block.IsProse (.heading title line) := trivial
    rw [fromBlocks]
    simp only [show ("Test: " : Text).isPrefixOf? title = none from closed, prose, true_and]
  | fence language rows line =>
    rw [fromBlocks]
    by_cases empty : language = []
    · subst empty
      exact ⟨fun later => ⟨rfl, later⟩, fun later => later.2⟩
    · refine iff_of_false ?_ fun prose => empty prose.1
      intro later
      unfold outsideFence at later
      rw [if_neg (List.isEmpty_iff.not.mpr empty)] at later
      split at later <;> cases later

end Blocks

section Runs

variable {b : Block} {body : List Block} {t t' : TestCase}

theorem grows_nil : Grows t [] t' ↔ t.IsComplete ∧ t' = t := by
  constructor
  · rintro ⟨name, line, _, program, ⟨added, assertions, made⟩, asserts⟩
    obtain ⟨input, some⟩ := lastOf_singleton_iff.mp program
    cases made
    rw [List.append_nil] at assertions
    refine ⟨⟨some, assertions ▸ asserts⟩, ?_⟩
    rcases t with ⟨⟩
    rcases t' with ⟨⟩
    simp_all
  · rintro ⟨complete, rfl⟩
    exact ⟨rfl, rfl, by simp, lastOf_singleton_iff.mpr ⟨rfl, complete.1⟩, ⟨[], by simp⟩, complete.2⟩

theorem grows_cons : Grows t (b :: body) t' ↔ ∃ t₁, Step t b t₁ ∧ Grows t₁ body t' := by
  constructor
  · rintro ⟨name, line, known, program, ⟨added, assertions, made⟩, asserts⟩
    have later : ∀ b ∈ body, b.IsKnown := fun b' member => known b' (List.mem_cons_of_mem b member)
    rcases known b List.mem_cons_self with prose | found | found
    · simp only [List.filterMap_cons, program?_of_isProse prose, asserted?_of_isProse prose] at program made
      exact ⟨t, .prose prose, name, line, later, program, ⟨added, assertions, made⟩, asserts⟩
    · obtain ⟨input, found⟩ := Option.isSome_iff_exists.mp found
      simp only [List.filterMap_cons, found, asserted?_of_program found] at program made
      obtain ⟨first, program⟩ := (lastOf_cons_iff (List.cons_ne_nil _ _)).mp program
      exact ⟨_, .program found first, name, line, later, program, ⟨added, assertions, made⟩, asserts⟩
    · obtain ⟨fence, found⟩ := Option.isSome_iff_exists.mp found
      simp only [List.filterMap_cons, found, program?_of_asserted found] at program made
      obtain ⟨a, more, first, rest, rfl⟩ := List.forall₂_cons_left_iff.mp made
      refine ⟨_, .asserted found first, name, line, later, program, ⟨more, ?_, rest⟩, asserts⟩
      rw [assertions, List.append_assoc]
      rfl
  · rintro ⟨t₁, step, name, line, known, program, ⟨added, assertions, made⟩, asserts⟩
    have all (known' : b.IsKnown) : ∀ b' ∈ b :: body, b'.IsKnown := List.forall_mem_cons.mpr ⟨known', known⟩
    cases step with
    | prose prose =>
      refine ⟨name, line, all (.inl prose), ?_, ⟨added, assertions, ?_⟩, asserts⟩
      · simpa only [List.filterMap_cons, program?_of_isProse prose] using program
      · simpa only [List.filterMap_cons, asserted?_of_isProse prose] using made
    | program found first =>
      refine ⟨name, line, all (.inr (.inl (by rw [found]; rfl))), ?_, ⟨added, assertions, ?_⟩, asserts⟩
      · simp only [List.filterMap_cons, found]
        exact (lastOf_cons_iff (List.cons_ne_nil _ _)).mpr ⟨first, program⟩
      · simpa only [List.filterMap_cons, asserted?_of_program found] using made
    | @asserted _ a found first =>
      refine ⟨name, line, all (.inr (.inr (by rw [found]; rfl))), ?_, ⟨a :: added, ?_, ?_⟩, asserts⟩
      · simpa only [List.filterMap_cons, program?_of_asserted found] using program
      · rw [assertions, List.append_assoc]
        rfl
      · simp only [List.filterMap_cons, found]
        exact .cons first made

theorem Part.holds_iff_grows (p : Part) :
    p.Holds t ↔ Grows { name := p.name, line := p.line } p.body t := by
  constructor
  · rintro ⟨name, line, known, program, assertions, asserts⟩
    exact ⟨name, line, known, lastOf_empty_iff.mpr program, ⟨t.assertions, rfl, assertions⟩, asserts⟩
  · rintro ⟨name, line, known, program, ⟨added, assertions, made⟩, asserts⟩
    rw [List.nil_append] at assertions
    exact ⟨name, line, known, lastOf_empty_iff.mp program, assertions ▸ made, asserts⟩

variable {blocks : List Block} {cases : List TestCase} {front : List Block} {parts : List Part}

theorem test?_heading (name : Text) (line : Nat) : Block.test? (.heading ("Test: " ++ name) line) = some name :=
  List.isPrefixOf?_eq_some_iff_append_eq.mpr rfl

theorem heading_of_test {name : Text} (test : b.test? = some name) : ∃ line, b = .heading ("Test: " ++ name) line := by
  cases b with
  | heading title line => exact ⟨line, by rw [List.isPrefixOf?_eq_some_iff_append_eq.mp test]⟩
  | fence => cases test

theorem parted_nil : Parted [] front parts ↔ front = [] ∧ parts = [] := by
  constructor
  · rintro ⟨split, _⟩
    obtain ⟨empty, rest⟩ := List.append_eq_nil_iff.mp split.symm
    refine ⟨empty, ?_⟩
    cases parts with
    | nil => rfl
    | cons p parts => cases rest
  · rintro ⟨rfl, rfl⟩
    exact ⟨rfl, by simp⟩

theorem parted_closed (closed : b.test? = none) :
    Parted (b :: blocks) front parts ↔ ∃ more, front = b :: more ∧ Parted blocks more parts := by
  constructor
  · rintro ⟨split, each⟩
    cases front with
    | cons first more =>
      cases split
      exact ⟨more, rfl, rfl, fun b' member => each b' (List.mem_cons_of_mem b member)⟩
    | nil =>
      cases parts with
      | nil => cases split
      | cons p parts =>
        cases split
        rw [test?_heading] at closed
        cases closed
  · rintro ⟨more, rfl, rfl, each⟩
    exact ⟨rfl, List.forall_mem_cons.mpr ⟨closed, each⟩⟩

theorem parted_test {name : Text} {line : Nat} :
    Parted (.heading ("Test: " ++ name) line :: blocks) front parts ↔
      front = [] ∧ ∃ p later, p.name = name ∧ p.line = line ∧ parts = p :: later ∧ Parted blocks p.body later := by
  constructor
  · rintro ⟨split, each⟩
    cases front with
    | cons first more =>
      cases split
      have opens := each _ List.mem_cons_self
      rw [test?_heading] at opens
      cases opens
    | nil =>
      cases parts with
      | nil => cases split
      | cons p parts =>
        rw [List.nil_append, List.flatMap_cons, Part.blocks, List.cons_append] at split
        injection split with heading rest
        injection heading with title line
        exact ⟨rfl, p, parts, (List.append_cancel_left title).symm, line.symm, rfl, rest, p.closed⟩
  · rintro ⟨rfl, p, later, rfl, rfl, rfl, rfl, _⟩
    exact ⟨rfl, by simp⟩

/-- What becomes of an open test case: it grows up to the next one, and the parts behind hold the others. -/
def Continues (t : TestCase) (blocks : List Block) (cases : List TestCase) : Prop :=
  ∃ body parts t' later, Parted blocks body parts ∧ Grows t body t' ∧ cases = t' :: later ∧
    List.Forall₂ Part.Holds parts later

theorem fromBlocks_none_opened {name : Text} {line : Nat}
    (later : ∀ t cases, fromBlocks (some t) blocks = .ok cases ↔ Continues t blocks cases) :
    fromBlocks none (.heading ("Test: " ++ name) line :: blocks) = .ok cases ↔
      ∃ parts, Parted (.heading ("Test: " ++ name) line :: blocks) [] parts ∧ List.Forall₂ Part.Holds parts cases := by
  rw [fromBlocks_none_test (test?_heading name line), later]
  constructor
  · rintro ⟨body, parts, t', others, parted, grows, rfl, holds⟩
    let p : Part := ⟨name, line, body, parted.closed⟩
    refine ⟨p :: parts, parted_test.mpr ⟨rfl, p, parts, rfl, rfl, rfl, parted⟩, .cons ?_ holds⟩
    exact p.holds_iff_grows.mpr grows
  · rintro ⟨parts, parted, holds⟩
    obtain ⟨_, p, others, rfl, rfl, rfl, behind⟩ := parted_test.mp parted
    cases holds with
    | cons first holds => exact ⟨p.body, others, _, _, behind, p.holds_iff_grows.mp first, rfl, holds⟩

theorem fromBlocks_some_iff : ∀ t cases, fromBlocks (some t) blocks = .ok cases ↔ Continues t blocks cases := by
  induction blocks with
  | nil =>
    intro t cases
    rw [fromBlocks_nil]
    constructor
    · rintro ⟨complete, rfl⟩
      exact ⟨[], [], t, [], parted_nil.mpr ⟨rfl, rfl⟩, grows_nil.mpr ⟨complete, rfl⟩, rfl, .nil⟩
    · rintro ⟨body, parts, t', later, parted, grows, rfl, holds⟩
      obtain ⟨rfl, rfl⟩ := parted_nil.mp parted
      cases holds
      obtain ⟨complete, rfl⟩ := grows_nil.mp grows
      exact ⟨complete, rfl⟩
  | cons b blocks ih =>
    intro t cases
    cases test : b.test? with
    | none =>
      rw [fromBlocks_step test]
      simp only [ih]
      constructor
      · rintro ⟨t₁, step, body, parts, t', later, parted, grows, rest⟩
        exact ⟨b :: body, parts, t', later, (parted_closed test).mpr ⟨body, rfl, parted⟩,
          grows_cons.mpr ⟨t₁, step, grows⟩, rest⟩
      · rintro ⟨_, parts, t', later, parted, grows, rest⟩
        obtain ⟨body, rfl, behind⟩ := (parted_closed test).mp parted
        obtain ⟨t₁, step, grows⟩ := grows_cons.mp grows
        exact ⟨t₁, step, body, parts, t', later, behind, grows, rest⟩
    | some name =>
      obtain ⟨line, rfl⟩ := heading_of_test test
      rw [fromBlocks_test test]
      simp only [fromBlocks_none_opened ih]
      constructor
      · rintro ⟨complete, later, ⟨parts, parted, holds⟩, rfl⟩
        exact ⟨[], parts, t, later, parted, grows_nil.mpr ⟨complete, rfl⟩, rfl, holds⟩
      · rintro ⟨body, parts, t', later, parted, grows, rfl, holds⟩
        obtain ⟨rfl, _⟩ := parted_test.mp parted
        obtain ⟨complete, rfl⟩ := grows_nil.mp grows
        exact ⟨complete, later, ⟨parts, parted, holds⟩, rfl⟩

theorem fromBlocks_none_iff : fromBlocks none blocks = .ok cases ↔
    ∃ front parts, Parted blocks front parts ∧ (∀ b ∈ front, b.IsProse) ∧ List.Forall₂ Part.Holds parts cases := by
  induction blocks with
  | nil =>
    rw [fromBlocks]
    constructor
    · intro ended
      cases ended
      exact ⟨[], [], parted_nil.mpr ⟨rfl, rfl⟩, by simp, .nil⟩
    · rintro ⟨front, parts, parted, _, holds⟩
      obtain ⟨_, rfl⟩ := parted_nil.mp parted
      cases holds
      rfl
  | cons b blocks ih =>
    cases test : b.test? with
    | none =>
      rw [fromBlocks_none_step test, ih]
      constructor
      · rintro ⟨prose, front, parts, parted, each, holds⟩
        exact ⟨b :: front, parts, (parted_closed test).mpr ⟨front, rfl, parted⟩,
          List.forall_mem_cons.mpr ⟨prose, each⟩, holds⟩
      · rintro ⟨_, parts, parted, each, holds⟩
        obtain ⟨front, rfl, behind⟩ := (parted_closed test).mp parted
        obtain ⟨prose, each⟩ := List.forall_mem_cons.mp each
        exact ⟨prose, front, parts, behind, each, holds⟩
    | some name =>
      obtain ⟨line, rfl⟩ := heading_of_test test
      rw [fromBlocks_none_opened fromBlocks_some_iff]
      constructor
      · rintro ⟨parts, parted, holds⟩
        exact ⟨[], parts, parted, by simp, holds⟩
      · rintro ⟨front, parts, parted, _, holds⟩
        obtain ⟨rfl, _⟩ := parted_test.mp parted
        exact ⟨parts, parted, holds⟩

end Runs

theorem LastOf.single_iff {programs : List Text} {program : Text} (last : LastOf programs program) :
    programs = [program] ↔ [] ∉ programs := by
  obtain ⟨some, n, rfl⟩ := last
  cases n with
  | zero => simpa [eq_comm] using some
  | succ n => simp [List.replicate_succ]

theorem Part.tests_blocks (p : Part) : p.blocks.filterMap Block.test? = [p.name] := by
  have inner : p.body.filterMap Block.test? = [] := List.filterMap_eq_nil_iff.mpr p.closed
  rw [Part.blocks, List.filterMap_cons_some (test?_heading p.name p.line), inner]

theorem Parted.tests {blocks front : List Block} {parts : List Part} (parted : Parted blocks front parts) :
    blocks.filterMap Block.test? = parts.map Part.name := by
  rw [parted.split, List.filterMap_append, List.filterMap_eq_nil_iff.mpr parted.closed, List.nil_append,
    List.filterMap_flatMap]
  simp only [Part.tests_blocks]
  exact List.map_eq_flatMap.symm

/-- Blocks are accepted exactly if all before the first part is prose and each part holds a test case; the
    test cases are those of the parts, in order. There is a part for each heading that opens a test case. The
    program of a test case is the only one of its part exactly if no fence for a program is empty there. -/
theorem fromBlocks_eq_ok_iff (blocks : List Block) (cases : List TestCase) :
    (fromBlocks none blocks = .ok cases ↔
      ∃ front parts, Parted blocks front parts ∧ (∀ b ∈ front, b.IsProse) ∧ List.Forall₂ Part.Holds parts cases) ∧
      (∀ front parts, Parted blocks front parts → blocks.filterMap Block.test? = parts.map Part.name) ∧
      ∀ (p : Part) (t : TestCase), p.Holds t → (p.programs = [t.input] ↔ [] ∉ p.programs) :=
  ⟨fromBlocks_none_iff, fun _ _ parted => parted.tests, fun _ _ holds => holds.program.single_iff⟩

def twice : List Block :=
  [.heading "Test: twice" 1, .fence "cminus" [] 1, .fence "cminus" ["int x;\n"] 5, .fence "execute" ["1\n"] 8]

/-- A second fence for a program is accepted behind an empty one. -/
theorem two_programs_accepted :
    ∃ t, fromBlocks none twice = .ok [t] ∧ twice.filterMap Block.test? = [t.name] ∧
      twice.filterMap Block.program? = [[], t.input] :=
  ⟨⟨"twice", 1, "int x;", [⟨.execute, "1", none⟩]⟩, rfl, rfl, rfl⟩

end TestCase

end MiniC
