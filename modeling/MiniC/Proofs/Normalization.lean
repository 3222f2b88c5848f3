import MiniC.Proofs.Listing

namespace MiniC

namespace Operand

theorem parseWord_cases {t : Text} {isTarget : Bool} {o : Operand} (read : parseWord t isTarget = .ok o) :
    ∃ w, o = .slot w ∨ o = if isTarget then ⟨.label, w, false⟩ else .global w := by
  unfold parseWord at read
  split at read
  · split at read
    · cases read
      exact ⟨_, .inl rfl⟩
    · cases read
  · split at read
    · cases read
      exact ⟨_, .inr rfl⟩
    · cases read

theorem shown_of_parseWord {t : Text} {isTarget : Bool} {o : Operand} (read : parseWord t isTarget = .ok o) :
    o.Shown isTarget ∧ (isTarget = false → o.deref.Shown false) := by
  cases isTarget with
  | true =>
    refine ⟨?_, fun plain => by cases plain⟩
    obtain ⟨w, rfl | rfl⟩ := parseWord_cases read
    · exact .slotTarget
    · exact .label
  | false =>
    obtain ⟨w, rfl | rfl⟩ := parseWord_cases read
    · exact ⟨.slot, fun _ => .slot⟩
    · exact ⟨.global, fun _ => .global⟩

theorem shown_of_parse {t : Text} {isTarget : Bool} {o : Operand} (read : parse t isTarget = .ok o) : o.Shown isTarget := by
  unfold parse at read
  split at read
  · cases read
    exact .absent
  · split at read
    · split at read
      · cases read
        exact .imm
      · cases read
    · split at read
      · -- An indirect operand is refused where a jump target is wanted.
        rename_i rest _ _
        cases word : parseWord rest isTarget with
        | error e =>
          rw [word] at read
          cases read
        | ok direct =>
          rw [word] at read
          cases isTarget with
          | true => cases read
          | false =>
            cases read
            exact (shown_of_parseWord word).2 rfl
      · exact (shown_of_parseWord read).1

end Operand

namespace Listing

variable {i : Instruction}

theorem shown_of_parseOperand {op : Opcode} {position : Position} {field : Text} {o : Operand}
    (read : parseOperand op position field = .ok o) : o.Shown (op.target? = some position) := by
  unfold parseOperand at read
  cases parsed : Operand.parse field.trim (op.target? = some position) with
  | error e =>
    rw [parsed] at read
    cases read
  | ok o' =>
    rw [parsed] at read
    cases read
    exact Operand.shown_of_parse parsed

theorem shown_of_parseFields {fields : List Text} (read : parseFields fields = .ok i) : i.Shown := by
  unfold parseFields at read
  split at read
  · rename_i name first second third
    split at read
    · cases read
    · rename_i op known
      cases a1 : parseOperand op .first first with
      | error e => simp [a1, bind, Except.bind] at read
      | ok x =>
        cases a2 : parseOperand op .second second with
        | error e => simp [a1, a2, bind, Except.bind] at read
        | ok y =>
          cases a3 : parseOperand op .third third with
          | error e => simp [a1, a2, a3, bind, Except.bind] at read
          | ok z =>
            simp only [a1, a2, a3, bind, Except.bind, pure, Except.pure] at read
            cases read
            refine ⟨List.mem_of_find?_eq_some known, fun position => ?_⟩
            cases position with
            | first => exact shown_of_parseOperand a1
            | second => exact shown_of_parseOperand a2
            | third => exact shown_of_parseOperand a3
  · cases read

theorem shown_of_parseRow {row : Text} {wanted : Nat} (read : parseRow row wanted = .ok i) :
    i.Shown ∧ wanted < 2 ^ 63 := by
  unfold parseRow at read
  split at read
  · cases read
  · split at read
    · cases read
    · rename_i n _
      split at read
      · cases read
      · rename_i same
        have index : n.toInt = wanted := not_not.mp same
        have bound := n.toInt_lt
        split at read
        · cases read
        · exact ⟨shown_of_parseFields read, by omega⟩

theorem shown_of_parseRows {rows : List Text} {number : Nat} {code result : Array Instruction}
    (read : parseRows number code rows = .ok result) (shown : ∀ i ∈ code.toList, i.Shown) (small : code.size ≤ 2 ^ 63) :
    (∀ i ∈ result.toList, i.Shown) ∧ result.size ≤ 2 ^ 63 := by
  induction rows generalizing number code with
  | nil =>
    cases read
    exact ⟨shown, small⟩
  | cons row rest ih =>
    unfold parseRows at read
    split at read
    · cases read
    · split at read
      · exact ih read shown small
      · split at read
        · cases read
        · rename_i i found
          obtain ⟨first, index⟩ := shown_of_parseRow found
          refine ih read ?_ (by rw [Array.size_push]; exact index)
          rw [Array.toList_push]
          exact List.forall_mem_append.mpr ⟨shown, List.forall_mem_singleton.mpr first⟩

/-- What is read is the layout of instructions that a listing shows in full. -/
theorem layout_of_parse {t : Text} {p : Program} (read : parse t = .ok p) :
    (∀ i ∈ p.code.toList, i.Shown) ∧ p.code.size ≤ 2 ^ 63 ∧ p = layout p.code := by
  unfold parse at read
  cases rows : parseRows 1 #[] (t.splitOn '\n'.toUInt8) with
  | error e =>
    rw [rows] at read
    cases read
  | ok code =>
    rw [rows] at read
    cases read
    obtain ⟨shown, small⟩ := shown_of_parseRows rows (by simp) (Nat.zero_le _)
    exact ⟨shown, small, rfl⟩

/-- Whatever a text is read as, its listing is read as the same: with the same instructions, functions
    and size of the global data. -/
theorem parse_listing_of_parse {t : Text} {p : Program} (read : parse t = .ok p) : parse p.listing = .ok p := by
  obtain ⟨shown, small, same⟩ := layout_of_parse read
  rw [parse_listing_of_le shown small, ← same]

def oddText : Text :=
  "\n 0 ( CALL ,fp+-8,#+1 , )\r\n\n+1\t(JP, #-2,, )\n2\t (FUNC, #-9223372036854775808,\t#-0, @9223372036854775807)\n"

theorem parse_listing_of_parse_odd :
    ∃ p, parse oddText = .ok p ∧ p.code.size = 3 ∧ parse p.listing = .ok p := by
  have read : parse oddText = .ok (layout #[{ op := .call, a1 := .slot (-8), a2 := .imm 1 }, { op := .jp, a1 := .imm (-2) },
      { op := .func, a1 := .imm (-9223372036854775808), a2 := .imm 0,
        a3 := (Operand.global 9223372036854775807).deref }]) := by
    decide +kernel
  exact ⟨_, read, rfl, parse_listing_of_parse read⟩

end Listing

end MiniC
