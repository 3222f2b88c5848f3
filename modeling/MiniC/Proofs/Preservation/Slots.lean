import MiniC.Proofs.Preservation.Basic

namespace MiniC

open Reference (variablesIn variablesAll)

namespace Translation

variable {code : Array Instruction} {frame : List Slot} {Γ : Scoped Home}

theorem declaration_succ {i : Nat} {s : Slot} (found : frame[i]? = some s) :
    declaration frame (i + 1) = declaration frame i + if s.kind = .var then 1 else 0 := by
  simp [declaration, List.take_add_one, found, List.countP_cons]

structure Declares (frame : List Slot) (lo count hi : Nat) : Prop where
  le : lo ≤ hi
  count : declaration frame hi = declaration frame lo + count
  sizes : ∀ i, lo ≤ i → i < hi → ∃ s, frame[i]? = some s ∧ 0 ≤ s.size.toInt

theorem Declares.trans {i j k m n : Nat} (first : Declares frame i m j) (second : Declares frame j n k) :
    Declares frame i (m + n) k := by
  refine ⟨Nat.le_trans first.le second.le, by rw [second.count, first.count, Nat.add_assoc], fun l after before => ?_⟩
  by_cases earlier : l < j
  · exact first.sizes l after earlier
  · exact second.sizes l (by omega) before

theorem Declares.single {i : Nat} {s : Slot} (found : frame[i]? = some s) (positive : 0 ≤ s.size.toInt) :
    Declares frame i (if s.kind = .var then 1 else 0) (i + 1) := by
  refine ⟨Nat.le_succ i, declaration_succ found, fun j after before => ?_⟩
  obtain rfl : j = i := by omega
  exact ⟨s, found, positive⟩

abbrev Temps (frame : List Slot) (lo hi : Nat) : Prop :=
  Declares frame lo 0 hi

theorem Temps.refl (i : Nat) : Temps frame i i :=
  ⟨Nat.le_refl i, rfl, fun _ _ _ => by omega⟩

theorem Temps.andDeclares {i j k n : Nat} (first : Temps frame i j) (second : Declares frame j n k) :
    Declares frame i n k := by
  have both := first.trans second
  rwa [Nat.zero_add] at both

theorem wordSize_positive : 0 ≤ wordSize.toInt := by
  decide

theorem Temp.temps {i : Nat} {o : Operand} (temp : Temp frame i o) : Temps frame i (i + 1) := by
  obtain ⟨s, found, kind, size, _⟩ := temp
  have single := Declares.single found (by rw [size]; exact wordSize_positive)
  rwa [kind] at single

theorem BaseCode.temps {location o : Operand} {isParam : Bool} {p q : Place}
    (h : BaseCode code frame location isParam p o q) : Temps frame p.slot q.slot := by
  cases h with
  | param => exact .refl _
  | own temp => exact temp.temps

theorem ArgsCode.temps {args : List Expr} {types : List Ty} {p q : Place}
    (each : ∀ e ∈ args, ∀ {p q : Place} {type : Ty} {o : Operand}, ExprCode code frame Γ e p type o q →
      Temps frame p.slot q.slot) (h : ArgsCode code frame Γ args p types q) : Temps frame p.slot q.slot := by
  induction args generalizing p types with
  | nil =>
    cases h
    exact .refl _
  | cons e rest ih =>
    have later := fun {p types} => @ih types p fun e member => each e (by simp [member])
    cases h with
    | word first _ others =>
      have rest := later others
      exact (each e (by simp) first).trans rest
    | array _ base _ others =>
      have rest := later others
      exact base.temps.trans rest

theorem ExprCode.temps (e : Expr) {p q : Place} {type : Ty} {o : Operand} (h : ExprCode code frame Γ e p type o q) :
    Temps frame p.slot q.slot := by
  induction e using Expr.induction generalizing p q type o with
  | missing => cases h
  | number n => cases h <;> exact .refl _
  | name id => cases h <;> exact .refl _
  | index id e ih =>
    cases h with
    | index first _ base temp => exact ((ih first).trans base.temps).trans temp.temps
  | call id args ih =>
    cases h with
    | @print _ e _ _ _ _ first =>
      have inner := ih e (by simp) first
      exact inner
    | procedure _ pushes =>
      have inner := pushes.temps ih
      exact inner
    | function _ pushes temp => exact (pushes.temps ih).trans temp.temps
  | unary op line e ih =>
    cases h with
    | unary first temp => exact (ih first).trans temp.temps
  | binary op line left right ihl ihr =>
    cases h with
    | binary _ first second temp => exact ((ihl first).trans (ihr second)).trans temp.temps
    | and first temp _ _ second => exact ((ihl first).trans temp.temps).trans (ihr second)
    | or first temp zero _ _ _ second => exact (((ihl first).trans temp.temps).trans zero.temps).trans (ihr second)
  | assign line target value iht ihv =>
    cases h with
    | assign _ first second =>
      have rest := ihv second
      exact (iht first).trans rest

theorem toInt_size {d : VarDecl} (fits : 4 * Reference.words d < 2 ^ 63) :
    (Int64.ofNat (Reference.words d) * wordSize).toInt = 4 * Reference.words d := by
  have same : Int64.ofNat (Reference.words d) * wordSize = .ofNat (4 * Reference.words d) := by
    rw [Nat.mul_comm, Int64.ofNat_mul]
    rfl
  rw [same, Int64.toInt_ofNat_of_lt fits]
  rfl

theorem VarsPlaced.declares {i : Nat} {vars : List VarDecl} {homes : Bindings Home}
    (placed : VarsPlaced frame i vars homes) (fits : ∀ d ∈ vars, 4 * Reference.words d < 2 ^ 63) :
    Declares frame i vars.length (i + vars.length) := by
  induction placed with
  | nil => exact Temps.refl _
  | @cons i d rest homes s found kind size placed ih =>
    have positive : 0 ≤ s.size.toInt := by
      rw [size, toInt_size (fits d (by simp))]
      omega
    have first := Declares.single found positive
    rw [if_pos kind] at first
    have both := first.trans (ih fun d member => fits d (by simp [member]))
    rwa [Nat.add_assoc, Nat.add_comm 1] at both

theorem ParamsPlaced.declares {i : Nat} {params : List Param} {homes : Bindings Home}
    (placed : ParamsPlaced frame i params homes) : Temps frame i (i + params.length) := by
  induction placed with
  | nil => exact .refl _
  | @cons i type id isArray params homes s found kind size _ ih =>
    have first := Declares.single found (by rw [size]; exact wordSize_positive)
    rw [kind] at first
    have both := first.trans ih
    rwa [Nat.add_assoc, Nat.add_comm 1] at both

theorem StmtsCode.declares {result : TypeName} {loop : Option Turn} {body : List Stmt} {p q : Place}
    (each : ∀ s ∈ body, ∀ {loop : Option Turn} {Γ : Scoped Home} {p q : Place},
      StmtCode code frame result loop Γ s p q → (∀ d ∈ variablesIn s, 4 * Reference.words d < 2 ^ 63) →
      Declares frame p.slot (variablesIn s).length q.slot)
    (h : StmtsCode code frame result loop Γ body p q) (fits : ∀ d ∈ variablesAll body, 4 * Reference.words d < 2 ^ 63) :
    Declares frame p.slot (variablesAll body).length q.slot := by
  induction body generalizing p with
  | nil =>
    cases h
    exact Temps.refl _
  | cons s rest ih =>
    cases h with
    | cons first others =>
      rw [variablesAll] at fits ⊢
      rw [List.length_append]
      have inner := ih (fun s member => each s (by simp [member])) others fun d member => fits d (by simp [member])
      exact (each s (by simp) first fun d member => fits d (by simp [member])).trans inner

theorem StmtCode.declares {result : TypeName} (s : Stmt) {loop : Option Turn} {Γ : Scoped Home} {p q : Place}
    (h : StmtCode code frame result loop Γ s p q) (fits : ∀ d ∈ variablesIn s, 4 * Reference.words d < 2 ^ 63) :
    Declares frame p.slot (variablesIn s).length q.slot := by
  induction s using Stmt.induction generalizing loop Γ p q with
  | skipped => cases h
  | empty =>
    cases h
    exact Temps.refl _
  | expr e =>
    cases h with
    | expr first => exact first.temps
  | block vars body ih =>
    cases h with
    | block placed body =>
      rw [variablesIn] at fits ⊢
      rw [List.length_append]
      have inner := StmtsCode.declares ih body fun d member => fits d (by simp [member])
      exact (placed.declares fun d member => fits d (by simp [member])).trans inner
  | ifThen line e body ih =>
    cases h with
    | ifThen test _ first =>
      have inner := ih first fits
      exact test.temps.andDeclares inner
  | ifElse line e body orElse ih ih' =>
    cases h with
    | ifElse test _ first _ second =>
      rw [variablesIn] at fits ⊢
      rw [List.length_append]
      have inner := ih first fun d member => fits d (by simp [member])
      have inner' := ih' second fun d member => fits d (by simp [member])
      exact (test.temps.andDeclares inner).trans inner'
  | loop line e body ih =>
    cases h with
    | loop test _ first =>
      have inner := ih first fits
      exact test.temps.andDeclares inner
  | ret line value =>
    cases h with
    | ret => exact Temps.refl _
    | value _ first => exact first.temps
  | leave line =>
    cases h
    exact Temps.refl _
  | again line =>
    cases h
    exact Temps.refl _

end Translation

end MiniC
