import Mathlib.Algebra.Order.Ring.Int
import MiniC.Text.Blank
import MiniC.Text.Decimal

namespace MiniC

theorem forall_byte {P : UInt8 → Prop} (all : ∀ n : Fin 256, P (.ofNat n)) (c : UInt8) : P c := by
  have known := all ⟨c.toNat, c.toNat_lt⟩
  rwa [UInt8.ofNat_toNat] at known

namespace Decimal

theorem isDigit_digit {n : Nat} (small : n < 10) : isDigit (digit n) = true := by
  have all : ∀ n < 10, isDigit (digit n) = true := by decide
  exact all n small

theorem value_digit {n : Nat} (small : n < 10) : (digit n - '0'.toUInt8).toNat = n := by
  have all : ∀ n < 10, (digit n - '0'.toUInt8).toNat = n := by decide
  exact all n small

theorem value_append (digits : Text) (c : UInt8) :
    value (digits ++ [c]) = 10 * value digits + (c - '0'.toUInt8).toNat := by
  simp [value, List.foldl_append]

theorem value_ofNat (n : Nat) : value (ofNat n) = n := by
  fun_induction ofNat n with
  | case1 n small =>
    have single := value_append [] (digit n)
    rw [value_digit small] at single
    simpa [value] using single
  | case2 n large ih =>
    rw [value_append, ih, value_digit (Nat.mod_lt n (by omega))]
    omega

theorem isDigit_of_mem_ofNat {n : Nat} {c : UInt8} (member : c ∈ ofNat n) : isDigit c = true := by
  fun_induction ofNat n with
  | case1 n small =>
    rw [List.mem_singleton.mp member]
    exact isDigit_digit small
  | case2 n large ih =>
    rcases List.mem_append.mp member with member | member
    · exact ih member
    · rw [List.mem_singleton.mp member]
      exact isDigit_digit (Nat.mod_lt n (by omega))

theorem ofNat_ne_nil (n : Nat) : ofNat n ≠ [] := by
  unfold ofNat
  split <;> simp

theorem toNat?_ofNat (n : Nat) : toNat? (ofNat n) = some n := by
  have digits : (ofNat n).all isDigit = true := List.all_eq_true.mpr fun _ member => isDigit_of_mem_ofNat member
  rw [toNat?, if_pos ⟨ofNat_ne_nil n, digits⟩, value_ofNat]

theorem toInt?_ofInt (n : Int) : toInt? (ofInt n) = some n := by
  cases n with
  | ofNat n =>
    have read := toNat?_ofNat n
    have digits : ∀ c ∈ ofNat n, isDigit c = true := fun _ member => isDigit_of_mem_ofNat member
    rw [ofInt]
    generalize ofNat n = t at read digits
    cases t with
    | nil => cases read
    | cons c rest =>
      have digit := digits c (by simp)
      have unsigned : c ≠ '-'.toUInt8 ∧ c ≠ '+'.toUInt8 := by
        constructor <;> rintro rfl <;> exact absurd digit (by decide)
      rw [toInt?, if_neg unsigned.1, if_neg unsigned.2, read]
      rfl
  | negSucc n =>
    rw [ofInt, toInt?, if_pos rfl, toNat?_ofNat]
    rfl

theorem toWord?_ofWord (w : Word) : toWord? (ofWord w) = some w := by
  have fits : fitsWord w.toInt = true := by
    simp only [fitsWord, decide_eq_true_eq]
    exact ⟨Int64.minValue_le_toInt w, Int64.toInt_le w⟩
  rw [toWord?, ofWord, toInt?_ofInt, Option.bind_some, if_pos fits, Int64.ofInt_toInt]

theorem toWord?_ofNat {n : Nat} (small : n < 2 ^ 63) : toWord? (ofNat n) = some (.ofInt n) := by
  have whole : (Int64.ofInt n).toInt = n := Int64.toInt_ofInt_of_le (by omega) (by omega)
  have written : ofWord (.ofInt n) = ofNat n := by rw [ofWord, whole]; rfl
  rw [← written]
  exact toWord?_ofWord _

theorem length_ofNat_le {n k : Nat} (bound : n < 10 ^ (k + 1)) : (ofNat n).length ≤ k + 1 := by
  fun_induction ofNat n generalizing k with
  | case1 n small => simp
  | case2 n large ih =>
    obtain ⟨k, rfl⟩ : ∃ j, k = j + 1 := ⟨k - 1, by
      cases k with
      | zero => omega
      | succ k => rfl⟩
    rw [Nat.pow_succ] at bound
    have shorter := ih (Nat.div_lt_of_lt_mul (by omega : n < 10 * 10 ^ (k + 1)))
    simp only [List.length_append, List.length_singleton]
    omega

theorem length_ofWord_le (w : Word) : (ofWord w).length ≤ 20 := by
  have low := Int64.minValue_le_toInt w
  have high := Int64.toInt_le w
  have least : Int64.minValue.toInt = -2 ^ 63 := by decide
  have greatest : Int64.maxValue.toInt = 2 ^ 63 - 1 := by decide
  rw [least] at low
  rw [greatest] at high
  unfold ofWord
  generalize w.toInt = z at low high
  cases z with
  | ofNat n =>
    have bound : n < 10 ^ 19 := by
      simp only [Int.ofNat_eq_natCast] at high
      omega
    have short := length_ofNat_le (k := 18) bound
    rw [ofInt]
    omega
  | negSucc n =>
    have bound : n + 1 < 10 ^ 19 := by omega
    have short := length_ofNat_le (k := 18) bound
    rw [ofInt, List.length_cons]
    omega

end Decimal

namespace Text

def isGraphic (c : UInt8) : Bool :=
  0x21 ≤ c ∧ c ≤ 0x7E

/-- A text of graphic bytes, none of which separates the operands of an instruction. -/
def Solid (t : Text) : Prop :=
  ∀ c ∈ t, isGraphic c = true ∧ c ≠ ','.toUInt8

instance (t : Text) : Decidable t.Solid :=
  List.decidableBAll (fun c => isGraphic c = true ∧ c ≠ ','.toUInt8) t

theorem Solid.append {s t : Text} (first : s.Solid) (second : t.Solid) : Solid (s ++ t) := by
  intro c member
  rcases List.mem_append.mp member with member | member
  · exact first c member
  · exact second c member

theorem Solid.nil : Solid [] :=
  fun _ member => nomatch member

theorem Solid.ne {t : Text} {c : UInt8} (solid : t.Solid) (other : isGraphic c = false) : c ∉ t := by
  intro member
  rw [(solid c member).1] at other
  cases other

theorem Solid.no_comma {t : Text} (solid : t.Solid) : ','.toUInt8 ∉ t :=
  fun member => (solid _ member).2 rfl

theorem isGraphic_of_isDigit {c : UInt8} (digit : Decimal.isDigit c = true) : isGraphic c = true ∧ c ≠ ','.toUInt8 := by
  have all : ∀ c, Decimal.isDigit c = true → isGraphic c = true ∧ c ≠ ','.toUInt8 := forall_byte (by decide +kernel)
  exact all c digit

theorem solid_ofNat (n : Nat) : Solid (Decimal.ofNat n) :=
  fun _ member => isGraphic_of_isDigit (Decimal.isDigit_of_mem_ofNat member)

theorem solid_ofWord (w : Word) : Solid (Decimal.ofWord w) := by
  unfold Decimal.ofWord
  cases w.toInt with
  | ofNat n => exact solid_ofNat n
  | negSucc n => exact Solid.append (s := ['-'.toUInt8]) (by decide) (solid_ofNat (n + 1))

theorem splitOn_of_not_mem {mark : UInt8} {t : Text} (absent : mark ∉ t) : splitOn mark t = [t] := by
  induction t with
  | nil => rfl
  | cons c rest ih =>
    rw [List.mem_cons, not_or] at absent
    rw [splitOn, if_neg (Ne.symm absent.1), ih absent.2]

theorem splitOn_append {mark : UInt8} {t : Text} (absent : mark ∉ t) (rest : Text) :
    splitOn mark (t ++ mark :: rest) = t :: splitOn mark rest := by
  induction t with
  | nil =>
    rw [List.nil_append, splitOn, if_pos rfl]
  | cons c t ih =>
    rw [List.mem_cons, not_or] at absent
    rw [List.cons_append, splitOn, if_neg (Ne.symm absent.1), ih absent.2]

theorem cut?_append {mark : UInt8} {t : Text} (absent : mark ∉ t) (rest : Text) :
    cut? mark (t ++ mark :: rest) = some (t, rest) := by
  induction t with
  | nil => rw [List.nil_append, cut?, if_pos rfl]
  | cons c t ih =>
    rw [List.mem_cons, not_or] at absent
    rw [List.cons_append, cut?, if_neg (Ne.symm absent.1), ih absent.2]
    rfl

/-- A text whose first and last bytes are graphic, if it has any. -/
structure Bounded (t : Text) : Prop where
  first : ∀ c, t.head? = some c → isGraphic c = true
  last : ∀ c, t.getLast? = some c → isGraphic c = true

theorem Solid.bounded {t : Text} (solid : t.Solid) : t.Bounded :=
  ⟨fun c first => (solid c (List.mem_of_head? first)).1, fun c last => (solid c (List.mem_of_getLast? last)).1⟩

theorem isPrefixOf?_of_ne {b c : UInt8} (differ : b ≠ c) (s t : Text) : (b :: s).isPrefixOf? (c :: t) = none :=
  if_neg (by simpa using differ)

theorem dropLeading_eq_self {marks : List Text} {t : Text} (first : ∀ c, t.head? = some c → isGraphic c = true)
    (other : ∀ mark ∈ marks, mark.head?.any (fun c => !isGraphic c) = true) : dropLeading marks t = t := by
  have clear : marks.findSome? (fun mark => mark.isPrefixOf? t) = none := by
    rw [List.findSome?_eq_none_iff]
    intro mark member
    have start := other mark member
    cases mark with
    | nil => cases start
    | cons b rest =>
      cases t with
      | nil => rfl
      | cons c t =>
        have graphic := first c rfl
        refine isPrefixOf?_of_ne ?_ rest t
        rintro rfl
        simp [graphic] at start
  rw [dropLeading, clear]

theorem trim_eq_self {t : Text} (bounded : t.Bounded) : trim t = t := by
  have leading : dropLeading blanks t = t := dropLeading_eq_self bounded.first (by decide)
  have trailing : dropLeading (blanks.map List.reverse) t.reverse = t.reverse := by
    refine dropLeading_eq_self (fun c last => bounded.last c ?_) (by decide)
    rwa [List.head?_reverse] at last
  rw [trim, leading, trailing, List.reverse_reverse]

theorem trim_blank {t : Text} (bounded : t.Bounded) : trim (0x20 :: t) = t := by
  have found : blanks.findSome? (fun mark => mark.isPrefixOf? ((0x20 : UInt8) :: t)) = some t := rfl
  have leading : dropLeading blanks (0x20 :: t) = dropLeading blanks t := by
    rw [dropLeading, found]
    simp
  have whole := trim_eq_self bounded
  rw [trim] at whole ⊢
  rw [leading, whole]

end Text

end MiniC
