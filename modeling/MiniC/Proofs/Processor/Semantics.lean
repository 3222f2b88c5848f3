import Mathlib.Algebra.Order.Ring.Int
import Mathlib.Logic.Function.Basic
import MiniC.Assembly.Lower

namespace MiniC.Assembly

abbrev Bytes := Word → UInt8

def Within (a : Word) (n : Nat) (b : Word) : Prop :=
  ∃ k < n, b = a + .ofNat k

def distance (a b : Word) : Nat :=
  (b - a).toBitVec.toNat

theorem add_distance (a b : Word) : a + .ofNat (distance a b) = b := by
  have same : Int64.ofNat (distance a b) = b - a := by
    rw [← Int64.toBitVec_inj, Int64.toBitVec_ofNat', distance, BitVec.ofNat_toNat, BitVec.setWidth_eq]
  rw [same, Int64.add_comm, Int64.sub_add_cancel]

theorem distance_add (a : Word) {k : Nat} (lt : k < 2 ^ 64) : distance a (a + .ofNat k) = k := by
  rw [distance, Int64.add_comm, Int64.add_sub_cancel, Int64.toBitVec_ofNat', BitVec.toNat_ofNat, Nat.mod_eq_of_lt lt]

theorem within_iff {a b : Word} {n : Nat} (le : n ≤ 2 ^ 64) : Within a n b ↔ distance a b < n := by
  constructor
  · rintro ⟨k, lt, rfl⟩
    rwa [distance_add a (by omega)]
  · intro lt
    exact ⟨distance a b, lt, (add_distance a b).symm⟩

theorem add_ofNat_add (a : Word) (j k : Nat) : a + .ofNat j + .ofNat k = a + .ofNat (j + k) := by
  rw [Int64.add_assoc, Int64.ofNat_add]

theorem add_ofNat_inj {a : Word} {j k : Nat} (hj : j < 2 ^ 64) (hk : k < 2 ^ 64) (same : a + .ofNat j = a + .ofNat k) :
    j = k := by
  rw [← distance_add a hj, same, distance_add a hk]

theorem not_within_of_le {a b : Word} {i m j n : Nat} (le : i + m ≤ j) (bound : j + n ≤ 2 ^ 64)
    (first : Within (a + .ofNat i) m b) : ¬ Within (a + .ofNat j) n b := by
  obtain ⟨k, k_lt, rfl⟩ := first
  rintro ⟨l, l_lt, same⟩
  rw [add_ofNat_add, add_ofNat_add] at same
  have := add_ofNat_inj (by omega) (by omega) same
  omega

namespace Within

variable {a b : Word} {i j m n : Nat}

theorem of_add (h : Within (a + .ofNat i) m b) (le : i + m ≤ n) : Within a n b := by
  obtain ⟨k, lt, rfl⟩ := h
  exact ⟨i + k, by omega, add_ofNat_add ..⟩

theorem mono (h : Within a m b) (le : m ≤ n) : Within a n b := by
  obtain ⟨k, lt, rfl⟩ := h
  exact ⟨k, by omega, rfl⟩

theorem not_above (h : Within a m b) (le : m ≤ j) (bound : j + n ≤ 2 ^ 64) : ¬ Within (a + .ofNat j) n b := by
  have start : a + .ofNat 0 = a := Int64.add_zero a
  rw [← start] at h
  exact not_within_of_le (by omega) bound h

end Within

namespace Bytes

variable {m m' : Bytes} {a b w : Word}

/-- The number in `n` bytes from an address on, the lowest one first. -/
def number (m : Bytes) (a : Word) : Nat → Nat
  | 0 => 0
  | n + 1 => number m a n + 256 ^ n * (m (a + .ofNat n)).toNat

def load (m : Bytes) (a : Word) : Word :=
  .ofBitVec (.ofNat 64 (m.number a 8))

def store (m : Bytes) (a w : Word) : Bytes :=
  fun b => if distance a b < 8 then .ofNat (w.toBitVec.toNat / 256 ^ distance a b) else m b

theorem number_congr {n : Nat} (same : ∀ b, Within a n b → m b = m' b) : m.number a n = m'.number a n := by
  induction n with
  | zero => rfl
  | succ n ih =>
    have before : m.number a n = m'.number a n := by
      apply ih
      rintro b ⟨k, lt, rfl⟩
      exact same _ ⟨k, by omega, rfl⟩
    rw [number, number, before, same _ ⟨n, by omega, rfl⟩]

theorem load_congr (same : ∀ b, Within a 8 b → m b = m' b) : m.load a = m'.load a := by
  rw [load, load, number_congr same]

theorem number_store {n : Nat} (le : n ≤ 8) : (m.store a w).number a n = w.toBitVec.toNat % 256 ^ n := by
  induction n with
  | zero => simp [number, Nat.mod_one]
  | succ n ih =>
    have byte : (m.store a w (a + .ofNat n)).toNat = w.toBitVec.toNat / 256 ^ n % 256 := by
      rw [store, distance_add a (by omega), if_pos (by omega), UInt8.toNat_ofNat']
    rw [number, ih (by omega), byte, Nat.mod_pow_succ]

@[simp]
theorem load_store : (m.store a w).load a = w := by
  have bound : w.toBitVec.toNat < 256 ^ 8 := w.toBitVec.isLt
  rw [load, number_store (Nat.le_refl 8), Nat.mod_eq_of_lt bound, BitVec.ofNat_toNat, BitVec.setWidth_eq,
    Int64.ofBitVec_toBitVec]

theorem store_of_not_within (outside : ¬ Within a 8 b) : m.store a w b = m b := by
  rw [within_iff (by decide)] at outside
  rw [store, if_neg outside]

theorem load_store_of_apart (apart : ∀ c, Within b 8 c → ¬ Within a 8 c) : (m.store a w).load b = m.load b :=
  load_congr fun c inside => store_of_not_within (apart c inside)

end Bytes

structure Flags where
  negative : Bool
  zero : Bool
  overflow : Bool

namespace Flags

def ofDifference (a b : Word) : Flags :=
  ⟨a - b < 0, a - b = 0, (a - b).toInt ≠ a.toInt - b.toInt⟩

def holds (f : Flags) : Condition → Bool
  | .eq => f.zero
  | .ne => !f.zero
  | .lt => f.negative != f.overflow
  | .ge => f.negative == f.overflow
  | .le => f.zero || f.negative != f.overflow
  | .gt => !f.zero && f.negative == f.overflow

theorem zero_ofDifference (a b : Word) : (ofDifference a b).zero = decide (a = b) := by
  have iff : a - b = 0 ↔ a = b := by
    rw [← Int64.toInt_inj, ← Int64.toInt_inj, Int64.toInt_sub, Int64.toInt_zero]
    have := a.toInt_lt
    have := a.le_toInt
    have := b.toInt_lt
    have := b.le_toInt
    rw [Int.bmod_def]
    split <;> omega
  simp only [ofDifference, iff]

/-- The sign of a difference tells which word is less, unless it overflows. -/
theorem negative_ofDifference (a b : Word) :
    ((ofDifference a b).negative != (ofDifference a b).overflow) = decide (a < b) := by
  have difference := Int64.toInt_sub a b
  have := a.toInt_lt
  have := a.le_toInt
  have := b.toInt_lt
  have := b.le_toInt
  simp only [ofDifference, Int64.lt_iff_toInt_lt, Int64.toInt_zero, difference, Int.bmod_def]
  -- Where a difference wraps around, its sign is wrong and the overflow flag says so.
  rw [Bool.eq_iff_iff, bne_iff_ne, ne_eq, decide_eq_decide, decide_eq_true_iff]
  split <;> omega

end Flags

def Condition.test (c : Condition) (a b : Word) : Bool :=
  match c with
  | .eq => a = b
  | .ne => a ≠ b
  | .lt => a < b
  | .le => a ≤ b
  | .gt => b < a
  | .ge => b ≤ a

theorem Flags.holds_ofDifference (a b : Word) (c : Condition) : (ofDifference a b).holds c = c.test a b := by
  have zero := zero_ofDifference a b
  have less := negative_ofDifference a b
  have notLess : ((ofDifference a b).negative == (ofDifference a b).overflow) = decide (b ≤ a) := by
    calc _ = !((ofDifference a b).negative != (ofDifference a b).overflow) := (Bool.not_not _).symm
      _ = decide (b ≤ a) := by
        rw [less, ← decide_not]
        simp only [Int64.lt_iff_toInt_lt, Int64.le_iff_toInt_le, Int.not_lt]
  cases c with
  | eq => exact zero
  | ne => simp only [holds, zero, Condition.test, decide_not]
  | lt => exact less
  | ge => exact notLess
  | le =>
    simp only [holds, zero, less, Condition.test, ← Bool.decide_or, Int64.lt_iff_toInt_lt, Int64.le_iff_toInt_le,
      ← Int64.toInt_inj, decide_eq_decide]
    omega
  | gt =>
    simp only [holds, zero, notLess, Condition.test, ← decide_not, ← Bool.decide_and, Int64.lt_iff_toInt_lt,
      Int64.le_iff_toInt_le, ← Int64.toInt_inj, decide_eq_decide]
    omega

structure Processor where
  x : Nat → Word
  sp : Word
  flags : Flags
  memory : Bytes
  pc : Word

namespace Processor

def half (w : Word) : Word :=
  w &&& 0xFFFFFFFF

def get (s : Processor) : Reg → Word
  | .x n => s.x n
  | .w n => half (s.x n)
  | .sp => s.sp

def set (s : Processor) (r : Reg) (w : Word) : Processor :=
  match r with
  | .x n => { s with x := Function.update s.x n w }
  | .w n => { s with x := Function.update s.x n (half w) }
  | .sp => { s with sp := w }

def address (s : Processor) : Mem → Word
  | .base r | .after r _ => s.get r
  | .offset r n | .before r n => s.get r + n

def moved (s : Processor) : Mem → Processor
  | .base _ | .offset _ _ => s
  | .before r n | .after r n => s.set r (s.get r + n)

def load (s : Processor) (a : Word) : Word :=
  s.memory.load a

def store (s : Processor) (a w : Word) : Processor :=
  { s with memory := s.memory.store a w }

def flagged (s : Processor) (f : Flags) : Processor :=
  { s with flags := f }

def goto (s : Processor) (a : Word) : Processor :=
  { s with pc := a }

end Processor

def pageMask : Word := 4095

def Place.address (labels : Label → Word) (p : Place) : Word :=
  labels p.label + p.offset

section Execution

open Processor

variable (labels : Label → Word)

def exec (s : Processor) : Instr → Processor
  | .movImm d n | .constant d n => s.set d n
  | .mov d a => s.set d (s.get a)
  | .ldr d m => (s.moved m).set d (s.load (s.address m))
  | .str a m => (s.moved m).store (s.address m) (s.get a)
  | .addImm d a n => s.set d (s.get a + n)
  | .add d a b => s.set d (s.get a + s.get b)
  | .addScaled d a b => s.set d (s.get a + s.get b * 8)
  | .adrp d p => s.set d (p.address labels &&& ~~~pageMask)
  | .addLow d a p => s.set d (s.get a + (p.address labels &&& pageMask))
  | .subImm d a n => s.set d (s.get a - n)
  | .sub d a b => s.set d (s.get a - s.get b)
  | .mul d a b => s.set d (s.get a * s.get b)
  -- The processor and `Word` agree that a division by zero gives zero.
  | .sdiv d a b => s.set d (s.get a / s.get b)
  | .msub d a b c => s.set d (s.get c - s.get a * s.get b)
  | .cmp a b => s.flagged (.ofDifference (s.get a) (s.get b))
  | .cset d c => s.set d (if s.flags.holds c then 1 else 0)
  | .storePair a b m => ((s.moved m).store (s.address m) (s.get a)).store (s.address m + 8) (s.get b)
  | .loadPair a b m => ((s.moved m).set a (s.load (s.address m))).set b (s.load (s.address m + 8))
  -- Every machine instruction takes four bytes.
  | .call _ => s.set (.x 30) (s.pc + 4)
  | .jump _ | .jumpIfZero _ _ | .ret => s

def next (s : Processor) : Instr → Word
  | .jump l | .call l => labels l
  | .jumpIfZero r l => if s.get r = 0 then labels l else s.pc + 4
  | .ret => s.x 30
  | _ => s.pc + 4

def run (s : Processor) (is : List Instr) : Processor :=
  is.foldl (exec labels) s

@[simp]
theorem run_nil (s : Processor) : run labels s [] = s :=
  rfl

@[simp]
theorem run_cons (s : Processor) (i : Instr) (is : List Instr) : run labels s (i :: is) = run labels (exec labels s i) is :=
  rfl

theorem run_append (s : Processor) (is is' : List Instr) : run labels s (is ++ is') = run labels (run labels s is) is' :=
  List.foldl_append

end Execution

def Instr.branches : Instr → Bool
  | .jump _ | .jumpIfZero _ _ | .call _ | .ret => true
  | _ => false

/-- Whether a load or a store of one register can reach an operand: offsets are scaled and take twelve
    bits, and a register is moved by what fits nine bits with a sign. -/
def Mem.reachable : Mem → Bool
  | .base _ => true
  | .offset _ n => 0 ≤ n ∧ n ≤ 32760 ∧ n % 8 = 0
  | .before _ n | .after _ n => -256 ≤ n ∧ n ≤ 255

def Mem.reachableByPair : Mem → Bool
  | .base _ => true
  | .offset _ n | .before _ n | .after _ n => -512 ≤ n ∧ n ≤ 504 ∧ n % 8 = 0

/-- Whether the numbers in an instruction fit the bits that it has for them. -/
def Instr.encodable : Instr → Bool
  | .movImm _ n => 0 ≤ n ∧ n ≤ 65535
  | .addImm _ _ n | .subImm _ _ n => 0 ≤ n ∧ n ≤ 4095
  | .ldr _ m | .str _ m => m.reachable
  | .storePair _ _ m | .loadPair _ _ m => m.reachableByPair
  | _ => true

namespace Processor

variable {s : Processor} {j k : Nat} {v w : Word} {m : Mem} {a : Word}

@[simp] theorem get_x : s.get (.x k) = s.x k := rfl
@[simp] theorem get_sp : s.get .sp = s.sp := rfl
@[simp] theorem x_set_self : (s.set (.x k) w).x k = w := Function.update_self ..
theorem x_set_of_ne (ne : j ≠ k) : (s.set (.x k) w).x j = s.x j := Function.update_of_ne ne ..
@[simp] theorem sp_set_x : (s.set (.x k) w).sp = s.sp := rfl
@[simp] theorem memory_set_x : (s.set (.x k) w).memory = s.memory := rfl
@[simp] theorem load_set_x : (s.set (.x k) w).load a = s.load a := rfl
@[simp] theorem x_set_sp : (s.set .sp w).x = s.x := rfl
@[simp] theorem sp_set_sp : (s.set .sp w).sp = w := rfl
@[simp] theorem memory_set_sp : (s.set .sp w).memory = s.memory := rfl
@[simp] theorem load_set_sp : (s.set .sp w).load a = s.load a := rfl
@[simp] theorem x_store : (s.store a w).x = s.x := rfl
@[simp] theorem sp_store : (s.store a w).sp = s.sp := rfl
@[simp] theorem memory_store : (s.store a w).memory = s.memory.store a w := rfl
@[simp] theorem x_flagged {f : Flags} : (s.flagged f).x = s.x := rfl
@[simp] theorem sp_flagged {f : Flags} : (s.flagged f).sp = s.sp := rfl
@[simp] theorem flags_flagged {f : Flags} : (s.flagged f).flags = f := rfl
@[simp] theorem memory_flagged {f : Flags} : (s.flagged f).memory = s.memory := rfl

@[simp]
theorem set_set : (s.set (.x k) v).set (.x k) w = s.set (.x k) w := by
  simp [set, Function.update_idem]

@[simp]
theorem set_self : s.set (.x k) (s.x k) = s := by
  simp [set, Function.update_eq_self]

@[simp] theorem pc_goto : (s.goto a).pc = a := rfl
@[simp] theorem x_goto : (s.goto a).x = s.x := rfl
@[simp] theorem sp_goto : (s.goto a).sp = s.sp := rfl
@[simp] theorem memory_goto : (s.goto a).memory = s.memory := rfl

end Processor

theorem exec_goto {labels : Label → Word} {i : Instr} (straight : i.branches = false) (s : Processor) (a : Word) :
    exec labels (s.goto a) i = (exec labels s i).goto a := by
  have get : ∀ r, (s.goto a).get r = s.get r := by
    intro r
    cases r <;> rfl
  have set : ∀ (s : Processor) r w, (s.goto a).set r w = (s.set r w).goto a := by
    intro s r w
    cases r <;> rfl
  have address : ∀ m, (s.goto a).address m = s.address m := by
    intro m
    cases m <;> simp only [Processor.address, get]
  have moved : ∀ m, (s.goto a).moved m = (s.moved m).goto a := by
    intro m
    cases m
    case base | offset => rfl
    case before | after => rw [Processor.moved, get, set, Processor.moved]
  cases i
  case jump | jumpIfZero | call | ret => cases straight
  all_goals simp only [exec, get, set, address, moved]
  all_goals rfl

theorem run_goto {labels : Label → Word} {is : List Instr} (straight : ∀ i ∈ is, i.branches = false) (s : Processor)
    (a : Word) : run labels (s.goto a) is = (run labels s is).goto a := by
  induction is generalizing s with
  | nil => rfl
  | cons i is ih =>
    rw [List.forall_mem_cons] at straight
    rw [run_cons, run_cons, exec_goto straight.1, ih straight.2]

end MiniC.Assembly
