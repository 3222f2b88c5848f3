import MiniC.Machine.Memory
import MiniC.Proofs.Reference.Semantics

namespace MiniC

open Reference (Block Store)

inductive Role where
  | cell (b : Block)
  | pointer
  | scratch
deriving DecidableEq

/-- The storage of the globals or of a call: where it starts, and the bytes of its slots. -/
structure Area where
  base : Nat
  sizes : List Nat
  role : Nat → Role

namespace Area

def offset (a : Area) (slot : Nat) : Nat :=
  (a.sizes.take slot).sum

def top (a : Area) : Nat :=
  a.base + a.sizes.sum

theorem offset_le (a : Area) (slot : Nat) : a.offset slot ≤ a.sizes.sum := by
  have parts := congrArg List.sum (List.take_append_drop slot a.sizes)
  rw [List.sum_append] at parts
  unfold offset
  omega

theorem offset_succ {a : Area} {slot size : Nat} (found : a.sizes[slot]? = some size) :
    a.offset (slot + 1) = a.offset slot + size := by
  simp [offset, List.take_add_one, found]

theorem offset_mono (a : Area) {i j : Nat} (le : i ≤ j) : a.offset i ≤ a.offset j := by
  have parts := congrArg List.sum (List.take_append_drop i (a.sizes.take j))
  rw [List.sum_append, List.take_take, Nat.min_eq_left le] at parts
  unfold offset
  omega

theorem offset_add_le {a : Area} {i j size : Nat} (found : a.sizes[i]? = some size) (lt : i < j) :
    a.offset i + size ≤ a.offset j := by
  rw [← offset_succ found]
  exact a.offset_mono lt

end Area

/-- A word of storage: its level, which is zero for globals, its slot, and its index there. -/
structure Spot where
  level : Nat
  slot : Nat
  index : Nat
deriving DecidableEq

abbrev Layout := Nat → Area

def Block.level : Block → Nat
  | .global _ => 0
  | .param level _ | .var level _ => level

namespace Layout

variable {A : Layout} {level : Nat} {s s' : Spot}

def role (A : Layout) (s : Spot) : Role :=
  (A s.level).role s.slot

def address (A : Layout) (s : Spot) : Nat :=
  (A s.level).base + (A s.level).offset s.slot + 4 * s.index

structure Live (A : Layout) (level : Nat) (s : Spot) : Prop where
  le : s.level ≤ level
  inside : ∃ size, (A s.level).sizes[s.slot]? = some size ∧ 4 * s.index + 4 ≤ size

/-- Areas that lie one after another, with a slot of its own for each variable. -/
structure Sound (A : Layout) (level : Nat) : Prop where
  apart : ∀ k < level, (A k).top ≤ (A (k + 1)).base
  bound : (A level).top < 2 ^ 63
  owned : ∀ k ≤ level, ∀ i b, (A k).role i = .cell b → Block.level b = k
  distinct : ∀ k ≤ level, ∀ i j b, (A k).role i = .cell b → (A k).role j = .cell b → i = j

theorem Sound.top_le (sound : A.Sound level) {i j : Nat} (lt : i < j) (le : j ≤ level) : (A i).top ≤ (A j).base := by
  induction j with
  | zero => omega
  | succ j ih =>
    have next := sound.apart j le
    rcases Nat.eq_or_lt_of_le (Nat.le_of_lt_succ lt) with rfl | lt
    · exact next
    · have before := ih lt (by omega)
      have inner : (A j).base ≤ (A j).top := Nat.le_add_right _ _
      omega

theorem Live.address_le (live : A.Live level s) : A.address s + 4 ≤ (A s.level).top := by
  obtain ⟨size, found, inside⟩ := live.inside
  have ends : (A s.level).offset (s.slot + 1) ≤ (A s.level).sizes.sum := Area.offset_le _ _
  rw [Area.offset_succ found] at ends
  unfold address Area.top
  omega

theorem Live.address_lt (sound : A.Sound level) (live : A.Live level s) : A.address s + 4 ≤ (A level).top := by
  have le := live.address_le
  rcases Nat.eq_or_lt_of_le live.le with same | lt
  · rwa [same] at le
  · have before := sound.top_le lt (Nat.le_refl _)
    have inner : (A level).base ≤ (A level).top := Nat.le_add_right _ _
    omega

theorem Live.bound (sound : A.Sound level) (live : A.Live level s) : A.address s < 2 ^ 63 := by
  have lt := live.address_lt sound
  have bound := sound.bound
  omega

theorem address_lt_of_level_lt (sound : A.Sound level) (live : A.Live level s) (le : s'.level ≤ level)
    (lt : s.level < s'.level) : A.address s < A.address s' := by
  have first := live.address_le
  have second := sound.top_le lt le
  have third : (A s'.level).base ≤ A.address s' := by
    unfold address
    omega
  omega

theorem Sound.address_injective (sound : A.Sound level) (live : A.Live level s) (live' : A.Live level s')
    (same : A.address s = A.address s') : s = s' := by
  rcases Nat.lt_trichotomy s.level s'.level with lt | equal | lt
  · have := address_lt_of_level_lt sound live live'.le lt
    omega
  · obtain ⟨size, found, inside⟩ := live.inside
    obtain ⟨size', found', inside'⟩ := live'.inside
    rcases s with ⟨k, i, j⟩
    rcases s' with ⟨k', i', j'⟩
    simp only at equal found found' inside inside'
    subst equal
    simp only [address] at same
    rcases Nat.lt_trichotomy i i' with lt | rfl | lt
    · have := Area.offset_add_le found lt
      omega
    · obtain rfl : j = j' := by omega
      rfl
    · have := Area.offset_add_le found' lt
      omega
  · have := address_lt_of_level_lt sound live' live.le lt
    omega

def read (A : Layout) (memory : Memory) (s : Spot) : Word :=
  memory.read (.ofNat (A.address s))

def write (A : Layout) (memory : Memory) (s : Spot) (w : Word) : Memory :=
  memory.write (.ofNat (A.address s)) w

theorem ofNat_injective {a b : Nat} (small : a < 2 ^ 63) (small' : b < 2 ^ 63) (same : Int64.ofNat a = Int64.ofNat b) :
    a = b := by
  have values := congrArg Int64.toInt same
  rw [Int64.toInt_ofNat_of_lt small, Int64.toInt_ofNat_of_lt small'] at values
  omega

variable {memory memory' memory'' : Memory} {σ : Store} {w : Word} {b : Block} {lo hi : Nat}

theorem read_write_self : A.read (A.write memory s w) s = w := by
  simp [read, write]

theorem read_write_of_ne (sound : A.Sound level) (live : A.Live level s) (live' : A.Live level s') (other : s ≠ s') :
    A.read (A.write memory s w) s' = A.read memory s' := by
  have apart : Int64.ofNat (A.address s) ≠ Int64.ofNat (A.address s') := fun same =>
    other (sound.address_injective live live' (ofNat_injective (live.bound sound) (live'.bound sound) same))
  simp [read, write, apart]

/-- Whether a memory holds what has been written to the cells. -/
def Cells (A : Layout) (level : Nat) (σ : Store) (memory : Memory) : Prop :=
  ∀ s, A.Live level s → ∀ b, A.role s = .cell b → ∀ w, σ.cells b s.index = some w → A.read memory s = w

theorem Sound.eq_of_role (sound : A.Sound level) (live : A.Live level s) (live' : A.Live level s')
    (role : A.role s = .cell b) (role' : A.role s' = .cell b) (same : s.index = s'.index) : s = s' := by
  rcases s with ⟨k, i, j⟩
  rcases s' with ⟨k', i', j'⟩
  obtain rfl : k = k' := (sound.owned k live.le i b role).symm.trans (sound.owned k' live'.le i' b role')
  obtain rfl : i = i' := sound.distinct k live.le i i' b role role'
  obtain rfl : j = j' := same
  rfl

theorem Cells.write (cells : A.Cells level σ memory) (sound : A.Sound level) (live : A.Live level s)
    (role : A.role s = .cell b) : A.Cells level (σ.write b s.index w) (A.write memory s w) := by
  intro s' live' b' role' w' found
  simp only [Store.write] at found
  split at found
  · next same =>
    obtain ⟨rfl, same⟩ := same
    obtain rfl := sound.eq_of_role live' live role' role same
    rw [read_write_self]
    exact Option.some.inj found
  · next other =>
    have apart : s ≠ s' := by
      rintro rfl
      rw [role] at role'
      exact other ⟨(Role.cell.inj role').symm, rfl⟩
    rw [read_write_of_ne sound live live' apart]
    exact cells s' live' b' role' w' found

theorem Cells.congr (cells : A.Cells level σ memory)
    (same : ∀ s, A.Live level s → ∀ b, A.role s = .cell b → A.read memory' s = A.read memory s) :
    A.Cells level σ memory' := by
  intro s live b role w found
  rw [same s live b role]
  exact cells s live b role w found

/-- A word is written to a slot that the evaluation does not see. -/
theorem Cells.write_other (cells : A.Cells level σ memory) (sound : A.Sound level) (live : A.Live level s)
    (role : ∀ b, A.role s ≠ .cell b) : A.Cells level σ (A.write memory s w) := by
  refine cells.congr fun s' live' b role' => read_write_of_ne sound live live' ?_
  rintro rfl
  exact role b role'

theorem Cells.write_scratch (cells : A.Cells level σ memory) (sound : A.Sound level) (live : A.Live level s)
    (role : A.role s = .scratch) : A.Cells level σ (A.write memory s w) := by
  refine cells.write_other sound live fun b other => ?_
  rw [role] at other
  cases other

/-- Whether addresses and temporaries are kept, but for some slots of the level at hand. -/
def Keeps (A : Layout) (level lo hi : Nat) (memory memory' : Memory) : Prop :=
  ∀ s, A.Live level s → (A.role s = .pointer ∨ A.role s = .scratch ∧ (s.level = level → s.slot < lo ∨ hi ≤ s.slot)) →
    A.read memory' s = A.read memory s

theorem Keeps.refl : A.Keeps level lo hi memory memory :=
  fun _ _ _ => rfl

theorem Keeps.trans (first : A.Keeps level lo hi memory memory') (second : A.Keeps level lo hi memory' memory'') :
    A.Keeps level lo hi memory memory'' :=
  fun s live kept => (second s live kept).trans (first s live kept)

theorem Keeps.mono {lo' hi' : Nat} (h : A.Keeps level lo hi memory memory') (le : lo' ≤ lo) (le' : hi ≤ hi') :
    A.Keeps level lo' hi' memory memory' := by
  intro s live kept
  refine h s live (kept.imp_right fun ⟨role, outside⟩ => ⟨role, fun same => ?_⟩)
  exact (outside same).imp (by omega) (by omega)

theorem Keeps.write_cell (sound : A.Sound level) (live : A.Live level s) (role : A.role s = .cell b) :
    A.Keeps level lo hi memory (A.write memory s w) := by
  intro s' live' kept
  refine read_write_of_ne sound live live' ?_
  rintro rfl
  rcases kept with pointer | ⟨scratch, _⟩
  · rw [role] at pointer
    cases pointer
  · rw [role] at scratch
    cases scratch

theorem Keeps.write_scratch (sound : A.Sound level) (live : A.Live level s) (role : A.role s = .scratch)
    (own : s.level = level) : A.Keeps level s.slot (s.slot + 1) memory (A.write memory s w) := by
  intro s' live' kept
  refine read_write_of_ne sound live live' ?_
  rintro rfl
  rcases kept with pointer | ⟨_, outside⟩
  · rw [role] at pointer
    cases pointer
  · have := outside own
    omega

def push (A : Layout) (level : Nat) (a : Area) : Layout :=
  fun k => if k = level + 1 then a else A k

section Push

variable {a : Area}

@[simp]
theorem push_self : A.push level a (level + 1) = a :=
  if_pos rfl

theorem push_of_le {k : Nat} (le : k ≤ level) : A.push level a k = A k :=
  if_neg (by omega)

theorem address_push (le : s.level ≤ level) : (A.push level a).address s = A.address s := by
  unfold address
  rw [push_of_le le]

theorem role_push (le : s.level ≤ level) : (A.push level a).role s = A.role s := by
  unfold role
  rw [push_of_le le]

theorem read_push (le : s.level ≤ level) : (A.push level a).read memory s = A.read memory s := by
  unfold read
  rw [address_push le]

theorem Live.push (live : A.Live level s) : (A.push level a).Live (level + 1) s := by
  refine ⟨Nat.le_succ_of_le live.le, ?_⟩
  rw [push_of_le live.le]
  exact live.inside

theorem Live.pop (live : (A.push level a).Live (level + 1) s) (le : s.level ≤ level) : A.Live level s := by
  refine ⟨le, ?_⟩
  have inside := live.inside
  rwa [push_of_le le] at inside

theorem Sound.push (sound : A.Sound level) (above : (A level).top ≤ a.base) (bound : a.top < 2 ^ 63)
    (owned : ∀ i b, a.role i = .cell b → Block.level b = level + 1)
    (distinct : ∀ i j b, a.role i = .cell b → a.role j = .cell b → i = j) : (A.push level a).Sound (level + 1) where
  apart k lt := by
    rcases Nat.eq_or_lt_of_le (Nat.le_of_lt_succ lt) with rfl | lt
    · rw [push_self, push_of_le (Nat.le_refl _)]
      exact above
    · rw [push_of_le (Nat.le_of_lt lt), push_of_le (show k + 1 ≤ level from lt)]
      exact sound.apart k lt
  bound := by
    rw [push_self]
    exact bound
  owned k le := by
    rcases Nat.eq_or_lt_of_le le with rfl | lt
    · rw [push_self]
      exact owned
    · rw [push_of_le (Nat.le_of_lt_succ lt)]
      exact sound.owned k (Nat.le_of_lt_succ lt)
  distinct k le := by
    rcases Nat.eq_or_lt_of_le le with rfl | lt
    · rw [push_self]
      exact distinct
    · rw [push_of_le (Nat.le_of_lt_succ lt)]
      exact sound.distinct k (Nat.le_of_lt_succ lt)

theorem Cells.push (cells : A.Cells level σ memory) (owned : ∀ i b, a.role i = .cell b → Block.level b = level + 1) :
    (A.push level a).Cells (level + 1) (σ.fresh (level + 1)) memory := by
  intro s live b role w found
  rcases Nat.eq_or_lt_of_le live.le with own | lt
  · have role' : a.role s.slot = .cell b := by
      unfold Layout.role at role
      rwa [own, push_self] at role
    have level := owned _ _ role'
    cases b with
    | global => cases level
    | param l | var l =>
      cases level
      simp [Store.fresh] at found
  · have le := Nat.le_of_lt_succ lt
    rw [role_push le] at role
    rw [read_push le]
    refine cells s (live.pop le) b role w ?_
    cases b with
    | global => exact found
    | param l | var l =>
      simp only [Store.fresh] at found
      split at found
      · cases found
      · exact found

theorem Cells.pop (cells : (A.push level a).Cells (level + 1) σ memory) : A.Cells level σ memory := by
  intro s live b role w found
  have le := live.le
  rw [← role_push (a := a) le] at role
  have same := cells s live.push b role w found
  rwa [read_push le] at same

/-- A call keeps all addresses and temporaries of its caller. -/
theorem Keeps.pop {lo' hi' : Nat} (keeps : (A.push level a).Keeps (level + 1) lo hi memory memory') :
    A.Keeps level lo' hi' memory memory' := by
  intro s live kept
  have le := live.le
  rw [← role_push (a := a) le] at kept
  have same := keeps s live.push (kept.imp_right fun ⟨role, _⟩ => ⟨role, fun own => by omega⟩)
  rwa [read_push le, read_push le] at same

end Push

end Layout

end MiniC
