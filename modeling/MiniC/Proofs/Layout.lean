import Mathlib.Data.Int.ConditionallyCompleteOrder
import Mathlib.Data.List.Forall2
import Mathlib.Order.CompletePartialOrder
import Mathlib.Order.ConditionallyCompleteLattice.Basic
import MiniC.Proofs.Compilation
import MiniC.Proofs.Generation.Allotment

namespace MiniC

open Reference (words globalVariables)

structure Region where
  start : Word
  words : Nat

def Region.bytes (r : Region) : Set Int :=
  Set.Ico r.start.toInt (r.start.toInt + 4 * r.words)

/-- Whether sets of bytes lie within an area and share none of them. -/
structure Apart (area : Set Int) (sets : List (Set Int)) : Prop where
  inside : ∀ s ∈ sets, s ⊆ area
  disjoint : sets.Pairwise Disjoint

inductive Region.Chain : Word → List Region → Word → Prop where
  | nil {a : Word} : Chain a [] a
  | cons {a b : Word} {n : Nat} {rest : List Region} : Chain (a + .ofNat n * wordSize) rest b →
      Chain a (⟨a, n⟩ :: rest) b

def Region.total (regions : List Region) : Nat :=
  (regions.map (·.words)).sum

theorem add_words (a : Word) (n : Nat) : a + .ofNat n * wordSize = .ofInt (a.toInt + 4 * n) := by
  rw [Int64.ofInt_add, Int64.ofInt_mul, Int64.ofInt_toInt, Int64.mul_comm]
  rfl

theorem toInt_add_words {a : Word} {n : Nat} (fits : a.toInt + 4 * n < 2 ^ 63) :
    (a + .ofNat n * wordSize).toInt = a.toInt + 4 * n := by
  have low := Int64.le_toInt a
  rw [add_words, Int64.toInt_ofInt_of_le (by omega) (by omega)]

namespace Region

theorem total_cons (a : Word) (n : Nat) (rest : List Region) : total (⟨a, n⟩ :: rest) = n + total rest :=
  rfl

namespace Chain

variable {a b : Word} {regions : List Region}

theorem fits_of_inside (chain : Chain a regions b) {low : Int}
    (inside : ∀ r ∈ regions, r.bytes ⊆ Set.Ico low b.toInt) : a.toInt + 4 * total regions < 2 ^ 63 := by
  induction chain with
  | @nil a =>
    have bound := Int64.toInt_lt a
    simpa [total] using bound
  | @cons a b n rest chain ih =>
    have next : a.toInt + 4 * n < 2 ^ 63 := by
      by_cases empty : n = 0
      · have bound := Int64.toInt_lt a
        omega
      · have last : a.toInt + 4 * n - 1 ∈ bytes ⟨a, n⟩ := by
          simp only [bytes, Set.mem_Ico]
          omega
        have before := (inside ⟨a, n⟩ (by simp) last).2
        have bound := Int64.toInt_lt b
        omega
    have others := ih fun r member => inside r (by simp [member])
    rw [toInt_add_words next] at others
    rw [total_cons]
    omega

theorem toInt_end (chain : Chain a regions b) (fits : a.toInt + 4 * total regions < 2 ^ 63) :
    b.toInt = a.toInt + 4 * total regions := by
  induction chain with
  | nil => simp [total]
  | @cons a b n rest chain ih =>
    rw [total_cons] at fits ⊢
    have next : (a + .ofNat n * wordSize).toInt = a.toInt + 4 * n := toInt_add_words (by omega)
    rw [ih (by omega), next]
    omega

theorem apart (chain : Chain a regions b) (fits : a.toInt + 4 * total regions < 2 ^ 63) :
    Apart (Set.Ico a.toInt b.toInt) (regions.map bytes) := by
  have ends := chain.toInt_end fits
  induction chain with
  | nil => exact ⟨by simp, .nil⟩
  | @cons a b n rest chain ih =>
    rw [total_cons] at fits ends
    have next : (a + .ofNat n * wordSize).toInt = a.toInt + 4 * n := toInt_add_words (by omega)
    obtain ⟨inside, disjoint⟩ := ih (by omega) (by omega)
    rw [next] at inside
    refine ⟨List.forall_mem_cons.mpr ⟨Set.Ico_subset_Ico (Int.le_refl _) (by dsimp only; omega), fun s member => ?_⟩,
      List.pairwise_cons.mpr ⟨fun s member => ?_, disjoint⟩⟩
    · exact (inside s member).trans (Set.Ico_subset_Ico (by omega) (Int.le_refl _))
    · -- What comes later starts behind the first region.
      refine Set.disjoint_left.mpr fun x first later => ?_
      have low := (inside s member later).1
      have high : x < a.toInt + 4 * n := first.2
      omega

theorem apart_iff (chain : Chain a regions b) :
    Apart (Set.Ico a.toInt b.toInt) (regions.map bytes) ↔ a.toInt + 4 * total regions < 2 ^ 63 :=
  ⟨fun apart => chain.fits_of_inside fun _ member => apart.inside _ (List.mem_map_of_mem member), chain.apart⟩

end Chain

end Region

def Slot.bytes (s : Slot) : Set Int :=
  Set.Ico s.offset.toInt (s.offset.toInt + s.size.toInt)

def Counts (size : Word) (n : Nat) : Prop :=
  size.toInt = 4 * n

/-- Whether a frame holds variables as they are declared and all else in one word each, and no two of
    its slots overlap. -/
structure Frame.Exact (vars : List VarDecl) (f : Frame) : Prop where
  holds : Slot.Holds Counts f.slots vars
  apart : Apart (Set.Ico 0 f.size.toInt) (f.slots.map Slot.bytes)

def Slot.total (vars : List VarDecl) (slots : List Slot) : Nat :=
  (vars.map words).sum + slots.countP (·.kind ≠ .var)

namespace Slot

variable {a b : Word} {slots : List Slot} {vars : List VarDecl}

structure Fills (s : Slot) (r : Region) : Prop where
  offset : s.offset = r.start
  size : Measures s.size r.words

theorem holds_var_iff {fits : Word → Nat → Prop} {s : Slot} {d : VarDecl} (kind : s.kind = .var)
    (name : s.name = d.id.name) :
    Holds fits (s :: slots) (d :: vars) ↔ fits s.size (words d) ∧ Holds fits slots vars := by
  constructor
  · intro h
    cases h with
    | var _ _ size rest => exact ⟨size, rest⟩
    | word other => exact absurd kind other
  · rintro ⟨size, rest⟩
    exact .var kind name size rest

theorem holds_word_iff {fits : Word → Nat → Prop} {s : Slot} (other : s.kind ≠ .var) :
    Holds fits (s :: slots) vars ↔ fits s.size 1 ∧ Holds fits slots vars := by
  constructor
  · intro h
    cases h with
    | var kind => exact absurd kind other
    | word _ size rest => exact ⟨size, rest⟩
  · rintro ⟨size, rest⟩
    exact .word other size rest

theorem Holds.regions (h : Holds Measures slots vars) (packed : Packed a slots b) :
    ∃ regions, Region.Chain a regions b ∧ Region.total regions = total vars slots ∧ List.Forall₂ Fills slots regions ∧
      (Holds Counts slots vars ↔ List.Forall₂ (fun s r => Counts s.size r.words) slots regions) := by
  induction h generalizing a with
  | nil =>
    cases packed
    exact ⟨[], .nil, rfl, .nil, by simp [Holds.nil]⟩
  | @var s d slots vars kind name size _ ih =>
    cases packed with
    | cons offset packed =>
      obtain ⟨regions, chain, same, fills, counts⟩ := ih packed
      refine ⟨⟨a, words d⟩ :: regions, .cons (size ▸ chain), ?_, .cons ⟨offset, size⟩ fills, ?_⟩
      · rw [Region.total_cons, same]
        simp [total, kind]
        omega
      · rw [holds_var_iff kind name, counts, List.forall₂_cons]
  | @word s slots vars other size _ ih =>
    cases packed with
    | cons offset packed =>
      obtain ⟨regions, chain, same, fills, counts⟩ := ih packed
      refine ⟨⟨a, 1⟩ :: regions, .cons (size ▸ chain), ?_, .cons ⟨offset, size⟩ fills, ?_⟩
      · rw [Region.total_cons, same]
        simp [total, other]
        omega
      · rw [holds_word_iff other, counts, List.forall₂_cons]

theorem map_bytes_of_fills {regions : List Region} (fills : List.Forall₂ Fills slots regions)
    (counts : List.Forall₂ (fun s r => Counts s.size r.words) slots regions) :
    slots.map bytes = regions.map Region.bytes := by
  induction fills with
  | nil => rfl
  | @cons s r slots regions first _ ih =>
    obtain ⟨size, counts⟩ := List.forall₂_cons.mp counts
    have same : s.bytes = r.bytes := by
      rw [bytes, Region.bytes, first.offset, size]
    rw [List.map_cons, List.map_cons, same, ih counts]

theorem counts_of_measures {size : Word} {n : Nat} (measures : Measures size n) (fits : 4 * n < 2 ^ 63) :
    Counts size n := by
  have bytes : (0 + .ofNat n * wordSize : Word).toInt = Int64.toInt 0 + 4 * n :=
    toInt_add_words (by rw [Int64.toInt_zero]; omega)
  rw [Int64.zero_add, ← measures] at bytes
  simpa [Counts] using bytes

theorem counts_of_fills {regions : List Region} (fills : List.Forall₂ Fills slots regions)
    (fits : 4 * Region.total regions < 2 ^ 63) : List.Forall₂ (fun s r => Counts s.size r.words) slots regions := by
  induction fills with
  | nil => exact .nil
  | @cons s r slots regions first _ ih =>
    have whole : Region.total (r :: regions) = r.words + Region.total regions := rfl
    exact .cons (counts_of_measures first.size (by omega)) (ih (by omega))

end Slot

/-- A frame is as its function declares it exactly if the size of all its slots does not wrap around. -/
theorem Function.Frames.exact_iff {f : FunDecl} {fn : Function} (frames : Function.Frames f fn) :
    fn.frame.Exact f.variables ↔ 4 * Slot.total f.variables fn.frame.slots < 2 ^ 63 := by
  obtain ⟨regions, chain, same, fills, counts⟩ := frames.holds.regions frames.packed
  have apart := chain.apart_iff
  rw [same, Int64.toInt_zero] at apart
  constructor
  · rintro ⟨holds, within⟩
    rw [Slot.map_bytes_of_fills fills (counts.mp holds), apart] at within
    omega
  · intro fits
    have each := Slot.counts_of_fills fills (by rw [same]; exact fits)
    refine ⟨counts.mpr each, ?_⟩
    rw [Slot.map_bytes_of_fills fills each, apart]
    omega

def Symbol.region (s : Symbol) : Region :=
  ⟨s.location.value, s.words⟩

structure Symbol.Declares (s : Symbol) (d : VarDecl) : Prop where
  name : s.name = d.id.name
  words : s.words = Reference.words d
  storage : ∃ a, s.storage = some (.global a)

namespace Symbol.Laid

variable {a b : Word} {symbols : List Symbol} {vars : List VarDecl}

theorem declares (laid : Laid a symbols vars b) : List.Forall₂ Declares symbols vars := by
  induction laid with
  | nil => exact .nil
  | cons name words storage _ ih => exact .cons ⟨name, words, _, storage⟩ ih

theorem chain (laid : Laid a symbols vars b) : Region.Chain a (symbols.map region) b := by
  induction laid with
  | nil => exact .nil
  | @cons a b s d symbols vars name words storage _ ih =>
    have region : s.region = ⟨a, Reference.words d⟩ := by
      simp [Symbol.region, words, Symbol.location, storage]
      rfl
    rw [List.map_cons, region]
    exact .cons ih

theorem total_eq (laid : Laid a symbols vars b) :
    Region.total (symbols.map region) = (vars.map Reference.words).sum := by
  induction laid with
  | nil => rfl
  | cons name words storage _ ih =>
    simp only [Region.total, List.map_cons, List.sum_cons] at ih ⊢
    rw [ih, Symbol.region, words]

end Symbol.Laid

def Compilation.globals (c : Compilation) : List Symbol :=
  c.symbols.filter Symbol.isGlobal

theorem stores_of_compile {text : Text} {c : Compilation} (run : compile text = .ok c) (ok : c.ok = true) :
    List.Forall₂ Function.Frames c.parsed.source.functions c.program.functions ∧
      Symbol.Laid dataBase c.globals (globalVariables c.parsed.source) (dataBase + c.program.globalSize) := by
  obtain ⟨g, assembly, generated, _, rfl⟩ := generated_of_compile run
  have clean : (reported text g).hasErrors = false := by simpa [Compilation.ok, compiled] using ok
  exact Codegen.source_stores generated (reported_clean clean).2

/-- Storage that is distinct in an accepted text does not overlap, and all of it has the size that is
    declared, exactly if the sizes add up without wrapping around: for a frame those of its slots, and
    for the data those of the globals, behind where it starts. -/
theorem apart_iff_total_lt {text : Text} {c : Compilation} (run : compile text = .ok c) (ok : c.ok = true) :
    List.Forall₂ (fun f fn => fn.name = f.id.name ∧
        (fn.frame.Exact f.variables ↔ 4 * Slot.total f.variables fn.frame.slots < 2 ^ 63))
      c.parsed.source.functions c.program.functions ∧
    List.Forall₂ Symbol.Declares c.globals (globalVariables c.parsed.source) ∧
    (Apart (Set.Ico dataBase.toInt (dataBase + c.program.globalSize).toInt) (c.globals.map (·.region.bytes)) ↔
      dataBase.toInt + 4 * ((globalVariables c.parsed.source).map words).sum < 2 ^ 63) := by
  obtain ⟨frames, laid⟩ := stores_of_compile run ok
  refine ⟨frames.imp fun f fn frame => ⟨frame.name, frame.exact_iff⟩, laid.declares, ?_⟩
  rw [← laid.total_eq, ← laid.chain.apart_iff, List.map_map]
  rfl

theorem apart_iff_total_lt_squares :
    ∃ c, compile squaresText = .ok c ∧ c.ok = true ∧
      List.Forall₂ (fun f fn => fn.name = f.id.name ∧
          (fn.frame.Exact f.variables ↔ 4 * Slot.total f.variables fn.frame.slots < 2 ^ 63))
        c.parsed.source.functions c.program.functions ∧
      List.Forall₂ Symbol.Declares c.globals (globalVariables c.parsed.source) ∧
      (Apart (Set.Ico dataBase.toInt (dataBase + c.program.globalSize).toInt) (c.globals.map (·.region.bytes)) ↔
        dataBase.toInt + 4 * ((globalVariables c.parsed.source).map words).sum < 2 ^ 63) := by
  obtain ⟨c, run, ok⟩ := accepted_squares
  exact ⟨c, run, ok, apart_iff_total_lt run ok⟩

def vastText : Text :=
  "void main(void) \x7b int a[4611686018427387904]; int b; b = 7; a[0] = 5; output(b); \x7d"

/-- The array of that text has no bytes, and the variable behind it lies at its first element. -/
theorem overlap_of_vastText :
    ∃ c, compile vastText = .ok c ∧ c.ok = true ∧
      ∃ fn ∈ c.program.functions, ∃ s ∈ fn.frame.slots, ∃ t ∈ fn.frame.slots,
        s.name = "a" ∧ s.size = 0 ∧ t.name = "b" ∧ t.offset = s.offset := by
  have checked : (compile vastText).toOption.any (fun c => c.ok && c.program.functions.any fun fn =>
      fn.frame.slots.any fun s => fn.frame.slots.any fun t =>
        s.name = "a" ∧ s.size = 0 ∧ t.name = "b" ∧ t.offset = s.offset) = true := by decide +kernel
  obtain ⟨c, run, found⟩ := exists_of_checked checked
  simp only [Bool.and_eq_true, List.any_eq_true, decide_eq_true_eq] at found
  exact ⟨c, run, found⟩

end MiniC
