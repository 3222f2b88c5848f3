import MiniC.Proofs.Generation.Outline
import MiniC.Proofs.Layout
import MiniC.Proofs.Machine.Safety
import MiniC.Proofs.Machine.Transitions

namespace MiniC

open Reference (words globalVariables)

theorem ofInt_eq_ofInt_iff (i j : Int) : Int64.ofInt i = .ofInt j ↔ (2 ^ 64 : Int) ∣ i - j := by
  rw [Int64.ofInt_eq_iff_bmod_eq_toInt, Int64.toInt_ofInt]
  simp only [Int.bmod_def, Int64.size]
  split <;> split <;> omega

namespace Region

def cells (regions : List Region) : Set Word :=
  {x | ∃ r ∈ regions, ∃ k < r.words, x = r.start + .ofNat k * wordSize}

/-- The words from an address up to another, around the end of the addresses if need be. -/
def between (low high : Word) : Region :=
  ⟨low, ((high.toInt - low.toInt) % 2 ^ 64 / 4).toNat⟩

theorem words_eq_iff (a b : Word) (j k : Nat) :
    a + .ofNat j * wordSize = b + .ofNat k * wordSize ↔ (2 ^ 64 : Int) ∣ a.toInt + 4 * j - (b.toInt + 4 * k) := by
  rw [add_words, add_words, ofInt_eq_ofInt_iff]

theorem add_words_add (a : Word) (j k : Nat) :
    a + .ofNat j * wordSize + .ofNat k * wordSize = a + .ofNat (j + k) * wordSize := by
  rw [Int64.add_assoc, ← Int64.add_mul, Int64.ofNat_add]

theorem between_end {low high : Word} {n : Nat} (ends : high = low + .ofNat n * wordSize) :
    low + .ofNat (between low high).words * wordSize = high := by
  have distance : (2 ^ 64 : Int) ∣ high.toInt - (low.toInt + 4 * n) := by
    rw [← ofInt_eq_ofInt_iff, Int64.ofInt_toInt, ends, add_words]
  refine Eq.trans ((words_eq_iff ..).mpr ?_) ends.symm
  simp only [between]
  omega

namespace Chain

variable {a b c d x : Word} {regions others : List Region}

theorem push (chain : Chain a regions b) (n : Nat) : Chain a (regions ++ [⟨b, n⟩]) (b + .ofNat n * wordSize) := by
  induction chain with
  | nil => exact .cons .nil
  | cons _ ih => exact .cons ih

theorem end_eq (chain : Chain a regions b) : b = a + .ofNat (total regions) * wordSize := by
  induction chain with
  | nil => simp [total]
  | cons _ ih => rw [ih, add_words_add, total_cons]

theorem mem_cells_iff (chain : Chain a regions b) :
    x ∈ cells regions ↔ ∃ k < total regions, x = a + .ofNat k * wordSize := by
  induction chain with
  | nil => simp [cells, total]
  | @cons a b n rest chain ih =>
    have split : x ∈ cells (⟨a, n⟩ :: rest) ↔ (∃ k < n, x = a + .ofNat k * wordSize) ∨ x ∈ cells rest := by
      simp [cells]
    rw [split, ih, total_cons]
    constructor
    · rintro (⟨k, before, rfl⟩ | ⟨k, before, rfl⟩)
      · exact ⟨k, by omega, rfl⟩
      · exact ⟨n + k, by omega, add_words_add ..⟩
    · rintro ⟨k, before, rfl⟩
      by_cases first : k < n
      · exact .inl ⟨k, first, rfl⟩
      · refine .inr ⟨k - n, by omega, ?_⟩
        rw [add_words_add, Nat.add_sub_cancel' (by omega)]

/-- Regions behind one another, of which the second start a number of words above the first, share no
    word exactly if the first end before the second start, and the second before they come around. -/
theorem disjoint_iff (first : Chain a regions b) (second : Chain c others d) {n : Nat}
    (above : c.toInt = a.toInt + 4 * n) (positive : 0 < n) :
    Disjoint (cells regions) (cells others) ↔ total regions = 0 ∨ total others = 0 ∨
      a.toInt + 4 * total regions ≤ c.toInt ∧ c.toInt + 4 * total others ≤ a.toInt + 2 ^ 64 := by
  have low := Int64.le_toInt a
  have high := Int64.toInt_lt c
  have apart : Disjoint (cells regions) (cells others) ↔ ∀ j < total regions, ∀ k < total others,
      ¬ (2 ^ 64 : Int) ∣ a.toInt + 4 * j - (c.toInt + 4 * k) := by
    rw [Set.disjoint_left]
    constructor
    · intro apart j j_lt k k_lt same
      refine apart (first.mem_cells_iff.mpr ⟨j, j_lt, rfl⟩) (second.mem_cells_iff.mpr ⟨k, k_lt, ?_⟩)
      exact (words_eq_iff a c j k).mpr same
    · intro apart x inFirst inSecond
      obtain ⟨j, j_lt, rfl⟩ := first.mem_cells_iff.mp inFirst
      obtain ⟨k, k_lt, same⟩ := second.mem_cells_iff.mp inSecond
      exact apart j j_lt k k_lt ((words_eq_iff a c j k).mp same)
  rw [apart]
  constructor
  · intro apart
    by_contra overlap
    by_cases ends : a.toInt + 4 * total regions ≤ c.toInt
    · -- The second come around to the first word of the first.
      exact apart 0 (by omega) (2 ^ 62 - n) (by omega) (by omega)
    · -- The first reach the first word of the second.
      exact apart n (by omega) 0 (by omega) (by omega)
  · intro ends j j_lt k k_lt same
    omega

end Chain

end Region

def Program.Opens (p : Program) : Prop :=
  ∀ index i, p.fetch? index = some i → i.op = .func → ∃ f ∈ p.functions, i.a1.value = f.frame.size

theorem Outline.opens {p : Program} {symbols : List Symbol} (outline : Outline p.code p.functions symbols)
    (wellFormed : p.WellFormed) : p.Opens := by
  intro index i fetched known
  obtain ⟨n, rfl, found⟩ := Program.fetch?_eq_some_iff.mp fetched
  have after : 2 ≤ n := by
    rcases n with _ | _ | n
    · rw [outline.start] at found
      cases found
      cases known
    · rw [wellFormed.halt] at found
      cases found
      cases known
    · omega
  have before := (Array.getElem?_eq_some_iff.mp found).1
  obtain ⟨f, member, entry, last, starts, _, body, le, ge⟩ := wellFormed.around after before
  rcases Nat.eq_or_lt_of_le le with rfl | inside
  · obtain ⟨entry', last', _, spans⟩ := outline.spans f member
    obtain rfl : entry' = entry := by
      have starts' := spans.startsAt
      omega
    rw [spans.enter] at found
    cases found
    exact ⟨f, member, rfl⟩
  · obtain ⟨j, found', proper⟩ := body.covered n inside (by omega)
    rw [found] at found'
    cases found'
    cases proper with
    | compute computes =>
      cases known
      simp [Machine.Computes, Machine.arithmetic?] at computes
    | assign | address | jump | branch | print | param | call | ret => cases known

namespace Machine

variable {m : Machine} {p : Program}

/-- Where the frames of the calls that have not returned start and end, innermost first. A function
    that has been called but not entered has none yet. -/
def frames (m : Machine) : List (Word × Word) :=
  let callers := m.activations.map fun a => (a.fp, a.sp)
  if m.calling then callers else (m.fp, m.sp) :: callers

def stack (m : Machine) : List Region :=
  m.frames.reverse.map fun f => .between f.1 f.2

/-- Frames of allowed sizes that follow one another from the base of the stack up to an address. -/
inductive Stacked (size : Word → Prop) : List (Word × Word) → Word → Prop where
  | start : Stacked size [(stackBase, stackBase)] stackBase
  | push {frames : List (Word × Word)} {top s : Word} : Stacked size frames top → size s →
      Stacked size ((top, top + s) :: frames) (top + s)

theorem Stacked.pop {size : Word → Prop} {f g : Word × Word} {frames : List (Word × Word)} {top : Word}
    (h : Stacked size (f :: g :: frames) top) : Stacked size (g :: frames) g.2 := by
  cases h with
  | push rest _ =>
    cases rest with
    | start => exact .start
    | push rest own => exact .push rest own

theorem Stacked.chain {size : Word → Prop} {frames : List (Word × Word)} {top : Word}
    (measured : ∀ s, size s → ∃ n, Measures s n) (h : Stacked size frames top) :
    Region.Chain stackBase (frames.reverse.map fun f => .between f.1 f.2) top := by
  induction h with
  | start => exact .cons .nil
  | @push frames top s _ own ih =>
    obtain ⟨n, rfl⟩ := measured s own
    have pushed := ih.push (Region.between top (top + .ofNat n * wordSize)).words
    rw [Region.between_end rfl] at pushed
    rw [List.reverse_cons, List.map_append]
    exact pushed

structure OnStack (m : Machine) : Prop where
  safe : m.Safe
  place : m.calling = true → ∃ i, m.program.fetch? m.pc = some i ∧ i.op = .func
  stacked : Stacked (fun s => ∃ f ∈ m.program.functions, s = f.frame.size) m.frames m.sp

theorem OnStack.uncalled {i : Instruction} (h : m.OnStack) (fetched : m.program.fetch? m.pc = some i)
    (other : i.op ≠ .func) : m.calling = false := by
  rw [Bool.eq_false_iff]
  intro calling
  obtain ⟨j, found, known⟩ := h.place calling
  rw [fetched] at found
  cases found
  exact other known

theorem OnStack.next (wellFormed : m.program.WellFormed) (opens : m.program.Opens) (h : m.OnStack) :
    (Outcome.machine (step m)).OnStack := by
  have safe := h.safe.next wellFormed
  have made := transition m
  generalize run : step m = outcome at made safe ⊢
  cases outcome with
  | error failure m' =>
    rcases h.safe.counted_of_step wellFormed run with rfl | rfl
    · exact h
    · exact ⟨safe, h.place, h.stacked⟩
  | ok _ m' =>
    cases made with
    | halts => exact ⟨safe, h.place, h.stacked⟩
    | @executes i _ fetched fits effect =>
      cases effect with
      | plain _ _ _ _ own =>
        have uncalled := h.uncalled fetched own.2.1
        exact ⟨safe, fun calling => absurd (uncalled.symm.trans calling) (by simp), h.stacked⟩
      | called count known target counts le entry =>
        have uncalled := h.uncalled fetched (by simp [known])
        have stacked := h.stacked
        simp only [frames, uncalled, Bool.false_eq_true, if_false] at stacked
        exact ⟨safe, fun _ => Program.func_of_isEntry entry, stacked⟩
      | @entered top rest known calling same active =>
        have stacked := h.stacked
        simp only [frames, calling, if_true, active, List.map_cons] at stacked
        exact ⟨safe, fun calling => absurd calling Bool.false_ne_true, stacked.push (opens _ i fetched known)⟩
      | @left top rest known active target =>
        have uncalled := h.uncalled fetched (by simp [known])
        have stacked := h.stacked
        simp only [frames, uncalled, Bool.false_eq_true, if_false, active, List.map_cons] at stacked
        have kept : ((m.returned i.a1 top rest).moved top.ret).frames =
            (top.fp, top.sp) :: rest.map fun a => (a.fp, a.sp) := by
          simp [frames, returned, closed, moved, uncalled]
        refine ⟨safe, fun calling => absurd (uncalled.symm.trans calling) (by simp), ?_⟩
        change Stacked _ ((m.returned i.a1 top rest).moved top.ret).frames top.sp
        rw [kept]
        exact stacked.pop

theorem Reachable.onStack (wellFormed : p.WellFormed) (opens : p.Opens) (reach : Reachable p m) : m.OnStack := by
  induction reach with
  | start => exact ⟨.start rfl rfl ⟨rfl, rfl, rfl, rfl⟩, fun calling => absurd calling Bool.false_ne_true, .start⟩
  | step reach ih =>
    have same := reach.program_eq
    exact ih.next (by rw [same]; exact wellFormed) (by rw [same]; exact opens)

end Machine

theorem Function.Frames.measures {f : FunDecl} {fn : Function} (frames : Function.Frames f fn) :
    Measures fn.frame.size (Slot.total f.variables fn.frame.slots) := by
  obtain ⟨regions, chain, same, _⟩ := frames.holds.regions frames.packed
  have ends := chain.end_eq
  rw [same, Int64.zero_add] at ends
  exact ends

theorem measures_of_frames {decls : List FunDecl} {functions : List Function}
    (frames : List.Forall₂ Function.Frames decls functions) : ∀ fn ∈ functions, ∃ n, Measures fn.frame.size n := by
  induction frames with
  | nil => simp
  | cons first _ ih => exact List.forall_mem_cons.mpr ⟨⟨_, first.measures⟩, ih⟩

/-- Words that are shared can be changed from either side. -/
theorem Memory.disjoint_iff_unchanged (memory : Memory) (written kept : Set Word) :
    Disjoint written kept ↔ ∀ a ∈ written, ∀ w, ∀ x ∈ kept, (memory.write a w).read x = memory.read x := by
  rw [Set.disjoint_left]
  constructor
  · intro apart a isWritten w x isKept
    have other : a ≠ x := by
      rintro rfl
      exact apart isWritten isKept
    rw [read_write, if_neg other]
  · intro unchanged x isWritten isKept
    have same := unchanged x isWritten (memory.read x + 1) x isKept
    rw [read_write, if_pos rfl] at same
    have impossible : ∀ w : Word, w + 1 ≠ w := by
      intro w
      simp
    exact impossible _ same

/-- In every machine that an accepted text comes to, the frames of the calls that have not returned
    follow one another from the base of the stack to where it ends, each of the size that its function
    declares. No global shares a word with them, and no write to a global changes one of their words,
    exactly if there are no globals, or nothing is in the frames, or the globals end below the base of
    the stack and the stack does not come around to the data. -/
theorem disjoint_iff_below {text : Text} {c : Compilation} {m : Machine} (compiles : compile text = .ok c)
    (ok : c.ok = true) (short : c.program.code.size < 2 ^ 63) (reach : Machine.Reachable c.program m) :
    Machine.Stacked (fun s => ∃ f ∈ c.program.functions, s = f.frame.size) m.frames m.sp ∧
    Region.Chain stackBase m.stack m.sp ∧
    (Disjoint (Region.cells (c.globals.map (·.region))) (Region.cells m.stack) ↔
      ((globalVariables c.parsed.source).map words).sum = 0 ∨ Region.total m.stack = 0 ∨
        dataBase.toInt + 4 * ((globalVariables c.parsed.source).map words).sum ≤ stackBase.toInt ∧
        stackBase.toInt + 4 * Region.total m.stack ≤ dataBase.toInt + 2 ^ 64) ∧
    (Disjoint (Region.cells (c.globals.map (·.region))) (Region.cells m.stack) ↔
      ∀ s ∈ c.globals, ∀ k < s.words, ∀ w, ∀ x ∈ Region.cells m.stack,
        (m.memory.write (s.location.value + .ofNat k * wordSize) w).read x = m.memory.read x) := by
  obtain ⟨frames, laid⟩ := stores_of_compile compiles ok
  obtain ⟨g, assembly, run, _, rfl⟩ := generated_of_compile compiles
  have clean : (reported text g).hasErrors = false := by simpa [Compilation.ok, compiled] using ok
  have wellFormed : g.emitter.program.WellFormed := wellFormed_of_clean short run clean
  have onStack := reach.onStack wellFormed ((Codegen.outline_of_run run).1.opens wellFormed)
  have stacked := onStack.stacked
  rw [reach.program_eq] at stacked
  have chain : Region.Chain stackBase m.stack m.sp := by
    refine stacked.chain ?_
    rintro s ⟨fn, member, rfl⟩
    exact measures_of_frames frames fn member
  refine ⟨stacked, chain, ?_, ?_⟩
  · rw [← laid.total_eq]
    exact laid.chain.disjoint_iff chain (n := 262019) (by decide) (by decide)
  · rw [Memory.disjoint_iff_unchanged m.memory]
    constructor
    · intro unchanged s member k within
      exact unchanged _ ⟨s.region, List.mem_map_of_mem member, k, within, rfl⟩
    · rintro unchanged _ ⟨r, isRegion, k, within, rfl⟩
      obtain ⟨s, member, rfl⟩ := List.mem_map.mp isRegion
      exact unchanged s member k within

theorem disjoint_iff_below_squares :
    ∃ c m, compile squaresText = .ok c ∧ c.ok = true ∧ c.program.code.size < 2 ^ 63 ∧ Machine.Reachable c.program m ∧
      Machine.Stacked (fun s => ∃ f ∈ c.program.functions, s = f.frame.size) m.frames m.sp ∧
      Region.Chain stackBase m.stack m.sp ∧
      (Disjoint (Region.cells (c.globals.map (·.region))) (Region.cells m.stack) ↔
        ((globalVariables c.parsed.source).map words).sum = 0 ∨ Region.total m.stack = 0 ∨
          dataBase.toInt + 4 * ((globalVariables c.parsed.source).map words).sum ≤ stackBase.toInt ∧
          stackBase.toInt + 4 * Region.total m.stack ≤ dataBase.toInt + 2 ^ 64) ∧
      (Disjoint (Region.cells (c.globals.map (·.region))) (Region.cells m.stack) ↔
        ∀ s ∈ c.globals, ∀ k < s.words, ∀ w, ∀ x ∈ Region.cells m.stack,
          (m.memory.write (s.location.value + .ofNat k * wordSize) w).read x = m.memory.read x) := by
  obtain ⟨c, compiles, ok⟩ := accepted_squares
  have short := short_squares compiles
  have reach : Machine.Reachable c.program _ := .step (.step .start)
  exact ⟨c, _, compiles, ok, short, reach, disjoint_iff_below compiles ok short reach⟩

def wideText : Text :=
  "int a[300000]; void main(void) \x7b int x; x = 7; a[262020] = 5; output(x); \x7d"

def Program.entered (p : Program) : Machine :=
  Machine.Outcome.machine (Machine.step (Machine.Outcome.machine (Machine.step { program := p })))

/-- An element of the array of that text is the variable of its main function. -/
theorem overlap_of_wideText :
    ∃ c m, compile wideText = .ok c ∧ c.ok = true ∧ Machine.Reachable c.program m ∧
      ∃ s ∈ c.globals, ∃ fn ∈ c.program.functions, ∃ t ∈ fn.frame.slots, 262020 < s.words ∧
        fn.entry < m.pc ∧ m.pc < fn.stop ∧ t.name = "x" ∧ s.location.value + 262020 * wordSize = m.fp + t.offset := by
  have checked : (compile wideText).toOption.any (fun c => c.ok && c.globals.any fun s =>
      c.program.functions.any fun fn => fn.frame.slots.any fun t => 262020 < s.words ∧
        fn.entry < c.program.entered.pc ∧ c.program.entered.pc < fn.stop ∧ t.name = "x" ∧
        s.location.value + 262020 * wordSize = c.program.entered.fp + t.offset) = true := by decide +kernel
  obtain ⟨c, run, found⟩ := exists_of_checked checked
  simp only [Bool.and_eq_true, List.any_eq_true, decide_eq_true_eq] at found
  exact ⟨c, c.program.entered, run, found.1, .step (.step .start), found.2⟩

end MiniC
