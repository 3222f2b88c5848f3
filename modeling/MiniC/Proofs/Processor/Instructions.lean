import MiniC.Proofs.Assembly.Labels
import MiniC.Proofs.Processor.Semantics

namespace MiniC.Assembly

open EStateM (run_bind run_pure run_get run_modify run_set)

section Arithmetic

theorem div_eq_ofInt (x y : Word) : x / y = .ofInt (x.toInt.tdiv y.toInt) := by
  rw [← Int64.toInt_inj, Int64.toInt_div, Int64.toInt_ofInt]

theorem sub_div_mul (x y : Word) : x - x / y * y = x % y := by
  calc x - x / y * y = .ofInt x.toInt - .ofInt (x.toInt.tdiv y.toInt) * .ofInt y.toInt := by
        rw [← div_eq_ofInt, Int64.ofInt_toInt, Int64.ofInt_toInt]
    _ = .ofInt (x.toInt.tmod y.toInt) := by
        rw [← Int64.ofInt_mul, ← Int64.ofInt_sub, Int.tmod_def, Int.mul_comm]
    _ = x % y := by rw [← Int64.toInt_mod, Int64.ofInt_toInt]

theorem mask_add (a mask : Word) : (a &&& ~~~mask) + (a &&& mask) = a := by
  rw [← Int64.toBitVec_inj, Int64.toBitVec_add, Int64.toBitVec_and, Int64.toBitVec_and, Int64.toBitVec_not]
  generalize a.toBitVec = v
  generalize mask.toBitVec = mask
  rw [BitVec.add_eq_or_of_and_eq_zero]
  · ext i
    simp only [BitVec.getElem_or, BitVec.getElem_and, BitVec.getElem_not]
    cases v[i] <;> cases mask[i] <;> rfl
  · ext i
    simp only [BitVec.getElem_and, BitVec.getElem_not, BitVec.getElem_zero]
    cases v[i] <;> cases mask[i] <;> rfl

end Arithmetic

namespace Processor

/-- The bytes that an offset of the program stands for, in which a word takes four bytes. -/
def scaled (offset : Word) : Word :=
  .ofInt (offset.toInt.tdiv 4 * 8)

variable (labels : Label → Word)

def place (s : Processor) (o : Operand) : Word :=
  if o.kind = .global then labels dataLabel + scaled (o.value - dataBase) else s.x 29 + scaled o.value

def location (s : Processor) (o : Operand) : Word :=
  if o.indirect then s.load (s.place labels o) else s.place labels o

def value (s : Processor) (o : Operand) : Word :=
  if o.kind = .imm then o.value else s.load (s.location labels o)

variable {labels} {s : Processor} {k : Nat} {w : Word} {o : Operand}

@[simp]
theorem location_set (ne : k ≠ 29) : (s.set (.x k) w).location labels o = s.location labels o := by
  simp only [location, place, load_set_x, x_set_of_ne ne.symm]

@[simp]
theorem value_set (ne : k ≠ 29) : (s.set (.x k) w).value labels o = s.value labels o := by
  simp only [value, load_set_x, location_set ne]

@[simp]
theorem location_flagged {f : Flags} : (s.flagged f).location labels o = s.location labels o := by
  simp only [location, place, load, x_flagged, memory_flagged]

end Processor

open Processor (scaled)

theorem machineOffset_eq (offset : Word) : machineOffset offset = scaled offset := by
  rw [machineOffset, div_eq_ofInt, scaled, Int64.ofInt_mul]
  rfl

/-- Whether the bytes up to an operand in the frame can be counted with a word. -/
def Near (o : Operand) : Prop :=
  o.kind = .slot → 0 ≤ o.value.toInt ∧ o.value.toInt < 2 ^ 62

instance (o : Operand) : Decidable (Near o) :=
  inferInstanceAs (Decidable (_ → _))

theorem toInt_machineOffset {offset : Word} (nonneg : 0 ≤ offset.toInt) (lt : offset.toInt < 2 ^ 62) :
    (machineOffset offset).toInt = offset.toInt / 4 * 8 := by
  rw [machineOffset_eq, scaled, Int64.toInt_ofInt, Int.tdiv_eq_ediv_of_nonneg nonneg, Int.bmod_def, Int64.size]
  split <;> omega

/-- Offsets that a load or a store can have, if they are not too large. -/
def Aligned (offset : Word) : Prop :=
  0 ≤ offset ∧ offset % 8 = 0

theorem aligned_machineOffset {offset : Word} (nonneg : 0 ≤ offset.toInt) (lt : offset.toInt < 2 ^ 62) :
    Aligned (machineOffset offset) := by
  have bytes := toInt_machineOffset nonneg lt
  constructor
  · rw [Int64.le_iff_toInt_le, bytes, Int64.toInt_zero]
    omega
  · rw [← Int64.toInt_inj, Int64.toInt_mod, bytes]
    exact Int.mul_tmod_left _ 8

/-- Code without a jump, whose numbers fit its instructions if what they count is in reach. -/
structure Fit (reach : Prop) (is : List Instr) : Prop where
  straight : ∀ i ∈ is, i.branches = false
  encodable : reach → ∀ i ∈ is, i.encodable = true

namespace Fit

variable {reach reach' : Prop} {is is' : List Instr}

theorem nil : Fit reach [] :=
  ⟨by simp, by simp⟩

theorem append (first : Fit reach is) (second : Fit reach is') : Fit reach (is ++ is') := by
  constructor
  · intro i member
    rcases List.mem_append.mp member with member | member
    · exact first.straight i member
    · exact second.straight i member
  · intro near i member
    rcases List.mem_append.mp member with member | member
    · exact first.encodable near i member
    · exact second.encodable near i member

theorem cons {i : Instr} (straight : i.branches = false) (encodable : reach → i.encodable = true) (rest : Fit reach is) :
    Fit reach (i :: is) :=
  ⟨by simpa [straight] using rest.straight, fun near => by simpa [encodable near] using rest.encodable near⟩

theorem mono (h : Fit reach is) (weaker : reach' → reach) : Fit reach' is :=
  ⟨h.straight, fun near => h.encodable (weaker near)⟩

end Fit

/-- The lowering after some registers have been taken and some instructions written. -/
def Lowering.wrote (s : Lowering) (free : List Reg) (is : List Instr) : Lowering :=
  { s with free := free, lines := s.lines ++ (is.map Line.instr).toArray }

theorem Lowering.wrote_nil (s : Lowering) : s.wrote s.free [] = s := by
  simp [wrote]

theorem Lowering.wrote_wrote (s : Lowering) (free free' : List Reg) (is is' : List Instr) :
    (s.wrote free is).wrote free' is' = s.wrote free' (is ++ is') := by
  simp [wrote]

/-- The same lowering, however many registers have been taken at a time. -/
def Lowering.withPeak (s : Lowering) (peak : Nat) : Lowering :=
  { s with peak := peak }

/-- What holds of the result of an action, the registers that it leaves free and the instructions that it
    writes, if it succeeds. -/
def Writes {α : Type} (x : LowerM α) (s : Lowering) (Q : α → List Reg → List Instr → Prop) : Prop :=
  ∀ peak a s', x.run (s.withPeak peak) = .ok a s' → ∃ free is peak', s' = (s.wrote free is).withPeak peak' ∧ Q a free is

namespace Writes

variable {α β : Type} {s : Lowering} {Q Q' : α → List Reg → List Instr → Prop}

theorem mono {x : LowerM α} (h : Writes x s Q) (imp : ∀ a free is, Q a free is → Q' a free is) : Writes x s Q' := by
  intro peak a s' run
  obtain ⟨free, is, peak', written, holds⟩ := h peak a s' run
  exact ⟨free, is, peak', written, imp a free is holds⟩

theorem pure {a : α} (holds : Q a s.free []) : Writes (Pure.pure a) s Q := by
  intro peak a s' run
  cases run
  exact ⟨_, _, peak, by rw [s.wrote_nil], holds⟩

theorem bind {x : LowerM α} {f : α → LowerM β} {P : β → List Reg → List Instr → Prop} (first : Writes x s Q)
    (second : ∀ a free is, Q a free is → Writes (f a) (s.wrote free is) fun b free' is' => P b free' (is ++ is')) :
    Writes (x >>= f) s P := by
  intro peak b s'' run
  rw [run_bind] at run
  cases runFirst : x.run (s.withPeak peak) with
  | error e s' =>
    rw [runFirst] at run
    cases run
  | ok a s' =>
    rw [runFirst] at run
    obtain ⟨free, is, peak', rfl, holds⟩ := first peak a s' runFirst
    obtain ⟨free', is', peak'', rfl, holds'⟩ := second a free is holds peak' b s'' run
    exact ⟨free', is ++ is', peak'', by rw [s.wrote_wrote], holds'⟩

theorem get {Q : Lowering → List Reg → List Instr → Prop} (holds : ∀ peak, Q (s.withPeak peak) s.free []) :
    Writes get s Q := by
  intro peak a s' run
  cases run
  exact ⟨_, _, peak, by rw [s.wrote_nil], holds peak⟩

theorem fail (error : Nat → LowerError) : Writes (fail error) s Q := by
  intro peak a s' run
  cases run

theorem instr {i : Instr} {Q : Unit → List Reg → List Instr → Prop} (holds : Q () s.free [i]) :
    Writes (instr i) s Q := by
  intro peak a s' run
  cases run
  exact ⟨s.free, [i], peak, by simp [Lowering.wrote, Lowering.withPeak], holds⟩

theorem instrs {is : List Instr} {Q : Unit → List Reg → List Instr → Prop} (holds : Q () s.free is) :
    Writes (is.forM Assembly.instr) s Q := by
  induction is generalizing s Q with
  | nil => exact .pure holds
  | cons i is ih =>
    refine bind (Q := fun _ free written => free = s.free ∧ written = [i]) (.instr ⟨rfl, rfl⟩) ?_
    rintro _ _ _ ⟨rfl, rfl⟩
    exact ih holds

theorem reg {r : Reg} {free : List Reg} {Q : Reg → List Reg → List Instr → Prop} (first : s.free = r :: free)
    (holds : Q r free []) : Writes reg s Q := by
  rcases s with ⟨index, function, frame, free, _, lines⟩
  cases first
  intro peak a s' run
  cases run
  exact ⟨free, [], max peak (scratch.length - free.length), by simp [Lowering.wrote, Lowering.withPeak], holds⟩

theorem freeAll {Q : Unit → List Reg → List Instr → Prop} (holds : Q () scratch []) : Writes freeAll s Q := by
  intro peak a s' run
  cases run
  exact ⟨scratch, [], peak, by simp [Lowering.wrote, Lowering.withPeak], holds⟩

end Writes

def addition (d a : Reg) (n : Word) (t : Reg) : List Instr :=
  if n < 4096 then [.addImm d a n] else [.constant t n, .add d a t]

theorem le_of_lt_4096 {n : Word} (small : n < 4096) : n ≤ 4095 := by
  rw [Int64.lt_iff_toInt_lt] at small
  exact Int64.le_iff_toInt_le.mpr (Int.le_of_lt_add_one small)

theorem fit_addition (d a : Reg) (n : Word) (t : Reg) : Fit (0 ≤ n) (addition d a n t) := by
  unfold addition
  split
  · next small =>
    exact .cons rfl (fun nonneg => decide_eq_true ⟨nonneg, le_of_lt_4096 small⟩) .nil
  · exact .cons rfl (fun _ => rfl) (.cons rfl (fun _ => rfl) .nil)

variable {labels : Label → Word} {k : Nat}

theorem run_addition (inFrame : k ≠ 29) (n : Word) (s : Processor) :
    run labels s (addition (.x k) (.x 29) n (.x k)) = s.set (.x k) (s.x 29 + n) := by
  unfold addition
  split
  · rfl
  · simp only [run_cons, run_nil, exec, Processor.get_x, Processor.x_set_self, Processor.x_set_of_ne inFrame.symm,
      Processor.set_set]

theorem writes_addConstant (d a : Reg) (n : Word) (t : Reg) (s : Lowering) :
    Writes (addConstant d a n t) s fun _ free is => free = s.free ∧ is = addition d a n t := by
  unfold addConstant addition
  split
  · exact .instr ⟨rfl, rfl⟩
  · refine .bind (Q := fun _ free is => free = s.free ∧ is = [.constant t n]) (.instr ⟨rfl, rfl⟩) ?_
    rintro _ _ _ ⟨rfl, rfl⟩
    exact .instr ⟨rfl, rfl⟩

/-- Code that computes an address, for which it has the register `x k`: afterwards the operand `m` is at
    that address. -/
structure Addresses (k : Nat) (reach : Prop) (place : (Label → Word) → Processor → Word) (is : List Instr) (m : Mem) :
    Prop where
  effect : ∀ labels s, ∃ w, run labels s is = s.set (.x k) w ∧ (s.set (.x k) w).address m = place labels s
  still : ∀ s : Processor, s.moved m = s
  fit : Fit reach is
  reachable : reach → m.reachable = true

namespace Addresses

variable {reach : Prop} {place : (Label → Word) → Processor → Word} {is : List Instr} {m : Mem}

theorem run_load (h : Addresses k reach place is m) (s : Processor) :
    run labels s (is ++ [.ldr (.x k) m]) = s.set (.x k) (s.load (place labels s)) := by
  obtain ⟨w, ran, address⟩ := h.effect labels s
  rw [run_append, ran, run_cons, run_nil, exec, h.still, address, Processor.set_set, Processor.load_set_x]

theorem fit_load (h : Addresses k reach place is m) : Fit reach (is ++ [.ldr (.x k) m]) :=
  h.fit.append (.cons rfl h.reachable .nil)

theorem run_store {j : Nat} (h : Addresses k reach place is m) (other : j ≠ k) (labels : Label → Word) (s : Processor) :
    ∃ w, run labels s (is ++ [.str (.x j) m]) = (s.set (.x k) w).store (place labels s) (s.x j) := by
  obtain ⟨w, ran, address⟩ := h.effect labels s
  refine ⟨w, ?_⟩
  rw [run_append, ran, run_cons, run_nil, exec, h.still, address, Processor.get_x, Processor.x_set_of_ne other]

theorem fit_store {r : Reg} (h : Addresses k reach place is m) : Fit reach (is ++ [.str r m]) :=
  h.fit.append (.cons rfl h.reachable .nil)

end Addresses

section Operands

variable {s : Lowering} {o : Operand} (inFrame : k ≠ 29)

include inFrame

theorem writes_frameMem (offset : Word) :
    Writes (frameMem offset (.x k)) s fun m free is =>
      free = s.free ∧ Addresses k (Aligned offset) (fun _ s => s.x 29 + offset) is m := by
  unfold frameMem
  split
  · next near =>
    refine .pure ⟨rfl, fun _ s => ⟨s.x k, by simp, by simp [Processor.address]⟩, fun _ => rfl, .nil, fun aligned => ?_⟩
    simp only [Mem.reachable, decide_eq_true_eq]
    exact ⟨aligned.1, near, aligned.2⟩
  · refine (writes_addConstant _ _ _ _ s).bind ?_
    rintro _ _ _ ⟨rfl, rfl⟩
    refine .pure ⟨rfl, fun _ s => ?_, fun _ => rfl, ?_, fun _ => rfl⟩
    · rw [List.append_nil, run_addition inFrame]
      exact ⟨_, rfl, Processor.x_set_self⟩
    · rw [List.append_nil]
      exact (fit_addition ..).mono And.left

omit inFrame in
theorem writes_globalAddress (address : Word) :
    Writes (globalAddress (.x k) address) s fun _ free is => free = s.free ∧ Fit True is ∧
      ∀ labels s, run labels s is = s.set (.x k) (labels dataLabel + scaled (address - dataBase)) := by
  refine .bind (Q := fun _ free is => free = s.free ∧
    is = [.adrp (.x k) ⟨dataLabel, machineOffset (address - dataBase)⟩]) (.instr ⟨rfl, rfl⟩) ?_
  rintro _ _ _ ⟨rfl, rfl⟩
  refine .instr ⟨rfl, .cons rfl (fun _ => rfl) (.cons rfl (fun _ => rfl) .nil), fun labels s => ?_⟩
  simp only [List.singleton_append, run_cons, run_nil, exec, Processor.get_x, Processor.x_set_self, Processor.set_set,
    mask_add, Place.address, machineOffset_eq]

theorem writes_slotMem :
    Writes (slotMem o (.x k)) s fun m free is =>
      free = s.free ∧ Addresses k (Near o) (fun labels s => s.place labels o) is m := by
  unfold slotMem
  split
  · next slot =>
    refine .bind (Q := fun _ free is => free = s.free ∧ is = []) (.get fun _ => ⟨rfl, rfl⟩) ?_
    rintro _ _ _ ⟨rfl, rfl⟩
    split
    · exact .fail _
    · rw [s.wrote_nil]
      refine (writes_frameMem inFrame _).mono ?_
      rintro m free is ⟨same, addresses⟩
      refine ⟨same, fun labels s => ?_, addresses.still, ?_, ?_⟩
      · rw [Processor.place, if_neg (by simp [slot]), ← machineOffset_eq]
        exact addresses.effect labels s
      · exact addresses.fit.mono fun near => aligned_machineOffset (near slot).1 (near slot).2
      · exact fun near => addresses.reachable (aligned_machineOffset (near slot).1 (near slot).2)
  · next global =>
    refine (writes_globalAddress o.value).bind ?_
    rintro _ _ is ⟨rfl, fit, effect⟩
    refine .pure ⟨rfl, fun labels s => ?_, fun _ => rfl, ?_, fun _ => rfl⟩
    · rw [List.append_nil, effect, Processor.place, if_pos global]
      exact ⟨_, rfl, Processor.x_set_self⟩
    · rw [List.append_nil]
      exact fit.mono fun _ => trivial
  · exact .fail _

theorem writes_storageMem :
    Writes (storageMem o (.x k)) s fun m free is =>
      free = s.free ∧ Addresses k (Near o) (fun labels s => s.location labels o) is m := by
  have direct : ∀ labels (s : Processor), s.place labels { o with indirect := false } = s.place labels o := fun _ _ => rfl
  refine (writes_slotMem inFrame).bind ?_
  rintro m _ is ⟨rfl, addresses⟩
  split
  · next indirect =>
    refine .bind (Q := fun _ free is => free = s.free ∧ is = [.ldr (.x k) m]) (.instr ⟨rfl, rfl⟩) ?_
    rintro _ _ _ ⟨rfl, rfl⟩
    refine .pure ⟨rfl, fun labels s => ?_, fun _ => rfl, ?_, fun _ => rfl⟩
    · rw [List.append_nil, addresses.run_load, Processor.location, if_pos indirect, direct]
      exact ⟨_, rfl, Processor.x_set_self⟩
    · rw [List.append_nil]
      exact addresses.fit_load
  · next own =>
    refine .pure ⟨rfl, fun labels s => ?_, addresses.still, ?_, addresses.reachable⟩
    · rw [List.append_nil, Processor.location, if_neg own, ← direct]
      exact addresses.effect labels s
    · rw [List.append_nil]
      exact addresses.fit

theorem writes_loadInto :
    Writes (loadInto (.x k) o) s fun _ free is => free = s.free ∧ Fit (Near o) is ∧
      ∀ labels s, run labels s is = s.set (.x k) (s.value labels o) := by
  unfold loadInto
  split
  · next imm =>
    have value : ∀ labels (s : Processor), s.value labels o = o.value := fun _ _ => by rw [Processor.value, if_pos imm]
    split
    · next small =>
      refine .instr ⟨rfl, .cons rfl (fun _ => ?_) .nil, fun labels s => by rw [value]; rfl⟩
      have below := small.2
      rw [Int64.lt_iff_toInt_lt] at below
      simp only [Instr.encodable, decide_eq_true_eq]
      exact ⟨small.1, Int64.le_iff_toInt_le.mpr (Int.le_of_lt_add_one below)⟩
    · exact .instr ⟨rfl, .cons rfl (fun _ => rfl) .nil, fun labels s => by rw [value]; rfl⟩
  · next other =>
    refine (writes_storageMem inFrame).bind ?_
    rintro m _ is ⟨rfl, addresses⟩
    refine .instr ⟨rfl, addresses.fit_load, fun labels s => ?_⟩
    rw [addresses.run_load, Processor.value, if_neg other]

theorem writes_load {free : List Reg} (first : s.free = .x k :: free) :
    Writes (load o) s fun r free' is => r = .x k ∧ free' = free ∧ Fit (Near o) is ∧
      ∀ labels s, run labels s is = s.set (.x k) (s.value labels o) := by
  refine .bind (Q := fun r free' is => r = .x k ∧ free' = free ∧ is = []) (.reg first ⟨rfl, rfl, rfl⟩) ?_
  rintro _ _ _ ⟨rfl, rfl, rfl⟩
  refine (writes_loadInto inFrame).bind ?_
  rintro _ _ is ⟨rfl, fit, effect⟩
  refine .pure ⟨rfl, rfl, ?_, ?_⟩
  · rwa [List.append_nil]
  · rwa [List.append_nil]

theorem writes_store {j : Nat} {free : List Reg} (other : j ≠ k) (first : s.free = .x k :: free) :
    Writes (store (.x j) o) s fun _ _ is => Fit (Near o) is ∧
      ∀ labels s, ∃ w, run labels s is = (s.set (.x k) w).store (s.location labels o) (s.x j) := by
  refine .bind (Q := fun r free' is => r = .x k ∧ free' = free ∧ is = []) (.reg first ⟨rfl, rfl, rfl⟩) ?_
  rintro _ _ _ ⟨rfl, rfl, rfl⟩
  refine (writes_storageMem inFrame).bind ?_
  rintro m _ is ⟨rfl, addresses⟩
  exact .instr ⟨addresses.fit_store, addresses.run_store other⟩

end Operands

/-- The word that an operation makes of two. The elements of an array are eight bytes apart. -/
def word? : Opcode → Option (Word → Word → Word)
  | .elem => some fun base index => base + 8 * index
  | op => (Machine.arithmetic? op).or (Machine.division? op)

/-- Where an instruction that computes a word puts it, and what the word is. -/
def written? (i : Instruction) : Option (Operand × ((Label → Word) → Processor → Word)) :=
  match i.op with
  | .assign => some (i.a2, fun labels s => s.value labels i.a1)
  | .addr => some (i.a3, fun labels s => s.location labels i.a1)
  | op => (word? op).map fun f => (i.a3, fun labels s => f (s.value labels i.a1) (s.value labels i.a2))

def computing : List Opcode :=
  [.add, .sub, .mult, .div, .mod, .eq, .ne, .lt, .le, .gt, .ge, .assign, .addr, .elem]

section Operations

variable {op : Opcode} {compute : Reg → Reg → Reg → List Instr} {f : Word → Word → Word}

theorem fit_operation (known : operation? op = some compute) (d a b : Reg) : Fit True (compute d a b) := by
  cases op <;> cases known <;> exact ⟨by simp [Instr.branches], by simp [Instr.encodable]⟩

theorem run_compare {a b d : Nat} (c : Condition) (s : Processor) :
    run labels s [.cmp (.x a) (.x b), .cset (.x d) c] =
      (s.set (.x d) (Machine.ofBool (c.test (s.x a) (s.x b)))).flagged (.ofDifference (s.x a) (s.x b)) := by
  simp only [run_cons, run_nil, exec, Processor.get_x, Processor.flags_flagged, Flags.holds_ofDifference]
  rfl

theorem run_operation (known : operation? op = some compute) (means : word? op = some f) {a b d : Nat} (da : d ≠ a)
    (db : d ≠ b) (labels : Label → Word) (s : Processor) : ∃ flags, run labels s (compute (.x d) (.x a) (.x b)) =
      (s.set (.x d) (f (s.x a) (s.x b))).flagged flags := by
  cases op
  case eq | ne | lt | le | gt | ge =>
    cases known
    cases means
    exact ⟨_, run_compare _ s⟩
  case mod =>
    cases known
    cases means
    refine ⟨s.flags, ?_⟩
    simp only [run_cons, run_nil, exec, Processor.get_x, Processor.x_set_self, Processor.x_set_of_ne da.symm,
      Processor.x_set_of_ne db.symm, Processor.set_set, sub_div_mul]
    rfl
  case elem =>
    cases known
    cases means
    refine ⟨s.flags, ?_⟩
    simp only [run_cons, run_nil, exec, Processor.get_x, Int64.mul_comm _ 8]
    rfl
  case add | sub | mult | div =>
    cases known
    cases means
    exact ⟨s.flags, rfl⟩
  all_goals cases known

theorem instruction_of_operation {p : Program} {i : Instruction} (known : operation? i.op = some compute) :
    instruction p i = binary i compute := by
  rcases i with ⟨op, a1, a2, a3⟩
  cases op
  case add | sub | mult | div | mod | eq | ne | lt | le | gt | ge | elem =>
    cases known
    rfl
  all_goals cases known

theorem computing_cases {i : Instruction} (computes : i.op ∈ computing) :
    (i.op = .assign ∧ written? i = some (i.a2, fun labels s => s.value labels i.a1)) ∨
      (i.op = .addr ∧ written? i = some (i.a3, fun labels s => s.location labels i.a1)) ∨
      ∃ compute f, operation? i.op = some compute ∧ word? i.op = some f ∧
        written? i = some (i.a3, fun labels s => f (s.value labels i.a1) (s.value labels i.a2)) := by
  rcases i with ⟨op, a1, a2, a3⟩
  cases op
  case assign => exact .inl ⟨rfl, rfl⟩
  case addr => exact .inr (.inl ⟨rfl, rfl⟩)
  case add | sub | mult | div | mod | eq | ne | lt | le | gt | ge | elem => exact .inr (.inr ⟨_, _, rfl, rfl, rfl⟩)
  all_goals simp [computing] at computes

end Operations

/-- Code that stores a word, and changes nothing else but registers that hold nothing between
    instructions. -/
def Stores (is : List Instr) (target : Operand) (word : (Label → Word) → Processor → Word) : Prop :=
  ∀ labels s, (run labels s is).memory = s.memory.store (s.location labels target) (word labels s) ∧
    (run labels s is).sp = s.sp ∧ (run labels s is).x 29 = s.x 29

theorem stores_operation {op : Opcode} {compute : Reg → Reg → Reg → List Instr} {f : Word → Word → Word}
    {is is' is'' : List Instr} {o o' target : Operand} (known : operation? op = some compute) (means : word? op = some f)
    (loads : ∀ labels s, run labels s is = s.set (.x 9) (s.value labels o))
    (loads' : ∀ labels s, run labels s is' = s.set (.x 10) (s.value labels o'))
    (stores : ∀ labels s, ∃ w, run labels s is'' = (s.set (.x 12) w).store (s.location labels target) (s.x 11)) :
    Stores (is ++ (is' ++ (compute (.x 11) (.x 9) (.x 10) ++ is''))) target
      fun labels s => f (s.value labels o) (s.value labels o') := by
  intro labels s
  have loaded : run labels (run labels s is) is' = (s.set (.x 9) (s.value labels o)).set (.x 10) (s.value labels o') := by
    rw [loads, loads', Processor.value_set (by decide)]
  dsimp only
  generalize s.value labels o = x at loaded ⊢
  generalize s.value labels o' = y at loaded ⊢
  obtain ⟨flags, computed⟩ := run_operation known means (a := 9) (b := 10) (d := 11) (by decide)
    (by decide) labels ((s.set (.x 9) x).set (.x 10) y)
  rw [Processor.x_set_of_ne (by decide), Processor.x_set_self, Processor.x_set_self] at computed
  obtain ⟨w, stored⟩ := stores labels ((((s.set (.x 9) x).set (.x 10) y).set (.x 11) (f x y)).flagged flags)
  rw [run_append, run_append, run_append, loaded, computed, stored]
  simp [Processor.x_set_of_ne]

section Instructions

variable {s : Lowering} {i : Instruction} (all : s.free = scratch)

include all

theorem writes_assign : Writes (load i.a1 >>= fun r => store r i.a2) s fun _ _ is =>
    Fit (Near i.a1 ∧ Near i.a2) is ∧ Stores is i.a2 fun labels s => s.value labels i.a1 := by
  refine (writes_load (by decide) all).bind ?_
  rintro _ _ is ⟨rfl, rfl, fit, loads⟩
  refine (writes_store (j := 9) (by decide) (by decide) rfl).mono ?_
  rintro _ _ is' ⟨fit', stores⟩
  refine ⟨(fit.mono And.left).append (fit'.mono And.right), fun labels s => ?_⟩
  obtain ⟨w, stored⟩ := stores labels (s.set (.x 9) (s.value labels i.a1))
  rw [run_append, loads, stored]
  simp [Processor.x_set_of_ne]

theorem writes_binary {compute : Reg → Reg → Reg → List Instr} {f : Word → Word → Word}
    (known : operation? i.op = some compute) (means : word? i.op = some f) :
    Writes (binary i compute) s fun _ _ is => Fit (Near i.a1 ∧ Near i.a2 ∧ Near i.a3) is ∧
      Stores is i.a3 fun labels s => f (s.value labels i.a1) (s.value labels i.a2) := by
  refine (writes_load (by decide) all).bind ?_
  rintro _ _ is ⟨rfl, rfl, fit, loads⟩
  refine (writes_load (k := 10) (by decide) rfl).bind ?_
  rintro _ _ is' ⟨rfl, rfl, fit', loads'⟩
  refine .bind (Q := fun r free is => r = .x 11 ∧ free = scratch.drop 3 ∧ is = []) (.reg rfl ⟨rfl, rfl, rfl⟩) ?_
  rintro _ _ _ ⟨rfl, rfl, rfl⟩
  refine .bind (Q := fun _ free is => free = scratch.drop 3 ∧ is = compute (.x 11) (.x 9) (.x 10)) (.instrs ⟨rfl, rfl⟩) ?_
  rintro _ _ _ ⟨rfl, rfl⟩
  refine (writes_store (j := 11) (k := 12) (by decide) (by decide) rfl).mono ?_
  rintro _ _ is'' ⟨fit'', stores⟩
  constructor
  · have operation := (fit_operation known (.x 11) (.x 9) (.x 10)).mono fun _ : Near i.a1 ∧ Near i.a2 ∧ Near i.a3 => trivial
    exact (fit.mono And.left).append ((fit'.mono fun near => near.2.1).append
      (Fit.nil.append (operation.append (fit''.mono fun near => near.2.2))))
  · exact stores_operation known means loads loads' stores

theorem writes_storeAddress : Writes (storeAddress i) s fun _ _ is =>
    Fit (Near i.a1 ∧ Near i.a3) is ∧ Stores is i.a3 fun labels s => s.location labels i.a1 := by
  unfold storeAddress
  split
  · exact .fail _
  · next direct =>
    -- The address is in `x9`, and what is left is to store it.
    have finish : ∀ is, Fit (Near i.a1) is → (∀ labels s, run labels s is = s.set (.x 9) (s.location labels i.a1)) →
        Writes (store (.x 9) i.a3) (s.wrote (scratch.drop 1) is) fun _ _ is' =>
          Fit (Near i.a1 ∧ Near i.a3) (is ++ is') ∧ Stores (is ++ is') i.a3 fun labels s => s.location labels i.a1 := by
      intro is fit loads
      refine (writes_store (j := 9) (k := 10) (by decide) (by decide) rfl).mono ?_
      rintro _ _ is' ⟨fit', stores⟩
      refine ⟨(fit.mono And.left).append (fit'.mono And.right), fun labels s => ?_⟩
      obtain ⟨w, stored⟩ := stores labels (s.set (.x 9) (s.location labels i.a1))
      rw [run_append, loads, stored]
      simp [Processor.x_set_of_ne]
    have location : ∀ labels (s : Processor), s.location labels i.a1 = s.place labels i.a1 := fun _ _ => by
      rw [Processor.location, if_neg direct]
    refine .bind (Q := fun r free is => r = .x 9 ∧ free = scratch.drop 1 ∧ is = []) (.reg all ⟨rfl, rfl, rfl⟩) ?_
    rintro _ _ _ ⟨rfl, rfl, rfl⟩
    split
    · next slot =>
      refine (writes_addConstant _ _ _ _ _).bind ?_
      rintro _ _ _ ⟨rfl, rfl⟩
      rw [Lowering.wrote_wrote]
      refine finish _ ((fit_addition ..).mono fun near => ?_) fun labels s => ?_
      · exact (aligned_machineOffset (near slot).1 (near slot).2).1
      · rw [List.nil_append, run_addition (by decide), location, Processor.place, if_neg (by simp [slot]), machineOffset_eq]
    · next global =>
      refine (writes_globalAddress _).bind ?_
      rintro _ _ is ⟨rfl, fit, loads⟩
      rw [Lowering.wrote_wrote]
      refine finish _ (fit.mono fun _ => trivial) fun labels s => ?_
      rw [List.nil_append, loads, location, Processor.place, if_pos global]
    · exact .bind (Q := fun _ _ _ => False) (.fail _) fun _ _ _ impossible => impossible.elim

end Instructions

theorem writes_computing (p : Program) {i : Instruction} (computes : i.op ∈ computing) :
    ∃ target word, written? i = some (target, word) ∧ ∀ s : Lowering, s.free = scratch →
      Writes (instruction p i) s fun _ _ is => Fit (∀ o ∈ i.operands, Near o) is ∧ Stores is target word := by
  have near : (∀ o ∈ i.operands, Near o) → Near i.a1 ∧ Near i.a2 ∧ Near i.a3 := by
    simp only [Instruction.operands, List.forall_mem_cons]
    exact fun near => ⟨near.1, near.2.1, near.2.2.1⟩
  rcases computing_cases computes with ⟨isAssign, written⟩ | ⟨isAddr, written⟩ | ⟨compute, f, known, means, written⟩
  · refine ⟨_, _, written, fun s all => ?_⟩
    rw [instruction, isAssign]
    refine (writes_assign all).mono ?_
    rintro _ _ is ⟨fit, stores⟩
    exact ⟨fit.mono fun h => ⟨(near h).1, (near h).2.1⟩, stores⟩
  · refine ⟨_, _, written, fun s all => ?_⟩
    rw [instruction, isAddr]
    refine (writes_storeAddress all).mono ?_
    rintro _ _ is ⟨fit, stores⟩
    exact ⟨fit.mono fun h => ⟨(near h).1, (near h).2.2⟩, stores⟩
  · refine ⟨_, _, written, fun s all => ?_⟩
    rw [instruction_of_operation known]
    refine (writes_binary all known means).mono ?_
    rintro _ _ is ⟨fit, stores⟩
    exact ⟨fit.mono near, stores⟩

/-- Whether the lines of an instruction of a program are these machine instructions and no more. -/
def CodeOf (lines : List Line) (n : Nat) (i : Instruction) (is : List Instr) : Prop :=
  ∃ before after, lines = before ++ .source n i :: (is.map Line.instr ++ after) ∧ Pauses after

section Program

variable {p : Program} {lines : List Line} {n : Nat} {i : Instruction}

theorem codeOf_lower (lowered : lower p = .ok lines) (found : p.code[n]? = some i)
    {Q : Unit → List Reg → List Instr → Prop}
    (writes : ∀ c : Context, (i.op = .func → c.frame = frameBytes i.a1.value) →
      Writes (instruction p i) { index := n, function := c.function, frame := c.frame } Q) :
    ∃ free is, CodeOf lines n i is ∧ Q () free is := by
  obtain ⟨c, s, before, after, rfl, pauses⟩ := split_lower lowered found
  obtain ⟨s', run, own⟩ := instructionLines_cases s.lowers
  have frame : i.op = .func → s.inner.frame = frameBytes i.a1.value := by
    intro isFunc
    obtain ⟨f, _, inner⟩ := s.inner_of_func isFunc
    rw [inner]
  obtain ⟨free, is, _, rfl, holds⟩ := writes s.inner frame 0 () s' run
  refine ⟨free, is, ⟨before ++ s.opening ++ landing (jumped p) n, (closeFunction n s.inner).1 ++ after, ?_, ?_⟩, holds⟩
  · simp [Step.lines, own, Lowering.wrote, Lowering.withPeak]
  · exact pauses_closeFunction.append pauses

/-- Every instruction that computes a word is lowered to code that stores it, and changes no other byte
    of the memory. The words that it computes from are those before its code. Its numbers fit its
    instructions, also where the operands are far. -/
theorem stores_of_lower (lowered : lower p = .ok lines) (found : p.code[n]? = some i) (computes : i.op ∈ computing) :
    ∃ is target word, CodeOf lines n i is ∧ written? i = some (target, word) ∧
      (∀ j ∈ is, j.branches = false) ∧ ((∀ o ∈ i.operands, Near o) → ∀ j ∈ is, j.encodable = true) ∧
      ∀ labels s, (run labels s is).load (s.location labels target) = word labels s ∧
        (∀ b, ¬ Within (s.location labels target) 8 b → (run labels s is).memory b = s.memory b) ∧
        (run labels s is).sp = s.sp ∧ (run labels s is).x 29 = s.x 29 := by
  obtain ⟨target, word, written, writes⟩ := writes_computing p computes
  obtain ⟨_, is, code, fit, stores⟩ := codeOf_lower lowered found fun _ _ => writes _ rfl
  refine ⟨is, target, word, code, written, fit.straight, fit.encodable, fun labels s => ?_⟩
  obtain ⟨memory, sp, frame⟩ := stores labels s
  refine ⟨?_, fun b outside => ?_, sp, frame⟩
  · rw [Processor.load, memory, Bytes.load_store]
  · rw [memory, Bytes.store_of_not_within outside]

/-- An element of an array is named, whose address replaces that of the array. The address of that address
    is in a slot that is out of reach. -/
def farElement : Program :=
  { functions := [{ name := "main", entry := 0, stop := 3 }]
    code := #[{ op := .func, a1 := .imm 40000, a2 := .imm 0 },
      { op := .elem, a1 := (Operand.slot 20000).deref, a2 := .imm (-70000), a3 := (Operand.slot 20000).deref },
        { op := .ret }] }

theorem stores_of_farElement : ∃ lines i is, lower farElement = .ok lines ∧ CodeOf lines 1 i is ∧
    (∀ j ∈ is, j.encodable = true) ∧ ∀ (labels : Label → Word) (s : Processor) (a : Word), s.load (s.x 29 + 40000) = a →
      (run labels s is).load a = s.load a + 8 * -70000 ∧ (run labels s is).sp = s.sp := by
  have location : ∀ labels (s : Processor), s.location labels (Operand.slot 20000).deref = s.load (s.x 29 + 40000) := by
    have far : scaled 20000 = 40000 := by decide
    intro labels s
    rw [← far]
    rfl
  obtain ⟨is, target, word, code, written, _, encodable, stores⟩ :=
    stores_of_lower (p := farElement) (n := 1) rfl rfl (by decide)
  cases written
  refine ⟨_, _, is, rfl, code, encodable ?_, ?_⟩
  · decide
  · rintro labels s _ rfl
    obtain ⟨stored, _, sp, _⟩ := stores labels s
    rw [← location labels]
    exact ⟨stored, sp⟩

end Program

end MiniC.Assembly
