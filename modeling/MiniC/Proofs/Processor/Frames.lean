import MiniC.Proofs.Processor.Images

namespace MiniC.Assembly

section Arithmetic

/-- The bytes of a frame for `size` bytes of the program, in which a word takes four. -/
def frameExtent (size : Nat) : Nat :=
  ((size + 3) / 4 * 8 + 15) / 16 * 16

theorem eq_ofNat {w : Word} {n : Nat} (same : w.toInt = n) : w = .ofNat n := by
  rw [← Int64.ofInt_toInt w, same, Int64.ofInt_eq_ofNat]

theorem machineOffset_ofNat {n : Nat} (lt : n < 2 ^ 63) : machineOffset (.ofNat n) = .ofNat (n / 4 * 8) := by
  rw [machineOffset_eq, Processor.scaled, Int64.toInt_ofNat_of_lt lt, ← Int64.ofInt_eq_ofNat]
  rfl

theorem and_not_fifteen {n : Nat} (lt : n < 2 ^ 64) : (Int64.ofNat n &&& ~~~15) = .ofNat (n / 16 * 16) := by
  have low : Int64.ofNat n &&& 15 = .ofNat (n % 16) := by
    rw [← Int64.toBitVec_inj, Int64.toBitVec_and, Int64.toBitVec_ofNat', Int64.toBitVec_ofNat']
    apply BitVec.eq_of_toNat_eq
    have mask : (15 : Word).toBitVec.toNat = 2 ^ 4 - 1 := rfl
    rw [BitVec.toNat_and, mask, Nat.and_two_pow_sub_one_eq_mod, BitVec.toNat_ofNat, BitVec.toNat_ofNat]
    omega
  have parts := mask_add (.ofNat n) 15
  rw [low] at parts
  rw [← Int64.add_left_inj (.ofNat (n % 16)), parts, ← Int64.ofNat_add, Nat.div_add_mod']

theorem frameBytes_eq {w : Word} {size : Nat} (same : w.toInt = size) (bound : frameExtent size < 2 ^ 63) :
    frameBytes w = .ofNat (frameExtent size) := by
  have room : size + 18 < 2 ^ 63 := by
    unfold frameExtent at bound
    omega
  have last : w + wordSize - 1 = .ofNat (size + 3) := by
    rw [eq_ofNat same, Int64.sub_eq_iff_eq_add, Int64.ofNat_add]
    exact (add_ofNat_add (.ofNat size) 3 1).symm
  rw [frameBytes, last, machineOffset_ofNat (by omega)]
  have sum : Int64.ofNat ((size + 3) / 4 * 8) + 15 = .ofNat ((size + 3) / 4 * 8 + 15) := (Int64.ofNat_add _ 15).symm
  rw [sum, and_not_fifteen (by omega), frameExtent]

theorem aligned_ofNat {n : Nat} (lt : n < 2 ^ 63) (aligned : n % 8 = 0) : Aligned (.ofNat n) := by
  have value := Int64.toInt_ofNat_of_lt lt
  constructor
  · rw [Int64.le_iff_toInt_le, value, Int64.toInt_zero]
    omega
  · rw [← Int64.toInt_inj, Int64.toInt_mod, value]
    have rest : (n : Int).tmod 8 = 0 := by
      rw [Int.tmod_eq_emod_of_nonneg (by omega)]
      omega
    exact rest

end Arithmetic

section Copying

variable {frame n k : Nat} {is is' : List Instr} {s : Lowering}

/-- Whether code copies an argument, of `n`, to the parameter `k`. -/
def CopiesOne (frame n k : Nat) (is : List Instr) : Prop :=
  ∀ labels s, ∃ v w, run labels s is = ((s.set (.x 9) v).set (.x 10) w).store (s.x 29 + .ofNat (8 * k))
    (s.load (s.x 29 + .ofNat (frame + 16 + (n - 1 - k) * 16)))

theorem writes_copyArgument (here : s.frame = .ofNat frame) (aligned : frame % 8 = 0) (lt : k < n)
    (bound : frame + 16 + 16 * n < 2 ^ 63) :
    Writes (copyArgument (.ofNat n) k) s fun _ _ is => Fit True is ∧ CopiesOne frame n k is := by
  have cell : s.frame + 16 + (.ofNat n - 1 - .ofNat k) * 16 = .ofNat (frame + 16 + (n - 1 - k) * 16) := by
    rw [here, Int64.ofNat_add, Int64.ofNat_add, Int64.ofNat_mul, Int64.ofNat_sub _ _ (by omega),
      Int64.ofNat_sub _ _ (by omega)]
    rfl
  have slot : machineOffset (.ofNat k * wordSize) = .ofNat (8 * k) := by
    have words : Int64.ofNat k * wordSize = .ofNat (k * 4) := (Int64.ofNat_mul k 4).symm
    rw [words, machineOffset_ofNat (by omega), Nat.mul_div_cancel _ (by decide), Nat.mul_comm]
  unfold copyArgument
  refine .bind (Q := fun _ free is => free = scratch ∧ is = []) (.freeAll ⟨rfl, rfl⟩) ?_
  rintro _ _ _ ⟨rfl, rfl⟩
  refine .bind (Q := fun r free is => r = .x 9 ∧ free = scratch.drop 1 ∧ is = []) (.reg rfl ⟨rfl, rfl, rfl⟩) ?_
  rintro _ _ _ ⟨rfl, rfl, rfl⟩
  refine .bind (Q := fun t free is => t.frame = s.frame ∧ free = scratch.drop 1 ∧ is = []) (.get fun _ => ⟨rfl, rfl, rfl⟩) ?_
  rintro t _ _ ⟨same, rfl, rfl⟩
  rw [same, cell, slot]
  refine (writes_frameMem (k := 9) (by decide) _).bind ?_
  rintro m _ is ⟨rfl, source⟩
  refine .bind (Q := fun _ free is => free = scratch.drop 1 ∧ is = [.ldr (.x 9) m]) (.instr ⟨rfl, rfl⟩) ?_
  rintro _ _ _ ⟨rfl, rfl⟩
  refine .bind (Q := fun r free is => r = .x 10 ∧ free = scratch.drop 2 ∧ is = []) (.reg rfl ⟨rfl, rfl, rfl⟩) ?_
  rintro _ _ _ ⟨rfl, rfl, rfl⟩
  refine (writes_frameMem (k := 10) (by decide) _).bind ?_
  rintro m' _ is' ⟨rfl, target⟩
  refine .instr ?_
  simp only [List.nil_append, ← List.append_assoc is]
  constructor
  · exact (source.fit_load.mono fun _ => aligned_ofNat (by omega) (by omega)).append
      (target.fit_store.mono fun _ => aligned_ofNat (by omega) (by omega))
  · intro labels s
    obtain ⟨w, stored⟩ := target.run_store (j := 9) (by decide) labels
      (s.set (.x 9) (s.load (s.x 29 + .ofNat (frame + 16 + (n - 1 - k) * 16))))
    rw [Processor.x_set_of_ne (by decide), Processor.x_set_self] at stored
    rw [run_append, source.run_load]
    exact ⟨_, w, stored⟩

/-- Whether code copies the first `k` of `n` arguments to their parameters, and changes no other byte. -/
def Copies (frame n k : Nat) (is : List Instr) : Prop :=
  ∀ labels s, (run labels s is).x 29 = s.x 29 ∧
    (∀ b, ¬ Within (s.x 29) (8 * k) b → (run labels s is).memory b = s.memory b) ∧
    ∀ j < k, (run labels s is).load (s.x 29 + .ofNat (8 * j)) = s.load (s.x 29 + .ofNat (frame + 16 + (n - 1 - j) * 16))

theorem Copies.succ (h : Copies frame n k is) (next : CopiesOne frame n k is') (lt : k < n) (room : 8 * n ≤ frame)
    (bound : frame + 16 + 16 * n < 2 ^ 63) : Copies frame n (k + 1) (is ++ is') := by
  intro labels s
  obtain ⟨base, outside, copied⟩ := h labels s
  obtain ⟨v, w, ran⟩ := next labels (run labels s is)
  rw [run_append, ran, base]
  -- The cells are above the frame, where the copies before this one have changed nothing.
  have cell : (run labels s is).load (s.x 29 + .ofNat (frame + 16 + (n - 1 - k) * 16)) =
      s.load (s.x 29 + .ofNat (frame + 16 + (n - 1 - k) * 16)) :=
    Bytes.load_congr fun b inside => outside b fun below => below.not_above (by omega) (by omega) inside
  refine ⟨base, fun b out => ?_, fun j j_lt => ?_⟩
  · have apart : ¬ Within (s.x 29 + .ofNat (8 * k)) 8 b := fun inside => out (inside.of_add (by omega))
    have before : ¬ Within (s.x 29) (8 * k) b := fun inside => out (inside.mono (by omega))
    exact (Bytes.store_of_not_within apart).trans (outside b before)
  · by_cases last : j = k
    · subst last
      exact Bytes.load_store.trans cell
    · have apart : ∀ c, Within (s.x 29 + .ofNat (8 * j)) 8 c → ¬ Within (s.x 29 + .ofNat (8 * k)) 8 c :=
        fun c => not_within_of_le (by omega) (by omega)
      exact (Bytes.load_store_of_apart apart).trans (copied j (by omega))

theorem writes_copies (here : s.frame = .ofNat frame) (aligned : frame % 8 = 0) (room : 8 * n ≤ frame)
    (bound : frame + 16 + 16 * n < 2 ^ 63) (le : k ≤ n) :
    Writes ((List.range k).forM (copyArgument (.ofNat n))) s fun _ _ is => Fit True is ∧ Copies frame n k is := by
  induction k with
  | zero => exact .pure ⟨.nil, fun labels s => ⟨rfl, fun _ _ => rfl, by simp⟩⟩
  | succ k ih =>
    have split : (List.range k ++ [k]).forM (copyArgument (.ofNat n)) =
        ((List.range k).forM (copyArgument (.ofNat n)) >>= fun _ => [k].forM (copyArgument (.ofNat n))) := List.forM_append
    rw [List.range_succ, split]
    refine (ih (by omega)).bind ?_
    rintro _ free is ⟨fit, copies⟩
    refine .bind (writes_copyArgument (s := s.wrote free is) (k := k) here aligned (by omega) bound) ?_
    rintro _ _ is' ⟨fit', one⟩
    refine .pure ?_
    rw [List.append_nil]
    exact ⟨fit.append fit', copies.succ one (by omega) room bound⟩

end Copying

def reservation (n : Word) : List Instr :=
  if n < 4096 then [.subImm .sp .sp n] else [.constant (.x 9) n, .sub .sp .sp (.x 9)]

def enter (frame : Word) : List Instr :=
  .storePair (.x 29) (.x 30) (.before .sp (-16)) :: (reservation frame ++ [.mov (.x 29) .sp])

def leave (frame : Word) : List Instr :=
  .mov .sp (.x 29) :: (addition .sp .sp frame (.x 9) ++ [.loadPair (.x 29) (.x 30) (.after .sp 16)])

section Frames

variable (labels : Label → Word) (n : Word) (s : Processor)

theorem run_reservation : ∃ w, run labels s (reservation n) = (s.set (.x 9) w).set .sp (s.sp - n) := by
  unfold reservation
  split
  · refine ⟨s.x 9, ?_⟩
    rw [Processor.set_self]
    rfl
  · refine ⟨n, ?_⟩
    simp only [run_cons, run_nil, exec, Processor.get_x, Processor.get_sp, Processor.x_set_self, Processor.sp_set_x]

theorem run_release : ∃ w, run labels s (addition .sp .sp n (.x 9)) = (s.set (.x 9) w).set .sp (s.sp + n) := by
  unfold addition
  split
  · refine ⟨s.x 9, ?_⟩
    rw [Processor.set_self]
    rfl
  · refine ⟨n, ?_⟩
    simp only [run_cons, run_nil, exec, Processor.get_x, Processor.get_sp, Processor.x_set_self, Processor.sp_set_x]

theorem run_enter : (run labels s (enter n)).x 29 = s.sp - 16 - n ∧
    (run labels s (enter n)).memory = (s.memory.store (s.sp - 16) (s.x 29)).store (s.sp - 16 + 8) (s.x 30) := by
  have saves : exec labels s (.storePair (.x 29) (.x 30) (.before .sp (-16))) =
      ((s.set .sp (s.sp - 16)).store (s.sp - 16) (s.x 29)).store (s.sp - 16 + 8) (s.x 30) := by
    rw [Int64.sub_eq_add_neg]
    rfl
  obtain ⟨w, reserved⟩ := run_reservation labels n
    (((s.set .sp (s.sp - 16)).store (s.sp - 16) (s.x 29)).store (s.sp - 16 + 8) (s.x 30))
  rw [enter, run_cons, saves, run_append, reserved]
  simp [exec]

theorem run_leave : (run labels s (leave n)).sp = s.x 29 + n + 16 ∧
    (run labels s (leave n)).x 29 = s.load (s.x 29 + n) ∧ (run labels s (leave n)).x 30 = s.load (s.x 29 + n + 8) ∧
    (run labels s (leave n)).x 0 = s.x 0 ∧ (run labels s (leave n)).memory = s.memory := by
  obtain ⟨w, released⟩ := run_release labels n (s.set .sp (s.x 29))
  have first : exec labels s (.mov .sp (.x 29)) = s.set .sp (s.x 29) := rfl
  rw [leave, run_cons, first, run_append, released]
  simp [exec, Processor.moved, Processor.address, Processor.x_set_of_ne]

theorem fit_leave : Fit (0 ≤ n) (leave n) :=
  .cons rfl (fun _ => rfl) ((fit_addition ..).append (.cons rfl (fun _ => rfl) .nil))

end Frames

/-- How a processor has entered a function that takes `n` arguments. Above its frame are the registers
    of the caller, and above these the cells of the arguments. -/
structure Framed (frame n : Nat) (s s' : Processor) : Prop where
  cells : s'.x 29 + .ofNat (frame + 16) = s.sp
  saved : s'.load (s'.x 29 + .ofNat frame) = s.x 29
  link : s'.load (s'.x 29 + .ofNat (frame + 8)) = s.x 30
  parameters : ∀ j < n, s'.load (s'.x 29 + .ofNat (8 * j)) = s.load (s.sp + .ofNat (16 * (n - 1 - j)))

section Prologue

variable {frame n : Nat} {is : List Instr}

theorem framed_of_copies (copies : Copies frame n n is) (room : 8 * n ≤ frame) (bound : frame + 16 + 16 * n < 2 ^ 63)
    (labels : Label → Word) (s : Processor) : Framed frame n s (run labels s (enter (.ofNat frame) ++ is)) := by
  obtain ⟨base, memory⟩ := run_enter labels (.ofNat frame) s
  rw [run_append]
  generalize run labels s (enter (.ofNat frame)) = s₁ at base memory ⊢
  obtain ⟨base', outside, copied⟩ := copies labels s₁
  generalize run labels s₁ is = s₂ at base' outside copied ⊢
  have pair : s.sp - 16 = s₁.x 29 + .ofNat frame := by rw [base, Int64.sub_add_cancel]
  have link : s.sp - 16 + 8 = s₁.x 29 + .ofNat (frame + 8) := by
    rw [pair]
    exact add_ofNat_add _ frame 8
  have cells : s.sp = s₁.x 29 + .ofNat (frame + 16) := by
    rw [← add_ofNat_add, ← pair]
    exact (Int64.sub_add_cancel ..).symm
  rw [link, pair] at memory
  -- What is above the frame is as it was when the frame was made.
  have above : ∀ k, frame ≤ k → k + 8 < 2 ^ 64 → s₂.load (s₁.x 29 + .ofNat k) = s₁.load (s₁.x 29 + .ofNat k) := by
    intro k le lt
    exact Bytes.load_congr fun b inside => outside b fun below => below.not_above (by omega) (by omega) inside
  constructor
  · rw [base', cells]
  · rw [base', above _ (by omega) (by omega), Processor.load, memory, Bytes.load_store_of_apart, Bytes.load_store]
    exact fun c => not_within_of_le (by omega) (by omega)
  · rw [base', above _ (by omega) (by omega), Processor.load, memory, Bytes.load_store]
  · intro j lt
    have cell : s.sp + .ofNat (16 * (n - 1 - j)) = s₁.x 29 + .ofNat (frame + 16 + (n - 1 - j) * 16) := by
      rw [cells, add_ofNat_add, Nat.mul_comm 16]
    rw [base', copied j lt, cell, Processor.load, memory, Bytes.load_store_of_apart, Bytes.load_store_of_apart]
    · rfl
    · exact fun c inside below => not_within_of_le (by omega) (by omega) below inside
    · exact fun c inside below => not_within_of_le (by omega) (by omega) below inside

theorem fit_enter (n : Word) : Fit (0 ≤ n) (enter n) := by
  have reserves : Fit (0 ≤ n) (reservation n) := by
    unfold reservation
    split
    · next small =>
      exact .cons rfl (fun nonneg => decide_eq_true ⟨nonneg, le_of_lt_4096 small⟩) .nil
    · exact .cons rfl (fun _ => rfl) (.cons rfl (fun _ => rfl) .nil)
  exact .cons rfl (fun _ => rfl) (reserves.append (.cons rfl (fun _ => rfl) .nil))

theorem writes_reservation {s : Lowering} (all : s.free = scratch) (n : Word) :
    Writes (if n < 4096 then instr (.subImm .sp .sp n)
      else reg >>= fun t => instr (.constant t n) >>= fun _ => instr (.sub .sp .sp t)) s
      fun _ _ is => is = reservation n := by
  unfold reservation
  split
  · exact .instr rfl
  · refine .bind (Q := fun r _ is => r = .x 9 ∧ is = []) (.reg all ⟨rfl, rfl⟩) ?_
    rintro _ free _ ⟨rfl, rfl⟩
    refine .bind (Q := fun _ _ is => is = [.constant (.x 9) n]) (.instr rfl) ?_
    rintro _ _ _ rfl
    exact .instr rfl

theorem writes_prologue {s : Lowering} {i : Instruction} (all : s.free = scratch) (here : s.frame = .ofNat frame)
    (takes : i.a2.value = .ofNat n) (aligned : frame % 8 = 0) (room : 8 * n ≤ frame)
    (bound : frame + 16 + 16 * n < 2 ^ 63) :
    Writes (prologue i) s fun _ _ is => Fit True is ∧ ∀ labels s, Framed frame n s (run labels s is) := by
  have parts : prologue i = instr (.storePair (.x 29) (.x 30) (.before .sp (-16))) >>= fun _ => get >>= fun t =>
      (if t.frame < 4096 then instr (.subImm .sp .sp t.frame)
        else reg >>= fun r => instr (.constant r t.frame) >>= fun _ => instr (.sub .sp .sp r)) >>= fun _ =>
      instr (.mov (.x 29) .sp) >>= fun _ => (List.range i.a2.value.toNatClampNeg).forM (copyArgument i.a2.value) := by
    unfold prologue
    refine congrArg _ (funext fun _ => congrArg _ (funext fun t => ?_))
    by_cases small : t.frame < 4096
    · simp only [if_pos small]
    · simp only [if_neg small, bind_assoc]
  have nonneg : (0 : Word) ≤ .ofNat frame := (aligned_ofNat (by omega) aligned).1
  rw [parts, takes, Int64.toNatClampNeg_ofNat_of_lt (by omega)]
  refine .bind (Q := fun _ free is => free = scratch ∧ is = [.storePair (.x 29) (.x 30) (.before .sp (-16))])
    (.instr ⟨all, rfl⟩) ?_
  rintro _ _ _ ⟨rfl, rfl⟩
  refine .bind (Q := fun t free is => t.frame = .ofNat frame ∧ free = scratch ∧ is = []) (.get fun _ => ⟨here, rfl, rfl⟩) ?_
  rintro t _ _ ⟨same, rfl, rfl⟩
  rw [same]
  refine .bind (writes_reservation rfl (.ofNat frame)) ?_
  rintro _ free _ rfl
  refine .bind (Q := fun _ _ is => is = [.mov (.x 29) .sp]) (.instr rfl) ?_
  rintro _ free' _ rfl
  refine .mono (writes_copies ?_ aligned room bound (Nat.le_refl n)) ?_
  · exact here
  rintro _ _ is ⟨fit, copied⟩
  have code : enter (.ofNat frame) ++ is = .storePair (.x 29) (.x 30) (.before .sp (-16)) :: (reservation (.ofNat frame) ++
      (.mov (.x 29) .sp :: is)) := by
    simp [enter]
  rw [List.nil_append, List.singleton_append, List.singleton_append, ← code]
  exact ⟨((fit_enter _).mono fun _ => nonneg).append fit, framed_of_copies copied room bound⟩

end Prologue

theorem epilogueLines_eq (f : Function) (frame : Word) :
    epilogueLines f frame = .label (.epilogue f.entry) :: (leave frame ++ [Instr.ret]).map Line.instr := by
  unfold epilogueLines leave addition
  dsimp only
  split <;> rfl

def Context.Sized (p : Program) (c : Context) : Prop :=
  ∀ f, c.function = some f →
    ∃ (e : Nat) (i : Instruction), f.entry = e ∧ p.code[e]? = some i ∧ c.frame = frameBytes i.a1.value

section Epilogues

variable {p : Program} {n : Nat} {c : Context} {i : Instruction}

theorem Context.Sized.inner (h : c.Sized p) (s : Step p n c i) (found : p.code[n]? = some i) : s.inner.Sized p := by
  rcases s.opening_cases with ⟨_, _, same⟩ | ⟨isFunc, _⟩
  · rwa [same]
  · obtain ⟨f, starts, inner⟩ := s.inner_of_func isFunc
    rw [inner]
    intro f' same
    cases same
    have entry : f.entry = n := by simpa using List.find?_some starts
    exact ⟨n, i, entry, found, rfl⟩

theorem Context.Sized.next (h : c.Sized p) (n : Nat) : (closeFunction n c).2.Sized p := by
  unfold closeFunction
  split
  · split
    · intro f none
      cases none
    · exact h
  · exact h

theorem Context.Sized.closing (h : c.Sized p) {e : Nat}
    (member : .epilogue e ∈ (closeFunction n c).1.filterMap Line.defines?) :
    ∃ i, p.code[e]? = some i ∧
      (closeFunction n c).1 = .label (.epilogue e) :: (leave (frameBytes i.a1.value) ++ [Instr.ret]).map Line.instr := by
  unfold closeFunction at member ⊢
  split at member
  · next f holds =>
    split at member
    · next stops =>
      obtain ⟨e', i, entry, found, frame⟩ := h f holds
      have same : (e : Int) = e' := by
        simpa [epilogueLines_eq, Line.defines?, List.filterMap_map, Function.comp_def, entry] using member
      obtain rfl : e = e' := by omega
      refine ⟨i, found, ?_⟩
      simp only [if_pos stops, epilogueLines_eq, entry, frame]
    · cases member
  · cases member

theorem exists_epilogue {targets : List Int} {rest : List Instruction} {out : List Line}
    (suffix : p.code.toList.drop n = rest) (h : c.Sized p) (lowered : body p targets n c rest = .ok out) {e : Nat}
    (member : .label (.epilogue e) ∈ out) : ∃ i before after, p.code[e]? = some i ∧
      out = before ++ .label (.epilogue e) :: ((leave (frameBytes i.a1.value) ++ [Instr.ret]).map Line.instr ++ after) := by
  induction rest generalizing n c out with
  | nil =>
    cases lowered
    cases member
  | cons j rest ih =>
    obtain ⟨s, later, remains, rfl⟩ := body_cons lowered
    have found : p.code[n]? = some j := by
      have first : (p.code.toList.drop n)[0]? = some j := by rw [suffix]; rfl
      simpa using first
    have inner := h.inner s found
    rcases List.mem_append.mp member with member | member
    · -- Of the labels of a step, only that of a function that is closed is one of an epilogue.
      have defined : .epilogue e ∈ (s.lines targets).filterMap Line.defines? := List.mem_filterMap.mpr ⟨_, member, rfl⟩
      have closes : .epilogue e ∈ (closeFunction n s.inner).1.filterMap Line.defines? := by
        rw [s.defines, List.mem_append, List.mem_append] at defined
        rcases defined with (function | landing) | closes
        · have other := isLocal_functionLabel p n
          split at function
          · rw [← List.mem_singleton.mp function] at other
            cases other
          · cases function
        · split at landing
          · cases List.mem_singleton.mp landing
          · cases landing
        · exact closes
      obtain ⟨i, found, closing⟩ := inner.closing closes
      exact ⟨i, s.opening ++ landing targets n ++ .source n j :: s.own, later, found, by simp [Step.lines, closing]⟩
    · obtain ⟨i, before, after, found, rfl⟩ := ih (drop_succ suffix) (inner.next n) remains member
      exact ⟨i, s.lines targets ++ before, after, found, by simp⟩

theorem Image.Loads.epilogue {g : Image} {a : Word} {lines : List Line} (loaded : g.Loads a lines)
    (lowered : lower p = .ok lines)
    {e : Nat} (found : p.code[e]? = some i) (member : .label (.epilogue e) ∈ lines) :
    g.Holds (g.labels (.epilogue e)) (leave (frameBytes i.a1.value) ++ [.ret]) := by
  obtain ⟨_, out, lowers, rfl⟩ := lower_cases lowered
  have inside : .label (.epilogue e) ∈ out := by
    rw [List.mem_append, List.mem_append] at member
    rcases member with (member | member) | member
    · simp [header, mainLabel] at member
    · exact member
    · simp [footer, dataLabel] at member
  have outside : Context.Sized p {} := by
    intro f none
    cases none
  obtain ⟨i', before, after, found', rfl⟩ := exists_epilogue (n := 0) rfl outside lowers inside
  rw [found] at found'
  cases found'
  have split : header ++ (before ++ .label (.epilogue e) :: ((leave (frameBytes i.a1.value) ++ [Instr.ret]).map Line.instr ++
      after)) ++ footer p = (header ++ before) ++ .label (.epilogue e) ::
        ((leave (frameBytes i.a1.value) ++ [Instr.ret]).map Line.instr ++ (after ++ footer p)) := by
    simp
  rw [split] at loaded
  obtain ⟨a', label, here⟩ := loaded.of_append
  rw [label]
  exact here.holds

end Epilogues

end MiniC.Assembly
