import MiniC.Proofs.Generation.Growth

namespace MiniC

/-- The operands that the code of a function may use, where `slots` are those of its frame and
    `symbols` are all that were declared. -/
inductive Operand.Within (slots : List Slot) (symbols : List Symbol) : Operand → Prop where
  | absent : Within slots symbols .absent
  | imm {w : Word} : Within slots symbols (.imm w)
  | slot {s : Slot} : s ∈ slots → s.kind ≠ .ret → Within slots symbols (.slot s.offset)
  | deref {s : Slot} : s ∈ slots → s.kind = .temp → Within slots symbols (Operand.slot s.offset).deref
  | global {s : Symbol} {address : Word} :
    s ∈ symbols → s.scope = 0 → s.kind ≠ .func → s.storage = some (.global address) →
      Within slots symbols (.global address)

abbrev Opcode.Plain (op : Opcode) : Prop :=
  op ∈ all ∧ op.target? = none ∧ op ≠ .func

/-- The instructions that may stand in the body of a function, by the functions that it may call
    and the targets that its jumps may have. -/
inductive Instruction.Within (slots : List Slot) (symbols : List Symbol) (callee : Nat → Prop) (target : Int → Prop) :
    Instruction → Prop where
  | plain {op : Opcode} {x y z : Operand} :
    op.Plain → x.Within slots symbols → y.Within slots symbols → z.Within slots symbols →
      Within slots symbols callee target { op := op, a1 := x, a2 := y, a3 := z }
  | jump {t : Int} : target t → Within slots symbols callee target { op := .jp, a1 := .label t }
  | branch {x : Operand} {t : Int} :
    x.Within slots symbols → target t → Within slots symbols callee target { op := .jpf, a1 := x, a2 := .label t }
  | call {entry : Nat} {count : Word} {z : Operand} :
    callee entry → z.Within slots symbols →
      Within slots symbols callee target { op := .call, a1 := .label entry, a2 := .imm count, a3 := z }

structure Symbol.Usable (callee : Nat → Prop) (slots : List Slot) (symbols : List Symbol) (s : Symbol) : Prop where
  location : s.location.Within slots symbols
  entry : s.kind = .func → s.builtin = false → callee s.entry

section Monotone

variable {slots slots' : List Slot} {symbols symbols' : List Symbol} {callee callee' : Nat → Prop}

theorem Operand.Within.mono {o : Operand} (h : o.Within slots symbols) (more : slots <+: slots')
    (more' : symbols <+: symbols') : o.Within slots' symbols' := by
  cases h with
  | absent => exact .absent
  | imm => exact .imm
  | slot member kind => exact .slot (more.subset member) kind
  | deref member kind => exact .deref (more.subset member) kind
  | global member scope kind storage => exact .global (more'.subset member) scope kind storage

theorem Instruction.Within.mono {target target' : Int → Prop} {i : Instruction}
    (h : i.Within slots symbols callee target) (more : slots <+: slots') (more' : symbols <+: symbols')
    (callees : ∀ e, callee e → callee' e) (targets : ∀ t, target t → target' t) :
    i.Within slots' symbols' callee' target' := by
  cases h with
  | plain known x y z => exact .plain known (x.mono more more') (y.mono more more') (z.mono more more')
  | jump ok => exact .jump (targets _ ok)
  | branch x ok => exact .branch (x.mono more more') (targets _ ok)
  | call known z => exact .call (callees _ known) (z.mono more more')

theorem Symbol.Usable.mono {s : Symbol} (h : s.Usable callee slots symbols) (callees : ∀ e, callee e → callee' e)
    (more : slots <+: slots') (more' : symbols <+: symbols') : s.Usable callee' slots' symbols' :=
  ⟨h.location.mono more more', fun function own => callees _ (h.entry function own)⟩

theorem Instruction.Within.aimed {target target' : Int → Prop} {i : Instruction} {n : Nat}
    (h : i.Within slots symbols callee target) (other : i.op ≠ .call) (ok : target' n) :
    (i.aimed n).Within slots symbols callee target' := by
  cases h with
  | @plain op x y z known hx hy hz =>
    have same : Instruction.aimed { op := op, a1 := x, a2 := y, a3 := z } n = { op := op, a1 := x, a2 := y, a3 := z } := by
      simp only [Instruction.aimed, known.2.1]
    rw [same]
    exact .plain known hx hy hz
  | jump => exact .jump ok
  | branch x => exact .branch x ok
  | call => exact absurd rfl other

end Monotone

namespace Codegen

/-- Whether a jump in the body from `entry` up to `size` may hold a target. It holds none only as
    long as it awaits one. -/
def Aims (entry size : Nat) (awaited : Prop) (t : Int) : Prop :=
  (entry < t ∧ t ≤ size) ∨ (t = -1 ∧ awaited)

/-- The state within the body of the function at `entry`. The jumps in `awaited` and those out of
    the innermost loop have no target yet. -/
structure Laid (entry : Nat) (callee : Nat → Prop) (awaited : Nat → Prop) (g : Codegen) : Prop where
  after : entry < g.code.size
  turns : ∀ l ∈ g.loops, entry < l.start ∧ l.start ≤ g.code.size
  code : ∀ n i, entry < n → g.code[n]? = some i →
    i.Within g.slots g.scopes.all callee (Aims entry g.code.size (awaited n ∨ g.Pending n))

structure Knows (callee : Nat → Prop) (g : Codegen) : Prop where
  inside : g.emitter.current.isSome
  visible : ∀ scope ∈ g.scopes.visible, ∀ s ∈ scope.symbols, s.Usable callee g.slots g.scopes.all

structure Stored (g : Codegen) (x : Value) : Prop where
  operand : x.operand.Within g.slots g.scopes.all
  symbol : ∀ s, x.symbol = some s → s.location.Within g.slots g.scopes.all

structure Callable (callee : Nat → Prop) (g : Codegen) (c : Call) : Prop where
  symbol : ∀ s, c.callee = some s → s.Usable callee g.slots g.scopes.all
  printed : c.printed.Within g.slots g.scopes.all

variable {entry : Nat} {callee awaited awaited' : Nat → Prop} {g g' : Codegen}

theorem Moves.within {o : Operand} (h : Moves g g') (within : o.Within g.slots g.scopes.all) :
    o.Within g'.slots g'.scopes.all :=
  within.mono h.slots h.symbols

theorem Stored.moved {x : Value} (stored : Stored g x) (h : Moves g g') : Stored g' x :=
  ⟨h.within stored.operand, fun s named => h.within (stored.symbol s named)⟩

theorem Stored.reported : Stored g .reported :=
  ⟨.imm, fun _ named => by cases named⟩

theorem Callable.moved {c : Call} (callable : Callable callee g c) (h : Moves g g') : Callable callee g' c :=
  ⟨fun s named => (callable.symbol s named).mono (fun _ known => known) h.slots h.symbols, h.within callable.printed⟩

theorem Knows.resolve {name : Text} {s : Symbol} (knows : Knows callee g) (found : g.scopes.resolve? name = some s) :
    s.Usable callee g.slots g.scopes.all := by
  obtain ⟨scope, visible, found⟩ := List.exists_of_findSome?_eq_some found
  exact knows.visible scope visible s (Scope.mem_of_find? found)

theorem Knows.spread (knows : Knows callee g) (inside : g'.emitter.current.isSome)
    (visible : g'.scopes.visible = g.scopes.visible) (slots : g.slots <+: g'.slots)
    (symbols : g.scopes.all <+: g'.scopes.all) : Knows callee g' := by
  refine ⟨inside, fun scope member s declared => ?_⟩
  rw [visible] at member
  exact (knows.visible scope member s declared).mono (fun _ known => known) slots symbols

theorem Knows.grown (knows : Knows callee g) (h : Grows g g') : Knows callee g' :=
  knows.spread (h.inside knows.inside) h.visible h.slots h.symbols

theorem Aims.mono {size size' : Nat} {p q : Prop} {t : Int} (le : size ≤ size') (h : p → q)
    (aims : Aims entry size p t) : Aims entry size' q t := by
  rcases aims with ⟨low, high⟩ | ⟨none, wait⟩
  · exact .inl ⟨low, by omega⟩
  · exact .inr ⟨none, h wait⟩

namespace Laid

theorem weaken (laid : Laid entry callee awaited g) (more : ∀ n, awaited n → awaited' n) :
    Laid entry callee awaited' g := by
  refine ⟨laid.after, laid.turns, fun n i low found => ?_⟩
  refine (laid.code n i low found).mono List.prefix_rfl List.prefix_rfl (fun _ known => known) fun t aims => ?_
  exact aims.mono (Nat.le_refl _) (Or.imp_left (more n))

theorem kept (laid : Laid entry callee awaited g) (moves : Moves g g') (code : g'.code = g.code)
    (loops : g'.loops = g.loops) : Laid entry callee awaited g' := by
  refine ⟨by rw [code]; exact laid.after, ?_, fun n i low found => ?_⟩
  · rw [loops, code]
    exact laid.turns
  · rw [code] at found
    refine (laid.code n i low found).mono moves.slots moves.symbols (fun _ known => known) fun t aims => ?_
    rw [code]
    unfold Pending at aims ⊢
    rwa [loops]

theorem judged (laid : Laid entry callee awaited g) (line : Nat) (v : Verdict) :
    Laid entry callee awaited (g.judged line v) :=
  laid.kept (.judged g line v) (judged_code g line v) (Keeps.judged g line v).sameLoops

theorem reserved (laid : Laid entry callee awaited g) : Laid entry callee awaited g.reserved := by
  refine laid.kept (Keeps.reserved g).toMoves ?_ rfl
  simp only [Codegen.reserved, Emitter.take, Codegen.code]
  split <;> rfl

theorem emitted {i : Instruction} (laid : Laid entry callee awaited g)
    (within : i.Within g.slots g.scopes.all callee
      (Aims entry (g.code.size + 1) (awaited g.code.size ∨ g.Pending g.code.size))) :
    Laid entry callee awaited (g.emitted i) := by
  have size : (g.emitted i).code.size = g.code.size + 1 := by simp
  refine ⟨?_, fun l member => ?_, fun n j low found => ?_⟩
  · have after := laid.after
    omega
  · obtain ⟨after, before⟩ := laid.turns l member
    exact ⟨after, by omega⟩
  · rw [emitted_code, Array.getElem?_push] at found
    rw [size]
    split at found
    · rename_i last
      subst last
      cases found
      exact within
    · refine (laid.code n j low found).mono List.prefix_rfl List.prefix_rfl (fun _ known => known) fun t aims => ?_
      exact aims.mono (Nat.le_succ _) id

theorem plain {op : Opcode} {x y z : Operand} (laid : Laid entry callee awaited g) (known : op.Plain)
    (hx : x.Within g.slots g.scopes.all) (hy : y.Within g.slots g.scopes.all) (hz : z.Within g.slots g.scopes.all) :
    Laid entry callee awaited (g.emitted { op := op, a1 := x, a2 := y, a3 := z }) :=
  laid.emitted (.plain known hx hy hz)

theorem branch {x : Operand} (laid : Laid entry callee awaited g) (within : x.Within g.slots g.scopes.all) :
    Laid entry callee (fun n => awaited n ∨ n = g.code.size)
      (g.emitted { op := .jpf, a1 := x, a2 := .unresolved }) :=
  (laid.weaken fun _ => .inl).emitted (.branch within (.inr ⟨rfl, .inl (.inr rfl)⟩))

theorem skip (laid : Laid entry callee awaited g) :
    Laid entry callee (fun n => awaited n ∨ n = g.code.size) (g.emitted openJump) :=
  (laid.weaken fun _ => .inl).emitted (.jump (.inr ⟨rfl, .inl (.inr rfl)⟩))

theorem landed {jump : Nat} {i : Instruction} (laid : Laid entry callee (fun n => awaited n ∨ n = jump) g)
    (found : g.code[jump]? = some i) (other : i.op ≠ .call) : Laid entry callee awaited (g.landed jump) := by
  have size : (g.landed jump).code.size = g.code.size := by simp
  refine ⟨by rw [size]; exact laid.after, fun l member => size ▸ laid.turns l member, fun n j low found' => ?_⟩
  rw [landed_code, Array.getElem?_modify] at found'
  rw [size]
  split at found'
  · rename_i here
    subst here
    rw [found] at found'
    cases found'
    have within := laid.code jump i low found
    exact within.aimed other (.inl ⟨Int.ofNat_lt.mpr laid.after, Int.le_refl _⟩)
  · rename_i elsewhere
    refine (laid.code n j low found').mono List.prefix_rfl List.prefix_rfl (fun _ known => known) fun t aims => ?_
    refine aims.mono (Nat.le_refl _) (Or.imp_left ?_)
    rintro (waits | here)
    · exact waits
    · exact absurd here.symm elsewhere

/-- The jumps out of the loop around `g` wait while those out of a loop within it are at hand. -/
theorem looping (laid : Laid entry callee awaited g) :
    Laid entry callee (fun n => awaited n ∨ g.Pending n) g.looping := by
  refine ⟨laid.after, fun l member => ?_, fun n i low found => ?_⟩
  · rcases List.mem_cons.mp member with rfl | member
    · exact ⟨laid.after, Nat.le_refl _⟩
    · exact laid.turns l member
  · refine (laid.code n i low found).mono List.prefix_rfl List.prefix_rfl (fun _ known => known) fun t aims => ?_
    exact aims.mono (Nat.le_refl _) .inl

theorem exitLoop {g₀ : Codegen} {l : Loop} (laid : Laid entry callee (fun n => awaited n ∨ g₀.Pending n) g)
    (loops : g.loops = l :: g₀.loops) (exits : ∀ j ∈ l.exits, ∃ i, g.code[j]? = some i ∧ i.op ≠ .call) :
    Laid entry callee awaited { g.landedAll l.exits with loops := g₀.loops } := by
  have inner : ∀ n, g.Pending n ↔ n ∈ l.exits := by simp [Pending, loops]
  have outer : ∀ n, ({ g.landedAll l.exits with loops := g₀.loops } : Codegen).Pending n ↔ g₀.Pending n := fun _ => .rfl
  have size := landedAll_size g l.exits
  have slots : (g.landedAll l.exits).slots = g.slots := by rw [landedAll_eq]; rfl
  have symbols : (g.landedAll l.exits).scopes = g.scopes := by rw [landedAll_eq]
  refine ⟨by rw [size]; exact laid.after, fun l' member => ?_, fun n j low found => ?_⟩
  · rw [size]
    exact laid.turns l' (by rw [loops]; exact List.mem_cons_of_mem _ member)
  · change (g.landedAll l.exits).code[n]? = some j at found
    change j.Within (g.landedAll l.exits).slots (g.landedAll l.exits).scopes.all callee _
    rw [slots, symbols, size]
    rw [landedAll_getElem?] at found
    split at found
    · rename_i exit
      obtain ⟨i, jump, other⟩ := exits n exit
      rw [jump] at found
      cases found
      exact (laid.code n i low jump).aimed other (.inl ⟨Int.ofNat_lt.mpr laid.after, Int.le_refl _⟩)
    · rename_i settled
      refine (laid.code n j low found).mono List.prefix_rfl List.prefix_rfl (fun _ known => known) fun t aims => ?_
      refine aims.mono (Nat.le_refl _) ?_
      rintro (waits | exit)
      · exact waits
      · exact absurd ((inner n).mp exit) settled

end Laid

section Temporaries

variable (inside : g.emitter.current.isSome)

include inside

theorem temp_within : g.temp.Within g.reserved.slots g.reserved.scopes.all := by
  obtain ⟨s, grown, kind, _, operand⟩ := reserved_slots inside
  rw [operand]
  exact .slot (by simp [grown]) (by simp [kind])

theorem deref_temp_within : g.temp.deref.Within g.reserved.slots g.reserved.scopes.all := by
  obtain ⟨s, grown, kind, _, operand⟩ := reserved_slots inside
  rw [operand]
  exact .deref (by simp [grown]) kind

theorem laid_based {s : Symbol} (laid : Laid entry callee awaited g) (location : s.location.Within g.slots g.scopes.all) :
    Laid entry callee awaited (g.based s) ∧ (g.base s).Within (g.based s).slots (g.based s).scopes.all := by
  unfold based base
  split
  · exact ⟨laid, location⟩
  · have temp := temp_within inside
    have source := (Keeps.reserved g).toMoves.within location
    exact ⟨laid.reserved.plain (by decide) source .absent temp, temp⟩

end Temporaries

section Expressions

variable {x y v : Value}

theorem laid_name {id : Ident} (knows : Knows callee g) (laid : Laid entry callee awaited g)
    (run : (name id).run g = .ok v g') : Laid entry callee awaited g' ∧ Stored g' v := by
  cases found : g.scopes.resolve? id.name with
  | none =>
    rw [run_name_none found] at run
    cases run
    exact ⟨laid.judged _ _, .reported⟩
  | some s =>
    rw [run_name_some found] at run
    cases run
    refine ⟨laid.judged _ _, Stored.moved ?_ (.judged _ _ _)⟩
    have location := (knows.resolve found).location
    unfold nameValue
    split
    · exact .reported
    · split
      · exact ⟨location, fun _ named => by cases named; exact location⟩
      · exact ⟨location, fun _ named => by cases named; exact location⟩

theorem laid_index {array : Ident} (knows : Knows callee g) (laid : Laid entry callee awaited g) (stored : Stored g x)
    (run : (index array x).run g = .ok v g') : Laid entry callee awaited g' ∧ Stored g' v := by
  cases found : g.scopes.resolve? array.name with
  | none =>
    rw [run_index_none found] at run
    cases run
    exact ⟨laid.judged _ _, .reported⟩
  | some s =>
    by_cases accepted : Check.index s x = .accepted
    · rw [run_index_accepted found accepted] at run
      cases run
      have location := (knows.resolve found).location
      obtain ⟨laid₁, base⟩ := laid_based knows.inside laid location
      have based := Keeps.based g s
      have inside₁ := based.inside knows.inside
      have reserved := Keeps.reserved (g.based s)
      have moves := (based.trans reserved).toMoves
      refine ⟨laid₁.reserved.plain (by decide) (reserved.toMoves.within base) (moves.within stored.operand)
        (temp_within inside₁), deref_temp_within inside₁, fun _ named => ?_⟩
      cases named
      exact moves.within location
    · rw [run_index_refused found accepted] at run
      cases run
      exact ⟨laid.judged _ _, .reported⟩

theorem laid_unary {op : UnaryOp} {line : Nat} (knows : Knows callee g) (laid : Laid entry callee awaited g)
    (stored : Stored g x) (run : (unary op line x).run g = .ok v g') : Laid entry callee awaited g' ∧ Stored g' v := by
  by_cases accepted : Check.operand x = .accepted
  · rw [run_unary_accepted accepted] at run
    cases run
    have temp := temp_within knows.inside
    have operand := (Keeps.reserved g).toMoves.within stored.operand
    refine ⟨?_, temp, fun _ named => by cases named⟩
    cases op with
    | neg => exact laid.reserved.plain (by decide) .imm operand temp
    | not => exact laid.reserved.plain (by decide) operand .imm temp
  · rw [run_unary_refused accepted] at run
    cases run
    exact ⟨laid.judged _ _, .reported⟩

theorem laid_binary {op : BinaryOp} {line : Nat} (strict : op.opcode?.isSome) (knows : Knows callee g)
    (laid : Laid entry callee awaited g) (stored : Stored g x) (stored' : Stored g y)
    (run : (binary op line x y).run g = .ok v g') : Laid entry callee awaited g' ∧ Stored g' v := by
  obtain ⟨operation, known⟩ := Option.isSome_iff_exists.mp strict
  by_cases accepted : Check.operands x y = .accepted
  · rw [run_binary_accepted known accepted] at run
    cases run
    have temp := temp_within knows.inside
    have plain : operation.Plain := by cases op <;> cases known <;> decide
    have moves := (Keeps.reserved g).toMoves
    exact ⟨laid.reserved.plain plain (moves.within stored.operand) (moves.within stored'.operand) temp, temp,
      fun _ named => by cases named⟩
  · rw [run_binary_refused accepted] at run
    cases run
    exact ⟨laid.judged _ _, .reported⟩

theorem laid_assign {line : Nat} (laid : Laid entry callee awaited g) (stored : Stored g x) (stored' : Stored g y)
    (run : (assign line x y).run g = .ok v g') : Laid entry callee awaited g' ∧ Stored g' v := by
  by_cases accepted : Check.assignment x y = .accepted
  · rw [run_assign_accepted accepted] at run
    cases run
    exact ⟨laid.plain (by decide) stored'.operand stored.operand .absent, stored.operand, fun _ named => by cases named⟩
  · rw [run_assign_refused accepted] at run
    cases run
    exact ⟨laid.judged _ _, .reported⟩

theorem laid_branched {conjunction : Bool} {o : Operand} (inside : g.emitter.current.isSome)
    (laid : Laid entry callee awaited g) (operand : o.Within g.slots g.scopes.all) :
    Laid entry callee (fun n => awaited n ∨ n = (g.branched conjunction o).code.size - 1) (g.branched conjunction o) ∧
      g.temp.Within (g.branched conjunction o).slots (g.branched conjunction o).scopes.all := by
  have temp := temp_within inside
  have moves := (Keeps.reserved g).toMoves
  unfold branched
  cases conjunction with
  | true =>
    have set : Laid entry callee awaited (g.reserved.emitted { op := .assign, a1 := .imm 0, a2 := g.temp }) :=
      laid.reserved.plain (by decide) .imm temp .absent
    have whole := set.branch (moves.within operand)
    exact ⟨whole.weaken fun n => Or.imp_right fun here => by simpa using here, temp⟩
  | false =>
    have moves' := (Keeps.reserved g.reserved).toMoves
    have zero := temp_within (moves.inside inside)
    have set : Laid entry callee awaited (g.reserved.reserved.emitted { op := .assign, a1 := .imm 1, a2 := g.temp }) :=
      laid.reserved.reserved.plain (by decide) .imm (moves'.within temp) .absent
    have test : Laid entry callee awaited
      ((g.reserved.reserved.emitted { op := .assign, a1 := .imm 1, a2 := g.temp }).emitted
        { op := .eq, a1 := o, a2 := .imm 0, a3 := g.reserved.temp }) :=
      set.plain (by decide) (moves'.within (moves.within operand)) .imm zero
    have whole := test.branch zero
    exact ⟨whole.weaken fun n => Or.imp_right fun here => by simpa using here, moves'.within temp⟩

theorem laid_endLogical {l : Logical} {line : Nat} {i : Instruction}
    (laid : Laid entry callee (fun n => awaited n ∨ n = l.jump) g) (result : l.result.Within g.slots g.scopes.all)
    (jump : g.code[l.jump]? = some i) (isJump : i.op = .jpf) (stored : Stored g y)
    (run : (endLogical (some l) line y).run g = .ok v g') : Laid entry callee awaited g' ∧ Stored g' v := by
  have jumps : g.Jumps l.jump := ⟨i, jump, by rw [isJump]; rfl⟩
  by_cases accepted : Check.operand y = .accepted
  · rw [run_endLogical_accepted accepted jumps] at run
    cases run
    have set : Laid entry callee _ (g.emitted { op := .ne, a1 := y.operand, a2 := .imm 0, a3 := l.result }) :=
      laid.plain (by decide) stored.operand .imm result
    exact ⟨set.landed ((Moves.emitted _ _).code jump) (by simp [isJump]), result, fun _ named => by cases named⟩
  · rw [run_endLogical_refused accepted jumps] at run
    cases run
    exact ⟨(laid.judged _ _).landed ((Moves.judged _ _ _).code jump) (by simp [isJump]), .reported⟩

abbrev ExprLaid (e : Expr) : Prop :=
  ∀ {entry : Nat} {callee awaited : Nat → Prop} {g g' : Codegen} {v : Value}, Knows callee g →
    Laid entry callee awaited g → (expr e).run g = .ok v g' → Laid entry callee awaited g' ∧ Stored g' v

theorem laid_logical {conjunction : Bool} {line : Nat} {right : Expr} (lays : ExprLaid right) (knows : Knows callee g)
    (laid : Laid entry callee awaited g) (stored : Stored g x)
    (run : (do
      let l ← beginLogical conjunction line x
      let y ← expr right
      endLogical l line y : GenM Value).run g = .ok v g') : Laid entry callee awaited g' ∧ Stored g' v := by
  obtain ⟨l, g₁, runBegin, runRest⟩ := bind_ok run
  obtain ⟨y, g₂, runRight, runEnd⟩ := bind_ok runRest
  have kept := (beginLogical_jumps runBegin).1
  by_cases accepted : Check.operand x = .accepted
  · rw [run_beginLogical_accepted accepted] at runBegin
    cases runBegin
    obtain ⟨laid₁, result⟩ := @laid_branched _ _ _ _ conjunction _ knows.inside laid stored.operand
    obtain ⟨laid₂, stored'⟩ := lays (knows.grown kept.toGrows) laid₁ runRight
    have moves := (Keeps.of_expr runRight).toMoves
    obtain ⟨i, jump, isJump, _⟩ := branched_jump g conjunction x.operand
    exact laid_endLogical laid₂ (moves.within result) (moves.code jump) isJump stored' runEnd
  · rw [run_beginLogical_refused accepted] at runBegin
    cases runBegin
    obtain ⟨laid₂, _⟩ := lays (knows.grown kept.toGrows) (laid.judged _ _) runRight
    rw [run_endLogical_none] at runEnd
    cases runEnd
    exact ⟨laid₂.judged _ _, .reported⟩

theorem callable_of_beginCall {id : Ident} {c : Call} (knows : Knows callee g) (laid : Laid entry callee awaited g)
    (run : (beginCall id).run g = .ok c g') : Laid entry callee awaited g' ∧ Callable callee g' c := by
  cases found : g.scopes.resolve? id.name with
  | none =>
    rw [run_beginCall_none found] at run
    cases run
    exact ⟨laid.judged _ _, ⟨(fun _ named => by cases named), .absent⟩⟩
  | some s =>
    by_cases function : s.kind = .func
    · rw [run_beginCall_function found function] at run
      cases run
      refine ⟨laid, ⟨fun _ named => ?_, .absent⟩⟩
      cases named
      exact knows.resolve found
    · rw [run_beginCall_other found function] at run
      cases run
      exact ⟨laid.judged _ _, ⟨(fun _ named => by cases named), .absent⟩⟩

theorem laid_passing (inside : g.emitter.current.isSome) (laid : Laid entry callee awaited g) (stored : Stored g x) :
    Laid entry callee awaited (g.passing x) ∧ (g.passed x).Within (g.passing x).slots (g.passing x).scopes.all := by
  unfold passing passed
  split
  · rename_i array _ named
    exact laid_based inside laid (stored.symbol array named)
  · exact ⟨laid, stored.operand⟩

theorem laid_argument {c c' : Call} (knows : Knows callee g) (laid : Laid entry callee awaited g)
    (callable : Callable callee g c) (stored : Stored g x) (run : (argument c x).run g = .ok c' g') :
    Laid entry callee awaited g' ∧ Callable callee g' c' := by
  cases known : c.callee with
  | none =>
    rw [run_argument_unknown known] at run
    cases run
    exact ⟨laid, fun s named => callable.symbol s named, callable.printed⟩
  | some s =>
    rw [run_argument known] at run
    dsimp only at run
    have judged := Keeps.judged g c.line (Check.argument s c.count x)
    have callable₁ := callable.moved judged.toMoves
    split at run
    · cases run
      exact ⟨laid.judged _ _, callable₁.symbol, callable₁.printed⟩
    · split at run
      · cases run
        exact ⟨laid.judged _ _, callable₁.symbol, judged.toMoves.within stored.operand⟩
      · cases run
        obtain ⟨laid₂, passed⟩ := laid_passing (judged.inside knows.inside) (laid.judged _ _) (stored.moved judged.toMoves)
        have callable₂ := callable₁.moved (Keeps.passing _ x).toMoves
        exact ⟨laid₂.plain (by decide) passed .absent .absent, callable₂.symbol, callable₂.printed⟩

theorem laid_arguments {args : List Expr} (lays : ∀ e ∈ args, ExprLaid e) {c c' : Call} (knows : Knows callee g)
    (laid : Laid entry callee awaited g) (callable : Callable callee g c)
    (run : (arguments c args).run g = .ok c' g') : Laid entry callee awaited g' ∧ Callable callee g' c' := by
  induction args generalizing c g with
  | nil =>
    cases run
    exact ⟨laid, callable⟩
  | cons e rest ih =>
    rw [arguments] at run
    obtain ⟨x, g₁, runFirst, runRest⟩ := bind_ok run
    obtain ⟨c₁, g₂, runArgument, runOthers⟩ := bind_ok runRest
    have kept := Keeps.of_expr runFirst
    have kept' := Keeps.of_argument runArgument
    obtain ⟨laid₁, stored⟩ := lays e (by simp) knows laid runFirst
    have knows₁ := knows.grown kept.toGrows
    obtain ⟨laid₂, callable₂⟩ := laid_argument knows₁ laid₁ (callable.moved kept.toMoves) stored runArgument
    exact ih (fun e member => lays e (by simp [member])) (knows₁.grown kept'.toGrows) laid₂ callable₂ runOthers

theorem laid_endCall {c : Call} (knows : Knows callee g) (laid : Laid entry callee awaited g)
    (callable : Callable callee g c) (function : ∀ s, c.callee = some s → s.kind = .func)
    (run : (endCall c).run g = .ok v g') : Laid entry callee awaited g' ∧ Stored g' v := by
  cases known : c.callee with
  | none =>
    rw [run_endCall_unknown known] at run
    cases run
    exact ⟨laid, .reported⟩
  | some s =>
    have judged := Keeps.judged g c.line (Check.argumentCount s c.count)
    have callable₁ := callable.moved judged.toMoves
    have usable := callable₁.symbol s known
    have location : ∀ s', some s = some s' → s'.location.Within _ _ := fun s' same => by
      cases same
      exact usable.location
    rw [run_endCall known] at run
    dsimp only at run
    split at run
    · split at run
      · cases run
        exact ⟨(laid.judged _ _).plain (by decide) callable₁.printed .absent .absent, .imm, location⟩
      · cases run
        exact ⟨laid.judged _ _, .imm, location⟩
    · rename_i own
      have entry := usable.entry (function s known) (by simpa using own)
      split at run
      · cases run
        exact ⟨(laid.judged _ _).emitted (.call entry .absent), .imm, location⟩
      · cases run
        have temp := temp_within (judged.inside knows.inside)
        refine ⟨(laid.judged _ _).reserved.emitted (.call entry temp), temp, fun s' named => ?_⟩
        exact (Keeps.reserved _).toMoves.within (location s' named)

theorem function_of_beginCall {id : Ident} {c : Call} (run : (beginCall id).run g = .ok c g') {s : Symbol}
    (named : c.callee = some s) : s.kind = .func := by
  cases found : g.scopes.resolve? id.name with
  | none =>
    rw [run_beginCall_none found] at run
    cases run
    cases named
  | some s' =>
    by_cases function : s'.kind = .func
    · rw [run_beginCall_function found function] at run
      cases run
      cases named
      exact function
    · rw [run_beginCall_other found function] at run
      cases run
      cases named

theorem callee_of_argument {c c' : Call} (run : (argument c x).run g = .ok c' g') : c'.callee = c.callee := by
  cases known : c.callee with
  | none =>
    rw [run_argument_unknown known] at run
    cases run
    exact known
  | some s =>
    rw [run_argument known] at run
    dsimp only at run
    split at run
    · cases run
      exact known
    · split at run <;> cases run <;> exact known

theorem callee_of_arguments {args : List Expr} {c c' : Call} (run : (arguments c args).run g = .ok c' g') :
    c'.callee = c.callee := by
  induction args generalizing c g with
  | nil =>
    cases run
    rfl
  | cons e rest ih =>
    rw [arguments] at run
    obtain ⟨x, g₁, _, runRest⟩ := bind_ok run
    obtain ⟨c₁, g₂, runArgument, runOthers⟩ := bind_ok runRest
    exact (ih runOthers).trans (callee_of_argument runArgument)

theorem laid_expr (e : Expr) : ExprLaid e := by
  induction e using Expr.induction with
  | missing =>
    intro entry callee awaited g g' v knows laid run
    cases run
    exact ⟨laid, .reported⟩
  | number n =>
    intro entry callee awaited g g' v knows laid run
    cases run
    exact ⟨laid, .imm, fun _ named => by cases named⟩
  | name id =>
    intro entry callee awaited g g' v knows laid run
    rw [expr] at run
    exact laid_name knows laid run
  | index array e ih =>
    intro entry callee awaited g g' v knows laid run
    rw [expr] at run
    obtain ⟨x, g₁, runFirst, runIndex⟩ := bind_ok run
    obtain ⟨laid₁, stored⟩ := ih knows laid runFirst
    exact laid_index (knows.grown (Keeps.of_expr runFirst).toGrows) laid₁ stored runIndex
  | call id args ih =>
    intro entry callee awaited g g' v knows laid run
    rw [expr] at run
    obtain ⟨c, g₁, runBegin, runRest⟩ := bind_ok run
    obtain ⟨c', g₂, runArguments, runEnd⟩ := bind_ok runRest
    obtain ⟨laid₁, callable⟩ := callable_of_beginCall knows laid runBegin
    have knows₁ := knows.grown ((yields_beginCall id g).of_run runBegin).toGrows
    obtain ⟨laid₂, callable'⟩ := laid_arguments ih knows₁ laid₁ callable runArguments
    refine laid_endCall (knows₁.grown (Keeps.of_arguments runArguments).toGrows) laid₂ callable' (fun s named => ?_) runEnd
    exact function_of_beginCall runBegin (callee_of_arguments runArguments ▸ named)
  | unary op line e ih =>
    intro entry callee awaited g g' v knows laid run
    rw [expr] at run
    obtain ⟨x, g₁, runFirst, runUnary⟩ := bind_ok run
    obtain ⟨laid₁, stored⟩ := ih knows laid runFirst
    exact laid_unary (knows.grown (Keeps.of_expr runFirst).toGrows) laid₁ stored runUnary
  | binary op line left right ihl ihr =>
    intro entry callee awaited g g' v knows laid run
    have logical : ∀ conjunction, (do
        let x ← expr left
        let l ← beginLogical conjunction line x
        let y ← expr right
        endLogical l line y : GenM Value).run g = .ok v g' → Laid entry callee awaited g' ∧ Stored g' v := by
      intro conjunction run
      obtain ⟨x, g₁, runFirst, runRest⟩ := bind_ok run
      obtain ⟨laid₁, stored⟩ := ihl knows laid runFirst
      exact laid_logical ihr (knows.grown (Keeps.of_expr runFirst).toGrows) laid₁ stored runRest
    have strict : op.opcode?.isSome → (do
        let x ← expr left
        let y ← expr right
        binary op line x y : GenM Value).run g = .ok v g' → Laid entry callee awaited g' ∧ Stored g' v := by
      intro known run
      obtain ⟨x, g₁, runFirst, runRest⟩ := bind_ok run
      obtain ⟨y, g₂, runSecond, runBinary⟩ := bind_ok runRest
      obtain ⟨laid₁, stored⟩ := ihl knows laid runFirst
      have knows₁ := knows.grown (Keeps.of_expr runFirst).toGrows
      have kept := Keeps.of_expr runSecond
      obtain ⟨laid₂, stored'⟩ := ihr knows₁ laid₁ runSecond
      exact laid_binary known (knows₁.grown kept.toGrows) laid₂ (stored.moved kept.toMoves) stored' runBinary
    rw [expr] at run
    cases op with
    | or => exact logical _ run
    | and => exact logical _ run
    | _ => exact strict rfl run
  | assign line target value iht ihv =>
    intro entry callee awaited g g' v knows laid run
    rw [expr] at run
    obtain ⟨x, g₁, runTarget, runRest⟩ := bind_ok run
    obtain ⟨y, g₂, runValue, runAssign⟩ := bind_ok runRest
    obtain ⟨laid₁, stored⟩ := iht knows laid runTarget
    have knows₁ := knows.grown (Keeps.of_expr runTarget).toGrows
    obtain ⟨laid₂, stored'⟩ := ihv knows₁ laid₁ runValue
    exact laid_assign laid₂ (stored.moved (Keeps.of_expr runValue).toMoves) stored' runAssign

end Expressions

end Codegen

end MiniC
