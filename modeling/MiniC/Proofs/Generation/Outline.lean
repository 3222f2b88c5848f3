import MiniC.Proofs.Generation.Shape

namespace MiniC

namespace Codegen

variable {entry : Nat} {callee awaited : Nat → Prop} {g g' : Codegen}

theorem laid_guarded {line : Nat} {x : Value} (laid : Laid entry callee awaited g) (stored : Stored g x) :
    Laid entry callee (fun n => awaited n ∨ n = g.code.size) (g.guarded line x) := by
  have within : (tested x).Within g.slots g.scopes.all := by
    unfold tested
    split
    · exact stored.operand
    · exact .imm
  have branch := (laid.judged line (Check.operand x)).branch ((Moves.judged _ _ _).within within)
  rwa [judged_size] at branch

theorem guarded_found (g : Codegen) (line : Nat) (x : Value) :
    (g.guarded line x).code[g.code.size]? = some { op := .jpf, a1 := tested x, a2 := .unresolved } := by
  have found := emitted_found (g.judged line (Check.operand x)) { op := .jpf, a1 := tested x, a2 := .unresolved }
  rwa [judged_size] at found

theorem allocated_slots (inside : g.emitter.current.isSome) (s : Symbol) :
    (g.allocated s).emitter.current.isSome ∧
      ∃ slot, (g.allocated s).slots = g.slots ++ [slot] ∧ slot.kind ≠ .ret ∧ g.temp = .slot slot.offset := by
  obtain ⟨f, current⟩ := Option.isSome_iff_exists.mp inside
  cases param : s.isParam with
  | false =>
    simp only [slots, allocated, param, Bool.false_eq_true, if_false, Emitter.take, current, Frame.push]
    exact ⟨rfl, _, rfl, by simp, by simp [temp, Emitter.free, current]⟩
  | true =>
    simp only [slots, allocated, param, if_true, Emitter.take, Emitter.countParam, current, Option.map_some, Frame.push]
    exact ⟨rfl, _, rfl, by simp, by simp [temp, Emitter.free, current]⟩

theorem Knows.added {s : Symbol} (knows : Knows callee g) (inside : g'.emitter.current.isSome)
    (scopes : g'.scopes = g.scopes.add s) (slots : g.slots <+: g'.slots)
    (usable : s.Usable callee g'.slots g'.scopes.all) : Knows callee g' := by
  have symbols : g.scopes.all <+: g'.scopes.all := by
    rw [scopes]
    exact List.prefix_append _ _
  refine ⟨inside, fun scope member s' declared => ?_⟩
  have kept : ∀ scope ∈ g.scopes.visible, s' ∈ scope.symbols → s'.Usable callee g'.slots g'.scopes.all :=
    fun scope member declared => (knows.visible scope member s' declared).mono (fun _ known => known) slots symbols
  rw [scopes] at member
  rcases List.mem_cons.mp member with rfl | member
  · rcases List.mem_append.mp declared with declared | declared
    · exact kept _ (by simp [Scopes.visible]) declared
    · cases List.mem_singleton.mp declared
      exact ⟨usable.location, usable.entry⟩
  · exact kept scope (List.mem_cons_of_mem _ member) declared

theorem Knows.allocated {s : Symbol} (knows : Knows callee g) (same : g'.scopes = g.scopes.add s)
    (emitter : g'.emitter = g.emitter) (variable_ : s.kind ≠ .func) (location : s.location = g.temp) :
    Knows callee (g'.allocated s) := by
  have inside : g'.emitter.current.isSome := emitter ▸ knows.inside
  have slots : g'.slots = g.slots := by unfold Codegen.slots; rw [emitter]
  have temp : g'.temp = g.temp := by unfold Codegen.temp; rw [emitter]
  obtain ⟨inside', slot, grown, kind, operand⟩ := allocated_slots inside s
  refine knows.added inside' same (by rw [grown, slots]; exact List.prefix_append _ _)
    ⟨?_, fun function => absurd function variable_⟩
  rw [location, ← temp, operand]
  exact .slot (by simp [grown]) kind

theorem knows_varDecl {d : VarDecl} (knows : Knows callee g) (run : (varDecl d).run g = .ok () g') : Knows callee g' := by
  have examined : Keeps g (g.examined d) := (Keeps.judged _ _ _).trans (.judged _ _ _)
  rw [run_varDecl] at run
  cases declared : g.scopes.declare (varSymbol d g.temp) with
  | error earlier =>
    rw [declared] at run
    cases run
    exact knows.grown (examined.trans (.judged _ _ _)).toGrows
  | ok scopes =>
    rw [declared] at run
    cases run
    cases eq_add_of_declare declared
    refine knows.allocated rfl ?_ ?_ rfl
    · simp only [Codegen.examined, judged_emitter]
    · rcases d with ⟨type, id, extent⟩
      cases extent <;> simp [varSymbol]

theorem knows_vars {vars : List VarDecl} (knows : Knows callee g) (run : (vars.forM varDecl).run g = .ok () g') :
    Knows callee g' := by
  induction vars generalizing g with
  | nil =>
    cases run
    exact knows
  | cons d rest ih =>
    obtain ⟨_, g₁, runFirst, runRest⟩ := bind_ok (show (varDecl d >>= fun _ => rest.forM varDecl).run g = _ from run)
    exact ih (knows_varDecl knows runFirst) runRest

theorem Laid.declared {vars : List VarDecl} (laid : Laid entry callee awaited g)
    (run : (vars.forM varDecl).run g = .ok () g') : Laid entry callee awaited g' := by
  obtain ⟨declares, moves⟩ := (yields_vars vars g).of_run run
  exact laid.kept moves declares.code declares.loops

abbrev StmtLaid (s : Stmt) : Prop :=
  ∀ {entry : Nat} {callee awaited : Nat → Prop} {g g' : Codegen}, Knows callee g → g.ExitsOpen →
    Laid entry callee awaited g → (stmt s).run g = .ok () g' → Laid entry callee awaited g'

theorem laid_stmts {body : List Stmt} (lays : ∀ s ∈ body, StmtLaid s) (knows : Knows callee g) (exits : g.ExitsOpen)
    (laid : Laid entry callee awaited g) (run : (stmts body).run g = .ok () g') : Laid entry callee awaited g' := by
  induction body generalizing g with
  | nil =>
    cases run
    exact laid
  | cons s rest ih =>
    rw [stmts] at run
    obtain ⟨_, g₁, runFirst, runRest⟩ := bind_ok run
    have grows := (yields_stmt s g exits).of_run runFirst
    exact ih (fun s member => lays s (by simp [member])) (knows.grown grows) (grows.exitsOpen exits)
      (lays s (by simp) knows exits laid runFirst) runRest

theorem laid_block {vars : List VarDecl} {body : List Stmt} (lays : ∀ s ∈ body, StmtLaid s) :
    StmtLaid (.block vars body) := by
  intro entry callee awaited g g' knows exits laid run
  obtain ⟨g₁, g₂, scopes, runVars, declares, moves, runBody, grows, _, symbols, run', _⟩ :=
    @block_cases vars body g (yields_stmts fun s _ => yields_stmt s) exits
  rw [run'] at run
  cases run
  have entered : Knows callee { g with scopes := g.scopes.enter } := by
    refine ⟨knows.inside, fun scope member s declared => ?_⟩
    rcases List.mem_cons.mp member with rfl | member
    · cases declared
    · exact knows.visible scope member s declared
  have laid₀ : Laid entry callee awaited { g with scopes := g.scopes.enter } :=
    laid.kept (.rescoped g List.prefix_rfl) rfl rfl
  have laid₁ := laid₀.declared runVars
  have laid₂ := laid_stmts lays (knows_vars entered runVars) (moves.exitsOpen exits) laid₁ runBody
  exact laid₂.kept (.rescoped g₂ (symbols ▸ List.prefix_rfl)) rfl rfl

theorem laid_ifThen {line : Nat} {e : Expr} {body : Stmt} (lays : StmtLaid body) : StmtLaid (.ifThen line e body) := by
  intro entry callee awaited g g' knows exits laid run
  obtain ⟨x, g₁, g₂, condition, kept, first, grows, run', _⟩ := @ifThen_cases line e body g (yields_stmt body) exits
  rw [run'] at run
  cases run
  obtain ⟨laid₁, stored⟩ := laid_expr e knows laid condition
  have guarded := kept.trans (.guarded g₁ line x)
  have laid₂ := lays (knows.grown guarded.toGrows) (guarded.exitsOpen exits) (laid_guarded laid₁ stored) first
  exact laid₂.landed (grows.code (guarded_found g₁ line x)) (by simp)

theorem laid_ifElse {line : Nat} {e : Expr} {body orElse : Stmt} (lays : StmtLaid body) (lays' : StmtLaid orElse) :
    StmtLaid (.ifElse line e body orElse) := by
  intro entry callee awaited g g' knows exits laid run
  obtain ⟨x, g₁, g₂, g₃, condition, kept, first, grows, second, grows', run', _⟩ :=
    @ifElse_cases line e body orElse g (yields_stmt body) (yields_stmt orElse) exits
  rw [run'] at run
  cases run
  obtain ⟨laid₁, stored⟩ := laid_expr e knows laid condition
  have guarded := kept.trans (.guarded g₁ line x)
  have laid₂ := lays (knows.grown guarded.toGrows) (guarded.exitsOpen exits) (laid_guarded laid₁ stored) first
  -- The first jump lands behind the second, which still awaits its target.
  have skipped : Laid entry callee (fun n => (awaited n ∨ n = g₂.code.size) ∨ n = g₁.code.size) (g₂.emitted openJump) :=
    laid₂.skip.weaken fun _ => by tauto
  have jump := (Moves.emitted g₂ openJump).code (grows.code (guarded_found g₁ line x))
  have turned : Laid entry callee (fun n => awaited n ∨ n = g₂.code.size) (g₂.turned g₁.code.size) :=
    skipped.landed jump (by simp)
  have whole := Grows.ifThen kept exits (grows.trans (.emitted g₂ openJump))
  have laid₃ := lays' (knows.grown whole) (whole.exitsOpen exits) turned second
  have other : g₁.code.size ≠ g₂.code.size := by
    have size := grows.size_le
    rw [guarded_size] at size
    omega
  have skip : (g₂.turned g₁.code.size).code[g₂.code.size]? = some openJump := by
    rw [Codegen.turned, landed_code, Array.getElem?_modify, if_neg other, emitted_found]
  exact laid₃.landed (grows'.code skip) (by simp [openJump])

theorem laid_loop {line : Nat} {e : Expr} {body : Stmt} (lays : StmtLaid body) : StmtLaid (.loop line e body) := by
  intro entry callee awaited g g' knows exits laid run
  obtain ⟨x, g₁, g₂, l, outer, condition, kept, first, grows, loops, run', _, _⟩ :=
    @loop_cases line e body g (yields_stmt body) exits
  rw [run'] at run
  cases run
  have knows₀ : Knows callee g.looping := ⟨knows.inside, knows.visible⟩
  obtain ⟨laid₁, stored⟩ := laid_expr e knows₀ laid.looping condition
  have guarded := kept.trans (.guarded g₁ line x)
  have whole := guarded.toGrows.trans grows
  have laid₂ := lays (knows₀.grown guarded.toGrows) (guarded.exitsOpen exits.looping) (laid_guarded laid₁ stored) first
  have size : g.code.size ≤ g₂.code.size := whole.size_le
  have back : Laid entry callee _ (g₂.emitted { op := .jp, a1 := .label g.code.size }) :=
    laid₂.emitted (.jump (.inl ⟨Int.ofNat_lt.mpr laid.after, by omega⟩))
  have jump := (Moves.emitted g₂ { op := .jp, a1 := .label g.code.size }).code (grows.code (guarded_found g₁ line x))
  have returned : Laid entry callee (fun n => awaited n ∨ g.Pending n) (g₂.returnedTo g.code.size g₁.code.size) :=
    back.landed jump (by simp)
  have same : outer = g.loops := by
    have grown := whole.loops
    rw [loops] at grown
    exact grown.2.1
  subst same
  refine returned.exitLoop loops fun j exit => ?_
  have open_ := whole.exitsOpen exits.looping l (by simp [loops]) j exit
  have emitted := (Moves.emitted g₂ { op := .jp, a1 := .label g.code.size }).code open_
  rw [returnedTo, landed_code, Array.getElem?_modify]
  split
  · rw [emitted]
    exact ⟨_, rfl, by simp [openJump]⟩
  · exact ⟨_, emitted, by simp [openJump]⟩

theorem returned_within {x : Value} (stored : Stored g x) : (returned (some x)).Within g.slots g.scopes.all := by
  unfold returned
  split
  · rename_i same
    cases same
    exact stored.operand
  · exact .absent

theorem laid_ret {line : Nat} {x : Option Value} (laid : Laid entry callee awaited g)
    (within : (returned x).Within g.slots g.scopes.all) (run : (ret line x).run g = .ok () g') :
    Laid entry callee awaited g' := by
  rw [run_ret] at run
  cases run
  exact (laid.judged _ _).plain (by decide) ((Moves.judged _ _ _).within within) .absent .absent

theorem laid_leave (line : Nat) : StmtLaid (.leave line) := by
  intro entry callee awaited g g' knows exits laid run
  rw [stmt] at run
  cases loops : g.loops with
  | nil =>
    rw [run_leave_nil loops] at run
    cases run
    exact laid.judged _ _
  | cons l outer =>
    rw [run_leave_cons loops] at run
    cases run
    -- The new jump is one of those out of the loop.
    have skipped := laid.skip
    refine ⟨skipped.after, fun l' member => ?_, fun n i low found => ?_⟩
    · have turns := skipped.turns
      change ∀ l ∈ g.loops, _ at turns
      rw [loops] at turns
      rcases List.mem_cons.mp member with rfl | member
      · exact turns l (by simp)
      · exact turns l' (by simp [member])
    · refine (skipped.code n i low found).mono List.prefix_rfl List.prefix_rfl (fun _ known => known) fun t aims => ?_
      refine aims.mono (Nat.le_refl _) ?_
      rintro ((waits | rfl) | ⟨l', innermost, exit⟩)
      · exact .inl waits
      · exact .inr ⟨_, rfl, by simp⟩
      · change l' ∈ g.loops.head? at innermost
        rw [loops] at innermost
        cases innermost
        exact .inr ⟨_, rfl, by simp [exit]⟩

theorem laid_again (line : Nat) : StmtLaid (.again line) := by
  intro entry callee awaited g g' knows exits laid run
  rw [stmt] at run
  cases loops : g.loops with
  | nil =>
    rw [run_again_nil loops] at run
    cases run
    exact laid.judged _ _
  | cons l outer =>
    rw [run_again_cons loops] at run
    cases run
    obtain ⟨low, high⟩ := laid.turns l (by simp [loops])
    exact laid.emitted (.jump (.inl ⟨by omega, by omega⟩))

theorem laid_stmt (s : Stmt) : StmtLaid s := by
  induction s using Stmt.induction with
  | skipped | empty =>
    intro entry callee awaited g g' knows exits laid run
    cases run
    exact laid
  | expr e =>
    intro entry callee awaited g g' knows exits laid run
    rw [stmt] at run
    obtain ⟨x, g₁, runExpr, runRest⟩ := bind_ok run
    cases runRest
    exact (laid_expr e knows laid runExpr).1
  | block vars body ih => exact laid_block ih
  | ifThen line e body ih => exact laid_ifThen ih
  | ifElse line e body orElse ih ih' => exact laid_ifElse ih ih'
  | loop line e body ih => exact laid_loop ih
  | ret line value =>
    intro entry callee awaited g g' knows exits laid run
    cases value with
    | none =>
      rw [stmt] at run
      exact laid_ret laid .absent run
    | some e =>
      rw [stmt] at run
      obtain ⟨x, g₁, runExpr, runRet⟩ := bind_ok run
      obtain ⟨laid₁, stored⟩ := laid_expr e knows laid runExpr
      exact laid_ret laid₁ (returned_within stored) runRet
  | leave line => exact laid_leave line
  | again line => exact laid_again line

theorem knows_param {p : Param} (knows : Knows callee g) (run : (param p).run g = .ok () g') : Knows callee g' := by
  cases p with
  | unnamed type =>
    cases run
    exact knows
  | named type id isArray =>
    have judged := Keeps.judged g id.line (Check.variableType id.name type.ty)
    rw [run_param_named] at run
    dsimp only at run
    split at run
    · rename_i scopes declared
      cases run
      cases eq_add_of_declare declared
      refine knows.allocated rfl (judged_emitter _ _ _) ?_ rfl
      cases isArray <;> simp [paramSymbol]
    · cases run
      rename_i earlier _
      have kept := judged.trans (.judged _ id.line (.rejected (.redeclared earlier.name)))
      obtain ⟨inside, slot, grown, _⟩ :=
        allocated_slots (kept.inside knows.inside) (paramSymbol type id isArray g.temp)
      exact (knows.grown kept.toGrows).spread inside rfl (by rw [grown]; exact List.prefix_append _ _) List.prefix_rfl

theorem knows_params {params : List Param} (knows : Knows callee g) (run : (params.forM param).run g = .ok () g') :
    Knows callee g' := by
  induction params generalizing g with
  | nil =>
    cases run
    exact knows
  | cons p rest ih =>
    obtain ⟨_, g₁, runFirst, runRest⟩ := bind_ok (show (param p >>= fun _ => rest.forM param).run g = _ from run)
    exact ih (knows_param knows runFirst) runRest

theorem Knows.withResult (knows : Knows callee g) : Knows callee g.withResult := by
  obtain ⟨f, current⟩ := Option.isSome_iff_exists.mp knows.inside
  refine knows.spread ?_ rfl ?_ List.prefix_rfl
  · simp [Codegen.withResult, Emitter.take, current]
  · simp [Codegen.withResult, Emitter.take, Codegen.slots, current, Frame.push]

theorem Knows.announced (knows : Knows callee g) (f : FunDecl) (s : Symbol) : Knows callee (g.announced f s) := by
  have current := announced_current g f s
  refine knows.spread (current ▸ knows.inside) (by rw [announced_scopes]) ?_
    ((announced_scopes g f s).symm ▸ List.prefix_rfl)
  simp only [Codegen.slots, current]
  exact List.prefix_rfl

end Codegen

structure Function.Spans (code : Array Instruction) (symbols : List Symbol) (callee : Nat → Prop) (f : Function)
    (entry last : Nat) : Prop where
  startsAt : f.entry = entry
  endsAt : f.stop = (last + 1 : Nat)
  ends : entry < last
  enter : code[entry]? = some { op := .func, a1 := .imm f.frame.size, a2 := .imm f.frame.params }
  body : ∀ n i, entry < n → n < last → code[n]? = some i →
    i.Within f.frame.slots symbols callee fun t => entry < t ∧ t ≤ last
  leave : code[last]? = some { op := .ret }

theorem Function.Spans.mono {code code' : Array Instruction} {symbols symbols' : List Symbol} {callee callee' : Nat → Prop}
    {f : Function} {entry last : Nat} (h : f.Spans code symbols callee entry last)
    (kept : ∀ n i, entry ≤ n → code[n]? = some i → code'[n]? = some i) (more : symbols <+: symbols')
    (callees : ∀ e, callee e → callee' e) : f.Spans code' symbols' callee' entry last := by
  have bound := (Array.getElem?_eq_some_iff.mp h.leave).1
  have ends := h.ends
  refine ⟨h.startsAt, h.endsAt, ends, kept _ _ (Nat.le_refl _) h.enter, fun n i low high found => ?_,
    kept _ _ (Nat.le_of_lt ends) h.leave⟩
  have before : code[n]? = some code[n] := Array.getElem?_eq_getElem (Nat.lt_trans high bound)
  have same := kept n _ (Nat.le_of_lt low) before
  rw [found] at same
  cases same
  exact (h.body n _ low high before).mono List.prefix_rfl more callees fun _ ok => ok

def Consecutive : Int → List Function → Int → Prop
  | m, [], n => m = n
  | m, f :: rest, n => f.entry = m ∧ f.entry < f.stop ∧ Consecutive f.stop rest n

theorem Consecutive.append {m n : Int} {functions : List Function} {f : Function} (h : Consecutive m functions n)
    (entry : f.entry = n) (ends : f.entry < f.stop) : Consecutive m (functions ++ [f]) f.stop := by
  induction functions generalizing m with
  | nil => exact ⟨entry.trans h.symm, ends, rfl⟩
  | cons first rest ih => exact ⟨h.1, h.2.1, ih h.2.2⟩

def mainEntry (functions : List Function) : Int :=
  ((functions.filter (·.name = Codegen.mainName)).getLast?.map (·.entry)).getD (-1)

theorem mainEntry_append (functions : List Function) (f : Function) :
    mainEntry (functions ++ [f]) = if f.name = Codegen.mainName then f.entry else mainEntry functions := by
  unfold mainEntry
  split
  · rename_i main
    simp [main]
  · rename_i other
    simp [other]

def Begun (functions : List Function) (entry : Nat) : Prop :=
  ∃ f ∈ functions, f.entry = entry

/-- The shape of the code of a program up to the jump behind the call of its main function. -/
structure Outline (code : Array Instruction) (functions : List Function) (symbols : List Symbol) : Prop where
  start : code[0]? = some { op := .call, a1 := .label (mainEntry functions), a2 := .imm 0 }
  consecutive : Consecutive 2 functions code.size
  spans : ∀ f ∈ functions, ∃ entry last, 2 ≤ entry ∧
    f.Spans code symbols (fun e => Begun functions e ∧ e ≤ entry) entry last

theorem Outline.grown {code : Array Instruction} {functions : List Function} {symbols symbols' : List Symbol}
    (h : Outline code functions symbols) (more : symbols <+: symbols') : Outline code functions symbols' := by
  refine ⟨h.start, h.consecutive, fun f member => ?_⟩
  obtain ⟨entry, last, positive, spans⟩ := h.spans f member
  exact ⟨entry, last, positive, spans.mono (fun _ _ _ found => found) more fun _ known => known⟩

namespace Codegen

structure Outlined (g : Codegen) : Prop where
  top : g.TopLevel
  outline : Outline g.code g.emitter.functions g.scopes.all
  halt : g.code[1]? = some openJump
  outermost : g.scopes.current.id = 0
  visible : ∀ s ∈ g.scopes.current.symbols, s.Usable (Begun g.emitter.functions) [] g.scopes.all

theorem outlined_initial : Outlined {} := by
  refine ⟨topLevel_initial, ⟨rfl, rfl, fun f member => ?_⟩, rfl, rfl, fun s member => ?_⟩
  · cases member
  · cases List.mem_singleton.mp member
    exact ⟨.absent, fun _ own => by cases own⟩

theorem usable_global {g : Codegen} {d : VarDecl} (top : g.TopLevel) (outermost : g.scopes.current.id = 0)
    {callee : Nat → Prop} :
    Symbol.Usable callee [] (g.scopes.add (varSymbol d g.temp)).all
      { varSymbol d g.temp with scope := g.scopes.current.id } := by
  have global : g.temp = .global g.emitter.nextGlobal := by simp [temp, Emitter.free, top.current]
  have variable_ : (varSymbol d g.temp).kind ≠ .func := by
    rcases d with ⟨type, id, extent⟩
    cases extent <;> simp [varSymbol]
  refine ⟨?_, fun function => absurd function variable_⟩
  change g.temp.Within _ _
  rw [global]
  exact .global (List.mem_append_right _ (List.mem_singleton_self _)) outermost variable_ rfl

theorem Outlined.varDecl {g g' : Codegen} {d : VarDecl} (h : Outlined g) (run : (varDecl d).run g = .ok () g') :
    Outlined g' ∧ g'.emitter.functions = g.emitter.functions := by
  have declares := ((yields_varDecl d g).of_run run).1
  have known : ∀ s ∈ g.scopes.current.symbols, s.Usable (Begun g'.emitter.functions) [] g'.scopes.all := by
    intro s member
    rw [declares.functions]
    exact (h.visible s member).mono (fun _ begun => begun) List.prefix_rfl declares.symbols
  have outline : Outline g'.code g'.emitter.functions g'.scopes.all := by
    rw [declares.code, declares.functions]
    exact h.outline.grown declares.symbols
  suffices g'.scopes.current.id = 0 ∧
      ∀ s ∈ g'.scopes.current.symbols, s.Usable (Begun g'.emitter.functions) [] g'.scopes.all from
    ⟨⟨declares.topLevel h.top, outline, declares.code ▸ h.halt, this.1, this.2⟩, declares.functions⟩
  rw [run_varDecl] at run
  cases declared : g.scopes.declare (varSymbol d g.temp) with
  | error earlier =>
    rw [declared] at run
    cases run
    simp only [Codegen.examined, judged_scopes] at known ⊢
    exact ⟨h.outermost, known⟩
  | ok scopes =>
    rw [declared] at run
    cases run
    cases eq_add_of_declare declared
    refine ⟨h.outermost, fun s member => ?_⟩
    rcases List.mem_append.mp member with member | member
    · exact known s member
    · cases List.mem_singleton.mp member
      exact usable_global h.top h.outermost

variable {f : FunDecl} {g g₁ g₂ g₃ g₄ : Codegen} {fn : Function} {scopes : Scopes}

def Reachable (g : Codegen) (entry : Nat) : Prop :=
  Begun g.emitter.functions entry ∨ entry = g.code.size

namespace FunctionRun

theorem usable (h : FunctionRun f g g₁ g₂ g₃ g₄ fn scopes) (before : Outlined g) :
    g₁.scopes.current.id = 0 ∧ ∀ s ∈ g₁.scopes.current.symbols, s.Usable g.Reachable [] g₁.scopes.all := by
  have known : ∀ s ∈ g.scopes.current.symbols, s.Usable g.Reachable [] g₁.scopes.all := fun s member =>
    (before.visible s member).mono (fun _ => .inl) List.prefix_rfl h.declares.symbols
  obtain ⟨isNew, run⟩ := h.declared
  rw [run_declare] at run
  split at run
  · rename_i declared
    cases run
    cases eq_add_of_declare declared
    refine ⟨before.outermost, fun s member => ?_⟩
    rcases List.mem_append.mp member with member | member
    · exact known s member
    · cases List.mem_singleton.mp member
      exact ⟨.absent, fun _ _ => .inr rfl⟩
  · cases run
    rw [judged_scopes] at known ⊢
    exact ⟨before.outermost, known⟩

theorem knows (h : FunctionRun f g g₁ g₂ g₃ g₄ fn scopes) (before : Outlined g) : Knows g.Reachable g₃ := by
  have entered : Knows g.Reachable (g₁.entered f (funSymbol f g.code.size)) := by
    refine ⟨rfl, fun scope member s declared => ?_⟩
    rcases List.mem_cons.mp member with rfl | member
    · cases declared
    · change scope ∈ g₁.scopes.current :: g₁.scopes.outer at member
      rw [(h.declares.topLevel before.top).outer] at member
      cases List.mem_singleton.mp member
      exact (h.usable before).2 s declared
  exact knows_vars ((knows_params entered h.params).withResult.announced f _) h.vars

theorem laid (h : FunctionRun f g g₁ g₂ g₃ g₄ fn scopes) (before : Outlined g) :
    Laid g.code.size g.Reachable (fun _ => False) g₄ := by
  have size := h.size_before
  have loops := h.loops_before before.top
  have start : Laid g.code.size g.Reachable (fun _ => False) g₃ := by
    refine ⟨by omega, by simp [loops], fun n i low found => ?_⟩
    have bound := (Array.getElem?_eq_some_iff.mp found).1
    omega
  exact laid_stmts (fun s _ => laid_stmt s) (h.knows before) (fun l member => by simp [loops] at member) start h.body

theorem functions (h : FunctionRun f g g₁ g₂ g₃ g₄ fn scopes) (top : g.TopLevel) :
    (g₄.concluded fn scopes).emitter.functions =
      g.emitter.functions ++ [{ fn with stop := (g₄.code.size + 1 : Nat) }] := by
  have entered : (g₁.entered f (funSymbol f g.code.size)).emitter.functions = g.emitter.functions := by
    change g₁.emitter.functions ++ g₁.emitter.current.toList = _
    rw [(h.declares.topLevel top).current, h.declares.functions]
    exact List.append_nil _
  have announced : (g₂.withResult.announced f (funSymbol f g.code.size)).emitter.functions = g₂.emitter.functions := by
    rw [← (Declares.withResult g₂).functions]
    unfold Codegen.announced
    split
    · change (g₂.withResult.judged _ _).emitter.functions = _
      rw [judged_emitter]
    · rfl
  change g₄.emitter.functions ++ _ = _
  rw [h.grows.functions, h.declaresVars.functions, announced, h.enlists.functions, entered]

theorem symbols_le (h : FunctionRun f g g₁ g₂ g₃ g₄ fn scopes) : g₁.scopes.all <+: scopes.all := by
  have vars := h.declaresVars.symbols
  rw [announced_scopes] at vars
  rw [h.symbols]
  exact (h.enlists.symbols.trans vars).trans h.grows.symbols

theorem spans (h : FunctionRun f g g₁ g₂ g₃ g₄ fn scopes) (before : Outlined g) :
    Function.Spans (g₄.concluded fn scopes).code scopes.all g.Reachable
      { fn with stop := (g₄.code.size + 1 : Nat) } g.code.size g₄.code.size := by
  have size := h.size_before
  have grown := h.grows.size_le
  have slots : g₄.slots = fn.frame.slots := by simp [Codegen.slots, h.current]
  have code := h.code_whole
  refine ⟨h.entry, rfl, by omega, ?_, fun n i low high found => ?_, ?_⟩
  · rw [code, Array.getElem?_modify, if_pos rfl, Array.getElem?_push_lt (by omega),
      ← Array.getElem?_eq_getElem (by omega), h.enters before.top]
    rfl
  · rw [code, Array.getElem?_modify, if_neg (by omega), Array.getElem?_push_lt high] at found
    have laid := (h.laid before).code n i low (by rw [Array.getElem?_eq_getElem high]; exact found)
    rw [slots, ← h.symbols] at laid
    refine laid.mono List.prefix_rfl List.prefix_rfl (fun _ known => known) fun t aims => ?_
    rcases aims with bounds | ⟨_, _ | ⟨l, innermost, _⟩⟩
    · exact bounds
    · contradiction
    · rw [h.loops before.top] at innermost
      cases innermost
  · rw [code, Array.getElem?_modify, if_neg (by omega), Array.getElem?_push_size]

theorem outlined (h : FunctionRun f g g₁ g₂ g₃ g₄ fn scopes) (before : Outlined g) :
    Outlined (g₄.concluded fn scopes) := by
  have adds := h.adds before.top
  have functions := h.functions before.top
  have spans := h.spans before
  have symbols : g.scopes.all <+: scopes.all := h.declares.symbols.trans h.symbols_le
  have current : scopes.current = g₁.scopes.current := by
    have visible := h.visible
    simp only [Scopes.visible, List.cons.injEq] at visible
    exact visible.1
  have begun : ∀ e, g.Reachable e → Begun (g₄.concluded fn scopes).emitter.functions e := by
    rw [functions]
    rintro e (⟨f', member, starts⟩ | rfl)
    · exact ⟨f', by simp [member], starts⟩
    · exact ⟨_, List.mem_append_right _ (List.mem_singleton_self _), h.entry⟩
  have earlier : ∀ e, Begun g.emitter.functions e → e < g.code.size := by
    rintro e ⟨f', member, starts⟩
    obtain ⟨entry, last, _, spans'⟩ := before.outline.spans f' member
    have bound := (Array.getElem?_eq_some_iff.mp spans'.enter).1
    have same := spans'.startsAt.symm.trans starts
    omega
  refine ⟨adds.topLevel, ⟨?_, ?_, fun f' member => ?_⟩, adds.code (by omega) before.halt, ?_, fun s member => ?_⟩
  · rw [h.start before.outline.start, functions, mainEntry_append]
    simp only [h.opened.1, h.entry]
    split <;> rfl
  · have size : (g₄.concluded fn scopes).code.size = g₄.code.size + 1 := by
      rw [h.code_whole, Array.size_modify, Array.size_push]
    have ends := spans.ends
    rw [functions, size]
    exact before.outline.consecutive.append h.entry (by rw [spans.startsAt, spans.endsAt]; omega)
  · rw [functions] at member
    rcases List.mem_append.mp member with member | member
    · obtain ⟨entry, last, positive, spans'⟩ := before.outline.spans f' member
      exact ⟨entry, last, positive, spans'.mono (fun _ _ le => adds.code (by omega)) symbols fun e known =>
        ⟨begun e (.inl known.1), known.2⟩⟩
    · cases List.mem_singleton.mp member
      have positive := (Array.getElem?_eq_some_iff.mp before.halt).1
      refine ⟨_, _, positive, spans.mono (fun _ _ _ found => found) List.prefix_rfl fun e known => ⟨begun e known, ?_⟩⟩
      rcases known with known | rfl
      · exact Nat.le_of_lt (earlier e known)
      · exact Nat.le_refl _
  · exact current ▸ (h.usable before).1
  · exact ((h.usable before).2 s (current ▸ member)).mono begun List.prefix_rfl h.symbols_le

end FunctionRun

theorem outlined_decl {d : Decl} (h : Outlined g) {g' : Codegen} (run : (decl d).run g = .ok () g') :
    Outlined g' ∧ g'.emitter.functions.map (·.name) =
      g.emitter.functions.map (·.name) ++ functionNames [d] := by
  cases d with
  | var d =>
    obtain ⟨outlined, functions⟩ := h.varDecl run
    exact ⟨outlined, by simp [functions, functionNames]⟩
  | fn f =>
    obtain ⟨g₁, g₂, g₃, g₄, fn, scopes, runs⟩ := exists_functionRun f h.top
    change (funDecl f).run g = _ at run
    rw [runs.run] at run
    cases run
    refine ⟨runs.outlined h, ?_⟩
    rw [runs.functions h.top]
    simp [runs.opened.1, functionNames]

theorem outlined_decls {decls : List Decl} {g' : Codegen} (h : Outlined g) (run : (decls.forM decl).run g = .ok () g') :
    Outlined g' ∧ g'.emitter.functions.map (·.name) =
      g.emitter.functions.map (·.name) ++ functionNames decls := by
  induction decls generalizing g with
  | nil =>
    cases run
    exact ⟨h, by simp [functionNames]⟩
  | cons d rest ih =>
    obtain ⟨_, g₁, runFirst, runRest⟩ := bind_ok (show (decl d >>= fun _ => rest.forM decl).run g = _ from run)
    obtain ⟨outlined, names⟩ := outlined_decl h runFirst
    obtain ⟨outlined', names'⟩ := ih outlined runRest
    refine ⟨outlined', ?_⟩
    rw [names', names]
    simp [functionNames]

theorem outline_of_run {s : Source} {g : Codegen} (run : Codegen.run s = .ok g) :
    Outline g.emitter.program.code g.emitter.program.functions g.scopes.all ∧
      g.emitter.program.code[1]? = some { op := .jp, a1 := .label g.emitter.program.code.size } ∧
      g.emitter.program.functions.map (·.name) = s.functionNames := by
  obtain ⟨g₁, runDecls, adds, _⟩ := runs_decls s.decls topLevel_initial
  rw [run_eq_completed runDecls adds.topLevel] at run
  cases run
  obtain ⟨outlined, names⟩ := outlined_decls outlined_initial runDecls
  have code : (g₁.completed s).emitter.program.code = g₁.code.modify 1 (·.aimed g₁.code.size) := by
    simp [Emitter.program, completed, finished, judged_code]
  have functions : (g₁.completed s).emitter.program.functions = g₁.emitter.functions := by
    simp [Emitter.program, completed, finished, landed, aimed, outlined.top.current]
  have symbols : (g₁.completed s).scopes.all = g₁.scopes.all := by
    simp [completed, finished, landed, aimed]
  rw [code, functions, symbols]
  refine ⟨⟨?_, ?_, fun f member => ?_⟩, ?_, names⟩
  · rw [Array.getElem?_modify, if_neg (by omega)]
    exact outlined.outline.start
  · rw [Array.size_modify]
    exact outlined.outline.consecutive
  · obtain ⟨entry, last, positive, spans⟩ := outlined.outline.spans f member
    refine ⟨entry, last, positive, spans.mono (fun n i low found => ?_) List.prefix_rfl fun _ known => known⟩
    rw [Array.getElem?_modify, if_neg (by omega), found]
  · rw [Array.getElem?_modify, if_pos rfl, outlined.halt, Array.size_modify]
    rfl

end Codegen

end MiniC
