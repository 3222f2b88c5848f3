import MiniC.Proofs.Generation.Realization.Expr

namespace MiniC.Codegen

open Typing Translation

/-- Whether a finished code, in which the innermost loop is left to `exit`, holds what was emitted
    between two states. -/
structure Realizes (code : Array Instruction) (exit : Nat) (g g' : Codegen) : Prop where
  settled : ∀ i, g.code.size ≤ i → i < g'.code.size → ¬ g'.Pending i → code[i]? = g'.code[i]?
  pending : ∀ i, g.code.size ≤ i → g'.Pending i → code[i]? = some (openJump.aimed exit)

namespace Realizes

variable {code : Array Instruction} {exit : Nat} {g g₁ g' : Codegen}

theorem before (h : Realizes code exit g g') (moves : Moves g₁ g') : Realizes code exit g g₁ := by
  refine ⟨fun i low high settled => ?_, fun i low pending => h.pending i low (moves.pending pending)⟩
  rw [h.settled i low (Nat.lt_of_lt_of_le high moves.size_le) (moves.not_pending high settled),
    Array.getElem?_eq_getElem high]
  exact moves.code (Array.getElem?_eq_getElem high)

theorem after (h : Realizes code exit g g') (later : g.code.size ≤ g₁.code.size) : Realizes code exit g₁ g' :=
  ⟨fun i low => h.settled i (Nat.le_trans later low), fun i low => h.pending i (Nat.le_trans later low)⟩

theorem fits (h : Realizes code exit g g') (exits : g.ExitsOpen) (same : g'.loops = g.loops) : Fits code g g' := by
  intro i low high
  refine h.settled i low high ?_
  unfold Pending
  rw [same]
  exact exits.not_pending low

theorem fits_before (h : Realizes code exit g g') (exits : g.ExitsOpen) (kept : Keeps g g₁) (moves : Moves g₁ g') :
    Fits code g g₁ :=
  (h.before moves).fits exits kept.sameLoops

theorem emitted {i : Instruction} (h : Realizes code exit g (g₁.emitted i)) (exits : g₁.ExitsOpen)
    (later : g.code.size ≤ g₁.code.size) : code[g₁.code.size]? = some i := by
  have settled : ¬ (g₁.emitted i).Pending g₁.code.size := exits.not_pending (Nat.le_refl _)
  rw [h.settled _ later (by simp) settled, emitted_found]

theorem aimed {jump target : Nat} (h : Realizes code exit g (g'.aimed jump target)) (later : g.code.size ≤ g₁.code.size)
    (earlier : jump < g₁.code.size) : Realizes code exit g₁ g' := by
  refine ⟨fun i low high settled => ?_, fun i low pending => h.pending i (Nat.le_trans later low) pending⟩
  rw [h.settled i (Nat.le_trans later low) (by simpa using high) settled, aimed_code, Array.getElem?_modify,
    if_neg (by omega)]

theorem jump {jump target : Nat} {i : Instruction} (h : Realizes code exit g (g'.aimed jump target))
    (later : g.code.size ≤ jump) (settled : ¬ g'.Pending jump) (found : g'.code[jump]? = some i) :
    code[jump]? = some (i.aimed target) := by
  have bound := (Array.getElem?_eq_some_iff.mp found).1
  rw [h.settled jump later (by simpa using bound) settled, aimed_code, Array.getElem?_modify, if_pos rfl, found]
  rfl

theorem looping {l : Loop} {outer : List Loop} (fits : Fits code g { g'.landedAll l.exits with loops := outer })
    (loops : g'.loops = l :: outer) (exits : g'.ExitsOpen) : Realizes code g'.code.size g.looping g' := by
  have inner : ∀ i, g'.Pending i ↔ i ∈ l.exits := by simp [Pending, loops]
  refine ⟨fun i low high settled => ?_, fun i low pending => ?_⟩
  · have found := fits i low (by rw [landedAll_size]; exact high)
    rwa [landedAll_getElem?, if_neg (mt (inner i).mpr settled)] at found
  · have member := (inner i).mp pending
    have jump := exits l (by simp [loops]) i member
    have bound := (Array.getElem?_eq_some_iff.mp jump).1
    have found := fits i low (by rw [landedAll_size]; exact bound)
    rwa [landedAll_getElem?, if_pos member, jump] at found

end Realizes

theorem varSymbol_home (d : VarDecl) (storage : Operand) : (varSymbol d storage).home = varHome d storage := by
  rcases d with ⟨type, id, extent⟩
  cases extent <;> rfl

theorem storageSize_varSymbol {d : VarDecl} (ok : VarOk d) (storage : Operand) :
    Emitter.storageSize (varSymbol d storage) = .ofNat (Reference.words d) * wordSize := by
  have positive := ok.size
  rcases d with ⟨type, id, extent⟩
  cases extent with
  | scalar => rfl
  | array size =>
    cases size with
    | none => rfl
    | some n =>
      cases real : n.real with
      | true => simp [Emitter.storageSize, varSymbol, lengthOf, Reference.words, real]
      | false =>
        have bound := positive n rfl real
        have whole : Int64.ofNat n.value.toNatClampNeg = n.value :=
          Int64.ofNat_toNatClampNeg _ (Int64.le_of_lt bound)
        simp [Emitter.storageSize, varSymbol, lengthOf, Reference.words, real, bound, whole]

theorem run_varDecl_ok {d : VarDecl} {g : Codegen} (ok : VarOk d) (fresh : d.id.name ∉ g.scopes.current.layer.names) :
    (varDecl d).run g =
      .ok () ({ g with scopes := g.scopes.add (varSymbol d g.temp) }.allocated (varSymbol d g.temp)) := by
  have examined : g.examined d = g := by
    have type : Check.variableType d.id.name d.type.ty = .accepted := by rw [ok.type]; rfl
    have extent : extentVerdict d = .accepted := by
      unfold extentVerdict
      split
      · rfl
      · rename_i size extent
        cases size with
        | none => rfl
        | some n =>
          cases real : n.real with
          | true => simp [sizeVerdict, real]
          | false => simp [sizeVerdict, real, Check.arraySize, Verdict.require, ok.size n extent real]
    rw [Codegen.examined, type, extent, judged_accepted, judged_accepted]
  have declared : g.scopes.declare (varSymbol d g.temp) = .ok (g.scopes.add (varSymbol d g.temp)) :=
    Scopes.declare_of_fresh fresh
  rw [run_varDecl, declared, examined]

structure PlacesVars (vars : List VarDecl) (g g' : Codegen) (homes : Bindings Home) : Prop where
  errors : g'.errors = g.errors
  view : g'.scopes.current.view Symbol.home = g.scopes.current.view Symbol.home ++ homes
  length : g'.slots.length = g.slots.length + vars.length
  placed : ∀ frame, g'.slots <+: frame → VarsPlaced frame g.slots.length vars homes

theorem varDecl_slots {d : VarDecl} {g : Codegen} (ok : VarOk d) (inside : g.emitter.current.isSome) :
    ∃ s, ({ g with scopes := g.scopes.add (varSymbol d g.temp) }.allocated (varSymbol d g.temp)).slots = g.slots ++ [s] ∧
      s.kind = .var ∧ s.size = .ofNat (Reference.words d) * wordSize ∧ g.temp = .slot s.offset := by
  obtain ⟨f, current⟩ := Option.isSome_iff_exists.mp inside
  have size := storageSize_varSymbol ok g.temp
  have own : (varSymbol d g.temp).isParam = false := rfl
  simp only [slots, allocated, own, Bool.false_eq_true, if_false, Emitter.take, current, Frame.push]
  exact ⟨_, rfl, rfl, size, by simp [temp, Emitter.free, current]⟩

theorem vars_translate {vars : List VarDecl} {g g' : Codegen} (inside : g.emitter.current.isSome)
    (ok : ∀ d ∈ vars, VarOk d) (distinct : (g.scopes.current.layer ++ varLayer vars).names.Nodup)
    (run : (vars.forM varDecl).run g = .ok () g') : ∃ homes, PlacesVars vars g g' homes := by
  induction vars generalizing g with
  | nil =>
    cases run
    exact ⟨[], rfl, by simp, rfl, fun _ _ => .nil⟩
  | cons d rest ih =>
    change (varDecl d >>= fun _ => rest.forM varDecl).run g = _ at run
    obtain ⟨_, g₁, runFirst, runRest⟩ := bind_ok run
    have names : Bindings.names (varLayer (d :: rest)) = d.id.name :: Bindings.names (varLayer rest) := rfl
    rw [Bindings.names_append, names] at distinct
    have fresh : d.id.name ∉ g.scopes.current.layer.names := fun member =>
      (List.nodup_append.mp distinct).2.2 _ member _ (by simp) rfl
    have moves := ((yields_varDecl d g).of_run runFirst).2
    have moves' := ((yields_vars rest g₁).of_run runRest).2
    rw [run_varDecl_ok (ok d (by simp)) fresh] at runFirst
    cases runFirst
    obtain ⟨s, grown, kind, size, operand⟩ := varDecl_slots (ok d (by simp)) inside
    obtain ⟨homes, others⟩ := ih (moves.inside inside) (fun d member => ok d (by simp [member]))
      (by
        change (Bindings.names (Scope.layer (Scopes.add _ _).current ++ varLayer rest)).Nodup
        rw [Scopes.layer_add, Bindings.names_append, Bindings.names_append, List.append_assoc]
        exact distinct) runRest
    refine ⟨(d.id.name, varHome d (.slot s.offset)) :: homes, others.errors, ?_, ?_, fun frame fits => ?_⟩
    · rw [others.view]
      change (Scopes.add _ _).current.view _ ++ _ = _
      rw [Scopes.view_add _ (fun _ _ => rfl), List.append_assoc, varSymbol_home, operand]
      rfl
    · rw [others.length, grown]
      simp
      omega
    · have later := others.placed frame fits
      rw [grown, List.length_append, List.length_singleton] at later
      refine .cons ?_ kind size later
      obtain ⟨rest', rfl⟩ := moves'.slots.trans fits
      rw [grown]
      simp

def turn (g : Codegen) (exit : Nat) : Option Turn :=
  g.loops.head?.map fun l => ⟨l.start, exit⟩

theorem Moves.turn {g g' : Codegen} (h : Moves g g') (exit : Nat) : g'.turn exit = g.turn exit := by
  have grown := h.loops
  unfold Codegen.turn
  generalize g.loops = x, g'.loops = y at grown
  match x, y, grown with
  | [], [], _ => rfl
  | _ :: _, _ :: _, ⟨start, _⟩ => simp [start]

structure Ready (result : TypeName) (g : Codegen) : Prop where
  regular : g.scopes.Regular
  exits : g.ExitsOpen
  inside : g.emitter.current.isSome
  function : ∃ f, g.function = some f ∧ f.type = result.ty
  clean : g.errors = #[]

theorem Ready.of_grows {result : TypeName} {g g' : Codegen} (ready : Ready result g) (grows : Grows g g')
    (clean : g'.errors = #[]) : Ready result g' :=
  ⟨ready.regular.of_visible grows.visible, grows.toMoves.exitsOpen ready.exits, grows.toMoves.inside ready.inside,
    grows.function ▸ ready.function, clean⟩

structure Executes (result : TypeName) (s : Stmt) (g g' : Codegen) : Prop where
  clean : g'.errors = #[]
  code : ∀ code frame exit, Realizes code exit g g' → g'.slots <+: frame →
    StmtCode code frame result (g.turn exit) g.homes s g.place g'.place

def ExecutesAt (result : TypeName) (s : Stmt) : Prop :=
  ∀ g g' : Codegen, Ready result g → StmtOk result (!g.loops.isEmpty) g.scopes.env s → (stmt s).run g = .ok () g' →
    Executes result s g g'

theorem stmts_translate {result : TypeName} {body : List Stmt} (translate : ∀ s ∈ body, ExecutesAt result s)
    {g g' : Codegen} (ready : Ready result g) (ok : ∀ s ∈ body, StmtOk result (!g.loops.isEmpty) g.scopes.env s)
    (run : (stmts body).run g = .ok () g') :
    g'.errors = #[] ∧ ∀ code frame exit, Realizes code exit g g' → g'.slots <+: frame →
      StmtsCode code frame result (g.turn exit) g.homes body g.place g'.place := by
  induction body generalizing g with
  | nil =>
    cases run
    exact ⟨ready.clean, fun _ _ _ _ _ => .nil⟩
  | cons s rest ih =>
    rw [stmts] at run
    obtain ⟨_, g₁, runFirst, runRest⟩ := bind_ok run
    have grows := (yields_stmt s g ready.exits).of_run runFirst
    have first := translate s (by simp) g g₁ ready (ok s (by simp)) runFirst
    have ready₁ := ready.of_grows grows first.clean
    have grows' := (yields_stmts (fun s _ => yields_stmt s) g₁ ready₁.exits).of_run runRest
    obtain ⟨clean, others⟩ := ih (fun s member => translate s (by simp [member])) ready₁
      (fun s member => by
        rw [grows.loops.isEmpty, Scopes.env_of_visible grows.visible]
        exact ok s (by simp [member])) runRest
    refine ⟨clean, fun code frame exit realizes placed => ?_⟩
    have later := others code frame exit (realizes.after grows.toMoves.size_le) placed
    rw [grows.toMoves.turn, homes_of_visible grows.visible] at later
    exact .cons (first.code code frame exit (realizes.before grows'.toMoves) (grows'.toMoves.slots.trans placed)) later

theorem block_translates {result : TypeName} {vars : List VarDecl} {body : List Stmt}
    (translate : ∀ s ∈ body, ExecutesAt result s) : ExecutesAt result (.block vars body) := by
  intro g g' ready ok run
  obtain ⟨g₁, g₂, scopes, runVars, declares, moves, runBody, grows, visible, _, run', _⟩ :=
    @block_cases vars body g (yields_stmts fun s _ => yields_stmt s) ready.exits
  rw [run'] at run
  cases run
  generalize here : (!g.loops.isEmpty) = inLoop at ok
  cases ok with
  | block oks distinct inner =>
    obtain ⟨homes, places⟩ := vars_translate (g := { g with scopes := g.scopes.enter }) ready.inside oks distinct runVars
    have clean₁ : g₁.errors = #[] := places.errors.trans ready.clean
    obtain ⟨_, enlarges⟩ := vars_sound runVars clean₁
    have ready₁ : Ready result g₁ := ⟨enlarges.regular ready.regular.enter, moves.exitsOpen ready.exits,
      moves.inside ready.inside, moves.function ▸ ready.function, clean₁⟩
    have env : g₁.scopes.env = varLayer vars :: g.scopes.env := by
      simp only [Scopes.env, Scopes.view, Scopes.visible, List.map_cons, enlarges.layer, enlarges.outer]
      rfl
    have view : g₁.homes = homes :: g.homes := by
      simp only [Codegen.homes, Scopes.view, Scopes.visible, List.map_cons, places.view, enlarges.outer]
      rfl
    obtain ⟨clean, statements⟩ := stmts_translate translate ready₁
      (fun s member => by rw [moves.loops.isEmpty, here, env]; exact inner s member) runBody
    refine ⟨clean, fun code frame exit realizes placed => ?_⟩
    have realizes' : Realizes code exit g g₂ := ⟨realizes.settled, realizes.pending⟩
    have code := statements code frame exit (realizes'.after (Nat.le_of_eq (by rw [declares.code]))) placed
    have place : g₁.place = ⟨g.code.size, g.slots.length + vars.length⟩ := by
      simp only [Codegen.place, declares.code, places.length]
      rfl
    rw [moves.turn, view, place] at code
    exact .block (places.placed frame (grows.toMoves.slots.trans placed)) code

theorem landedAll_place (g : Codegen) (jumps : List Nat) : (g.landedAll jumps).place = g.place := by
  have slots : (g.landedAll jumps).slots = g.slots := by
    rw [landedAll_eq]
    rfl
  simp only [place, landedAll_size, slots]

section Branches

variable {result : TypeName} {line : Nat} {e : Expr} {body orElse : Stmt}

theorem condition_translates {g g₁ : Codegen} {x : Value} (ready : Ready result g) (typed : HasType g.scopes.env e .int)
    (run : (expr e).run g = .ok x g₁) :
    Translates e .int g x g₁ ∧ g₁.guarded line x = g₁.emitted { op := .jpf, a1 := x.operand, a2 := .unresolved } ∧
      Ready result (g₁.guarded line x) := by
  have condition := expr_translates e _ _ _ _ ready.regular ready.inside typed run
  have accepted : Check.operand x = .accepted := integer_accepted condition.typed _
  have same : g₁.guarded line x = g₁.emitted { op := .jpf, a1 := x.operand, a2 := .unresolved } := by
    simp [guarded, accepted, tested]
  refine ⟨condition, same, ?_⟩
  rw [same]
  exact ready.of_grows ((Keeps.of_expr run).trans (.emitted _ _)).toGrows (condition.errors.trans ready.clean)

theorem guarded_code {g g₁ g₂ : Codegen} {x : Value} {code : Array Instruction} {frame : List Slot} {exit target : Nat}
    (exits : g.ExitsOpen) (kept : Keeps g g₁) (condition : Translates e .int g x g₁)
    (same : g₁.guarded line x = g₁.emitted { op := .jpf, a1 := x.operand, a2 := .unresolved })
    (grows : Grows (g₁.guarded line x) g₂) (realizes : Realizes code exit g (g₂.aimed g₁.code.size target))
    (placed : g₂.slots <+: frame) :
    ExprCode code frame g.homes e g.place .int x.operand g₁.place ∧
      code[g₁.code.size]? = some { op := .jpf, a1 := x.operand, a2 := .label target } ∧
      Realizes code exit (g₁.guarded line x) g₂ := by
  have exits₁ := kept.toMoves.exitsOpen exits
  have later := kept.toMoves.size_le
  have size := guarded_size g₁ line x
  have settled : ¬ g₂.Pending g₁.code.size :=
    grows.toMoves.not_pending (by omega) (same ▸ exits₁.not_pending (Nat.le_refl _))
  have moves : Moves g₁ (g₂.aimed g₁.code.size target) :=
    ((Keeps.guarded g₁ line x).toMoves.trans grows.toMoves).aimed (Nat.le_refl _)
      (fun l innermost exit => settled ⟨l, innermost, exit⟩) target
  have found : g₂.code[g₁.code.size]? = some { op := .jpf, a1 := x.operand, a2 := .unresolved } := by
    refine grows.code ?_
    rw [same]
    exact emitted_found _ _
  exact ⟨condition.code code frame (realizes.fits_before exits kept moves) (moves.slots.trans placed),
    realizes.jump later settled found, realizes.aimed (by omega) (by omega)⟩

theorem turned_eq {g : Codegen} {jump : Nat} (earlier : jump < g.code.size) :
    g.turned jump = (g.aimed jump (g.code.size + 1)).emitted openJump := by
  have code : (g.turned jump).code = (g.code.modify jump (·.aimed (g.code.size + 1))).push openJump := by
    apply Array.ext_getElem?
    intro i
    simp only [turned, landed_code, emitted_code, Array.getElem?_modify, Array.getElem?_push, Array.size_push,
      Array.size_modify]
    by_cases last : i = g.code.size
    · simp [last, Nat.ne_of_lt earlier]
    · simp [last]
  change { g with emitter := { g.emitter with code := (g.turned jump).code } } = _
  rw [code]
  rfl

theorem ifThen_translates (translate : ExecutesAt result body) : ExecutesAt result (.ifThen line e body) := by
  intro g g' ready ok run
  obtain ⟨x, g₁, g₂, runCondition, kept, runBody, grows, run', _⟩ :=
    @ifThen_cases line e body g (yields_stmt body) ready.exits
  rw [run'] at run
  cases run
  generalize here : (!g.loops.isEmpty) = inLoop at ok
  cases ok with
  | ifThen typed ok =>
    obtain ⟨condition, same, ready₁⟩ := @condition_translates result line e g g₁ x ready typed runCondition
    have entered := kept.trans (.guarded g₁ line x)
    have first := translate _ _ ready₁
      (by rw [entered.sameLoops, here, Scopes.env_of_visible entered.visible]; exact ok) runBody
    refine ⟨first.clean, fun code frame exit realizes placed => ?_⟩
    obtain ⟨test, jump, inner⟩ := guarded_code ready.exits kept condition same grows realizes placed
    have body := first.code code frame exit inner placed
    rw [entered.toMoves.turn, homes_of_visible entered.visible, same, emitted_place] at body
    rw [landed_place]
    exact .ifThen test jump body

theorem ifElse_translates (translate : ExecutesAt result body) (translate' : ExecutesAt result orElse) :
    ExecutesAt result (.ifElse line e body orElse) := by
  intro g g' ready ok run
  obtain ⟨x, g₁, g₂, g₃, runCondition, kept, runBody, grows, runElse, grows', run', _⟩ :=
    @ifElse_cases line e body orElse g (yields_stmt body) (yields_stmt orElse) ready.exits
  rw [run'] at run
  cases run
  generalize here : (!g.loops.isEmpty) = inLoop at ok
  cases ok with
  | ifElse typed ok ok' =>
    obtain ⟨condition, same, ready₁⟩ := @condition_translates result line e g g₁ x ready typed runCondition
    have entered := kept.trans (.guarded g₁ line x)
    have first := translate _ _ ready₁
      (by rw [entered.sameLoops, here, Scopes.env_of_visible entered.visible]; exact ok) runBody
    have skips := grows.trans (.emitted g₂ openJump)
    have turned : Grows g (g₂.turned g₁.code.size) := .ifThen kept ready.exits skips
    have ready₂ : Ready result (g₂.turned g₁.code.size) := ready.of_grows turned first.clean
    have second := translate' _ _ ready₂
      (by rw [turned.loops.isEmpty, here, Scopes.env_of_visible turned.visible]; exact ok') runElse
    refine ⟨second.clean, fun code frame exit realizes placed => ?_⟩
    have exits₂ := (ready₁.of_grows grows first.clean).exits
    have size₁ := grows.toMoves.size_le
    rw [guarded_size] at size₁
    have later := kept.toMoves.size_le
    rw [turned_eq size₁] at *
    have aimed : (g₂.aimed g₁.code.size (g₂.code.size + 1)).code.size = g₂.code.size := by simp
    have found := grows'.code (emitted_found _ _)
    rw [aimed] at found
    have settled : ∀ l ∈ g₃.loops.head?, g₂.code.size ∉ l.exits :=
      grows'.toMoves.not_exit (by simp) exits₂.size_not_exit
    have skip := realizes.jump (by omega) (fun ⟨l, innermost, exit⟩ => settled l innermost exit) found
    have rest : Moves (g₂.aimed g₁.code.size (g₂.code.size + 1)) (g₃.landed g₂.code.size) :=
      ((Moves.emitted _ openJump).trans grows'.toMoves).aimed (by omega) settled _
    obtain ⟨test, jump, inner⟩ := guarded_code ready.exits kept condition same grows (realizes.before rest)
      (rest.slots.trans placed)
    have body := first.code code frame exit inner (rest.slots.trans placed)
    have other := second.code code frame exit (realizes.aimed (by simp; omega) (by simp)) placed
    rw [entered.toMoves.turn, homes_of_visible entered.visible, same, emitted_place] at body
    rw [turned.toMoves.turn, homes_of_visible turned.visible, emitted_place] at other
    rw [landed_place]
    have place : (g₂.aimed g₁.code.size (g₂.code.size + 1)).place = g₂.place := by
      simp only [Codegen.place, aimed]
      rfl
    rw [place] at other
    exact StmtCode.ifElse (r := g₂.place) test jump body skip other

theorem loop_translates (translate : ExecutesAt result body) : ExecutesAt result (.loop line e body) := by
  intro g g' ready ok run
  obtain ⟨x, g₁, g₂, l, outer, runCondition, kept, runBody, grows, loops, run', whole, _⟩ :=
    @loop_cases line e body g (yields_stmt body) ready.exits
  rw [run'] at run
  cases run
  generalize here : (!g.loops.isEmpty) = inLoop at ok
  cases ok with
  | loop typed ok =>
    have ready₀ : Ready result g.looping :=
      ⟨ready.regular, ready.exits.looping, ready.inside, ready.function, ready.clean⟩
    obtain ⟨condition, same, ready₁⟩ := @condition_translates result line e g.looping g₁ x ready₀ typed runCondition
    have entered := kept.trans (.guarded g₁ line x)
    have first := translate _ _ ready₁
      (by rw [entered.sameLoops, Scopes.env_of_visible entered.visible]; exact ok) runBody
    have exits₂ := (ready₁.of_grows grows first.clean).exits
    have back := grows.trans (.emitted g₂ { op := .jp, a1 := .label g.code.size })
    have returned : Grows g.looping (g₂.returnedTo g.code.size g₁.code.size) := .ifThen kept ready.exits.looping back
    have exits₃ := returned.toMoves.exitsOpen ready.exits.looping
    have size : (g₂.returnedTo g.code.size g₁.code.size).code.size = g₂.code.size + 1 := by simp [returnedTo]
    have same' : outer = g.loops := by
      have grown := returned.loops
      change LoopsGrow _ _ _ g₂.loops at grown
      rw [loops] at grown
      exact grown.2.1
    refine ⟨?_, fun code frame exit realizes placed => ?_⟩
    · rw [landedAll_eq]
      exact first.clean
    rw [landedAll_eq] at placed
    have inner := Realizes.looping (realizes.fits ready.exits same') loops exits₃
    obtain ⟨test, jump, inner'⟩ := guarded_code ready.exits.looping kept condition same back inner placed
    have body := first.code code frame _ (inner'.before (Moves.emitted _ _)) placed
    have again := inner'.emitted exits₂ grows.toMoves.size_le
    rw [entered.toMoves.turn, homes_of_visible entered.visible, same, emitted_place, size] at body
    have place : ({ (g₂.returnedTo g.code.size g₁.code.size).landedAll l.exits with loops := outer } : Codegen).place =
        g₂.place.next := by
      change ((g₂.returnedTo g.code.size g₁.code.size).landedAll l.exits).place = _
      rw [landedAll_place, returnedTo, landed_place, emitted_place]
    rw [place]
    rw [emitted_code, Array.size_push] at jump
    exact StmtCode.loop (r := g₂.place) test jump body again

end Branches

theorem ret_translates {result : TypeName} {line : Nat} {value : Option Expr} :
    ExecutesAt result (.ret line value) := by
  intro g g' ready ok run
  obtain ⟨f, function, type⟩ := ready.function
  generalize (!g.loops.isEmpty) = inLoop at ok
  cases ok with
  | ret void =>
    have verdict : g.resultVerdict none = .accepted := by
      subst void
      simp [resultVerdict, function, Check.result, type, TypeName.ty, Verdict.require]
    rw [stmt, run_ret, verdict, judged_accepted] at run
    cases run
    refine ⟨ready.clean, fun code frame exit realizes placed => ?_⟩
    rw [emitted_place]
    exact .ret void (realizes.emitted ready.exits (Nat.le_refl _))
  | value int typed =>
    rename_i e
    rw [stmt] at run
    obtain ⟨x, g₁, runValue, runRet⟩ := bind_ok run
    have kept := Keeps.of_expr runValue
    have value := expr_translates e _ _ _ _ ready.regular ready.inside typed runValue
    have verdict : g₁.resultVerdict (some x) = .accepted := by
      subst int
      simp [resultVerdict, kept.function, function, Check.result, type, TypeName.ty, integer_accepted value.typed]
    have operand : returned (some x) = x.operand := by
      have int := value.typed
      rcases x with ⟨type, operand, symbol, assignable⟩
      cases int
      rfl
    rw [run_ret, verdict, judged_accepted, operand] at runRet
    cases runRet
    refine ⟨value.errors.trans ready.clean, fun code frame exit realizes placed => ?_⟩
    have last := Moves.emitted g₁ { op := .ret, a1 := x.operand }
    rw [emitted_place]
    exact .value int (value.code code frame (realizes.fits_before ready.exits kept last) placed)
      (realizes.emitted (kept.toMoves.exitsOpen ready.exits) kept.toMoves.size_le)

theorem leave_translates {result : TypeName} {line : Nat} : ExecutesAt result (.leave line) := by
  intro g g' ready ok run
  rw [stmt] at run
  cases loops : g.loops with
  | nil =>
    rw [loops] at ok
    cases ok
  | cons l outer =>
    rw [run_leave_cons loops] at run
    cases run
    refine ⟨ready.clean, fun code frame exit realizes placed => ?_⟩
    have jump := realizes.pending g.code.size (Nat.le_refl _) ⟨_, rfl, by simp⟩
    have turn : g.turn exit = some ⟨l.start, exit⟩ := by simp [Codegen.turn, loops]
    rw [turn]
    have place := emitted_place g openJump
    change StmtCode _ _ _ _ _ _ _ (g.emitted openJump).place
    rw [place]
    exact .leave jump

theorem again_translates {result : TypeName} {line : Nat} : ExecutesAt result (.again line) := by
  intro g g' ready ok run
  rw [stmt] at run
  cases loops : g.loops with
  | nil =>
    rw [loops] at ok
    cases ok
  | cons l outer =>
    rw [run_again_cons loops] at run
    cases run
    refine ⟨ready.clean, fun code frame exit realizes placed => ?_⟩
    have turn : g.turn exit = some ⟨l.start, exit⟩ := by simp [Codegen.turn, loops]
    rw [turn, emitted_place]
    exact .again (realizes.emitted ready.exits (Nat.le_refl _))

theorem stmt_translates (result : TypeName) (s : Stmt) : ExecutesAt result s := by
  induction s using Stmt.induction with
  | skipped =>
    intro g g' ready ok run
    generalize (!g.loops.isEmpty) = inLoop at ok
    cases ok
  | empty =>
    intro g g' ready ok run
    cases run
    exact ⟨ready.clean, fun _ _ _ _ _ => .empty⟩
  | expr e =>
    intro g g' ready ok run
    rw [stmt] at run
    obtain ⟨x, g₁, runFirst, runRest⟩ := bind_ok run
    cases runRest
    generalize (!g.loops.isEmpty) = inLoop at ok
    cases ok with
    | expr typed =>
      have kept := Keeps.of_expr runFirst
      have value := expr_translates e _ _ _ _ ready.regular ready.inside typed runFirst
      exact ⟨value.errors.trans ready.clean, fun code frame exit realizes placed =>
        .expr (value.code code frame (realizes.fits ready.exits kept.sameLoops) placed)⟩
  | block vars body ih => exact block_translates ih
  | ifThen line e body ih => exact ifThen_translates ih
  | ifElse line e body orElse ih ih' => exact ifElse_translates ih ih'
  | loop line e body ih => exact loop_translates ih
  | ret line value => exact ret_translates
  | leave line => exact leave_translates
  | again line => exact again_translates

structure PlacesParams (params : List Param) (g g' : Codegen) (fn fn' : Function) (homes : Bindings Home) : Prop where
  errors : g'.errors = g.errors
  view : g'.scopes.current.view Symbol.home = g.scopes.current.view Symbol.home ++ homes
  current : g'.emitter.current = some fn'
  nextGlobal : g'.emitter.nextGlobal = g.emitter.nextGlobal
  name : fn'.name = fn.name
  count : fn'.frame.params = fn.frame.params + .ofNat params.length
  length : fn'.frame.slots.length = fn.frame.slots.length + params.length
  prior : fn.frame.slots <+: fn'.frame.slots
  packed : Slot.Packed 0 fn.frame.slots fn.frame.size → Slot.Packed 0 fn'.frame.slots fn'.frame.size
  placed : ∀ frame, fn'.frame.slots <+: frame → ParamsPlaced frame fn.frame.slots.length params homes

theorem run_param_ok {id : Ident} {isArray : Bool} {g : Codegen} (fresh : id.name ∉ g.scopes.current.layer.names) :
    (param (.named .int id isArray)).run g = .ok () ({ g with
      scopes := g.scopes.add (paramSymbol .int id isArray g.temp) }.allocated (paramSymbol .int id isArray g.temp)) := by
  have declared : g.scopes.declare (paramSymbol .int id isArray g.temp) =
      .ok (g.scopes.add (paramSymbol .int id isArray g.temp)) := Scopes.declare_of_fresh fresh
  have accepted : Check.variableType id.name TypeName.int.ty = .accepted := rfl
  rw [run_param_named]
  simp only [declared, accepted, judged_accepted]

def withParam (fn : Function) (name : Text) : Function :=
  { fn with frame := { fn.frame with params := fn.frame.params + 1 }.push name .param wordSize }

theorem allocated_param {type : TypeName} {id : Ident} {isArray : Bool} {storage : Operand} {g : Codegen} {fn : Function}
    (current : g.emitter.current = some fn) :
    (g.allocated (paramSymbol type id isArray storage)).emitter.current = some (withParam fn id.name) ∧
      (g.allocated (paramSymbol type id isArray storage)).emitter.nextGlobal = g.emitter.nextGlobal := by
  have size : Emitter.storageSize (paramSymbol type id isArray storage) = wordSize := by
    cases isArray <;> rfl
  have param : (paramSymbol type id isArray storage).isParam = true := rfl
  simp only [allocated, param, if_true, size, Emitter.countParam, current, Option.map_some, Emitter.take]
  exact ⟨rfl, trivial⟩

theorem params_translate {params : List Param} {g g' : Codegen} {fn : Function} (current : g.emitter.current = some fn)
    (ok : ∀ p ∈ params, ParamOk p) (distinct : (g.scopes.current.layer ++ paramLayer params).names.Nodup)
    (run : (params.forM param).run g = .ok () g') : ∃ fn' homes, PlacesParams params g g' fn fn' homes := by
  induction params generalizing g fn with
  | nil =>
    cases run
    exact ⟨fn, [], rfl, by simp, current, rfl, rfl, (Int64.add_zero _).symm, rfl, List.prefix_rfl, id, fun _ _ => .nil⟩
  | cons p rest ih =>
    change (param p >>= fun _ => rest.forM param).run g = _ at run
    obtain ⟨_, g₁, runFirst, runRest⟩ := bind_ok run
    have valid := ok p (by simp)
    cases p with
    | unnamed type => cases valid
    | named type id isArray =>
      cases (valid : type = .int)
      have names : Bindings.names (paramLayer (.named .int id isArray :: rest)) =
          id.name :: Bindings.names (paramLayer rest) := rfl
      rw [Bindings.names_append, names] at distinct
      have fresh : id.name ∉ g.scopes.current.layer.names := fun member =>
        (List.nodup_append.mp distinct).2.2 _ member _ (by simp) rfl
      rw [run_param_ok fresh] at runFirst
      cases runFirst
      have location : g.temp = .slot fn.frame.size := by simp [temp, Emitter.free, current]
      have home : (paramSymbol .int id isArray g.temp).home =
          if isArray then .array (.slot fn.frame.size) true else .var (.slot fn.frame.size) := by
        rw [location]
        cases isArray <;> rfl
      obtain ⟨current₁, global₁⟩ := @allocated_param .int id isArray g.temp
        { g with scopes := g.scopes.add (paramSymbol .int id isArray g.temp) } fn current
      obtain ⟨fn', homes, others⟩ := ih current₁ (fun p member => ok p (by simp [member]))
        (by
          change (Bindings.names (Scope.layer (Scopes.add _ _).current ++ paramLayer rest)).Nodup
          rw [Scopes.layer_add, Bindings.names_append, Bindings.names_append, List.append_assoc]
          exact distinct) runRest
      have view := others.view
      change _ = (Scopes.add _ _).current.view _ ++ _ at view
      rw [Scopes.view_add _ (fun _ _ => rfl), List.append_assoc, home] at view
      have count := others.count
      have length := others.length
      have prior := others.prior
      simp only [withParam, Frame.push] at count length prior
      refine ⟨fn', _, others.errors, view, others.current, others.nextGlobal.trans global₁, others.name, ?_, ?_,
        (List.prefix_append _ _).trans prior, fun packed => others.packed (packed.push rfl), fun frame fits => ?_⟩
      · rw [count, List.length_cons, Nat.add_comm, Int64.ofNat_add, Int64.add_assoc]
        rfl
      · rw [length]
        simp
        omega
      · have later := others.placed frame fits
        simp only [withParam, Frame.push, List.length_append, List.length_singleton] at later
        refine ParamsPlaced.cons (s := ⟨id.name, .param, fn.frame.size, wordSize⟩) ?_ rfl rfl later
        obtain ⟨rest', rfl⟩ := prior.trans fits
        simp

theorem declare_ok {line : Nat} {s : Symbol} {g : Codegen} (fresh : s.name ∉ g.scopes.current.layer.names) :
    (declare line s).run g = .ok true { g with scopes := g.scopes.add s } := by
  rw [run_declare, Scopes.declare_of_fresh fresh]

theorem announced_emitter (g : Codegen) (f : FunDecl) (s : Symbol) :
    (g.announced f s).emitter.functions = g.emitter.functions ∧
      (g.announced f s).emitter.nextGlobal = g.emitter.nextGlobal := by
  unfold announced
  split
  · simp only [aimed, judged_emitter, and_self]
  · exact ⟨rfl, rfl⟩

theorem funSymbol_home {f : FunDecl} (entry : Nat) (ok : ∀ p ∈ f.params.toList, ParamOk p) :
    ((funSymbol f entry).name, (funSymbol f entry).home) = functionHome f entry := by
  simp only [Symbol.home, funSymbol, paramTypes_eq ok, functionHome]
  cases f.type <;> rfl

theorem announced_clean {g : Codegen} {f : FunDecl} (entry : Nat)
    (main : f.id.name = mainName → f.type = .void ∧ f.params.toList = []) :
    (g.announced f (funSymbol f entry)).errors = g.errors := by
  unfold announced
  split
  · rename_i isMain
    obtain ⟨void, none⟩ := main isMain
    have accepted : Check.mainSignature (funSymbol f entry) = .accepted := by
      simp [Check.mainSignature, funSymbol, void, none, TypeName.ty, Codegen.paramTypes, Verdict.require]
    rw [accepted, judged_accepted]
    rfl
  · rfl

theorem withResult_current {g : Codegen} {fn : Function} (current : g.emitter.current = some fn) :
    g.withResult.emitter.current = some { fn with frame := fn.frame.push "return" .ret wordSize } := by
  simp only [withResult, Emitter.take, current]

namespace FunctionRun

variable {f : FunDecl} {g g₁ g₂ g₃ g₄ : Codegen} {fn : Function} {scopes : Scopes}

theorem places (h : FunctionRun f g g₁ g₂ g₃ g₄ fn scopes) (clean : g.errors = #[])
    (fresh : f.id.name ∉ g.scopes.current.layer.names) (ok : FunctionOk (g.scopes.current.layer ++ [functionEntry f]) f) :
    g₃.errors = #[] ∧ ∃ fn₂ params vars,
      PlacesParams f.params.toList (g₁.entered f (funSymbol f g.code.size)) g₂
        { name := f.id.name, entry := g₁.code.size } fn₂ params ∧
      PlacesVars f.vars (g₂.withResult.announced f (funSymbol f g.code.size)) g₃ vars := by
  obtain ⟨isNew, declared⟩ := h.declared
  rw [declare_ok fresh] at declared
  cases declared
  have distinct := ok.distinct
  rw [localLayer, Bindings.names_append] at distinct
  obtain ⟨fn₂, params, paramsPlaced⟩ := params_translate rfl ok.params
    (by exact (List.nodup_append.mp distinct).1) h.params
  have clean₂ : g₂.errors = #[] := paramsPlaced.errors.trans clean
  have announced := announced_clean (g := g₂.withResult) g.code.size ok.main
  have inside : (g₂.withResult.announced f (funSymbol f g.code.size)).emitter.current.isSome := by
    rw [announced_current, withResult_current paramsPlaced.current]
    rfl
  have layer : (g₂.withResult.announced f (funSymbol f g.code.size)).scopes.current.layer =
      paramLayer f.params.toList := by
    rw [announced_scopes]
    exact (params_sound (fun p member => (ok.params p member).complete) h.params clean₂).2.layer
  obtain ⟨vars, varsPlaced⟩ := vars_translate inside ok.vars
    (by rw [layer, Bindings.names_append]; exact distinct) h.vars
  exact ⟨(varsPlaced.errors.trans announced).trans clean₂, fn₂, params, vars, paramsPlaced, varsPlaced⟩

theorem fits_body (h : FunctionRun f g g₁ g₂ g₃ g₄ fn scopes) (top : g.TopLevel) {code : Array Instruction}
    (fits : Fits code g (g₄.concluded fn scopes)) :
    code[g.code.size]? = some { op := .func, a1 := .imm fn.frame.size, a2 := .imm fn.frame.params } ∧
      Fits code g₃ g₄ ∧ code[g₄.code.size]? = some { op := .ret } := by
  have size := h.size_before
  have grown := h.grows.toMoves.size_le
  have whole := h.code_whole
  have sizes : (g₄.concluded fn scopes).code.size = g₄.code.size + 1 := by simp [whole]
  refine ⟨?_, fun i low high => ?_, ?_⟩
  · rw [fits _ (Nat.le_refl _) (by omega), whole, Array.getElem?_modify, if_pos rfl,
      Array.getElem?_push_lt (by omega), ← Array.getElem?_eq_getElem (by omega), h.enters top]
    rfl
  · rw [fits i (by omega) (by omega), whole, Array.getElem?_modify, if_neg (by omega),
      Array.getElem?_push_lt high, ← Array.getElem?_eq_getElem high]
  · rw [fits _ (by omega) (by omega), whole, Array.getElem?_modify, if_neg (by omega), Array.getElem?_push_size]

theorem translates (h : FunctionRun f g g₁ g₂ g₃ g₄ fn scopes) (top : g.TopLevel) (regular : g.scopes.Regular)
    (clean : g.errors = #[]) (fresh : f.id.name ∉ g.scopes.current.layer.names)
    (ok : FunctionOk (g.scopes.current.layer ++ [functionEntry f]) f) :
    g₄.errors = #[] ∧
      scopes.current.view Symbol.home = g.scopes.current.view Symbol.home ++ [functionHome f g.code.size] ∧
      g₄.emitter.functions = g.emitter.functions ∧ g₄.emitter.nextGlobal = g.emitter.nextGlobal ∧
      ∀ code, Fits code g (g₄.concluded fn scopes) →
        FunctionCode code (g.scopes.current.view Symbol.home ++ [functionHome f g.code.size]) f
          { fn with stop := (g₄.code.size + 1 : Nat) } g.code.size g₄.code.size := by
  obtain ⟨clean₃, fn₂, params, vars, paramsPlaced, varsPlaced⟩ := h.places clean fresh ok
  have prepared := h.prepared top regular (fun p member => (ok.params p member).complete) clean₃
  have current := (announced_current _ f (funSymbol f g.code.size)).trans (withResult_current paramsPlaced.current)
  have inside := Option.isSome_iff_exists.mpr ⟨_, current⟩
  have ready : Ready f.type g₃ :=
    ⟨prepared.regular, prepared.exits, h.moves.inside inside, ⟨_, prepared.function, rfl⟩, clean₃⟩
  have view : g₁.scopes.current.view Symbol.home =
      g.scopes.current.view Symbol.home ++ [functionHome f g.code.size] := by
    rw [prepared.added, Scopes.view_add _ (fun _ _ => rfl), funSymbol_home _ ok.params]
  have homes : g₃.homes = [params ++ vars, g.scopes.current.view Symbol.home ++ [functionHome f g.code.size]] := by
    have locals := varsPlaced.view
    rw [announced_scopes] at locals
    change _ = g₂.scopes.current.view _ ++ _ at locals
    rw [paramsPlaced.view] at locals
    simp only [Codegen.homes, Scopes.view, Scopes.visible, List.map_cons, List.map_nil, prepared.outer, locals, view]
    rfl
  obtain ⟨clean₄, body⟩ := stmts_translate (fun s _ => stmt_translates f.type s) ready
    (fun s member => by rw [prepared.loops, prepared.env]; exact ok.body s member) h.body
  have visible := h.visible
  simp only [Scopes.visible, List.cons.injEq] at visible
  refine ⟨clean₄, by rw [visible.1, view], ?_, ?_, fun code fits => ?_⟩
  · rw [h.grows.functions, h.moves.functions, (announced_emitter _ _ _).1, (Declares.withResult g₂).functions,
      h.enlists.functions, prepared.added]
    change g.emitter.functions ++ g.emitter.current.toList = _
    rw [top.current]
    simp
  · rw [h.grows.nextGlobal ready.inside, h.moves.nextGlobal inside, (announced_emitter _ _ _).2]
    have global : g₂.withResult.emitter.nextGlobal = g₂.emitter.nextGlobal := by
      simp only [withResult, Emitter.take, paramsPlaced.current]
    rw [global, paramsPlaced.nextGlobal, prepared.added]
    rfl
  · have extends_ : Function.Extends { fn₂ with frame := fn₂.frame.push "return" .ret wordSize } fn := by
      obtain ⟨fn', current', extends_⟩ := (h.moves.trans h.grows.toMoves).of_current current
      rw [h.current] at current'
      cases current'
      exact extends_
    have prior := extends_.slots
    have length : fn₂.frame.slots.length = f.params.toList.length := paramsPlaced.length.trans (Nat.zero_add _)
    obtain ⟨enter, inner, leave⟩ := h.fits_body top fits
    have none : ∀ i, ¬ g₄.Pending i := by simp [Pending, h.loops top]
    have slots : (g₂.withResult.announced f (funSymbol f g.code.size)).slots =
        fn₂.frame.slots ++ [⟨"return", .ret, fn₂.frame.size, wordSize⟩] := by
      simp only [Codegen.slots, current, Frame.push]
    have before : (g₂.withResult.announced f (funSymbol f g.code.size)).slots.length = f.params.toList.length + 1 := by
      rw [slots, List.length_append, length]
      rfl
    have last : g₄.slots = fn.frame.slots := by simp only [Codegen.slots, h.current]
    have place₃ : g₃.place = ⟨g.code.size + 1, f.params.toList.length + 1 + f.vars.length⟩ := by
      rw [Codegen.place, varsPlaced.length, before, h.size_before]
    have place₄ : g₄.place = ⟨g₄.code.size, fn.frame.slots.length⟩ := by rw [Codegen.place, last]
    have statements := body code fn.frame.slots 0
      ⟨fun i low high _ => inner i low high, fun i _ pending => absurd pending (none i)⟩ (last ▸ List.prefix_rfl)
    have turn : g₃.turn 0 = Option.none := by simp [Codegen.turn, prepared.loops]
    rw [turn, homes, place₃, place₄] at statements
    refine ⟨extends_.name.trans paramsPlaced.name, h.entry, rfl, ?_, extends_.packed ((paramsPlaced.packed .nil).push rfl),
      enter, leave, ?_, params, vars, ?_, ?_, statements⟩
    · rw [extends_.params]
      exact paramsPlaced.count.trans (Int64.zero_add _)
    · obtain ⟨rest, same⟩ := prior
      refine ⟨⟨"return", .ret, fn₂.frame.size, wordSize⟩, ?_, rfl, rfl⟩
      rw [← same, ← length]
      simp [Frame.push]
    · exact paramsPlaced.placed _ ((List.prefix_append _ _).trans prior)
    · have placed := varsPlaced.placed fn.frame.slots (last ▸ h.grows.toMoves.slots)
      rwa [before] at placed

end FunctionRun

/-- The instructions before the first function, where the names declared so far are at hand. -/
structure Startup (g : Codegen) : Prop where
  start : ∃ target, g.code[0]? = some { op := .call, a1 := target, a2 := .imm 0 } ∧
    ∀ entry result params,
      (g.scopes.current.view Symbol.home).lookup mainName = some (.function entry result params) →
        target = .label entry ∧ result = .void ∧ params = []
  halt : g.code[1]? = some openJump

theorem Startup.of_var {g g' : Codegen} {d : VarDecl} {location : Operand} (startup : Startup g)
    (code : g'.code = g.code) (view : g'.scopes.current.view Symbol.home =
      g.scopes.current.view Symbol.home ++ [(d.id.name, varHome d location)]) : Startup g' := by
  obtain ⟨target, found, main⟩ := startup.start
  refine ⟨⟨target, code ▸ found, fun entry result params found => ?_⟩, code ▸ startup.halt⟩
  rw [view, List.lookup_append, Option.or_eq_some_iff] at found
  rcases found with earlier | ⟨_, last⟩
  · exact main _ _ _ earlier
  · rw [List.lookup_cons] at last
    unfold varHome at last
    split at last
    · split at last <;> cases last
    · cases last

theorem FunctionRun.startup {f : FunDecl} {g g₁ g₂ g₃ g₄ : Codegen} {fn : Function} {scopes : Scopes}
    (h : FunctionRun f g g₁ g₂ g₃ g₄ fn scopes) (startup : Startup g) (fresh : f.id.name ∉ g.scopes.current.layer.names)
    (main : f.id.name = mainName → f.type = .void ∧ f.params.toList = [])
    (view : scopes.current.view Symbol.home = g.scopes.current.view Symbol.home ++ [functionHome f g.code.size]) :
    Startup (g₄.concluded fn scopes) := by
  obtain ⟨target, found, earlier⟩ := startup.start
  refine ⟨⟨_, h.start found, fun entry result params lookup => ?_⟩, h.code_before Nat.one_pos startup.halt⟩
  change (scopes.current.view Symbol.home).lookup mainName = _ at lookup
  rw [view, List.lookup_append, Option.or_eq_some_iff] at lookup
  rcases lookup with lookup | ⟨_, lookup⟩
  · have other : f.id.name ≠ mainName := by
      intro isMain
      rw [isMain, ← Scope.find?_eq_none_iff] at fresh
      rw [Scope.lookup_view, fresh] at lookup
      cases lookup
    rw [if_neg other]
    exact earlier _ _ _ lookup
  · rw [List.lookup_cons] at lookup
    split at lookup
    · rename_i same
      have isMain : f.id.name = mainName := (by simpa [functionHome] using same : mainName = f.id.name).symm
      obtain ⟨void, none⟩ := main isMain
      cases lookup
      rw [if_pos isMain]
      exact ⟨rfl, void, by rw [none]; rfl⟩
    · cases lookup

structure Clean (g : Codegen) : Prop where
  top : g.TopLevel
  regular : g.scopes.Regular
  errors : g.errors = #[]
  startup : Startup g

structure Translated (decls : List Decl) (g g' : Codegen) (functions : List Function) : Prop where
  clean : Clean g'
  added : g'.emitter.functions = g.emitter.functions ++ functions
  code : ∀ code, Fits code g g' → DeclsCode code (g.scopes.current.view Symbol.home) g.code.size g.emitter.nextGlobal
    decls functions (g'.scopes.current.view Symbol.home) g'.code.size g'.emitter.nextGlobal

theorem var_translates {d : VarDecl} {g : Codegen} (clean : Clean g) (ok : VarOk d)
    (fresh : d.id.name ∉ g.scopes.current.layer.names) :
    ∃ g', (varDecl d).run g = .ok () g' ∧ Clean g' ∧ g'.code = g.code ∧
      g'.scopes.current.layer = g.scopes.current.layer ++ varLayer [d] ∧
      g'.emitter.functions = g.emitter.functions ∧
      g'.scopes.current.view Symbol.home =
        g.scopes.current.view Symbol.home ++ [(d.id.name, varHome d (.global g.emitter.nextGlobal))] ∧
      g'.emitter.nextGlobal = g.emitter.nextGlobal + .ofNat (Reference.words d) * wordSize := by
  have run := run_varDecl_ok ok fresh
  refine ⟨_, run, ?_⟩
  have declares := ((yields_varDecl d g).of_run run).1
  have location : g.temp = .global g.emitter.nextGlobal := by simp [temp, Emitter.free, clean.top.current]
  have view : ({ g with scopes := g.scopes.add (varSymbol d g.temp) }.allocated (varSymbol d g.temp)).scopes.current.view
      Symbol.home = g.scopes.current.view Symbol.home ++ [(d.id.name, varHome d (.global g.emitter.nextGlobal))] := by
    change (Scopes.add _ _).current.view _ = _
    rw [Scopes.view_add _ (fun _ _ => rfl), varSymbol_home, location]
    rfl
  obtain ⟨_, _, enlarges⟩ := varDecl_sound run clean.errors
  refine ⟨⟨declares.topLevel clean.top, enlarges.regular clean.regular, clean.errors,
    clean.startup.of_var declares.code view⟩, declares.code, enlarges.layer, declares.functions, view, ?_⟩
  have size := storageSize_varSymbol ok g.temp
  have own : (varSymbol d g.temp).isParam = false := rfl
  simp only [allocated, own, Bool.false_eq_true, if_false, Emitter.take, clean.top.current, size]

theorem Fits.between {code : Array Instruction} {g g₁ g' : Codegen} (fits : Fits code g g') (adds : Adds g₁ g')
    (positive : 0 < g.code.size) : Fits code g g₁ := by
  intro i low high
  have kept := adds.code (Nat.lt_of_lt_of_le positive low) (Array.getElem?_eq_getElem high)
  rw [fits i low (Array.getElem?_eq_some_iff.mp kept).1, kept, Array.getElem?_eq_getElem high]

theorem Clean.positive {g : Codegen} (clean : Clean g) : 0 < g.code.size := by
  obtain ⟨target, found, _⟩ := clean.startup.start
  exact (Array.getElem?_eq_some_iff.mp found).1

theorem decls_translate {decls : List Decl} {globals final : Layer} (ok : DeclsOk globals decls final) {g g' : Codegen}
    (clean : Clean g) (same : g.scopes.current.layer = globals) (run : (decls.forM decl).run g = .ok () g') :
    g'.scopes.current.layer = final ∧ ∃ functions, Translated decls g g' functions := by
  induction ok generalizing g with
  | nil =>
    cases run
    exact ⟨same, [], clean, by simp, fun _ _ => .nil⟩
  | @var globals final d rest ok fresh _ ih =>
    change (varDecl d >>= fun _ => rest.forM decl).run g = _ at run
    obtain ⟨_, g₁, runFirst, runRest⟩ := bind_ok run
    subst same
    obtain ⟨_, run', clean₁, code₁, layer₁, functions₁, view₁, global₁⟩ := var_translates clean ok fresh
    rw [runFirst] at run'
    cases run'
    obtain ⟨last, functions, others⟩ := ih clean₁ layer₁ runRest
    refine ⟨last, functions, others.clean, by rw [others.added, functions₁], fun code fits => .var ?_⟩
    have later := others.code code (fits.after (Nat.le_of_eq (by rw [code₁])))
    rwa [view₁, code₁, global₁] at later
  | @fn globals final f rest fresh ok _ ih =>
    change (funDecl f >>= fun _ => rest.forM decl).run g = _ at run
    obtain ⟨_, g₀, runFirst, runRest⟩ := bind_ok run
    subst same
    obtain ⟨g₁, g₂, g₃, g₄, fn, scopes, h⟩ := exists_functionRun f clean.top
    rw [h.run] at runFirst
    cases runFirst
    obtain ⟨errors, view, before, global, body⟩ := h.translates clean.top clean.regular clean.errors fresh ok
    have adds := h.adds clean.top
    obtain ⟨_, run', adds', _⟩ := runs_decls rest adds.topLevel
    rw [runRest] at run'
    cases run'
    have prepared := h.prepared clean.top clean.regular (fun p member => (ok.params p member).complete)
      (h.grows.toMoves.clean errors)
    have visible := h.visible
    simp only [Scopes.visible, List.cons.injEq] at visible
    have clean₁ : Clean (g₄.concluded fn scopes) :=
      ⟨adds.topLevel, prepared.globals.of_visible h.visible, errors, h.startup clean.startup fresh ok.main view⟩
    obtain ⟨last, functions, others⟩ := ih clean₁ ((congrArg Scope.layer visible.1).trans prepared.layer) runRest
    have size : (g₄.concluded fn scopes).code.size = g₄.code.size + 1 := by simp [concluded, closed, Codegen.code]
    have added := others.added
    change _ = (g₄.emitter.functions ++ [_]) ++ _ at added
    rw [before, List.append_assoc] at added
    refine ⟨last, _, others.clean, added, fun code fits => ?_⟩
    have later := others.code code (fits.after (by
      have := h.size_before
      have := h.grows.toMoves.size_le
      omega))
    change DeclsCode _ (scopes.current.view _) _ g₄.emitter.nextGlobal _ _ _ _ _ at later
    rw [view, size, global] at later
    exact .fn (body code (fits.between adds' clean.positive)) later

theorem clean_initial : Clean {} := by
  refine ⟨topLevel_initial, regular_initial, rfl, ⟨⟨.unresolved, rfl, fun entry result params found => ?_⟩, rfl⟩⟩
  have none : (({} : Codegen).scopes.current.view Symbol.home).lookup mainName = none := by decide
  rw [none] at found
  cases found

theorem resolve?_main {g : Codegen} {result : TypeName} {params : List Ty} (clean : Clean g)
    (found : g.scopes.current.layer.lookup mainName = some (.function result params)) :
    ∃ s, g.scopes.resolve? mainName = some s ∧ s.kind = .func ∧ s.builtin = false := by
  rw [← Scopes.find?_view_global _ clean.top.outer] at found
  obtain ⟨s, resolved, declared⟩ := resolve?_of_env found
  obtain ⟨kind, _, _⟩ := kind_of_declaredAs.2.2 declared
  refine ⟨s, resolved, kind, ?_⟩
  cases builtin : s.builtin with
  | false => rfl
  | true =>
    have output := ((clean.regular.of_resolve? resolved).builtin builtin).1
    rw [Scopes.name_of_resolve? resolved] at output
    exact absurd output (by decide)

theorem source_translates {s : Source} (ok : WellTyped s) :
    ∃ g entry globals, Codegen.run s = .ok g ∧ g.errors = #[] ∧ ProgramCode s g.emitter.program entry globals := by
  obtain ⟨final, declsOk, result, params, found⟩ := ok
  obtain ⟨g, run, adds, _⟩ := runs_decls s.decls topLevel_initial
  obtain ⟨layer, functions, translated⟩ := decls_translate declsOk clean_initial rfl run
  have clean := translated.clean
  rw [← layer] at found
  obtain ⟨main, resolved, kind, own⟩ := resolve?_main clean found
  have accepted : Check.mainDeclared (g.scopes.resolve? mainName) = .accepted := by
    simp [Check.mainDeclared, resolved, kind, own, Verdict.require]
  have completed : g.completed s = g.finished := by rw [Codegen.completed, accepted, judged_accepted]
  have home : (g.scopes.current.view Symbol.home).lookup mainName =
      some (.function main.entry (if main.type = .void then .void else .int) main.params) := by
    rw [← Scopes.find?_view_global _ clean.top.outer, Scopes.find?_view, resolved]
    simp [Symbol.home, kind, own]
  obtain ⟨target, start, isMain⟩ := clean.startup.start
  obtain ⟨rfl, void, none⟩ := isMain _ _ _ home
  rw [void, none] at home
  have code : g.finished.code = g.code.modify 1 (·.aimed g.code.size) := rfl
  have size : g.finished.code.size = g.code.size := by rw [code, Array.size_modify]
  refine ⟨g.finished, main.entry, _, completed ▸ run_eq_completed run adds.topLevel, clean.errors, ?_, ?_, ?_, home⟩
  · change g.finished.code[0]? = _
    rw [code, Array.getElem?_modify, if_neg (by decide), start]
  · change g.finished.code[1]? = some { op := .jp, a1 := .label g.finished.code.size }
    rw [size, code, Array.getElem?_modify, if_pos rfl, clean.startup.halt]
    rfl
  · have fits : Fits g.finished.code {} g := by
      intro i low high
      have past : 1 < i := low
      rw [code, Array.getElem?_modify, if_neg (by omega)]
    have decls := translated.code _ fits
    have program : g.finished.emitter.program = ⟨g.finished.code, functions, g.emitter.nextGlobal - dataBase⟩ := by
      have none : g.finished.emitter.current.toList = [] := by
        change g.emitter.current.toList = []
        rw [clean.top.current]
        rfl
      rw [Emitter.program, none, List.append_nil]
      change Program.mk _ g.emitter.functions _ = _
      rw [translated.added]
      rfl
    have data : dataBase + (g.emitter.nextGlobal - dataBase) = g.emitter.nextGlobal := by
      rw [Int64.add_comm, Int64.sub_add_cancel]
    simp only [program, size, data]
    exact decls

end MiniC.Codegen
